import StableModels.Proofs.Matching

/-!
# Instantiation

Instantiating a pattern may put terms into the store, and it may fail. Computations in a growing
store are described by `StableModels.Interning.Ensures`: whether it fails or not, the store stays
sound and reads all that it knew as before, and if it does not fail its result is as described.

A pattern that has been instantiated **pins** its term (`StableModels.Pattern.Pins`): whatever the
slots that are still free may come to stand for, the pattern denotes this term and no other. Hence
one never has to ask which of several terms a conclusion stands for.
-/

namespace StableModels

/-! ### Computations with a state that may fail -/

section Bind

variable {ε σ α β : Type} {compute : EStateM ε σ α} {next : α → EStateM ε σ β} {state after : σ}

theorem bind_of_ok {result : α} (computed : compute state = .ok result after) :
    (compute >>= next) state = next result after := by
  simp only [bind, EStateM.bind, computed]

theorem bind_of_error {error : ε} (computed : compute state = .error error after) :
    (compute >>= next) state = .error error after := by
  simp only [bind, EStateM.bind, computed]

/-- If both parts of a computation succeed in a row then each of them does. -/
theorem exists_of_bind_eq_ok {result : β} (computed : (compute >>= next) state = .ok result after) :
    ∃ found middle, compute state = .ok found middle ∧ next found middle = .ok result after := by
  cases first : compute state with
  | error error middle =>
    rw [bind_of_error first] at computed
    cases computed
  | ok found middle =>
    rw [bind_of_ok first] at computed
    exact ⟨found, middle, rfl, computed⟩

/-- Looking at the state first. -/
theorem get_bind (next : σ → EStateM ε σ α) (state : σ) :
    (MonadState.get >>= next) state = next state state := rfl

end Bind

/-! ### Computations in a growing store -/

/-- The computation keeps the store in its state sound and extends it, and its result, if there is
one, is as described. -/
def Ensures {σ α : Type} (storeOf : σ → Store) (compute : EStateM Fault σ α) (state : σ)
    (post : α → σ → Prop) : Prop :=
  match compute state with
  | .ok result after =>
    (storeOf after).Sound ∧ (storeOf state).Extends (storeOf after) ∧ post result after
  | .error _ after => (storeOf after).Sound ∧ (storeOf state).Extends (storeOf after)

section Ensures

variable {σ α β : Type} {storeOf : σ → Store} {state : σ}

theorem Ensures.pure {result : α} {post : α → σ → Prop} (sound : (storeOf state).Sound)
    (holds : post result state) : Ensures storeOf (Pure.pure result) state post :=
  ⟨sound, .refl _, holds⟩

/-- What follows a computation may rely on what it ensures. -/
theorem Ensures.bind {compute : EStateM Fault σ α} {next : α → EStateM Fault σ β}
    {middle : α → σ → Prop} {post : β → σ → Prop} (ensures : Ensures storeOf compute state middle)
    (continues : ∀ result after, (storeOf after).Sound → (storeOf state).Extends (storeOf after) →
      middle result after → Ensures storeOf (next result) after post) :
    Ensures storeOf (compute >>= next) state post := by
  rw [Ensures] at ensures
  cases hcompute : compute state with
  | error fault after =>
    rw [hcompute] at ensures
    rw [Ensures, bind_of_error hcompute]
    exact ensures
  | ok result after =>
    rw [hcompute] at ensures
    obtain ⟨hsound, extension, hmiddle⟩ := ensures
    have hnext := continues result after hsound extension hmiddle
    rw [Ensures] at hnext
    rw [Ensures, bind_of_ok hcompute]
    cases hresult : next result after with
    | error fault last =>
      rw [hresult] at hnext
      exact ⟨hnext.1, extension.trans hnext.2⟩
    | ok last final =>
      rw [hresult] at hnext
      exact ⟨hnext.1, extension.trans hnext.2.1, hnext.2.2⟩

/-- What a computation ensures may be weakened in the light of its result. -/
theorem Ensures.imp {compute : EStateM Fault σ α} {post weaker : α → σ → Prop}
    (ensures : Ensures storeOf compute state post)
    (weaken : ∀ result after, compute state = .ok result after → (storeOf after).Sound →
      (storeOf state).Extends (storeOf after) → post result after → weaker result after) :
    Ensures storeOf compute state weaker := by
  rw [Ensures] at ensures ⊢
  cases hcompute : compute state with
  | error fault after =>
    rw [hcompute] at ensures
    exact ensures
  | ok result after =>
    rw [hcompute] at ensures
    obtain ⟨sound, extension, holds⟩ := ensures
    exact ⟨sound, extension, weaken result after hcompute sound extension holds⟩

theorem Ensures.mono {compute : EStateM Fault σ α} {post weaker : α → σ → Prop}
    (ensures : Ensures storeOf compute state post)
    (weaken : ∀ result after, (storeOf after).Sound → (storeOf state).Extends (storeOf after) →
      post result after → weaker result after) : Ensures storeOf compute state weaker :=
  ensures.imp fun result after _ => weaken result after

/-- The result that is described is the result of the computation. -/
theorem Ensures.computed {compute : EStateM Fault σ α} {post : α → σ → Prop}
    (ensures : Ensures storeOf compute state post) :
    Ensures storeOf compute state fun result after =>
      compute state = .ok result after ∧ post result after :=
  ensures.imp fun _ _ computed _ _ holds => ⟨computed, holds⟩

end Ensures

/-- The computation keeps the store sound and extends it, and its result, if there is one, is as
described. -/
abbrev Interning.Ensures {α : Type} (compute : Interning α) (store : Store)
    (post : α → Store → Prop) : Prop :=
  StableModels.Ensures (fun store => store) compute store post

theorem Interning.ensures_fail {α : Type} {store : Store} {cause : Cause} {post : α → Store → Prop}
    (sound : store.Sound) : Ensures (Interning.fail cause) store post :=
  ⟨sound, .refl store⟩

/-! ### Patterns with one reading -/

namespace Pattern

/-- Above the valuation the pattern denotes this term and no other. -/
def Pins (valuation : Valuation) (pattern : Pattern) (term : Term) : Prop :=
  ∀ above, valuation.Within above → ∀ other, pattern.Denotes above other ↔ other = term

/-- Above the valuation the patterns denote these terms and no others. -/
def PinAll (valuation : Valuation) (patterns : List Pattern) (terms : List Term) : Prop :=
  ∀ above, valuation.Within above → ∀ others, DenoteAll above patterns others ↔ others = terms

variable {valuation : Valuation} {pattern : Pattern} {patterns : List Pattern} {term : Term}
  {terms : List Term}

theorem Pins.denotes (pins : Pins valuation pattern term) : pattern.Denotes valuation term :=
  (pins valuation (.refl valuation) term).2 rfl

theorem PinAll.denote (pins : PinAll valuation patterns terms) :
    DenoteAll valuation patterns terms :=
  (pins valuation (.refl valuation) terms).2 rfl

theorem PinAll.nil (valuation : Valuation) : PinAll valuation [] [] := by
  intro above _ others
  cases others <;> simp [DenoteAll]

theorem PinAll.cons (pins : Pins valuation pattern term) (rest : PinAll valuation patterns terms) :
    PinAll valuation (pattern :: patterns) (term :: terms) := by
  intro above within others
  cases others with
  | nil => simp [DenoteAll]
  | cons other others => rw [DenoteAll, pins above within, rest above within, List.cons.injEq]

theorem PinAll.const {name : String} (pins : PinAll valuation patterns terms) :
    Pins valuation (.const name patterns) (.const name terms) := by
  intro above within other
  simp only [Denotes, pins above within, exists_eq_right]

end Pattern

/-! ### Conclusions with one reading -/

namespace Conclusion

/-- Above the valuation the conclusion is this atom and no other. -/
def Pins (valuation : Valuation) (conclusion : Conclusion) (atom : Atom) : Prop :=
  ∀ above, valuation.Within above → ∀ other, conclusion.Gives above other ↔ other = atom

/-- Above the valuation the conclusion is this choice and no other. -/
def PinsChoice (valuation : Valuation) (conclusion : Conclusion) (name : String)
    (args offered : List Term) (exhaustive : Bool) : Prop :=
  ∀ above, valuation.Within above → ∀ name' args' offered' exhaustive',
    conclusion.Chooses above name' args' offered' exhaustive' ↔
      name' = name ∧ args' = args ∧ offered' = offered ∧ exhaustive' = exhaustive

variable {valuation above : Valuation} {conclusion : Conclusion} {name : String} {atom : Atom}
  {args offered : List Term} {exhaustive : Bool}

theorem Pins.gives (pins : Pins valuation conclusion atom) : conclusion.Gives valuation atom :=
  (pins valuation (.refl valuation) atom).2 rfl

theorem PinsChoice.chooses (pins : PinsChoice valuation conclusion name args offered exhaustive) :
    conclusion.Chooses valuation name args offered exhaustive :=
  (pins valuation (.refl valuation) name args offered exhaustive).2 ⟨rfl, rfl, rfl, rfl⟩

theorem Pins.mono (within : valuation.Within above) (pins : Pins valuation conclusion atom) :
    Pins above conclusion atom := fun higher hhigher => pins higher (within.trans hhigher)

theorem PinsChoice.mono (within : valuation.Within above)
    (pins : PinsChoice valuation conclusion name args offered exhaustive) :
    PinsChoice above conclusion name args offered exhaustive :=
  fun higher hhigher => pins higher (within.trans hhigher)

theorem pins_intermediate {patterns : List Pattern}
    (pins : Pattern.PinAll valuation patterns args) :
    Pins valuation (.intermediate name patterns) (.tuple name args) := by
  intro above within other
  constructor
  · rintro ⟨denotes⟩
    rw [(pins above within _).1 denotes]
  · rintro rfl
    exact .tuple ((pins above within _).2 rfl)

theorem pins_fact {patterns : List Pattern} {pattern : Pattern} {value : Term}
    (pins : Pattern.PinAll valuation patterns args)
    (value_pins : Pattern.Pins valuation pattern value) :
    Pins valuation (.fact name patterns pattern) (.fact name args value) := by
  intro above within other
  constructor
  · rintro (_ | ⟨denotes, value_denotes⟩)
    rw [(pins above within _).1 denotes, (value_pins above within _).1 value_denotes]
  · rintro rfl
    exact .fact ((pins above within _).2 rfl) ((value_pins above within _).2 rfl)

theorem pinsChoice_choice {patterns values : List Pattern}
    (pins : Pattern.PinAll valuation patterns args)
    (values_pin : Pattern.PinAll valuation values offered) :
    PinsChoice valuation (.choice name patterns values exhaustive) name args offered
      exhaustive := by
  intro above within name' args' offered' exhaustive'
  constructor
  · rintro ⟨denotes, values_denote⟩
    exact ⟨rfl, (pins above within _).1 denotes, (values_pin above within _).1 values_denote, rfl⟩
  · rintro ⟨rfl, rfl, rfl, rfl⟩
    exact .choice ((pins above within _).2 rfl) ((values_pin above within _).2 rfl)

end Conclusion

/-! ### Instantiation -/

namespace Substitution

variable {substitution : Substitution}

mutual

/-- **Instantiation** answers a handle of the term that the pattern pins. -/
theorem ensures_instantiate : {compiled : CompiledPattern} → {pattern : Pattern} → {store : Store} →
    store.Sound → substitution.Known store → Compiles store pattern compiled →
      (substitution.instantiate compiled).Ensures store fun handle after =>
        ∃ term, after.expand handle = some term ∧
          pattern.Pins (substitution.valuation store) term
  | .term handle, _, _, sound, _, .ground denotes_iff expanded => by
    rw [instantiate]
    exact .pure sound ⟨_, expanded, fun above _ => denotes_iff above⟩
  | .var slot, _, _, sound, known, .var _ => by
    rw [instantiate]
    split
    · next handle bound =>
      obtain ⟨term, expanded⟩ := known slot handle bound
      have hslot := valuation_eq_some_iff.2 ⟨handle, bound, expanded⟩
      refine .pure sound ⟨term, expanded, ?_⟩
      intro above within other
      rw [Pattern.Denotes, within slot term hslot, Option.some.injEq, eq_comm]
    · exact Interning.ensures_fail sound
  | .wildcard, _, _, sound, _, .wildcard => by
    rw [instantiate]
    exact Interning.ensures_fail sound
  | .const name compiled, _, _, sound, known, .const args_compile => by
    rw [instantiate]
    refine (ensures_instantiateAll sound known args_compile).bind ?_
    rintro handles after hsound - ⟨terms, expanded, pins⟩
    obtain ⟨hsound', extension, hterm⟩ := hsound.expand_intern (expanded.const name)
    exact ⟨hsound', extension, _, hterm, pins.const⟩

/-- Instantiating patterns one after the other. -/
theorem ensures_instantiateAll : {compiled : List CompiledPattern} → {patterns : List Pattern} →
    {store : Store} → store.Sound → substitution.Known store → CompilesAll store patterns compiled →
      (substitution.instantiateAll compiled).Ensures store fun handles after =>
        ∃ terms, after.Expands handles terms ∧
          Pattern.PinAll (substitution.valuation store) patterns terms
  | [], _, _, sound, _, .nil => by
    rw [instantiateAll]
    exact .pure sound ⟨[], .nil, .nil _⟩
  | _ :: _, _, _, sound, known, .cons compiles rest => by
    rw [instantiateAll]
    refine (ensures_instantiate sound known compiles).bind ?_
    rintro handle middle hsound extension ⟨term, expanded, pins⟩
    refine (ensures_instantiateAll hsound (known.mono extension)
      (CompilesAll.mono extension rest)).bind ?_
    rintro handles after hsound' extension' ⟨terms, expanded', pins'⟩
    rw [known.valuation_eq extension] at pins'
    exact .pure hsound' ⟨term :: terms, .cons (extension'.expand expanded) expanded',
      .cons pins pins'⟩

end

end Substitution

end StableModels
