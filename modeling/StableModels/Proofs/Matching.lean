import StableModels.Proofs.Semantics

/-!
# Matching and instantiation

What the engine does with compiled patterns and handles is what `StableModels.Pattern.Denotes` says
about patterns and terms. A compiled pattern denotes the same terms as its pattern, in the store
it was compiled in and in every extension of it (`StableModels.Pattern.compile_sound`).

Matching is described by two theorems that do not speak of the order of the bindings. A match that
succeeds only adds bindings, and afterwards the pattern denotes the term
(`StableModels.Substitution.matchTerm_sound`). And whenever *some* valuation above the
substitution makes the pattern denote the term, the match succeeds and stays below that valuation
(`StableModels.Substitution.matchTerm_complete`). Together they say that a match answers the least
such valuation; the second one is what lets a join be matched from either side.
-/

namespace StableModels

/-! ### Valuations -/

namespace Valuation

theorem Within.refl (valuation : Valuation) : valuation.Within valuation := fun _ _ bound => bound

theorem Within.trans {first second third : Valuation} (hfirst : first.Within second)
    (hsecond : second.Within third) : first.Within third :=
  fun slot term bound => hsecond slot term (hfirst slot term bound)

/-- Slots that stand for terms stand for them in every valuation that says more. -/
theorem Within.map_eq {first second : Valuation} (within : first.Within second) {slots : List Nat}
    {terms : List Term} (binds : slots.map first = terms.map some) :
    slots.map second = terms.map some := by
  induction slots generalizing terms with
  | nil => simpa using binds
  | cons slot slots ih =>
    cases terms with
    | nil => cases binds
    | cons term terms =>
      obtain ⟨hslot, hslots⟩ := List.cons.inj binds
      rw [List.map_cons, List.map_cons, within slot term hslot, ih hslots]

end Valuation

namespace Pattern

mutual

theorem Denotes.mono {first second : Valuation} (within : first.Within second) :
    {pattern : Pattern} → {term : Term} → pattern.Denotes first term → pattern.Denotes second term
  | .unit, _, denotes | .int _, _, denotes | .bool _, _, denotes | .string _, _, denotes
  | .ref _, _, denotes => denotes
  | .const _ _, _, ⟨terms, heq, denotes⟩ => ⟨terms, heq, DenoteAll.mono within denotes⟩
  | .var slot, term, denotes => within slot term denotes
  | .wildcard, _, _ => trivial

theorem DenoteAll.mono {first second : Valuation} (within : first.Within second) :
    {patterns : List Pattern} → {terms : List Term} → DenoteAll first patterns terms →
      DenoteAll second patterns terms
  | [], [], _ => trivial
  | _ :: _, _ :: _, ⟨denotes, rest⟩ => ⟨denotes.mono within, DenoteAll.mono within rest⟩

end

theorem denoteAll_iff {valuation : Valuation} :
    {patterns : List Pattern} → {terms : List Term} →
      (DenoteAll valuation patterns terms ↔ List.Forall₂ (Denotes valuation) patterns terms)
  | [], [] => by simp [DenoteAll]
  | [], _ :: _ | _ :: _, [] => by simp [DenoteAll]
  | _ :: _, _ :: _ => by rw [DenoteAll, List.forall₂_cons, denoteAll_iff]

/-- Variables denote what their slots stand for. -/
theorem denoteAll_map_var {valuation : Valuation} {slots : List Nat} {terms : List Term} :
    DenoteAll valuation (slots.map .var) terms ↔ slots.map valuation = terms.map some := by
  induction slots generalizing terms with
  | nil => cases terms <;> simp [DenoteAll]
  | cons slot slots ih =>
    cases terms with
    | nil => simp [DenoteAll]
    | cons term terms =>
      rw [List.map_cons, DenoteAll, ih, Denotes, List.map_cons, List.map_cons, List.cons.injEq]

theorem DenoteAll.length_eq {valuation : Valuation} :
    {patterns : List Pattern} → {terms : List Term} → DenoteAll valuation patterns terms →
      patterns.length = terms.length
  | [], [], _ => rfl
  | _ :: _, _ :: _, ⟨_, rest⟩ => congrArg (· + 1) rest.length_eq

end Pattern

/-! ### Compiled patterns -/

/-- The compiled form of a pattern: its ground parts are handles of the terms that they denote,
and the rest of it is unchanged. -/
inductive Compiles (store : Store) : Pattern → CompiledPattern → Prop where
  /-- A pattern that denotes one term, whatever the slots stand for. -/
  | ground {pattern : Pattern} {handle : Handle} {term : Term}
      (denotes_iff : ∀ valuation other, pattern.Denotes valuation other ↔ other = term)
      (expanded : store.expand handle = some term) : Compiles store pattern (.term handle)
  /-- A variable. -/
  | var (slot : Nat) : Compiles store (.var slot) (.var slot)
  /-- A wildcard. -/
  | wildcard : Compiles store .wildcard .wildcard
  /-- A constructor over compiled arguments. -/
  | const {name : String} {args : List Pattern} {compiled : List CompiledPattern}
      (args_compile : List.Forall₂ (Compiles store) args compiled) :
      Compiles store (.const name args) (.const name compiled)

/-- Patterns and their compiled forms, one by one. -/
abbrev CompilesAll (store : Store) : List Pattern → List CompiledPattern → Prop :=
  List.Forall₂ (Compiles store)

mutual

theorem Compiles.mono {before after : Store} (extension : before.Extends after) :
    {compiled : CompiledPattern} → {pattern : Pattern} → Compiles before pattern compiled →
      Compiles after pattern compiled
  | .term _, _, .ground denotes_iff expanded => .ground denotes_iff (extension.expand expanded)
  | .var _, _, .var slot => .var slot
  | .wildcard, _, .wildcard => .wildcard
  | .const _ _, _, .const args_compile => .const (CompilesAll.mono extension args_compile)

theorem CompilesAll.mono {before after : Store} (extension : before.Extends after) :
    {compiled : List CompiledPattern} → {patterns : List Pattern} →
      CompilesAll before patterns compiled → CompilesAll after patterns compiled
  | [], _, .nil => .nil
  | _ :: _, _, .cons compiles rest =>
    .cons (compiles.mono extension) (CompilesAll.mono extension rest)

end

namespace Pattern

/-- The compiled form of a shape stands for the tree of the shape. -/
theorem compileShape_sound {store : Store} (sound : store.Sound) (shape : Shape) {term : Term}
    (expanded : store.expandShape shape = some term) {pattern : Pattern}
    (denotes_iff : ∀ valuation other, pattern.Denotes valuation other ↔ other = term) :
    (compileShape shape store).2.Sound ∧ store.Extends (compileShape shape store).2 ∧
      Compiles (compileShape shape store).2 pattern (compileShape shape store).1 := by
  obtain ⟨hsound, extension, hexpand⟩ := sound.expand_intern expanded
  exact ⟨hsound, extension, .ground denotes_iff hexpand⟩

/-- Patterns that all became handles denote the terms behind the handles, whatever the slots
stand for. -/
theorem exists_expands_of_terms? {store : Store} {patterns : List Pattern}
    {compiled : List CompiledPattern} {handles : List Handle}
    (compiles : CompilesAll store patterns compiled) (ground : terms? compiled = some handles) :
    ∃ terms, store.Expands handles terms ∧
      ∀ valuation others, DenoteAll valuation patterns others ↔ others = terms := by
  induction compiles generalizing handles with
  | nil =>
    obtain rfl := Option.some.inj ground
    refine ⟨[], List.Forall₂.nil, ?_⟩
    intro valuation others
    cases others <;> simp [DenoteAll]
  | cons hfirst _ ih =>
    cases hfirst with
    | @ground pattern handle term denotes_iff expanded =>
      rw [terms?] at ground
      obtain ⟨others, hothers, rfl⟩ := Option.map_eq_some_iff.1 ground
      obtain ⟨terms, hterms, hdenote⟩ := ih hothers
      refine ⟨term :: terms, List.Forall₂.cons expanded hterms, ?_⟩
      intro valuation others
      cases others with
      | nil => simp [DenoteAll]
      | cons other others => rw [DenoteAll, hdenote, denotes_iff, List.cons.injEq]
    | _ => simp [terms?] at ground

mutual

/-- **Compilation** extends the store and answers a compiled form of the pattern. -/
theorem compile_sound {store : Store} (sound : store.Sound) : (pattern : Pattern) →
    (pattern.compile store).2.Sound ∧ store.Extends (pattern.compile store).2 ∧
      Compiles (pattern.compile store).2 pattern (pattern.compile store).1
  | .unit =>
    ⟨sound, .refl store, .ground (fun _ _ => Iff.rfl) sound.expand_unit⟩
  | .bool value =>
    ⟨sound, .refl store, .ground (fun _ _ => Iff.rfl) (sound.expand_bool value)⟩
  | .int value => compileShape_sound sound (.int value) rfl fun _ _ => Iff.rfl
  | .string text => compileShape_sound sound (.string text) rfl fun _ _ => Iff.rfl
  | .ref index => compileShape_sound sound (.ref index) rfl fun _ _ => Iff.rfl
  | .var slot => ⟨sound, .refl store, .var slot⟩
  | .wildcard => ⟨sound, .refl store, .wildcard⟩
  | .const name args => by
    have hargs := compileAll_sound sound args
    rw [compile]
    generalize compileAll args store = result at hargs ⊢
    obtain ⟨compiled, after⟩ := result
    obtain ⟨hsound, extension, compiles⟩ := hargs
    -- A constructor over ground arguments is ground itself, and is interned once and for all.
    cases ground : terms? compiled with
    | none =>
      simp only [ground]
      exact ⟨hsound, extension, .const compiles⟩
    | some handles =>
      simp only [ground]
      obtain ⟨terms, hterms, hdenote⟩ := exists_expands_of_terms? compiles ground
      have hdenotes : ∀ valuation other,
          Denotes valuation (.const name args) other ↔ other = .const name terms := by
        intro valuation other
        simp only [Denotes, hdenote, exists_eq_right]
      obtain ⟨hsound', extension', compiles'⟩ :=
        compileShape_sound hsound (.const name handles) (hterms.const name) hdenotes
      exact ⟨hsound', extension.trans extension', compiles'⟩

/-- Compiling patterns one after the other. -/
theorem compileAll_sound {store : Store} (sound : store.Sound) : (patterns : List Pattern) →
    (compileAll patterns store).2.Sound ∧ store.Extends (compileAll patterns store).2 ∧
      CompilesAll (compileAll patterns store).2 patterns (compileAll patterns store).1
  | [] => ⟨sound, .refl store, .nil⟩
  | pattern :: patterns => by
    obtain ⟨hsound, extension, compiles⟩ := compile_sound sound pattern
    obtain ⟨hsound', extension', compiles'⟩ := compileAll_sound hsound patterns
    exact ⟨hsound', extension.trans extension', .cons (compiles.mono extension') compiles'⟩

end

end Pattern

/-! ### Binding -/

namespace Substitution

variable {store : Store} {substitution after : Substitution} {slot : Nat} {handle : Handle}
  {term : Term}

/-- Every term that is bound is a term of the store. -/
def Known (store : Store) (substitution : Substitution) : Prop :=
  ∀ slot handle, substitution.get? slot = some handle → ∃ term, store.expand handle = some term

theorem Known.mono {before after : Store} (extension : before.Extends after)
    (known : substitution.Known before) : substitution.Known after := fun slot handle bound =>
  have ⟨term, expanded⟩ := known slot handle bound
  ⟨term, extension.expand expanded⟩

@[simp] theorem get?_blank (size slot : Nat) : (blank size).get? slot = none := by
  rw [get?, blank, List.getElem?_replicate]
  split <;> rfl

theorem known_blank (store : Store) (size : Nat) : (blank size).Known store := by
  simp [Known]

@[simp] theorem valuation_blank (store : Store) (size : Nat) :
    (blank size).valuation store = fun _ => none := by
  funext slot
  simp [valuation]

/-- What is bound in an extension of a store is read as before. -/
theorem Known.valuation_eq {before after : Store} (extension : before.Extends after)
    (known : substitution.Known before) :
    substitution.valuation after = substitution.valuation before := by
  funext slot
  rw [valuation, valuation]
  cases bound : substitution.get? slot with
  | none => rfl
  | some handle =>
    obtain ⟨term, expanded⟩ := known slot handle bound
    exact (extension.expand expanded).trans expanded.symm

theorem valuation_eq_some_iff :
    substitution.valuation store slot = some term ↔
      ∃ handle, substitution.get? slot = some handle ∧ store.expand handle = some term :=
  Option.bind_eq_some_iff

theorem get?_widen (size slot : Nat) (bindings : List (Option Handle)) :
    ((widen size bindings)[slot]?).join = (bindings[slot]?).join := by
  rw [widen, List.getElem?_append]
  split
  · rfl
  · next hge =>
    rw [List.getElem?_replicate, List.getElem?_eq_none (Nat.le_of_not_lt hge)]
    split <;> rfl

/-- Binding a slot that is free binds that slot and no other. -/
theorem get?_bind (handle : Handle) (free : substitution.get? slot = none) (other : Nat) :
    (substitution.bind slot handle).2.get? other =
      if other = slot then some handle else substitution.get? other := by
  rw [bind, free]
  change (((widen (slot + 1) substitution.bindings).set slot (some handle))[other]?).join = _
  have hlt : slot < (widen (slot + 1) substitution.bindings).length := by
    rw [widen, List.length_append, List.length_replicate]
    omega
  by_cases heq : other = slot
  · subst heq
    rw [List.getElem?_set_self hlt, if_pos rfl]
    rfl
  · rw [List.getElem?_set_ne (Ne.symm heq), if_neg heq]
    exact get?_widen _ _ _

/-- What a successful binding comes to: the slot stands for the term, and nothing that was bound
has changed. -/
theorem bind_sound (known : substitution.Known store) (expanded : store.expand handle = some term)
    (bound : substitution.bind slot handle = (true, after)) :
    after.Known store ∧ (substitution.valuation store).Within (after.valuation store) ∧
      after.valuation store slot = some term := by
  cases hold : substitution.get? slot with
  | some old =>
    rw [bind, hold] at bound
    obtain ⟨heq, rfl⟩ := Prod.mk.inj bound
    obtain rfl := beq_iff_eq.1 heq
    exact ⟨known, .refl _, valuation_eq_some_iff.2 ⟨old, hold, expanded⟩⟩
  | none =>
    have hget := get?_bind handle hold
    rw [bound] at hget
    refine ⟨fun other found hfound => ?_, fun other found hfound => ?_, ?_⟩
    · rw [hget] at hfound
      split at hfound
      · exact ⟨term, Option.some.inj hfound ▸ expanded⟩
      · exact known other found hfound
    · have hne : other ≠ slot := by
        rintro rfl
        simp [valuation, hold] at hfound
      rw [valuation, hget, if_neg hne]
      exact hfound
    · exact valuation_eq_some_iff.2 ⟨handle, by simp [hget], expanded⟩

/-- A binding that some valuation above the substitution agrees with succeeds, and stays below
that valuation. -/
theorem bind_complete (sound : store.Sound) {valuation : Valuation}
    (known : substitution.Known store) (within : (substitution.valuation store).Within valuation)
    (expanded : store.expand handle = some term) (agrees : valuation slot = some term) :
    ∃ after, substitution.bind slot handle = (true, after) ∧
      (after.valuation store).Within valuation := by
  cases hold : substitution.get? slot with
  | some old =>
    obtain ⟨other, hother⟩ := known slot old hold
    have hslot := within slot other (valuation_eq_some_iff.2 ⟨old, hold, hother⟩)
    obtain rfl := Option.some.inj (hslot.symm.trans agrees)
    obtain rfl := sound.expand_injective hother expanded
    exact ⟨substitution, by simp [bind, hold], within⟩
  | none =>
    have hget := get?_bind handle hold
    refine ⟨_, by rw [bind, hold], ?_⟩
    intro other found hfound
    rw [bind, hold] at hget
    obtain ⟨bound, hbound, hexpand⟩ := valuation_eq_some_iff.1 hfound
    rw [hget] at hbound
    split at hbound
    · next heq =>
      obtain rfl := Option.some.inj hbound
      obtain rfl := Option.some.inj (hexpand.symm.trans expanded)
      exact heq ▸ agrees
    · exact within other found (valuation_eq_some_iff.2 ⟨bound, hbound, hexpand⟩)

/-! ### Binding the members of a tuple -/

theorem bindAll_sound {slots : List Nat} {handles : List Handle}
    {terms : List Term} (known : substitution.Known store) (expanded : store.Expands handles terms)
    (bound : substitution.bindAll slots handles = (true, after)) :
    after.Known store ∧ (substitution.valuation store).Within (after.valuation store) ∧
      slots.map (after.valuation store) = terms.map some := by
  induction expanded generalizing slots substitution with
  | nil =>
    cases slots with
    | nil =>
      obtain ⟨-, rfl⟩ := Prod.mk.inj bound
      exact ⟨known, .refl _, rfl⟩
    | cons slot slots => cases bound
  | @cons handle term handles terms hterm _ ih =>
    cases slots with
    | nil => cases bound
    | cons slot slots =>
      rw [bindAll] at bound
      split at bound
      · next middle hbind =>
        obtain ⟨hknown, hwithin, hslot⟩ := bind_sound known hterm hbind
        obtain ⟨hknown', hwithin', hrest⟩ := ih hknown bound
        refine ⟨hknown', hwithin.trans hwithin', ?_⟩
        rw [List.map_cons, List.map_cons, hwithin' slot term hslot, hrest]
      · cases bound

theorem bindAll_complete (sound : store.Sound) {valuation : Valuation} {slots : List Nat}
    {handles : List Handle} {terms : List Term} (known : substitution.Known store)
    (within : (substitution.valuation store).Within valuation)
    (expanded : store.Expands handles terms) (agrees : slots.map valuation = terms.map some) :
    ∃ after, substitution.bindAll slots handles = (true, after) ∧
      (after.valuation store).Within valuation := by
  induction expanded generalizing slots substitution with
  | nil =>
    obtain rfl : slots = [] := by simpa using agrees
    exact ⟨substitution, rfl, within⟩
  | @cons handle term handles terms hterm _ ih =>
    cases slots with
    | nil => cases agrees
    | cons slot slots =>
      obtain ⟨hslot, hrest⟩ := List.cons.inj agrees
      obtain ⟨middle, hbind, hwithin⟩ := bind_complete sound known within hterm hslot
      obtain ⟨hknown, -, -⟩ := bind_sound known hterm hbind
      obtain ⟨after, hafter, hwithin'⟩ := ih hknown hwithin hrest
      refine ⟨after, ?_, hwithin'⟩
      rw [bindAll, hbind]
      exact hafter

theorem bindTuple?_eq_some_iff {slots : List Nat} {tuple : List Handle} :
    substitution.bindTuple? slots tuple = some after ↔
      substitution.bindAll slots tuple = (true, after) := by
  rw [bindTuple?]
  split <;> simp_all

/-- **A tuple that is bound** gives its slots the terms of its members. -/
theorem bindTuple?_sound {slots : List Nat} {tuple : List Handle} {terms : List Term}
    (known : substitution.Known store) (expanded : store.Expands tuple terms)
    (bound : substitution.bindTuple? slots tuple = some after) :
    after.Known store ∧ (substitution.valuation store).Within (after.valuation store) ∧
      slots.map (after.valuation store) = terms.map some :=
  bindAll_sound known expanded (bindTuple?_eq_some_iff.1 bound)

/-- A tuple can be bound below every valuation that gives its slots the terms of its members. -/
theorem bindTuple?_complete (sound : store.Sound) {valuation : Valuation} {slots : List Nat}
    {tuple : List Handle} {terms : List Term} (known : substitution.Known store)
    (within : (substitution.valuation store).Within valuation)
    (expanded : store.Expands tuple terms) (agrees : slots.map valuation = terms.map some) :
    ∃ after, substitution.bindTuple? slots tuple = some after ∧
      (after.valuation store).Within valuation := by
  obtain ⟨after, bound, hwithin⟩ := bindAll_complete sound known within expanded agrees
  exact ⟨after, bindTuple?_eq_some_iff.2 bound, hwithin⟩

/-- Binding a tuple first of all. -/
theorem bindTuple?_blank_sound {size : Nat} {slots : List Nat} {tuple : List Handle}
    {terms : List Term} (expanded : store.Expands tuple terms)
    (bound : (blank size).bindTuple? slots tuple = some after) :
    after.Known store ∧ slots.map (after.valuation store) = terms.map some := by
  obtain ⟨known, -, agrees⟩ := bindTuple?_sound (known_blank store size) expanded bound
  exact ⟨known, agrees⟩

theorem bindTuple?_blank_complete (sound : store.Sound) {valuation : Valuation} (size : Nat)
    {slots : List Nat} {tuple : List Handle} {terms : List Term}
    (expanded : store.Expands tuple terms) (agrees : slots.map valuation = terms.map some) :
    ∃ after, (blank size).bindTuple? slots tuple = some after ∧
      (after.valuation store).Within valuation :=
  bindTuple?_complete sound (known_blank store size) (by simp [Valuation.Within]) expanded agrees

/-- Only as many handles are bound as there are slots. -/
theorem length_eq_of_bindAll {slots : List Nat} {handles : List Handle}
    (bound : substitution.bindAll slots handles = (true, after)) :
    handles.length = slots.length := by
  induction slots generalizing handles substitution with
  | nil =>
    cases handles with
    | nil => rfl
    | cons handle handles => cases bound
  | cons slot slots ih =>
    cases handles with
    | nil => cases bound
    | cons handle handles =>
      rw [bindAll] at bound
      split at bound
      · rw [List.length_cons, List.length_cons, ih bound]
      · cases bound

theorem length_eq_of_bindTuple? {slots : List Nat} {tuple : List Handle}
    (bound : substitution.bindTuple? slots tuple = some after) : tuple.length = slots.length :=
  length_eq_of_bindAll (bindTuple?_eq_some_iff.1 bound)

/-! ### Matching -/

mutual

/-- **A match that succeeds** makes the pattern denote the term, and changes nothing that was
bound. -/
theorem matchTerm_sound (sound : store.Sound) : {compiled : CompiledPattern} → {pattern : Pattern} →
    {handle : Handle} → {term : Term} → {substitution after : Substitution} →
      Compiles store pattern compiled → substitution.Known store → store.expand handle = some term →
        substitution.matchTerm store compiled handle = (true, after) →
          after.Known store ∧ (substitution.valuation store).Within (after.valuation store) ∧
            pattern.Denotes (after.valuation store) term
  | .term _, _, _, _, _, _, .ground denotes_iff hterm, known, expanded, matched => by
    rw [matchTerm] at matched
    obtain ⟨heq, rfl⟩ := Prod.mk.inj matched
    obtain rfl := beq_iff_eq.1 heq
    exact ⟨known, .refl _, (denotes_iff _ _).2 (Option.some.inj (expanded.symm.trans hterm))⟩
  | .var _, _, _, _, _, _, .var _, known, expanded, matched => by
    rw [matchTerm] at matched
    exact bind_sound known expanded matched
  | .wildcard, _, _, _, _, _, .wildcard, known, _, matched => by
    rw [matchTerm] at matched
    obtain ⟨-, rfl⟩ := Prod.mk.inj matched
    exact ⟨known, .refl _, trivial⟩
  | .const name compiled, _, handle, term, _, _, .const args_compile, known, expanded, matched => by
    rw [matchTerm] at matched
    split at matched
    · next actual handles found =>
      split at matched
      · next hmatch =>
        obtain ⟨hname, hlength⟩ := Bool.and_eq_true_iff.1 hmatch
        obtain rfl := beq_iff_eq.1 hname
        rw [sound.expand_of_shape? found] at expanded
        obtain ⟨terms, hterms, rfl⟩ := Option.map_eq_some_iff.1 expanded
        obtain ⟨hknown, hwithin, hdenote⟩ := matchEach_sound sound args_compile known
          (Store.mapM_expand_eq_some_iff.1 hterms) (beq_iff_eq.1 hlength).symm matched
        exact ⟨hknown, hwithin, terms, rfl, hdenote⟩
      · cases matched
    · cases matched

/-- Matching one by one, on lists of one length. -/
theorem matchEach_sound (sound : store.Sound) : {compiled : List CompiledPattern} →
    {patterns : List Pattern} → {handles : List Handle} → {terms : List Term} →
      {substitution after : Substitution} → CompilesAll store patterns compiled →
        substitution.Known store → store.Expands handles terms → compiled.length = handles.length →
          substitution.matchEach store compiled handles = (true, after) →
            after.Known store ∧ (substitution.valuation store).Within (after.valuation store) ∧
              Pattern.DenoteAll (after.valuation store) patterns terms
  | [], _, _, _, _, _, .nil, known, expanded, length_eq, matched => by
    obtain rfl := List.length_eq_zero_iff.1 length_eq.symm
    cases expanded
    rw [matchEach] at matched
    obtain ⟨-, rfl⟩ := Prod.mk.inj matched
    exact ⟨known, .refl _, trivial⟩
  | _ :: _, _, _, _, _, _, .cons compiles rest, known, expanded, length_eq, matched => by
    cases expanded with
    | nil => cases length_eq
    | cons hterm hterms =>
      rw [matchEach] at matched
      split at matched
      · next middle hfirst =>
        obtain ⟨hknown, hwithin, hdenotes⟩ := matchTerm_sound sound compiles known hterm hfirst
        obtain ⟨hknown', hwithin', hdenote⟩ :=
          matchEach_sound sound rest hknown hterms (Nat.succ.inj length_eq) matched
        exact ⟨hknown', hwithin.trans hwithin', hdenotes.mono hwithin', hdenote⟩
      · cases matched

end

/-- **A handle of a term that a constructor pattern denotes** is a constructor over as many
arguments, which the arguments of the pattern denote. -/
theorem exists_args_of_denotes (sound : store.Sound) {valuation : Valuation} {name : String}
    {args : List Pattern} {compiled : List CompiledPattern}
    (args_compile : CompilesAll store args compiled) (expanded : store.expand handle = some term)
    (denotes : (Pattern.const name args).Denotes valuation term) :
    ∃ handles terms, store.shape? handle = some (.const name handles) ∧
      store.Expands handles terms ∧ Pattern.DenoteAll valuation args terms ∧
        handles.length = compiled.length := by
  obtain ⟨terms, rfl, denote⟩ := denotes
  obtain ⟨shape, found, hshape⟩ := sound.exists_shape? expanded
  obtain ⟨handles, rfl, hterms⟩ := Store.expandShape_eq_const_iff.1 hshape
  refine ⟨handles, terms, found, hterms, denote, ?_⟩
  rw [hterms.length_eq, ← denote.length_eq, args_compile.length_eq]

mutual

/-- **A pattern that can be made to denote the term** by a valuation above the substitution is
matched, and the match stays below that valuation. -/
theorem matchTerm_complete (sound : store.Sound) {valuation : Valuation} :
    {compiled : CompiledPattern} → {pattern : Pattern} → {handle : Handle} → {term : Term} →
      {substitution : Substitution} → Compiles store pattern compiled → substitution.Known store →
        (substitution.valuation store).Within valuation → store.expand handle = some term →
          pattern.Denotes valuation term →
            ∃ after, substitution.matchTerm store compiled handle = (true, after) ∧
              (after.valuation store).Within valuation
  | .term _, _, _, _, substitution, .ground denotes_iff hterm, _, within, expanded, denotes => by
    obtain rfl := (denotes_iff _ _).1 denotes
    obtain rfl := sound.expand_injective hterm expanded
    exact ⟨substitution, by rw [matchTerm, beq_self_eq_true], within⟩
  | .var _, _, _, _, _, .var _, known, within, expanded, denotes => by
    rw [matchTerm]
    exact bind_complete sound known within expanded denotes
  | .wildcard, _, _, _, substitution, .wildcard, _, within, _, _ => by
    rw [matchTerm]
    exact ⟨substitution, rfl, within⟩
  | .const name compiled, _, _, _, _, .const args_compile, known, within, expanded, denotes => by
    obtain ⟨handles, terms, found, hterms, hdenote, hlength⟩ :=
      exists_args_of_denotes sound args_compile expanded denotes
    obtain ⟨after, hafter, hwithin⟩ :=
      matchEach_complete sound args_compile known within hterms hdenote
    refine ⟨after, ?_, hwithin⟩
    rw [matchTerm, found]
    simp only [beq_self_eq_true, hlength, Bool.and_self, if_true]
    exact hafter

/-- Matching one by one what can be made to denote the terms. -/
theorem matchEach_complete (sound : store.Sound) {valuation : Valuation} :
    {compiled : List CompiledPattern} → {patterns : List Pattern} → {handles : List Handle} →
      {terms : List Term} → {substitution : Substitution} → CompilesAll store patterns compiled →
        substitution.Known store → (substitution.valuation store).Within valuation →
          store.Expands handles terms → Pattern.DenoteAll valuation patterns terms →
            ∃ after, substitution.matchEach store compiled handles = (true, after) ∧
              (after.valuation store).Within valuation
  | [], _, _, _, substitution, .nil, _, within, _, _ => by
    rw [matchEach]
    exact ⟨substitution, rfl, within⟩
  | _ :: _, _, _, _, _, .cons compiles rest, known, within, expanded, denote => by
    cases expanded with
    | nil => cases denote
    | cons hterm hterms =>
      obtain ⟨hdenotes, hdenote⟩ := denote
      obtain ⟨middle, hfirst, hwithin⟩ :=
        matchTerm_complete sound compiles known within hterm hdenotes
      -- The rest is matched under what the first match has bound, which the valuation is still
      -- above.
      obtain ⟨hknown, -, -⟩ := matchTerm_sound sound compiles known hterm hfirst
      obtain ⟨after, hafter, hwithin'⟩ :=
        matchEach_complete sound rest hknown hwithin hterms hdenote
      refine ⟨after, ?_, hwithin'⟩
      rw [matchEach, hfirst]
      exact hafter

end

theorem matchAll_sound (sound : store.Sound) {compiled : List CompiledPattern}
    {patterns : List Pattern} {handles : List Handle} {terms : List Term}
    (compiles : CompilesAll store patterns compiled) (known : substitution.Known store)
    (expanded : store.Expands handles terms)
    (matched : substitution.matchAll store compiled handles = (true, after)) :
    after.Known store ∧ (substitution.valuation store).Within (after.valuation store) ∧
      Pattern.DenoteAll (after.valuation store) patterns terms := by
  rw [matchAll] at matched
  split at matched
  · next length_eq => exact matchEach_sound sound compiles known expanded length_eq matched
  · cases matched

theorem matchAll_complete (sound : store.Sound) {valuation : Valuation}
    {compiled : List CompiledPattern} {patterns : List Pattern} {handles : List Handle}
    {terms : List Term} (compiles : CompilesAll store patterns compiled)
    (known : substitution.Known store) (within : (substitution.valuation store).Within valuation)
    (expanded : store.Expands handles terms) (denote : Pattern.DenoteAll valuation patterns terms) :
    ∃ after, substitution.matchAll store compiled handles = (true, after) ∧
      (after.valuation store).Within valuation := by
  rw [matchAll, if_pos (by rw [expanded.length_eq, ← denote.length_eq, compiles.length_eq])]
  exact matchEach_complete sound compiles known within expanded denote

end Substitution

/-! ### Premises -/

/-- The compiled form of a premise. -/
structure Premise.Compiles (store : Store) (premise : Premise) (compiled : CompiledPremise) :
    Prop where
  /-- The predicate is the same. -/
  name : compiled.name = premise.name
  /-- The arguments. -/
  args : CompilesAll store premise.args compiled.args
  /-- The value. -/
  value : StableModels.Compiles store premise.value compiled.value

namespace CompiledPremise

variable {store : Store} {premise : Premise} {compiled : CompiledPremise} {slots shared : Nat}
  {args rest : List Handle} {value last : Handle} {terms : List Term} {term : Term}
  {substitution after : Substitution}

theorem match?_sound (sound : store.Sound) (compiles : premise.Compiles store compiled)
    (args_expand : store.Expands args terms) (value_expands : store.expand value = some term)
    (matched : compiled.match? store slots args value = some after) :
    after.Known store ∧ premise.Denotes (after.valuation store) terms term := by
  rw [match?] at matched
  split at matched
  · cases matched
  · next middle hargs =>
    obtain ⟨hknown, -, hdenote⟩ := Substitution.matchAll_sound sound compiles.args
      (Substitution.known_blank store slots) args_expand hargs
    split at matched
    · cases matched
    · next last hvalue =>
      obtain rfl := Option.some.inj matched
      obtain ⟨hknown', hwithin, hdenotes⟩ :=
        Substitution.matchTerm_sound sound compiles.value hknown value_expands hvalue
      exact ⟨hknown', hdenote.mono hwithin, hdenotes⟩

theorem match?_complete (sound : store.Sound) (slots : Nat) {valuation : Valuation}
    (compiles : premise.Compiles store compiled) (args_expand : store.Expands args terms)
    (value_expands : store.expand value = some term)
    (denotes : premise.Denotes valuation terms term) :
    ∃ after, compiled.match? store slots args value = some after ∧
      (after.valuation store).Within valuation := by
  have hknown := Substitution.known_blank store slots
  have hblank : ((Substitution.blank slots).valuation store).Within valuation := by
    intro slot term bound
    simp at bound
  obtain ⟨middle, hargs, hwithin⟩ :=
    Substitution.matchAll_complete sound compiles.args hknown hblank args_expand denotes.1
  obtain ⟨hknown', -, -⟩ :=
    Substitution.matchAll_sound sound compiles.args hknown args_expand hargs
  obtain ⟨after, hvalue, hwithin'⟩ := Substitution.matchTerm_complete sound compiles.value hknown'
    hwithin value_expands denotes.2
  exact ⟨after, by rw [match?, hargs]; simp only [hvalue], hwithin'⟩

theorem matchRest?_sound (sound : store.Sound) (compiles : premise.Compiles store compiled)
    (known : substitution.Known store) (rest_expands : store.Expands rest terms)
    (last_expands : store.expand last = some term)
    (matched : compiled.matchRest? store shared substitution (rest ++ [last]) = some after) :
    after.Known store ∧ (substitution.valuation store).Within (after.valuation store) ∧
      Pattern.DenoteAll (after.valuation store) (premise.args.drop shared) terms ∧
        premise.value.Denotes (after.valuation store) term := by
  rw [matchRest?] at matched
  simp only [List.getLast?_concat, List.dropLast_concat] at matched
  split at matched
  · cases matched
  · next middle hargs =>
    obtain ⟨hknown, hwithin, hdenote⟩ := Substitution.matchAll_sound sound
      (List.forall₂_drop shared compiles.args) known rest_expands hargs
    split at matched
    · cases matched
    · next final hvalue =>
      obtain rfl := Option.some.inj matched
      obtain ⟨hknown', hwithin', hdenotes⟩ :=
        Substitution.matchTerm_sound sound compiles.value hknown last_expands hvalue
      exact ⟨hknown', hwithin.trans hwithin', hdenote.mono hwithin', hdenotes⟩

theorem matchRest?_complete (sound : store.Sound) {valuation : Valuation}
    (compiles : premise.Compiles store compiled) (known : substitution.Known store)
    (within : (substitution.valuation store).Within valuation)
    (rest_expands : store.Expands rest terms) (last_expands : store.expand last = some term)
    (denote : Pattern.DenoteAll valuation (premise.args.drop shared) terms)
    (value_denotes : premise.value.Denotes valuation term) :
    ∃ after, compiled.matchRest? store shared substitution (rest ++ [last]) = some after ∧
      (after.valuation store).Within valuation := by
  have compiles_rest := List.forall₂_drop shared compiles.args
  obtain ⟨middle, hargs, hwithin⟩ :=
    Substitution.matchAll_complete sound compiles_rest known within rest_expands denote
  obtain ⟨hknown, -, -⟩ :=
    Substitution.matchAll_sound sound compiles_rest known rest_expands hargs
  obtain ⟨after, hvalue, hwithin'⟩ := Substitution.matchTerm_complete sound compiles.value hknown
    hwithin last_expands value_denotes
  refine ⟨after, ?_, hwithin'⟩
  rw [matchRest?]
  simp only [List.getLast?_concat, List.dropLast_concat, hargs, hvalue]

end CompiledPremise

end StableModels
