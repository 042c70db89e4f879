import StableModels.Proofs.Binding
import StableModels.Proofs.Guarded
import StableModels.Proofs.Obstruction

/-!
# Safe computations

A computation is **safe** if its guards never stop it and if it fails only as described
(`StableModels.Safe`). Safety goes through a row of computations one by one, each of which may rely
on the results of those before it.

Computations that only intern terms cannot fail at all where they are safe. So it is with the code
of a valid rule (`StableModels.Machine.succeeds_run`): by the time an instruction is reached there
are operands for it, the slot that it reads is bound, and all operands are terms of the store. And
so it is with the patterns of its conclusion, once the body has bound their slots
(`StableModels.Substitution.succeeds_instantiate`).
-/

namespace StableModels

section Safe

variable {σ α β : Type} {guarded plain : EStateM Fault σ α} {state : σ}
  {refused : Fault → σ → Prop}

/-- **The guarded computation does what the plain one does**, and that fails only as described. -/
def Safe (guarded plain : EStateM Fault σ α) (state : σ) (refused : Fault → σ → Prop) : Prop :=
  guarded state = plain state ∧
    ∀ fault after, plain state = .error fault after → refused fault after

/-- A computation that succeeds needs no guards. -/
theorem safe_of_eq_ok {result : α} {after : σ} (computed : plain state = .ok result after) :
    Safe plain plain state refused := by
  refine ⟨rfl, fun fault last failed => ?_⟩
  rw [computed] at failed
  cases failed

theorem safe_pure (result : α) (state : σ) (refused : Fault → σ → Prop) :
    Safe (pure result) (pure result) state refused :=
  safe_of_eq_ok rfl

theorem Safe.bind {next' next : α → EStateM Fault σ β} (safe : Safe guarded plain state refused)
    (continues : ∀ result after, plain state = .ok result after →
      Safe (next' result) (next result) after refused) :
    Safe (guarded >>= next') (plain >>= next) state refused := by
  obtain ⟨heq, fails⟩ := safe
  rw [Safe]
  cases computed : plain state with
  | error fault after =>
    rw [bind_of_error computed, bind_of_error (heq.trans computed)]
    refine ⟨rfl, fun other last failed => ?_⟩
    obtain ⟨rfl, rfl⟩ := EStateM.Result.error.inj failed
    exact fails fault after computed
  | ok result after =>
    rw [bind_of_ok computed, bind_of_ok (heq.trans computed)]
    exact continues result after computed

/-- The state may be looked at on the way. -/
theorem safe_get {next' next : σ → EStateM Fault σ β}
    (safe : Safe (next' state) (next state) state refused) :
    Safe (MonadState.get >>= next') (MonadState.get >>= next) state refused := safe

/-- A guard does nothing where all is in range. -/
theorem safe_demand {inRange : Bool} (holds : inRange = true)
    (safe : Safe guarded plain state refused) :
    Safe (do demand inRange; guarded) plain state refused := by
  rw [holds]
  exact safe

/-- A guard may look at the state. -/
theorem safe_get_demand {inRange : σ → Bool} {next : σ → EStateM Fault σ α}
    (holds : inRange state = true) (safe : Safe (next state) plain state refused) :
    Safe (MonadState.get >>= fun here => do demand (inRange here); next here) plain state
      refused := by
  have hguard := safe_demand holds safe
  exact hguard

/-- A result that is described is described if it is there. -/
theorem Ensures.of_ok {storeOf : σ → Store} {compute : EStateM Fault σ α}
    {post : α → σ → Prop} (ensures : Ensures storeOf compute state post) {result : α} {after : σ}
    (computed : compute state = .ok result after) :
    (storeOf after).Sound ∧ (storeOf state).Extends (storeOf after) ∧ post result after := by
  rw [Ensures, computed] at ensures
  exact ensures

end Safe

/-! ### Terms -/

namespace Store

variable {store : Store} {handle : Handle} {handles : List Handle} {term : Term}
  {terms : List Term}

/-- The store has every handle that it can read. -/
theorem Sound.has_of_expand (sound : store.Sound) (expanded : store.expand handle = some term) :
    store.has handle = true :=
  decide_eq_true (sound.lt_size_of_expand expanded)

theorem Sound.all_has (sound : store.Sound) (expanded : store.Expands handles terms) :
    handles.all store.has = true := by
  refine List.all_eq_true.2 fun handle member => ?_
  obtain ⟨term, -, hterm⟩ := exists_of_mem_left expanded member
  exact sound.has_of_expand hterm

end Store

namespace CompiledPattern

mutual

/-- Matching a term looks up terms of the store only. -/
theorem inRange_of_expand {store : Store} (sound : store.Sound) : (pattern : CompiledPattern) →
    {handle : Handle} → {term : Term} → store.expand handle = some term →
      pattern.inRange store handle = true
  | .term _, _, _, _ => by rw [inRange]
  | .var _, _, _, _ => by rw [inRange]
  | .wildcard, _, _, _ => by rw [inRange]
  | .const name args, handle, _, expanded => by
    obtain ⟨shape, found, hterm⟩ := sound.exists_shape? expanded
    rw [inRange, found]
    cases shape with
    | const actual handles =>
      obtain ⟨terms, hterms, -⟩ := Option.map_eq_some_iff.1 hterm
      exact allInRange_of_expands sound args (Store.mapM_expand_eq_some_iff.1 hterms)
    | _ => rfl

/-- Matching several terms looks up terms of the store only. -/
theorem allInRange_of_expands {store : Store} (sound : store.Sound) :
    (patterns : List CompiledPattern) → {handles : List Handle} → {terms : List Term} →
      store.Expands handles terms → allInRange store patterns handles = true
  | [], _, _, _ => by rw [allInRange]
  | _ :: _, _, _, .nil => by rw [allInRange]
  | pattern :: patterns, _, _, .cons expanded rest => by
    rw [allInRange, inRange_of_expand sound pattern expanded,
      allInRange_of_expands sound patterns rest]
    rfl

end

end CompiledPattern

/-! ### Interning -/

namespace Interning

variable {α : Type} {guarded plain : Interning α} {store : Store}

/-- The guarded computation does what the plain one does, and that succeeds. -/
abbrev Succeeds (guarded plain : Interning α) (store : Store) : Prop :=
  Safe guarded plain store fun _ _ => False

theorem succeeds_intern (shape : Shape) (store : Store) :
    Succeeds (intern shape) (intern shape) store :=
  have computed : intern shape store = .ok (store.intern shape).1 (store.intern shape).2 := rfl
  safe_of_eq_ok computed

theorem succeeds_build (name : String) {handles : List Handle}
    (known : handles.all store.has = true) :
    Succeeds (buildGuarded name handles) (intern (.const name handles)) store :=
  safe_get_demand known (succeeds_intern _ store)

end Interning

/-- Handles that agree with themselves are terms of the store. -/
theorem Stores.exists_expands_self {store : Store} {handles : List Handle}
    (same : List.Forall₂ (Stores.Same (store, store)) handles handles) :
    ∃ terms, store.Expands handles terms :=
  have ⟨terms, expanded, _⟩ := Stores.exists_expands same
  ⟨terms, expanded⟩

open Interning

namespace Pattern

mutual

/-- **Interning a ground pattern is safe.** -/
theorem succeeds_intern {store : Store} (sound : store.Sound) : (pattern : Pattern) →
    pattern.isGround = true → Succeeds pattern.internGuarded pattern.intern store
  | .unit, _ | .bool _, _ => safe_pure _ _ _
  | .int _, _ | .string _, _ | .ref _, _ => Interning.succeeds_intern _ store
  | .const name args, ground => by
    rw [internGuarded, intern]
    refine (succeeds_internAll sound args ground).bind ?_
    intro handles after interned
    have sounds : Stores.Sound (store, store) := ⟨sound, sound⟩
    obtain ⟨hsound, -, same⟩ := (agree_internAll args sounds).ensures.of_ok interned
    obtain ⟨terms, expanded⟩ := Stores.exists_expands_self same
    exact succeeds_build name (hsound.all_has expanded)

/-- Interning ground patterns is safe. -/
theorem succeeds_internAll {store : Store} (sound : store.Sound) : (patterns : List Pattern) →
    allGround patterns = true → Succeeds (internAllGuarded patterns) (internAll patterns) store
  | [], _ => safe_pure _ _ _
  | pattern :: patterns, ground => by
    rw [allGround, Bool.and_eq_true_iff] at ground
    rw [internAllGuarded, internAll]
    refine (succeeds_intern sound pattern ground.1).bind ?_
    intro handle middle interned
    have sounds : Stores.Sound (store, store) := ⟨sound, sound⟩
    obtain ⟨hsound, -, -⟩ := (agree_intern pattern sounds).ensures.of_ok interned
    exact (succeeds_internAll hsound patterns ground.2).bind fun handles after _ => safe_pure _ _ _

end

end Pattern

namespace Substitution

variable {substitution : Substitution} {bound : List Nat}

mutual

/-- **Instantiating a pattern is safe** once its slots are bound. -/
theorem succeeds_instantiate (binds : substitution.Binds bound) : {compiled : CompiledPattern} →
    {pattern : Pattern} → {store : Store} → store.Sound → substitution.Known store →
      Compiles store pattern compiled → pattern.Complete bound →
        Succeeds (substitution.instantiateGuarded compiled) (substitution.instantiate compiled)
          store
  | .term _, _, _, _, _, _, _ => safe_pure _ _ _
  | .var slot, _, store, _, _, .var _, complete => by
    obtain ⟨handle, found⟩ := binds slot (complete.2 (List.mem_singleton.2 rfl))
    have computed : substitution.instantiate (.var slot) store = .ok handle store := by
      rw [instantiate, found]
      rfl
    exact safe_of_eq_ok computed
  | .wildcard, _, _, _, _, .wildcard, complete => by cases complete.1
  | .const name compiled, _, _, sound, known, .const args_compile, complete => by
    rw [instantiateGuarded, instantiate]
    refine (succeeds_instantiateAll binds sound known args_compile complete.args).bind ?_
    intro handles after instantiated
    obtain ⟨hsound, -, terms, expanded, -⟩ :=
      (ensures_instantiateAll sound known args_compile).of_ok instantiated
    exact succeeds_build name (hsound.all_has expanded)

/-- Instantiating patterns is safe once their slots are bound. -/
theorem succeeds_instantiateAll (binds : substitution.Binds bound) :
    {compiled : List CompiledPattern} → {patterns : List Pattern} → {store : Store} →
      store.Sound → substitution.Known store → CompilesAll store patterns compiled →
        (∀ pattern ∈ patterns, pattern.Complete bound) →
          Succeeds (substitution.instantiateAllGuarded compiled)
            (substitution.instantiateAll compiled) store
  | [], _, _, _, _, _, _ => safe_pure _ _ _
  | _ :: _, _, _, sound, known, .cons compiles rest, complete => by
    rw [instantiateAllGuarded, instantiateAll]
    refine (succeeds_instantiate binds sound known compiles (complete _ List.mem_cons_self)).bind ?_
    intro handle middle instantiated
    obtain ⟨hsound, extension, -⟩ := (ensures_instantiate sound known compiles).of_ok instantiated
    refine (succeeds_instantiateAll binds hsound (known.mono extension)
      (CompilesAll.mono extension rest) fun pattern member =>
        complete pattern (List.mem_cons_of_mem _ member)).bind ?_
    intro handles after _
    exact safe_pure _ _ _

end

end Substitution

/-! ### Code -/

namespace Machine

variable {store : Store} {instruction : Instruction} {code : List Instruction}
  {stack operands : List Handle} {terms : List Term} {substitution : Substitution}
  {position depth : Nat} {bound final : List Nat}

theorem inRange_of_expands (sound : store.Sound) (known : substitution.Known store)
    (instruction : Instruction) (expanded : store.Expands operands terms) :
    inRange store substitution instruction operands = true := by
  rw [inRange, sound.all_has expanded, Bool.true_and]
  refine List.all_eq_true.2 fun slot _ => ?_
  cases found : substitution.get? slot with
  | none => rfl
  | some handle =>
    obtain ⟨term, hterm⟩ := known slot handle found
    exact sound.has_of_expand hterm

/-- An instruction that neither pushes a constant nor reads an unbound slot cannot fail. -/
theorem perform_ne_error (nonconstant : instruction.constant? = none)
    (reads : ∀ slot, instruction.reads = some slot → slot ∈ bound)
    (binds : substitution.Binds bound) (fault : Fault) (after : Store) :
    perform position stack substitution instruction operands store ≠ .error fault after := by
  fun_cases perform position stack substitution instruction operands with
  | case1 => cases nonconstant
  | case3 slot _ free =>
    obtain ⟨handle, found⟩ := binds slot (reads slot rfl)
    rw [free] at found
    cases found
  | case14 parts subject =>
    rw [get_bind]
    cases rows? store parts substitution subject with
    | none => rintro ⟨⟩
    | some rows => rintro ⟨⟩
  | case16 =>
    rw [get_bind]
    cases result? store instruction operands with
    | none => rintro ⟨⟩
    | some shape => rintro ⟨⟩
  | _ => rintro ⟨⟩

theorem succeeds_perform (sound : store.Sound) (known : substitution.Known store)
    (binds : substitution.Binds bound) (expanded : store.Expands operands terms)
    (ground : ∀ value, instruction = .const value → value.isGround = true)
    (reads : ∀ slot, instruction.reads = some slot → slot ∈ bound) :
    Succeeds (performGuarded position stack substitution instruction operands)
      (perform position stack substitution instruction operands) store := by
  refine safe_get_demand (inRange_of_expands sound known instruction expanded) ?_
  cases constant : instruction.constant? with
  | none => exact ⟨rfl, fun fault after => perform_ne_error constant reads binds fault after⟩
  | some value =>
    obtain rfl : instruction = .const value := by
      cases instruction <;> simp_all [Instruction.constant?]
    exact (Pattern.succeeds_intern sound value (ground value rfl)).bind fun handle after _ =>
      safe_pure _ _ _

theorem succeeds_step (sound : store.Sound) (known : substitution.Known store)
    (binds : substitution.Binds bound) (expanded : store.Expands stack terms)
    (admits : instruction.Admits code position stack.length bound final) :
    Succeeds (stepGuarded position instruction stack substitution)
      (step position instruction stack substitution) store := by
  rw [stepGuarded, step, if_pos admits.pops, if_pos admits.pops]
  have operands_expand := List.forall₂_reverse_iff.2 (List.forall₂_take instruction.pops expanded)
  exact succeeds_perform sound known binds operands_expand admits.ground admits.reads

/-- What an instruction leaves behind are terms of the store. -/
theorem ensures_step (sound : store.Sound) (known : substitution.Known store)
    (expanded : store.Expands stack terms) (position : Nat) (instruction : Instruction) :
    (step position instruction stack substitution).Ensures store fun progress after =>
      Progress.Agree (after, after) progress progress := by
  have sounds : Stores.Sound (store, store) := ⟨sound, sound⟩
  exact (agree_step sounds position instruction (Stores.same_all_of_expands expanded expanded)
    (Stores.agree_self known)).ensures

theorem ensures_outcomes (sound : store.Sound) (known : substitution.Known store)
    (expanded : store.Expands stack terms) (code : List Instruction) (position : Nat) :
    (outcomes code position stack substitution).Ensures store fun _ _ => True := by
  have sounds : Stores.Sound (store, store) := ⟨sound, sound⟩
  exact (agree_outcomes code sounds position (Stores.same_all_of_expands expanded expanded)
    (Stores.agree_self known)).ensures.mono fun _ _ _ _ _ => trivial

/-- Binding a row leaves terms of the store behind. -/
theorem ensures_bindRow (sound : store.Sound) (known : substitution.Known store)
    (row : List (Nat × List Char)) :
    (bindRow row substitution).Ensures store fun answer after =>
      ∀ branch ∈ answer, branch.Known after := by
  have sounds : Stores.Sound (store, store) := ⟨sound, sound⟩
  refine (agree_bindRow row sounds (Stores.agree_self known)).ensures.mono ?_
  rintro _ after - - (agree | _)
  · intro branch member
    obtain rfl := Option.some.inj (Option.mem_def.1 member)
    exact agree.known
  · simp

theorem succeeds_bindRow (row : List (Nat × List Char)) (substitution : Substitution)
    (store : Store) :
    Succeeds (bindRow row substitution) (bindRow row substitution) store := by
  induction row generalizing substitution store with
  | nil => exact safe_pure _ _ _
  | cons entry row ih =>
    obtain ⟨slot, text⟩ := entry
    rw [bindRow]
    refine (Interning.succeeds_intern _ store).bind ?_
    intro handle after _
    generalize substitution.bind slot handle = outcome
    obtain ⟨_ | _, branch⟩ := outcome
    · exact safe_pure _ _ _
    · exact ih branch after

/-- Following a row and then the rest of the code leaves terms of the store behind. -/
theorem ensures_row (sound : store.Sound) (known : substitution.Known store)
    (expanded : store.Expands stack terms) (row : List (Nat × List Char)) (code : List Instruction)
    (position : Nat) :
    Interning.Ensures (do
      match ← bindRow row substitution with
      | some substitution => outcomes code position stack substitution
      | none => pure []) store fun _ _ => True := by
  refine (ensures_bindRow sound known row).bind ?_
  rintro (_ | branch) after sound' extension answer_known
  · exact .pure sound' trivial
  · exact ensures_outcomes sound' (answer_known branch rfl) (extension.expands expanded) code
      position

/-- Collecting results is safe if each of them is, in a store that those before it have
extended. -/
theorem succeeds_collect {α β : Type} {guarded plain : α → Interning (List β)} {members : List α}
    (sound : store.Sound)
    (safe : ∀ member ∈ members, ∀ middle, middle.Sound → store.Extends middle →
      Succeeds (guarded member) (plain member) middle)
    (ensures : ∀ member ∈ members, ∀ middle, middle.Sound → store.Extends middle →
      (plain member).Ensures middle fun _ _ => True) :
    Succeeds (collect guarded members) (collect plain members) store := by
  induction members generalizing store with
  | nil => exact safe_pure _ _ _
  | cons member members ih =>
    rw [collect, collect]
    refine (safe member List.mem_cons_self store sound (.refl store)).bind ?_
    intro first middle computed
    obtain ⟨hsound, extension, -⟩ :=
      (ensures member List.mem_cons_self store sound (.refl store)).of_ok computed
    refine Safe.bind (ih hsound ?_ ?_) fun rest after _ => safe_pure _ _ _
    · intro other hother last sound' extension'
      exact safe other (List.mem_cons_of_mem _ hother) last sound' (extension.trans extension')
    · intro other hother last sound' extension'
      exact ensures other (List.mem_cons_of_mem _ hother) last sound' (extension.trans extension')

/-- **Checked code is safe**, from operands and bindings of the store on. -/
theorem succeeds_outcomes (sound : store.Sound) (known : substitution.Known store)
    (binds : substitution.Binds bound) (expanded : store.Expands stack terms)
    (checked : Rule.checkCode code position stack.length bound = .ok final) :
    Succeeds (outcomesGuarded code position stack substitution)
      (outcomes code position stack substitution) store := by
  induction code generalizing store substitution bound stack terms position with
  | nil => exact safe_pure _ _ _
  | cons instruction code ih =>
    have admits := Rule.admits_of_checkCode checked
    have rest := admits.rest
    rw [← List.length_drop] at rest
    rw [outcomesGuarded, outcomes]
    refine (succeeds_step sound known binds expanded admits).bind ?_
    intro progress after stepped
    obtain ⟨hsound, extension, agree⟩ :=
      (ensures_step sound known expanded position instruction).of_ok stepped
    cases fits_step stepped with
    | stop => exact safe_pure _ _ _
    | next length_eq hbinds =>
      obtain _ | ⟨same, hagree⟩ | _ := agree
      obtain ⟨others, hexpanded⟩ := Stores.exists_expands_self same
      rw [← length_eq] at rest
      exact ih hsound hagree.known (hbinds _ binds) hexpanded rest
    | @fork rows pushes covers =>
      rw [pushes, Nat.add_zero] at rest
      have hexpanded := extension.expands (List.forall₂_drop instruction.pops expanded)
      have hknown := known.mono extension
      refine succeeds_collect hsound ?_ ?_
      · intro row hrow middle sound' extension'
        refine (succeeds_bindRow row substitution middle).bind ?_
        intro answer last bound_row
        obtain ⟨sound'', extension'', answer_known⟩ :=
          (ensures_bindRow sound' (hknown.mono extension') row).of_ok bound_row
        cases answer with
        | none => exact safe_pure _ _ _
        | some branch =>
          have hbranch := binds_of_bindRow binds bound_row
          rw [covers row hrow] at hbranch
          exact ih sound'' (answer_known branch rfl) hbranch
            ((extension'.trans extension'').expands hexpanded) rest
      · intro row _ middle sound' extension'
        exact ensures_row sound' (hknown.mono extension') (extension'.expands hexpanded) row code
          (position + 1)

/-- **The code of a valid rule is safe.** -/
theorem succeeds_run (sound : store.Sound) (known : substitution.Known store)
    (binds : substitution.Binds bound) (checked : Rule.checkCode code 0 0 bound = .ok final) :
    Succeeds (runGuarded code substitution) (run code substitution) store :=
  succeeds_outcomes sound known binds .nil checked

end Machine

end StableModels
