import StableModels.Proofs.Solutions

/-!
# Partial models below a stable model

A partial model is **below** a set of atoms if it is alive, all its atoms are in the set and nothing
is excluded that the set holds (`StableModels.PartialModel.Below`): then it may still become a
partial model with just these atoms.

If the set is a stable model and every predicate is used with one arity, then nothing that happens
to a partial model changes whether it is below the set, except that it may branch, and then exactly
one of the branches is below the set if the partial model was
(`StableModels.PartialModel.Examines.countP_below`). A partial model that is below the set does not
die, and once no choice of it is left its atoms are those of the set.
-/

namespace StableModels

/-- The partial model may still become one with these atoms. -/
structure PartialModel.Below (store : Store) (atoms : Set Atom) (model : PartialModel) : Prop where
  /-- It is alive. -/
  alive : model.isDead = false
  /-- It holds nothing else. -/
  subset : model.atoms store ⊆ atoms
  /-- No value is excluded that a tuple has. -/
  admits : ∀ name handles excluded, model.database.get? name handles = some (.noneOf excluded) →
    ∀ args value term, store.Expands handles args → value ∈ excluded →
      store.expand value = some term →
      .fact name args term ∉ atoms

variable {program : Program} {rules : RuleSet} {store more : Store}
  {model before after : PartialModel} {atoms : Set Atom} {asserted : Set News}

namespace PartialModel

/-! ### Stores and refinement -/

theorem Below.of_extends (extension : store.Extends more) (below : model.Below more atoms) :
    model.Below store atoms where
  alive := below.alive
  subset := (atoms_subset_of_extends extension model).trans below.subset
  admits := fun name handles excluded found args value term args_expand member value_expands =>
    below.admits name handles excluded found args value term (extension.expands args_expand) member
      (extension.expand value_expands)

theorem Below.mono (extension : store.Extends more) (readable : model.Readable program store)
    (below : model.Below store atoms) : model.Below more atoms where
  alive := below.alive
  subset := by
    rw [readable.atoms_eq extension]
    exact below.subset
  admits := by
    intro name handles excluded found args value term args_expand member value_expands
    obtain ⟨⟨args_read, -⟩, values_read⟩ := readable.constrained name handles _ found
    exact below.admits name handles excluded found args value term
      (expands_of_extends extension args_read args_expand) member
      (expand_of_extends extension (values_read value member) value_expands)

/-- A partial model is below all that a refinement of it is below. -/
theorem Below.of_refines (sound : store.Sound) (satisfied : program.Satisfied atoms)
    (readable : after.Readable program store) (refines : Refines before after)
    (below : after.Below store atoms) : before.Below store atoms where
  alive := refines.alive below.alive
  subset := (store.meaning_mono refines.known).trans below.subset
  admits := by
    intro name handles excluded found args value term args_expand member value_expands holds
    rcases refines.excluded name handles excluded found with ⟨others, hothers, subset⟩ |
      ⟨other, fixed, free⟩
    · exact below.admits name handles others hothers args value term args_expand
        (subset value member) value_expands holds
    · obtain ⟨term', expands⟩ := (readable.constrained name handles _ fixed).2 other rfl
      have holds' : Atom.fact name args term' ∈ atoms :=
        below.subset ⟨_, fixed, .fact args_expand expands⟩
      obtain rfl := satisfied.functional name args term term' holds holds'
      obtain rfl := sound.expand_injective value_expands expands
      exact free member

/-! ### Firings -/

/-- Learning an atom of the set. -/
theorem Learns.below {news : News} (learns : Learns news before after)
    (survives : after.isDead = false)
    {atom : Atom} (reads : news.Reads store atom) (member : atom ∈ atoms)
    (below : before.Below store atoms) : after.Below store atoms where
  alive := survives
  subset := by
    intro other hother
    rcases (learns.mem_atoms_iff reads).1 hother with rfl | hother
    · exact member
    · exact below.subset hother
  admits := by
    intro name handles excluded found
    rcases learns.get? name handles with same | ⟨value, -, fixed, -⟩
    · exact below.admits name handles excluded (same.symm.trans found)
    · rw [fixed] at found
      cases found

/-- A tuple admits the value that it has in the set. -/
theorem Below.admits_of_mem (sound : store.Sound) (satisfied : program.Satisfied atoms)
    (readable : model.Readable program store) (below : model.Below store atoms) {name : String}
    {handles : List Handle} {value : Handle} {args : List Term} {term : Term}
    (args_expand : store.Expands handles args) (value_expands : store.expand value = some term)
    (member : .fact name args term ∈ atoms) {constraint : Constraint}
    (found : model.database.get? name handles = some constraint) :
    constraint.admits value = true := by
  cases constraint with
  | just other =>
    obtain ⟨term', expands⟩ := (readable.constrained name handles _ found).2 other rfl
    have holds : Atom.fact name args term' ∈ atoms :=
      below.subset ⟨_, found, .fact args_expand expands⟩
    obtain rfl := satisfied.functional name args term term' member holds
    obtain rfl := sound.expand_injective value_expands expands
    simp [Constraint.admits]
  | noneOf excluded =>
    rw [Constraint.admits, Bool.not_eq_true', ← Bool.not_eq_true, HandleSet.contains_iff]
    intro hvalue
    exact below.admits name handles excluded found args value term args_expand hvalue value_expands
      member

/-- Asserting a fact of the set. -/
theorem Below.assert (sound : store.Sound) (satisfied : program.Satisfied atoms)
    (readable : model.Readable program store) (below : model.Below store atoms) {name : String}
    {handles : List Handle} {value : Handle} {args : List Term} {term : Term}
    (args_expand : store.Expands handles args) (value_expands : store.expand value = some term)
    (member : .fact name args term ∈ atoms)
    (asserted : model.assert name handles value = .ok after) : after.Below store atoms := by
  have survives := isDead_assert asserted below.alive fun constraint found =>
    below.admits_of_mem sound satisfied readable args_expand value_expands member found
  exact (readable.sound.learns_assert asserted survives).below survives
    (.fact args_expand value_expands) member below

end PartialModel

/-- Carrying out the conclusion of an instance whose body is held. -/
theorem Conclusion.Carries.below {rule : Rule} {valuation : Valuation} {body : List Atom}
    (carries : rule.conclusion.Carries rules store valuation before after) (sound : store.Sound)
    (satisfied : program.Satisfied atoms) (forbids : rules.forbids = program.forbids)
    (member : rule ∈ program.rules) (inst : rule.Instance valuation body)
    (held : ∀ atom ∈ body, atom ∈ before.atoms store) (readable : before.Readable program store)
    (below : before.Below store atoms) : after.Below store atoms := by
  have gives_mem {atom : Atom} (pins : rule.conclusion.Pins valuation atom) : atom ∈ atoms :=
    (satisfied.closed rule member).mem_of_gives inst
      (fun other hother => below.subset (held other hother)) pins.gives
  cases carries with
  | @tuple name handles terms pins args_expand derived =>
    have allowed : rules.isForbidden name = false := by
      rw [RuleSet.isForbidden, forbids, ← Bool.not_eq_true, List.contains_iff_mem]
      exact fun forbidden => satisfied.forbids name forbidden terms (gives_mem pins)
    have survives := PartialModel.isDead_derive derived below.alive allowed
    exact (readable.sound.learns_derive derived survives).1.below survives (.tuple args_expand)
      (gives_mem pins) below
  | fact pins args_expand value_expands asserted =>
    exact below.assert sound satisfied readable args_expand value_expands (gives_mem pins) asserted
  | choice _ _ _ registered =>
    subst registered
    exact ⟨below.alive, below.subset, below.admits⟩

/-- Firings do not leave what is below a set that satisfies the program. -/
theorem Firings.below_of_below {start last : Workspace} {fired : List (Rule × Valuation)}
    (firings : Firings program rules start fired last) (one_arity : program.OneArity)
    (satisfied : program.Satisfied atoms) (fit : start.Fit program rules)
    (below : start.model.Below start.store atoms) : last.model.Below last.store atoms := by
  induction firings with
  | refl => exact below
  | grow sound extension _ ih =>
    exact ih (fit.grow sound extension) (below.mono extension (fit.readable below.alive))
  | fire alive member inst carries rest ih =>
    obtain ⟨body, hinst, held⟩ := inst one_arity
    have hbelow := carries.below fit.sound satisfied fit.compiles.forbids member hinst held
      (fit.readable alive) below
    exact ih (fit.fire alive member carries) hbelow

/-- **A step of saturation** does not change whether the partial model is below the set. -/
theorem Reached.below_step_iff (reached : Reached program rules ⟨model, store⟩ asserted)
    (one_arity : program.OneArity) (satisfied : program.Satisfied atoms)
    (alive : model.isDead = false) {progress : Bool}
    (stepped : Saturating.step rules ⟨model, store⟩ = .ok progress ⟨after, more⟩) :
    after.Below more atoms ↔ model.Below store atoms := by
  have ensures := (reached.regular alive).ensures_step reached.fit alive
  rw [Saturating.Ensures, Ensures, stepped] at ensures
  obtain ⟨-, -, heq | ⟨news, agenda, atom, fired, pending, reads, firings, covered⟩⟩ := ensures
  · obtain ⟨rfl, rfl⟩ := Workspace.mk.inj heq
    rfl
  · have fit := reached.fit.dropNews agenda
    -- What a step leads to refines what it comes from, and all that it fires belongs to the set.
    constructor
    · intro below
      have readable := (firings.fit fit).readable below.alive
      have refines := (firings.evolves fit below.alive).toRefines
      have hbelow := (below.of_refines (firings.sound fit.sound) satisfied readable
        refines).of_extends firings.extension
      exact ⟨hbelow.alive, hbelow.subset, hbelow.admits⟩
    · intro below
      exact firings.below_of_below one_arity satisfied fit ⟨below.alive, below.subset, below.admits⟩

end StableModels
