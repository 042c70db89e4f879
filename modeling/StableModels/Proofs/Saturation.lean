import StableModels.Proofs.Reachability

/-!
# Saturated partial models

A partial model with an empty agenda is **closed under the rules**: nothing waits, and so the
invariant of saturation speaks of every instance whose body the partial model holds. The seeds are
in it, and so is all that the rules lead to from them. If every predicate is used with one arity
throughout the program, then a reachable partial model also holds nothing that the rules do not lead
to from the seeds and from what examinations have asserted
(`StableModels.Reached.closed_and_derivable`).
-/

namespace StableModels

variable {program : Program} {rules : RuleSet} {model : PartialModel} {store : Store}
  {asserted : Set News} {workspace : Workspace}

/-- When nothing waits, all that is known has been propagated. -/
theorem PartialModel.propagated_eq_known (saturated : model.agenda = []) :
    model.propagated = model.known := by
  ext news
  simp [propagated, saturated]

theorem Conclusion.Settled.holdsIn {registered : ChoiceKey × Choice → Prop}
    {conclusion : Conclusion}
    {valuation : Valuation} (settled : conclusion.Settled registered store model valuation) :
    conclusion.HoldsIn (model.atoms store) valuation := by
  cases settled with
  | holds pins member => exact Or.inl ⟨_, member, pins valuation (.refl valuation)⟩
  | choice pins _ _ _ => exact Or.inr ⟨_, _, _, _, pins valuation (.refl valuation)⟩

namespace Reached

/-- Steps of saturation, one after the other, reach a partial model. -/
theorem saturate (reached : Reached program rules workspace asserted) {rounds steps : Nat}
    {after : Workspace} (saturated : Saturating.saturate rules rounds workspace = .ok steps after) :
    Reached program rules after asserted := by
  induction rounds generalizing workspace steps with
  | zero =>
    obtain ⟨-, rfl⟩ := EStateM.Result.ok.inj saturated
    exact reached
  | succ rounds ih =>
    rw [Saturating.saturate] at saturated
    obtain ⟨progress, middle, stepped, saturated⟩ := exists_of_bind_eq_ok saturated
    have hmiddle : Reached program rules middle asserted := .step reached stepped
    cases progress with
    | false =>
      obtain ⟨-, rfl⟩ := EStateM.Result.ok.inj saturated
      exact hmiddle
    | true =>
      rw [if_pos rfl] at saturated
      obtain ⟨count, last, saturated_rest, saturated⟩ := exists_of_bind_eq_ok saturated
      obtain ⟨-, rfl⟩ := EStateM.Result.ok.inj saturated
      exact ih hmiddle saturated_rest

/-- In a saturated partial model every instance is settled whose body the partial model holds. -/
theorem settled (reached : Reached program rules ⟨model, store⟩ asserted)
    (alive : model.isDead = false) (saturated : model.agenda = []) {rule : Rule}
    (member : rule ∈ program.rules) {valuation : Valuation} {body : List Atom}
    (inst : rule.Instance valuation body) (held : ∀ atom ∈ body, atom ∈ model.atoms store) :
    rule.conclusion.Settled (Workspace.Registered program rules ⟨model, store⟩) store model
      valuation := by
  refine (reached.regular alive).settled rule member valuation body inst ?_
  rw [PartialModel.propagated_eq_known saturated]
  exact held

theorem closes (reached : Reached program rules ⟨model, store⟩ asserted)
    (alive : model.isDead = false) (saturated : model.agenda = []) :
    ∀ rule ∈ program.rules, rule.Closes (model.atoms store) :=
  fun _ member _ _ inst held => (reached.settled alive saturated member inst held).holdsIn

theorem seeds_mem (reached : Reached program rules ⟨model, store⟩ asserted)
    (alive : model.isDead = false) : ∀ seed ∈ program.seeds, .tuple seed [] ∈ model.atoms store :=
  fun seed member => ⟨_, (reached.regular alive).seeds seed member, .tuple .nil⟩

/-- **A saturated partial model is closed under the rules**, holds the seeds, and everything in it
can be read. If predicates have one arity each, then everything in it is derivable from the seeds
and from what examinations have asserted. -/
theorem closed_and_derivable (reached : Reached program rules ⟨model, store⟩ asserted)
    (alive : model.isDead = false) (saturated : model.agenda = []) :
    (∀ seed ∈ program.seeds, .tuple seed [] ∈ model.atoms store) ∧
      (∀ news ∈ model.known, ∃ atom ∈ model.atoms store, news.Reads store atom) ∧
        (∀ rule ∈ program.rules, rule.Closes (model.atoms store)) ∧
          (program.OneArity → ∀ atom ∈ model.atoms store,
            Derivable program (store.meaning asserted) atom) := by
  refine ⟨reached.seeds_mem alive, fun news member => ?_, reached.closes alive saturated,
    (reached.regular alive).derivable⟩
  obtain ⟨atom, reads⟩ := (reached.readable alive).reads news member
  exact ⟨atom, ⟨news, member, reads⟩, reads⟩

/-- So many rounds are enough to saturate the seeds of the program, and the partial model lives. -/
def saturates (program : Program) (rounds : Nat) : Bool :=
  match RuleSet.compile program .initial with
  | .error _ => false
  | .ok (rules, store) =>
    match PartialModel.seeded rules with
    | .error _ => false
    | .ok model =>
      match Saturating.saturate rules rounds ⟨model, store⟩ with
      | .error _ _ => false
      | .ok _ last => !last.model.isDead && last.model.agenda.isEmpty

theorem exists_of_saturates {rounds : Nat} (checked : saturates program rounds = true) :
    ∃ rules store model, Reached program rules ⟨model, store⟩ ∅ ∧ model.isDead = false ∧
      model.agenda = [] := by
  rw [saturates] at checked
  split at checked
  · cases checked
  next rules store compiled =>
  split at checked
  · cases checked
  next model planted =>
  split at checked
  · cases checked
  next steps last saturated =>
  rw [Bool.and_eq_true_iff, Bool.not_eq_true', List.isEmpty_iff] at checked
  exact ⟨_, _, _, (Reached.root compiled planted).saturate saturated, checked⟩

/-- The program that paints something red and then shows its colour. -/
def painted : Program where
  seeds := ["go"]
  rules := [.run "go" [] [] (.fact "colour" [] (.const "red" [])),
    .unary ⟨"colour", [], .var 0⟩ (.intermediate "shown" [.var 0])]

/-- What it paints is red, and so is what it shows. -/
theorem closed_and_derivable_painted : ∃ rules store model,
    Reached painted rules ⟨model, store⟩ ∅ ∧ model.isDead = false ∧ model.agenda = [] ∧
      .fact "colour" [] (.const "red" []) ∈ model.atoms store ∧
        .tuple "shown" [.const "red" []] ∈ model.atoms store ∧
          (∀ rule ∈ painted.rules, rule.Closes (model.atoms store)) ∧
            ∀ atom ∈ model.atoms store, Derivable painted (store.meaning ∅) atom := by
  have checked : saturates painted 4 = true := by decide +kernel
  obtain ⟨rules, store, model, reached, alive, saturated⟩ := exists_of_saturates checked
  obtain ⟨seeds, -, closes, derivable⟩ := closed_and_derivable reached alive saturated
  have colour : .fact "colour" [] (.const "red" []) ∈ model.atoms store := by
    refine (closes _ List.mem_cons_self).mem_of_gives
      (.run ⟨.initial, .initial, [], 0, _, _, Store.sound_initial, .nil, rfl, rfl, rfl⟩
        (List.mem_singleton.2 rfl)) ?_ (.fact trivial ⟨[], rfl, trivial⟩)
    simpa using seeds "go" List.mem_cons_self
  have shown : .tuple "shown" [.const "red" []] ∈ model.atoms store := by
    have inst : Rule.Instance (.unary ⟨"colour", [], .var 0⟩ (.intermediate "shown" [.var 0]))
        (fun _ => some (.const "red" [])) [.fact "colour" [] (.const "red" [])] :=
      .unary ⟨trivial, rfl⟩
    refine (closes _ (List.mem_cons_of_mem _ List.mem_cons_self)).mem_of_gives inst ?_
      (.tuple ⟨rfl, trivial⟩)
    simpa using colour
  exact ⟨rules, store, model, reached, alive, saturated, colour, shown, closes,
    derivable (by decide)⟩

end Reached

end StableModels
