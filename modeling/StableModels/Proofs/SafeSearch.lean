import StableModels.Proofs.SafeSaturation
import StableModels.Proofs.Slicing

/-!
# Safe searches

**Validation makes a search safe** (`StableModels.Search.safe_of_validate`). The search for the
models of a valid program can be started, and in whatever way a host drives it, it does what its
guarded form does, so that nothing it reaches for is out of range.

It can fail, for validation does not look at the lengths of tuples. The cycle that fails has taken
up a partial model that refuses a tuple (`StableModels.Search.Refuses`): there is a tuple under the
same name of which it is a proper beginning or which it continues.
-/

namespace StableModels

/-- What leaves a queue is taken from a place that it has, and off a count that is not zero. -/
theorem Forest.inRange_eq_true {π τ : Type} [Ord π] (forest : Forest π τ) :
    forest.inRange = true := by
  rw [inRange]
  cases found : forest.greatest? with
  | none => rfl
  | some greatest =>
    obtain ⟨rank, tree⟩ := greatest
    obtain ⟨-, placed⟩ := getElem?_of_greatestFrom found
    obtain ⟨rank_lt, -⟩ := List.getElem?_eq_some_iff.1 placed
    have nonempty : 0 < forest.size := by
      rw [← length_toList]
      refine List.length_pos_iff.2 fun none_left => ?_
      rw [greatest?, greatestFrom_eq_none_iff.2 none_left] at found
      cases found
    exact Bool.and_eq_true_iff.2 ⟨decide_eq_true rank_lt, decide_eq_true nonempty⟩

namespace Search

variable {program : Program} {settings : Settings} {search before after : Search} {fault : Fault}
  {budget rounds count : Nat} {models : List FoundModel} {step : Step}

/-! ### The start -/

/-- The search for the models of a valid program can be started. -/
theorem exists_start (valid : program.validate = .ok ()) (settings : Settings) :
    ∃ search, start program settings = .ok search := by
  rw [start, RuleSet.compile, valid]
  simp only
  obtain ⟨root, planted⟩ := PartialModel.exists_seeded
    ⟨(RuleSet.compileRules 0 program.rules .initial).1, program.seeds, program.demands,
      program.forbids⟩
  rw [planted]
  exact ⟨_, rfl⟩

/-! ### Cycles -/

/-- **The search refuses a tuple**: the partial model that the next cycle takes up comes to refuse
it, when a rule fires or a choice is examined. -/
inductive Refuses (search : Search) (fault : Fault) : Prop where
  /-- A rule fires. -/
  | propagation {model after : PartialModel} {rest : Search} {store : Store}
      (taken : search.take? = some (model, rest))
      (stepped : Saturating.step search.rules ⟨model, search.store⟩ = .error fault ⟨after, store⟩)
      (refuses : after.Refuses search.rules fault)
  /-- A choice is examined. -/
  | examination {model after : PartialModel} {rest : Search}
      (taken : search.take? = some (model, rest))
      (examined : model.examine search.rules = (.error fault, after))
      (refuses : after.Refuses search.rules fault)

theorem Refuses.kind_eq (refuses : search.Refuses fault) : fault.kind = .invariant := by
  cases refuses with
  | propagation _ _ refuses | examination _ _ refuses => exact refuses.kind_eq

section Valid

variable (valid : program.validate = .ok ())

include valid

theorem safe_step_of_reached {rules : RuleSet} {model : PartialModel} {store : Store}
    {asserted : Set News} (reached : Reached program rules ⟨model, store⟩ asserted)
    (alive : model.isDead = false) :
    Safe (Saturating.stepGuarded rules) (Saturating.step rules) ⟨model, store⟩ fun fault after =>
      after.model.Refuses rules fault :=
  Saturating.safe_step reached.fit valid (reached.regular alive).agenda

theorem workOnGuarded_eq {model : PartialModel} {asserted : Set News}
    (reached : Reached program search.rules ⟨model, search.store⟩ asserted) :
    workOnGuarded model search = workOn model search := by
  rw [workOnGuarded, workOn]
  cases alive : model.isDead with
  | true => rfl
  | false =>
    have examined := PartialModel.examineGuarded_eq search.rules fun alive =>
      (reached.fit.readable alive).sound
    rewrite [(safe_step_of_reached valid reached alive).1, examined]
    rfl

theorem Grounded.cycleGuarded_eq (grounded : search.Grounded program) :
    search.cycleGuarded = search.cycle := by
  rw [cycleGuarded, Search.cycle, Forest.inRange_eq_true, Bool.or_true, if_pos rfl]
  cases taken : search.take? with
  | none => rfl
  | some next =>
    obtain ⟨model, rest⟩ := next
    obtain ⟨perm, -, rules, store⟩ := leaves_of_take? taken
    obtain ⟨asserted, reached⟩ := grounded model (perm.mem_iff.2 List.mem_cons_self)
    rw [← rules, ← store] at reached
    exact workOnGuarded_eq valid reached

/-- **A cycle fails only where a tuple stands in the way.** -/
theorem Grounded.refuses (grounded : search.Grounded program)
    (cycled : search.cycle = (.failed fault, after)) : search.Refuses fault := by
  obtain ⟨heq, -, -⟩ | ⟨model, rest, successors, hmodel, perm, -, -, works⟩ := works_of_cycle cycled
  · cases heq
  obtain ⟨⟨_, remainder⟩, taken, rfl⟩ := Option.map_eq_some_iff.1 hmodel
  obtain ⟨asserted, reached⟩ := grounded _ (perm.mem_iff.2 List.mem_cons_self)
  generalize after.store = more at works
  cases works with
  | fails alive stepped =>
    exact .propagation taken stepped ((safe_step_of_reached valid reached alive).2 _ _ stepped)
  | refuses examined =>
    exact .examination taken examined
      (PartialModel.refuses_of_examine (fun alive => (reached.fit.readable alive).sound) examined)

/-! ### Runs -/

theorem Grounded.spendGuarded_eq (grounded : search.Grounded program) (budget : Nat) :
    search.spendGuarded budget = search.spend budget := by
  induction budget generalizing search with
  | zero => rfl
  | succ budget ih =>
    rw [spendGuarded, Search.spend, grounded.cycleGuarded_eq valid]
    cases cycled : search.cycle with
    | mk outcome after =>
      cases outcome with
      | worked => exact ih (grounded.cycle cycled)
      | idle | found | failed => rfl

theorem Grounded.stepGuarded_eq (grounded : search.Grounded program) (budget : Nat) :
    search.stepGuarded budget = search.step budget := by
  obtain ⟨budgets, drawn⟩ := search.exists_budgets_of_drawBudget budget
  have hdrawn : (search.drawBudget budget).2.Grounded program := by
    rw [drawn]
    exact grounded
  exact hdrawn.spendGuarded_eq valid _

theorem Grounded.nextGuarded_eq (grounded : search.Grounded program) (rounds : Nat) :
    search.nextGuarded rounds = search.next rounds := by
  induction rounds generalizing search with
  | zero => rfl
  | succ rounds ih =>
    rw [nextGuarded, Search.next, grounded.stepGuarded_eq valid]
    cases stepped : search.step unlimited with
    | mk step after =>
      cases step with
      | paused => exact ih (grounded.step stepped)
      | found | exhausted | failed => rfl

end Valid

/-! ### Driving a search -/

/-- Makes a guarded call. -/
def Call.makeGuarded : Call → Search → Step × Search
  | .step budget, search => search.stepGuarded budget
  | .next more, search => search.nextGuarded (more + 1)

/-- Makes one guarded call after the other, up to the first that fails. -/
def driveGuarded : List Call → Search → Account × Search
  | [], search => ({}, search)
  | call :: calls, search =>
    match call.makeGuarded search with
    | (.found database, search) =>
      let (account, last) := search.driveGuarded calls
      ({ account with models := ⟨database, search.store⟩ :: account.models }, last)
    | (.paused, search) | (.exhausted, search) => search.driveGuarded calls
    | (.failed fault, search) => (⟨[], some fault⟩, search)

theorem Grounded.next (grounded : search.Grounded program) {rounds : Nat}
    (found : search.next rounds = (step, after)) : after.Grounded program := by
  induction rounds generalizing search with
  | zero =>
    obtain ⟨-, rfl⟩ := Prod.mk.inj found
    exact grounded
  | succ rounds ih =>
    rw [Search.next] at found
    cases stepped : search.step unlimited with
    | mk first middle =>
      have hmiddle := grounded.step stepped
      rw [stepped] at found
      cases first with
      | paused => exact ih hmiddle found
      | found | exhausted =>
        obtain ⟨-, rfl⟩ := Prod.mk.inj found
        exact hmiddle
      | failed =>
        -- All work is dropped, and nothing is held.
        obtain ⟨-, rfl⟩ := Prod.mk.inj found
        exact fun _ member => by cases member

theorem Grounded.make (grounded : search.Grounded program) {call : Call}
    (made : call.make search = (step, after)) : after.Grounded program := by
  cases call with
  | step => exact grounded.step made
  | next => exact grounded.next made

theorem Grounded.cycles (grounded : search.Grounded program)
    (cycles : Cycles search count models after) : after.Grounded program := by
  induction cycles with
  | refl => exact grounded
  | worked cycled _ ih | found cycled _ ih => exact ih (grounded.cycle cycled)

theorem Grounded.driveGuarded_eq (grounded : search.Grounded program)
    (valid : program.validate = .ok ()) (calls : List Call) :
    search.driveGuarded calls = search.drive calls := by
  induction calls generalizing search with
  | nil => rfl
  | cons call calls ih =>
    have hmake : call.makeGuarded search = call.make search := by
      cases call with
      | step budget => exact grounded.stepGuarded_eq valid budget
      | next more => exact grounded.nextGuarded_eq valid (more + 1)
    rw [driveGuarded, drive, hmake]
    cases made : call.make search with
    | mk step after =>
      have hafter := grounded.make made
      cases step with
      | found => simp only [ih hafter]
      | paused | exhausted => exact ih hafter
      | failed => rfl

/-- **Validation makes a search safe.** The search for the models of a valid program can be started
under any settings. From any of its states on, and in whatever way a host drives it, it does what
its guarded form does. If a call fails then for a broken invariant: after a row of cycles the search
refuses a tuple that is a proper beginning or a proper continuation of another one, which the
partial model that it has taken up holds under the same name. -/
theorem safe_of_validate (valid : program.validate = .ok ()) (settings : Settings) :
    (∃ search, start program settings = .ok search) ∧
      ∀ search, Visits program settings search → ∀ calls account last,
        search.drive calls = (account, last) → search.driveGuarded calls = (account, last) ∧
          ∀ fault, account.fault = some fault → fault.kind = .invariant ∧
            ∃ count before after, Cycles search.core count account.models before ∧
              before.cycle = (.failed fault, after) ∧ before.Refuses fault := by
  refine ⟨exists_start valid settings, ?_⟩
  intro search visits calls account last driven
  have grounded := visits.grounded
  refine ⟨(grounded.driveGuarded_eq valid calls).trans driven, ?_⟩
  intro fault failed
  cases tells_of_drive driven with
  | going => cases failed
  | failed cycles cycled =>
    obtain rfl := Option.some.inj failed
    -- What a search holds does not depend on its settings nor on its stream of budgets.
    have hcore : search.core.Grounded program := grounded
    have refuses := (hcore.cycles cycles).refuses valid cycled
    exact ⟨refuses.kind_eq, _, _, _, cycles, cycled, refuses⟩

theorem safe_of_validate_clashing : clashing.validate = .ok () ∧
    ∃ search account last fault, start clashing ⟨0, false⟩ = .ok search ∧
      search.drive (List.replicate 9 (.step 1)) = (account, last) ∧
      search.driveGuarded (List.replicate 9 (.step 1)) = (account, last) ∧
      account.models.length = 1 ∧ account.fault = some fault ∧ fault.kind = .invariant ∧
      ∃ before : Search, before.Refuses fault := by
  have valid : clashing.validate = .ok () := by decide +kernel
  have seen : driven? clashing ⟨0, false⟩ (List.replicate 9 (.step 1)) = some (1, true, 6) := by
    decide +kernel
  obtain ⟨search, account, last, started, driven, found, failed, -⟩ := exists_of_driven? seen
  obtain ⟨fault, met⟩ := Option.isSome_iff_exists.1 failed
  obtain ⟨-, safe⟩ := safe_of_validate valid ⟨0, false⟩
  obtain ⟨guarded, fails⟩ := safe search (.start started) _ _ _ driven
  obtain ⟨kind_eq, count, before, after, -, -, refuses⟩ := fails fault met
  exact ⟨valid, search, account, last, fault, started, driven, guarded, found, met, kind_eq, before,
    refuses⟩

end Search

end StableModels
