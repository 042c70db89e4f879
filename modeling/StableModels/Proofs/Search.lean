import StableModels.Proofs.Forest
import StableModels.Proofs.Saturation
import StableModels.Search

/-!
# Searches

A search holds partial models, one that is current and others that are pending
(`StableModels.Search.leaves`). A cycle takes one of them off (`StableModels.Search.Takes`), works
on it (`StableModels.Search.WorksOn`), and puts others in its place: none if it was dropped or
reported, its branches if it branches, and otherwise itself as it is after the cycle
(`StableModels.Search.Works`). Which one it takes is of no concern here.

Hence whatever a search holds is reached (`StableModels.Search.Grounded`), in whatever order it goes
about it, however its work is cut into budgets and also after a fault.
-/

namespace StableModels

namespace Search

variable {search rest after : Search} {model : PartialModel} {outcome : Cycle}

/-- **How the search of a program starts**: it holds the partial model in which the seeds are
planted, and no other. -/
inductive Starts (program : Program) (settings : Settings) : Search → Prop where
  /-- The program compiles and its seeds can be planted. -/
  | root {rules : RuleSet} {store : Store} {root : PartialModel}
      (compiled : RuleSet.compile program .initial = .ok (rules, store))
      (planted : PartialModel.seeded rules = .ok root) :
      Starts program settings {
        rules, store, settings
        priorities := .ofSeed settings.seed
        budgets := .ofSeed (settings.seed ^^^ budgetSalt)
        pending := .empty
        current := some root
        stats := {} }

theorem starts_of_start {program : Program} {settings : Settings}
    (started : start program settings = .ok search) : Starts program settings search := by
  rw [start] at started
  split at started
  · cases started
  · next rules store compiled =>
    split at started
    · cases started
    · next root planted => exact Except.ok.inj started ▸ .root compiled planted

/-- **How a partial model is taken off a search**: the current one if there is one, and otherwise
the first one that is pending. -/
inductive Takes (search : Search) : PartialModel → Search → Prop where
  /-- It is the current one. -/
  | current {model : PartialModel} (held : search.current = some model) :
      Takes search model { search with current := none }
  /-- It is the first one that is pending. -/
  | popped {priority : Nat} {model : PartialModel} {pending : Forest Nat PartialModel}
      (idle : search.current = none)
      (popped : search.pending.pop? = some ((priority, model), pending)) :
      Takes search model { search with pending := pending }

theorem takes_of_take? (taken : search.take? = some (model, rest)) :
    Takes search model rest := by
  rw [take?] at taken
  split at taken
  · next current held =>
    obtain ⟨rfl, rfl⟩ := Prod.mk.inj (Option.some.inj taken)
    exact .current held
  · next idle =>
    split at taken
    · next priority first pending popped =>
      obtain ⟨rfl, rfl⟩ := Prod.mk.inj (Option.some.inj taken)
      exact .popped idle popped
    · cases taken

/-! ### Cycles -/

/-- The partial models that the search holds. -/
def leaves (search : Search) : List PartialModel :=
  search.current.toList ++ search.pending.toList.map Prod.snd

/-- The partial model that is taken off was held before, and no other is lost. -/
theorem leaves_of_take? (taken : search.take? = some (model, rest)) :
    search.leaves.Perm (model :: rest.leaves) ∧ rest.current = none ∧ rest.rules = search.rules ∧
      rest.store = search.store := by
  cases takes_of_take? taken with
  | current held =>
    refine ⟨?_, rfl, rfl, rfl⟩
    rw [leaves, held]
    rfl
  | popped idle popped =>
    refine ⟨?_, idle, rfl, rfl⟩
    rw [leaves, leaves, idle]
    exact (Forest.toList_pop? popped).map Prod.snd

theorem leaves_eq_nil_iff : search.leaves = [] ↔ search.isExhausted = true := by
  rw [leaves, isExhausted, Bool.and_eq_true_iff, Forest.isEmpty_iff, List.append_eq_nil_iff,
    List.map_eq_nil_iff, Option.isNone_iff_eq_none, Option.toList_eq_nil_iff]

theorem isExhausted_of_take? (taken : search.take? = none) : search.isExhausted = true := by
  rw [take?] at taken
  split at taken
  · cases taken
  · next hcurrent =>
    split at taken
    · cases taken
    · next popped =>
      rw [← leaves_eq_nil_iff, leaves, hcurrent, Forest.pop?_eq_none_iff.1 popped]
      rfl

/-- Queueing adds the branches to what the search holds. -/
theorem leaves_queue (branches : List PartialModel) (search : Search) :
    (queue branches search).leaves.Perm (branches ++ search.leaves) ∧
      (queue branches search).rules = search.rules ∧
        (queue branches search).store = search.store := by
  induction branches generalizing search with
  | nil => exact ⟨.refl _, rfl, rfl⟩
  | cons branch branches ih =>
    rw [queue]
    obtain ⟨perm, rules, store⟩ := ih { search with
      priorities := search.priorities.next.2
      pending := search.pending.push search.priorities.next.1.toNat branch
      stats := { search.stats with branches := search.stats.branches + 1 } }
    refine ⟨perm.trans ?_, rules, store⟩
    have pushed := (Forest.toList_push search.priorities.next.1.toNat branch search.pending).map
      Prod.snd
    rw [leaves, leaves, List.cons_append]
    refine ((pushed.append_left _).append_left _).trans ?_
    rw [List.map_cons]
    exact (List.perm_middle.append_left _).trans List.perm_middle

/-- **What a cycle does with the partial model that it takes**: what it comes to, what takes the
place of the partial model, and the store afterwards. -/
inductive Works (rules : RuleSet) (store : Store) (model : PartialModel) :
    Cycle → List PartialModel → Store → Prop where
  /-- A dead partial model is dropped. -/
  | drops (dead : model.isDead = true) : Works rules store model .worked [] store
  /-- News is propagated. -/
  | steps {progress : Bool} {after : PartialModel} {more : Store} (alive : model.isDead = false)
      (stepped : Saturating.step rules ⟨model, store⟩ = .ok progress ⟨after, more⟩) :
      Works rules store model .worked [after] more
  /-- Propagation fails. -/
  | fails {fault : Fault} {after : PartialModel} {more : Store} (alive : model.isDead = false)
      (stepped : Saturating.step rules ⟨model, store⟩ = .error fault ⟨after, more⟩) :
      Works rules store model (.failed fault) [] more
  /-- The examination fails. -/
  | refuses {fault : Fault} {after : PartialModel}
      (examined : model.examine rules = (.error fault, after)) :
      Works rules store model (.failed fault) [] store
  /-- The partial model branches. -/
  | branches {branches : List PartialModel} {after : PartialModel} (alive : model.isDead = false)
      (saturated : model.agenda = [])
        (examined : model.examine rules = (.ok (.branch branches), after)) :
      Works rules store model .worked branches store
  /-- The partial model is a model. -/
  | finds {after : PartialModel} (alive : model.isDead = false) (saturated : model.agenda = [])
      (examined : model.examine rules = (.ok .solution, after)) :
      Works rules store model (.found after.database) [] store
  /-- The examination leaves a partial model. -/
  | decides {verdict : Verdict} {after : PartialModel} (alive : model.isDead = false)
      (saturated : model.agenda = []) (examined : model.examine rules = (.ok verdict, after))
      (unsolved : verdict ≠ .solution) (unbranched : ∀ branches, verdict ≠ .branch branches) :
      Works rules store model .worked [after] store

/-- **What becomes of a search** that works on a partial model that was taken off it. -/
inductive WorksOn (model : PartialModel) (search : Search) : Cycle → Search → Prop where
  /-- A dead partial model is counted and dropped. -/
  | drops (dead : model.isDead = true) :
      WorksOn model search .worked
        { search with stats := { search.stats with deadEnds := search.stats.deadEnds + 1 } }
  /-- News is propagated. -/
  | steps {progress : Bool} {after : PartialModel} {more : Store} (alive : model.isDead = false)
      (waits : model.isSaturated = false)
      (stepped : Saturating.step search.rules ⟨model, search.store⟩ = .ok progress ⟨after, more⟩) :
      WorksOn model search .worked { search with store := more, current := some after }
  /-- Propagation fails. -/
  | fails {fault : Fault} {after : PartialModel} {more : Store} (alive : model.isDead = false)
      (stepped : Saturating.step search.rules ⟨model, search.store⟩ = .error fault ⟨after, more⟩) :
      WorksOn model search (.failed fault) { search with store := more }
  /-- The examination fails. -/
  | refuses {fault : Fault} {after : PartialModel}
      (examined : model.examine search.rules = (.error fault, after)) :
      WorksOn model search (.failed fault) search
  /-- The branches are queued. -/
  | branches {branches : List PartialModel} {after : PartialModel} (alive : model.isDead = false)
      (saturated : model.isSaturated = true)
      (examined : model.examine search.rules = (.ok (.branch branches), after)) :
      WorksOn model search .worked (search.queue branches)
  /-- The model is counted. -/
  | finds {after : PartialModel} (alive : model.isDead = false)
      (saturated : model.isSaturated = true)
      (examined : model.examine search.rules = (.ok .solution, after)) :
      WorksOn model search (.found after.database)
        { search with stats := { search.stats with solutions := search.stats.solutions + 1 } }
  /-- The examination leaves a partial model, which is the current one from then on. -/
  | decides {verdict : Verdict} {after : PartialModel} (alive : model.isDead = false)
      (saturated : model.isSaturated = true)
      (examined : model.examine search.rules = (.ok verdict, after))
      (unsolved : verdict ≠ .solution) (unbranched : ∀ branches, verdict ≠ .branch branches) :
      WorksOn model search .worked { search with current := some after }

theorem worksOn_of_workOn (worked : workOn model search = (outcome, after)) :
    WorksOn model search outcome after := by
  rw [workOn] at worked
  split at worked
  · next dead =>
    obtain ⟨rfl, rfl⟩ := Prod.mk.inj worked
    exact .drops dead
  next alive =>
  rw [Bool.not_eq_true] at alive
  split at worked
  · next waits =>
    rw [Bool.not_eq_true'] at waits
    split at worked
    · next stepped =>
      obtain ⟨rfl, rfl⟩ := Prod.mk.inj worked
      exact .steps alive waits stepped
    · next stepped =>
      obtain ⟨rfl, rfl⟩ := Prod.mk.inj worked
      exact .fails alive stepped
  next saturated =>
  rw [Bool.not_eq_true, Bool.not_eq_false'] at saturated
  split at worked
  · next examined =>
    obtain ⟨rfl, rfl⟩ := Prod.mk.inj worked
    exact .refuses examined
  · next examined =>
    obtain ⟨rfl, rfl⟩ := Prod.mk.inj worked
    exact .branches alive saturated examined
  · next examined =>
    obtain ⟨rfl, rfl⟩ := Prod.mk.inj worked
    exact .finds alive saturated examined
  -- What is left are the verdicts after which the partial model is worked on.
  all_goals
    next examined =>
      obtain ⟨rfl, rfl⟩ := Prod.mk.inj worked
      exact .decides alive saturated examined nofun fun _ => nofun

/-- Where no partial model is current, one more is held when another becomes so. -/
theorem leaves_current (idle : search.current = none) (store : Store) (model : PartialModel) :
    leaves { search with store := store, current := some model } = [model] ++ search.leaves := by
  rw [leaves, leaves, idle]
  rfl

theorem works_of_workOn (idle : search.current = none)
    (worked : workOn model search = (outcome, after)) :
    ∃ successors, after.leaves.Perm (successors ++ search.leaves) ∧ after.rules = search.rules ∧
      Works search.rules search.store model outcome successors after.store := by
  cases worksOn_of_workOn worked with
  | drops dead => exact ⟨[], .refl _, rfl, .drops dead⟩
  | steps alive _ stepped =>
    exact ⟨_, .of_eq (leaves_current idle _ _), rfl, .steps alive stepped⟩
  | fails alive stepped => exact ⟨[], .refl _, rfl, .fails alive stepped⟩
  | refuses examined => exact ⟨[], .refl _, rfl, .refuses examined⟩
  | branches alive saturated examined =>
    obtain ⟨perm, rules, store⟩ := leaves_queue _ search
    refine ⟨_, perm, rules, ?_⟩
    rw [store]
    exact .branches alive (List.isEmpty_iff.1 saturated) examined
  | finds alive saturated examined =>
    exact ⟨[], .refl _, rfl, .finds alive (List.isEmpty_iff.1 saturated) examined⟩
  | decides alive saturated examined unsolved unbranched =>
    exact ⟨_, .of_eq (leaves_current idle _ _), rfl,
      .decides alive (List.isEmpty_iff.1 saturated) examined unsolved unbranched⟩

/-- **What a cycle does** unless it is idle. -/
theorem works_of_cycle (cycled : search.cycle = (outcome, after)) :
    (outcome = .idle ∧ after = search ∧ search.isExhausted = true) ∨
      ∃ model rest successors, search.take?.map Prod.fst = some model ∧
        search.leaves.Perm (model :: rest) ∧ after.leaves.Perm (successors ++ rest) ∧
          after.rules = search.rules ∧
            Works search.rules search.store model outcome successors after.store := by
  rw [cycle] at cycled
  split at cycled
  · next taken =>
    obtain ⟨rfl, rfl⟩ := Prod.mk.inj cycled
    exact Or.inl ⟨rfl, rfl, isExhausted_of_take? taken⟩
  · next model rest taken =>
    obtain ⟨perm, idle, rules, store⟩ := leaves_of_take? taken
    obtain ⟨successors, perm', rules', works⟩ := works_of_workOn
      (show Search.current
          { rest with stats := { rest.stats with cycles := rest.stats.cycles + 1 } } =
        none from idle) cycled
    refine Or.inr ⟨model, rest.leaves, successors, by rw [taken]; rfl, perm, perm',
      rules'.trans rules, ?_⟩
    rw [← rules, ← store]
    exact works

/-! ### What a search holds is reached -/

variable {program : Program} {settings : Settings} {rules : RuleSet} {store more : Store}
  {asserted : Set News} {successors : List PartialModel}

/-- A cycle keeps the store sound and extends it, and leads to reachable partial models only. -/
theorem Works.reached (works : Works rules store model outcome successors more)
    (reached : Reached program rules ⟨model, store⟩ asserted) :
    more.Sound ∧ store.Extends more ∧
      ∀ successor ∈ successors, ∃ asserted, Reached program rules ⟨successor, more⟩ asserted := by
  have sound := reached.fit.sound
  cases works with
  | drops => exact ⟨sound, .refl store, by simp⟩
  | steps alive stepped =>
    have ensures := (reached.regular alive).ensures_step reached.fit alive
    rw [Saturating.Ensures, Ensures, stepped] at ensures
    refine ⟨ensures.1, ensures.2.1, ?_⟩
    intro successor member
    obtain rfl := List.mem_singleton.1 member
    exact ⟨asserted, .step reached stepped⟩
  | fails alive stepped =>
    have ensures := (reached.regular alive).ensures_step reached.fit alive
    rw [Saturating.Ensures, Ensures, stepped] at ensures
    exact ⟨ensures.1, ensures.2, by simp⟩
  | refuses => exact ⟨sound, .refl store, by simp⟩
  | branches _ _ examined =>
    refine ⟨sound, .refl store, ?_⟩
    intro successor member
    exact ⟨_, .examine reached (.branch examined member)⟩
  | finds => exact ⟨sound, .refl store, by simp⟩
  | decides _ _ examined _ unbranched =>
    refine ⟨sound, .refl store, ?_⟩
    intro successor member
    obtain rfl := List.mem_singleton.1 member
    exact ⟨_, .examine reached (.whole examined unbranched)⟩

/-- Every partial model that the search holds is reached. -/
def Grounded (program : Program) (search : Search) : Prop :=
  ∀ model ∈ search.leaves, ∃ asserted, Reached program search.rules ⟨model, search.store⟩ asserted

theorem grounded_of_start (started : Search.start program settings = .ok search) :
    search.Grounded program := by
  cases starts_of_start started with
  | root compiled planted =>
    intro model member
    obtain rfl := List.mem_singleton.1 member
    exact ⟨∅, .root compiled planted⟩

theorem Grounded.cycle (grounded : search.Grounded program)
    (cycled : search.cycle = (outcome, after)) : after.Grounded program := by
  rcases works_of_cycle cycled with
    ⟨-, rfl, -⟩ | ⟨model, rest, successors, -, perm, perm', rules, works⟩
  · exact grounded
  · obtain ⟨asserted, reached⟩ := grounded model (perm.mem_iff.2 List.mem_cons_self)
    obtain ⟨sound, extension, successors_reached⟩ := works.reached reached
    intro other member
    rw [rules]
    rcases List.mem_append.1 (perm'.mem_iff.1 member) with member | member
    · exact successors_reached other member
    · -- The others are as they were, but share the store that has grown.
      obtain ⟨asserted', reached'⟩ := grounded other
        (perm.mem_iff.2 (List.mem_cons_of_mem _ member))
      exact ⟨asserted', .grow reached' sound extension⟩

/-! ### Runs -/

/-- How a step ends when a property is preserved by the cycles of a search that works. -/
inductive Ends (P : Search → Prop) : Step → Search → Prop where
  /-- The budget is spent. -/
  | paused {after : Search} (holds : P after) : Ends P .paused after
  /-- No work is left. -/
  | exhausted {after : Search} (holds : P after) : Ends P .exhausted after
  /-- The last cycle finds a model. -/
  | found {before after : Search} {database : Database} (holds : P before)
      (cycled : before.cycle = (.found database, after)) : Ends P (.found database) after
  /-- The last cycle fails. -/
  | failed {before after : Search} {fault : Fault} (holds : P before)
      (cycled : before.cycle = (.failed fault, after)) : Ends P (.failed fault) after

theorem ends_of_spend {P : Search → Prop}
    (worked : ∀ {search after}, P search → search.cycle = (.worked, after) → P after)
    {cycles : Nat} {step : Step} (holds : P search) (spent : search.spend cycles = (step, after)) :
    Ends P step after := by
  induction cycles generalizing search with
  | zero =>
    rw [spend] at spent
    obtain ⟨rfl, rfl⟩ := Prod.mk.inj spent
    split
    · exact .exhausted holds
    · exact .paused holds
  | succ cycles ih =>
    rw [spend] at spent
    split at spent
    · next cycled =>
      obtain ⟨rfl, rfl⟩ := Prod.mk.inj spent
      rcases works_of_cycle cycled with ⟨-, rfl, -⟩ | ⟨_, _, _, -, -, -, -, works⟩
      · exact .exhausted holds
      · cases works
    · next cycled => exact ih (worked holds cycled) spent
    · next cycled =>
      obtain ⟨rfl, rfl⟩ := Prod.mk.inj spent
      exact .found holds cycled
    · next cycled =>
      obtain ⟨rfl, rfl⟩ := Prod.mk.inj spent
      exact .failed holds cycled

/-- Drawing a budget changes nothing but the stream of budgets. -/
theorem exists_budgets_of_drawBudget (budget : Nat) (search : Search) :
    ∃ budgets, (search.drawBudget budget).2 = { search with budgets := budgets } := by
  rw [drawBudget]
  split <;> exact ⟨_, rfl⟩

/-- **How a step ends**, whatever its budget. -/
theorem ends_of_step {P : Search → Prop}
    (worked : ∀ {search after}, P search → search.cycle = (.worked, after) → P after)
    (drawn : ∀ {search budgets}, P search → P { search with budgets := budgets })
    {budget : Nat} {step : Step} (holds : P search) (stepped : search.step budget = (step, after)) :
    Ends P step after := by
  obtain ⟨budgets, hdrawn⟩ := search.exists_budgets_of_drawBudget budget
  rw [Search.step] at stepped
  simp only [hdrawn] at stepped
  exact ends_of_spend worked (drawn holds) stepped

/-- **The states of a search of the program**: its start, and whatever steps lead to, whether they
succeed or fail, and however often the work is dropped. -/
inductive Visits (program : Program) (settings : Settings) : Search → Prop where
  /-- The start. -/
  | start {search : Search} (started : Search.start program settings = .ok search) :
      Visits program settings search
  /-- A step with any budget and any outcome. -/
  | step {search after : Search} {budget : Nat} {step : Step}
      (visits : Visits program settings search)
      (stepped : search.step budget = (step, after)) : Visits program settings after
  /-- All work is dropped. -/
  | abandon {search : Search} (visits : Visits program settings search) :
      Visits program settings search.abandon

theorem Grounded.ends (grounded : search.Grounded program) {budget : Nat} {step : Step}
    (stepped : search.step budget = (step, after)) : Ends (Grounded program) step after :=
  ends_of_step (fun grounded cycled => Grounded.cycle grounded cycled) (fun grounded => grounded)
    grounded stepped

theorem Grounded.step (grounded : search.Grounded program) {budget : Nat} {step : Step}
    (stepped : search.step budget = (step, after)) : after.Grounded program := by
  cases grounded.ends stepped with
  | paused holds | exhausted holds => exact holds
  | found holds cycled | failed holds cycled => exact holds.cycle cycled

theorem Visits.grounded (visits : Visits program settings search) : search.Grounded program := by
  induction visits with
  | start started => exact grounded_of_start started
  | step _ stepped ih => exact ih.step stepped
  | abandon => exact fun _ member => by cases member

end Search

end StableModels
