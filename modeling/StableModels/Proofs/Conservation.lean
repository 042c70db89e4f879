import Mathlib.Algebra.GroupWithZero.Nat
import StableModels.Proofs.Slicing

/-!
# Conservation of partial models

A search creates the partial model at its root and, each time it splits one, the branches of it.
What it creates it does not lose: as long as no cycle fails, one more than the number of branches is
the number of models found and of dead ends dropped, of partial models that the search holds, and of
splits (`StableModels.Search.Course.conserved`). Each split makes at least two branches, and none of
them is dead when it is queued.

The splits themselves are not counted by the search. We count them along its course
(`StableModels.Search.Course`), by looking at what the next cycle is going to do
(`StableModels.Search.split?`).
-/

namespace StableModels

/-! ### Splits -/

namespace PartialModel

variable {rules : RuleSet} {model after spared : PartialModel} {key : ChoiceKey} {choice : Choice}
  {excluded : HandleSet} {branches : List PartialModel}

theorem FixedTo.length_eq {values : List Handle} (fixed : FixedTo key model values branches) :
    branches.length = values.length :=
  (List.Forall₂.length_eq fixed).symm

/-- A choice is split only if two branches come of it. -/
theorem two_le_length_of_resolve
    (resolved : resolve key choice excluded model = (.ok (.branch branches), after)) :
    2 ≤ branches.length := by
  rw [resolve] at resolved
  split at resolved
  · cases resolved
  · cases resolved
  · split at resolved <;> cases resolved
  · next never_none never_spent never_forced =>
    split at resolved
    · cases resolved
    · next made hmade =>
      obtain ⟨hverdict, -⟩ := Prod.mk.inj resolved
      obtain rfl := Verdict.branch.inj (Except.ok.inj hverdict)
      rw [PartialModel.branches] at hmade
      split at hmade
      · cases hmade
      · next fixed hfixed =>
        have length_eq := (fixedTo_of_fixEach hfixed).length_eq
        split at hmade
        · next exhaustive =>
          obtain rfl := Except.ok.inj hmade
          -- None or one open value would not have come here.
          rcases hopen : choice.values.without excluded with _ | ⟨first, _ | ⟨second, others⟩⟩
          · exact absurd hopen (never_none exhaustive)
          · exact absurd hopen (never_forced first exhaustive)
          · rw [length_eq, hopen]
            simp
        · next lenient =>
          rw [Bool.not_eq_true] at lenient
          split at hmade
          · cases hmade
          · obtain rfl := Except.ok.inj hmade
            have some_open := List.length_pos_iff.2 (never_spent lenient)
            rw [List.length_append, length_eq, List.length_singleton]
            omega

/-- **A split makes at least two branches.** -/
theorem two_le_length_of_examine
    (examined : model.examine rules = (.ok (.branch branches), after)) : 2 ≤ branches.length := by
  rw [examine] at examined
  split at examined
  · cases examined
  · split at examined
    · next none_left =>
      obtain ⟨hverdict, -⟩ := Prod.mk.inj examined
      have judged : Examines rules model _ _ := examines_of_judge none_left rfl
      rw [Except.ok.inj hverdict] at judged
      cases judged with
      | closed first | opened first => rw [none_left] at first; cases first
    · simp only at examined
      split at examined
      · split at examined <;> cases examined
      · exact two_le_length_of_resolve examined
      · exact two_le_length_of_resolve examined

/-- Fixing a free tuple to an open value does not kill. -/
theorem Free.isDead_assert (free : model.Free key excluded) {value : Handle}
    (opens : value ∉ excluded) (asserted : model.assert key.name key.args value = .ok after)
    (alive : model.isDead = false) : after.isDead = false := by
  refine PartialModel.isDead_assert asserted alive fun constraint found => ?_
  rcases free with narrowed | ⟨unknown, -⟩
  · obtain rfl := Option.some.inj (narrowed.symm.trans found)
    rw [Constraint.admits, Bool.not_eq_true', ← Bool.not_eq_true, HandleSet.contains_iff]
    exact opens
  · rw [unknown] at found
    cases found

theorem isDead_constrain {constraint : Constraint}
    (constrained : model.constrain key.name key.args constraint = .ok after) :
    after.isDead = model.isDead := by
  obtain ⟨database, old, set, rfl⟩ := exists_of_constrain constrained
  rfl

theorem Free.isDead_of_fixedTo (free : model.Free key excluded) {values : List Handle}
    (opens : ∀ value ∈ values, value ∉ excluded) (fixed : FixedTo key model values branches)
    (alive : model.isDead = false) : ∀ branch ∈ branches, branch.isDead = false := by
  induction fixed with
  | nil => exact fun _ member => by cases member
  | @cons value branch values branches asserted _ ih =>
    intro other member
    rcases List.mem_cons.1 member with rfl | member
    · exact free.isDead_assert (opens value List.mem_cons_self) asserted alive
    · exact ih (fun value hvalue => opens value (List.mem_cons_of_mem _ hvalue)) other member

/-- **No branch is dead.** -/
theorem Examines.isDead_of_mem (examines : Examines rules model (.branch branches) after)
    (alive : model.isDead = false) : ∀ branch ∈ branches, branch.isDead = false := by
  have opens (choice : Choice) (excluded : HandleSet) :
      ∀ value ∈ choice.values.without excluded, value ∉ excluded :=
    fun value member => (HandleSet.mem_without.1 member).2
  cases examines with
  | closed first free exhaustive fixed =>
    exact (Free.forget free _).isDead_of_fixedTo (opens _ _) fixed alive
  | opened first free lenient some_open fixed narrowed =>
    intro branch member
    rcases List.mem_append.1 member with member | member
    · exact (Free.forget free _).isDead_of_fixedTo (opens _ _) fixed alive branch member
    · rw [List.mem_singleton.1 member, isDead_constrain narrowed]
      exact alive

end PartialModel

/-- The number of branches into which an examination splits the partial model, if it splits it. -/
def PartialModel.split? (rules : RuleSet) (model : PartialModel) : Option Nat :=
  if model.isDead || !model.isSaturated then none
  else
    match (model.examine rules).1 with
    | .ok (.branch branches) => some branches.length
    | _ => none

namespace Search

/-- The number of branches into which the next cycle splits the partial model that it takes up, if
it splits it. -/
def split? (search : Search) : Option Nat :=
  search.take?.bind fun taken => taken.1.split? search.rules

/-! ### What a cycle does to the counts -/

/-- The partial models that wait in the queue. -/
def queued (search : Search) : List PartialModel := search.pending.toList.map Prod.snd

/-- The number of partial models that are current: one or none. -/
def currentCount (search : Search) : Nat := if search.current.isSome then 1 else 0

theorem length_queued (search : Search) : search.queued.length = search.pendingCount := by
  rw [queued, List.length_map, Forest.length_toList, pendingCount]

/-- Queueing adds the branches to the queue and counts them. -/
theorem queued_queue (branches : List PartialModel) (search : Search) :
    (queue branches search).queued.Perm (branches ++ search.queued) ∧
      (queue branches search).current = search.current ∧
        (queue branches search).stats =
          { search.stats with branches := search.stats.branches + branches.length } := by
  induction branches generalizing search with
  | nil => exact ⟨.refl _, rfl, rfl⟩
  | cons branch branches ih =>
    rw [queue]
    obtain ⟨perm, current, stats⟩ := ih { search with
      priorities := search.priorities.next.2
      pending := search.pending.push search.priorities.next.1.toNat branch
      stats := { search.stats with branches := search.stats.branches + 1 } }
    have pushed := (Forest.toList_push search.priorities.next.1.toNat branch search.pending).map
      Prod.snd
    refine ⟨perm.trans ((pushed.append_left _).trans List.perm_middle), current, ?_⟩
    rw [stats, List.length_cons, Nat.add_assoc, Nat.add_comm 1]

variable {program : Program} {settings : Settings} {search rest after last : Search}
  {model : PartialModel} {outcome : Cycle} {result : Step} {splits : List Nat} {budget : Nat}

/-- Taking a partial model off leaves one less. -/
theorem counts_of_take? (taken : search.take? = some (model, rest)) :
    rest.current = none ∧ rest.stats = search.stats ∧ rest.rules = search.rules ∧
      search.pendingCount + search.currentCount = rest.pendingCount + 1 ∧
        ∀ other ∈ rest.queued, other ∈ search.queued := by
  cases takes_of_take? taken with
  | current held =>
    refine ⟨rfl, rfl, rfl, ?_, fun _ => id⟩
    rw [currentCount, held]
    rfl
  | popped idle popped =>
    refine ⟨idle, rfl, rfl, ?_, fun other member => ?_⟩
    · rw [currentCount, idle]
      exact Forest.size_of_pop? popped
    · exact ((Forest.toList_pop? popped).map Prod.snd).mem_iff.2 (List.mem_cons_of_mem _ member)

/-- **What becomes of a partial model that was taken off**, if it is split like this: the counts,
and the queue. -/
structure Accounts (split : Option Nat) (rest after : Search) : Prop where
  /-- It has been found or dropped, or is current, or was split and its branches are queued. -/
  total : after.stats.solutions + after.stats.deadEnds + after.pendingCount + after.currentCount +
    split.toList.length = rest.stats.solutions + rest.stats.deadEnds + rest.pendingCount + 1 +
      split.toList.sum
  /-- The branches are those of the split. -/
  branches : after.stats.branches = rest.stats.branches + split.toList.sum
  /-- A split makes at least two branches. -/
  wide : ∀ width ∈ split.toList, 2 ≤ width
  /-- Nothing dead is put into the queue. -/
  alive : ∀ other ∈ after.queued, other ∈ rest.queued ∨ other.isDead = false

theorem accounts_of_workOn (idle : rest.current = none)
    (worked : workOn model rest = (outcome, after)) (unfailed : ∀ fault, outcome ≠ .failed fault) :
    Accounts (model.split? rest.rules) rest after := by
  have none_current : rest.currentCount = 0 := by rw [currentCount, idle]; rfl
  cases worksOn_of_workOn worked with
  | fails | refuses => exact absurd rfl (unfailed _)
  | drops dead =>
    rw [PartialModel.split?, dead]
    refine ⟨?_, rfl, by simp, fun _ => Or.inl⟩
    change rest.stats.solutions + (rest.stats.deadEnds + 1) + rest.pendingCount +
      rest.currentCount + 0 = rest.stats.solutions + rest.stats.deadEnds + rest.pendingCount + 1 + 0
    omega
  | steps alive waits =>
    rw [PartialModel.split?, alive, waits]
    exact ⟨rfl, rfl, by simp, fun _ => Or.inl⟩
  | @branches branches last alive saturated examined =>
    have split : model.split? rest.rules = some branches.length := by
      rw [PartialModel.split?, alive, saturated, examined]
      rfl
    rw [split]
    obtain ⟨perm, current, stats⟩ := queued_queue branches rest
    have length_eq := perm.length_eq
    rw [List.length_append, length_queued, length_queued] at length_eq
    constructor
    case total =>
      rw [stats, length_eq, currentCount, current, idle]
      simp only [Option.isSome_none, Bool.false_eq_true, if_false, Option.toList_some,
        List.length_singleton, List.sum_singleton]
      omega
    case branches => rw [stats, Option.toList_some, List.sum_singleton]
    case wide =>
      intro width member
      rw [List.mem_singleton.1 member]
      exact PartialModel.two_le_length_of_examine examined
    case alive =>
      intro other member
      rcases List.mem_append.1 (perm.mem_iff.1 member) with member | member
      · right
        exact (PartialModel.examines_of_examine alive examined).isDead_of_mem alive _ member
      · exact Or.inl member
  | finds alive saturated examined =>
    rw [PartialModel.split?, alive, saturated, examined]
    refine ⟨?_, rfl, by simp, fun _ => Or.inl⟩
    change rest.stats.solutions + 1 + rest.stats.deadEnds + rest.pendingCount +
      rest.currentCount + 0 = rest.stats.solutions + rest.stats.deadEnds + rest.pendingCount + 1 + 0
    omega
  | @decides verdict after alive saturated examined unsolved unbranched =>
    rw [PartialModel.split?, alive, saturated, examined]
    cases verdict with
    | branch branches => exact absurd rfl (unbranched branches)
    | solution => exact absurd rfl unsolved
    | _ => exact ⟨rfl, rfl, by simp, fun _ => Or.inl⟩

/-! ### The balance -/

/-- **The balance of a search**: the counts that it and we keep agree, and nothing dead is
queued. -/
structure Balanced (search : Search) (splits : List Nat) : Prop where
  /-- Whatever was created has been found or dropped, or is held, or was split. -/
  total : 1 + search.stats.branches = search.stats.solutions + search.stats.deadEnds +
    search.pendingCount + search.currentCount + splits.length
  /-- The branches are those of the splits. -/
  branches : search.stats.branches = splits.sum
  /-- Each split makes at least two branches. -/
  wide : ∀ width ∈ splits, 2 ≤ width
  /-- Nothing dead is queued. -/
  alive : ∀ model ∈ search.queued, model.isDead = false

theorem balanced_of_start (started : start program settings = .ok search) :
    search.Balanced [] := by
  cases starts_of_start started
  exact ⟨rfl, rfl, by simp, fun _ member => by cases member⟩

/-- A cycle keeps the balance unless it fails. -/
theorem Balanced.cycle (balanced : search.Balanced splits)
    (cycled : search.cycle = (outcome, after)) (unfailed : ∀ fault, outcome ≠ .failed fault) :
    after.Balanced (splits ++ search.split?.toList) := by
  rw [Search.cycle] at cycled
  rw [split?]
  split at cycled
  · next taken =>
    obtain ⟨-, rfl⟩ := Prod.mk.inj cycled
    rw [taken, Option.bind_none, Option.toList_none, List.append_nil]
    exact balanced
  · next model rest taken =>
    obtain ⟨idle, stats, rules, counts, queued⟩ := counts_of_take? taken
    -- A cycle is counted before it works, which changes none of the other counts.
    have accounts : Accounts (model.split? rest.rules) rest after := by
      obtain ⟨total, branches, wide, alive⟩ := accounts_of_workOn
        (show Search.current
            { rest with stats := { rest.stats with cycles := rest.stats.cycles + 1 } } =
          none from idle) cycled unfailed
      exact ⟨total, branches, wide, alive⟩
    rw [taken, Option.bind_some, ← rules]
    obtain ⟨total, branches, wide, alive⟩ := accounts
    constructor
    case total =>
      have before := balanced.total
      rw [stats] at total branches
      rw [List.length_append, branches]
      simp only
      omega
    case branches => rw [branches, stats, balanced.branches, List.sum_append]
    case wide =>
      intro width member
      rcases List.mem_append.1 member with member | member
      · exact balanced.wide width member
      · exact wide width member
    case alive =>
      intro other member
      rcases alive other member with member | survives
      · exact balanced.alive other (queued other member)
      · exact survives

/-! ### Courses -/

/-- **The courses that a search can take as long as no cycle fails**: its states between two cycles,
with the number of branches of each split so far. A budget may be drawn at any time. -/
inductive Course (program : Program) (settings : Settings) : Search → List Nat → Prop where
  /-- The start. -/
  | start {search : Search} (started : Search.start program settings = .ok search) :
      Course program settings search []
  /-- A cycle that does not fail. -/
  | cycle {search after : Search} {outcome : Cycle} {splits : List Nat}
      (course : Course program settings search splits)
      (cycled : search.cycle = (outcome, after)) (unfailed : ∀ fault, outcome ≠ .failed fault) :
      Course program settings after (splits ++ search.split?.toList)
  /-- A budget is drawn. -/
  | draw {search : Search} {splits : List Nat} (budgets : Random.Stream)
      (course : Course program settings search splits) :
      Course program settings { search with budgets := budgets } splits

theorem Course.balanced (course : Course program settings search splits) :
    search.Balanced splits := by
  induction course with
  | start started => exact balanced_of_start started
  | cycle _ cycled unfailed ih => exact ih.cycle cycled unfailed
  | draw _ _ ih => exact ⟨ih.total, ih.branches, ih.wide, ih.alive⟩

theorem Course.step (course : Course program settings search splits)
    (stepped : search.step budget = (result, after)) (unfailed : ∀ fault, result ≠ .failed fault) :
    ∃ more, Course program settings after (splits ++ more) := by
  -- What the step preserves is that the search is somewhere further along the course.
  have cycle {before after : Search} {outcome : Cycle}
      (along : ∃ more, Course program settings before (splits ++ more))
      (cycled : before.cycle = (outcome, after)) (unfailed : ∀ fault, outcome ≠ .failed fault) :
      ∃ more, Course program settings after (splits ++ more) := by
    obtain ⟨more, course⟩ := along
    refine ⟨more ++ before.split?.toList, ?_⟩
    rw [← List.append_assoc]
    exact course.cycle cycled unfailed
  cases ends_of_step (fun along cycled => cycle along cycled (by simp))
    (fun ⟨more, course⟩ => ⟨more, course.draw _⟩) ⟨[], by rwa [List.append_nil]⟩ stepped with
  | paused along | exhausted along => exact along
  | found along cycled => exact cycle along cycled (by simp)
  | failed => exact absurd rfl (unfailed _)

theorem Course.next (course : Course program settings search splits) {rounds : Nat}
    (found : search.next rounds = (result, after)) (unfailed : ∀ fault, result ≠ .failed fault) :
    ∃ more, Course program settings after (splits ++ more) := by
  induction rounds generalizing search splits with
  | zero =>
    obtain ⟨-, rfl⟩ := Prod.mk.inj found
    exact ⟨[], by rwa [List.append_nil]⟩
  | succ rounds ih =>
    rw [Search.next] at found
    cases stepped : search.step unlimited with
    | mk first middle =>
      rw [stepped] at found
      cases first with
      | failed => exact absurd (Prod.mk.inj found).1.symm (unfailed _)
      | found | exhausted =>
        obtain ⟨-, rfl⟩ := Prod.mk.inj found
        exact course.step stepped (by simp)
      | paused =>
        obtain ⟨more, hmiddle⟩ := course.step stepped (by simp)
        obtain ⟨others, hafter⟩ := ih hmiddle found
        exact ⟨_, by rwa [List.append_assoc] at hafter⟩

/-- A call that does not fail goes on along the course. -/
theorem Course.make (course : Course program settings search splits) {call : Call}
    (made : call.make search = (result, after)) (unfailed : ∀ fault, result ≠ .failed fault) :
    ∃ more, Course program settings after (splits ++ more) := by
  cases call with
  | step => exact course.step made unfailed
  | next => exact course.next made unfailed

theorem isExhausted_of_make {call : Call} (made : call.make search = (.exhausted, after)) :
    after.isExhausted = true := by
  obtain ⟨count, comes, -⟩ := comes_of_make made
  cases comes with
  | exhausted _ exhausted => exact exhausted

/-- **Partial models are conserved.** At every point of every course that a search can take as long
as no cycle fails, one more than the number of branches is the number of models found and of dead
ends dropped, of partial models that wait or are current, and of splits; each split has made at
least two branches, all branches come of splits, and all that wait are alive. Every call of a host
that does not fail goes on along such a course; and if it answers that no work is left, then none is
held, so that each partial model has ended once, as a split, a model or a dead end. -/
theorem Course.conserved (course : Course program settings search splits) :
    1 + search.stats.branches = search.stats.solutions + search.stats.deadEnds +
      search.pendingCount + (if search.current.isSome then 1 else 0) + splits.length ∧
    search.stats.branches = splits.sum ∧ (∀ width ∈ splits, 2 ≤ width) ∧
    (∀ branch ∈ search.pending.toList, branch.2.isDead = false) ∧
    ∀ (call : Call) (step : Step) (after : Search), call.make search = (step, after) →
      (∀ fault, step ≠ .failed fault) → ∃ more, Course program settings after (splits ++ more) ∧
        (step = .exhausted → after.current = none ∧ after.pendingCount = 0 ∧
          1 + after.stats.branches =
            after.stats.solutions + after.stats.deadEnds + (splits ++ more).length) := by
  obtain ⟨total, branches, wide, alive⟩ := course.balanced
  refine ⟨total, branches, wide, fun branch member => ?_, ?_⟩
  · exact alive branch.2 (List.mem_map_of_mem member)
  intro call step after made unfailed
  obtain ⟨more, hafter⟩ := course.make made unfailed
  refine ⟨more, hafter, ?_⟩
  rintro rfl
  have none_left := leaves_eq_nil_iff.2 (isExhausted_of_make made)
  obtain ⟨none_current, none_queued⟩ := List.append_eq_nil_iff.1 none_left
  rw [Option.toList_eq_nil_iff] at none_current
  have none_pending : after.pendingCount = 0 := by
    rw [← length_queued, queued, none_queued, List.length_nil]
  have ended := hafter.balanced.total
  rw [none_pending, currentCount, none_current] at ended
  exact ⟨none_current, none_pending, ended⟩

/-- The branches, models and dead ends that a search of the program has counted, if its first step
finds a model and its second one nothing more. -/
def counted? (program : Program) : Option (Nat × Nat × Nat) :=
  match Search.start program {} with
  | .error _ => none
  | .ok first =>
    match first.step 100 with
    | (.found _, middle) =>
      match middle.step 100 with
      | (.exhausted, last) => some (last.stats.branches, last.stats.solutions, last.stats.deadEnds)
      | _ => none
    | _ => none

theorem exists_of_counted? {branches solutions deadEnds : Nat}
    (seen : counted? program = some (branches, solutions, deadEnds)) :
    ∃ first middle last database, Search.start program {} = .ok first ∧
      first.step 100 = (.found database, middle) ∧ middle.step 100 = (.exhausted, last) ∧
        last.stats.branches = branches ∧ last.stats.solutions = solutions ∧
          last.stats.deadEnds = deadEnds := by
  rw [counted?] at seen
  split at seen
  · cases seen
  next first started =>
  split at seen
  case h_2 => cases seen
  next database middle found =>
  split at seen
  case h_2 => cases seen
  next last exhausted =>
  simp only [Option.some.injEq, Prod.mk.injEq] at seen
  exact ⟨first, middle, last, database, started, found, exhausted, seen⟩

/-- The program that may choose one of two values, and forbids one of them. -/
def wary : Program where
  seeds := ["go"]
  rules := [.run "go" [] [] (.choice "c" [] [.const "a" [], .const "b" []] false),
    .unary ⟨"c", [], .const "a" []⟩ (.intermediate "bad" [])]
  forbids := ["bad"]

theorem Course.conserved_wary : ∃ first middle last database splits,
    Search.start wary {} = .ok first ∧ Call.make (.step 100) first = (.found database, middle) ∧
      Call.make (.step 100) middle = (.exhausted, last) ∧ Course wary {} last splits ∧
      last.stats.branches = 3 ∧ last.stats.solutions = 1 ∧ last.stats.deadEnds = 2 ∧
      splits.length = 1 := by
  have seen : counted? wary = some (3, 1, 2) := by decide +kernel
  obtain ⟨first, middle, last, database, started, found, exhausted, branches, solutions,
    deadEnds⟩ := exists_of_counted? seen
  obtain ⟨-, -, -, -, goes⟩ := (Course.start started).conserved
  obtain ⟨splits, course, -⟩ := goes (.step 100) _ _ found (by simp)
  obtain ⟨-, -, -, -, goes⟩ := course.conserved
  obtain ⟨more, course, ended⟩ := goes (.step 100) _ _ exhausted (by simp)
  obtain ⟨-, -, balance⟩ := ended rfl
  refine ⟨first, middle, last, database, _, started, found, exhausted, course, branches, solutions,
    deadEnds, ?_⟩
  omega

end Search

end StableModels
