import StableModels.Proofs.Search
import StableModels.Report

/-!
# How the work of a search is sliced

A host drives a search by a row of calls, each a step with some budget or the way to the next model
(`StableModels.Search.Call`). What it gets to see is a row of models and, if a call fails, a fault
(`StableModels.Search.Account`).

Where a call pauses does not show in it. A cycle depends on all of a search but its settings and its
stream of budgets (`StableModels.Search.cycle_core`), and a call draws on nothing else in order to
find out when to stop. Hence each row of calls comes to a number of cycles of the same run
(`StableModels.Search.Cycles`), and of two rows one comes to a beginning of what the other comes to
(`StableModels.Search.drive_comparable`).
-/

namespace StableModels

/-! ### Drawing a number -/

namespace Random.Stream

theorem below_lt {size : Nat} (pos : 0 < size) (tries : Nat) (stream : Stream) :
    (below size tries stream).1 < size := by
  induction tries generalizing stream with
  | zero => exact pos
  | succ tries ih =>
    have word_lt : stream.next.1.toNat < wordCount := stream.next.1.toNat_lt
    simp only [below]
    split
    · exact Nat.div_lt_of_lt_mul (Nat.mul_lt_mul_of_pos_right word_lt pos)
    · exact ih _

/-- A number that is drawn between two others lies there. -/
theorem between_mem {low high : Nat} (ordered : low ≤ high) (stream : Stream) :
    low ≤ (between low high stream).1 ∧ (between low high stream).1 ≤ high := by
  have bound : (below (high - low + 1) 1024 stream).1 < high - low + 1 :=
    below_lt (Nat.succ_pos _) 1024 stream
  simp only [between]
  omega

end Random.Stream

namespace Search

variable {search before middle after last : Search} {outcome : Cycle} {step : Step} {fault : Fault}
  {budget count more : Nat}

/-! ### What a cycle depends on -/

/-- The search without its settings and its stream of budgets. -/
def core (search : Search) : Search := { search with settings := {}, budgets := .ofSeed 0 }

theorem take?_core (search : Search) :
    search.core.take? = search.take?.map fun taken => (taken.1, taken.2.core) := by
  rw [take?, take?]
  cases hcurrent : search.current with
  | some model => simp [core, hcurrent]
  | none =>
    cases hpending : search.pending.pop? with
    | none => simp [core, hcurrent, hpending]
    | some popped => simp [core, hcurrent, hpending]

theorem queue_core (branches : List PartialModel) (search : Search) :
    queue branches search.core = (queue branches search).core := by
  induction branches generalizing search with
  | nil => rfl
  | cons branch branches ih =>
    exact ih { search with
      priorities := search.priorities.next.2
      pending := search.pending.push search.priorities.next.1.toNat branch
      stats := { search.stats with branches := search.stats.branches + 1 } }

theorem workOn_core (model : PartialModel) (search : Search) :
    workOn model search.core = ((workOn model search).1, (workOn model search).2.core) := by
  rw [workOn, workOn]
  split
  · rfl
  split
  · rw [show search.core.rules = search.rules from rfl,
      show search.core.store = search.store from rfl]
    split <;> rfl
  · rw [show search.core.rules = search.rules from rfl]
    split
    · rfl
    · rw [queue_core]
    all_goals rfl

/-- **A cycle depends neither on the settings nor on the stream of budgets**, and changes neither
of them. -/
theorem cycle_core (search : Search) :
    search.core.cycle = (search.cycle.1, search.cycle.2.core) := by
  rw [cycle, cycle, take?_core]
  cases search.take? with
  | none => rfl
  | some taken =>
    obtain ⟨model, rest⟩ := taken
    exact workOn_core model
      { rest with stats := { rest.stats with cycles := rest.stats.cycles + 1 } }

/-! ### Rows of cycles -/

/-- A model, and the store that its handles refer to. -/
structure FoundModel where
  /-- The facts, and what is known besides. -/
  database : Database
  /-- The store. -/
  store : Store

/-- The facts of the model with their terms in full. -/
def FoundModel.facts (model : FoundModel) : List Fact := model.store.facts model.database

/-- **So many cycles in a row**, none of them idle and none failing, and the models that they
find. -/
inductive Cycles : Search → Nat → List FoundModel → Search → Prop where
  /-- None. -/
  | refl (search : Search) : Cycles search 0 [] search
  /-- The first finds nothing. -/
  | worked {search middle after : Search} {count : Nat} {models : List FoundModel}
      (cycled : search.cycle = (.worked, middle)) (rest : Cycles middle count models after) :
      Cycles search (count + 1) models after
  /-- The first finds a model. -/
  | found {search middle after : Search} {count : Nat} {models : List FoundModel}
      {database : Database} (cycled : search.cycle = (.found database, middle))
      (rest : Cycles middle count models after) :
      Cycles search (count + 1) (⟨database, middle.store⟩ :: models) after

variable {models others : List FoundModel}

theorem Cycles.trans (cycles : Cycles search count models middle)
    (rest : Cycles middle more others after) :
    Cycles search (count + more) (models ++ others) after := by
  induction cycles with
  | refl => rwa [Nat.zero_add]
  | worked cycled _ ih =>
    rw [Nat.add_right_comm]
    exact .worked cycled (ih rest)
  | found cycled _ ih =>
    rw [Nat.add_right_comm]
    exact .found cycled (ih rest)

theorem Cycles.core (cycles : Cycles search count models after) :
    Cycles search.core count models after.core := by
  induction cycles with
  | refl => exact .refl _
  | worked cycled _ ih => exact .worked (by rw [cycle_core, cycled]) ih
  | @found search middle _ _ _ database cycled _ ih =>
    have hcycled : search.core.cycle = (.found database, middle.core) := by
      rw [cycle_core, cycled]
    exact @Cycles.found _ middle.core _ _ _ _ hcycled ih

theorem Cycles.length_le (cycles : Cycles search count models after) : models.length ≤ count := by
  induction cycles with
  | refl => exact Nat.zero_le 0
  | worked _ _ ih => exact ih.trans (Nat.le_succ _)
  | found _ _ ih => exact Nat.succ_le_succ ih

/-- **Of two rows of cycles the shorter one is the beginning of the longer one.** -/
theorem Cycles.continue (cycles : Cycles search count models middle)
    (longer : Cycles search (count + more) others after) :
    ∃ rest, others = models ++ rest ∧ Cycles middle more rest after := by
  induction cycles generalizing others with
  | refl =>
    rw [Nat.zero_add] at longer
    exact ⟨others, rfl, longer⟩
  | worked cycled _ ih =>
    rw [Nat.add_right_comm] at longer
    cases longer with
    | worked cycled' longer =>
      obtain ⟨-, rfl⟩ := Prod.mk.inj (cycled.symm.trans cycled')
      exact ih longer
    | found cycled' => rw [cycled] at cycled'; cases cycled'
  | found cycled _ ih =>
    rw [Nat.add_right_comm] at longer
    cases longer with
    | worked cycled' => rw [cycled] at cycled'; cases cycled'
    | found cycled' longer =>
      obtain ⟨hfound, rfl⟩ := Prod.mk.inj (cycled.symm.trans cycled')
      obtain rfl := Cycle.found.inj hfound
      obtain ⟨rest, rfl, hrest⟩ := ih longer
      exact ⟨rest, rfl, hrest⟩

/-- Of two rows of cycles the shorter one finds a beginning of what the longer one finds. -/
theorem Cycles.prefix_of_le {longer : Nat} (cycles : Cycles search count models middle)
    (cycles' : Cycles search longer others after) (le : count ≤ longer) : models <+: others := by
  obtain ⟨rest, heq, -⟩ := cycles.continue (Nat.add_sub_cancel' le ▸ cycles')
  exact ⟨rest, heq.symm⟩

/-! ### The count of cycles -/

theorem cycles_queue (branches : List PartialModel) (search : Search) :
    (queue branches search).stats.cycles = search.stats.cycles := by
  induction branches generalizing search with
  | nil => rfl
  | cons branch branches ih =>
    simp only [queue]
    exact ih _

theorem cycles_workOn (model : PartialModel) (search : Search) :
    (workOn model search).2.stats.cycles = search.stats.cycles := by
  rw [workOn]
  split
  · rfl
  split
  · split <;> rfl
  · split
    · rfl
    · exact cycles_queue _ _
    all_goals rfl

theorem stats_of_take? {model : PartialModel} (taken : search.take? = some (model, after)) :
    after.stats = search.stats := by
  cases takes_of_take? taken with
  | current | popped => rfl

/-- A cycle that is not idle counts as one. -/
theorem cycles_of_cycle (cycled : search.cycle = (outcome, after)) (active : outcome ≠ .idle) :
    after.stats.cycles = search.stats.cycles + 1 := by
  rw [cycle] at cycled
  split at cycled
  · exact absurd (Prod.mk.inj cycled).1.symm active
  · next model rest taken =>
    have counted := cycles_workOn model
      { rest with stats := { rest.stats with cycles := rest.stats.cycles + 1 } }
    rw [cycled] at counted
    rw [counted, stats_of_take? taken]

theorem Cycles.cycles_eq (cycles : Cycles search count models after) :
    after.stats.cycles = search.stats.cycles + count := by
  induction cycles with
  | refl => rfl
  | worked cycled _ ih =>
    rw [ih, cycles_of_cycle cycled nofun, Nat.add_right_comm, Nat.add_assoc]
  | found cycled _ ih =>
    rw [ih, cycles_of_cycle cycled nofun, Nat.add_right_comm, Nat.add_assoc]

/-! ### What a step comes to -/

/-- **What a step comes to**: so many cycles, of which only the last may find a model or fail. -/
inductive Comes (search : Search) : Nat → Step → Search → Prop where
  /-- It pauses. -/
  | paused {count : Nat} {after : Search} (cycles : Cycles search count [] after) :
      Comes search count .paused after
  /-- No work is left. -/
  | exhausted {count : Nat} {after : Search} (cycles : Cycles search count [] after)
      (exhausted : after.isExhausted = true) : Comes search count .exhausted after
  /-- The last cycle finds a model. -/
  | found {count : Nat} {database : Database} {after : Search}
      (cycles : Cycles search count [⟨database, after.store⟩] after) :
      Comes search count (.found database) after
  /-- The last cycle fails. -/
  | failed {count : Nat} {fault : Fault} {before after last : Search}
      (cycles : Cycles search count [] before) (cycled : before.cycle = (.failed fault, after))
      (stats : last.stats = after.stats) : Comes search (count + 1) (.failed fault) last

theorem Comes.core (comes : Comes search count step after) :
    Comes search.core count step after.core := by
  cases comes with
  | paused cycles => exact .paused cycles.core
  | exhausted cycles exhausted => exact .exhausted cycles.core exhausted
  | found cycles => exact .found cycles.core
  | @failed _ fault before last _ cycles cycled stats =>
    have hcycled : before.core.cycle = (.failed fault, last.core) := by rw [cycle_core, cycled]
    exact .failed cycles.core hcycled stats

theorem Comes.cycles_eq (comes : Comes search count step after) :
    after.stats.cycles = search.stats.cycles + count := by
  cases comes with
  | paused cycles | exhausted cycles | found cycles => exact cycles.cycles_eq
  | failed cycles cycled stats =>
    rw [stats, cycles_of_cycle cycled nofun, cycles.cycles_eq, Nat.add_assoc]

/-- Cycles that find nothing may come before. -/
theorem Cycles.comes (cycles : Cycles search count [] middle)
    (comes : Comes middle more step after) : Comes search (count + more) step after := by
  cases comes with
  | paused rest => exact .paused (cycles.trans rest)
  | exhausted rest exhausted => exact .exhausted (cycles.trans rest) exhausted
  | found rest => exact .found (cycles.trans rest)
  | failed rest cycled stats => exact .failed (cycles.trans rest) cycled stats

/-- Spending a number of cycles comes to all of them if it pauses, and never to more. -/
theorem comes_of_spend (spent : search.spend budget = (step, after)) :
    ∃ count ≤ budget, Comes search count step after ∧ (step = .paused → count = budget) := by
  induction budget generalizing search with
  | zero =>
    rw [spend] at spent
    obtain ⟨rfl, rfl⟩ := Prod.mk.inj spent
    refine ⟨0, le_refl 0, ?_, fun _ => rfl⟩
    split
    · next exhausted => exact .exhausted (.refl _) exhausted
    · exact .paused (.refl _)
  | succ budget ih =>
    rw [spend] at spent
    split at spent
    · next cycled =>
      obtain ⟨rfl, rfl⟩ := Prod.mk.inj spent
      rcases works_of_cycle cycled with ⟨-, rfl, exhausted⟩ | ⟨_, _, _, -, -, -, -, works⟩
      · exact ⟨0, Nat.zero_le _, .exhausted (.refl _) exhausted, fun heq => by cases heq⟩
      · cases works
    · next cycled =>
      obtain ⟨count, le, comes, paused⟩ := ih spent
      have first : Cycles search 1 [] _ := .worked cycled (.refl _)
      refine ⟨1 + count, by omega, first.comes comes, fun heq => ?_⟩
      rw [paused heq, Nat.add_comm]
    · next cycled =>
      obtain ⟨rfl, rfl⟩ := Prod.mk.inj spent
      exact ⟨1, Nat.succ_le_succ (Nat.zero_le _), .found (.found cycled (.refl _)),
        fun heq => by cases heq⟩
    · next cycled =>
      obtain ⟨rfl, rfl⟩ := Prod.mk.inj spent
      exact ⟨1, Nat.succ_le_succ (Nat.zero_le _), .failed (.refl _) cycled rfl,
        fun heq => by cases heq⟩

/-- What is drawn for a budget: all of it without jitter, and otherwise at least half of it. -/
theorem drawBudget_mem (budget : Nat) (search : Search) :
    max 1 (budget / 2) ≤ (search.drawBudget budget).1 ∧
      (search.drawBudget budget).1 ≤ max 1 budget ∧
        (search.settings.jitter = false → (search.drawBudget budget).1 = max 1 budget) := by
  rw [drawBudget]
  simp only
  split
  · next jittered =>
    rw [Bool.and_eq_true_iff, decide_eq_true_iff] at jittered
    obtain ⟨low, high⟩ := Random.Stream.between_mem
      (Nat.div_le_self (max budget 1) 2) search.budgets
    refine ⟨?_, ?_, fun steady => by simp [steady] at jittered⟩ <;> omega
  · omega

/-- **What a step comes to**, whatever its budget: it works unless no work is left. -/
theorem comes_of_step (stepped : search.step budget = (step, after)) :
    ∃ count ≤ (search.drawBudget budget).1, Comes search.core count step after.core ∧
      (step = .paused → count = (search.drawBudget budget).1) ∧
        (step ≠ .exhausted → 0 < count) := by
  obtain ⟨count, le, comes, paused⟩ := comes_of_spend stepped
  have core_eq : (search.drawBudget budget).2.core = search.core := by
    obtain ⟨budgets, heq⟩ := search.exists_budgets_of_drawBudget budget
    rw [heq]
    rfl
  refine ⟨count, le, core_eq ▸ comes.core, paused, fun active => ?_⟩
  cases comes with
  | paused =>
    rw [paused rfl]
    exact (le_max_left 1 (budget / 2)).trans (drawBudget_mem budget search).1
  | exhausted => exact absurd rfl active
  | found cycles => exact cycles.length_le
  | failed => exact Nat.succ_pos _

/-- **How many cycles a step does**: no more than its budget names, or one if it names none, and if
it pauses just as many, or with jitter at least half of them. -/
theorem cycles_of_step (stepped : search.step budget = (step, after)) :
    after.stats.cycles ≤ search.stats.cycles + max 1 budget ∧
      (step = .paused → search.stats.cycles + max 1 (budget / 2) ≤ after.stats.cycles ∧
        (search.settings.jitter = false →
          after.stats.cycles = search.stats.cycles + max 1 budget)) := by
  obtain ⟨count, le, comes, paused, -⟩ := comes_of_step stepped
  obtain ⟨least, most, steady⟩ := drawBudget_mem budget search
  have counted : after.stats.cycles = search.stats.cycles + count := comes.cycles_eq
  rw [counted]
  refine ⟨Nat.add_le_add_left (le.trans most) _, fun pauses => ?_⟩
  rw [paused pauses]
  refine ⟨Nat.add_le_add_left least _, fun jitter => ?_⟩
  rw [steady jitter]

/-- What going on to the next model comes to. A fault takes all work away, but leaves the count as
it is. -/
theorem comes_of_next {rounds : Nat} (found : search.next rounds = (step, after)) :
    ∃ count, Comes search.core count step after.core ∧
      (0 < rounds → step ≠ .exhausted → 0 < count) := by
  induction rounds generalizing search with
  | zero =>
    obtain ⟨rfl, rfl⟩ := Prod.mk.inj found
    exact ⟨0, .paused (.refl _), fun none => absurd none (Nat.lt_irrefl 0)⟩
  | succ rounds ih =>
    cases stepped : search.step unlimited with
    | mk first middle =>
      obtain ⟨count, -, comes, -, active⟩ := comes_of_step stepped
      rw [next, stepped] at found
      cases first with
      | paused =>
        obtain ⟨more, comes', -⟩ := ih found
        cases comes with
        | paused cycles =>
          exact ⟨count + more, cycles.comes comes', fun _ _ => Nat.add_pos_left (active nofun) more⟩
      | found | exhausted =>
        obtain ⟨rfl, rfl⟩ := Prod.mk.inj found
        exact ⟨count, comes, fun _ => active⟩
      | failed =>
        obtain ⟨rfl, rfl⟩ := Prod.mk.inj found
        cases comes with
        | failed cycles cycled stats =>
          exact ⟨_, .failed cycles cycled stats, fun _ _ => active nofun⟩

/-! ### Driving a search -/

/-- A call by which a host drives a search. -/
inductive Call where
  /-- A step with a budget. -/
  | step (budget : Nat)
  /-- Going on to the next model, in one step without limit and so many more. -/
  | next (more : Nat)
  deriving DecidableEq, Repr

/-- Makes a call. -/
def Call.make : Call → Search → Step × Search
  | .step budget, search => search.step budget
  | .next more, search => search.next (more + 1)

/-- What a host gets to see. -/
structure Account where
  /-- The models, in their order. -/
  models : List FoundModel := []
  /-- The fault, if a call has failed. -/
  fault : Option Fault := none

/-- Makes one call after the other, up to the first that fails. -/
def drive : List Call → Search → Account × Search
  | [], search => ({}, search)
  | call :: calls, search =>
    match call.make search with
    | (.found database, search) =>
      let (account, last) := search.drive calls
      ({ account with models := ⟨database, search.store⟩ :: account.models }, last)
    | (.paused, search) | (.exhausted, search) => search.drive calls
    | (.failed fault, search) => (⟨[], some fault⟩, search)

/-- **What a call comes to**: it works unless no work is left. -/
theorem comes_of_make {call : Call} (made : call.make search = (step, after)) :
    ∃ count, Comes search.core count step after.core ∧ (step ≠ .exhausted → 0 < count) := by
  cases call with
  | step budget =>
    obtain ⟨count, -, comes, -, active⟩ := comes_of_step made
    exact ⟨count, comes, active⟩
  | next more =>
    obtain ⟨count, comes, active⟩ := comes_of_next made
    exact ⟨count, comes, active (Nat.succ_pos more)⟩

/-- **What a row of calls comes to**: a row of cycles, which is as long as the row of calls unless
no work is left, and the models that it finds; and if a call fails, one more cycle that fails. -/
inductive Tells (search : Search) (calls : Nat) : Account → Search → Prop where
  /-- No call fails. -/
  | going {count : Nat} {models : List FoundModel} {after : Search}
      (cycles : Cycles search count models after)
      (busy : after.isExhausted = false → calls ≤ count) : Tells search calls ⟨models, none⟩ after
  /-- The last call fails. -/
  | failed {count : Nat} {models : List FoundModel} {fault : Fault} {before after last : Search}
      (cycles : Cycles search count models before) (cycled : before.cycle = (.failed fault, after))
      (stats : last.stats = after.stats) : Tells search calls ⟨models, some fault⟩ last

/-- A search that has no work left is idle. -/
theorem cycle_of_isExhausted (exhausted : search.isExhausted = true) :
    search.cycle = (.idle, search) := by
  have none_left := leaves_eq_nil_iff.2 exhausted
  cases cycled : search.cycle with
  | mk outcome after =>
    rcases works_of_cycle cycled with ⟨rfl, rfl, -⟩ | ⟨model, rest, -, -, perm, -⟩
    · rfl
    · rw [none_left] at perm
      exact absurd perm.length_eq (by simp)

theorem Cycles.eq_of_isExhausted (cycles : Cycles search count models after)
    (exhausted : search.isExhausted = true) : after = search ∧ count = 0 := by
  have idle := cycle_of_isExhausted exhausted
  cases cycles with
  | refl => exact ⟨rfl, rfl⟩
  | worked cycled | found cycled => rw [idle] at cycled; cases cycled

/-- Cycles may come before, if there are enough of them for one more call. -/
theorem Cycles.tells {account : Account} {calls : Nat} (cycles : Cycles search count models middle)
    (tells : Tells middle calls account last) (active : middle.isExhausted = false → 0 < count) :
    Tells search (calls + 1) { account with models := models ++ account.models } last := by
  cases tells with
  | @going more _ _ rest busy =>
    refine .going (cycles.trans rest) fun working => ?_
    have open_before : middle.isExhausted = false := by
      by_contra exhausted
      rw [Bool.not_eq_false] at exhausted
      rw [(rest.eq_of_isExhausted exhausted).1, exhausted] at working
      cases working
    have positive := active open_before
    have enough := busy working
    omega
  | failed rest cycled stats => exact .failed (cycles.trans rest) cycled stats

/-- **What a row of calls comes to.** -/
theorem tells_of_drive {calls : List Call} {account : Account}
    (driven : search.drive calls = (account, last)) :
    Tells search.core calls.length account last.core := by
  induction calls generalizing search account with
  | nil =>
    obtain ⟨rfl, rfl⟩ := Prod.mk.inj driven
    exact .going (.refl _) fun _ => le_refl 0
  | cons call calls ih =>
    cases made : call.make search with
    | mk step middle =>
      obtain ⟨count, comes, active⟩ := comes_of_make made
      rw [drive, made] at driven
      cases comes with
      | paused cycles => exact cycles.tells (ih driven) fun _ => active nofun
      | exhausted cycles exhausted =>
        exact cycles.tells (ih driven) fun working => by rw [exhausted] at working; cases working
      | found cycles =>
        obtain ⟨rfl, rfl⟩ := Prod.mk.inj driven
        exact cycles.tells (ih rfl) fun _ => active nofun
      | failed cycles cycled stats =>
        obtain ⟨rfl, rfl⟩ := Prod.mk.inj driven
        exact .failed cycles cycled stats

/-! ### Two ways to drive a search -/

/-- The search can do no cycle that neither is idle nor fails. -/
def Halted (search : Search) : Prop := ∀ count models after, Cycles search count models after →
  count = 0

theorem halted_of_isExhausted (exhausted : search.isExhausted = true) : search.Halted := by
  intro count models after cycles
  exact (cycles.eq_of_isExhausted exhausted).2

theorem halted_of_failed (failed : search.cycle = (.failed fault, middle)) : search.Halted := by
  intro count models after cycles
  cases cycles with
  | refl => rfl
  | worked cycled | found cycled => rw [failed] at cycled; cases cycled

/-- No row of cycles leads on from where another has halted. -/
theorem Cycles.le_of_halted {count' : Nat} (cycles : Cycles search count models middle)
    (halted : middle.Halted) (cycles' : Cycles search count' others after) : count' ≤ count := by
  by_contra longer
  obtain ⟨extra, rfl⟩ := Nat.exists_eq_add_of_lt (Nat.lt_of_not_le longer)
  have longer' : Cycles search (count + (extra + 1)) others after := cycles'
  obtain ⟨rest, -, more⟩ := cycles.continue longer'
  exact absurd (halted _ _ _ more) (Nat.succ_ne_zero extra)

/-- **Two rows of cycles that halt are one and the same.** -/
theorem Cycles.eq_of_halted {count' : Nat} (cycles : Cycles search count models middle)
    (halted : middle.Halted) (cycles' : Cycles search count' others after)
    (halted' : after.Halted) : count = count' ∧ models = others ∧ middle = after := by
  obtain rfl := Nat.le_antisymm (cycles'.le_of_halted halted' cycles)
    (cycles.le_of_halted halted cycles')
  have same : Cycles search (count + 0) others after := cycles'
  obtain ⟨rest, rfl, more⟩ := cycles.continue same
  cases more with
  | refl => exact ⟨rfl, (List.append_nil models).symm, rfl⟩

variable {calls calls' : Nat} {account account' : Account} {last' : Search}

theorem Tells.exists_cycles (tells : Tells search calls account last) :
    ∃ count middle, Cycles search count account.models middle := by
  cases tells with
  | going cycles | failed cycles => exact ⟨_, _, cycles⟩

/-- Of two accounts one has a beginning of the models of the other. -/
theorem Tells.prefix_or_prefix (tells : Tells search calls account last)
    (tells' : Tells search calls' account' last') :
    account.models <+: account'.models ∨ account'.models <+: account.models := by
  obtain ⟨count, middle, cycles⟩ := tells.exists_cycles
  obtain ⟨count', middle', cycles'⟩ := tells'.exists_cycles
  exact (Nat.le_total count count').imp (cycles.prefix_of_le cycles') (cycles'.prefix_of_le cycles)

/-- Two rows of calls after which no work is left, and none of which fails, come to the same. -/
theorem Tells.eq_of_isExhausted (tells : Tells search calls account last)
    (tells' : Tells search calls' account' last') (whole : account.fault = none)
    (whole' : account'.fault = none) (exhausted : last.isExhausted = true)
    (exhausted' : last'.isExhausted = true) : account = account' ∧ last = last' := by
  cases tells with
  | failed => cases whole
  | going cycles =>
    cases tells' with
    | failed => cases whole'
    | going cycles' =>
      obtain ⟨-, rfl, rfl⟩ := cycles.eq_of_halted (halted_of_isExhausted exhausted) cycles'
        (halted_of_isExhausted exhausted')
      exact ⟨rfl, rfl⟩

/-- If a row of calls fails, then every row that is long enough fails in the same way. -/
theorem Tells.eq_of_failed (tells : Tells search calls account last)
    (failed : account.fault = some fault) (tells' : Tells search calls' account' last')
    (enough : last.stats.cycles ≤ search.stats.cycles + calls') :
    account = account' ∧ last.stats = last'.stats := by
  cases tells with
  | going => cases failed
  | @failed count _ _ before after _ cycles cycled stats =>
    have counted : last.stats.cycles = search.stats.cycles + count + 1 := by
      rw [stats, cycles_of_cycle cycled nofun, cycles.cycles_eq]
    have halted := halted_of_failed cycled
    cases tells' with
    | going cycles' busy =>
      have le := cycles.le_of_halted halted cycles'
      cases exhausted : last'.isExhausted with
      | false => have := busy exhausted; omega
      | true =>
        obtain ⟨-, -, rfl⟩ := cycles.eq_of_halted halted cycles' (halted_of_isExhausted exhausted)
        rw [cycle_of_isExhausted exhausted] at cycled
        cases cycled
    | failed cycles' cycled' stats' =>
      obtain ⟨-, rfl, rfl⟩ := cycles.eq_of_halted halted cycles' (halted_of_failed cycled')
      obtain ⟨hfault, rfl⟩ := Prod.mk.inj (cycled.symm.trans cycled')
      obtain rfl := Cycle.failed.inj hfault
      exact ⟨rfl, stats.trans stats'.symm⟩

/-- Searches of one program under one seed have the same core, and have done nothing. -/
theorem core_eq_of_start {program : Program} {seed : UInt64} {jitter jitter' : Bool}
    {first second : Search} (started : start program ⟨seed, jitter⟩ = .ok first)
    (started' : start program ⟨seed, jitter'⟩ = .ok second) :
    first.core = second.core ∧ first.stats = {} := by
  cases starts_of_start started with
  | root compiled planted =>
    cases starts_of_start started' with
    | root compiled' planted' =>
      obtain ⟨rfl, rfl⟩ := Prod.mk.inj (Except.ok.inj (compiled.symm.trans compiled'))
      obtain rfl := Except.ok.inj (planted.symm.trans planted')
      exact ⟨rfl, rfl⟩

/-- **How the work of a search is sliced never shows.** Two hosts that drive searches of one program
under one seed see the same models as far as both go. If both come to the end of the work they see
the same models and the same counts. If one of them meets a fault then the other meets the same
fault, after the same models and as many cycles, as soon as it has made so many calls. And a step
does no more cycles than its budget names, or one if it names none; and if it pauses it has done
just as many, or with jitter at least half of them. -/
theorem drive_comparable {program : Program} {seed : UInt64} {jitter jitter' : Bool}
    {first second : Search} (started : start program ⟨seed, jitter⟩ = .ok first)
    (started' : start program ⟨seed, jitter'⟩ = .ok second) {calls calls' : List Call}
    {account account' : Account} {last last' : Search}
    (driven : first.drive calls = (account, last))
    (driven' : second.drive calls' = (account', last')) :
    (account.models <+: account'.models ∨ account'.models <+: account.models) ∧
    (account.fault = none → account'.fault = none → last.isExhausted = true →
      last'.isExhausted = true → account = account' ∧ last.stats = last'.stats) ∧
    (∀ fault, account.fault = some fault → ∀ more : List Call, last.stats.cycles ≤ more.length →
      ∃ final, second.drive more = (account, final) ∧ final.stats = last.stats) ∧
    (∀ (search after : Search) (budget : Nat) (step : Step), search.step budget = (step, after) →
      after.stats.cycles ≤ search.stats.cycles + max 1 budget ∧
      (step = .paused → search.stats.cycles + max 1 (budget / 2) ≤ after.stats.cycles ∧
        (search.settings.jitter = false →
          after.stats.cycles = search.stats.cycles + max 1 budget))) := by
  obtain ⟨same, fresh⟩ := core_eq_of_start started started'
  have tells := tells_of_drive driven
  rw [same] at tells
  have tells' := tells_of_drive driven'
  refine ⟨tells.prefix_or_prefix tells', ?_, ?_, fun _ _ _ _ => cycles_of_step⟩
  · intro whole whole' exhausted exhausted'
    obtain ⟨heq, hlast⟩ := tells.eq_of_isExhausted tells' whole whole' exhausted exhausted'
    exact ⟨heq, (congrArg stats hlast :)⟩
  · intro fault failed more enough
    cases hmore : second.drive more with
    | mk other final =>
      obtain ⟨rfl, stats⟩ := tells.eq_of_failed failed (tells_of_drive hmore)
        (enough.trans (Nat.le_add_left _ _))
      exact ⟨final, rfl, stats.symm⟩

/-! ### A search that fails -/

/-- What a host gets to see of a search of the program: the number of models, whether a call has
failed, and the number of cycles. -/
def driven? (program : Program) (settings : Settings) (calls : List Call) :
    Option (Nat × Bool × Nat) :=
  match start program settings with
  | .error _ => none
  | .ok search =>
    some ((search.drive calls).1.models.length, (search.drive calls).1.fault.isSome,
      (search.drive calls).2.stats.cycles)

theorem exists_of_driven? {program : Program} {settings : Settings} {calls : List Call}
    {found cycles : Nat} {failed : Bool}
    (seen : driven? program settings calls = some (found, failed, cycles)) :
    ∃ search account last, start program settings = .ok search ∧
      search.drive calls = (account, last) ∧ account.models.length = found ∧
        account.fault.isSome = failed ∧ last.stats.cycles = cycles := by
  rw [driven?] at seen
  split at seen
  · cases seen
  · next search started =>
    simp only [Option.some.injEq, Prod.mk.injEq] at seen
    obtain ⟨hfound, hfailed, hcycles⟩ := seen
    exact ⟨search, _, _, started, rfl, hfound, hfailed, hcycles⟩

/-- The program that chooses a value, and for one of the two values gives the tuples of one
predicate different lengths. -/
def clashing : Program where
  seeds := ["go"]
  rules := [.run "go" [] [] (.choice "c" [] [.const "a" [], .const "b" []] true),
    .unary ⟨"c", [], .const "b" []⟩ (.fact "f" [] .unit),
    .unary ⟨"f", [], .unit⟩ (.fact "f" [.unit] .unit)]

theorem drive_comparable_clashing : ∃ first second account account' last last' fault,
    start clashing ⟨0, false⟩ = .ok first ∧ start clashing ⟨0, true⟩ = .ok second ∧
      first.drive (List.replicate 9 (.step 1)) = (account, last) ∧
      second.drive [.step 3, .step 2] = (account', last') ∧
      account.models.length = 1 ∧ account.fault = some fault ∧
      (account.models <+: account'.models ∨ account'.models <+: account.models) ∧
      ∃ final, second.drive (List.replicate 6 (.next 0)) = (account, final) ∧
        final.stats = last.stats := by
  have seen : driven? clashing ⟨0, false⟩ (List.replicate 9 (.step 1)) = some (1, true, 6) := by
    decide +kernel
  have seen' : driven? clashing ⟨0, true⟩ [.step 3, .step 2] = some (1, false, 4) := by
    decide +kernel
  obtain ⟨first, account, last, started, driven, found, failed, cycles⟩ := exists_of_driven? seen
  obtain ⟨second, account', last', started', driven', -⟩ := exists_of_driven? seen'
  obtain ⟨fault, met⟩ := Option.isSome_iff_exists.1 failed
  obtain ⟨comparable, -, fails, -⟩ := drive_comparable started started' driven driven'
  exact ⟨first, second, account, account', last, last', fault, started, started', driven, driven',
    found, met, comparable, fails fault met _ (by rw [cycles]; rfl)⟩

end Search

end StableModels
