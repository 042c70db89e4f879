import StableModels.Forest
import StableModels.PartialModel.Examination
import StableModels.PartialModel.Saturation
import StableModels.Random.Stream

/-!
# The search for models

The search holds one current partial model and a queue of branches. Each **cycle** takes the
current partial model, or the branch of the greatest priority if there is none, and does one
thing with it: drops it if it is dead, propagates one piece of its news if there is any, and
examines it otherwise. Branches get random priorities, drawn from a stream that is fixed by the
seed, so that the walk through the tree of choices is random and yet repeatable.

`Search.step` spends a budget of cycles and stops early at a model; `Search.next` goes on to the
next model. How the work is cut into budgets has no influence on what is found, because the
length of a budget is drawn from a stream of its own.
-/

namespace StableModels

/-- How a search is to be conducted. -/
structure Settings where
  /-- The seed of the random choices. -/
  seed : UInt64 := 0
  /-- Whether the length of each budget is drawn at random, between half of it and all. -/
  jitter : Bool := false
  deriving DecidableEq, Repr

/-- What a search has done so far. -/
structure Stats where
  /-- The number of cycles. -/
  cycles : Nat := 0
  /-- The number of dead partial models dropped. -/
  deadEnds : Nat := 0
  /-- The number of models found. -/
  solutions : Nat := 0
  /-- The number of branches queued. -/
  branches : Nat := 0
  deriving DecidableEq, Repr

/-- A search. -/
structure Search where
  /-- The rules. -/
  rules : RuleSet
  /-- The terms met so far. -/
  store : Store
  /-- How the search is conducted. -/
  settings : Settings
  /-- The stream of priorities. -/
  priorities : Random.Stream
  /-- The stream of budgets. -/
  budgets : Random.Stream
  /-- The branches still to be explored. -/
  pending : Forest Nat PartialModel
  /-- The partial model being worked on. -/
  current : Option PartialModel
  /-- What was done so far. -/
  stats : Stats

/-- What a cycle did. -/
inductive Cycle where
  /-- Nothing; there is no work left. -/
  | idle
  /-- Some work. -/
  | worked
  /-- It found a model. -/
  | found (model : Database)
  /-- It failed, and the partial model it worked on is lost. -/
  | failed (fault : Fault)

/-- What a step achieved. -/
inductive Step where
  /-- A model was found. -/
  | found (model : Database)
  /-- The budget is spent. -/
  | paused
  /-- No work is left. -/
  | exhausted
  /-- The search failed. -/
  | failed (fault : Fault)

namespace Search

/-- Added to the seed, bit by bit, for the stream of budgets. -/
def budgetSalt : UInt64 := 0x6A09E667F3BCC909

/-- The search for the models of a program. -/
def start (program : Program) (settings : Settings) : Except Fault Search :=
  match RuleSet.compile program .initial with
  | .error fault => .error fault
  | .ok (rules, store) =>
    match PartialModel.seeded rules with
    | .error fault => .error fault
    | .ok root =>
      .ok {
        rules, store, settings
        priorities := .ofSeed settings.seed
        budgets := .ofSeed (settings.seed ^^^ budgetSalt)
        pending := .empty
        current := some root
        stats := {} }

/-- No work is left. -/
def isExhausted (search : Search) : Bool := search.current.isNone && search.pending.isEmpty

/-- The number of branches still to be explored. -/
def pendingCount (search : Search) : Nat := search.pending.size

/-! ### One cycle -/

/-- The partial model to work on next, taken off the search. -/
def take? (search : Search) : Option (PartialModel × Search) :=
  match search.current with
  | some model => some (model, { search with current := none })
  | none =>
    match search.pending.pop? with
    | some ((_, model), pending) => some (model, { search with pending := pending })
    | none => none

/-- Queues branches, each with the next priority of the stream. -/
def queue : List PartialModel → Search → Search
  | [], search => search
  | branch :: branches, search =>
    let (priority, priorities) := search.priorities.next
    queue branches { search with
      priorities := priorities
      pending := search.pending.push priority.toNat branch
      stats := { search.stats with branches := search.stats.branches + 1 } }

/-- Does one thing with a partial model that was taken off the search. -/
def workOn (model : PartialModel) (search : Search) : Cycle × Search :=
  if model.isDead then
    (.worked, { search with stats := { search.stats with deadEnds := search.stats.deadEnds + 1 } })
  else if !model.isSaturated then
    match Saturating.step search.rules ⟨model, search.store⟩ with
    | .ok _ ⟨model, store⟩ => (.worked, { search with store := store, current := some model })
    | .error fault ⟨_, store⟩ => (.failed fault, { search with store := store })
  else
    match model.examine search.rules with
    | (.error fault, _) => (.failed fault, search)
    | (.ok (.branch branches), _) => (.worked, search.queue branches)
    | (.ok .solution, model) =>
      (.found model.database,
        { search with stats := { search.stats with solutions := search.stats.solutions + 1 } })
    | (.ok .discharged, model) | (.ok .applied, model) | (.ok .dead, model) =>
      (.worked, { search with current := some model })

/-- One cycle. -/
def cycle (search : Search) : Cycle × Search :=
  match search.take? with
  | none => (.idle, search)
  | some (model, search) =>
    workOn model
      { search with stats := { search.stats with cycles := search.stats.cycles + 1 } }

/-! ### Steps -/

/-- Spends so many cycles, unless the search stops before. -/
def spend : Nat → Search → Step × Search
  | 0, search => (if search.isExhausted then .exhausted else .paused, search)
  | cycles + 1, search =>
    match search.cycle with
    | (.idle, search) => (.exhausted, search)
    | (.worked, search) => spend cycles search
    | (.found model, search) => (.found model, search)
    | (.failed fault, search) => (.failed fault, search)

/-- The number of cycles that a budget comes to: at least one, and with jitter a random number
between half of the budget and all of it. -/
def drawBudget (budget : Nat) (search : Search) : Nat × Search :=
  let budget := max budget 1
  if search.settings.jitter && 1 < budget then
    let (drawn, budgets) := search.budgets.between (budget / 2) budget
    (max drawn 1, { search with budgets := budgets })
  else
    (budget, search)

/-- Spends a budget of cycles, stopping early at a model. -/
def step (budget : Nat) (search : Search) : Step × Search :=
  let (cycles, search) := search.drawBudget budget
  search.spend cycles

/-- The greatest budget that can be named. -/
def unlimited : Nat := 0xffffffffffffffff

/-- The search with all work dropped. -/
def abandon (search : Search) : Search := { search with current := none, pending := .empty }

/-- Goes on to the next model in steps without limit. It pauses only if `rounds` of them do not
suffice; a fault drops all work that is left. -/
def next : Nat → Search → Step × Search
  | 0, search => (.paused, search)
  | rounds + 1, search =>
    match search.step unlimited with
    | (.found model, search) => (.found model, search)
    | (.paused, search) => next rounds search
    | (.exhausted, search) => (.exhausted, search)
    | (.failed fault, search) => (.failed fault, search.abandon)

end Search

end StableModels
