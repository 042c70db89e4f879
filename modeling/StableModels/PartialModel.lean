import StableModels.Database
import StableModels.RuleSet

/-!
# Partial models

The search for models walks a tree of choices. At each of its leaves stands a partial model:
what has been derived so far, what has still to be propagated, and which choices have been
registered but not decided. A partial model that met a contradiction is **dead** and keeps the
reason.

This module holds the elementary changes: deriving a tuple of an intermediate, asserting a fact,
registering a choice. Each new tuple and fact joins the **agenda**, from which it is later taken
to trigger rules.
-/

namespace StableModels

/-- Something new that has not yet triggered its rules. -/
inductive News where
  /-- A fact was fixed. -/
  | fact (name : String) (args : List Handle) (value : Handle)
  /-- A tuple of an intermediate was derived. -/
  | tuple (name : String) (args : List Handle)
  deriving DecidableEq, Repr

/-- The tuple that a choice is about. -/
structure ChoiceKey where
  /-- The predicate. -/
  name : String
  /-- The arguments. -/
  args : List Handle
  deriving DecidableEq, Repr

/-- By predicate, then by arguments. -/
def ChoiceKey.compare (first second : ChoiceKey) : Ordering :=
  (Ord.compare first.name second.name).then
    (List.compareLex Ord.compare first.args second.args)

/-- Everything that was registered about the choice of one tuple. -/
structure Choice where
  /-- The values on offer. -/
  values : HandleSet
  /-- The value has to be one of them. -/
  exhaustive : Bool
  deriving DecidableEq

/-- What two registrations of a choice come to: all values that either offers, exhaustive if
one of the two is. -/
def Choice.merge (first second : Choice) : Choice :=
  ⟨first.values.union second.values, first.exhaustive || second.exhaustive⟩

/-- Why a partial model cannot become a model. -/
inductive DeadEnd where
  /-- A forbidden intermediate was derived. -/
  | forbidden (name : String)
  /-- A fact contradicts what is known of its tuple. -/
  | conflict (name : String)
  /-- An exhaustive choice has no value left, or does not offer the value of its tuple. -/
  | noCandidates (name : String)
  /-- A tuple was narrowed and never fixed. -/
  | unjustified
  /-- A demanded intermediate was not derived. -/
  | missingDemand (name : String)
  deriving DecidableEq, Repr

/-- The name of the kind of reason. -/
def DeadEnd.kind : DeadEnd → String
  | forbidden _ => "forbidden"
  | conflict _ => "conflict"
  | noCandidates _ => "no_candidates"
  | unjustified => "unjustified"
  | missingDemand _ => "missing_demand"

/-- The predicate or intermediate that the reason is about. -/
def DeadEnd.name? : DeadEnd → Option String
  | forbidden name | conflict name | noCandidates name | missingDemand name => some name
  | unjustified => none

/-- The reason in words. -/
def DeadEnd.text : DeadEnd → String
  | forbidden name => "forbidden " ++ name ++ " derived"
  | conflict name => "conflicting value for " ++ name
  | noCandidates name => "no candidate left for " ++ name
  | unjustified => "narrowed tuple left undetermined"
  | missingDemand name => "demand " ++ name ++ " not derived"

/-- A partial model. -/
structure PartialModel where
  /-- What is known about the values of tuples. -/
  database : Database := .empty
  /-- The derived tuples of each intermediate. -/
  tuples : OrderedMap String (Trie Unit) := .empty
  /-- What has still to trigger its rules, the oldest first. -/
  agenda : List News := []
  /-- The choices that are registered and not decided, ascending by key. -/
  choices : List (ChoiceKey × Choice) := []
  /-- Why the partial model is dead, if it is. -/
  deadEnd : Option DeadEnd := none

namespace PartialModel

instance : Inhabited PartialModel := ⟨{}⟩

/-- The partial model is dead. -/
def isDead (model : PartialModel) : Bool := model.deadEnd.isSome

/-- Nothing is waiting to trigger its rules. -/
def isSaturated (model : PartialModel) : Bool := model.agenda.isEmpty

/-- The derived tuples of an intermediate. -/
def tuplesOf (name : String) (model : PartialModel) : Trie Unit :=
  (model.tuples.find? compare name).getD .empty

/-- The intermediate has a derived tuple. -/
def derivesSome (name : String) (model : PartialModel) : Bool := !(model.tuplesOf name).isEmpty

/-- The tuple of the intermediate is derived. -/
def derives (name : String) (args : List Handle) (model : PartialModel) : Bool :=
  ((model.tuplesOf name).find? args).isSome

/-- The partial model dies; what was waiting is forgotten. -/
def kill (reason : DeadEnd) (model : PartialModel) : PartialModel :=
  { model with deadEnd := some reason, agenda := [] }

/-! ### Elementary changes -/

/-- Derives a tuple of an intermediate. A tuple that is there already changes nothing, a tuple
of a forbidden intermediate kills, and any other joins the agenda. -/
def derive (rules : RuleSet) (name : String) (args : List Handle) (model : PartialModel) :
    Except Fault PartialModel :=
  match (model.tuplesOf name).insert args () with
  | .error fault => .error fault
  | .ok (_, some ()) => .ok model
  | .ok (trie, none) =>
    let model := { model with tuples := model.tuples.put compare name trie }
    if rules.isForbidden name then .ok (model.kill (.forbidden name))
    else .ok { model with agenda := model.agenda ++ [.tuple name args] }

/-- Puts a constraint into the database. -/
def constrain (name : String) (args : List Handle) (constraint : Constraint)
    (model : PartialModel) : Except Fault PartialModel :=
  match model.database.set name args constraint with
  | .error fault => .error fault
  | .ok (database, _) => .ok { model with database := database }

/-- Fixes a tuple that is free to take the value, and puts the fact on the agenda. -/
def fix (name : String) (args : List Handle) (value : Handle) (model : PartialModel) :
    Except Fault PartialModel :=
  match model.constrain name args (.just value) with
  | .error fault => .error fault
  | .ok model => .ok { model with agenda := model.agenda ++ [.fact name args value] }

/-- Asserts a fact. A fact that is there already changes nothing, and one that contradicts what
is known of its tuple kills. -/
def assert (name : String) (args : List Handle) (value : Handle) (model : PartialModel) :
    Except Fault PartialModel :=
  match model.database.get? name args with
  | none => model.fix name args value
  | some (.just known) =>
    if known = value then .ok model else .ok (model.kill (.conflict name))
  | some (.noneOf excluded) =>
    if excluded.contains value then .ok (model.kill (.conflict name))
    else model.fix name args value

/-- Puts a choice into its place among the others, merged with the one that is there. -/
def registerIn (key : ChoiceKey) (choice : Choice) :
    List (ChoiceKey × Choice) → List (ChoiceKey × Choice)
  | [] => [(key, choice)]
  | (other, registered) :: choices =>
    match key.compare other with
    | .lt => (key, choice) :: (other, registered) :: choices
    | .eq => (other, registered.merge choice) :: choices
    | .gt => (other, registered) :: registerIn key choice choices

/-- Registers a choice. -/
def register (key : ChoiceKey) (choice : Choice) (model : PartialModel) : PartialModel :=
  { model with choices := registerIn key choice model.choices }

/-- Derives one seed after the other. -/
def plant (rules : RuleSet) : List String → PartialModel → Except Fault PartialModel
  | [], model => .ok model
  | seed :: seeds, model =>
    match model.derive rules seed [] with
    | .error fault => .error fault
    | .ok model => model.plant rules seeds

/-- The partial model at the root of the search: every seed is derived. -/
def seeded (rules : RuleSet) : Except Fault PartialModel := plant rules rules.seeds {}

end PartialModel

end StableModels
