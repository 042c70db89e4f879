import StableModels.Database.Relation

/-!
# Databases of facts

A database keeps a relation for each predicate it has heard of. A tuple that is fixed to a
value is a **fact**; a tuple that is merely narrowed is undetermined.

`Database.visit` is the index from which rules are matched: it lists the ways in which a prefix
of arguments goes on, where the value of a fixed tuple counts as one more position behind its
arguments.
-/

namespace StableModels

/-- A tuple fixed to a value. -/
structure StoredFact where
  /-- The predicate. -/
  name : String
  /-- The arguments. -/
  args : List Handle
  /-- The value. -/
  value : Handle
  deriving DecidableEq, Repr

/-- The constraints of all predicates. -/
structure Database where
  /-- The relation of each predicate. -/
  relations : OrderedMap String Relation := .empty
  /-- How many tuples are fixed and how many narrowed, over all predicates. -/
  tally : Tally := {}

namespace Database

/-- The database that knows nothing. -/
def empty : Database := {}

instance : Inhabited Database := ⟨empty⟩

/-- The relation of a predicate. -/
def relation? (name : String) (database : Database) : Option Relation :=
  database.relations.find? compare name

/-- The predicates in ascending order. -/
def names (database : Database) : List String := database.relations.keys

/-- The constraint of a tuple. -/
def get? (name : String) (args : List Handle) (database : Database) : Option Constraint :=
  (database.relation? name).bind (·.get? args)

/-- The database with a constraint set, and the constraint it replaces. -/
def set (name : String) (args : List Handle) (constraint : Constraint) (database : Database) :
    Except Fault (Database × Option Constraint) :=
  match ((database.relation? name).getD {}).set args constraint with
  | .error fault => .error fault
  | .ok (relation, old) =>
    .ok (⟨database.relations.put compare name relation, database.tally.replace old constraint⟩,
      old)

/-! ### The index -/

/-- What follows a node in one more position: the handles of its subtrees, or the value that a
leaf is fixed to. -/
def continuations : Trie Constraint → List Handle
  | .leaf constraint => constraint.value?.toList
  | .node children => children.keys

/-- The prefix itself is there: as a position above a stored tuple, as the value of a fixed
tuple, or, if it is empty, because the relation has a tuple to show. -/
def holds (args : List Handle) (tuples : Trie Constraint) : Bool :=
  match args.getLast? with
  | none =>
    match tuples with
    | .node children => !children.isEmpty
    | .leaf constraint => constraint.isFixed
  | some last =>
    match tuples.lookup args.dropLast with
    | none => false
    | some (.leaf constraint) => constraint.value? == some last
    | some (.node children) => children.contains compare last

/-- The ways in which a prefix of arguments goes on for `depth` positions, ascending. At depth
zero there is one such way, the empty one, if the prefix is there at all. -/
def visit (name : String) (args : List Handle) (depth : Nat) (database : Database) :
    List (List Handle) :=
  match database.relation? name with
  | none => []
  | some relation =>
    match depth with
    | 0 => if holds args relation.tuples then [[]] else []
    | depth + 1 =>
      match relation.tuples.lookup args with
      | none => []
      | some trie =>
        (trie.visit depth).flatMap fun found =>
          (continuations found.2).map fun last => found.1 ++ [last]

/-! ### Listing -/

/-- The facts, ascending by predicate and then by arguments. -/
def facts (database : Database) : List StoredFact :=
  database.relations.toList.flatMap fun entry =>
    entry.2.entries.filterMap fun tuple =>
      tuple.2.value?.map fun value => ⟨entry.1, tuple.1, value⟩

/-- The tuples that are merely narrowed, in the same order. -/
def undetermined (database : Database) : List (String × List Handle × Constraint) :=
  database.relations.toList.flatMap fun entry =>
    if entry.2.tally.narrowed = 0 then []
    else (entry.2.entries.filter fun tuple => !tuple.2.isFixed).map fun tuple =>
      (entry.1, tuple.1, tuple.2)

end Database

/-- The text of a fact: the predicate, the arguments in parentheses, and the value. -/
def Store.displayFact (store : Store) (fact : StoredFact) : String :=
  fact.name ++ "(" ++ ", ".intercalate (fact.args.map store.display) ++ ") = "
    ++ store.display fact.value

end StableModels
