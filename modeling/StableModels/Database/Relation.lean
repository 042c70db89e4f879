import StableModels.Database.Constraint
import StableModels.Trie

/-!
# Relations

A relation keeps the constraints of one predicate, in a trie over the arguments, and counts how
many of its tuples are fixed and how many are merely narrowed.
-/

namespace StableModels

/-- How many tuples are fixed and how many are narrowed. -/
structure Tally where
  /-- The number of fixed tuples. -/
  fixed : Nat := 0
  /-- The number of narrowed tuples. -/
  narrowed : Nat := 0
  deriving DecidableEq, Repr

namespace Tally

/-- One more tuple with this constraint. -/
def add (constraint : Constraint) (tally : Tally) : Tally :=
  if constraint.isFixed then { tally with fixed := tally.fixed + 1 }
  else { tally with narrowed := tally.narrowed + 1 }

/-- One tuple less with this constraint. -/
def remove (constraint : Constraint) (tally : Tally) : Tally :=
  if constraint.isFixed then { tally with fixed := tally.fixed - 1 }
  else { tally with narrowed := tally.narrowed - 1 }

/-- The tally after a constraint took the place of another, or of none. -/
def replace (old : Option Constraint) (new : Constraint) (tally : Tally) : Tally :=
  match old with
  | none => tally.add new
  | some old => (tally.remove old).add new

end Tally

/-- The constraints of one predicate. -/
structure Relation where
  /-- The constraint of each tuple. -/
  tuples : Trie Constraint := .empty
  /-- How many tuples are fixed and how many narrowed. -/
  tally : Tally := {}

namespace Relation

instance : Inhabited Relation := ⟨{}⟩

/-- The number of tuples with a constraint. -/
def size (relation : Relation) : Nat := relation.tally.fixed + relation.tally.narrowed

/-- The constraint of a tuple. -/
def get? (args : List Handle) (relation : Relation) : Option Constraint :=
  relation.tuples.find? args

/-- The relation with a constraint set, and the constraint it replaces. -/
def set (args : List Handle) (constraint : Constraint) (relation : Relation) :
    Except Fault (Relation × Option Constraint) :=
  match relation.tuples.insert args constraint with
  | .error fault => .error fault
  | .ok (tuples, old) => .ok (⟨tuples, relation.tally.replace old constraint⟩, old)

/-- The tuples with their constraints, ascending by arguments. -/
def entries (relation : Relation) : List (List Handle × Constraint) := relation.tuples.entries

end Relation

end StableModels
