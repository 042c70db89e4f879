import StableModels.Term.Tree

/-!
# Constraints

What is known about one predicate at one tuple of arguments. A tuple of which nothing is known
has no constraint at all and may take any value; one that has a constraint is either fixed to a
value, or narrowed by a set of values that it does not take.
-/

namespace StableModels

/-- What is known about the value of a tuple. -/
inductive Constraint where
  /-- The tuple has this value. -/
  | just (value : Handle)
  /-- The tuple has none of these values. -/
  | noneOf (excluded : HandleSet)
  deriving DecidableEq

namespace Constraint

/-- The value, if the tuple is fixed. -/
def value? : Constraint → Option Handle
  | just value => some value
  | noneOf _ => none

/-- The tuple is fixed to a value. -/
def isFixed : Constraint → Bool
  | just _ => true
  | noneOf _ => false

/-- The tuple may have this value. -/
def admits (value : Handle) : Constraint → Bool
  | just fixed => fixed == value
  | noneOf excluded => !excluded.contains value

/-- The text of a constraint. -/
def render (store : Store) : Constraint → String
  | just value => "is " ++ store.display value
  | noneOf excluded =>
    "is none of \x7b" ++ ", ".intercalate (excluded.toList.map store.display) ++ "\x7d"

end Constraint

end StableModels
