import StableModels.Handle

/-!
# Shapes of terms

The shape of a term is its outermost layer: what kind of term it is, and for a constructor the
handles of its arguments. Shapes are ordered, first by kind and then by content, so that a
store can find the handle of a shape it has seen.
-/

namespace StableModels

/-- The outermost layer of a term. -/
inductive Shape where
  /-- The unit term. -/
  | unit
  /-- An integer of any size. -/
  | int (value : Int)
  /-- A truth value. -/
  | bool (value : Bool)
  /-- A string. -/
  | string (text : String)
  /-- A constructor applied to arguments. -/
  | const (name : String) (args : List Handle)
  /-- A reference into the data of the host. -/
  | ref (index : Nat)
  deriving DecidableEq, Repr

namespace Shape

/-- The name of the kind. -/
def kind : Shape → String
  | unit => "trivial"
  | int _ => "int"
  | bool _ => "bool"
  | string _ => "string"
  | const .. => "const"
  | ref _ => "ref"

/-- The place of the kind among the kinds. -/
def rank : Shape → Nat
  | unit => 0
  | int _ => 1
  | bool _ => 2
  | string _ => 3
  | const .. => 4
  | ref _ => 5

/-- Orders shapes by kind and then by content. -/
def compare : Shape → Shape → Ordering
  | int a, int b => Ord.compare a b
  | bool a, bool b => Ord.compare a b
  | string a, string b => Ord.compare a b
  | const f as, const g bs => (Ord.compare f g).then (List.compareLex Ord.compare as bs)
  | ref a, ref b => Ord.compare a b
  | first, second => Ord.compare first.rank second.rank

/-- The integer, if it is one. -/
def int? : Shape → Option Int
  | int value => some value
  | _ => none

/-- The string, if it is one. -/
def string? : Shape → Option String
  | string text => some text
  | _ => none

end Shape

end StableModels
