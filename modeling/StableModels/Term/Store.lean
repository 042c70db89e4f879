import StableModels.OrderedMap
import StableModels.Term.Shape

/-!
# Term stores

A store issues one handle to each shape that it is given, and the same handle when it is given
the same shape again. The handles of a run are compared instead of its terms: since the
arguments of a shape are handles already, equal handles stand for equal trees.

Three handles are the same in every store: the unit term and the two truth values.
-/

namespace StableModels

/-- The shapes that were given a handle, and the handle of each. -/
structure Store where
  /-- The shape of each handle. -/
  shapes : Array Shape
  /-- The handle of each shape. -/
  handles : OrderedMap Shape Handle

namespace Store

/-- The handle of a shape that the store has seen. -/
def lookup (store : Store) (shape : Shape) : Option Handle :=
  store.handles.find? Shape.compare shape

/-- The shape behind a handle. -/
def shape? (store : Store) (handle : Handle) : Option Shape := store.shapes[handle]?

/-- The handle of a shape, a new one if the store has not seen it. -/
def intern (shape : Shape) (store : Store) : Handle × Store :=
  match store.lookup shape with
  | some handle => (handle, store)
  | none =>
    let handle := store.shapes.size
    (handle, ⟨store.shapes.push shape, store.handles.put Shape.compare shape handle⟩)

/-- The shapes that have a handle from the start, in the order of their handles. -/
def reserved : List Shape := [.unit, .bool true, .bool false]

/-- The store that has seen the reserved shapes only. -/
def initial : Store :=
  reserved.foldl (fun store shape => (store.intern shape).2) ⟨#[], .empty⟩

instance : Inhabited Store := ⟨initial⟩

/-- The number of handles issued. -/
def size (store : Store) : Nat := store.shapes.size

/-- The store has seen no shape but the reserved ones. -/
def isEmpty (store : Store) : Bool := store.size ≤ reserved.length

/-- The integer behind a handle. -/
def int? (store : Store) (handle : Handle) : Option Int := (store.shape? handle).bind Shape.int?

/-- The string behind a handle. -/
def string? (store : Store) (handle : Handle) : Option String :=
  (store.shape? handle).bind Shape.string?

end Store

end StableModels
