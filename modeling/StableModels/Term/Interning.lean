import StableModels.Fault
import StableModels.Term.Store

/-!
# Computing with a store at hand

An `Interning` computation may put terms into the store as it goes, and may fail. Failure does
not take anything back: the terms interned before it keep their handles.
-/

namespace StableModels

/-- A computation that may intern terms and may fail. -/
abbrev Interning := EStateM Fault Store

namespace Interning

/-- The handle of a shape, a new one if need be. -/
def intern (shape : Shape) : Interning Handle := fun store =>
  let (handle, store) := store.intern shape
  .ok handle store

/-- Gives up. -/
def fail {α : Type} (cause : Cause) : Interning α := fun store => .error ⟨cause, none⟩ store

end Interning

end StableModels
