import StableModels.Pattern

/-!
# Substitutions

A substitution binds slots to terms. Matching a term against a pattern adds the bindings that
make the pattern denote the term, instantiating a pattern builds the term it denotes.

A slot is bound once: binding it again succeeds only with the same term. A match that fails
may have bound some slots before it did.

Slots are numbers of any size, and a substitution has room for any of them. That a machine runs out
of memory, or of words, for the slots below a very large one is not described here.
-/

namespace StableModels

/-- The binding of each slot; slots beyond the list are unbound. -/
structure Substitution where
  /-- The bindings, by slot. -/
  bindings : List (Option Handle)
  deriving DecidableEq, Repr

namespace Substitution

/-- No slot is bound, and there is room for `size` slots. -/
def blank (size : Nat) : Substitution := ⟨List.replicate size none⟩

instance : Inhabited Substitution := ⟨blank 0⟩

/-- The term bound to a slot. -/
def get? (slot : Nat) (substitution : Substitution) : Option Handle :=
  (substitution.bindings[slot]?).join

/-- The bindings with room for at least `size` slots. -/
def widen (size : Nat) (bindings : List (Option Handle)) : List (Option Handle) :=
  bindings ++ List.replicate (size - bindings.length) none

/-- Binds a slot. A slot that is bound already stays as it is, and the answer tells whether it
is bound to this term. -/
def bind (slot : Nat) (handle : Handle) (substitution : Substitution) : Bool × Substitution :=
  match substitution.get? slot with
  | some bound => (bound == handle, substitution)
  | none => (true, ⟨(widen (slot + 1) substitution.bindings).set slot (some handle)⟩)

/-- Binds one slot after the other, as long as that succeeds; the two lists have to be of one
length. -/
def bindAll : List Nat → List Handle → Substitution → Bool × Substitution
  | [], [], substitution => (true, substitution)
  | slot :: slots, handle :: handles, substitution =>
    match substitution.bind slot handle with
    | (true, substitution) => substitution.bindAll slots handles
    | (false, substitution) => (false, substitution)
  | [], _ :: _, substitution | _ :: _, [], substitution => (false, substitution)

/-! ### Matching -/

mutual

/-- Matches a term against a pattern. -/
def matchTerm (store : Store) :
    CompiledPattern → Handle → Substitution → Bool × Substitution
  | .term expected, handle, substitution => (expected == handle, substitution)
  | .wildcard, _, substitution => (true, substitution)
  | .var slot, handle, substitution => substitution.bind slot handle
  | .const name args, handle, substitution =>
    match store.shape? handle with
    | some (.const actual handles) =>
      if actual == name && handles.length == args.length then
        matchEach store args handles substitution
      else
        (false, substitution)
    | _ => (false, substitution)

/-- Matches terms against patterns one by one, as long as that succeeds. -/
def matchEach (store : Store) :
    List CompiledPattern → List Handle → Substitution → Bool × Substitution
  | pattern :: patterns, handle :: handles, substitution =>
    match matchTerm store pattern handle substitution with
    | (true, substitution) => matchEach store patterns handles substitution
    | (false, substitution) => (false, substitution)
  | [], _, substitution | _ :: _, [], substitution => (true, substitution)

end

/-- Matches a list of terms against as many patterns. -/
def matchAll (store : Store) (patterns : List CompiledPattern) (handles : List Handle)
    (substitution : Substitution) : Bool × Substitution :=
  if patterns.length = handles.length then matchEach store patterns handles substitution
  else (false, substitution)

/-! ### Instantiation -/

mutual

/-- The term that a pattern denotes. -/
def instantiate (substitution : Substitution) : CompiledPattern → Interning Handle
  | .term handle => pure handle
  | .var slot =>
    match substitution.get? slot with
    | some handle => pure handle
    | none => Interning.fail (.slotUnbound slot)
  | .wildcard => Interning.fail .wildcardInstantiated
  | .const name args => do
    let handles ← substitution.instantiateAll args
    Interning.intern (.const name handles)

/-- The terms that patterns denote, from left to right. -/
def instantiateAll (substitution : Substitution) :
    List CompiledPattern → Interning (List Handle)
  | [] => pure []
  | pattern :: patterns => do
    let handle ← substitution.instantiate pattern
    let handles ← substitution.instantiateAll patterns
    pure (handle :: handles)

end

end Substitution

end StableModels
