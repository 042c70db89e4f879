import StableModels.Term.Store
import StableModels.Text.Quoted

/-!
# Terms as trees

A handle means something only together with its store. A `Term` is what the handle stands
for: the whole tree, which can leave the run. `Store.expand` reads it off, and a store that
was filled from the bottom up has a tree behind each of its handles, because the arguments of
a shape have smaller handles than the shape itself.

Terms are displayed in applicative form: a constructor stands before its arguments, and an
argument that has arguments of its own stands in parentheses.
-/

namespace StableModels

/-- A term in full. -/
inductive Term where
  /-- The unit term. -/
  | unit
  /-- An integer of any size. -/
  | int (value : Int)
  /-- A truth value. -/
  | bool (value : Bool)
  /-- A string. -/
  | string (text : String)
  /-- A constructor applied to arguments. -/
  | const (name : String) (args : List Term)
  /-- A reference into the data of the host. -/
  | ref (index : Nat)

namespace Term

/-- A constructor without arguments. -/
def atom (name : String) : Term := const name []

mutual

/-- The text of a term; `nested` tells that it is an argument. -/
def render (nested : Bool) : Term → String
  | unit => "()"
  | int value => toString value
  | bool value => toString value
  | string text => Text.quote text
  | ref index => "#ref " ++ toString index
  | const name [] => name
  | const name (arg :: args) =>
    let applied := name ++ renderArgs (arg :: args)
    if nested then "(" ++ applied ++ ")" else applied

/-- The texts of arguments, each after a space. -/
def renderArgs : List Term → String
  | [] => ""
  | arg :: args => " " ++ render true arg ++ renderArgs args

end

end Term

namespace Store

/-- The tree behind a handle, as far down as `depth` layers; none if it is deeper or some
handle in it is not one of the store's. -/
def expandWithin (store : Store) : Nat → Handle → Option Term
  | 0, _ => none
  | depth + 1, handle =>
    match store.shape? handle with
    | none => none
    | some .unit => some .unit
    | some (.int value) => some (.int value)
    | some (.bool value) => some (.bool value)
    | some (.string text) => some (.string text)
    | some (.ref index) => some (.ref index)
    | some (.const name args) =>
      (args.mapM (store.expandWithin depth)).map (.const name)

/-- The tree behind a handle. Each layer of it has smaller handles than the one above, so
that it has at most as many layers as there are handles up to this one. -/
def expand (store : Store) (handle : Handle) : Option Term :=
  store.expandWithin (handle + 1) handle

/-- The text of the term behind a handle. A handle that is not the store's is shown as such. -/
def display (store : Store) (handle : Handle) : String :=
  match store.expand handle with
  | some term => term.render false
  | none => "<foreign " ++ toString handle ++ ">"

/-- The texts of all terms but the reserved ones, in the order of their handles. -/
def dump (store : Store) : List String :=
  (List.range (store.size - reserved.length)).map fun index =>
    store.display (reserved.length + index)

end Store

end StableModels
