import StableModels.Term.Interning

/-!
# Patterns

A pattern is a term with variables and wildcards in it. Variables are numbered: the number is
the **slot** of a substitution that the variable binds or reads.

A ground pattern denotes a term, which `Pattern.intern` puts into a store. Before a program
runs every pattern is **compiled** against the store: each ground part becomes one handle, so
that matching it later is a comparison of handles.
-/

namespace StableModels

/-- A term with variables and wildcards. -/
inductive Pattern where
  /-- The unit term. -/
  | unit
  /-- An integer. -/
  | int (value : Int)
  /-- A truth value. -/
  | bool (value : Bool)
  /-- A string. -/
  | string (text : String)
  /-- A constructor applied to patterns. -/
  | const (name : String) (args : List Pattern)
  /-- A reference into the data of the host. -/
  | ref (index : Nat)
  /-- A variable, by its slot. -/
  | var (slot : Nat)
  /-- Any term. -/
  | wildcard
  deriving Repr

/-- A pattern whose ground parts are handles. -/
inductive CompiledPattern where
  /-- A term. -/
  | term (handle : Handle)
  /-- A variable, by its slot. -/
  | var (slot : Nat)
  /-- Any term. -/
  | wildcard
  /-- A constructor with an argument that is not ground. -/
  | const (name : String) (args : List CompiledPattern)
  deriving Repr

namespace Pattern

instance : Inhabited Pattern := ⟨.unit⟩

mutual

/-- The pattern has neither variables nor wildcards. -/
def isGround : Pattern → Bool
  | var _ | wildcard => false
  | const _ args => allGround args
  | unit | int _ | bool _ | string _ | ref _ => true

/-- All of the patterns are ground. -/
def allGround : List Pattern → Bool
  | [] => true
  | pattern :: patterns => isGround pattern && allGround patterns

end

mutual

/-- The pattern has a wildcard somewhere. -/
def hasWildcard : Pattern → Bool
  | wildcard => true
  | const _ args => anyWildcard args
  | unit | int _ | bool _ | string _ | ref _ | var _ => false

/-- Some of the patterns have a wildcard. -/
def anyWildcard : List Pattern → Bool
  | [] => false
  | pattern :: patterns => hasWildcard pattern || anyWildcard patterns

end

mutual

/-- The slots of the variables from left to right, with repetitions. -/
def slots : Pattern → List Nat
  | var slot => [slot]
  | const _ args => slotsOf args
  | unit | int _ | bool _ | string _ | ref _ | wildcard => []

/-- The slots of several patterns, one after the other. -/
def slotsOf : List Pattern → List Nat
  | [] => []
  | pattern :: patterns => slots pattern ++ slotsOf patterns

end

/-! ### The term of a ground pattern -/

mutual

/-- Interns the term of a ground pattern, arguments first. A variable or wildcard is a fault;
what was interned before it stays. -/
def intern : Pattern → Interning Handle
  | unit => pure Handle.unit
  | bool value => pure (Handle.ofBool value)
  | int value => Interning.intern (.int value)
  | string text => Interning.intern (.string text)
  | ref index => Interning.intern (.ref index)
  | const name args => do
    let handles ← internAll args
    Interning.intern (.const name handles)
  | var slot => Interning.fail (.variableInGround slot)
  | wildcard => Interning.fail .wildcardInGround

/-- Interns the terms of ground patterns from left to right. -/
def internAll : List Pattern → Interning (List Handle)
  | [] => pure []
  | pattern :: patterns => do
    let handle ← intern pattern
    let handles ← internAll patterns
    pure (handle :: handles)

end

/-! ### Compilation -/

/-- The handles of patterns that are all terms. -/
def terms? : List CompiledPattern → Option (List Handle)
  | [] => some []
  | .term handle :: patterns => (terms? patterns).map (handle :: ·)
  | _ :: _ => none

/-- The compiled form of a term of this shape. -/
def compileShape (shape : Shape) (store : Store) : CompiledPattern × Store :=
  let (handle, store) := store.intern shape
  (.term handle, store)

mutual

/-- Compiles a pattern, arguments first; a constructor whose arguments all became terms is
itself interned. -/
def compile : Pattern → Store → CompiledPattern × Store
  | unit, store => (.term Handle.unit, store)
  | bool value, store => (.term (Handle.ofBool value), store)
  | int value, store => compileShape (.int value) store
  | string text, store => compileShape (.string text) store
  | ref index, store => compileShape (.ref index) store
  | var slot, store => (.var slot, store)
  | wildcard, store => (.wildcard, store)
  | const name args, store =>
    let (args, store) := compileAll args store
    match terms? args with
    | some handles => compileShape (.const name handles) store
    | none => (.const name args, store)

/-- Compiles patterns from left to right. -/
def compileAll : List Pattern → Store → List CompiledPattern × Store
  | [], store => ([], store)
  | pattern :: patterns, store =>
    let (first, store) := compile pattern store
    let (rest, store) := compileAll patterns store
    (first :: rest, store)

end

end Pattern

end StableModels
