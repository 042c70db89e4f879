import StableModels.Instruction
import StableModels.Segmentation
import StableModels.Substitution

/-!
# The machine

A run starts with an empty stack and a substitution and goes through the code once. Each way
to reach the end of the code is an **outcome**: the substitution as it is then. A split goes on
once for each segmentation of its string, so that there may be many outcomes or none; they are
listed in the order of the splits.

A run whose guard does not hold, or that meets an operand of the wrong kind, merely has no
outcome. Malformed code is a fault: loading a slot that nothing has bound, popping more
operands than there are, pushing a constant that is not ground.

Terms are interned in the order in which they are met, and a split interns the pieces of one
segmentation when it comes to that segmentation.
-/

namespace StableModels

namespace Machine

/-- What an instruction leads to. -/
inductive Progress where
  /-- The run ends without an outcome. -/
  | stop
  /-- The run goes on with these operands and bindings. -/
  | next (stack : List Handle) (substitution : Substitution)
  /-- The run goes on once for each row, with the texts of the row bound to their slots on top
  of these bindings. -/
  | fork (stack : List Handle) (substitution : Substitution) (rows : List (List (Nat × List Char)))

/-- Goes on if the guard holds. -/
def Progress.guard (holds : Bool) (stack : List Handle) (substitution : Substitution) : Progress :=
  if holds then .next stack substitution else .stop

/-! ### Operators -/

/-- The integers behind handles, if all of them are integers. -/
def ints? (store : Store) (handles : List Handle) : Option (List Int) :=
  handles.mapM store.int?

/-- The strings behind handles, if all of them are strings. -/
def strings? (store : Store) (handles : List Handle) : Option (List String) :=
  handles.mapM store.string?

/-- Two integers stand in a relation. -/
def related (relation : Ordering → Bool) (store : Store) (first second : Handle) : Bool :=
  match store.int? first, store.int? second with
  | some a, some b => relation (compare a b)
  | _, _ => false

/-- The shape of the result of an operator; none if an operand is not of the right kind or the
operator has no value there. -/
def result? (store : Store) : Instruction → List Handle → Option Shape
  | .plus _, operands => (ints? store operands).map fun values => .int (values.foldl (· + ·) 0)
  | .times _, operands =>
    (ints? store operands).map fun values => .int (values.foldl (· * ·) 1)
  | .minus, [first, second] => do
    let a ← store.int? first
    let b ← store.int? second
    pure (.int (a - b))
  | .natZero, [] => some (.int 0)
  | .natSucc, [operand] => do
    let value ← store.int? operand
    if value < 0 then none else pure (.int (value + 1))
  | .natPred, [operand] => do
    let value ← store.int? operand
    if value ≤ 0 then none else pure (.int (value - 1))
  | .build name _, operands => some (.const name operands)
  | .concat _, operands => (strings? store operands).map fun texts => .string (String.join texts)
  | _, _ => none

/-- The template of a split: a piece whose slot is bound has a known text. None if a bound
slot does not hold a string. -/
def template? (store : Store) (substitution : Substitution) : List SplitPart → Option (List Segment)
  | [] => some []
  | .literal text :: parts => (template? store substitution parts).map (.literal text.toList :: ·)
  | .piece slot :: parts =>
    match substitution.get? slot with
    | none => (template? store substitution parts).map (.free :: ·)
    | some handle => do
      let text ← store.string? handle
      let template ← template? store substitution parts
      pure (.known text.toList :: template)

/-- The rows of a split: the slots of its pieces with their texts, once for each segmentation.
None if the subject or a bound slot is not a string. -/
def rows? (store : Store) (parts : List SplitPart) (substitution : Substitution)
    (subject : Handle) : Option (List (List (Nat × List Char))) := do
  let text ← store.string? subject
  let template ← template? store substitution parts
  pure ((segmentations template text.toList).map fun pieces =>
    (parts.filterMap SplitPart.slot?).zip pieces)

/-! ### Running -/

/-- Carries out an instruction whose operands have been popped, the lowest first. -/
def perform (position : Nat) (stack : List Handle) (substitution : Substitution) :
    Instruction → List Handle → Interning Progress
  | .const value, _ => do
    let handle ← value.intern
    pure (.next (handle :: stack) substitution)
  | .load slot, _ =>
    match substitution.get? slot with
    | some handle => pure (.next (handle :: stack) substitution)
    | none => Interning.fail (.loadUnbound slot position)
  | .store slot, [operand] =>
    match substitution.bind slot operand with
    | (true, substitution) => pure (.next stack substitution)
    | (false, _) => pure .stop
  | .boolTrue, _ => pure (.next (Handle.true :: stack) substitution)
  | .boolFalse, _ => pure (.next (Handle.false :: stack) substitution)
  | .equal, [a, b] => pure (.guard (a == b) stack substitution)
  | .notEqual, [a, b] => pure (.guard (a != b) stack substitution)
  | .gt, [a, b] => do pure (.guard (related Ordering.isGT (← get) a b) stack substitution)
  | .geq, [a, b] => do pure (.guard (related Ordering.isGE (← get) a b) stack substitution)
  | .lt, [a, b] => do pure (.guard (related Ordering.isLT (← get) a b) stack substitution)
  | .leq, [a, b] => do pure (.guard (related Ordering.isLE (← get) a b) stack substitution)
  | .split parts, [subject] => do
    match rows? (← get) parts substitution subject with
    | some rows => pure (.fork stack substitution rows)
    | none => pure .stop
  | .fail, _ => pure .stop
  | operator, operands => do
    match result? (← get) operator operands with
    | some shape =>
      let handle ← Interning.intern shape
      pure (.next (handle :: stack) substitution)
    | none => pure .stop

/-- Pops the operands of an instruction and carries it out. -/
def step (position : Nat) (instruction : Instruction) (stack : List Handle)
    (substitution : Substitution) : Interning Progress :=
  if instruction.pops ≤ stack.length then
    perform position (stack.drop instruction.pops) substitution instruction
      (stack.take instruction.pops).reverse
  else
    Interning.fail (.stackUnderflow position)

/-- Interns the texts of a row from left to right and binds them to their slots, as long as
that succeeds. -/
def bindRow : List (Nat × List Char) → Substitution → Interning (Option Substitution)
  | [], substitution => pure (some substitution)
  | (slot, text) :: row, substitution => do
    let handle ← Interning.intern (.string (String.ofList text))
    match substitution.bind slot handle with
    | (true, substitution) => bindRow row substitution
    | (false, _) => pure none

/-- The results for the members of a list, one after the other. -/
def collect {α β : Type} (results : α → Interning (List β)) : List α → Interning (List β)
  | [] => pure []
  | member :: members => do
    let first ← results member
    let rest ← collect results members
    pure (first ++ rest)

/-- The outcomes of code that starts at `position` with these operands and bindings. -/
def outcomes : List Instruction → Nat → List Handle → Substitution → Interning (List Substitution)
  | [], _, _, substitution => pure [substitution]
  | instruction :: code, position, stack, substitution => do
    match ← step position instruction stack substitution with
    | .stop => pure []
    | .next stack substitution => outcomes code (position + 1) stack substitution
    | .fork stack substitution rows =>
      collect (fun row => do
        match ← bindRow row substitution with
        | some substitution => outcomes code (position + 1) stack substitution
        | none => pure []) rows

/-- The outcomes of code that starts with an empty stack. -/
def run (code : List Instruction) (substitution : Substitution) : Interning (List Substitution) :=
  outcomes code 0 [] substitution

/-- The code has an outcome. -/
def succeeds (code : List Instruction) (substitution : Substitution) : Interning Bool := do
  let outcomes ← run code substitution
  pure !outcomes.isEmpty

end Machine

end StableModels
