import StableModels.Instruction

/-!
# Programs

A program is a list of rules over two kinds of predicates. **Facts** give a value to a tuple of
arguments; they are what a model consists of. **Intermediates** are tuples without a value,
through which rules hand on what they have matched so far: a rule with several premises is
written as a chain of rules with one premise each.

Besides the rules a program names intermediates without arguments: the seeds, which hold from
the start; the demands, which every model has to derive; and those that no model may derive.
-/

namespace StableModels

/-- A premise: some fact of a predicate has such arguments and such a value. -/
structure Premise where
  /-- The predicate. -/
  name : String
  /-- What the arguments look like. -/
  args : List Pattern := []
  /-- What the value looks like. -/
  value : Pattern := .unit
  deriving Repr

/-- What a rule concludes. -/
inductive Conclusion where
  /-- A tuple of an intermediate. -/
  | intermediate (name : String) (args : List Pattern)
  /-- A fact. -/
  | fact (name : String) (args : List Pattern) (value : Pattern)
  /-- A choice among values for a tuple; an exhaustive choice admits no other value. -/
  | choice (name : String) (args values : List Pattern) (exhaustive : Bool)
  deriving Repr

/-- A rule. -/
inductive Rule where
  /-- For each fact that matches the premise. -/
  | unary (premise : Premise) (conclusion : Conclusion)
  /-- For each tuple of an intermediate, whose arguments bind the slots `vars`, together with
  each fact that matches the premise. The first `shared` arguments of the premise are the
  variables of the first `shared` slots. -/
  | join (intermediate : String) (vars : List Nat) (shared : Nat) (premise : Premise)
      (conclusion : Conclusion)
  /-- For each tuple of an intermediate, once for each outcome of the code. -/
  | run (intermediate : String) (vars : List Nat) (instructions : List Instruction)
      (conclusion : Conclusion)
  /-- For each tuple of an intermediate for which the code has no outcome. -/
  | runForFailure (intermediate : String) (vars : List Nat) (instructions : List Instruction)
      (conclusion : Conclusion)
  deriving Repr

/-- A program. -/
structure Program where
  /-- The intermediates that hold from the start. -/
  seeds : List String := []
  /-- The rules. -/
  rules : List Rule := []
  /-- The intermediates that every model derives. -/
  demands : List String := []
  /-- The intermediates that no model derives. -/
  forbids : List String := []
  deriving Repr

namespace Premise

/-- The patterns of a premise, the value last. -/
def patterns (premise : Premise) : List Pattern := premise.args ++ [premise.value]

/-- The slots that a premise mentions. -/
def slots (premise : Premise) : List Nat := premise.patterns.flatMap Pattern.slots

end Premise

namespace Conclusion

/-- The predicate or intermediate that is concluded. -/
def name : Conclusion → String
  | intermediate name _ => name
  | fact name .. => name
  | choice name .. => name

/-- The patterns that are instantiated, in their order. -/
def patterns : Conclusion → List Pattern
  | intermediate _ args => args
  | fact _ args value => args ++ [value]
  | choice _ args values _ => args ++ values

/-- The slots that a conclusion mentions. -/
def slots (conclusion : Conclusion) : List Nat := conclusion.patterns.flatMap Pattern.slots

end Conclusion

namespace Rule

/-- What the rule concludes. -/
def conclusion : Rule → Conclusion
  | unary _ conclusion => conclusion
  | join _ _ _ _ conclusion => conclusion
  | run _ _ _ conclusion => conclusion
  | runForFailure _ _ _ conclusion => conclusion

/-- The slots that the code reads or binds. -/
def codeSlots (instructions : List Instruction) : List Nat :=
  instructions.flatMap fun instruction => instruction.reads.toList ++ instruction.binds

/-- The slots that the body mentions. -/
def bodySlots : Rule → List Nat
  | unary premise _ => premise.slots
  | join _ vars _ premise _ => vars ++ premise.slots
  | run _ vars instructions _ | runForFailure _ vars instructions _ =>
    vars ++ codeSlots instructions

/-- The number of slots that a substitution for this rule has room for. -/
def slotCount (rule : Rule) : Nat :=
  (rule.bodySlots ++ rule.conclusion.slots).foldl (fun count slot => max count (slot + 1)) 0

end Rule

namespace Program

instance : Inhabited Program := ⟨{}⟩

/-- The program says nothing. -/
def isEmpty (program : Program) : Bool :=
  program.seeds.isEmpty && program.rules.isEmpty && program.demands.isEmpty
    && program.forbids.isEmpty

end Program

end StableModels
