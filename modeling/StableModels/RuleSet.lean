import StableModels.Program.Validation

/-!
# Compiled rules

Before a program runs its rules are compiled against the store of the run: every ground pattern
becomes a handle. A compiled rule is triggered by new facts of the predicate of its premise, or
by new tuples of its intermediate; a join is triggered by either, because each of its sides may
come last.
-/

namespace StableModels

/-- A premise with compiled patterns. -/
structure CompiledPremise where
  /-- The predicate. -/
  name : String
  /-- What the arguments look like. -/
  args : List CompiledPattern
  /-- What the value looks like. -/
  value : CompiledPattern

/-- A conclusion with compiled patterns. -/
inductive CompiledConclusion where
  /-- A tuple of an intermediate. -/
  | intermediate (name : String) (args : List CompiledPattern)
  /-- A fact. -/
  | fact (name : String) (args : List CompiledPattern) (value : CompiledPattern)
  /-- A choice among values for a tuple. -/
  | choice (name : String) (args values : List CompiledPattern) (exhaustive : Bool)

/-- The body of a compiled rule. -/
inductive CompiledBody where
  /-- For each fact that matches the premise. -/
  | unary (premise : CompiledPremise)
  /-- For each tuple of an intermediate and each fact that matches the premise. -/
  | join (intermediate : String) (vars : List Nat) (shared : Nat) (premise : CompiledPremise)
  /-- For each tuple of an intermediate, once for each outcome of the code, or once if there is
  no outcome. -/
  | run (intermediate : String) (vars : List Nat) (instructions : List Instruction)
      (forFailure : Bool)

/-- A compiled rule. -/
structure CompiledRule where
  /-- The place of the rule in the program. -/
  index : Nat
  /-- The number of slots that a substitution for this rule has room for. -/
  slots : Nat
  /-- What triggers the rule and how it matches. -/
  body : CompiledBody
  /-- What the rule concludes. -/
  conclusion : CompiledConclusion

/-- The compiled rules of a program, and the intermediates it names. -/
structure RuleSet where
  /-- The rules in the order of the program. -/
  rules : List CompiledRule
  /-- The intermediates that hold from the start. -/
  seeds : List String
  /-- The intermediates that every model derives. -/
  demands : List String
  /-- The intermediates that no model derives. -/
  forbids : List String

/-! ### Compilation -/

/-- Compiles a premise, the arguments first. -/
def Premise.compile (premise : Premise) (store : Store) : CompiledPremise × Store :=
  let (args, store) := Pattern.compileAll premise.args store
  let (value, store) := premise.value.compile store
  (⟨premise.name, args, value⟩, store)

/-- Compiles a conclusion, the arguments first. -/
def Conclusion.compile : Conclusion → Store → CompiledConclusion × Store
  | intermediate name args, store =>
    let (args, store) := Pattern.compileAll args store
    (.intermediate name args, store)
  | fact name args value, store =>
    let (args, store) := Pattern.compileAll args store
    let (value, store) := value.compile store
    (.fact name args value, store)
  | choice name args values exhaustive, store =>
    let (args, store) := Pattern.compileAll args store
    let (values, store) := Pattern.compileAll values store
    (.choice name args values exhaustive, store)

/-- Compiles the body of a rule. The code of a rule is left as it is. -/
def Rule.compileBody : Rule → Store → CompiledBody × Store
  | unary premise _, store =>
    let (premise, store) := premise.compile store
    (.unary premise, store)
  | join intermediate vars shared premise _, store =>
    let (premise, store) := premise.compile store
    (.join intermediate vars shared premise, store)
  | run intermediate vars instructions _, store =>
    (.run intermediate vars instructions false, store)
  | runForFailure intermediate vars instructions _, store =>
    (.run intermediate vars instructions true, store)

/-- Compiles a rule, the body first. -/
def Rule.compile (index : Nat) (rule : Rule) (store : Store) : CompiledRule × Store :=
  let (body, store) := rule.compileBody store
  let (conclusion, store) := rule.conclusion.compile store
  (⟨index, rule.slotCount, body, conclusion⟩, store)

namespace RuleSet

/-- Compiles rules, the first of which has this index. -/
def compileRules : Nat → List Rule → Store → List CompiledRule × Store
  | _, [], store => ([], store)
  | index, rule :: rules, store =>
    let (first, store) := rule.compile index store
    let (rest, store) := compileRules (index + 1) rules store
    (first :: rest, store)

/-- Validates and compiles a program. -/
def compile (program : Program) (store : Store) : Except Fault (RuleSet × Store) :=
  match program.validate with
  | .error fault => .error fault
  | .ok () =>
    let (rules, store) := compileRules 0 program.rules store
    .ok (⟨rules, program.seeds, program.demands, program.forbids⟩, store)

/-! ### Triggers -/

end RuleSet

namespace CompiledBody

/-- The predicate whose new facts trigger the rule. -/
def factTrigger? : CompiledBody → Option String
  | unary premise | join _ _ _ premise => some premise.name
  | run .. => none

/-- The intermediate whose new tuples trigger the rule. -/
def tupleTrigger? : CompiledBody → Option String
  | unary _ => none
  | join intermediate .. | run intermediate .. => some intermediate

end CompiledBody

namespace RuleSet

/-- The rules that a new fact of a predicate triggers, in the order of the program. -/
def onFact (name : String) (rules : RuleSet) : List CompiledRule :=
  rules.rules.filter fun rule => rule.body.factTrigger? == some name

/-- The rules that a new tuple of an intermediate triggers, in the order of the program. -/
def onTuple (name : String) (rules : RuleSet) : List CompiledRule :=
  rules.rules.filter fun rule => rule.body.tupleTrigger? == some name

/-- No model may derive this intermediate. -/
def isForbidden (name : String) (rules : RuleSet) : Bool := rules.forbids.contains name

end RuleSet

end StableModels
