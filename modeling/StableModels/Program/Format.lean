import StableModels.Data
import StableModels.Program

/-!
# Programs as data

The form in which programs are stored, whatever the format: patterns, instructions, conclusions
and rules are tagged by their kind, premises and programs are plain structs. Writing gives every
member, in the order of the lists below.

Reading is more lenient. Arguments that are not given are empty, a value that is not given is the
unit term. Inside a tagged value members and kinds may also be given by number. Outside of all
tagged values that depends on the format, and so the readers of what may stand there have the
naming as a parameter.
-/

namespace StableModels

/-! ### Writing -/

/-- A list of words. -/
def Data.ofWords (words : List Nat) : Data := .list (words.map .natural)

/-- A list of names. -/
def Data.ofNames (names : List String) : Data := .list (names.map .text)

namespace Pattern

mutual

/-- A pattern as data. -/
def toData : Pattern → Data
  | unit => .tagged "type" "trivial" []
  | int value => .tagged "type" "int" [("value", .ofInt value)]
  | bool value => .tagged "type" "bool" [("value", .bool value)]
  | string text => .tagged "type" "string" [("value", .text text)]
  | const name args =>
    .tagged "type" "const" [("name", .text name), ("args", .list (listData args))]
  | ref index => .tagged "type" "ref" [("index", .natural index)]
  | var slot => .tagged "type" "var" [("slot", .natural slot)]
  | wildcard => .tagged "type" "wildcard" []

/-- Patterns as data. -/
def listData : List Pattern → List Data
  | [] => []
  | pattern :: patterns => toData pattern :: listData patterns

end

/-- The kinds of patterns. -/
def kinds : List String :=
  ["trivial", "int", "bool", "string", "const", "ref", "var", "wildcard"]

end Pattern

namespace SplitPart

/-- A part of a template as data. -/
def toData : SplitPart → Data
  | literal text => .tagged "type" "literal" [("text", .text text)]
  | piece slot => .tagged "type" "slot" [("slot", .natural slot)]

/-- The kinds of parts. -/
def kinds : List String := ["literal", "slot"]

end SplitPart

namespace Instruction

/-- An instruction as data. -/
def toData : Instruction → Data
  | const value => .tagged "op" "const" [("value", value.toData)]
  | load slot => .tagged "op" "load" [("slot", .natural slot)]
  | store slot => .tagged "op" "store" [("slot", .natural slot)]
  | equal => .tagged "op" "equal" []
  | notEqual => .tagged "op" "not_equal" []
  | gt => .tagged "op" "gt" []
  | geq => .tagged "op" "geq" []
  | lt => .tagged "op" "lt" []
  | leq => .tagged "op" "leq" []
  | plus arity => .tagged "op" "plus" [("arity", .natural arity)]
  | minus => .tagged "op" "minus" []
  | times arity => .tagged "op" "times" [("arity", .natural arity)]
  | boolTrue => .tagged "op" "bool_true" []
  | boolFalse => .tagged "op" "bool_false" []
  | natZero => .tagged "op" "nat_zero" []
  | natSucc => .tagged "op" "nat_succ" []
  | natPred => .tagged "op" "nat_pred" []
  | build name arity => .tagged "op" "build" [("name", .text name), ("arity", .natural arity)]
  | concat arity => .tagged "op" "concat" [("arity", .natural arity)]
  | split parts => .tagged "op" "split" [("parts", .list (parts.map SplitPart.toData))]
  | fail => .tagged "op" "fail" []

/-- The kinds of instructions. -/
def kinds : List String :=
  ["const", "load", "store", "equal", "not_equal", "gt", "geq", "lt", "leq", "plus", "minus",
    "times", "bool_true", "bool_false", "nat_zero", "nat_succ", "nat_pred", "build", "concat",
    "split", "fail"]

end Instruction

/-- The names of the members of a premise. -/
def Premise.memberNames : List String := ["name", "args", "value"]

/-- A premise as data. -/
def Premise.toData (premise : Premise) : Data :=
  .struct [
    ("name", .text premise.name),
    ("args", .list (Pattern.listData premise.args)),
    ("value", premise.value.toData)]

namespace Conclusion

/-- A conclusion as data. -/
def toData : Conclusion → Data
  | intermediate name args =>
    .tagged "type" "intermediate" [("name", .text name), ("args", .list (Pattern.listData args))]
  | fact name args value =>
    .tagged "type" "fact"
      [("name", .text name), ("args", .list (Pattern.listData args)), ("value", value.toData)]
  | choice name args values exhaustive =>
    .tagged "type" "choice"
      [("name", .text name), ("args", .list (Pattern.listData args)),
        ("values", .list (Pattern.listData values)), ("exhaustive", .bool exhaustive)]

/-- The kinds of conclusions. -/
def kinds : List String := ["intermediate", "fact", "choice"]

end Conclusion

namespace Rule

/-- The members of a rule that runs code. -/
def codeData (intermediate : String) (vars : List Nat) (instructions : List Instruction)
    (conclusion : Conclusion) : List (String × Data) :=
  [("intermediate", .text intermediate), ("vars", .ofWords vars),
    ("instructions", .list (instructions.map Instruction.toData)),
    ("conclusion", conclusion.toData)]

/-- A rule as data. -/
def toData : Rule → Data
  | unary premise conclusion =>
    .tagged "type" "unary" [("premise", premise.toData), ("conclusion", conclusion.toData)]
  | join intermediate vars shared premise conclusion =>
    .tagged "type" "join"
      [("intermediate", .text intermediate), ("vars", .ofWords vars),
        ("shared", .natural shared), ("premise", premise.toData),
        ("conclusion", conclusion.toData)]
  | run intermediate vars instructions conclusion =>
    .tagged "type" "run" (codeData intermediate vars instructions conclusion)
  | runForFailure intermediate vars instructions conclusion =>
    .tagged "type" "run_for_failure" (codeData intermediate vars instructions conclusion)

/-- The kinds of rules. -/
def kinds : List String := ["unary", "join", "run", "run_for_failure"]

end Rule

namespace Program

/-- The names of the members of a program. -/
def memberNames : List String := ["seeds", "rules", "demands", "forbids"]

/-- The members of a program. -/
def membersData (program : Program) : List (String × Data) :=
  [("seeds", .ofNames program.seeds), ("rules", .list (program.rules.map Rule.toData)),
    ("demands", .ofNames program.demands), ("forbids", .ofNames program.forbids)]

/-- A program as data. -/
def toData (program : Program) : Data := .struct program.membersData

end Program

/-! ### Reading -/

open Data (Naming required optional)

namespace Pattern

/-- Reads a pattern with at most `depth` layers. -/
def ofDataWithin? : Nat → Naming → Data → Option Pattern
  | 0, _, _ => none
  | depth + 1, naming, data => do
    let (kind, struct) ← data.tagged? naming "type" kinds
    match kind with
    | 0 => if struct.isBare then some unit else none
    | 1 =>
      match ← struct.members? .byNumber ["value"] with
      | [value] => do some (int (← required Data.int? value))
      | _ => none
    | 2 =>
      match ← struct.members? .byNumber ["value"] with
      | [value] => do some (bool (← required Data.bool? value))
      | _ => none
    | 3 =>
      match ← struct.members? .byNumber ["value"] with
      | [value] => do some (string (← required Data.text? value))
      | _ => none
    | 4 =>
      match ← struct.members? .byNumber ["name", "args"] with
      | [name, args] => do
        let name ← required Data.text? name
        let args ← optional [] (Data.list? (ofDataWithin? depth .byNumber)) args
        some (const name args)
      | _ => none
    | 5 =>
      match ← struct.members? .byNumber ["index"] with
      | [index] => do some (ref (← required Data.word? index))
      | _ => none
    | 6 =>
      match ← struct.members? .byNumber ["slot"] with
      | [slot] => do some (var (← required Data.word? slot))
      | _ => none
    | _ => if struct.isBare then some wildcard else none

/-- Reads a pattern. -/
def ofData? (naming : Naming) (data : Data) : Option Pattern :=
  ofDataWithin? data.depth naming data

/-- Reads patterns inside a tagged value. -/
def listOfData? (data : Data) : Option (List Pattern) := data.list? (ofData? .byNumber)

end Pattern

/-- Reads a part of a template. -/
def SplitPart.ofData? (data : Data) : Option SplitPart := do
  let (kind, struct) ← data.tagged? .byNumber "type" kinds
  match kind with
  | 0 =>
    match ← struct.members? .byNumber ["text"] with
    | [text] => do some (literal (← required Data.text? text))
    | _ => none
  | _ =>
    match ← struct.members? .byNumber ["slot"] with
    | [slot] => do some (piece (← required Data.word? slot))
    | _ => none

namespace Instruction

/-- Reads an instruction whose only member is a word. -/
def ofWord? (name : String) (make : Nat → Instruction) (struct : Data) : Option Instruction := do
  match ← struct.members? .byNumber [name] with
  | [word] => do some (make (← required Data.word? word))
  | _ => none

/-- Reads an instruction without members. -/
def ofBare? (instruction : Instruction) (struct : Data) : Option Instruction :=
  if struct.isBare then some instruction else none

/-- Reads an instruction. -/
def ofData? (naming : Naming) (data : Data) : Option Instruction := do
  let (kind, struct) ← data.tagged? naming "op" kinds
  match kind with
  | 0 =>
    match ← struct.members? .byNumber ["value"] with
    | [value] => do some (const (← required (Pattern.ofData? .byNumber) value))
    | _ => none
  | 1 => ofWord? "slot" load struct
  | 2 => ofWord? "slot" store struct
  | 3 => ofBare? equal struct
  | 4 => ofBare? notEqual struct
  | 5 => ofBare? gt struct
  | 6 => ofBare? geq struct
  | 7 => ofBare? lt struct
  | 8 => ofBare? leq struct
  | 9 => ofWord? "arity" plus struct
  | 10 => ofBare? minus struct
  | 11 => ofWord? "arity" times struct
  | 12 => ofBare? boolTrue struct
  | 13 => ofBare? boolFalse struct
  | 14 => ofBare? natZero struct
  | 15 => ofBare? natSucc struct
  | 16 => ofBare? natPred struct
  | 17 =>
    match ← struct.members? .byNumber ["name", "arity"] with
    | [name, arity] => do
      let name ← required Data.text? name
      let arity ← required Data.word? arity
      some (build name arity)
    | _ => none
  | 18 => ofWord? "arity" concat struct
  | 19 =>
    match ← struct.members? .byNumber ["parts"] with
    | [parts] => do some (split (← required (Data.list? SplitPart.ofData?) parts))
    | _ => none
  | _ => ofBare? fail struct

end Instruction

/-- Reads a premise, which stands inside a rule. -/
def Premise.ofData? (data : Data) : Option Premise := do
  match ← data.members? .byNumber memberNames with
  | [name, args, value] => do
    let name ← required Data.text? name
    let args ← optional [] Pattern.listOfData? args
    let value ← optional .unit (Pattern.ofData? .byNumber) value
    some ⟨name, args, value⟩
  | _ => none

/-- Reads a conclusion, which stands inside a rule. -/
def Conclusion.ofData? (data : Data) : Option Conclusion := do
  let (kind, struct) ← data.tagged? .byNumber "type" kinds
  match kind with
  | 0 =>
    match ← struct.members? .byNumber ["name", "args"] with
    | [name, args] => do
      let name ← required Data.text? name
      let args ← optional [] Pattern.listOfData? args
      some (intermediate name args)
    | _ => none
  | 1 =>
    match ← struct.members? .byNumber ["name", "args", "value"] with
    | [name, args, value] => do
      let name ← required Data.text? name
      let args ← optional [] Pattern.listOfData? args
      let value ← optional .unit (Pattern.ofData? .byNumber) value
      some (fact name args value)
    | _ => none
  | _ =>
    match ← struct.members? .byNumber ["name", "args", "values", "exhaustive"] with
    | [name, args, values, exhaustive] => do
      let name ← required Data.text? name
      let args ← optional [] Pattern.listOfData? args
      let values ← required Pattern.listOfData? values
      let exhaustive ← required Data.bool? exhaustive
      some (choice name args values exhaustive)
    | _ => none

namespace Rule

/-- Reads a rule that runs code. -/
def ofCode? (make : String → List Nat → List Instruction → Conclusion → Rule) (struct : Data) :
    Option Rule := do
  match ← struct.members? .byNumber ["intermediate", "vars", "instructions", "conclusion"] with
  | [intermediate, vars, instructions, conclusion] => do
    let intermediate ← required Data.text? intermediate
    let vars ← required (Data.list? Data.word?) vars
    let instructions ← required (Data.list? (Instruction.ofData? .byNumber)) instructions
    let conclusion ← required Conclusion.ofData? conclusion
    some (make intermediate vars instructions conclusion)
  | _ => none

/-- Reads a rule. -/
def ofData? (naming : Naming) (data : Data) : Option Rule := do
  let (kind, struct) ← data.tagged? naming "type" kinds
  match kind with
  | 0 =>
    match ← struct.members? .byNumber ["premise", "conclusion"] with
    | [premise, conclusion] => do
      let premise ← required Premise.ofData? premise
      let conclusion ← required Conclusion.ofData? conclusion
      some (unary premise conclusion)
    | _ => none
  | 1 =>
    match ← struct.members? .byNumber
      ["intermediate", "vars", "shared", "premise", "conclusion"] with
    | [intermediate, vars, shared, premise, conclusion] => do
      let intermediate ← required Data.text? intermediate
      let vars ← required (Data.list? Data.word?) vars
      let shared ← required Data.word? shared
      let premise ← required Premise.ofData? premise
      let conclusion ← required Conclusion.ofData? conclusion
      some (join intermediate vars shared premise conclusion)
    | _ => none
  | 2 => ofCode? run struct
  | _ => ofCode? runForFailure struct

end Rule

/-- The names of a list. -/
def Data.names? (data : Data) : Option (List String) := data.sequence.list? Data.text?

/-- Reads a program. Empty bytes may stand for it or for its members if nothing is in them. -/
def Program.ofData? (naming : Naming) (data : Data) : Option Program := do
  match ← data.sequence.members? naming memberNames with
  | [seeds, rules, demands, forbids] => do
    let seeds ← optional [] Data.names? seeds
    let rules ← optional [] (fun rules => rules.sequence.list? (Rule.ofData? naming)) rules
    let demands ← optional [] Data.names? demands
    let forbids ← optional [] Data.names? forbids
    some ⟨seeds, rules, demands, forbids⟩
  | _ => none

end StableModels
