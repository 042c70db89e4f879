import StableModels.Data
import StableModels.RuleSet

/-!
# Compiled rules as data

What a program was compiled to, for a host that wants to look at it: terms by their handles,
patterns and rules by the words that tell their kind.
-/

namespace StableModels

namespace CompiledPattern

mutual

/-- A compiled pattern as data. -/
def toData : CompiledPattern → Data
  | term handle => .struct [("term", .natural handle)]
  | var slot => .struct [("var", .natural slot)]
  | wildcard => .text "wildcard"
  | const name args => .struct [("const", .text name), ("args", .list (listData args))]

/-- Compiled patterns as data. -/
def listData : List CompiledPattern → List Data
  | [] => []
  | pattern :: patterns => toData pattern :: listData patterns

end

end CompiledPattern

/-- A compiled premise as data. -/
def CompiledPremise.toData (premise : CompiledPremise) : Data :=
  .struct [
    ("name", .text premise.name),
    ("args", .list (CompiledPattern.listData premise.args)),
    ("value", premise.value.toData)]

/-- The body of a compiled rule as data. -/
def CompiledBody.toData : CompiledBody → Data
  | unary premise => .struct [("unary", premise.toData)]
  | join intermediate vars shared premise =>
    .struct [
      ("join", .text intermediate), ("vars", .list (vars.map .natural)),
      ("shared", .natural shared), ("premise", premise.toData)]
  | run intermediate vars instructions forFailure =>
    .struct [
      ("run", .text intermediate), ("vars", .list (vars.map .natural)),
      ("length", .natural instructions.length), ("for_failure", .bool forFailure)]

/-- A compiled conclusion as data. -/
def CompiledConclusion.toData : CompiledConclusion → Data
  | intermediate name args =>
    .struct [("intermediate", .text name), ("args", .list (CompiledPattern.listData args))]
  | fact name args value =>
    .struct [
      ("fact", .text name), ("args", .list (CompiledPattern.listData args)),
      ("value", value.toData)]
  | choice name args values exhaustive =>
    .struct [
      ("choice", .text name), ("args", .list (CompiledPattern.listData args)),
      ("values", .list (CompiledPattern.listData values)), ("exhaustive", .bool exhaustive)]

/-- A compiled rule as data. -/
def CompiledRule.toData (rule : CompiledRule) : Data :=
  .struct [
    ("index", .natural rule.index), ("slots", .natural rule.slots),
    ("body", rule.body.toData), ("conclusion", rule.conclusion.toData)]

end StableModels
