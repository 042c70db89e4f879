import StableModels.Data
import StableModels.Report

/-!
# Models as data

The form in which terms and facts are handed to the host: the unit term as the null value, a
constructor as a record of its name and, unless it has none, its arguments, and a reference as a
record whose name is null. A large integer is written as text and looks like a string of digits
then, so that this form is for output only.
-/

namespace StableModels

namespace Term

mutual

/-- A term as data. -/
def toData : Term → Data
  | unit => .null
  | int value => .ofInt value
  | bool value => .bool value
  | string text => .text text
  | const name [] => .struct [("name", .text name)]
  | const name (arg :: args) =>
    .struct [("name", .text name), ("args", .list (listData (arg :: args)))]
  | ref index => .struct [("name", .null), ("value", .natural index)]

/-- Terms as data. -/
def listData : List Term → List Data
  | [] => []
  | term :: terms => toData term :: listData terms

end

end Term

/-- A fact as data. -/
def Fact.toData (fact : Fact) : Data :=
  .struct [
    ("name", .text fact.name),
    ("args", .list (Term.listData fact.args)),
    ("value", fact.value.toData)]

/-- Facts as data. -/
def Fact.listData (facts : List Fact) : Data := .list (facts.map Fact.toData)

/-- Statistics as data. -/
def Stats.toData (stats : Stats) : Data :=
  .struct [
    ("cycles", .natural stats.cycles),
    ("dead_ends", .natural stats.deadEnds),
    ("solutions", .natural stats.solutions),
    ("branches", .natural stats.branches)]

/-- A report as data. -/
def Report.toData (report : Report) : Data :=
  .struct [
    ("solution", (report.solution.map Fact.listData).getD .null),
    ("exhausted", .bool report.exhausted),
    ("stats", report.stats.toData)]

end StableModels
