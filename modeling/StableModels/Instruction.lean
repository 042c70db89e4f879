import StableModels.Pattern

/-!
# Instructions

The built-in predicates of a program are lists of instructions for a machine with a stack of
operands, which shares the slots of the rule that runs it. An instruction pops its operands
and pushes its result. A **guard** that does not hold, or an operation whose operands are not
of the right kind, ends the run quietly and without an outcome.
-/

namespace StableModels

/-- One part of the template by which a string is split. -/
inductive SplitPart where
  /-- Text that stands there. -/
  | literal (text : String)
  /-- A piece, by the slot that holds or receives its text. -/
  | piece (slot : Nat)
  deriving DecidableEq, Repr

/-- One instruction of the machine. -/
inductive Instruction where
  /-- Pushes a ground term. -/
  | const (value : Pattern)
  /-- Pushes the term bound to a slot. -/
  | load (slot : Nat)
  /-- Pops a term and binds it to a slot; a guard if the slot is bound. -/
  | store (slot : Nat)
  /-- Pops two terms; a guard that they are equal. -/
  | equal
  /-- Pops two terms; a guard that they differ. -/
  | notEqual
  /-- Pops two integers; a guard that the lower one is greater. -/
  | gt
  /-- Pops two integers; a guard that the lower one is greater or equal. -/
  | geq
  /-- Pops two integers; a guard that the lower one is less. -/
  | lt
  /-- Pops two integers; a guard that the lower one is less or equal. -/
  | leq
  /-- The sum of integers. -/
  | plus (arity : Nat)
  /-- The difference of two integers. -/
  | minus
  /-- The product of integers. -/
  | times (arity : Nat)
  /-- Pushes true. -/
  | boolTrue
  /-- Pushes false. -/
  | boolFalse
  /-- Pushes the number zero. -/
  | natZero
  /-- The successor of a natural number. -/
  | natSucc
  /-- The predecessor of a positive natural number. -/
  | natPred
  /-- A constructor applied to terms. -/
  | build (name : String) (arity : Nat)
  /-- The concatenation of strings. -/
  | concat (arity : Nat)
  /-- Pops a string and splits it by a template, once for each way to do so. -/
  | split (parts : List SplitPart)
  /-- A guard that never holds. -/
  | fail
  deriving Repr

namespace SplitPart

/-- The slot of a piece. -/
def slot? : SplitPart → Option Nat
  | literal _ => none
  | piece slot => some slot

end SplitPart

namespace Instruction

/-- The slot that has to be bound for the instruction to run. -/
def reads : Instruction → Option Nat
  | load slot => some slot
  | _ => none

/-- The slots that are bound after the instruction. -/
def binds : Instruction → List Nat
  | store slot => [slot]
  | split parts => parts.filterMap SplitPart.slot?
  | _ => []

/-- How many operands the instruction pops. -/
def pops : Instruction → Nat
  | const _ | load _ | boolTrue | boolFalse | natZero | fail => 0
  | store _ | split _ | natSucc | natPred => 1
  | equal | notEqual | gt | geq | lt | leq | minus => 2
  | plus arity | times arity | build _ arity | concat arity => arity

/-- How many operands the instruction pushes. -/
def pushes : Instruction → Nat
  | const _ | load _ | boolTrue | boolFalse | natZero | natSucc | natPred | minus
  | plus _ | times _ | build .. | concat _ => 1
  | store _ | split _ | equal | notEqual | gt | geq | lt | leq | fail => 0

/-- The pattern that the instruction pushes. -/
def constant? : Instruction → Option Pattern
  | const value => some value
  | _ => none

end Instruction

end StableModels
