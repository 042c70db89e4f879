import StableModels.Fault
import StableModels.Program

/-!
# Valid programs

A program is valid if in each of its rules every slot is bound before it is read: by the
premise, by the arguments of the intermediate, or by an earlier instruction. A rule that fires
on failure concludes from the arguments of its intermediate alone. Moreover code never pops more
operands than it has pushed, and no conclusion holds a wildcard.

Validation names the first offence of the first rule that has one.
-/

namespace StableModels

namespace Rule

/-- The condition holds, or there is this fault. -/
def require (holds : Bool) (cause : Cause) : Except Fault Unit :=
  if holds then .ok () else .error ⟨cause, none⟩

/-- The arguments of a premise from `position` on are the variables of these slots, as far as
both lists go. -/
def checkShared : Nat → List Nat → List Pattern → Except Fault Unit
  | position, slot :: slots, .var other :: args =>
    if other = slot then checkShared (position + 1) slots args
    else .error ⟨.joinPosition position slot, none⟩
  | position, slot :: _, _ :: _ => .error ⟨.joinPosition position slot, none⟩
  | _, [], _ | _, _ :: _, [] => .ok ()

/-- Code that starts at `position` with `depth` operands and these slots bound binds what it
reads and pops what it pushes; the slots that are bound at its end. -/
def checkCode : List Instruction → Nat → Nat → List Nat → Except Fault (List Nat)
  | [], _, _, bound => .ok bound
  | instruction :: code, position, depth, bound => do
    require (instruction.constant?.all Pattern.isGround) (.constantNotGround position)
    match instruction.reads with
    | some slot => require (bound.contains slot) (.instructionUnbound position slot)
    | none => pure ()
    require (instruction.pops ≤ depth) (.stackUnderflow position)
    checkCode code (position + 1) (depth - instruction.pops + instruction.pushes)
      (bound ++ instruction.binds)

/-- The slots that the body binds for the conclusion, if the body is sound. -/
def checkBody : Rule → Except Fault (List Nat)
  | unary premise _ => .ok premise.slots
  | join _ vars shared premise _ => do
    require (shared ≤ vars.length && shared ≤ premise.args.length)
      (.joinOverlap shared vars.length premise.args.length)
    checkShared 0 (vars.take shared) premise.args
    pure (vars ++ premise.slots)
  | run _ vars instructions _ => checkCode instructions 0 0 vars
  | runForFailure _ vars instructions _ => do
    let _ ← checkCode instructions 0 0 vars
    pure vars

/-- The patterns of a conclusion are free of wildcards and use bound slots only. -/
def checkPatterns (name : String) (bound : List Nat) : List Pattern → Except Fault Unit
  | [] => .ok ()
  | pattern :: patterns => do
    require (!pattern.hasWildcard) (.conclusionWildcard name)
    match pattern.slots.find? fun slot => !bound.contains slot with
    | some slot => .error ⟨.conclusionUnbound name slot, none⟩
    | none => checkPatterns name bound patterns

/-- The rule is valid. -/
def validate (rule : Rule) : Except Fault Unit := do
  let bound ← rule.checkBody
  checkPatterns rule.conclusion.name bound rule.conclusion.patterns

end Rule

namespace Program

/-- The rules from `index` on are valid; a fault tells which of them is not. -/
def validateFrom : Nat → List Rule → Except Fault Unit
  | _, [] => .ok ()
  | index, rule :: rules =>
    match rule.validate with
    | .ok () => validateFrom (index + 1) rules
    | .error fault => .error (fault.within ⟨none, ["rule " ++ toString index]⟩)

/-- The program is valid. -/
def validate (program : Program) : Except Fault Unit := validateFrom 0 program.rules

end Program

end StableModels
