/-!
# Faults

Not every disappointment is a fault. A violated constraint, a guard that does not hold or a
match that fails is an ordinary outcome of the search and never reaches this module. A fault
is a genuine mistake: of the program, of the host that drives the solver, or of the bytes the
program was read from.

A fault is told by its **cause**. The kind of a cause, its wording and whether it is fatal
are functions of the cause, so two faults are equal exactly when the same thing went wrong at
the same place.
-/

namespace StableModels

/-- The five kinds of fault. -/
inductive FaultKind where
  /-- A storage invariant would be broken. -/
  | invariant
  /-- The program itself is wrong. -/
  | malformed
  /-- The host broke the worker protocol. -/
  | protocol
  /-- A value could not be decoded. -/
  | serialization
  /-- A file could not be read or written. -/
  | io
  deriving DecidableEq, Repr

/-- The kinds in order. -/
def FaultKind.all : List FaultKind := [.invariant, .malformed, .protocol, .serialization, .io]

/-- The name of a kind. -/
def FaultKind.name : FaultKind → String
  | .invariant => "invariant"
  | .malformed => "malformed"
  | .protocol => "protocol"
  | .serialization => "serialization"
  | .io => "io"

/-- The kind with a name. -/
def FaultKind.ofName? (name : String) : Option FaultKind := all.find? fun kind => kind.name == name

/-- The words that open the text of a fault of this kind. -/
def FaultKind.heading : FaultKind → String
  | .invariant => "invariant violated"
  | .malformed => "malformed program"
  | .protocol => "protocol error"
  | .serialization => "serialization error"
  | .io => "i/o error"

/-- Everything that can go wrong. -/
inductive Cause where
  /-- A key of `length` handles ends after `position` of them, at a node with children. -/
  | keyEndsInside (position length : Nat)
  /-- A key of `length` handles runs into a leaf after `position` of them. -/
  | keyPassesLeaf (position length : Nat)
  /-- A variable where a ground term is required. -/
  | variableInGround (slot : Nat)
  /-- A wildcard where a ground term is required. -/
  | wildcardInGround
  /-- A pattern is instantiated before one of its slots is bound. -/
  | slotUnbound (slot : Nat)
  /-- A wildcard is instantiated. -/
  | wildcardInstantiated
  /-- The machine loads a slot that nothing has bound. -/
  | loadUnbound (slot position : Nat)
  /-- The machine pops more operands than there are. -/
  | stackUnderflow (position : Nat)
  /-- A join shares more positions than it binds or matches. -/
  | joinOverlap (shared binds matched : Nat)
  /-- A shared position of a join premise is not the variable it is shared with. -/
  | joinPosition (position slot : Nat)
  /-- An instruction pushes a constant that is not ground. -/
  | constantNotGround (position : Nat)
  /-- An instruction loads a slot that no earlier instruction binds. -/
  | instructionUnbound (position slot : Nat)
  /-- A conclusion holds a wildcard. -/
  | conclusionWildcard (name : String)
  /-- A conclusion uses a slot that the body leaves unbound. -/
  | conclusionUnbound (name : String) (slot : Nat)
  /-- A request reached a worker that has terminated. -/
  | workerTerminated
  /-- The first request was not a program. -/
  | loadExpected
  /-- A second program was sent. -/
  | alreadyLoaded
  /-- Text or bytes that do not decode. -/
  | undecodable
  /-- A path whose extension names no program format. -/
  | unknownFormat (path : String)
  /-- A program file that could not be read. -/
  | unreadable (path reason : String)
  /-- A program file that could not be written. -/
  | unwritable (path reason : String)
  /-- A fault that a host states in its own words. -/
  | stated (kind : FaultKind) (text : String)
  deriving DecidableEq, Repr

namespace Cause

/-- The kind of fault a cause makes. -/
def kind : Cause → FaultKind
  | keyEndsInside .. | keyPassesLeaf .. => .invariant
  | variableInGround _ | wildcardInGround | slotUnbound _ | wildcardInstantiated
  | loadUnbound .. | stackUnderflow _ | joinOverlap .. | joinPosition .. | constantNotGround _
  | instructionUnbound .. | conclusionWildcard _ | conclusionUnbound .. => .malformed
  | workerTerminated | loadExpected | alreadyLoaded => .protocol
  | undecodable | unknownFormat _ => .serialization
  | unreadable .. | unwritable .. => .io
  | stated kind _ => kind

/-- What went wrong, in words. -/
def text : Cause → String
  | keyEndsInside position length =>
      s!"terminal position {position} of a {length}-key insert still has children"
  | keyPassesLeaf position length =>
      s!"terminal node reached at position {position} of a {length}-key insert"
  | variableInGround slot => s!"variable in slot {slot} where a ground term is required"
  | wildcardInGround => "wildcard where a ground term is required"
  | slotUnbound slot => s!"slot {slot} is used before it is bound"
  | wildcardInstantiated => "wildcard cannot be instantiated"
  | loadUnbound slot position => s!"load of unbound slot {slot} at {position}"
  | stackUnderflow position => s!"stack underflow at instruction {position}"
  | joinOverlap shared binds matched =>
      s!"join shares {shared} positions but binds {binds} and matches {matched}"
  | joinPosition position slot => s!"join premise position {position} must be slot {slot}"
  | constantNotGround position => s!"constant at instruction {position} is not ground"
  | instructionUnbound position slot => s!"instruction {position} loads unbound slot {slot}"
  | conclusionWildcard name => s!"conclusion {name} contains a wildcard"
  | conclusionUnbound name slot => s!"conclusion {name} uses unbound slot {slot}"
  | workerTerminated => "worker has terminated"
  | loadExpected => "expected load as the first request"
  | alreadyLoaded => "program already loaded"
  | undecodable => "the value does not decode"
  | unknownFormat path =>
      s!"unknown program format for '{path}': expected .json or .msgpack"
  | unreadable path reason => s!"failed to read file '{path}': {reason}"
  | unwritable path reason => s!"failed to write file '{path}': {reason}"
  | stated _ text => text

end Cause

/-- Where a fault arose: the place it is about, and the frames it passed through, innermost
first. -/
structure FaultContext where
  /-- The place the fault is about. -/
  place : Option String := none
  /-- What was being done. -/
  frames : List String := []
  deriving DecidableEq, Repr

/-- The place on a line of its own, then one indented line for each frame. -/
def FaultContext.render (context : FaultContext) : String :=
  let place := match context.place with
    | some place => "at " ++ place
    | none => ""
  let frames := match context.frames with
    | [] => ""
    | frames => "\n" ++ String.join (frames.map fun frame => "  in " ++ frame ++ "\n")
  place ++ frames

/-- A fault: its cause, and where it arose if that is known. -/
structure Fault where
  /-- What went wrong. -/
  cause : Cause
  /-- Where it went wrong. -/
  context : Option FaultContext := none
  deriving DecidableEq, Repr

namespace Fault

instance : Coe Cause Fault := ⟨fun cause => ⟨cause, none⟩⟩

/-- The fault with a new context, which replaces any earlier one. -/
def within (fault : Fault) (context : FaultContext) : Fault :=
  { fault with context := some context }

/-- The kind of the fault. -/
def kind (fault : Fault) : FaultKind := fault.cause.kind

/-- The full text of the fault; the context is no part of it. -/
def message (fault : Fault) : String := fault.kind.heading ++ ": " ++ fault.cause.text

/-- A fault is fatal unless it is about decoding or about files: after those the host may
simply try again. -/
def isFatal (fault : Fault) : Bool :=
  match fault.kind with
  | .serialization | .io => false
  | .invariant | .malformed | .protocol => true

end Fault

end StableModels
