import StableModels.CommandLine

/-!
# The command

Reads the file that the arguments name, if they name one, and prints what the command line
makes of both.
-/

namespace StableModels

/-- The number of a system error, which may come with its sign turned. -/
def systemCode (code : UInt32) : UInt32 := if code < 0x80000000 then code else 0 - code

/-- Why a file could not be read, in words. -/
def readProblem : IO.Error → FileProblem
  | .noFileOrDirectory .. => FileProblem.missing
  | .inappropriateType _ code details =>
    if systemCode code = 20 then FileProblem.notDirectory
    else if systemCode code = 21 then FileProblem.isDirectory
    else details
  | .invalidArgument _ code details =>
    if systemCode code = 36 then FileProblem.tooLong
    else if systemCode code = 22 then FileProblem.nulInside
    else details
  | problem => toString problem

/-- The contents of a file. -/
def readContents (path : String) : IO (Except FileProblem (List UInt8)) := do
  try
    let bytes ← IO.FS.readBinFile path
    pure (.ok bytes.data.toList)
  catch problem =>
    pure (.error (readProblem problem))

/-- The contents of the file that the arguments name; no file is needed if they name none. -/
def contentsFor (arguments : List String) : IO (Except FileProblem (List UInt8)) :=
  match CommandLine.parse arguments {} with
  | .ok { program := some path, .. } => readContents path
  | _ => pure (.error "")

end StableModels

open StableModels in
/-- The command. -/
def main (arguments : List String) : IO UInt32 := do
  let contents ← contentsFor arguments
  match CommandLine.run CommandLine.patience (fun _ => contents) arguments with
  | none => pure 1
  | some outcome =>
    (← IO.getStdout).putStr outcome.output
    (← IO.getStderr).putStr outcome.diagnostics
    pure (UInt32.ofNat outcome.exitCode)
