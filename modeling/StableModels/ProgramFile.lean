import StableModels.Data.Json.Printer
import StableModels.Data.Json.Reader
import StableModels.Data.MessagePack.Reader
import StableModels.Data.MessagePack.Writer
import StableModels.Fault
import StableModels.Program.Format

/-!
# Program files

A program is stored as JSON or as MessagePack, and the extension of the file tells which. The
extension is looked at before the file is.
-/

namespace StableModels

/-- The formats in which programs are stored. -/
inductive ProgramFormat where
  /-- Text. -/
  | json
  /-- Bytes. -/
  | messagePack
  deriving DecidableEq, Repr

/-- The reason for which a file could not be read or written, in words. -/
abbrev FileProblem := String

namespace FileProblem

/-- What is said of a path that leads nowhere. -/
def missing : FileProblem := "No such file or directory (os error 2)"

/-- What is said of a path that leads through a file. -/
def notDirectory : FileProblem := "Not a directory (os error 20)"

/-- What is said of a path that leads to a directory. -/
def isDirectory : FileProblem := "Is a directory (os error 21)"

/-- What is said of a path that is too long or has too long a name in it. -/
def tooLong : FileProblem := "File name too long (os error 36)"

/-- What is said of a path that no file system can have. -/
def nulInside : FileProblem := "file name contained an unexpected NUL byte"

end FileProblem

/-! ### Texts and bytes -/

namespace Program

/-- Reads a program from the symbols of a text. -/
def ofSymbols? (text : List Json.Symbol) : Option Program :=
  (Json.readStruct? memberNames text).bind (ofData? .byText)

/-- Reads a program from a text. -/
def ofText? (text : String) : Option Program := ofSymbols? (Json.symbols text)

/-- Reads a program from bytes in MessagePack. -/
def ofBytes? (bytes : List UInt8) : Option Program :=
  (MessagePack.read? bytes).bind (ofData? .byAnyNumber)

/-- The text of a program in the compact form. -/
def toText (program : Program) : String := Json.print program.toData

/-- The text of a program in the spread form. -/
def toSpreadText (program : Program) : String := Json.printSpread program.toData

/-- The bytes of a program in MessagePack. -/
def toBytes (program : Program) : List UInt8 := MessagePack.write program.toData

end Program

/-! ### Extensions -/

namespace ProgramFile

/-- The last name of a path. Empty names and dots on the way do not count. -/
def fileName? (path : String) : Option String :=
  match ((path.splitOn "/").filter fun name => name != "" && name != ".").getLast? with
  | some ".." => none
  | name => name

/-- What follows the last dot of a name, if there is something before it. -/
def extension? (name : String) : Option String :=
  match name.splitOn "." with
  | [] | [_] | ["", _] => none
  | parts => parts.getLast?

end ProgramFile

/-- The format of a file. -/
def ProgramFormat.of? (path : String) : Option ProgramFormat :=
  match (ProgramFile.fileName? path).bind ProgramFile.extension? with
  | some "json" => some .json
  | some "msgpack" | some "mp" => some .messagePack
  | _ => none

/-- Reads a program in a format. -/
def ProgramFormat.read? : ProgramFormat → List UInt8 → Option Program
  | json, bytes => Program.ofSymbols? (Json.symbolsOfBytes bytes)
  | messagePack, bytes => Program.ofBytes? bytes

/-- Writes a program in a format. -/
def ProgramFormat.write : ProgramFormat → Program → List UInt8
  | json, program => Data.utf8 program.toSpreadText
  | messagePack, program => program.toBytes

namespace ProgramFile

/-! ### Loading and saving -/

/-- Loads a program, with `contents` for the contents of files. -/
def load (contents : String → Except FileProblem (List UInt8)) (path : String) :
    Except Fault Program :=
  match ProgramFormat.of? path with
  | none => .error (Cause.unknownFormat path)
  | some format =>
    match contents path with
    | .error problem => .error (Cause.unreadable path problem)
    | .ok bytes =>
      match format.read? bytes with
      | none => .error Cause.undecodable
      | some program => .ok program

/-- Saves a program, with `put` for the writing of files. -/
def save {σ : Type} (put : String → List UInt8 → Except FileProblem σ) (program : Program)
    (path : String) : Except Fault σ :=
  match ProgramFormat.of? path with
  | none => .error (Cause.unknownFormat path)
  | some format =>
    match put path (format.write program) with
    | .error problem => .error (Cause.unwritable path problem)
    | .ok done => .ok done

end ProgramFile

end StableModels
