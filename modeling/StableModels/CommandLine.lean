import StableModels.ProgramFile
import StableModels.Report.Format

/-!
# The command line

The command loads one program and prints its models, one line of facts for each. What it prints
and how it ends is a function of its arguments and of the contents of the file.
-/

namespace StableModels

namespace CommandLine

/-- What the arguments ask for. -/
structure Options where
  /-- The program file. -/
  program : Option String := none
  /-- The seed of the search. -/
  seed : UInt64 := 0
  /-- How many models are wanted at most. -/
  limit : Option Nat := none
  /-- The budget of each step. -/
  budget : Nat := 1024
  /-- Whether budgets are drawn at random. -/
  jitter : Bool := false
  /-- Whether statistics are shown. -/
  stats : Bool := false
  /-- Whether the search is traced. -/
  trace : Bool := false
  /-- Whether the arguments ask for help. -/
  help : Bool := false
  /-- Whether the arguments ask for the version. -/
  version : Bool := false

/-- Why the command fails. -/
inductive Failure where
  /-- A flag that needs a value is the last argument. -/
  | valueMissing (flag : String)
  /-- The value of a flag is not a number that fits in a word. -/
  | valueInvalid (flag value : String)
  /-- There is no such option. -/
  | unknownOption (argument : String)
  /-- There is more than one program. -/
  | secondProgram
  /-- There is no program. -/
  | noProgram
  /-- A fault of the program or its file. -/
  | fault (fault : Fault)

/-- The failure in words. -/
def Failure.message : Failure → String
  | valueMissing flag => flag ++ " requires a value"
  | valueInvalid flag value => "invalid " ++ flag ++ " value: " ++ value
  | unknownOption argument => "unknown option: " ++ argument
  | secondProgram => "only one program may be given"
  | noProgram => "no program given (see --help)"
  | fault reason => reason.message

/-! ### Arguments -/

/-- What is left without a plus sign in front. -/
def unsigned : List Char → List Char
  | '+' :: digits => digits
  | digits => digits

/-- The number that decimal digits denote after an optional plus sign, if it fits in a word. -/
def word? (text : String) : Option Nat :=
  let digits := unsigned text.toList
  if digits.isEmpty || !digits.all Char.isDigit then none
  else
    let value := digits.foldl (fun value digit => 10 * value + (digit.toNat - '0'.toNat)) 0
    if value ≤ Data.wordBound then some value else none

/-- The flags that are followed by a number, each with what the number changes. -/
def numberFlag? : String → Option (Nat → Options → Options)
  | "--seed" => some fun value options => { options with seed := UInt64.ofNat value }
  | "--limit" => some fun value options => { options with limit := some value }
  | "--budget" => some fun value options => { options with budget := value }
  | _ => none

/-- The flags that stand alone, each with what it changes. -/
def plainFlag? : String → Option (Options → Options)
  | "-h" | "--help" => some fun options => { options with help := true }
  | "-V" | "--version" => some fun options => { options with version := true }
  | "--stats" => some fun options => { options with stats := true }
  | "--trace" => some fun options => { options with trace := true }
  | "--jitter" => some fun options => { options with jitter := true }
  | _ => none

/-- An argument that is no flag: the program, unless there is one already. -/
def takePath (argument : String) (options : Options) : Except Failure Options :=
  if argument.startsWith "-" then .error (.unknownOption argument)
  else if options.program.isSome then .error .secondProgram
  else .ok { options with program := some argument }

/-- Reads arguments from left to right. -/
def parse : List String → Options → Except Failure Options
  | [], options => .ok options
  | [argument], options =>
    match plainFlag? argument, numberFlag? argument with
    | some change, _ => .ok (change options)
    | none, some _ => .error (.valueMissing argument)
    | none, none => takePath argument options
  | argument :: value :: rest, options =>
    match plainFlag? argument, numberFlag? argument with
    | some change, _ => parse (value :: rest) (change options)
    | none, some change =>
      match word? value with
      | none => .error (.valueInvalid argument value)
      | some number => parse rest (change number options)
    | none, none =>
      match takePath argument options with
      | .error failure => .error failure
      | .ok options => parse (value :: rest) options

/-! ### Output -/

/-- The text that explains the command. -/
def help : String :=
"choicelog - Enumerate the stable models of a compiled program

USAGE:
    choicelog [OPTIONS] PROGRAM

ARGUMENTS:
    PROGRAM          Compiled program (.json or .msgpack)

OPTIONS:
    -h, --help       Print help information
    -V, --version    Print version information
    --seed N         Seed for branch priorities (default 0)
    --limit N        Stop after N solutions
    --budget N       Cycles per step (default 1024)
    --jitter         Randomize each step's budget within [N/2, N]
    --stats          Print search statistics to stderr
    --trace          Log solver events to stderr (filter with RUST_LOG)

OUTPUT:
    One JSON array of facts per solution, one solution per line.
"

/-- The text that tells the version. -/
def version : String := "choicelog 0.1.0\n"

/-- The line of a model. -/
def line (facts : List Fact) : String := Json.print (Fact.listData facts) ++ "\n"

/-- The line of the statistics. -/
def statsLine (search : Search) : String :=
  "cycles: " ++ toString search.stats.cycles
    ++ "  solutions: " ++ toString search.stats.solutions
    ++ "  branches: " ++ toString search.stats.branches
    ++ "  dead ends: " ++ toString search.stats.deadEnds
    ++ "  exhausted: " ++ toString search.isExhausted ++ "\n"

/-- What the command prints and how it ends. -/
structure Outcome where
  /-- What it prints as its result. -/
  output : String := ""
  /-- What it remarks on the side. -/
  remarks : String := ""
  /-- Why it failed, if it did. -/
  failure : Option Failure := none

/-- What is printed on the side: the remarks, and the failure on a line of its own. -/
def Outcome.diagnostics (outcome : Outcome) : String :=
  match outcome.failure with
  | none => outcome.remarks
  | some failure => outcome.remarks ++ "error: " ++ failure.message ++ "\n"

/-- The code with which the command ends. -/
def Outcome.exitCode (outcome : Outcome) : Nat := if outcome.failure.isSome then 1 else 0

/-! ### Running -/

/-- What a run of the search printed, whether it failed, and where it came to. -/
structure Run where
  /-- The lines printed, the last first. -/
  lines : List String
  /-- The fault that ended the run. -/
  fault : Option Fault
  /-- The search afterwards. -/
  search : Search

/-- Prints models until the limit is reached or no work is left; none if `rounds` steps do not
suffice for that. -/
def printModels (limit : Option Nat) (budget : Nat) : Nat → List String → Search → Option Run
  | 0, _, _ => none
  | rounds + 1, lines, search =>
    if limit.any fun limit => limit ≤ lines.length then some ⟨lines, none, search⟩
    else
      match search.advance budget with
      | (.error fault, search) => some ⟨lines, some fault, search⟩
      | (.ok report, search) =>
        let lines := match report.solution with
          | some facts => line facts :: lines
          | none => lines
        if report.exhausted then some ⟨lines, none, search⟩
        else printModels limit budget rounds lines search

/-- What is printed of a run of the search. -/
def Run.outcome (options : Options) (run : Run) : Outcome :=
  let output := String.join run.lines.reverse
  match run.fault with
  | some fault => { output := output, failure := some (.fault fault) }
  | none => { output := output, remarks := if options.stats then statsLine run.search else "" }

/-- Does what the options ask for, with `contents` for the contents of files. -/
def perform (rounds : Nat) (contents : String → Except FileProblem (List UInt8))
    (options : Options) : Option Outcome :=
  if options.help then some { output := help }
  else if options.version then some { output := version }
  else
    match options.program with
    | none => some { failure := some .noProgram }
    | some path =>
      match ProgramFile.load contents path with
      | .error fault => some { failure := some (.fault fault) }
      | .ok program =>
        match Search.start program ⟨options.seed, options.jitter⟩ with
        | .error fault => some { failure := some (.fault fault) }
        | .ok search =>
          (printModels options.limit options.budget rounds [] search).map (Run.outcome options)

/-- So many steps of the search that no machine gets to their end. -/
def patience : Nat := 0x10000000000000000

/-- Does what the arguments ask for; none if `rounds` steps of the search do not suffice. -/
def run (rounds : Nat) (contents : String → Except FileProblem (List UInt8))
    (arguments : List String) : Option Outcome :=
  match parse arguments {} with
  | .error failure => some { failure := some failure }
  | .ok options => perform rounds contents options

end CommandLine

end StableModels
