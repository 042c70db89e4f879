import StableModels.Data.Json.Number

/-!
# Reading JSON

A text is read in two passes. The **scanner** cuts it into tokens: a machine that takes one
character after the other and is always in one of a few modes. The **assembler** puts the tokens
together: a machine with a stack of the lists and records that are open. Both refuse what the
format does not allow, and the assembler also refuses to open more layers than it was told to.

A token may be well written and yet have no value: a number too great for floating point, or a
string in which half of a character stands alone or bytes stand that are no character. Such
tokens are refused where a value is wanted. The reader of a struct passes over the members of
the outermost record that the struct does not know. Of their values only the tokens are looked
at, whether these have values or not, and there may be any number of layers.
-/

namespace StableModels.Json

/-! ### Symbols -/

/-- What a text consists of: characters, and bytes that belong to no character. -/
abbrev Symbol := Option Char

/-- The symbols of a text. -/
def symbols (text : String) : List Symbol := text.toList.map some

/-- The character that bytes start with. -/
def char? (bytes : List UInt8) : Option Char := (bytes.take 4).toByteArray.utf8DecodeChar? 0

/-- The symbols of bytes, after so many bytes that are accounted for. -/
def symbolsAfter : Nat → List UInt8 → List Symbol
  | _, [] => []
  | skipped + 1, _ :: rest => symbolsAfter skipped rest
  | 0, byte :: rest =>
    match char? (byte :: rest) with
    | some char => some char :: symbolsAfter (char.utf8Size - 1) rest
    | none => none :: symbolsAfter 0 rest

/-- The symbols of bytes. -/
def symbolsOfBytes (bytes : List UInt8) : List Symbol :=
  match Data.utf8? bytes with
  | some text => symbols text
  | none => symbolsAfter 0 bytes

/-! ### Tokens -/

/-- A token. -/
inductive Token where
  /-- The start of a list. -/
  | openList
  /-- The end of a list. -/
  | closeList
  /-- The start of a record. -/
  | openRecord
  /-- The end of a record. -/
  | closeRecord
  /-- A comma. -/
  | comma
  /-- A colon. -/
  | colon
  /-- A string; no value if it is not text. -/
  | text (value : Option String)
  /-- A number, a truth value or the null value; no value for a number that is too great. -/
  | scalar (value : Option Data)

/-! ### The scanner -/

/-- The characters of a string so far, the last first; none once it cannot be text. -/
abbrev Draft := Option (List Char)

/-- What the scanner is in the middle of. Characters already read are kept, the last first. -/
inductive Mode where
  /-- Nothing. -/
  | between
  /-- A word. -/
  | word (read : List Char)
  /-- A number. -/
  | number (read : List Char)
  /-- A string. -/
  | text (read : Draft)
  /-- A string, after a backslash. -/
  | escape (read : Draft)
  /-- A string, in an escape by code with so many digits to go; `high` is the first half of a
  character outside the basic plane, of which the second half may be read now. -/
  | code (read : Draft) (high : Option Nat) (digits value : Nat)
  /-- A string, after the first half of a character outside the basic plane. -/
  | half (read : Draft) (high : Nat)
  /-- The same, after a backslash. -/
  | halfEscape (read : Draft) (high : Nat)

/-- The value of a hexadecimal digit. -/
def hexValue? (char : Char) : Option Nat :=
  if char.isDigit then some (char.toNat - '0'.toNat)
  else if 'a' ≤ char ∧ char ≤ 'f' then some (char.toNat - 'a'.toNat + 10)
  else if 'A' ≤ char ∧ char ≤ 'F' then some (char.toNat - 'A'.toNat + 10)
  else none

/-- The character that a short escape stands for. -/
def unescape? : Char → Option Char
  | '"' => some '"'
  | '\\' => some '\\'
  | '/' => some '/'
  | 'b' => some '\x08'
  | 'f' => some '\x0c'
  | 'n' => some '\n'
  | 'r' => some '\r'
  | 't' => some '\t'
  | _ => none

/-- The token of a word. -/
def word? (read : List Char) : Option Token :=
  if read = "true".toList then some (.scalar (some (.bool true)))
  else if read = "false".toList then some (.scalar (some (.bool false)))
  else if read = "null".toList then some (.scalar (some .null))
  else none

/-- Characters between tokens that mean nothing. -/
def isBlank (char : Char) : Bool := char = ' ' || char = '\n' || char = '\t' || char = '\r'

/-- Characters of which numbers consist. -/
def isNumeric (char : Char) : Bool :=
  char.isDigit || char = '-' || char = '+' || char = '.' || char = 'e' || char = 'E'

/-- Takes a character that does not belong to the token before it. -/
def start (char : Char) : Option (List Token × Mode) :=
  if isBlank char then some ([], .between)
  else if char = '[' then some ([.openList], .between)
  else if char = ']' then some ([.closeList], .between)
  else if char = '\x7b' then some ([.openRecord], .between)
  else if char = '\x7d' then some ([.closeRecord], .between)
  else if char = ',' then some ([.comma], .between)
  else if char = ':' then some ([.colon], .between)
  else if char = '"' then some ([], .text (some []))
  else if char.isDigit || char = '-' then some ([], .number [char])
  else if char.isLower then some ([], .word [char])
  else none

/-- Ends a token that has no mark at its end; none inside any other. -/
def finish : Mode → Option (List Token)
  | .between => some []
  | .word read => (word? read.reverse).map fun token => [token]
  | .number read => (number? read.reverse).map fun value => [.scalar value]
  | _ => none

/-- Ends the token before a character, and takes the character. -/
def restart (mode : Mode) (char : Char) : Option (List Token × Mode) := do
  let before ← finish mode
  let (tokens, mode) ← start char
  pure (before ++ tokens, mode)

/-- The mode after the last digit of an escape by code. -/
def decode (read : Draft) (high : Option Nat) (value : Nat) : Mode :=
  match high with
  | none =>
    if 0xd800 ≤ value ∧ value < 0xdc00 then .half read value
    else if 0xdc00 ≤ value ∧ value < 0xe000 then .text none
    else .text (read.map (Char.ofNat value :: ·))
  | some high =>
    if 0xdc00 ≤ value ∧ value < 0xe000 then
      let char := Char.ofNat (0x10000 + (high - 0xd800) * 0x400 + (value - 0xdc00))
      .text (read.map (char :: ·))
    else
      .text none

/-- Takes a character of a string. -/
def scanText (read : Draft) (char : Char) : Option (List Token × Mode) :=
  if char = '"' then some ([.text (read.map fun read => String.ofList read.reverse)], .between)
  else if char = '\\' then some ([], .escape read)
  else if char.toNat < 0x20 then none
  else some ([], .text (read.map (char :: ·)))

/-- Takes a character: the tokens that end with it, and the mode after it. -/
def scanChar : Mode → Char → Option (List Token × Mode)
  | .between, char => start char
  | .word read, char =>
    if char.isLower then some ([], .word (char :: read)) else restart (.word read) char
  | .number read, char =>
    if isNumeric char then some ([], .number (char :: read)) else restart (.number read) char
  | .text read, char => scanText read char
  | .escape read, char =>
    if char = 'u' then some ([], .code read none 4 0)
    else (unescape? char).map fun char => ([], .text (read.map (char :: ·)))
  | .code read high digits value, char => do
    let digit ← hexValue? char
    let value := 16 * value + digit
    if digits ≤ 1 then some ([], decode read high value)
    else some ([], .code read high (digits - 1) value)
  | .half read high, char =>
    if char = '\\' then some ([], .halfEscape read high) else scanText none char
  | .halfEscape read high, char =>
    if char = 'u' then some ([], .code read (some high) 4 0)
    else (unescape? char).map fun _ => ([], .text none)

/-- Takes a byte that belongs to no character, which may stand in a string alone. -/
def scanStray : Mode → Option Mode
  | .text _ | .half _ _ => some (.text none)
  | _ => none

/-- The place of the scanner in a text: the tokens so far, the last first, and the mode. -/
abbrev Scan := List Token × Mode

/-- Takes a symbol. -/
def Scan.advance (scan : Scan) : Symbol → Option Scan
  | some char => (scanChar scan.2 char).map fun found => (found.1.reverse ++ scan.1, found.2)
  | none => (scanStray scan.2).map fun mode => (scan.1, mode)

/-- The tokens of a text. -/
def tokens? (text : List Symbol) : Option (List Token) := do
  let scan ← text.foldlM Scan.advance ([], .between)
  let last ← finish scan.2
  pure ((last.reverse ++ scan.1).reverse)

/-! ### The assembler -/

/-- What a reader accepts, and what it wants. -/
structure Demand where
  /-- How many layers there may be, one inside the other. -/
  layers : Nat
  /-- Whether a member of the outermost record is wanted. -/
  wants : String → Bool

/-- A list or record that is open, with what it holds so far, the last first. -/
inductive Layer where
  /-- A list. -/
  | list (items : List Data)
  /-- A record. -/
  | record (members : List (Data × Data))
  /-- A record after a key. -/
  | member (members : List (Data × Data)) (key : String)
  /-- A record after a key that is not wanted. -/
  | unwanted (members : List (Data × Data))
  /-- A list that is passed over. -/
  | passedList
  /-- A record that is passed over. -/
  | passedRecord

/-- The next value is passed over. -/
def Layer.isPassing : Layer → Bool
  | unwanted _ | passedList | passedRecord => true
  | _ => false

/-- What has to come next. -/
inductive Want where
  /-- A value. -/
  | value
  /-- A value, or the end of the list. -/
  | valueOrEnd
  /-- A key. -/
  | key
  /-- A key, or the end of the record. -/
  | keyOrEnd
  /-- The colon after a key. -/
  | colon
  /-- A comma, or the end of the list or record. -/
  | separator
  deriving DecidableEq

/-- The state of the assembler. -/
inductive Assembly where
  /-- The layers that are open, the innermost first, and what has to come next. -/
  | building (layers : List Layer) (want : Want)
  /-- All is there. -/
  | finished (value : Data)

namespace Assembly

/-- Goes on after a value that was passed over. -/
def pass : List Layer → Option Assembly
  | .unwanted members :: layers => some (.building (.record members :: layers) .separator)
  | .passedList :: layers => some (.building (.passedList :: layers) .separator)
  | .passedRecord :: layers => some (.building (.passedRecord :: layers) .separator)
  | _ => none

/-- Puts a value that is complete into its place. -/
def put (value : Data) : List Layer → Option Assembly
  | [] => some (.finished value)
  | .list items :: layers => some (.building (.list (value :: items) :: layers) .separator)
  | .member members key :: layers =>
    some (.building (.record ((.text key, value) :: members) :: layers) .separator)
  | layers => pass layers

/-- Puts a value into its place, if there is one or none is wanted. -/
def put? : Option Data → List Layer → Option Assembly
  | some value, layers => put value layers
  | none, layers => pass layers

/-- The next value is passed over. -/
def isPassing (layers : List Layer) : Bool := layers.head?.any Layer.isPassing

/-- Opens a layer, if there may be one more; `passed` is what it is if it is passed over. -/
def deepen (limit : Nat) (layer passed : Layer) (want : Want) (layers : List Layer) :
    Option Assembly :=
  if isPassing layers then some (.building (passed :: layers) want)
  else if layers.length < limit then some (.building (layer :: layers) want)
  else none

/-- Takes a token where a value may stand. -/
def takeValue (limit : Nat) (layers : List Layer) : Token → Option Assembly
  | .scalar value => put? value layers
  | .text value => put? (value.map .text) layers
  | .openList => deepen limit (.list []) .passedList .valueOrEnd layers
  | .openRecord => deepen limit (.record []) .passedRecord .keyOrEnd layers
  | _ => none

/-- Closes the innermost layer. -/
def close : Token → List Layer → Option Assembly
  | .closeList, .list items :: layers => put (.list items.reverse) layers
  | .closeRecord, .record members :: layers => put (.record members.reverse) layers
  | .closeList, .passedList :: layers => pass layers
  | .closeRecord, .passedRecord :: layers => pass layers
  | _, _ => none

/-- Takes a key. -/
def takeKey (wants : String → Bool) : Token → List Layer → Option Assembly
  | .text (some key), .record members :: layers =>
    if layers.isEmpty && !wants key then some (.building (.unwanted members :: layers) .colon)
    else some (.building (.member members key :: layers) .colon)
  | .text _, .passedRecord :: layers => some (.building (.passedRecord :: layers) .colon)
  | _, _ => none

/-- Goes on after a comma. -/
def proceed : List Layer → Option Assembly
  | .list items :: layers => some (.building (.list items :: layers) .value)
  | .record members :: layers => some (.building (.record members :: layers) .key)
  | .passedList :: layers => some (.building (.passedList :: layers) .value)
  | .passedRecord :: layers => some (.building (.passedRecord :: layers) .key)
  | _ => none

/-- Takes a token. -/
def take (demand : Demand) : Assembly → Token → Option Assembly
  | .finished _, _ => none
  | .building layers .value, token => takeValue demand.layers layers token
  | .building layers .valueOrEnd, .closeList => close .closeList layers
  | .building layers .valueOrEnd, token => takeValue demand.layers layers token
  | .building layers .keyOrEnd, .closeRecord => close .closeRecord layers
  | .building layers .keyOrEnd, token => takeKey demand.wants token layers
  | .building layers .key, token => takeKey demand.wants token layers
  | .building layers .colon, .colon => some (.building layers .value)
  | .building _ .colon, _ => none
  | .building layers .separator, .comma => proceed layers
  | .building layers .separator, token => close token layers

end Assembly

/-- The data that tokens make up. -/
def assemble? (demand : Demand) (tokens : List Token) : Option Data :=
  match tokens.foldlM (Assembly.take demand) (.building [] .value) with
  | some (.finished value) => some value
  | _ => none

/-! ### Texts -/

/-- Reads symbols. -/
def readSymbols? (demand : Demand) (text : List Symbol) : Option Data := do
  let tokens ← tokens? text
  assemble? demand tokens

/-- How many layers a text may have one inside the other. -/
def nestingLimit : Nat := 127

/-- Reads a text with at most `limit` layers. -/
def readWithin? (limit : Nat) (text : String) : Option Data :=
  readSymbols? ⟨limit, fun _ => true⟩ (symbols text)

/-- Reads a text. -/
def read? (text : String) : Option Data := readWithin? nestingLimit text

/-- Reads symbols for a struct with these names of members. -/
def readStruct? (names : List String) (text : List Symbol) : Option Data :=
  readSymbols? ⟨nestingLimit, fun name => names.contains name⟩ text

end StableModels.Json
