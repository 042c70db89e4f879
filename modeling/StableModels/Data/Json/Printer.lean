import StableModels.Data

/-!
# Printing data as JSON

Data are printed compactly, or spread over lines with an indentation of two spaces for each
layer; a list or record without members is closed at once in either form. Only what the format
cannot hold raw inside a string is escaped there: quotes, backslashes and control characters.

The format has no bytes and its keys are text. Data read from it or made to be printed in it
keep to that; other data are printed as the nearest thing there is.
-/

namespace StableModels.Json

/-- A hexadecimal digit, in lower case. -/
def hexDigit (value : Nat) : Char := Nat.digitChar (value % 16)

/-- A character inside a string. -/
def escapeChar (char : Char) : List Char :=
  match char with
  | '"' => ['\\', '"']
  | '\\' => ['\\', '\\']
  | '\x08' => ['\\', 'b']
  | '\x0c' => ['\\', 'f']
  | '\n' => ['\\', 'n']
  | '\r' => ['\\', 'r']
  | '\t' => ['\\', 't']
  | char =>
    if char.toNat < 0x20 then
      ['\\', 'u', '0', '0', hexDigit (char.toNat / 16), hexDigit char.toNat]
    else
      [char]

/-- Text as a string. -/
def printText (text : List Char) : List Char := '"' :: text.flatMap escapeChar ++ ['"']

/-- The decimal digits of a number. -/
def printNatural (value : Nat) : List Char := Nat.toDigits 10 value

/-- An integer in decimal. -/
def printInteger (value : Int) : List Char :=
  if value < 0 then '-' :: printNatural value.natAbs else printNatural value.natAbs

/-- Data without layers. -/
def printScalar : Data → List Char
  | .bool true => "true".toList
  | .bool false => "false".toList
  | .natural value | .padded _ value => printNatural value
  | .integer value => printInteger value
  | .real value => (toString value).toList
  | .text value => printText value.toList
  | _ => "null".toList

/-- A key. -/
def printKey : Data → List Char
  | .text key => printText key.toList
  | key => printText (printScalar key)

/-! ### Compact form -/

mutual

/-- Data in the compact form. -/
def compact : Data → List Char
  | .list items => '[' :: compactItems items ++ [']']
  | .record members => '\x7b' :: compactMembers members ++ ['\x7d']
  | scalar => printScalar scalar

/-- Items with commas between them. -/
def compactItems : List Data → List Char
  | [] => []
  | [item] => compact item
  | item :: next :: items => compact item ++ ',' :: compactItems (next :: items)

/-- Members with commas between them. -/
def compactMembers : List (Data × Data) → List Char
  | [] => []
  | [(key, value)] => printKey key ++ ':' :: compact value
  | (key, value) :: next :: members =>
    printKey key ++ ':' :: compact value ++ ',' :: compactMembers (next :: members)

end

/-! ### Spread form -/

/-- A new line with an indentation of so many layers. -/
def newLine (layers : Nat) : List Char := '\n' :: List.replicate (2 * layers) ' '

mutual

/-- Data spread over lines, `layers` deep inside other data. -/
def spread (layers : Nat) : Data → List Char
  | .list [] => ['[', ']']
  | .list (item :: items) =>
    '[' :: spreadItems (layers + 1) (item :: items) ++ newLine layers ++ [']']
  | .record [] => ['\x7b', '\x7d']
  | .record (member :: members) =>
    '\x7b' :: spreadMembers (layers + 1) (member :: members) ++ newLine layers ++ ['\x7d']
  | scalar => printScalar scalar

/-- Items, each on lines of its own. -/
def spreadItems (layers : Nat) : List Data → List Char
  | [] => []
  | [item] => newLine layers ++ spread layers item
  | item :: next :: items =>
    newLine layers ++ spread layers item ++ ',' :: spreadItems layers (next :: items)

/-- Members, each on lines of its own. -/
def spreadMembers (layers : Nat) : List (Data × Data) → List Char
  | [] => []
  | [(key, value)] => newLine layers ++ printKey key ++ ':' :: ' ' :: spread layers value
  | (key, value) :: next :: members =>
    newLine layers ++ printKey key ++ ':' :: ' ' :: spread layers value
      ++ ',' :: spreadMembers layers (next :: members)

end

/-- The text of data in the compact form. -/
def print (data : Data) : String := String.ofList (compact data)

/-- The text of data in the spread form. -/
def printSpread (data : Data) : String := String.ofList (spread 0 data)

end StableModels.Json
