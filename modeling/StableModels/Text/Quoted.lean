import StableModels.Text.Shown

/-!
# Quoted text

The form in which text stands inside a displayed term: between double quotes, with the usual
short escapes, and with the code point in braces for every other character that cannot be
shown as it is.
-/

namespace StableModels.Text

/-- A number in hexadecimal, in lower case and without leading zeros. -/
def hex (value : Nat) : List Char := Nat.toDigits 16 value

/-- A character inside quotes. -/
def quoteChar (char : Char) : List Char :=
  match char with
  | '\x00' => ['\\', '0']
  | '\t' => ['\\', 't']
  | '\n' => ['\\', 'n']
  | '\r' => ['\\', 'r']
  | '"' => ['\\', '"']
  | '\\' => ['\\', '\\']
  | char =>
    if isShown char then [char]
    else ['\\', 'u', '\x7b'] ++ hex char.toNat ++ ['\x7d']

/-- Text between double quotes. -/
def quote (text : String) : String :=
  String.ofList ('"' :: text.toList.flatMap quoteChar ++ ['"'])

end StableModels.Text
