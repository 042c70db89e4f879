import StableModels.Data

/-!
# Reading JSON numbers

A number without fraction and exponent is an integer if it fits in a word of 64 bits, with or
without sign; the text `-0` is the exception. Every other number is one in floating point.

Such a number is read by way of a **significand** of 64 bits: as many of its leading digits as
fit, digits of the integer part that do not fit being counted into the exponent and digits of
the fraction that do not fit being dropped. The significand, rounded to floating point, is then
multiplied or divided by the power of ten. The two roundings may lead past the number nearest to
the one written. A number too great for floating point is well written, but has no value.
-/

namespace StableModels.Json

/-- The digits at the start of a text, as numbers, and the rest. -/
def takeDigits : List Char → List Nat × List Char
  | [] => ([], [])
  | char :: rest =>
    if char.isDigit then
      let (digits, rest) := takeDigits rest
      ((char.toNat - '0'.toNat) :: digits, rest)
    else
      ([], char :: rest)

/-- The number that decimal digits denote. -/
def ofDigits (digits : List Nat) : Nat := digits.foldl (fun value digit => 10 * value + digit) 0

/-- Appends digits to a significand as long as it fits in a word; the significand and the digits
left over. -/
def extend : Nat → List Nat → Nat × List Nat
  | significand, [] => (significand, [])
  | significand, digit :: digits =>
    if 10 * significand + digit ≤ Data.wordBound then extend (10 * significand + digit) digits
    else (significand, digit :: digits)

/-- The power of ten with this exponent. -/
def powerOfTen (exponent : Nat) : Float := Float.ofScientific 1 false exponent

/-- A number divided by a power of ten, in strides of `308`; it has vanished after a few. -/
def shrink : Nat → Float → Nat → Float
  | 0, value, _ => value
  | strides + 1, value, exponent =>
    if exponent ≤ 308 then value / powerOfTen exponent
    else if value == 0 then value
    else shrink strides (value / powerOfTen 308) (exponent - 308)

/-- A significand times a power of ten; none if that is too great. -/
def scale? (significand : Nat) (exponent : Int) : Option Float :=
  let value := (UInt64.ofNat significand).toFloat
  if exponent < 0 then some (shrink 4 value exponent.natAbs)
  else if exponent.natAbs ≤ 308 then
    let value := value * powerOfTen exponent.natAbs
    if value.isInf then none else some value
  else if significand = 0 then some value
  else none

/-- The greatest exponent that is read as such. -/
def exponentBound : Nat := 0x7fffffff

/-- A number in floating point from the digits of its integer part, its fraction and its
exponent; none if it is too great. -/
def real? (integer fraction : List Nat) (down : Bool) (exponent : List Nat) : Option Float :=
  let (significand, uncounted) := extend 0 integer
  let (significand, dropped) := extend significand fraction
  let shift : Int := uncounted.length - (fraction.length - dropped.length : Nat)
  let power := ofDigits exponent
  if exponentBound < power then
    if significand = 0 || down then some 0 else none
  else
    scale? significand (if down then shift - power else shift + power)

/-- The parts of a number behind its integer part: the digits of the fraction and the direction
and digits of the exponent, none of them if they are not there. -/
def tail? (text : List Char) : Option (List Nat × Bool × List Nat) := do
  let (fraction, rest) ← match text with
    | '.' :: rest =>
      match takeDigits rest with
      | ([], _) => none
      | found => some found
    | rest => some ([], rest)
  match rest with
  | [] => some (fraction, false, [])
  | mark :: rest =>
    if mark = 'e' || mark = 'E' then
      let (down, rest) := match rest with
        | '+' :: rest => (false, rest)
        | '-' :: rest => (true, rest)
        | rest => (false, rest)
      match takeDigits rest with
      | (digit :: digits, []) => some (fraction, down, digit :: digits)
      | _ => none
    else
      none

/-- The value of a number without fraction and exponent, from its digits. -/
def integral? (negative : Bool) (integer : List Nat) : Option Data :=
  let value := ofDigits integer
  if negative then
    if 0 < value ∧ value ≤ 0x8000000000000000 then some (.integer (-(value : Int)))
    else (real? integer [] false []).map fun value => .real (-value)
  else if value ≤ Data.wordBound then some (.natural value)
  else (real? integer [] false []).map .real

/-- The number that a text without its sign denotes: none if the text is no number, and no value
if the number is too great. -/
def unsigned? (negative : Bool) (text : List Char) : Option (Option Data) :=
  match takeDigits text with
  | ([], _) => none
  | (0 :: _ :: _, _) => none
  | (integer, []) => some (integral? negative integer)
  | (integer, rest) =>
    (tail? rest).map fun (fraction, down, exponent) =>
      (real? integer fraction down exponent).map fun value =>
        .real (if negative then -value else value)

/-- The number that a text denotes: none if the text is no number, and no value if the number
is too great. -/
def number? : List Char → Option (Option Data)
  | '-' :: text => unsigned? true text
  | text => unsigned? false text

end StableModels.Json
