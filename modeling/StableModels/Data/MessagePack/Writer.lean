import StableModels.Data

/-!
# Writing data as MessagePack

Every value starts with a byte that tells its format; lengths and numbers follow with the most
significant byte first. Of the formats for a value the shortest is taken, and a number that is
not negative is written in one of the formats without sign.
-/

namespace StableModels.MessagePack

/-- A number in `count` bytes, the most significant first. -/
def bigEndian : Nat → Nat → List UInt8
  | 0, _ => []
  | count + 1, value => UInt8.ofNat (value >>> (8 * count)) :: bigEndian count value

/-- A number without sign. -/
def writeNatural (value : Nat) : List UInt8 :=
  if value < 0x80 then [UInt8.ofNat value]
  else if value < 0x100 then 0xcc :: bigEndian 1 value
  else if value < 0x10000 then 0xcd :: bigEndian 2 value
  else if value < 0x100000000 then 0xce :: bigEndian 4 value
  else 0xcf :: bigEndian 8 value

/-- A number without sign in `count` bytes, out of one, two, four and eight. -/
def writePadded (count value : Nat) : List UInt8 :=
  match count with
  | 1 => 0xcc :: bigEndian 1 value
  | 2 => 0xcd :: bigEndian 2 value
  | 4 => 0xce :: bigEndian 4 value
  | _ => 0xcf :: bigEndian 8 value

/-- A negative number, by its distance from zero; it is written as its two's complement. -/
def writeNegative (distance : Nat) : List UInt8 :=
  if distance ≤ 0x20 then [UInt8.ofNat (0x100 - distance)]
  else if distance ≤ 0x80 then 0xd0 :: bigEndian 1 (0x100 - distance)
  else if distance ≤ 0x8000 then 0xd1 :: bigEndian 2 (0x10000 - distance)
  else if distance ≤ 0x80000000 then 0xd2 :: bigEndian 4 (0x100000000 - distance)
  else 0xd3 :: bigEndian 8 (0x10000000000000000 - distance)

/-- An integer. -/
def writeInteger (value : Int) : List UInt8 :=
  if value < 0 then writeNegative value.natAbs else writeNatural value.natAbs

/-- A text. -/
def writeText (text : String) : List UInt8 :=
  let body := Data.utf8 text
  let length := body.length
  let head :=
    if length < 0x20 then [UInt8.ofNat (0xa0 + length)]
    else if length < 0x100 then 0xd9 :: bigEndian 1 length
    else if length < 0x10000 then 0xda :: bigEndian 2 length
    else 0xdb :: bigEndian 4 length
  head ++ body

/-- Bytes that are not text. -/
def writeBytes (body : List UInt8) : List UInt8 :=
  let length := body.length
  let head :=
    if length < 0x100 then 0xc4 :: bigEndian 1 length
    else if length < 0x10000 then 0xc5 :: bigEndian 2 length
    else 0xc6 :: bigEndian 4 length
  head ++ body

/-- The start of an extension of `length` bytes. -/
def extensionHead (length : Nat) : List UInt8 :=
  match length with
  | 1 => [0xd4]
  | 2 => [0xd5]
  | 4 => [0xd6]
  | 8 => [0xd7]
  | 16 => [0xd8]
  | length =>
    if length < 0x100 then 0xc7 :: bigEndian 1 length
    else if length < 0x10000 then 0xc8 :: bigEndian 2 length
    else 0xc9 :: bigEndian 4 length

/-- The start of a list of `length` items. -/
def listHead (length : Nat) : List UInt8 :=
  if length < 0x10 then [UInt8.ofNat (0x90 + length)]
  else if length < 0x10000 then 0xdc :: bigEndian 2 length
  else 0xdd :: bigEndian 4 length

/-- The start of a record of `length` members. -/
def recordHead (length : Nat) : List UInt8 :=
  if length < 0x10 then [UInt8.ofNat (0x80 + length)]
  else if length < 0x10000 then 0xde :: bigEndian 2 length
  else 0xdf :: bigEndian 4 length

mutual

/-- Data. -/
def write : Data → List UInt8
  | .null => [0xc0]
  | .bool false => [0xc2]
  | .bool true => [0xc3]
  | .natural value => writeNatural value
  | .padded count value => writePadded count value
  | .integer value => writeInteger value
  | .real value => 0xcb :: bigEndian 8 value.toBits.toNat
  | .text value => writeText value
  | .bytes value => writeBytes value
  | .extension kind content => extensionHead content.length ++ kind :: content
  | .list items => listHead items.length ++ writeItems items
  | .record members => recordHead members.length ++ writeMembers members

/-- Items, one after the other. -/
def writeItems : List Data → List UInt8
  | [] => []
  | item :: items => write item ++ writeItems items

/-- Members, each a key and then its value. -/
def writeMembers : List (Data × Data) → List UInt8
  | [] => []
  | (key, value) :: members => write key ++ write value ++ writeMembers members

end

end StableModels.MessagePack
