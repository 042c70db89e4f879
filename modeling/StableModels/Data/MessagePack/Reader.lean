import StableModels.Data

/-!
# Reading MessagePack

A value is read from the front of the bytes, and what follows it is left over. All formats for
numbers, text, bytes, lists, records and extensions are read, whether they are the shortest or
not. Text that is not text turns into bytes, and a number without sign remembers how many bytes
it was written in if it was not the shortest.
-/

namespace StableModels.MessagePack

/-- The first `count` bytes as a number, the most significant first, and the rest. -/
def takeNumber : Nat → Nat → List UInt8 → Option (Nat × List UInt8)
  | 0, value, rest => some (value, rest)
  | _ + 1, _, [] => none
  | count + 1, value, byte :: rest => takeNumber count (256 * value + byte.toNat) rest

/-- The number that two's complement denotes, where numbers from `half` on are negative. -/
def signed (half value : Nat) : Int :=
  if value < half then value else (value : Int) - (2 * half : Nat)

/-- The first `count` bytes, and the rest. -/
def takeBytes : Nat → List UInt8 → Option (List UInt8 × List UInt8)
  | 0, rest => some ([], rest)
  | _ + 1, [] => none
  | count + 1, byte :: rest =>
    (takeBytes count rest).map fun taken => (byte :: taken.1, taken.2)

/-- What a value starts with. -/
inductive Head where
  /-- A value without layers. -/
  | scalar (value : Data)
  /-- An extension, which counts as a layer. -/
  | extension (value : Data)
  /-- A list of so many items. -/
  | list (length : Nat)
  /-- A record of so many members. -/
  | record (length : Nat)

/-- A number without sign that was written in `count` bytes. -/
def natural (count value : Nat) : Data :=
  if Data.width value = count then .natural value else .padded count value

/-- A number without sign in `count` bytes. -/
def natural? (count : Nat) (rest : List UInt8) : Option (Head × List UInt8) :=
  (takeNumber count 0 rest).map fun found => (.scalar (natural count found.1), found.2)

/-- A number with sign in `count` bytes, of which `half` of all are negative. -/
def integer? (count half : Nat) (rest : List UInt8) : Option (Head × List UInt8) :=
  (takeNumber count 0 rest).map fun found => (.scalar (.integer (signed half found.1)), found.2)

/-- Text of so many bytes. -/
def text? (length : Nat) (rest : List UInt8) : Option (Head × List UInt8) :=
  (takeBytes length rest).map fun (body, rest) =>
    match Data.utf8? body with
    | some text => (.scalar (.text text), rest)
    | none => (.scalar (.bytes body), rest)

/-- Bytes whose number stands in `count` bytes. -/
def bytes? (count : Nat) (rest : List UInt8) : Option (Head × List UInt8) := do
  let (length, rest) ← takeNumber count 0 rest
  let (body, rest) ← takeBytes length rest
  pure (.scalar (.bytes body), rest)

/-- An extension of so many bytes, after the byte that tells its kind. -/
def extension? (length : Nat) : List UInt8 → Option (Head × List UInt8)
  | [] => none
  | kind :: rest =>
    (takeBytes length rest).map fun found => (.extension (.extension kind found.1), found.2)

/-- An extension whose length stands in `count` bytes. -/
def longExtension? (count : Nat) (rest : List UInt8) : Option (Head × List UInt8) := do
  let (length, rest) ← takeNumber count 0 rest
  extension? length rest

/-- Text whose length stands in `count` bytes. -/
def longText? (count : Nat) (rest : List UInt8) : Option (Head × List UInt8) := do
  let (length, rest) ← takeNumber count 0 rest
  text? length rest

/-- A list whose length stands in `count` bytes. -/
def longList? (count : Nat) (rest : List UInt8) : Option (Head × List UInt8) :=
  (takeNumber count 0 rest).map fun found => (.list found.1, found.2)

/-- A record whose length stands in `count` bytes. -/
def longRecord? (count : Nat) (rest : List UInt8) : Option (Head × List UInt8) :=
  (takeNumber count 0 rest).map fun found => (.record found.1, found.2)

/-- Reads what a value starts with: all of it, if it has no layers. -/
def head? : List UInt8 → Option (Head × List UInt8)
  | [] => none
  | byte :: rest =>
    let code := byte.toNat
    if code < 0x80 then some (.scalar (.natural code), rest)
    else if code < 0x90 then some (.record (code - 0x80), rest)
    else if code < 0xa0 then some (.list (code - 0x90), rest)
    else if code < 0xc0 then text? (code - 0xa0) rest
    else if 0xe0 ≤ code then some (.scalar (.integer (signed 0x80 code)), rest)
    else
      match code with
      | 0xc0 => some (.scalar .null, rest)
      | 0xc2 => some (.scalar (.bool false), rest)
      | 0xc3 => some (.scalar (.bool true), rest)
      | 0xc4 => bytes? 1 rest
      | 0xc5 => bytes? 2 rest
      | 0xc6 => bytes? 4 rest
      | 0xc7 => longExtension? 1 rest
      | 0xc8 => longExtension? 2 rest
      | 0xc9 => longExtension? 4 rest
      | 0xca => (takeNumber 4 0 rest).map fun found =>
        (.scalar (.real (Float32.ofBits (UInt32.ofNat found.1)).toFloat), found.2)
      | 0xcb => (takeNumber 8 0 rest).map fun found =>
        (.scalar (.real (Float.ofBits (UInt64.ofNat found.1))), found.2)
      | 0xcc => natural? 1 rest
      | 0xcd => natural? 2 rest
      | 0xce => natural? 4 rest
      | 0xcf => natural? 8 rest
      | 0xd0 => integer? 1 0x80 rest
      | 0xd1 => integer? 2 0x8000 rest
      | 0xd2 => integer? 4 0x80000000 rest
      | 0xd3 => integer? 8 0x8000000000000000 rest
      | 0xd4 => extension? 1 rest
      | 0xd5 => extension? 2 rest
      | 0xd6 => extension? 4 rest
      | 0xd7 => extension? 8 rest
      | 0xd8 => extension? 16 rest
      | 0xd9 => longText? 1 rest
      | 0xda => longText? 2 rest
      | 0xdb => longText? 4 rest
      | 0xdc => longList? 2 rest
      | 0xdd => longList? 4 rest
      | 0xde => longRecord? 2 rest
      | 0xdf => longRecord? 4 rest
      | _ => none

/-- Reads `count` values, one after the other. -/
def items? (item? : List UInt8 → Option (Data × List UInt8)) :
    Nat → List UInt8 → Option (List Data × List UInt8)
  | 0, rest => some ([], rest)
  | count + 1, rest =>
    match item? rest with
    | none => none
    | some (item, rest) =>
      (items? item? count rest).map fun found => (item :: found.1, found.2)

/-- Reads `count` members, each a key and then its value. -/
def members? (item? : List UInt8 → Option (Data × List UInt8)) :
    Nat → List UInt8 → Option (List (Data × Data) × List UInt8)
  | 0, rest => some ([], rest)
  | count + 1, rest =>
    match item? rest with
    | none => none
    | some (key, rest) =>
      match item? rest with
      | none => none
      | some (value, rest) =>
        (members? item? count rest).map fun found => ((key, value) :: found.1, found.2)

/-- Reads a value with at most `limit` layers from the front of the bytes; the value and what is
left over. -/
def value? : Nat → List UInt8 → Option (Data × List UInt8)
  | 0, bytes =>
    match head? bytes with
    | some (.scalar value, rest) => some (value, rest)
    | _ => none
  | limit + 1, bytes =>
    match head? bytes with
    | some (.scalar value, rest) => some (value, rest)
    | some (.extension value, rest) => some (value, rest)
    | some (.list length, rest) =>
      (items? (value? limit) length rest).map fun found => (.list found.1, found.2)
    | some (.record length, rest) =>
      (members? (value? limit) length rest).map fun found => (.record found.1, found.2)
    | none => none

/-- How many layers a value may have one inside the other. -/
def nestingLimit : Nat := 1023

/-- Reads the value that bytes start with. -/
def read? (bytes : List UInt8) : Option Data := (value? nestingLimit bytes).map Prod.fst

end StableModels.MessagePack
