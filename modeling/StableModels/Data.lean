/-!
# Self-describing data

The common ground of the two formats in which programs are stored: data that tell their own
kind. A record keeps its members in the order in which they were written, repetitions
included, because a reader has to know of them; its keys are data as well, since one of the
formats allows any.

A **struct** is data with a fixed list of member names. It is written as a record, but read
also from a list of the members in order, of which the last may be left out. A **tagged** value
is a struct of one of several kinds; its kind is told by one more member, the tag, or by the
first item of a list. Members that a struct does not know are passed over, members given twice
are not accepted.

Members and kinds have names, and a number may stand for the place of a name where the format of
the data allows it; the **naming** tells how far it does.
-/

namespace StableModels

/-- Self-describing data. -/
inductive Data where
  /-- No value. -/
  | null
  /-- A truth value. -/
  | bool (value : Bool)
  /-- A number written without a sign. -/
  | natural (value : Nat)
  /-- A number written without a sign in so many bytes, though it needs fewer. -/
  | padded (width value : Nat)
  /-- A number written with a sign. -/
  | integer (value : Int)
  /-- A number in floating point. -/
  | real (value : Float)
  /-- Text. -/
  | text (value : String)
  /-- Bytes that are not known to be text. -/
  | bytes (value : List UInt8)
  /-- Bytes of a kind that the format leaves to others. -/
  | extension (kind : UInt8) (content : List UInt8)
  /-- A list of items. -/
  | list (items : List Data)
  /-- A list of members, each a key and a value. -/
  | record (members : List (Data × Data))

namespace Data

instance : Inhabited Data := ⟨null⟩

/-! ### Layers -/

mutual

/-- The number of lists and records that stand one inside the other; an extension counts as
one, too. -/
def depth : Data → Nat
  | list items => depthOfItems items + 1
  | record members => depthOfMembers members + 1
  | extension _ _ => 1
  | null | bool _ | natural _ | padded _ _ | integer _ | real _ | text _ | bytes _ => 0

/-- The greatest depth among items. -/
def depthOfItems : List Data → Nat
  | [] => 0
  | item :: items => max (depth item) (depthOfItems items)

/-- The greatest depth among the keys and values of members. -/
def depthOfMembers : List (Data × Data) → Nat
  | [] => 0
  | (key, value) :: members => max (max (depth key) (depth value)) (depthOfMembers members)

end

/-! ### Writing -/

/-- The greatest integer up to which all are written as numbers, so that a reader that knows
floating point only reads them exactly: `2 ^ 53 - 1`. -/
def exactBound : Nat := 9007199254740991

/-- The least integer of 64 bits. -/
def leastInteger : Int := -0x8000000000000000

/-- An integer is written as a number: its magnitude is within `exactBound`. The magnitude of an
integer of 64 bits is taken in 64 bits, and there the least of them is its own magnitude, a negative
one. (A build that checks for overflow stops at that integer instead, and writes all others in the
same way.) -/
def isNumber (value : Int) : Bool := value.natAbs ≤ exactBound || value == leastInteger

/-- An integer as a number without loss. -/
def ofExact (value : Int) : Data :=
  if 0 ≤ value then natural value.toNat else integer value

/-- An integer as a number if it is to be written as one, and as the text of its decimal digits
otherwise. -/
def ofInt (value : Int) : Data :=
  if isNumber value then ofExact value else text (toString value)

/-- A record with text for keys. -/
def struct (members : List (String × Data)) : Data :=
  record (members.map fun member => (text member.1, member.2))

/-- A struct with its kind in front. -/
def tagged (tag kind : String) (members : List (String × Data)) : Data :=
  struct ((tag, text kind) :: members)

/-! ### Reading scalars -/

/-- The largest number that fits in a word of 64 bits. -/
def wordBound : Nat := 0xffffffffffffffff

/-- The bytes of a text. -/
def utf8 (text : String) : List UInt8 := text.toByteArray.data.toList

/-- Bytes as text, if they are text. -/
def utf8? (value : List UInt8) : Option String := String.fromUTF8? value.toByteArray

/-- A truth value. -/
def bool? : Data → Option Bool
  | bool value => some value
  | _ => none

/-- A number from zero to `wordBound`, written as an integer. -/
def word? : Data → Option Nat
  | natural value | padded _ value => if value ≤ wordBound then some value else none
  | integer value => if 0 ≤ value ∧ value ≤ wordBound then some value.toNat else none
  | _ => none

/-- Text, or bytes that are text. -/
def text? : Data → Option String
  | text value => some value
  | bytes value => utf8? value
  | _ => none

/-- The value of decimal digits, which underscores may follow. -/
def digits? : List Char → Option Nat
  | [] => none
  | first :: rest =>
    if first.isDigit then
      rest.foldlM (fun value char =>
        if char.isDigit then some (10 * value + (char.toNat - '0'.toNat))
        else if char = '_' then some value
        else none) (first.toNat - '0'.toNat)
    else
      none

/-- The value of decimal digits after an optional sign. -/
def signedDigits? : List Char → Option Int
  | '-' :: digits => (digits? digits).map fun value => -(value : Int)
  | '+' :: digits => (digits? digits).map fun value => (value : Int)
  | digits => (digits? digits).map fun value => (value : Int)

/-- The integer that a number in floating point is, if its magnitude is within
`exactBound`. -/
def integral? (value : Float) : Option Int :=
  if value.floor == value && value.abs ≤ 9007199254740991.0 then some value.toInt64.toInt
  else none

/-- An integer: a number without fraction, or decimal digits as text. -/
def int? : Data → Option Int
  | natural value | padded _ value => some value
  | integer value => some value
  | real value => integral? value
  | text value => signedDigits? value.toList
  | _ => none

/-- Empty bytes as a list without items, for readers to which both are sequences. -/
def sequence : Data → Data
  | bytes [] => list []
  | data => data

/-- The items of a list, each read by `item?`. -/
def list? {α : Type} (item? : Data → Option α) : Data → Option (List α)
  | list items => items.mapM item?
  | _ => none

/-! ### Names -/

/-- How members and kinds may be named. -/
inductive Naming where
  /-- By their names. -/
  | byText
  /-- Also by the place of the name, as a number in one or in eight bytes. -/
  | byNumber
  /-- Also by the place of the name, as a number in any number of bytes. -/
  | byAnyNumber
  deriving DecidableEq

/-- The number of bytes, out of one, two, four and eight, that a number without sign needs. -/
def width (value : Nat) : Nat :=
  if value < 0x100 then 1
  else if value < 0x10000 then 2
  else if value < 0x100000000 then 4
  else 8

/-- A number in so many bytes may stand for a place. -/
def Naming.allows : Naming → Nat → Bool
  | byText, _ => false
  | byNumber, width => width == 1 || width == 8
  | byAnyNumber, _ => true

/-- The place that a number stands for. -/
def index? (naming : Naming) : Data → Option Nat
  | natural index => if naming.allows (width index) then some index else none
  | padded width index => if naming.allows width then some index else none
  | _ => none

/-! ### Reading structs -/

/-- The place of a name among names: none if the data cannot be a name, and no place if it is
none of them. -/
def nameIndex? (naming : Naming) (names : List String) : Data → Option (Option Nat)
  | text name => some (names.idxOf? name)
  | bytes name => some ((utf8? name).bind fun name => names.idxOf? name)
  | data => (index? naming data).map fun index =>
    if index < names.length then some index else none

/-- Puts the members of a record into the places of their names. -/
def place? (naming : Naming) (names : List String) :
    List (Data × Data) → List (Option Data) → Option (List (Option Data))
  | [], places => some places
  | (key, value) :: members, places =>
    match nameIndex? naming names key with
    | none => none
    | some none => place? naming names members places
    | some (some index) =>
      match places[index]? with
      | some none => place? naming names members (places.set index (some value))
      | _ => none

/-- The members of a struct in the order of their names, where they are given. -/
def members? (naming : Naming) (names : List String) : Data → Option (List (Option Data))
  | record members => place? naming names members (names.map fun _ => none)
  | list items =>
    if items.length ≤ names.length then
      some (items.map some ++ List.replicate (names.length - items.length) none)
    else
      none
  | _ => none

/-- A value that has to be given. -/
def required {α : Type} (read? : Data → Option α) (value : Option Data) : Option α :=
  value.bind read?

/-- A value that may be left out. -/
def optional {α : Type} (default : α) (read? : Data → Option α) : Option Data → Option α
  | none => some default
  | some value => read? value

/-! ### Reading tagged values -/

/-- The data is the name of the tag. -/
def isTag (tag : String) : Data → Bool
  | text name => name == tag
  | bytes name => utf8? name == some tag
  | _ => false

/-- The place of a kind among the kinds. -/
def kind? (naming : Naming) (kinds : List String) : Data → Option Nat
  | text name => kinds.idxOf? name
  | bytes name => (utf8? name).bind fun name => kinds.idxOf? name
  | data => (index? naming data).filter fun index => index < kinds.length

/-- The kind of a tagged value, by its place among the kinds, and the struct without the tag. -/
def tagged? (naming : Naming) (tag : String) (kinds : List String) : Data → Option (Nat × Data)
  | record members =>
    match members.filter fun member => isTag tag member.1 with
    | [(_, kind)] =>
      (kind? naming kinds kind).map fun kind =>
        (kind, record (members.filter fun member => !isTag tag member.1))
    | _ => none
  | list (kind :: items) => (kind? naming kinds kind).map fun kind => (kind, list items)
  | _ => none

/-- A struct without members: any record, but no list with items. -/
def isBare : Data → Bool
  | record _ => true
  | list items => items.isEmpty
  | _ => false

end Data

end StableModels
