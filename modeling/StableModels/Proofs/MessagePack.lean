import Mathlib.Algebra.Ring.Nat
import StableModels.ProgramFile
import StableModels.Proofs.Format

/-!
# Programs as MessagePack

What stands before a value tells where the value ends, and so plain data is read back from its bytes
whatever follows them (`StableModels.MessagePack.value?_write`). Hence the bytes of a program tell
it from all others, and are not the start of the bytes of another one
(`StableModels.MessagePack.self_delimiting`).

Two things limit what is written: the length of a text, a list or a record stands in four bytes at
most (`StableModels.Data.longest`), and no more layers are read than a fixed number of them.
-/

namespace StableModels

/-! ### Lengths -/

namespace Data

mutual

/-- The greatest length of a text, in bytes, of a list or of a record. -/
def longest : Data → Nat
  | text value => (utf8 value).length
  | list items => max items.length (longestOfItems items)
  | record members => max members.length (longestOfMembers members)
  | null | bool _ | natural _ | padded .. | integer _ | real _ | bytes _ | extension .. => 0

/-- The greatest length among items. -/
def longestOfItems : List Data → Nat
  | [] => 0
  | item :: items => max (longest item) (longestOfItems items)

/-- The greatest length among the keys and values of members. -/
def longestOfMembers : List (Data × Data) → Nat
  | [] => 0
  | (key, value) :: members => max (max (longest key) (longest value)) (longestOfMembers members)

end

end Data

namespace MessagePack

variable {count half value length : Nat}

/-- What lengths have to be less than. -/
def lengthBound : Nat := 0x100000000

/-! ### Numbers and bytes -/

theorem takeNumber_bigEndian (count value before : Nat) (rest : List UInt8) :
    takeNumber count before (bigEndian count value ++ rest) =
      some (256 ^ count * before + value % 256 ^ count, rest) := by
  induction count generalizing before with
  | zero => simp [takeNumber, bigEndian, Nat.mod_one]
  | succ count ih =>
    have byte : (UInt8.ofNat (value >>> (8 * count))).toNat = value / 256 ^ count % 256 := by
      rw [UInt8.toNat_ofNat', Nat.shiftRight_eq_div_pow, Nat.pow_mul]
    have shifted : 256 ^ count * (256 * before + value / 256 ^ count % 256) +
        value % 256 ^ count = 256 ^ (count + 1) * before + value % 256 ^ (count + 1) := by
      rw [Nat.mod_pow_succ, Nat.pow_succ, Nat.mul_add]
      ac_rfl
    rw [bigEndian, List.cons_append, takeNumber, ih, byte, shifted]

/-- **A number is read back from its bytes**, if there are enough of them. -/
theorem takeNumber_zero (fits : value < 256 ^ count) (rest : List UInt8) :
    takeNumber count 0 (bigEndian count value ++ rest) = some (value, rest) := by
  rw [takeNumber_bigEndian, Nat.mul_zero, Nat.zero_add, Nat.mod_eq_of_lt fits]

theorem takeBytes_length (body rest : List UInt8) :
    takeBytes body.length (body ++ rest) = some (body, rest) := by
  induction body with
  | nil => rfl
  | cons byte body ih => rw [List.length_cons, List.cons_append, takeBytes, ih]; rfl

/-- The two's complement of a negative number denotes it. -/
theorem signed_sub {distance : Nat} (le : distance ≤ half) :
    signed half (2 * half - distance) = -(distance : Int) := by
  rw [signed, if_neg (by omega)]
  omega

/-! ### Numbers -/

theorem natural?_bigEndian (count : Nat) (width : Data.width value = count)
    (fits : value < 256 ^ count) (rest : List UInt8) :
    natural? count (bigEndian count value ++ rest) = some (.scalar (.natural value), rest) := by
  rw [natural?, takeNumber_zero fits]
  simp [natural, width]

/-- **A number without sign is read back.** -/
theorem head?_writeNatural (fits : value ≤ Data.wordBound) (rest : List UInt8) :
    head? (writeNatural value ++ rest) = some (.scalar (.natural value), rest) := by
  rw [Data.wordBound] at fits
  rw [writeNatural]
  split
  · next small =>
    have code : (UInt8.ofNat value).toNat = value :=
      UInt8.toNat_ofNat_of_lt' (Nat.lt_trans small (by decide))
    simp [head?, code, small]
  split
  · next small => exact natural?_bigEndian 1 (by simp [Data.width, *]) small rest
  split
  · next small => exact natural?_bigEndian 2 (by simp [Data.width, *]) small rest
  split
  · next small => exact natural?_bigEndian 4 (by simp [Data.width, *]) small rest
  · exact natural?_bigEndian 8 (by simp [Data.width, *]) (Nat.lt_succ_of_le fits) rest

theorem integer?_bigEndian (count : Nat) {distance : Nat} (negative : 0 < distance)
    (le : distance ≤ half) (all : 256 ^ count = 2 * half) (rest : List UInt8) :
    integer? count half (bigEndian count (2 * half - distance) ++ rest) =
      some (.scalar (.integer (-(distance : Int))), rest) := by
  rw [integer?, takeNumber_zero (by omega)]
  simp [signed_sub le]

/-- **A negative number is read back.** -/
theorem head?_writeNegative {distance : Nat} (negative : 0 < distance)
    (le : distance ≤ 0x8000000000000000) (rest : List UInt8) :
    head? (writeNegative distance ++ rest) =
      some (.scalar (.integer (-(distance : Int))), rest) := by
  rw [writeNegative]
  split
  · next small =>
    have code : (UInt8.ofNat (0x100 - distance)).toNat = 0x100 - distance :=
      UInt8.toNat_ofNat_of_lt' (Nat.sub_lt (by decide) negative)
    have denoted : signed 0x80 (0x100 - distance) = -(distance : Int) :=
      signed_sub (by omega)
    rw [List.singleton_append, head?]
    simp only [code]
    rw [if_neg (by omega), if_neg (by omega), if_neg (by omega), if_neg (by omega),
      if_pos (by omega), denoted]
  split
  · next near => exact integer?_bigEndian 1 negative near rfl rest
  split
  · next near => exact integer?_bigEndian 2 negative near rfl rest
  split
  · next near => exact integer?_bigEndian 4 negative near rfl rest
  · exact integer?_bigEndian 8 negative le rfl rest

/-- **An integer with a sign is read back**, if it is negative. -/
theorem head?_writeInteger {value : Int} (least : Data.leastInteger ≤ value) (negative : value < 0)
    (rest : List UInt8) :
    head? (writeInteger value ++ rest) = some (.scalar (.integer value), rest) := by
  rw [Data.leastInteger] at least
  have denoted : -(value.natAbs : Int) = value := by omega
  rw [writeInteger, if_pos negative, head?_writeNegative (by omega) (by omega), denoted]

/-! ### Text, lists and records -/

theorem text?_utf8 (text : String) (rest : List UInt8) :
    text? (Data.utf8 text).length (Data.utf8 text ++ rest) =
      some (.scalar (.text text), rest) := by
  rw [text?, takeBytes_length]
  simp [Data.utf8?_utf8]

theorem longText?_bigEndian (count : Nat) {text : String}
    (fits : (Data.utf8 text).length < 256 ^ count) (rest : List UInt8) :
    longText? count (bigEndian count (Data.utf8 text).length ++ (Data.utf8 text ++ rest)) =
      some (.scalar (.text text), rest) := by
  rw [longText?, takeNumber_zero fits]
  exact text?_utf8 text rest

/-- **Text is read back**, if its length stands in four bytes. -/
theorem head?_writeText {text : String} (fits : (Data.utf8 text).length < lengthBound)
    (rest : List UInt8) : head? (writeText text ++ rest) = some (.scalar (.text text), rest) := by
  rw [writeText, List.append_assoc]
  split
  · next small =>
    have code : (UInt8.ofNat (0xa0 + (Data.utf8 text).length)).toNat =
        0xa0 + (Data.utf8 text).length :=
      UInt8.toNat_ofNat_of_lt' (by rw [UInt8.size]; omega)
    rw [List.singleton_append, head?]
    simp only [code]
    rw [if_neg (by omega), if_neg (by omega), if_neg (by omega), if_pos (by omega),
      Nat.add_sub_cancel_left, text?_utf8]
  split
  · next small => exact longText?_bigEndian 1 small rest
  split
  · next small => exact longText?_bigEndian 2 small rest
  · exact longText?_bigEndian 4 fits rest

theorem longList?_bigEndian (count : Nat) (fits : length < 256 ^ count) (rest : List UInt8) :
    longList? count (bigEndian count length ++ rest) = some (.list length, rest) := by
  rw [longList?, takeNumber_zero fits]
  rfl

/-- **The start of a list is read back.** -/
theorem head?_listHead (fits : length < lengthBound) (rest : List UInt8) :
    head? (listHead length ++ rest) = some (.list length, rest) := by
  rw [listHead]
  split
  · next small =>
    have code : (UInt8.ofNat (0x90 + length)).toNat = 0x90 + length :=
      UInt8.toNat_ofNat_of_lt' (by rw [UInt8.size]; omega)
    rw [List.singleton_append, head?]
    simp only [code]
    rw [if_neg (by omega), if_neg (by omega), if_pos (by omega), Nat.add_sub_cancel_left]
  split
  · next small => exact longList?_bigEndian 2 small rest
  · exact longList?_bigEndian 4 fits rest

theorem longRecord?_bigEndian (count : Nat) (fits : length < 256 ^ count) (rest : List UInt8) :
    longRecord? count (bigEndian count length ++ rest) = some (.record length, rest) := by
  rw [longRecord?, takeNumber_zero fits]
  rfl

/-- **The start of a record is read back.** -/
theorem head?_recordHead (fits : length < lengthBound) (rest : List UInt8) :
    head? (recordHead length ++ rest) = some (.record length, rest) := by
  rw [recordHead]
  split
  · next small =>
    have code : (UInt8.ofNat (0x80 + length)).toNat = 0x80 + length :=
      UInt8.toNat_ofNat_of_lt' (by rw [UInt8.size]; omega)
    rw [List.singleton_append, head?]
    simp only [code]
    rw [if_neg (by omega), if_pos (by omega), Nat.add_sub_cancel_left]
  split
  · next small => exact longRecord?_bigEndian 2 small rest
  · exact longRecord?_bigEndian 4 fits rest

/-! ### Data -/

theorem value?_of_scalar {bytes rest : List UInt8} {data : Data}
    (head : head? bytes = some (.scalar data, rest)) (limit : Nat) :
    value? limit bytes = some (data, rest) := by
  cases limit <;> rw [value?, head]

mutual

/-- **Plain data is read back from its bytes, whatever follows them**, if its lengths can be written
and no fewer layers are read than it has. -/
theorem value?_write : (data : Data) → data.isPlain = true → data.longest < lengthBound →
    (limit : Nat) → data.depth ≤ limit → (rest : List UInt8) →
      value? limit (write data ++ rest) = some (data, rest)
  | .null, _, _, limit, _, rest | .bool false, _, _, limit, _, rest
  | .bool true, _, _, limit, _, rest => value?_of_scalar rfl limit
  | .natural _, plain, _, limit, _, rest =>
    value?_of_scalar (head?_writeNatural (of_decide_eq_true plain) rest) limit
  | .integer value, plain, _, limit, _, rest => by
    rw [Data.isPlain, Bool.and_eq_true, decide_eq_true_iff, decide_eq_true_iff] at plain
    exact value?_of_scalar (head?_writeInteger plain.1 plain.2 rest) limit
  | .text _, _, short, limit, _, rest => value?_of_scalar (head?_writeText short rest) limit
  | .list items, plain, short, limit + 1, deep, rest => by
    obtain ⟨few, short⟩ := Nat.max_lt.1 short
    have read := items?_writeItems items plain short limit (Nat.le_of_succ_le_succ deep) rest
    rw [write, List.append_assoc, value?, head?_listHead few]
    exact congrArg (Option.map _) read
  | .record members, plain, short, limit + 1, deep, rest => by
    obtain ⟨few, short⟩ := Nat.max_lt.1 short
    have read := members?_writeMembers members plain short limit (Nat.le_of_succ_le_succ deep) rest
    rw [write, List.append_assoc, value?, head?_recordHead few]
    exact congrArg (Option.map _) read

theorem items?_writeItems : (items : List Data) → Data.allPlain items = true →
    Data.longestOfItems items < lengthBound → (limit : Nat) → Data.depthOfItems items ≤ limit →
      (rest : List UInt8) →
        items? (value? limit) items.length (writeItems items ++ rest) = some (items, rest)
  | [], _, _, _, _, _ => rfl
  | item :: items, plain, short, limit, deep, rest => by
    rw [Data.allPlain, Bool.and_eq_true] at plain
    obtain ⟨short, rests⟩ := Nat.max_lt.1 short
    obtain ⟨shallow, layers⟩ := Nat.max_le.1 deep
    rw [writeItems, List.append_assoc, List.length_cons, items?,
      value?_write item plain.1 short limit shallow]
    simp only [items?_writeItems items plain.2 rests limit layers rest, Option.map_some]

theorem members?_writeMembers : (members : List (Data × Data)) →
    Data.allPlainMembers members = true → Data.longestOfMembers members < lengthBound →
      (limit : Nat) → Data.depthOfMembers members ≤ limit → (rest : List UInt8) →
        members? (value? limit) members.length (writeMembers members ++ rest) =
          some (members, rest)
  | [], _, _, _, _, _ => rfl
  | (.text key, value) :: members, plain, short, limit, deep, rest => by
    rw [Data.allPlainMembers, Bool.and_eq_true, Bool.and_eq_true] at plain
    obtain ⟨first, rests⟩ := Nat.max_lt.1 short
    obtain ⟨short, named⟩ := Nat.max_lt.1 first
    obtain ⟨shallow, layers⟩ := Nat.max_le.1 deep
    have key_read := value?_write (.text key) rfl short limit (Nat.zero_le limit)
    have value_read := value?_write value plain.1.2 named limit (Nat.max_le.1 shallow).2
    rw [writeMembers, List.append_assoc, List.append_assoc, List.length_cons, members?, key_read]
    simp only [value_read, members?_writeMembers members plain.2 rests limit layers rest,
      Option.map_some]

end

end MessagePack

/-! ### Programs -/

/-- **A program that can be packed**: it is storable, its lengths can be written, and it has no more
layers than are read. -/
def Program.isPackable (program : Program) : Bool :=
  program.isStorable && program.toData.longest < MessagePack.lengthBound &&
    program.toData.depth ≤ MessagePack.nestingLimit

theorem Program.ofBytes?_append {program : Program} (packable : program.isPackable = true)
    (rest : List UInt8) : ofBytes? (program.toBytes ++ rest) = some program := by
  rw [isPackable, Bool.and_eq_true, Bool.and_eq_true, decide_eq_true_iff, decide_eq_true_iff]
    at packable
  obtain ⟨⟨storable, short⟩, shallow⟩ := packable
  have read := MessagePack.value?_write program.toData (isPlain_toData storable) short
    MessagePack.nestingLimit shallow rest
  rw [ofBytes?, toBytes, MessagePack.read?, read]
  exact ofData?_toData storable

namespace MessagePack

/-- **The bytes of a program tell where they end.** A program that can be packed is read back from
its bytes, whatever follows them; and if its bytes are the first ones of those of another such
program, the two are the same program. -/
theorem self_delimiting {program : Program} (packable : program.isPackable = true) :
    (∀ rest, Program.ofBytes? (program.toBytes ++ rest) = some program) ∧
      ∀ other : Program, other.isPackable = true → program.toBytes <+: other.toBytes →
        other = program := by
  refine ⟨Program.ofBytes?_append packable, fun other packed starts => ?_⟩
  obtain ⟨rest, together⟩ := starts
  have read := Program.ofBytes?_append packed []
  rw [List.append_nil, ← together, Program.ofBytes?_append packable, Option.some.injEq] at read
  exact read.symm

/-- A program with a number in each format for numbers. -/
def manifold : Program where
  seeds := ["go"]
  rules := [.unary ⟨"go", [], .ref 0xffffffffffffffff⟩ (.fact "numbers"
    ([0x7f, 0x80, 0xff, 0x100, 0xffff, 0x10000, 0xffffffff, 0x100000000, 0x20000000000000, -1,
      -0x20, -0x21, -0x80, -0x81, -0x8000, -0x8001, -0x80000000, -0x80000001,
      -0x20000000000000].map .int) .unit)]

/-- Its bytes do not start those of the program that forbids something as well. -/
theorem self_delimiting_manifold :
    Program.ofBytes? (manifold.toBytes ++ [0xc1]) = some manifold ∧
      ¬ manifold.toBytes <+: { manifold with forbids := ["bad"] }.toBytes := by
  have packable : manifold.isPackable = true := by decide +kernel
  obtain ⟨read, alone⟩ := self_delimiting packable
  refine ⟨read [0xc1], fun starts => ?_⟩
  have same := alone _ (by decide +kernel) starts
  exact absurd (congrArg Program.forbids same) (by simp [manifold])

end MessagePack

end StableModels
