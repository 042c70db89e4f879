import Mathlib.Algebra.Ring.Nat
import StableModels.Data

/-!
# The order of texts and of their bytes

Texts are compared character by character, by the code points. The bytes of a text in UTF-8 tell
the same order: the first byte of a character tells how many bytes it has, with more bytes for
greater code points, and of two characters with the same number of bytes the one with the smaller
code point has the smaller byte where they part (`StableModels.Data.utf8EncodeChar_lt`).

Hence ordering names by code points and ordering them by bytes is one thing
(`StableModels.Data.utf8_lt_iff`).
-/

namespace StableModels

namespace Data

/-- The bytes of a text are those of its characters. -/
theorem utf8_eq_flatMap (text : String) :
    utf8 text = text.toList.flatMap String.utf8EncodeChar := by
  have bytes : text.toByteArray = text.toList.utf8Encode := by
    rw [← String.toByteArray_ofList, String.ofList_toList]
  rw [utf8, bytes, List.utf8Encode, List.data_toByteArray]

/-- The last `count` digits of a number in base 64, as bytes that continue a character. -/
def continuation : Nat → Nat → List UInt8
  | 0, _ => []
  | count + 1, number => UInt8.ofNat (number / 64 ^ count % 64 + 128) :: continuation count number

/-- The digits tell the order of the numbers that they make. -/
theorem continuation_lt {count small great : Nat}
    (below : small % 64 ^ count < great % 64 ^ count) (after after' : List UInt8) :
    continuation count small ++ after < continuation count great ++ after' := by
  induction count with
  | zero => simp [Nat.mod_one] at below
  | succ count ih =>
    rw [Nat.pow_succ, Nat.mod_mul, Nat.mod_mul] at below
    have hsmall : small % 64 ^ count < 64 ^ count := Nat.mod_lt _ (Nat.pow_pos (by decide))
    have hgreat : great % 64 ^ count < 64 ^ count := Nat.mod_lt _ (Nat.pow_pos (by decide))
    simp only [continuation, List.cons_append, List.cons_lt_cons_iff, UInt8.lt_iff_toNat_lt,
      ← UInt8.toNat_inj, UInt8.toNat_ofNat']
    rcases Nat.lt_trichotomy (small / 64 ^ count % 64) (great / 64 ^ count % 64) with h | h | h
    · exact Or.inl (by omega)
    · rw [h] at below ⊢
      exact Or.inr ⟨rfl, ih (by omega)⟩
    · -- A greater first digit would outweigh all the others.
      have outweighs : 64 ^ count * (great / 64 ^ count % 64 + 1) ≤
          64 ^ count * (small / 64 ^ count % 64) := Nat.mul_le_mul_left _ h
      rw [Nat.mul_add, Nat.mul_one] at outweighs
      omega

/-- **The bytes of a character**: the first one tells how many follow, and they are digits of the
code point, to which the first byte adds what is left. -/
theorem exists_continuation (char : Char) : ∃ lead count,
    String.utf8EncodeChar char =
      UInt8.ofNat lead :: continuation count char.val.toNat ∧ lead < 256 ∧
        (char.val.toNat ≤ 0x7f ∧ count = 0 ∧ lead = char.val.toNat ∨
          0x7f < char.val.toNat ∧ char.val.toNat ≤ 0x7ff ∧ count = 1 ∧
            lead = char.val.toNat / 64 + 0xc0 ∨
          0x7ff < char.val.toNat ∧ char.val.toNat ≤ 0xffff ∧ count = 2 ∧
            lead = char.val.toNat / 64 ^ 2 + 0xe0 ∨
          0xffff < char.val.toNat ∧ count = 3 ∧ lead = char.val.toNat / 64 ^ 3 + 0xf0) := by
  have bounded : char.val.toNat < 0x110000 := by
    rcases char.valid with low | high <;> omega
  rw [String.utf8EncodeChar]
  generalize char.val.toNat = number at *
  split
  · exact ⟨number, 0, rfl, by omega, by omega⟩
  · split
    · refine ⟨number / 64 + 0xc0, 1, ?_, by omega, by omega⟩
      rw [Nat.mod_eq_of_lt (show number / 64 < 32 by omega)]
      simp [continuation]
    · split
      · refine ⟨number / 64 ^ 2 + 0xe0, 2, ?_, by omega, by omega⟩
        rw [Nat.mod_eq_of_lt (show number / 4096 < 16 by omega)]
        simp [continuation]
      · refine ⟨number / 64 ^ 3 + 0xf0, 3, ?_, by omega, by omega⟩
        rw [Nat.mod_eq_of_lt (show number / 262144 < 8 by omega)]
        simp [continuation]

/-- **A smaller character has smaller bytes**, whatever follows either. -/
theorem utf8EncodeChar_lt {first second : Char} (below : first < second)
    (after after' : List UInt8) :
    String.utf8EncodeChar first ++ after < String.utf8EncodeChar second ++ after' := by
  have smaller : first.val.toNat < second.val.toNat := below
  obtain ⟨lead, count, hfirst, hlead, kinds⟩ := exists_continuation first
  obtain ⟨lead', count', hsecond, hlead', kinds'⟩ := exists_continuation second
  rw [hfirst, hsecond, List.cons_append, List.cons_append, List.cons_lt_cons_iff,
    UInt8.lt_iff_toNat_lt, ← UInt8.toNat_inj, UInt8.toNat_ofNat', UInt8.toNat_ofNat',
    Nat.mod_eq_of_lt hlead, Nat.mod_eq_of_lt hlead']
  -- Where the first bytes are equal the widths are, and the digits that follow decide.
  have decided : lead < lead' ∨ lead = lead' ∧ count = count' ∧
      first.val.toNat % 64 ^ count < second.val.toNat % 64 ^ count := by
    rcases kinds with ⟨high, rfl, rfl⟩ | ⟨low, high, rfl, rfl⟩ | ⟨low, high, rfl, rfl⟩ |
        ⟨low, rfl, rfl⟩ <;>
      rcases kinds' with ⟨high', rfl, rfl⟩ | ⟨low', high', rfl, rfl⟩ | ⟨low', high', rfl, rfl⟩ |
        ⟨low', rfl, rfl⟩ <;>
      omega
  rcases decided with h | ⟨h, rfl, digits⟩
  · exact Or.inl h
  · exact Or.inr ⟨h, continuation_lt digits _ _⟩

theorem flatMap_lt {first second : List Char} (below : first < second) :
    first.flatMap String.utf8EncodeChar < second.flatMap String.utf8EncodeChar := by
  induction below with
  | @nil char chars =>
    obtain ⟨lead, count, hbytes, -⟩ := exists_continuation char
    rw [List.flatMap_nil, List.flatMap_cons, hbytes, List.cons_append]
    exact List.nil_lt_cons _ _
  | rel below =>
    rw [List.flatMap_cons, List.flatMap_cons]
    exact utf8EncodeChar_lt below _ _
  | cons _ ih =>
    rw [List.flatMap_cons, List.flatMap_cons]
    exact List.append_left_lt ih

/-- **Texts are ordered as their bytes are.** -/
theorem utf8_lt_iff {first second : String} : utf8 first < utf8 second ↔ first < second := by
  have mono {first second : String} (below : first < second) : utf8 first < utf8 second := by
    rw [utf8_eq_flatMap, utf8_eq_flatMap]
    exact flatMap_lt below
  refine ⟨fun bytes => ?_, mono⟩
  by_cases above : second < first
  · exact absurd (mono above) (List.lt_asymm bytes)
  · refine Decidable.byContradiction fun apart => ?_
    have same : first = second := String.le_antisymm (String.not_lt.1 above) (String.not_lt.1 apart)
    exact List.lt_irrefl _ (same ▸ bytes)

end Data

/-- Names that compare as smaller have smaller bytes. -/
theorem compare_eq_lt_iff_utf8 {first second : String} :
    compare first second = .lt ↔ Data.utf8 first < Data.utf8 second := by
  rw [Data.utf8_lt_iff]
  change compareOfLessAndEq first second = .lt ↔ _
  exact compareOfLessAndEq_eq_lt

end StableModels
