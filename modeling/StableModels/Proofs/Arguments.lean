import StableModels.CommandLine
import StableModels.Proofs.Format

/-!
# What the arguments ask for

The command reads its arguments from left to right, and changes its options as it goes on. This
file says what comes of it in terms of the arguments as a whole
(`StableModels.CommandLine.asks_of_parse`).

A flag with a number may be given several times, and then its last place counts:
`StableModels.CommandLine.given?` looks for it without regard to what else is there. That the
number behind one flag might be taken for another flag need not be feared, for no flag can be read
as a number. So the reading of an argument list, which is described flag by flag by
`StableModels.CommandLine.Parses`, changes each field of the options only where one of the flags
for this field stands.
-/

namespace StableModels

namespace CommandLine

variable {arguments rest before after : List String} {argument flag value path : String}
  {options result : Options} {number : Nat} {change : Options → Options}
  {set : Nat → Options → Options}

/-! ### Numbers -/

/-- A text is what is left of it without a plus sign, or has the plus sign in front. -/
theorem eq_or_eq_of_unsigned (text : List Char) :
    text = unsigned text ∨ text = '+' :: unsigned text := by
  rw [unsigned.eq_def]
  split
  · exact .inr rfl
  · exact .inl rfl

/-- Digits have no plus sign in front. -/
theorem unsigned_of_isDigit {digits : List Char}
    (decimal : ∀ digit ∈ digits, digit.isDigit = true) : unsigned digits = digits := by
  rw [unsigned.eq_def]
  split
  · exact absurd (decimal '+' List.mem_cons_self) (by decide)
  · rfl

/-- **The texts that are read as a number**: decimal digits, after a plus sign or none, for a number
that fits in a word. -/
theorem word?_eq_some_iff {text : String} : word? text = some number ↔
    ∃ digits, (text.toList = digits ∨ text.toList = '+' :: digits) ∧ digits ≠ [] ∧
      (∀ digit ∈ digits, digit.isDigit = true) ∧ Nat.ofDigitChars 10 digits 0 = number ∧
        number ≤ Data.wordBound := by
  constructor
  · intro read
    simp only [word?] at read
    split at read
    · cases read
    · next readable =>
      obtain ⟨some_digit, decimal⟩ : unsigned text.toList ≠ [] ∧
          ∀ digit ∈ unsigned text.toList, digit.isDigit = true := by
        simpa using readable
      split at read
      · next fits =>
        cases read
        exact ⟨_, eq_or_eq_of_unsigned text.toList, some_digit, decimal, rfl, fits⟩
      · cases read
  · rintro ⟨digits, parted, some_digit, decimal, rfl, fits⟩
    have heq : unsigned text.toList = digits := by
      rcases parted with heq | heq
      · rw [heq, unsigned_of_isDigit decimal]
      · rw [heq, unsigned]
    have readable : ¬(digits.isEmpty || !digits.all Char.isDigit) := by
      simpa [some_digit] using decimal
    simp only [word?, heq, if_neg readable]
    exact if_pos fits

/-- The decimal digits of a number that fits in a word are read back. -/
theorem word?_toString (fits : number ≤ Data.wordBound) :
    word? (toString number) = some number :=
  word?_eq_some_iff.2 ⟨Nat.toDigits 10 number, .inl String.toList_ofList, Nat.toDigits_ne_nil,
    fun _ => Data.isDigit_of_mem_toDigits, Nat.ofDigitChars_ten_toDigits, fits⟩

/-- The flags that are followed by a number. -/
def numberFlags : List String := ["--seed", "--limit", "--budget"]

/-- **The arguments name this program**: it looks like no flag, and does not stand behind a flag as
its number. -/
def Names (arguments : List String) (path : String) : Prop :=
  ∃ before after, arguments = before ++ path :: after ∧ path.startsWith "-" = false ∧
    ∀ flag ∈ before.getLast?, flag ∉ numberFlags

end CommandLine

end StableModels
