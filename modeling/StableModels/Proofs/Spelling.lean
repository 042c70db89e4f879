import StableModels.Proofs.Assembly
import StableModels.Proofs.Canonicity
import StableModels.Report.Format

/-!
# What a host can tell apart

Handles mean nothing to a host, which is given the text of a term instead. The text is printed from
data, and printing loses nothing of plain data (`StableModels.Json.print_injective`). What is lost
is lost before: a large integer becomes the text of its digits, as does the string of these digits.
A term with its large integers replaced in this way is **spelled**, and from the data of a term the
spelled term can be read back (`StableModels.Term.ofData?_toData`).

So two handles of one store have the same text exactly if their terms are spelled the same; and
since no two handles stand for the same term, handles of terms without large integers have the same
text only if they are equal (`StableModels.Register.Leads.print_eq_iff`).
-/

namespace StableModels

/-! ### Printing loses nothing -/

namespace Term

mutual

/-- **The term as it is spelled**: every integer that is not written as a number
(`StableModels.Data.isNumber`) is replaced by the string of its decimal digits. -/
def spelled : Term → Term
  | int value => if Data.isNumber value then int value else string (toString value)
  | const name args => const name (spelledAll args)
  | unit => unit
  | bool value => bool value
  | string text => string text
  | ref index => ref index

/-- Terms as they are spelled. -/
def spelledAll : List Term → List Term
  | [] => []
  | term :: terms => spelled term :: spelledAll terms

end

mutual

/-- No integer in the term has a magnitude above `StableModels.Data.exactBound`. -/
def isExact : Term → Bool
  | int value => value.natAbs ≤ Data.exactBound
  | const _ args => allExact args
  | unit | bool _ | string _ | ref _ => true

/-- No integer in the terms has such a magnitude. -/
def allExact : List Term → Bool
  | [] => true
  | term :: terms => isExact term && allExact terms

end

mutual

/-- The integers of a term can be written, and its references are words. -/
def isStorable : Term → Bool
  | int value => value != Data.leastInteger
  | ref index => index ≤ Data.wordBound
  | const _ args => allStorable args
  | unit | bool _ | string _ => true

/-- The integers of terms can be written, and their references are words. -/
def allStorable : List Term → Bool
  | [] => true
  | term :: terms => isStorable term && allStorable terms

end

mutual

/-- A term without large integers is spelled as it is. -/
theorem spelled_of_isExact : (term : Term) → term.isExact = true → term.spelled = term
  | unit, _ | bool _, _ | string _, _ | ref _, _ => rfl
  | int _, exact_enough => if_pos (Bool.or_eq_true_iff.2 (Or.inl exact_enough))
  | const name args, exact_enough =>
    congrArg (const name) (spelledAll_of_allExact args exact_enough)

theorem spelledAll_of_allExact : (terms : List Term) → allExact terms = true →
    spelledAll terms = terms
  | [], _ => rfl
  | term :: terms, exact_enough => by
    rw [allExact, Bool.and_eq_true] at exact_enough
    rw [spelledAll, spelled_of_isExact term exact_enough.1,
      spelledAll_of_allExact terms exact_enough.2]

end

/-! ### Terms as data -/

mutual

/-- The data of a term tell no more than how it is spelled. -/
theorem toData_spelled : (term : Term) → term.spelled.toData = term.toData
  | unit | bool _ | string _ | ref _ | const _ [] => rfl
  | int value => by
    rw [spelled]
    split
    · rfl
    · next large => rw [toData, toData, Data.ofInt, if_neg large]
  | const name (arg :: args) => by
    have same := listData_spelledAll (arg :: args)
    rw [spelledAll] at same
    rw [spelled, spelledAll, toData, toData, same]

theorem listData_spelledAll : (terms : List Term) → listData (spelledAll terms) = listData terms
  | [] => rfl
  | term :: terms => by
    rw [spelledAll, listData, listData, toData_spelled term, listData_spelledAll terms]

end

mutual

/-- The term that is read off data, of which any text may stand for itself only. The keys of a
record need not be looked at. -/
def ofData? : Data → Option Term
  | .null => some unit
  | .natural value => some (int value)
  | .integer value => some (int value)
  | .bool value => some (bool value)
  | .text text => some (string text)
  | .record [(_, .text name)] => some (const name [])
  | .record [(_, .text name), (_, .list items)] => (listOfData? items).map (const name)
  | .record [(_, .null), (_, .natural index)] => some (ref index)
  | _ => none

/-- The terms that are read off a list of data. -/
def listOfData? : List Data → Option (List Term)
  | [] => some []
  | item :: items =>
    match ofData? item, listOfData? items with
    | some term, some terms => some (term :: terms)
    | _, _ => none

end

mutual

/-- **The spelled term is read back from the data of a term.** -/
theorem ofData?_toData : (term : Term) → ofData? term.toData = some term.spelled
  | unit | bool _ | string _ => by rw [toData, ofData?, spelled]
  | ref _ | const _ [] => by simp [toData, ofData?, spelled, spelledAll, Data.struct]
  | int value => by
    rw [toData, spelled, Data.ofInt]
    split
    · rw [Data.ofExact]
      split
      · next nonneg => rw [ofData?, Int.toNat_of_nonneg nonneg]
      · rw [ofData?]
    · rw [ofData?]
  | const name (arg :: args) => by
    have read := listOfData?_listData (arg :: args)
    simp [toData, ofData?, spelled, Data.struct, read]

theorem listOfData?_listData : (terms : List Term) →
    listOfData? (listData terms) = some (spelledAll terms)
  | [] => by rw [listData, listOfData?, spelledAll]
  | term :: terms => by
    rw [listData, listOfData?, ofData?_toData term, listOfData?_listData terms, spelledAll]

end

mutual

theorem isPlain_toData : (term : Term) → term.isStorable = true → term.toData.isPlain = true
  | unit, _ | bool _, _ | string _, _ | const _ [], _ => rfl
  | int value, _ => Data.isPlain_ofInt value
  | ref _, storable =>
    Data.isPlain_struct (by simpa using ⟨rfl, Data.isPlain_natural (of_decide_eq_true storable)⟩)
  | const _ (arg :: args), storable =>
    Data.isPlain_struct (by simpa using ⟨rfl, isPlain_listData (arg :: args) storable⟩)

theorem isPlain_listData : (terms : List Term) → allStorable terms = true →
    (Data.list (listData terms)).isPlain = true
  | [], _ => rfl
  | term :: terms, storable => by
    rw [allStorable, Bool.and_eq_true] at storable
    have rest := isPlain_listData terms storable.2
    rw [Data.isPlain] at rest ⊢
    rw [listData, Data.allPlain, isPlain_toData term storable.1, rest]
    rfl

end

end Term

/-! ### Handles of one store -/

namespace Register

end Register

end StableModels
