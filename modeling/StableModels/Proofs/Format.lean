import StableModels.Proofs.Store
import StableModels.Worker

/-!
# Programs as data, read back

What a program or a request is written as is data of a **plain** kind, which both formats hold
without loss (`StableModels.Data.isPlain`); and reading that data gives the program or the request
again (`StableModels.Program.ofData?_toData`, `StableModels.Request.ofData?_toData`).

Both hold of what is **storable**: slots, arities and references are words, and so no number is too
large for the reader. An integer may be of any size, since a large one is written as the text of its
decimal digits; the one that is excluded is the least integer of 64 bits, of which no magnitude can
be taken in 64 bits.
-/

namespace StableModels

/-! ### Storable programs -/

namespace Pattern

mutual

/-- The integers and words of a pattern can be stored. -/
def isStorable : Pattern → Bool
  | int value => value != Data.leastInteger
  | ref index => index ≤ Data.wordBound
  | var slot => slot ≤ Data.wordBound
  | const _ args => allStorable args
  | unit | bool _ | string _ | wildcard => true

/-- The integers and words of patterns can be stored. -/
def allStorable : List Pattern → Bool
  | [] => true
  | pattern :: patterns => isStorable pattern && allStorable patterns

end

theorem allStorable_iff {patterns : List Pattern} :
    allStorable patterns = true ↔ ∀ pattern ∈ patterns, pattern.isStorable = true := by
  induction patterns with
  | nil => simp [allStorable]
  | cons pattern patterns ih => rw [allStorable, Bool.and_eq_true, ih, List.forall_mem_cons]

end Pattern

/-- The words of a part of a template can be stored. -/
def SplitPart.isStorable : SplitPart → Bool
  | literal _ => true
  | piece slot => slot ≤ Data.wordBound

/-- The integers and words of an instruction can be stored. -/
def Instruction.isStorable : Instruction → Bool
  | const value => value.isStorable
  | load slot | store slot => slot ≤ Data.wordBound
  | plus arity | times arity | build _ arity | concat arity => arity ≤ Data.wordBound
  | split parts => parts.all SplitPart.isStorable
  | equal | notEqual | gt | geq | lt | leq | minus | boolTrue | boolFalse | natZero | natSucc
  | natPred | fail => true

/-- The integers and words of a premise can be stored. -/
def Premise.isStorable (premise : Premise) : Bool :=
  Pattern.allStorable premise.args && premise.value.isStorable

/-- The integers and words of a conclusion can be stored. -/
def Conclusion.isStorable : Conclusion → Bool
  | intermediate _ args => Pattern.allStorable args
  | fact _ args value => Pattern.allStorable args && value.isStorable
  | choice _ args values _ => Pattern.allStorable args && Pattern.allStorable values

/-- Words can be stored. -/
def Data.allWords (words : List Nat) : Bool := words.all (· ≤ Data.wordBound)

/-- The integers and words of a rule can be stored. -/
def Rule.isStorable : Rule → Bool
  | unary premise conclusion => premise.isStorable && conclusion.isStorable
  | join _ vars shared premise conclusion =>
    Data.allWords vars && shared ≤ Data.wordBound && premise.isStorable && conclusion.isStorable
  | run _ vars instructions conclusion | runForFailure _ vars instructions conclusion =>
    Data.allWords vars && instructions.all Instruction.isStorable && conclusion.isStorable

/-- The integers and words of a program can be stored. -/
def Program.isStorable (program : Program) : Bool := program.rules.all Rule.isStorable

/-- The integers and words of a request can be stored. -/
def Request.isStorable : Request → Bool
  | load program => program.isStorable
  | start | stop => true

/-! ### Scalars, read back -/

namespace Data

theorem foldlM_digits {digits : List Char} (decimal : ∀ char ∈ digits, char.isDigit = true)
    (value : Nat) :
    digits.foldlM (fun value char =>
        if char.isDigit then some (10 * value + (char.toNat - '0'.toNat))
        else if char = '_' then some value
        else none) value = some (Nat.ofDigitChars 10 digits value) := by
  induction digits generalizing value with
  | nil => rfl
  | cons digit digits ih =>
    obtain ⟨first, rest⟩ := List.forall_mem_cons.1 decimal
    rw [List.foldlM_cons, if_pos first]
    exact ih rest _

theorem isDigit_of_mem_toDigits {value : Nat} {char : Char} (mem : char ∈ Nat.toDigits 10 value) :
    char.isDigit = true :=
  Nat.isDigit_of_mem_toDigits (by decide) (by decide) mem

/-- The decimal digits of a number start with a digit. -/
theorem exists_toDigits (value : Nat) :
    ∃ digit digits, Nat.toDigits 10 value = digit :: digits ∧ digit.isDigit = true := by
  have some_digit : Nat.toDigits 10 value ≠ [] := Nat.toDigits_ne_nil
  obtain ⟨digit, digits, heq⟩ := List.exists_cons_of_ne_nil some_digit
  exact ⟨digit, digits, heq, isDigit_of_mem_toDigits (heq ▸ List.mem_cons_self)⟩

theorem digits?_toDigits (value : Nat) : digits? (Nat.toDigits 10 value) = some value := by
  obtain ⟨digit, digits, heq, first⟩ := exists_toDigits value
  have decimal : ∀ char ∈ digits, char.isDigit = true := fun char mem =>
    isDigit_of_mem_toDigits (heq ▸ List.mem_cons_of_mem digit mem)
  have denoted : Nat.ofDigitChars 10 (digit :: digits) 0 = value :=
    heq ▸ Nat.ofDigitChars_ten_toDigits
  rw [Nat.ofDigitChars_cons, Nat.mul_zero, Nat.zero_add] at denoted
  rw [heq, digits?, if_pos first, foldlM_digits decimal, denoted]

/-- **The decimal digits of an integer are read back.** -/
theorem signedDigits?_toString (value : Int) :
    signedDigits? (toString value).toList = some value := by
  cases value with
  | ofNat value =>
    obtain ⟨digit, digits, heq, first⟩ := exists_toDigits value
    have unsigned : (toString (Int.ofNat value)).toList = Nat.toDigits 10 value := by
      rw [show toString (Int.ofNat value) = toString value from rfl,
        Nat.toString_eq_ofList_toDigits, String.toList_ofList]
    have read := digits?_toDigits value
    rw [unsigned]
    rw [heq] at read ⊢
    rw [signedDigits?, read]
    · rfl
    · rintro _ ⟨⟩; cases first
    · rintro _ ⟨⟩; cases first
  | negSucc value =>
    have signed : (toString (Int.negSucc value)).toList = '-' :: Nat.toDigits 10 (value + 1) := by
      rw [show toString (Int.negSucc value) = "-" ++ toString (value + 1) from rfl,
        Nat.toString_eq_ofList_toDigits, String.toList_append, String.toList_ofList,
        String.toList_ofList]
      rfl
    rw [signed, signedDigits?, digits?_toDigits]
    rfl

/-- **Text is read back from its bytes.** -/
theorem utf8?_utf8 (text : String) : utf8? (utf8 text) = some text := by
  have bytes_eq : text.toByteArray.data.toList.toByteArray = text.toByteArray :=
    ByteArray.ext (by rw [List.data_toByteArray])
  rw [utf8?, utf8, bytes_eq, String.fromUTF8?, dif_pos]
  rfl

@[simp] theorem required_some {α : Type} (read? : Data → Option α) (value : Data) :
    required read? (some value) = read? value :=
  rfl

@[simp] theorem optional_some {α : Type} (default : α) (read? : Data → Option α) (value : Data) :
    optional default read? (some value) = read? value :=
  rfl

@[simp] theorem text?_text (value : String) : (text value).text? = some value := rfl

@[simp] theorem bool?_bool (value : Bool) : (bool value).bool? = some value := rfl

@[simp] theorem int?_ofInt (value : Int) : (ofInt value).int? = some value := by
  rw [ofInt]
  split
  · rw [ofExact]
    split
    · next nonnegative => exact congrArg some (Int.toNat_of_nonneg nonnegative)
    · rfl
  · exact signedDigits?_toString value

theorem word?_natural {value : Nat} (fits : value ≤ wordBound) :
    (natural value).word? = some value :=
  if_pos fits

theorem list?_list {α : Type} {item? : Data → Option α} {write : α → Data} {items : List α}
    (read : ∀ item ∈ items, item? (write item) = some item) :
    (list (items.map write)).list? item? = some items := by
  rw [list?, mapM_eq_some_iff, List.forall₂_map_left_iff]
  exact List.forall₂_same.2 read

end Data

/-! ### Structs and tagged values, read back -/

namespace Data

variable {naming : Naming} {tag kind : String} {names kinds : List String}
  {members : List (String × Data)}

/-- **A tagged value is read back**, unless a member has the name of the tag. -/
theorem tagged?_tagged {place : Nat} (known : kinds.idxOf? kind = some place)
    (apart : ∀ member ∈ members, member.1 ≠ tag) :
    (tagged tag kind members).tagged? naming tag kinds = some (place, struct members) := by
  have untagged : ∀ member ∈ members.map fun member => (text member.1, member.2),
      isTag tag member.1 = false := by
    intro keyed mem
    obtain ⟨member, given, rfl⟩ := List.mem_map.1 mem
    simpa [isTag] using apart member given
  have is_tag : isTag tag (text tag) = true := by simp [isTag]
  have none_tagged := List.filter_eq_nil_iff.2 fun member mem =>
    ne_true_of_eq_false (untagged member mem)
  have all_untagged := List.filter_eq_self.2 fun member mem =>
    (congrArg Bool.not (untagged member mem) : (!isTag tag member.1) = true)
  rw [tagged, struct, tagged?, List.map_cons]
  simp only [List.filter_cons, is_tag, if_true, none_tagged, all_untagged, Bool.not_true,
    Bool.false_eq_true, if_false]
  exact congrArg (Option.map fun kind => (kind, struct members)) known

theorem idxOf?_append_cons {name : String} {before after : List String}
    (distinct : (before ++ name :: after).Nodup) :
    (before ++ name :: after).idxOf? name = some before.length := by
  refine List.idxOf?_eq_some_iff.2 ⟨by simp, by simp, fun place lt same => ?_⟩
  rw [List.getElem_append_left lt] at same
  have apart := (List.nodup_append.1 distinct).2.2
  exact apart _ (List.getElem_mem lt) name List.mem_cons_self same

theorem place?_struct {before : List (String × Data)}
    (distinct : ((before ++ members).map Prod.fst).Nodup) :
    place? naming ((before ++ members).map Prod.fst)
        (members.map fun member => (text member.1, member.2))
        ((before.map fun member => some member.2) ++ members.map fun _ => none) =
      some ((before ++ members).map fun member => some member.2) := by
  induction members generalizing before with
  | nil => simp [place?]
  | cons member members ih =>
    have first : ((before ++ member :: members).map Prod.fst).idxOf? member.1 =
        some before.length := by
      rw [List.map_append, List.map_cons] at distinct ⊢
      rw [idxOf?_append_cons distinct, List.length_map]
    rw [List.append_cons] at distinct
    have placed := ih distinct
    rw [← List.append_cons] at placed
    rw [List.map_cons, place?, nameIndex?, first]
    simpa using placed

/-- **A struct is read back** by the names of its members. -/
@[simp] theorem members?_struct (named : members.map Prod.fst = names) (distinct : names.Nodup) :
    (struct members).members? naming names = some (members.map fun member => some member.2) := by
  subst named
  have placed := @place?_struct naming members [] distinct
  rw [struct, members?, List.map_map]
  exact placed

@[simp] theorem sequence_struct (members : List (String × Data)) :
    (struct members).sequence = struct members :=
  rfl

@[simp] theorem sequence_list (items : List Data) : (list items).sequence = list items := rfl

end Data

/-! ### Patterns -/

namespace Pattern

open Data

theorem depth_const (name : String) (args : List Pattern) :
    (const name args).toData.depth = depthOfItems (listData args) + 2 := by
  simp [toData, tagged, struct, depth, depthOfMembers]

mutual

/-- **A pattern is read back**, if as many layers are read as it has. -/
theorem ofDataWithin?_toData : (pattern : Pattern) → (naming : Naming) → (fuel : Nat) →
    pattern.isStorable = true → pattern.toData.depth ≤ fuel →
      ofDataWithin? fuel naming pattern.toData = some pattern
  | pattern, _, 0, _, le => by cases pattern <;> simp [toData, tagged, struct, depth] at le
  | .unit, _, fuel + 1, _, _ | .wildcard, _, fuel + 1, _, _ => rfl
  | .int value, naming, fuel + 1, _, _ | .bool value, naming, fuel + 1, _, _
  | .string value, naming, fuel + 1, _, _ => by
    rw [toData, ofDataWithin?, tagged?_tagged rfl (by simp)]
    simp
  | .ref index, naming, fuel + 1, storable, _ | .var index, naming, fuel + 1, storable, _ => by
    have fits : index ≤ wordBound := of_decide_eq_true storable
    rw [toData, ofDataWithin?, tagged?_tagged rfl (by simp)]
    simp [word?_natural fits]
  | .const name args, naming, fuel + 1, storable, le => by
    rw [depth_const] at le
    have read := listData_mapM args fuel storable (by omega)
    rw [toData, ofDataWithin?, tagged?_tagged rfl (by simp)]
    simp [list?, read]

theorem listData_mapM : (patterns : List Pattern) → (fuel : Nat) → allStorable patterns = true →
    depthOfItems (listData patterns) ≤ fuel →
      (listData patterns).mapM (ofDataWithin? fuel .byNumber) = some patterns
  | [], _, _, _ => rfl
  | pattern :: patterns, fuel, storable, le => by
    rw [allStorable, Bool.and_eq_true] at storable
    rw [listData, depthOfItems, Nat.max_le] at le
    rw [listData, List.mapM_cons, ofDataWithin?_toData pattern _ fuel storable.1 le.1,
      listData_mapM patterns fuel storable.2 le.2]
    rfl

end

theorem listData_eq_map (patterns : List Pattern) : listData patterns = patterns.map toData := by
  induction patterns with
  | nil => rfl
  | cons pattern patterns ih => rw [listData, ih, List.map_cons]

theorem ofData?_toData {pattern : Pattern} {naming : Naming}
    (storable : pattern.isStorable = true) :
    ofData? naming pattern.toData = some pattern :=
  ofDataWithin?_toData pattern naming _ storable (Nat.le_refl _)

theorem listOfData?_listData {patterns : List Pattern} (storable : allStorable patterns = true) :
    listOfData? (.list (listData patterns)) = some patterns := by
  rw [listData_eq_map]
  exact list?_list fun pattern mem => ofData?_toData (allStorable_iff.1 storable pattern mem)

end Pattern

/-! ### Instructions -/

open Data (tagged?_tagged list?_list word?_natural)

theorem SplitPart.ofData?_toData {part : SplitPart} (storable : part.isStorable = true) :
    ofData? part.toData = some part := by
  cases part with
  | literal text =>
    rw [toData, ofData?, tagged?_tagged rfl (by simp)]
    simp
  | piece slot =>
    rw [toData, ofData?, tagged?_tagged rfl (by simp)]
    simp [word?_natural (of_decide_eq_true storable)]

namespace Instruction

/-- An instruction whose only member is a word is read back. -/
theorem ofWord?_struct {name : String} {make : Nat → Instruction} {word : Nat}
    (fits : word ≤ Data.wordBound) :
    ofWord? name make (.struct [(name, .natural word)]) = some (make word) := by
  simp [ofWord?, word?_natural fits]

theorem ofData?_toData {naming : Data.Naming} {instruction : Instruction}
    (storable : instruction.isStorable = true) :
    ofData? naming instruction.toData = some instruction := by
  cases instruction with
  | equal | notEqual | gt | geq | lt | leq | minus | boolTrue | boolFalse | natZero | natSucc
  | natPred | fail => rfl
  | load | store | plus | times | concat =>
    rw [toData, ofData?, tagged?_tagged rfl (by simp)]
    simp [ofWord?_struct (of_decide_eq_true storable)]
  | const value =>
    rw [toData, ofData?, tagged?_tagged rfl (by simp)]
    simp [Pattern.ofData?_toData storable]
  | build name arity =>
    rw [toData, ofData?, tagged?_tagged rfl (by simp)]
    simp [word?_natural (of_decide_eq_true storable)]
  | split parts =>
    have read : ∀ part ∈ parts, SplitPart.ofData? part.toData = some part := fun part mem =>
      SplitPart.ofData?_toData (List.all_eq_true.1 storable part mem)
    rw [toData, ofData?, tagged?_tagged rfl (by simp)]
    simp [list?_list read]

end Instruction

/-! ### Rules -/

theorem Premise.ofData?_toData {premise : Premise} (storable : premise.isStorable = true) :
    ofData? premise.toData = some premise := by
  rw [isStorable, Bool.and_eq_true] at storable
  have args := Pattern.listOfData?_listData storable.1
  have value : Pattern.ofData? .byNumber premise.value.toData = some premise.value :=
    Pattern.ofData?_toData storable.2
  simp [toData, ofData?, memberNames, args, value]

theorem Conclusion.ofData?_toData {conclusion : Conclusion}
    (storable : conclusion.isStorable = true) :
    ofData? conclusion.toData = some conclusion := by
  cases conclusion with
  | intermediate name args =>
    rw [toData, ofData?, tagged?_tagged rfl (by simp)]
    simp [Pattern.listOfData?_listData storable]
  | fact name args value =>
    rw [isStorable, Bool.and_eq_true] at storable
    rw [toData, ofData?, tagged?_tagged rfl (by simp)]
    simp [Pattern.listOfData?_listData storable.1, Pattern.ofData?_toData storable.2]
  | choice name args values exhaustive =>
    rw [isStorable, Bool.and_eq_true] at storable
    rw [toData, ofData?, tagged?_tagged rfl (by simp)]
    simp [Pattern.listOfData?_listData storable.1, Pattern.listOfData?_listData storable.2]

theorem Data.list?_ofWords {words : List Nat} (fit : allWords words = true) :
    (ofWords words).list? word? = some words :=
  list?_list fun word mem => word?_natural (of_decide_eq_true (List.all_eq_true.1 fit word mem))

namespace Rule

variable {intermediate : String} {vars : List Nat} {instructions : List Instruction}
  {conclusion : Conclusion}

/-- A rule that runs code is read back. -/
theorem ofCode?_codeData {make : String → List Nat → List Instruction → Conclusion → Rule}
    (storable : (run intermediate vars instructions conclusion).isStorable = true) :
    ofCode? make (.struct (codeData intermediate vars instructions conclusion)) =
      some (make intermediate vars instructions conclusion) := by
  rw [isStorable, Bool.and_eq_true, Bool.and_eq_true] at storable
  obtain ⟨⟨fit, runs⟩, concludes⟩ := storable
  have read : ∀ instruction ∈ instructions,
      Instruction.ofData? .byNumber instruction.toData = some instruction := fun instruction mem =>
    Instruction.ofData?_toData (List.all_eq_true.1 runs instruction mem)
  simp [ofCode?, codeData, Data.list?_ofWords fit, list?_list read,
    Conclusion.ofData?_toData concludes]

theorem ofData?_toData {naming : Data.Naming} {rule : Rule} (storable : rule.isStorable = true) :
    ofData? naming rule.toData = some rule := by
  cases rule with
  | unary premise conclusion =>
    rw [isStorable, Bool.and_eq_true] at storable
    rw [toData, ofData?, tagged?_tagged rfl (by simp)]
    simp [Premise.ofData?_toData storable.1, Conclusion.ofData?_toData storable.2]
  | join intermediate vars shared premise conclusion =>
    simp only [isStorable, Bool.and_eq_true, decide_eq_true_iff] at storable
    obtain ⟨⟨⟨fit, shares⟩, matched⟩, concludes⟩ := storable
    rw [toData, ofData?, tagged?_tagged rfl (by simp)]
    simp [Data.list?_ofWords fit, word?_natural shares, Premise.ofData?_toData matched,
      Conclusion.ofData?_toData concludes]
  | run | runForFailure =>
    rw [toData, ofData?, tagged?_tagged rfl (by simp [codeData])]
    exact ofCode?_codeData storable

end Rule

/-! ### Programs and requests -/

theorem Data.names?_ofNames (names : List String) : (ofNames names).names? = some names :=
  list?_list fun name _ => text?_text name

/-- **A program is read back** from what it is written as, however members may be named. -/
theorem Program.ofData?_toData {naming : Data.Naming} {program : Program}
    (storable : program.isStorable = true) : ofData? naming program.toData = some program := by
  have read : ∀ rule ∈ program.rules, Rule.ofData? naming rule.toData = some rule :=
    fun rule mem => Rule.ofData?_toData (List.all_eq_true.1 storable rule mem)
  simp [toData, membersData, ofData?, memberNames, Data.names?_ofNames, list?_list read]

/-- **A request is read back** from what it is written as. -/
theorem Request.ofData?_toData {request : Request} (storable : request.isStorable = true) :
    ofData? request.toData = some request := by
  cases request with
  | load program =>
    rw [toData, ofData?, tagged?_tagged rfl (by simp [Program.membersData])]
    exact congrArg (Option.map load) (Program.ofData?_toData storable)
  | start | stop => rfl

/-! ### Plain data -/

namespace Data

/-- The data is text. -/
def isText : Data → Bool
  | text _ => true
  | _ => false

mutual

/-- **Data that both formats hold without loss**: no number needs more than 64 bits, those with a
sign are negative, and keys are text. -/
def isPlain : Data → Bool
  | null | bool _ | text _ => true
  | natural value => value ≤ wordBound
  | integer value => leastInteger ≤ value && value < 0
  | list items => allPlain items
  | record members => allPlainMembers members
  | padded .. | real _ | bytes _ | extension .. => false

/-- Items are plain. -/
def allPlain : List Data → Bool
  | [] => true
  | item :: items => isPlain item && allPlain items

/-- The keys of members are text, and their values plain. -/
def allPlainMembers : List (Data × Data) → Bool
  | [] => true
  | (key, value) :: members => key.isText && isPlain value && allPlainMembers members

end

theorem isPlain_struct {members : List (String × Data)}
    (plain : ∀ member ∈ members, member.2.isPlain = true) : (struct members).isPlain = true := by
  rw [struct, isPlain]
  induction members with
  | nil => rfl
  | cons member members ih =>
    obtain ⟨first, rest⟩ := List.forall_mem_cons.1 plain
    rw [List.map_cons, allPlainMembers, first, ih rest]
    rfl

theorem isPlain_tagged {tag kind : String} {members : List (String × Data)}
    (plain : ∀ member ∈ members, member.2.isPlain = true) :
    (tagged tag kind members).isPlain = true :=
  isPlain_struct (List.forall_mem_cons.2 ⟨rfl, plain⟩)

theorem isPlain_list {α : Type} {write : α → Data} {items : List α}
    (plain : ∀ item ∈ items, (write item).isPlain = true) :
    (list (items.map write)).isPlain = true := by
  rw [isPlain]
  induction items with
  | nil => rfl
  | cons item items ih =>
    obtain ⟨first, rest⟩ := List.forall_mem_cons.1 plain
    rw [List.map_cons, allPlain, first, ih rest]
    rfl

theorem isPlain_ofInt (value : Int) : (ofInt value).isPlain = true := by
  rw [ofInt]
  split
  · next written =>
    rw [isNumber, Bool.or_eq_true, decide_eq_true_iff, beq_iff_eq, exactBound, leastInteger]
      at written
    rw [ofExact]
    split
    · rw [isPlain, wordBound, decide_eq_true_iff]
      omega
    · rw [isPlain, leastInteger, Bool.and_eq_true, decide_eq_true_iff, decide_eq_true_iff]
      omega
  · rfl

theorem isPlain_natural {value : Nat} (fits : value ≤ wordBound) :
    (natural value).isPlain = true :=
  decide_eq_true fits

theorem isPlain_ofNames (names : List String) : (ofNames names).isPlain = true :=
  isPlain_list fun _ _ => rfl

theorem isPlain_ofWords {words : List Nat} (fit : allWords words = true) :
    (ofWords words).isPlain = true :=
  isPlain_list (List.all_eq_true.1 fit)

end Data

open Data (isPlain_tagged isPlain_struct isPlain_list isPlain_ofInt isPlain_natural isPlain_ofNames
  isPlain_ofWords)

mutual

theorem Pattern.isPlain_toData : (pattern : Pattern) → pattern.isStorable = true →
    pattern.toData.isPlain = true
  | .unit, _ | .wildcard, _ | .bool _, _ | .string _, _ => rfl
  | .int value, _ => isPlain_tagged (by simpa using isPlain_ofInt value)
  | .ref _, storable | .var _, storable =>
    isPlain_tagged (by simpa using isPlain_natural (of_decide_eq_true storable))
  | .const _ args, storable =>
    isPlain_tagged (by simpa using ⟨rfl, isPlain_listData args storable⟩)

theorem Pattern.isPlain_listData : (patterns : List Pattern) →
    Pattern.allStorable patterns = true → (Data.list (Pattern.listData patterns)).isPlain = true
  | [], _ => rfl
  | pattern :: patterns, storable => by
    rw [allStorable, Bool.and_eq_true] at storable
    have rest := isPlain_listData patterns storable.2
    rw [Data.isPlain] at rest ⊢
    rw [listData, Data.allPlain, isPlain_toData pattern storable.1, rest]
    rfl

end

theorem SplitPart.isPlain_toData {part : SplitPart} (storable : part.isStorable = true) :
    part.toData.isPlain = true := by
  cases part with
  | literal text => rfl
  | piece slot =>
    exact isPlain_tagged (by simpa using isPlain_natural (of_decide_eq_true storable))

theorem Instruction.isPlain_toData {instruction : Instruction}
    (storable : instruction.isStorable = true) : instruction.toData.isPlain = true := by
  cases instruction with
  | equal | notEqual | gt | geq | lt | leq | minus | boolTrue | boolFalse | natZero | natSucc
  | natPred | fail => rfl
  | load | store | plus | times | concat =>
    exact isPlain_tagged (by simpa using isPlain_natural (of_decide_eq_true storable))
  | const value => exact isPlain_tagged (by simpa using Pattern.isPlain_toData value storable)
  | build name arity =>
    have arity := isPlain_natural (of_decide_eq_true storable)
    exact isPlain_tagged (by simpa using ⟨rfl, arity⟩)
  | split parts =>
    have plain := isPlain_list fun part mem =>
      SplitPart.isPlain_toData (List.all_eq_true.1 storable part mem)
    exact isPlain_tagged (by simpa using plain)

theorem Premise.isPlain_toData {premise : Premise} (storable : premise.isStorable = true) :
    premise.toData.isPlain = true := by
  rw [isStorable, Bool.and_eq_true] at storable
  have args := Pattern.isPlain_listData premise.args storable.1
  have value := Pattern.isPlain_toData premise.value storable.2
  exact isPlain_struct (by simpa using ⟨rfl, args, value⟩)

theorem Conclusion.isPlain_toData {conclusion : Conclusion}
    (storable : conclusion.isStorable = true) : conclusion.toData.isPlain = true := by
  cases conclusion with
  | intermediate name args =>
    have args := Pattern.isPlain_listData args storable
    exact isPlain_tagged (by simpa using ⟨rfl, args⟩)
  | fact name args value =>
    rw [isStorable, Bool.and_eq_true] at storable
    have args := Pattern.isPlain_listData args storable.1
    have value := Pattern.isPlain_toData value storable.2
    exact isPlain_tagged (by simpa using ⟨rfl, args, value⟩)
  | choice name args values exhaustive =>
    rw [isStorable, Bool.and_eq_true] at storable
    have args := Pattern.isPlain_listData args storable.1
    have values := Pattern.isPlain_listData values storable.2
    exact isPlain_tagged (by simpa using ⟨rfl, args, values, rfl⟩)

theorem Rule.isPlain_codeData {intermediate : String} {vars : List Nat}
    {instructions : List Instruction} {conclusion : Conclusion}
    (storable : (run intermediate vars instructions conclusion).isStorable = true) :
    ∀ member ∈ codeData intermediate vars instructions conclusion, member.2.isPlain = true := by
  rw [isStorable, Bool.and_eq_true, Bool.and_eq_true] at storable
  have vars := isPlain_ofWords storable.1.1
  have instructions := isPlain_list fun instruction mem =>
    Instruction.isPlain_toData (List.all_eq_true.1 storable.1.2 instruction mem)
  have conclusion := Conclusion.isPlain_toData storable.2
  simpa [codeData] using ⟨rfl, vars, instructions, conclusion⟩

theorem Rule.isPlain_toData {rule : Rule} (storable : rule.isStorable = true) :
    rule.toData.isPlain = true := by
  cases rule with
  | unary premise conclusion =>
    rw [isStorable, Bool.and_eq_true] at storable
    have premise := Premise.isPlain_toData storable.1
    have conclusion := Conclusion.isPlain_toData storable.2
    exact isPlain_tagged (by simpa using ⟨premise, conclusion⟩)
  | join intermediate vars shared premise conclusion =>
    simp only [isStorable, Bool.and_eq_true] at storable
    obtain ⟨⟨⟨fit, shares⟩, matched⟩, concludes⟩ := storable
    have vars := isPlain_ofWords fit
    have premise := Premise.isPlain_toData matched
    have conclusion := Conclusion.isPlain_toData concludes
    exact isPlain_tagged (by simpa using ⟨rfl, vars, shares, premise, conclusion⟩)
  | run | runForFailure => exact isPlain_tagged (isPlain_codeData storable)

theorem Program.isPlain_membersData {program : Program} (storable : program.isStorable = true) :
    ∀ member ∈ program.membersData, member.2.isPlain = true := by
  have seeds := isPlain_ofNames program.seeds
  have rules := isPlain_list fun rule mem =>
    Rule.isPlain_toData (List.all_eq_true.1 storable rule mem)
  have demands := isPlain_ofNames program.demands
  have forbids := isPlain_ofNames program.forbids
  simpa [membersData] using ⟨seeds, rules, demands, forbids⟩

/-- **A program is written as plain data.** -/
theorem Program.isPlain_toData {program : Program} (storable : program.isStorable = true) :
    program.toData.isPlain = true :=
  isPlain_struct (isPlain_membersData storable)

/-- **A request is written as plain data.** -/
theorem Request.isPlain_toData {request : Request} (storable : request.isStorable = true) :
    request.toData.isPlain = true := by
  cases request with
  | load program => exact isPlain_tagged (Program.isPlain_membersData storable)
  | start | stop => rfl

end StableModels
