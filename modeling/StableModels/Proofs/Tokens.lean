import StableModels.Data.Json.Printer
import StableModels.Data.Json.Reader
import StableModels.Proofs.Format

/-!
# The tokens of printed data

The printer puts tokens one after the other, with nothing between them in the compact form and with
blanks in the spread form; the scanner gets them back. Both forms of the same data have the same
tokens (`StableModels.Json.tokensOf`).

The argument composes what is **read** of a text (`StableModels.Json.Reads`): a string is read up to
its closing quote, but a number or a word only ends where the next character does not belong to it.
So a text that is read leaves the scanner **ready** (`StableModels.Json.Ready`), with a token that
it may still have to end, and two such texts follow each other only across a **mark**, one of the
characters that end whatever is before them (`StableModels.Json.Marks`).
-/

namespace StableModels.Json

/-! ### Runs of the scanner -/

/-- Takes characters one after the other. -/
def scan? (chars : List Char) (scan : Scan) : Option Scan :=
  (chars.map some).foldlM Scan.advance scan

variable {char : Char} {chars more : List Char} {scan after : Scan}
  {tokens others news : List Token}

theorem scan?_cons (char : Char) (chars : List Char) (scan : Scan) :
    scan? (char :: chars) scan = (scan.advance (some char)).bind (scan? chars) :=
  List.foldlM_cons

theorem scan?_append (chars more : List Char) (scan : Scan) :
    scan? (chars ++ more) scan = (scan? chars scan).bind (scan? more) := by
  rw [scan?, List.map_append, List.foldlM_append]
  rfl

theorem advance_eq_some {mode : Mode} {news : List Token} {next : Mode}
    (scanned : scanChar mode char = some (news, next)) :
    Scan.advance (tokens, mode) (some char) = some (news.reverse ++ tokens, next) := by
  rw [Scan.advance, scanned]
  rfl

/-- A character that ends no token. -/
theorem scan?_cons_of_silent {mode next : Mode} (scanned : scanChar mode char = some ([], next))
    (chars : List Char) (tokens : List Token) :
    scan? (char :: chars) (tokens, mode) = scan? chars (tokens, next) := by
  rw [scan?_cons, advance_eq_some scanned]
  rfl

/-- **The scanner may end here**, and has found these tokens then. -/
def Ready (scan : Scan) (tokens : List Token) : Prop :=
  ∃ last, finish scan.2 = some last ∧ scan.1.reverse ++ last = tokens

/-- **The characters are read as tokens**, if the scanner is in the middle of nothing. -/
def Reads (chars : List Char) (tokens : List Token) : Prop :=
  ∀ before : List Token, ∃ after, scan? chars (before.reverse, .between) = some after ∧
    Ready after (before ++ tokens)

/-- The character ends the token before it, and is read as these tokens itself. -/
structure Marks (char : Char) (tokens : List Token) : Prop where
  /-- It is read like this. -/
  start_eq : start char = some (tokens, .between)
  /-- It does not belong to a word. -/
  isLower_eq : char.isLower = false
  /-- It does not belong to a number. -/
  isNumeric_eq : isNumeric char = false

theorem ready_between (tokens : List Token) : Ready (tokens.reverse, .between) tokens :=
  ⟨[], rfl, by simp⟩

theorem Reads.nil : Reads [] [] := fun before => ⟨_, rfl, by simpa using ready_between before⟩

theorem Ready.advance (ready : Ready scan tokens) (marks : Marks char news) :
    scan.advance (some char) = some ((tokens ++ news).reverse, .between) := by
  obtain ⟨found, mode⟩ := scan
  obtain ⟨last, finished, rfl⟩ := ready
  have restarted : scanChar mode char = some (last ++ news, .between) := by
    cases mode with
    | between =>
      obtain rfl := Option.some.inj finished
      exact marks.start_eq
    | word read =>
      rw [scanChar, if_neg (Bool.eq_false_iff.1 marks.isLower_eq), restart, finished,
        marks.start_eq]
      rfl
    | number read =>
      rw [scanChar, if_neg (Bool.eq_false_iff.1 marks.isNumeric_eq), restart, finished,
        marks.start_eq]
      rfl
    | text | escape | code | half | halfEscape => cases finished
  rw [advance_eq_some restarted]
  simp

/-- **A mark parts what is read before it from what is read after it.** -/
theorem Reads.mark (reads : Reads chars tokens) (marks : Marks char news)
    (rest : Reads more others) : Reads (chars ++ char :: more) (tokens ++ (news ++ others)) := by
  intro before
  obtain ⟨middle, scanned, ready⟩ := reads before
  obtain ⟨after, rescanned, ready'⟩ := rest (before ++ tokens ++ news)
  refine ⟨after, ?_, by simpa using ready'⟩
  rw [scan?_append, scanned, Option.bind_some, scan?_cons, ready.advance marks]
  exact rescanned

theorem marks_comma : Marks ',' [.comma] := ⟨rfl, rfl, rfl⟩

theorem marks_colon : Marks ':' [.colon] := ⟨rfl, rfl, rfl⟩

theorem marks_openList : Marks '[' [.openList] := ⟨rfl, rfl, rfl⟩

theorem marks_closeList : Marks ']' [.closeList] := ⟨rfl, rfl, rfl⟩

theorem marks_openRecord : Marks '\x7b' [.openRecord] := ⟨rfl, rfl, rfl⟩

theorem marks_closeRecord : Marks '\x7d' [.closeRecord] := ⟨rfl, rfl, rfl⟩

theorem marks_space : Marks ' ' [] := ⟨rfl, rfl, rfl⟩

theorem marks_line : Marks '\n' [] := ⟨rfl, rfl, rfl⟩

/-- A list or record is opened, filled and closed. -/
theorem Reads.enclosed {left right : Char} {opening closing : Token} (reads : Reads chars tokens)
    (opens : Marks left [opening]) (closes : Marks right [closing]) :
    Reads (left :: chars ++ [right]) (opening :: tokens ++ [closing]) :=
  Reads.nil.mark opens (reads.mark closes .nil)

theorem Reads.indented (reads : Reads chars tokens) (width : Nat) :
    Reads (List.replicate width ' ' ++ chars) tokens := by
  induction width with
  | zero => exact reads
  | succ width ih => exact Reads.nil.mark marks_space ih

/-- A new line before means nothing. -/
theorem Reads.onLine (reads : Reads chars tokens) (layers : Nat) :
    Reads (newLine layers ++ chars) tokens :=
  Reads.nil.mark marks_line (reads.indented _)

/-- A new line after means nothing. -/
theorem Reads.line (reads : Reads chars tokens) (layers : Nat) :
    Reads (chars ++ newLine layers) tokens := by
  have read := reads.mark marks_line (Reads.nil.indented (2 * layers))
  rwa [List.append_nil, List.append_nil, List.append_nil] at read

/-! ### Strings -/

theorem hexValue?_hexDigit (value : Nat) : hexValue? (hexDigit value) = some (value % 16) := by
  have all : ∀ digit < 16, hexValue? (Nat.digitChar digit) = some digit := by decide
  exact all (value % 16) (Nat.mod_lt _ (by decide))

theorem decode_toNat {read : Draft} (control : char.toNat < 0x20) :
    decode read none char.toNat = .text (read.map (char :: ·)) := by
  rw [decode]
  simp only [Char.ofNat_toNat]
  rw [if_neg (by omega), if_neg (by omega)]

/-- A control character is read back from its code. -/
theorem scan?_code (control : char.toNat < 0x20) (read : List Char) (tokens : List Token) :
    scan? ['\\', 'u', '0', '0', hexDigit (char.toNat / 16), hexDigit char.toNat]
        (tokens, .text (some read)) =
      some (tokens, .text (some (char :: read))) := by
  have first : scanChar (.code (some read) none 4 0) '0' =
      some ([], .code (some read) none 3 0) := rfl
  have second : scanChar (.code (some read) none 3 0) '0' =
      some ([], .code (some read) none 2 0) := rfl
  have third : scanChar (.code (some read) none 2 0) (hexDigit (char.toNat / 16)) =
      some ([], .code (some read) none 1 (char.toNat / 16)) := by
    rw [scanChar, hexValue?_hexDigit, Nat.mod_eq_of_lt (by omega)]
    show some ([], Mode.code (some read) none 1 (16 * 0 + char.toNat / 16)) = _
    rw [Nat.mul_zero, Nat.zero_add]
  have last : scanChar (.code (some read) none 1 (char.toNat / 16)) (hexDigit char.toNat) =
      some ([], .text (some (char :: read))) := by
    rw [scanChar, hexValue?_hexDigit]
    show some ([], decode (some read) none (16 * (char.toNat / 16) + char.toNat % 16)) = _
    rw [Nat.div_add_mod, decode_toNat control]
    rfl
  rw [scan?_cons_of_silent rfl, scan?_cons_of_silent rfl, scan?_cons_of_silent first,
    scan?_cons_of_silent second, scan?_cons_of_silent third, scan?_cons_of_silent last]
  rfl

/-- A character is read back from its escape. -/
theorem scan?_escapeChar (char : Char) (read : List Char) (tokens : List Token) :
    scan? (escapeChar char) (tokens, .text (some read)) =
      some (tokens, .text (some (char :: read))) := by
  fun_cases escapeChar char with
  | case1 | case2 | case3 | case4 | case5 | case6 | case7 => rfl
  | case8 char _ _ _ _ _ _ _ control => exact scan?_code control read tokens
  | case9 char no_quote no_backslash _ _ _ _ _ printable =>
    have scanned : scanChar (.text (some read)) char = some ([], .text (some (char :: read))) := by
      rw [scanChar, scanText, if_neg no_quote, if_neg no_backslash, if_neg printable]
      rfl
    rw [scan?_cons_of_silent scanned]
    rfl

theorem scan?_flatMap_escapeChar (text read : List Char) (tokens : List Token) :
    scan? (text.flatMap escapeChar) (tokens, .text (some read)) =
      some (tokens, .text (some (text.reverse ++ read))) := by
  induction text generalizing read with
  | nil => rfl
  | cons char text ih =>
    rw [List.flatMap_cons, scan?_append, scan?_escapeChar, Option.bind_some, ih]
    simp

/-- **A string is read back.** -/
theorem reads_printText (text : List Char) :
    Reads (printText text) [.text (some (String.ofList text))] := by
  intro before
  refine ⟨_, ?_, ready_between _⟩
  have closed : scanChar (.text (some text.reverse)) '"' =
      some ([.text (some (String.ofList text))], .between) := by
    rw [scanChar, scanText, if_pos rfl, Option.map_some, List.reverse_reverse]
  rw [printText, List.cons_append, scan?_cons_of_silent rfl, scan?_append,
    scan?_flatMap_escapeChar, Option.bind_some, List.append_nil, scan?_cons,
    advance_eq_some closed, List.reverse_append]
  rfl

/-! ### Words -/

/-- Characters that keep the scanner collecting are collected. -/
theorem scan?_collect {mode : List Char → Mode}
    (stays : ∀ char ∈ chars, ∀ read, scanChar (mode read) char = some ([], mode (char :: read)))
    (read : List Char) (tokens : List Token) :
    scan? chars (tokens, mode read) = some (tokens, mode (chars.reverse ++ read)) := by
  induction chars generalizing read with
  | nil => rfl
  | cons char chars ih =>
    obtain ⟨first, rest⟩ := List.forall_mem_cons.1 stays
    rw [scan?_cons_of_silent (first read), ih rest, List.reverse_cons, List.append_assoc]
    rfl

/-- **What is collected is one token**, if it is the text of one. -/
theorem reads_collect {mode : List Char → Mode} {token : Token}
    (starts : start char = some ([], mode [char]))
    (stays : ∀ char ∈ chars, ∀ read, scanChar (mode read) char = some ([], mode (char :: read)))
    (finished : finish (mode (char :: chars).reverse) = some [token]) :
    Reads (char :: chars) [token] := by
  intro before
  refine ⟨(before.reverse, mode (char :: chars).reverse), ?_, _, finished, by simp⟩
  have scanned : scanChar .between char = some ([], mode [char]) := starts
  rw [scan?_cons_of_silent scanned, scan?_collect stays, List.reverse_cons]

/-- A word is read back, if it is one. -/
theorem reads_word {token : Token} (word : String) (char : Char) (chars : List Char)
    (written : word.toList = char :: chars) (starts : start char = some ([], .word [char]))
    (lower : chars.all Char.isLower = true) (denotes : word? word.toList = some token) :
    Reads word.toList [token] := by
  rw [written] at denotes ⊢
  refine reads_collect starts (fun char mem read => ?_) ?_
  · exact if_pos (List.all_eq_true.1 lower char mem)
  · rw [finish, List.reverse_reverse]
    exact congrArg (Option.map fun token => [token]) denotes

/-! ### Numbers -/

theorem ne_of_isDigit (digit : char.isDigit = true) {other : Char}
    (apart : other.isDigit = false) : char ≠ other := by
  rintro rfl
  rw [digit] at apart
  cases apart

theorem start_of_isDigit (digit : char.isDigit = true) :
    start char = some ([], .number [char]) := by
  have apart {other : Char} (apart : other.isDigit = false) : char ≠ other :=
    ne_of_isDigit digit apart
  simp [start, isBlank, digit, apart]

theorem isNumeric_of_isDigit (digit : char.isDigit = true) : isNumeric char = true := by
  simp [isNumeric, digit]

/-- A number is read back, if it is one. -/
theorem reads_number {value : Data} (starts : start char = some ([], .number [char]))
    (numeric : ∀ char ∈ chars, isNumeric char = true)
    (denotes : number? (char :: chars) = some (some value)) :
    Reads (char :: chars) [.scalar (some value)] := by
  refine reads_collect starts (fun char mem read => ?_) ?_
  · exact if_pos (numeric char mem)
  · rw [finish, List.reverse_reverse]
    exact congrArg (Option.map fun value => [Token.scalar value]) denotes

theorem takeDigits_of_isDigit (digits : ∀ char ∈ chars, char.isDigit = true) :
    takeDigits chars = (chars.map fun char => char.toNat - '0'.toNat, []) := by
  induction chars with
  | nil => rfl
  | cons char chars ih =>
    obtain ⟨first, rest⟩ := List.forall_mem_cons.1 digits
    rw [takeDigits, if_pos first, ih rest]
    rfl

theorem ofDigits_map (chars : List Char) :
    ofDigits (chars.map fun char => char.toNat - '0'.toNat) = Nat.ofDigitChars 10 chars 0 := by
  rw [ofDigits, List.foldl_map, Nat.ofDigitChars_eq_foldl]

/-- Only zero starts with a zero. -/
theorem exists_toDigits_of_pos {value : Nat} (positive : 0 < value) :
    ∃ first rest, Nat.toDigits 10 value = first :: rest ∧ first.toNat - '0'.toNat ≠ 0 := by
  induction value using Nat.strongRecOn with
  | ind value ih =>
    by_cases small : value < 10
    · refine ⟨_, [], Nat.toDigits_of_lt_base small, ?_⟩
      have digit_eq : value.digitChar.toNat - '0'.toNat = value :=
        Nat.toNat_digitChar_sub_48_of_lt_ten small
      omega
    · obtain ⟨first, rest, heq, nonzero⟩ := ih (value / 10) (by omega) (by omega)
      refine ⟨first, rest ++ [(value % 10).digitChar], ?_, nonzero⟩
      rw [Nat.toDigits_of_base_le (by decide) (by omega), heq, List.cons_append]

theorem unsigned?_toDigits (negative : Bool) (value : Nat) :
    unsigned? negative (Nat.toDigits 10 value) = some (integral? negative
      ((Nat.toDigits 10 value).map fun char => char.toNat - '0'.toNat)) := by
  rw [unsigned?, takeDigits_of_isDigit fun _ => Data.isDigit_of_mem_toDigits]
  rcases Nat.eq_zero_or_pos value with rfl | positive
  · rfl
  · obtain ⟨first, rest, heq, nonzero⟩ := exists_toDigits_of_pos positive
    rw [heq, List.map_cons]
    generalize rest.map (fun char => char.toNat - '0'.toNat) = digits
    generalize first.toNat - '0'.toNat = digit at nonzero
    cases digit with
    | zero => exact absurd rfl nonzero
    | succ digit => rfl

theorem number?_printNatural {value : Nat} (fits : value ≤ Data.wordBound) :
    number? (printNatural value) = some (some (.natural value)) := by
  obtain ⟨digit, digits, heq, first⟩ := Data.exists_toDigits value
  have read := unsigned?_toDigits false value
  rw [integral?, ofDigits_map, Nat.ofDigitChars_ten_toDigits] at read
  rw [printNatural, heq, number?, ← heq, read]
  · simp [fits]
  · exact fun _ same => ne_of_isDigit first rfl (List.cons.inj same).1

theorem number?_printInteger {value : Int} (least : Data.leastInteger ≤ value)
    (negative : value < 0) :
    number? ('-' :: printNatural value.natAbs) = some (some (.integer value)) := by
  have read := unsigned?_toDigits true value.natAbs
  rw [Data.leastInteger] at least
  rw [integral?, ofDigits_map, Nat.ofDigitChars_ten_toDigits] at read
  rw [number?, printNatural, read, if_pos rfl, if_pos (by omega)]
  congr 3
  omega

theorem reads_natural {value : Nat} (fits : value ≤ Data.wordBound) :
    Reads (printNatural value) [.scalar (some (.natural value))] := by
  obtain ⟨digit, digits, heq, first⟩ := Data.exists_toDigits value
  have denotes := number?_printNatural fits
  rw [printNatural, heq] at denotes ⊢
  refine reads_number (start_of_isDigit first) (fun char mem => ?_) denotes
  exact isNumeric_of_isDigit
    (Data.isDigit_of_mem_toDigits (heq ▸ List.mem_cons_of_mem digit mem))

theorem reads_integer {value : Int} (least : Data.leastInteger ≤ value) (negative : value < 0) :
    Reads (printInteger value) [.scalar (some (.integer value))] := by
  rw [printInteger, if_pos negative]
  refine reads_number rfl (fun char mem => ?_) (number?_printInteger least negative)
  exact isNumeric_of_isDigit (Data.isDigit_of_mem_toDigits mem)

/-! ### Data -/

/-- The token of a key. -/
def keyToken : Data → Token
  | .text key => .text (some key)
  | _ => .text none

mutual

/-- **The tokens of data.** -/
def tokensOf : Data → List Token
  | .list items => .openList :: tokensOfItems items ++ [.closeList]
  | .record members => .openRecord :: tokensOfMembers members ++ [.closeRecord]
  | .text value => [.text (some value)]
  | scalar => [.scalar (some scalar)]

/-- The tokens of items, with commas between them. -/
def tokensOfItems : List Data → List Token
  | [] => []
  | [item] => tokensOf item
  | item :: next :: items => tokensOf item ++ .comma :: tokensOfItems (next :: items)

/-- The tokens of members, with commas between them. -/
def tokensOfMembers : List (Data × Data) → List Token
  | [] => []
  | [(key, value)] => keyToken key :: .colon :: tokensOf value
  | (key, value) :: next :: members =>
    keyToken key :: .colon :: tokensOf value ++ .comma :: tokensOfMembers (next :: members)

end

theorem reads_printKey {key : Data} (isText : key.isText = true) :
    Reads (printKey key) [keyToken key] := by
  cases key with
  | text key =>
    have read := reads_printText key.toList
    rwa [String.ofList_toList] at read
  | null | bool | natural | padded | integer | real | bytes | extension | list | record =>
    cases isText

/-- **A scalar is read back.** -/
theorem reads_printScalar {data : Data} (plain : data.isPlain = true)
    (scalar : ∀ items, data ≠ .list items) (scalar' : ∀ members, data ≠ .record members) :
    Reads (printScalar data) (tokensOf data) := by
  cases data with
  | null => exact reads_word "null" 'n' ['u', 'l', 'l'] rfl rfl rfl rfl
  | bool value =>
    cases value with
    | false => exact reads_word "false" 'f' ['a', 'l', 's', 'e'] rfl rfl rfl rfl
    | true => exact reads_word "true" 't' ['r', 'u', 'e'] rfl rfl rfl rfl
  | natural value => exact reads_natural (of_decide_eq_true plain)
  | integer value =>
    rw [Data.isPlain, Bool.and_eq_true, decide_eq_true_iff, decide_eq_true_iff] at plain
    exact reads_integer plain.1 plain.2
  | text value =>
    have read := reads_printText value.toList
    rwa [String.ofList_toList] at read
  | list items => exact absurd rfl (scalar items)
  | record members => exact absurd rfl (scalar' members)
  | padded | real | bytes | extension => cases plain

mutual

/-- **Plain data in the compact form is read as its tokens.** -/
theorem reads_compact : (data : Data) → data.isPlain = true →
    Reads (compact data) (tokensOf data)
  | .list items, plain =>
    (reads_compactItems items plain).enclosed marks_openList marks_closeList
  | .record members, plain =>
    (reads_compactMembers members plain).enclosed marks_openRecord marks_closeRecord
  | .null, plain | .bool _, plain | .natural _, plain | .integer _, plain | .text _, plain =>
    reads_printScalar plain (by simp) (by simp)

theorem reads_compactItems : (items : List Data) → Data.allPlain items = true →
    Reads (compactItems items) (tokensOfItems items)
  | [], _ => .nil
  | [item], plain => by
    rw [Data.allPlain, Bool.and_eq_true] at plain
    exact reads_compact item plain.1
  | item :: next :: items, plain => by
    rw [Data.allPlain, Bool.and_eq_true] at plain
    exact (reads_compact item plain.1).mark marks_comma
      (reads_compactItems (next :: items) plain.2)

theorem reads_compactMembers : (members : List (Data × Data)) →
    Data.allPlainMembers members = true → Reads (compactMembers members) (tokensOfMembers members)
  | [], _ => .nil
  | [(key, value)], plain => by
    simp only [Data.allPlainMembers, Bool.and_eq_true] at plain
    exact (reads_printKey plain.1.1).mark marks_colon (reads_compact value plain.1.2)
  | (key, value) :: next :: members, plain => by
    rw [Data.allPlainMembers, Bool.and_eq_true, Bool.and_eq_true] at plain
    have first := (reads_printKey plain.1.1).mark marks_colon (reads_compact value plain.1.2)
    exact first.mark marks_comma (reads_compactMembers (next :: members) plain.2)

end

mutual

/-- **Plain data in the spread form is read as its tokens**, too. -/
theorem reads_spread : (data : Data) → data.isPlain = true → (layers : Nat) →
    Reads (spread layers data) (tokensOf data)
  | .list [], _, _ => Reads.nil.enclosed marks_openList marks_closeList
  | .list (item :: items), plain, layers =>
    ((reads_spreadItems (item :: items) plain (layers + 1)).line layers).enclosed
      marks_openList marks_closeList
  | .record [], _, _ => Reads.nil.enclosed marks_openRecord marks_closeRecord
  | .record (member :: members), plain, layers =>
    ((reads_spreadMembers (member :: members) plain (layers + 1)).line layers).enclosed
      marks_openRecord marks_closeRecord
  | .null, plain, _ | .bool _, plain, _ | .natural _, plain, _ | .integer _, plain, _
  | .text _, plain, _ => reads_printScalar plain (by simp) (by simp)

theorem reads_spreadItems : (items : List Data) → Data.allPlain items = true → (layers : Nat) →
    Reads (spreadItems layers items) (tokensOfItems items)
  | [], _, _ => .nil
  | [item], plain, layers => by
    rw [Data.allPlain, Bool.and_eq_true] at plain
    exact (reads_spread item plain.1 layers).onLine layers
  | item :: next :: items, plain, layers => by
    rw [Data.allPlain, Bool.and_eq_true] at plain
    exact ((reads_spread item plain.1 layers).onLine layers).mark marks_comma
      (reads_spreadItems (next :: items) plain.2 layers)

theorem reads_spreadMembers : (members : List (Data × Data)) →
    Data.allPlainMembers members = true → (layers : Nat) →
      Reads (spreadMembers layers members) (tokensOfMembers members)
  | [], _, _ => .nil
  | [(key, value)], plain, layers => by
    simp only [Data.allPlainMembers, Bool.and_eq_true] at plain
    have spaced := (reads_spread value plain.1.2 layers).indented 1
    exact ((reads_printKey plain.1.1).onLine layers).mark marks_colon spaced
  | (key, value) :: next :: members, plain, layers => by
    rw [Data.allPlainMembers, Bool.and_eq_true, Bool.and_eq_true] at plain
    have spaced := (reads_spread value plain.1.2 layers).indented 1
    have first := ((reads_printKey plain.1.1).onLine layers).mark marks_colon spaced
    exact first.mark marks_comma (reads_spreadMembers (next :: members) plain.2 layers)

end

theorem Reads.tokens?_eq (reads : Reads chars tokens) : tokens? (chars.map some) = some tokens := by
  obtain ⟨⟨found, mode⟩, scanned, last, finished, heq⟩ := reads []
  have scanned' : (chars.map some).foldlM Scan.advance ([], .between) = some (found, mode) :=
    scanned
  rw [tokens?, scanned']
  show (finish mode).bind (fun last => some ((last.reverse ++ found).reverse)) = some tokens
  rw [finished, Option.bind_some, List.reverse_append, List.reverse_reverse, heq, List.nil_append]

/-- **The tokens of a printed text.** -/
theorem tokens?_print {data : Data} (plain : data.isPlain = true) :
    tokens? (symbols (print data)) = some (tokensOf data) := by
  rw [symbols, print, String.toList_ofList]
  exact (reads_compact data plain).tokens?_eq

/-- The tokens of a text in the spread form are the same. -/
theorem tokens?_printSpread {data : Data} (plain : data.isPlain = true) :
    tokens? (symbols (printSpread data)) = some (tokensOf data) := by
  rw [symbols, printSpread, String.toList_ofList]
  exact (reads_spread data plain 0).tokens?_eq

end StableModels.Json
