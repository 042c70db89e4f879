import StableModels.ProgramFile
import StableModels.Proofs.Assembly

/-!
# Programs and requests as JSON

A program or a request is read back from its text, be it in the compact or in the spread form, if
the text nests lists and records no deeper than a reader follows them, and is refused otherwise
(`StableModels.Json.read_back`). How deep a text nests is told by its tokens
(`StableModels.Json.nesting`), and comes to the depth of the data it was printed from
(`StableModels.Json.nesting_print`).
-/

namespace StableModels

namespace Json

/-! ### How deep a text nests -/

/-- The greatest number of lists and records that are open at once, when so many are open
already. -/
def nestingAfter : Nat → List Token → Nat
  | layers, [] => layers
  | layers, .openList :: tokens | layers, .openRecord :: tokens => nestingAfter (layers + 1) tokens
  | layers, .closeList :: tokens | layers, .closeRecord :: tokens =>
    max layers (nestingAfter (layers - 1) tokens)
  | layers, _ :: tokens => nestingAfter layers tokens

/-- **How deep a text nests lists and records**; not at all if it does not consist of tokens. -/
def nesting (text : String) : Nat := ((tokens? (symbols text)).map (nestingAfter 0)).getD 0

theorem le_nestingAfter (layers : Nat) (tokens : List Token) :
    layers ≤ nestingAfter layers tokens := by
  fun_induction nestingAfter layers tokens with
  | case1 => exact Nat.le_refl _
  | case2 _ _ ih | case3 _ _ ih => exact Nat.le_of_succ_le ih
  | case4 | case5 => exact Nat.le_max_left _ _
  | case6 _ _ _ _ _ _ _ ih => exact ih

theorem nestingAfter_comma (layers : Nat) (tokens : List Token) :
    nestingAfter layers (.comma :: tokens) = nestingAfter layers tokens :=
  rfl

theorem nestingAfter_key (layers : Nat) (key : String) (tokens : List Token) :
    nestingAfter layers (keyToken (.text key) :: .colon :: tokens) = nestingAfter layers tokens :=
  rfl

mutual

/-- The tokens of data nest as deep as the data is. -/
theorem nestingAfter_tokensOf : (data : Data) → data.isPlain = true → (layers : Nat) →
    (more : List Token) → nestingAfter layers (tokensOf data ++ more) =
      max (layers + data.depth) (nestingAfter layers more)
  | .null, _, layers, more | .bool _, _, layers, more | .natural _, _, layers, more
  | .integer _, _, layers, more | .text _, _, layers, more =>
    (Nat.max_eq_right (le_nestingAfter layers more)).symm
  | .list items, plain, layers, more => by
    have inside := nestingAfter_tokensOfItems items plain (layers + 1) (.closeList :: more)
    rw [nestingAfter, Nat.add_sub_cancel] at inside
    rw [tokensOf, List.cons_append, List.cons_append, List.append_assoc, nestingAfter,
      List.singleton_append, inside, Data.depth]
    have := le_nestingAfter layers more
    omega
  | .record members, plain, layers, more => by
    have inside := nestingAfter_tokensOfMembers members plain (layers + 1) (.closeRecord :: more)
    rw [nestingAfter, Nat.add_sub_cancel] at inside
    rw [tokensOf, List.cons_append, List.cons_append, List.append_assoc, nestingAfter,
      List.singleton_append, inside, Data.depth]
    have := le_nestingAfter layers more
    omega

theorem nestingAfter_tokensOfItems : (items : List Data) → Data.allPlain items = true →
    (layers : Nat) → (more : List Token) → nestingAfter layers (tokensOfItems items ++ more) =
      max (layers + Data.depthOfItems items) (nestingAfter layers more)
  | [], _, layers, more => (Nat.max_eq_right (le_nestingAfter layers more)).symm
  | [item], plain, layers, more => by
    rw [Data.allPlain, Bool.and_eq_true] at plain
    rw [tokensOfItems, nestingAfter_tokensOf item plain.1, Data.depthOfItems, Data.depthOfItems,
      Nat.max_zero]
  | item :: next :: items, plain, layers, more => by
    rw [Data.allPlain, Bool.and_eq_true] at plain
    have deepest : Data.depthOfItems (item :: next :: items) =
        max item.depth (Data.depthOfItems (next :: items)) := rfl
    rw [tokensOfItems, List.append_assoc, nestingAfter_tokensOf item plain.1, List.cons_append,
      nestingAfter_comma, nestingAfter_tokensOfItems (next :: items) plain.2, deepest]
    omega

theorem nestingAfter_tokensOfMembers : (members : List (Data × Data)) →
    Data.allPlainMembers members = true → (layers : Nat) → (more : List Token) →
      nestingAfter layers (tokensOfMembers members ++ more) =
        max (layers + Data.depthOfMembers members) (nestingAfter layers more)
  | [], _, layers, more => (Nat.max_eq_right (le_nestingAfter layers more)).symm
  | [(.text key, value)], plain, layers, more => by
    simp only [Data.allPlainMembers, Bool.and_eq_true] at plain
    rw [tokensOfMembers, List.cons_append, List.cons_append, nestingAfter_key,
      nestingAfter_tokensOf value plain.1.2]
    simp [Data.depthOfMembers, Data.depth]
  | (.text key, value) :: next :: members, plain, layers, more => by
    rw [Data.allPlainMembers, Bool.and_eq_true, Bool.and_eq_true] at plain
    have deepest : Data.depthOfMembers ((.text key, value) :: next :: members) =
        max (max 0 value.depth) (Data.depthOfMembers (next :: members)) := rfl
    rw [tokensOfMembers, List.append_assoc, List.cons_append, List.cons_append, List.cons_append,
      nestingAfter_key, nestingAfter_tokensOf value plain.1.2, nestingAfter_comma,
      nestingAfter_tokensOfMembers (next :: members) plain.2, deepest]
    omega

end

theorem nestingAfter_zero {data : Data} (plain : data.isPlain = true) :
    nestingAfter 0 (tokensOf data) = data.depth := by
  have nested := nestingAfter_tokensOf data plain 0 []
  rwa [List.append_nil, Nat.zero_add, nestingAfter, Nat.max_zero] at nested

/-- **A printed text nests as deep as its data.** -/
theorem nesting_print {data : Data} (plain : data.isPlain = true) :
    nesting (print data) = data.depth := by
  rw [nesting, tokens?_print plain]
  exact nestingAfter_zero plain

/-- A text in the spread form nests as deep, too. -/
theorem nesting_printSpread {data : Data} (plain : data.isPlain = true) :
    nesting (printSpread data) = data.depth := by
  rw [nesting, tokens?_printSpread plain]
  exact nestingAfter_zero plain

/-! ### Reading what was printed -/

/-- The symbols of the bytes of a text are its characters. -/
theorem symbolsOfBytes_utf8 (text : String) : symbolsOfBytes (Data.utf8 text) = symbols text := by
  rw [symbolsOfBytes, Data.utf8?_utf8]

/-- **The text is a printed form of the data.** -/
def Prints (text : String) (data : Data) : Prop := text = print data ∨ text = printSpread data

/-- **Printed data is read back exactly if its text nests no deeper than it may.** -/
theorem Prints.readSymbols?_eq {text : String} {data : Data} {demand : Demand}
    (prints : Prints text data) (plain : data.isPlain = true) (accepts : demand.Accepts data) :
    readSymbols? demand (symbols text) =
      if nesting text ≤ demand.layers then some data else none := by
  have read : tokens? (symbols text) = some (tokensOf data) ∧ nesting text = data.depth := by
    rcases prints with rfl | rfl
    · exact ⟨tokens?_print plain, nesting_print plain⟩
    · exact ⟨tokens?_printSpread plain, nesting_printSpread plain⟩
  rw [readSymbols?, read.1, read.2]
  exact assemble?_tokensOf plain accepts

end Json

open Json (Prints nesting nestingLimit)

theorem Program.ofText?_of_prints {program : Program} {text : String}
    (storable : program.isStorable = true) (prints : Prints text program.toData) :
    ofText? text = if nesting text ≤ nestingLimit then some program else none := by
  have accepts : Json.Demand.Accepts ⟨nestingLimit, fun name => memberNames.contains name⟩
      program.toData := by
    simp [toData, Data.struct, membersData, memberNames, Json.Demand.Accepts]
  have read := prints.readSymbols?_eq (isPlain_toData storable) accepts
  rw [ofText?, ofSymbols?, Json.readStruct?, read]
  split
  · exact ofData?_toData storable
  · rfl

theorem Request.ofText?_of_prints {request : Request} {text : String}
    (storable : request.isStorable = true) (prints : Prints text request.toData) :
    ofText? text = if nesting text ≤ nestingLimit then some request else none := by
  have accepts : Json.Demand.Accepts ⟨nestingLimit, fun _ => true⟩ request.toData := by
    cases request <;> exact fun _ _ _ _ => rfl
  have read := prints.readSymbols?_eq (isPlain_toData storable) accepts
  rw [ofText?, Json.read?, Json.readWithin?, read]
  split
  · exact ofData?_toData storable
  · rfl

/-- A program is loaded from the file of a text like it is read from the text. -/
theorem ProgramFile.load_utf8 {path text : String}
    {contents : String → Except FileProblem (List UInt8)}
    (format : ProgramFormat.of? path = some .json) (holds : contents path = .ok (Data.utf8 text)) :
    load contents path =
      match Program.ofText? text with
      | none => .error Cause.undecodable
      | some program => .ok program := by
  rw [load, format, Program.ofText?, ← Json.symbolsOfBytes_utf8]
  simp only [holds]
  rfl

namespace Json

variable {program : Program} {request : Request}

/-- **Programs and requests are read back.** A storable program is given back by its text, in the
compact form as well as in the spread form that its file has, if that text nests lists and records
no deeper than 127 layers; if it nests them deeper, nothing is read, and to load the file is a
mistake of serialization. A request is given back by its text in the same cases. -/
theorem read_back (storable : program.isStorable = true) (carried : request.isStorable = true) :
    (∀ text ∈ [program.toText, program.toSpreadText],
      Program.ofText? text = (if nesting text ≤ 127 then some program else none) ∧
      ∀ contents path, ProgramFormat.of? path = some .json → contents path = .ok (Data.utf8 text) →
        (nesting text ≤ 127 → ProgramFile.load contents path = .ok program) ∧
        (127 < nesting text → ∃ fault : Fault,
          ProgramFile.load contents path = .error fault ∧ fault.cause.kind = .serialization)) ∧
    (∀ path, ProgramFormat.of? path = some .json →
      ProgramFile.save (fun _ bytes => .ok bytes) program path =
        .ok (Data.utf8 program.toSpreadText)) ∧
    ∀ text ∈ [request.toText, request.toSpreadText],
      Request.ofText? text = if nesting text ≤ 127 then some request else none := by
  refine ⟨fun text given => ?_, fun path format => ?_, fun text given => ?_⟩
  · have read : Program.ofText? text = if nesting text ≤ 127 then some program else none :=
      Program.ofText?_of_prints storable (List.mem_pair.1 given)
    refine ⟨read, fun contents path format holds => ?_⟩
    rw [ProgramFile.load_utf8 format holds, read]
    constructor
    · intro shallow
      rw [if_pos shallow]
    · intro deep
      rw [if_neg (Nat.not_le.2 deep)]
      exact ⟨_, rfl, rfl⟩
  · rw [ProgramFile.save, format]
    rfl
  · exact Request.ofText?_of_prints carried (List.mem_pair.1 given)

/-- Constants, so many of them one inside the other. -/
def nested : Nat → Pattern
  | 0 => .const "\"\\\n\u0001é" []
  | height + 1 => .const "f" [nested height]

/-- A program that has nested constants and large integers. -/
def towering (height : Nat) : Program where
  seeds := ["go"]
  rules := [.unary
    ⟨"go", [.int 0x10000000000000000, .int (-0x1fffffffffffff)], .var 0xffffffffffffffff⟩
    (.fact "tower" [nested height] .unit)]

/-- With 61 constants a program is as deep as it may be, with one more it is too deep. -/
theorem read_back_towering :
    Program.ofText? (towering 60).toSpreadText = some (towering 60) ∧
      Request.ofText? (Request.load (towering 61)).toText = none := by
  have storable : (towering 60).isStorable = true := by decide
  have carried : (Request.load (towering 61)).isStorable = true := by decide
  obtain ⟨read, -, refused⟩ := read_back storable carried
  have shallow : nesting (towering 60).toSpreadText = 127 :=
    (nesting_printSpread (Program.isPlain_toData storable)).trans (by decide +kernel)
  have deep : nesting (Request.load (towering 61)).toText = 129 :=
    (nesting_print (Request.isPlain_toData carried)).trans (by decide +kernel)
  constructor
  · rw [(read _ (by simp)).1, shallow]
    rfl
  · rw [refused _ (by simp), deep]
    rfl

end Json

end StableModels
