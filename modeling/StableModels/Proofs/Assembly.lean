import StableModels.Proofs.Tokens

/-!
# Data assembled from its tokens

The assembler takes the tokens of data one after the other, on top of the layers that are open, and
then puts the data into its place there (`StableModels.Json.takeAll?_tokensOf`). It fails exactly if
that would open more layers than there may be: the depth of data is the number of layers that its
tokens open one inside the other. The induction is on the data, with any layers below it; of these
it needs to know only that nothing is passed over.
-/

namespace StableModels.Json

variable {demand : Demand} {layers : List Layer} {tokens more : List Token} {assembly : Assembly}

/-- Takes tokens one after the other. -/
def takeAll? (demand : Demand) (tokens : List Token) (assembly : Assembly) : Option Assembly :=
  tokens.foldlM (Assembly.take demand) assembly

theorem takeAll?_cons (token : Token) (tokens : List Token) (assembly : Assembly) :
    takeAll? demand (token :: tokens) assembly =
      (assembly.take demand token).bind (takeAll? demand tokens) :=
  List.foldlM_cons

theorem takeAll?_append (tokens more : List Token) (assembly : Assembly) :
    takeAll? demand (tokens ++ more) assembly =
      (takeAll? demand tokens assembly).bind (takeAll? demand more) :=
  List.foldlM_append

theorem takeAll?_singleton (token : Token) (assembly : Assembly) :
    takeAll? demand [token] assembly = assembly.take demand token := by
  rw [takeAll?_cons]
  exact Option.bind_fun_some _

/-- The keys of a record are all wanted. -/
def Demand.Accepts (demand : Demand) : Data → Prop
  | .record members => ∀ member ∈ members, ∀ key, member.1 = .text key → demand.wants key = true
  | _ => True

theorem deepen_eq {limit : Nat} {layer passed : Layer} {want : Want}
    (active : Assembly.isPassing layers = false) :
    Assembly.deepen limit layer passed want layers =
      if layers.length < limit then some (.building (layer :: layers) want) else none := by
  rw [Assembly.deepen, active]
  rfl

/-- What opens a layer and closes it again is taken if the layer may be opened and what is between
is taken inside. -/
theorem takeAll?_enclosed {opening closing : Token} {layer : Layer} {want : Want}
    (opens : Assembly.take demand (.building layers .value) opening =
      if layers.length < demand.layers then some (.building (layer :: layers) want) else none)
    (tokens : List Token) :
    takeAll? demand (opening :: tokens ++ [closing]) (.building layers .value) =
      if layers.length < demand.layers then
        (takeAll? demand tokens (.building (layer :: layers) want)).bind
          (Assembly.take demand · closing)
      else none := by
  rw [List.cons_append, takeAll?_cons, opens]
  split
  · rw [Option.bind_some, takeAll?_append, funext (takeAll?_singleton closing)]
  · rfl

/-- A list is opened, filled and closed. -/
theorem takeAll?_list (active : Assembly.isPassing layers = false) (tokens : List Token) :
    takeAll? demand (.openList :: tokens ++ [.closeList]) (.building layers .value) =
      if layers.length < demand.layers then
        (takeAll? demand tokens (.building (.list [] :: layers) .valueOrEnd)).bind
          (Assembly.take demand · .closeList)
      else none := by
  have opens : Assembly.take demand (.building layers .value) .openList = _ := deepen_eq active
  exact takeAll?_enclosed opens tokens

/-- A record is opened, filled and closed. -/
theorem takeAll?_record (active : Assembly.isPassing layers = false) (tokens : List Token) :
    takeAll? demand (.openRecord :: tokens ++ [.closeRecord]) (.building layers .value) =
      if layers.length < demand.layers then
        (takeAll? demand tokens (.building (.record [] :: layers) .keyOrEnd)).bind
          (Assembly.take demand · .closeRecord)
      else none := by
  have opens : Assembly.take demand (.building layers .value) .openRecord = _ := deepen_eq active
  exact takeAll?_enclosed opens tokens

/-- A member is taken if its value is. -/
theorem takeAll?_member {key : String} {done : List (Data × Data)}
    (wanted : layers = [] → demand.wants key = true) (tokens : List Token) :
    takeAll? demand (.text (some key) :: .colon :: tokens)
        (.building (.record done :: layers) .key) =
      takeAll? demand tokens (.building (.member done key :: layers) .value) := by
  have taken : Assembly.take demand (.building (.record done :: layers) .key) (.text (some key)) =
      some (.building (.member done key :: layers) .colon) := by
    rw [Assembly.take, Assembly.takeKey, if_neg]
    cases layers with
    | nil => simp [wanted rfl]
    | cons => simp
  rw [takeAll?_cons, taken, Option.bind_some, takeAll?_cons, Assembly.take, Option.bind_some]

/-- Data does not start with the end of a list. -/
theorem takeAll?_valueOrEnd (data : Data) :
    takeAll? demand (tokensOf data) (.building layers .valueOrEnd) =
      takeAll? demand (tokensOf data) (.building layers .value) := by
  cases data <;> rfl

theorem takeAll?_items_valueOrEnd (items : List Data) (item : Data) :
    takeAll? demand (tokensOfItems (item :: items)) (.building layers .valueOrEnd) =
      takeAll? demand (tokensOfItems (item :: items)) (.building layers .value) := by
  cases items with
  | nil => exact takeAll?_valueOrEnd item
  | cons next items => rw [tokensOfItems, takeAll?_append, takeAll?_append, takeAll?_valueOrEnd]

/-- Members do not start with the end of a record. -/
theorem takeAll?_members_keyOrEnd (key : String) (value : Data) (members : List (Data × Data)) :
    takeAll? demand (tokensOfMembers ((.text key, value) :: members))
        (.building layers .keyOrEnd) =
      takeAll? demand (tokensOfMembers ((.text key, value) :: members))
        (.building layers .key) := by
  cases members <;> rfl

mutual

/-- **Data is assembled from its tokens** and put into its place, if there may be so many
layers. -/
theorem takeAll?_tokensOf : (data : Data) → data.isPlain = true → (layers : List Layer) →
    Assembly.isPassing layers = false → layers.length ≤ demand.layers →
      (layers = [] → demand.Accepts data) →
        takeAll? demand (tokensOf data) (.building layers .value) =
          if layers.length + data.depth ≤ demand.layers then Assembly.put data layers else none
  | .null, _, layers, _, le, _ | .bool _, _, layers, _, le, _ | .natural _, _, layers, _, le, _
  | .integer _, _, layers, _, le, _ | .text _, _, layers, _, le, _ => by
    rw [Data.depth, Nat.add_zero, if_pos le]
    exact takeAll?_singleton _ _
  | .list [], _, layers, active, le, _ => by
    rw [tokensOf, takeAll?_list active, Data.depth, Data.depthOfItems]
    rfl
  | .list (item :: items), plain, layers, active, le, _ => by
    rw [tokensOf, takeAll?_list active, takeAll?_items_valueOrEnd, Data.depth]
    by_cases lt : layers.length < demand.layers
    · rw [if_pos lt, takeAll?_tokensOfItems (item :: items) (by simp) plain [] layers lt,
        List.append_nil, Nat.add_right_comm, Nat.add_assoc]
      split
      · rw [Option.bind_some, Assembly.take, Assembly.close, List.reverse_reverse]
        all_goals simp
      · rfl
    · rw [if_neg lt, if_neg (by omega)]
  | .record [], _, layers, active, le, _ => by
    rw [tokensOf, takeAll?_record active, Data.depth, Data.depthOfMembers]
    rfl
  | .record ((.text key, value) :: members), plain, layers, active, le, accepts => by
    rw [tokensOf, takeAll?_record active, takeAll?_members_keyOrEnd, Data.depth]
    by_cases lt : layers.length < demand.layers
    · rw [if_pos lt, takeAll?_tokensOfMembers ((.text key, value) :: members) (by simp) plain []
        layers lt accepts, List.append_nil, Nat.add_right_comm, Nat.add_assoc]
      split
      · rw [Option.bind_some, Assembly.take, Assembly.close, List.reverse_reverse]
        all_goals simp
      · rfl
    · rw [if_neg lt, if_neg (by omega)]

theorem takeAll?_tokensOfItems : (items : List Data) → items ≠ [] → Data.allPlain items = true →
    (done : List Data) → (layers : List Layer) → layers.length < demand.layers →
      takeAll? demand (tokensOfItems items) (.building (.list done :: layers) .value) =
        if layers.length + 1 + Data.depthOfItems items ≤ demand.layers then
          some (.building (.list (items.reverse ++ done) :: layers) .separator)
        else none
  | [item], _, plain, done, layers, lt => by
    rw [Data.allPlain, Bool.and_eq_true] at plain
    have first := takeAll?_tokensOf item plain.1 (.list done :: layers) rfl lt (by simp)
    rwa [Data.depthOfItems, Data.depthOfItems, Nat.max_zero]
  | item :: next :: items, _, plain, done, layers, lt => by
    rw [Data.allPlain, Bool.and_eq_true] at plain
    have first := takeAll?_tokensOf item plain.1 (.list done :: layers) rfl lt (by simp)
    have rest := takeAll?_tokensOfItems (next :: items) (by simp) plain.2 (item :: done) layers lt
    rw [List.length_cons] at first
    rw [tokensOfItems, takeAll?_append, first, Data.depthOfItems]
    by_cases fits : layers.length + 1 + item.depth ≤ demand.layers
    · rw [if_pos fits, Assembly.put, Option.bind_some, takeAll?_cons, Assembly.take,
        Assembly.proceed, Option.bind_some, rest, List.reverse_cons (a := item), List.append_assoc]
      have same : layers.length + 1 + max item.depth (Data.depthOfItems (next :: items)) ≤
          demand.layers ↔
            layers.length + 1 + Data.depthOfItems (next :: items) ≤ demand.layers := by
        omega
      simp only [same]
      rfl
    · rw [if_neg fits, if_neg (by omega)]
      rfl

theorem takeAll?_tokensOfMembers : (members : List (Data × Data)) → members ≠ [] →
    Data.allPlainMembers members = true → (done : List (Data × Data)) → (layers : List Layer) →
      layers.length < demand.layers → (layers = [] → demand.Accepts (.record members)) →
        takeAll? demand (tokensOfMembers members) (.building (.record done :: layers) .key) =
          if layers.length + 1 + Data.depthOfMembers members ≤ demand.layers then
            some (.building (.record (members.reverse ++ done) :: layers) .separator)
          else none
  | [(.text key, value)], _, plain, done, layers, lt, accepts => by
    simp only [Data.allPlainMembers, Bool.and_eq_true] at plain
    have wanted (outermost : layers = []) : demand.wants key = true :=
      accepts outermost _ List.mem_cons_self key rfl
    have first := takeAll?_tokensOf value plain.1.2 (.member done key :: layers) rfl lt (by simp)
    rw [tokensOfMembers, keyToken, takeAll?_member wanted, first]
    simp [Data.depthOfMembers, Data.depth, Assembly.put]
  | (.text key, value) :: next :: members, _, plain, done, layers, lt, accepts => by
    rw [Data.allPlainMembers, Bool.and_eq_true, Bool.and_eq_true] at plain
    have wanted (outermost : layers = []) : demand.wants key = true :=
      accepts outermost _ List.mem_cons_self key rfl
    have accepts_rest (outermost : layers = []) : demand.Accepts (.record (next :: members)) :=
      fun member mem => accepts outermost member (List.mem_cons_of_mem _ mem)
    have first := takeAll?_tokensOf value plain.1.2 (.member done key :: layers) rfl lt (by simp)
    have rest := takeAll?_tokensOfMembers (next :: members) (by simp) plain.2
      ((.text key, value) :: done) layers lt accepts_rest
    rw [List.length_cons] at first
    rw [tokensOfMembers, keyToken, takeAll?_append, takeAll?_member wanted, first]
    by_cases fits : layers.length + 1 + value.depth ≤ demand.layers
    · rw [if_pos fits, Assembly.put, Option.bind_some, takeAll?_cons, Assembly.take,
        Assembly.proceed, Option.bind_some, rest, List.reverse_cons (a := (Data.text key, value)),
        List.append_assoc]
      have same : layers.length + 1 + Data.depthOfMembers ((.text key, value) :: next :: members) ≤
          demand.layers ↔
            layers.length + 1 + Data.depthOfMembers (next :: members) ≤ demand.layers := by
        rw [Data.depthOfMembers, show (Data.text key).depth = 0 from rfl]
        omega
      simp only [same]
      rfl
    · rw [if_neg fits, if_neg]
      · rfl
      · rw [Data.depthOfMembers]
        omega

end

/-- **Data is assembled from its tokens exactly if there may be so many layers.** -/
theorem assemble?_tokensOf {data : Data} (plain : data.isPlain = true)
    (accepts : demand.Accepts data) :
    assemble? demand (tokensOf data) = if data.depth ≤ demand.layers then some data else none := by
  have taken := takeAll?_tokensOf data plain [] rfl (Nat.zero_le _) fun _ => accepts
  rw [List.length_nil, Nat.zero_add] at taken
  rw [assemble?, show (tokensOf data).foldlM _ _ = _ from taken]
  by_cases fits : data.depth ≤ demand.layers
  · rw [if_pos fits, if_pos fits]
    rfl
  · rw [if_neg fits, if_neg fits]

end StableModels.Json
