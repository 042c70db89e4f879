import StableModels.Proofs.Listing

/-!
# What the index of a database lists

`StableModels.Database.visit` lists how a prefix of arguments goes on for some positions. In a
relation whose tuples have different lengths the positions behind a prefix are of three kinds: a
handle in the middle of a longer tuple, the value of a tuple that is fixed, and nothing, where a
tuple is merely narrowed. What is listed is told by `StableModels.Database.Completes` in terms of
the tuples alone.

The completions of one depth have one length and ascend
(`StableModels.Database.Sound.pairwise_visit`): those that part inside the trie are ordered by the
nodes that they come from, and those that come from one node by their last handle.

Depth zero takes a way of its own through the trie. It asks for the node in front of the last handle
of the prefix, which is where depth one would list that handle
(`StableModels.Database.holds_concat_iff`).

The main statement is `StableModels.Database.Filled.visit_by_depth`.
-/

namespace StableModels

/-- Of two lists of one length the smaller one stays smaller, whatever follows them. -/
theorem append_lt_append {first second : List Handle} (less : first < second)
    (same : first.length = second.length) (rest others : List Handle) :
    first ++ rest < second ++ others := by
  induction first generalizing second with
  | nil =>
    obtain rfl := List.length_eq_zero_iff.1 same.symm
    exact absurd less (List.lt_irrefl _)
  | cons key first ih =>
    cases second with
    | nil => cases same
    | cons other second =>
      rw [List.cons_lt_cons_iff] at less
      rw [List.cons_append, List.cons_append, List.cons_lt_cons_iff]
      exact less.imp_right fun ⟨heq, less⟩ => ⟨heq, ih less (Nat.succ.inj same)⟩

namespace Database

variable {trie : Trie Constraint} {database : Database} {name : String} {args : List Handle}
  {last : Handle} {depth : Nat} {settings : List Setting}

/-! ### The order of the completions -/

/-- What follows a node ascends. -/
theorem pairwise_continuations (sound : trie.Sound) : (continuations trie).Pairwise (· < ·) := by
  cases sound with
  | leaf constraint => cases constraint <;> simp [continuations, Constraint.value?]
  | node ordered =>
    rw [continuations, OrderedMap.keys, List.pairwise_map]
    exact ordered.imp Nat.compare_eq_lt.1

/-- **The completions of one depth ascend**, handle by handle. -/
theorem Sound.pairwise_visit (sound : database.Sound) (name : String) (args : List Handle)
    (depth : Nat) : (database.visit name args (depth + 1)).Pairwise (· < ·) := by
  rw [visit]
  cases hrelation : database.relation? name with
  | none => exact List.Pairwise.nil
  | some relation =>
    have hsound := (sound.of_relation? hrelation).tuples
    simp only
    cases hlookup : relation.tuples.lookup args with
    | none => exact List.Pairwise.nil
    | some trie =>
      have below := hsound.lookup hlookup
      simp only [List.pairwise_flatMap, List.pairwise_map, List.mem_map]
      constructor
      · -- Behind one node the last handles decide.
        rintro ⟨rest, node⟩ member
        obtain ⟨-, reached⟩ := below.mem_visit.1 member
        exact (pairwise_continuations (below.lookup reached)).imp fun less =>
          List.append_left_lt (List.cons_lt_cons_iff.2 (Or.inl less))
      · -- Behind different nodes the way to the nodes does.
        refine (below.pairwise_visit depth).imp_of_mem fun {first second} hfirst hsecond less => ?_
        rintro _ ⟨last, -, rfl⟩ _ ⟨last', -, rfl⟩
        have same : first.1.length = second.1.length :=
          (below.mem_visit.1 hfirst).1.trans (below.mem_visit.1 hsecond).1.symm
        exact append_lt_append less same _ _

/-! ### Depth zero -/

/-- What goes on for one position is what follows the node at the end of the prefix. -/
theorem mem_visit_one {relation : Relation} (found : database.relation? name = some relation) :
    [last] ∈ database.visit name args 1 ↔
      ∃ node, relation.tuples.lookup args = some node ∧ last ∈ continuations node := by
  rw [visit, found]
  simp only
  cases relation.tuples.lookup args <;> simp [Trie.visit]

/-- The empty prefix is there if something follows the root. -/
theorem holds_nil_iff : holds [] trie = true ↔ ∃ last, last ∈ continuations trie := by
  cases trie with
  | leaf constraint =>
    cases constraint <;> simp [holds, continuations, Constraint.value?, Constraint.isFixed]
  | node children =>
    cases children with
    | empty => simp [holds, continuations, OrderedMap.isEmpty, OrderedMap.keys, OrderedMap.toList]
    | node height left key child right =>
      refine iff_of_true rfl ⟨key, ?_⟩
      simp [continuations, OrderedMap.keys, OrderedMap.toList]

/-- **A prefix is there if its last handle follows the node at the end of the others.** -/
theorem holds_concat_iff (sound : trie.Sound) :
    holds (args ++ [last]) trie = true ↔
      ∃ node, trie.lookup args = some node ∧ last ∈ continuations node := by
  simp only [holds, List.getLast?_concat, List.dropLast_concat]
  cases hlookup : trie.lookup args with
  | none => simp
  | some node =>
    cases sound.lookup hlookup with
    | leaf constraint => simp [continuations]
    | @node children ordered =>
      simp only [Option.some.injEq, exists_eq_left', continuations, OrderedMap.contains,
        OrderedMap.keys, List.mem_map, Option.isSome_iff_exists,
        OrderedMap.find?_eq_some_iff ordered]
      constructor
      · rintro ⟨child, member⟩
        exact ⟨_, member, rfl⟩
      · rintro ⟨⟨_, child⟩, member, rfl⟩
        exact ⟨child, member⟩

theorem Sound.visit_zero_concat (sound : database.Sound) (name : String) (args : List Handle)
    (last : Handle) : database.visit name (args ++ [last]) 0 =
      if [last] ∈ database.visit name args 1 then [[]] else [] := by
  cases found : database.relation? name with
  | none => simp [visit, found]
  | some relation =>
    have hsound := (sound.of_relation? found).tuples
    simp only [mem_visit_one found, ← holds_concat_iff hsound]
    rw [visit, found]

theorem visit_zero_nil (name : String) (database : Database) :
    database.visit name [] 0 = if database.visit name [] 1 = [] then [] else [[]] := by
  cases found : database.relation? name with
  | none => simp [visit, found]
  | some relation =>
    have listed : database.visit name [] 1 = [] ↔ ¬holds [] relation.tuples = true := by
      rw [holds_nil_iff, not_exists, ← List.eq_nil_iff_forall_not_mem]
      simp [visit, found, Trie.lookup, Trie.visit]
    simp only [listed, ite_not]
    rw [visit, found]

/-! ### What is listed -/

/-- **The prefix goes on so**: with the rest of the arguments of a tuple that was last fixed, and
its value behind them, or as a tuple goes on, fixed or narrowed. -/
def Completes (settings : List Setting) (name : String) (args completion : List Handle) : Prop :=
  ∃ rest last, completion = rest ++ [last] ∧
    (lastSet? name (args ++ rest) settings = some (.just last) ∨
      ∃ stored, (lastSet? name stored settings).isSome = true ∧ args ++ completion <+: stored)

/-- What the index finds is how the prefix goes on. -/
theorem Filled.mem_visit (filled : Filled settings database) {completion : List Handle} :
    completion ∈ database.visit name args (depth + 1) ↔
      completion.length = depth + 1 ∧ Completes settings name args completion := by
  rw [filled.sound.mem_visit, Completes]
  simp only [filled.get?_eq]
  constructor
  · rintro ⟨rest, last, rfl, hlength, fixed | ⟨more, constraint, found⟩⟩
    · exact ⟨by simp [hlength], rest, last, rfl, Or.inl fixed⟩
    · refine ⟨by simp [hlength], rest, last, rfl, Or.inr ⟨_, by rw [found]; rfl, more, ?_⟩⟩
      simp
  · rintro ⟨hlength, rest, last, rfl, fixed | ⟨stored, held, more, rfl⟩⟩
    · exact ⟨rest, last, rfl, by simpa using hlength, Or.inl fixed⟩
    · obtain ⟨constraint, found⟩ := Option.isSome_iff_exists.1 held
      refine ⟨rest, last, rfl, by simpa using hlength, Or.inr ⟨more, constraint, ?_⟩⟩
      simpa using found

/-- **What the index lists, depth by depth.** For a depth of one or more it lists the ways in which
the prefix goes on for so many positions, strictly ascending. Depth zero tells whether a prefix is
there: whether its last handle is one of the ways in which the others go on for one position, and
for the empty prefix whether there is any such way. -/
theorem Filled.visit_by_depth (filled : Filled settings database) (name : String)
    (args : List Handle) :
    (∀ depth, 1 ≤ depth → (database.visit name args depth).Pairwise (· < ·) ∧
      ∀ completion, completion ∈ database.visit name args depth ↔
        completion.length = depth ∧ Completes settings name args completion) ∧
      (∀ last, database.visit name (args ++ [last]) 0 =
        if [last] ∈ database.visit name args 1 then [[]] else []) ∧
        database.visit name [] 0 = if database.visit name [] 1 = [] then [] else [[]] := by
  refine ⟨fun depth positive => ?_, filled.sound.visit_zero_concat name args,
    visit_zero_nil name database⟩
  obtain ⟨depth, rfl⟩ := Nat.exists_eq_add_of_le' positive
  exact ⟨filled.sound.pairwise_visit name args depth, fun _ => filled.mem_visit⟩

/-- Tuples of two lengths, fixed and narrowed; the latest comes first. -/
def ragged : List Setting :=
  [⟨"p", [5, 4], .noneOf (.ofList [3])⟩, ⟨"p", [4], .just 3⟩, ⟨"p", [5, 3], .just 6⟩]

/-- At depth two the value of the short tuple stands beside the arguments of the long ones. -/
theorem Filled.visit_by_depth_ragged : ∃ database, Filled ragged database ∧ 1 ≤ 2 ∧
    database.visit "p" [] 2 = [[4, 3], [5, 3], [5, 4]] ∧
      Completes ragged "p" [] [4, 3] ∧ Completes ragged "p" [] [5, 4] ∧
        ¬Completes ragged "p" [5, 4] [3] ∧ database.visit "p" [5, 3] 0 = [[]] := by
  have filled : Filled ragged _ := .set (.set (.set .empty rfl) rfl) rfl
  obtain ⟨listed, -⟩ := filled.visit_by_depth "p" []
  obtain ⟨behind, -⟩ := filled.visit_by_depth "p" [5, 4]
  obtain ⟨-, there, -⟩ := filled.visit_by_depth "p" [5]
  obtain ⟨-, completions⟩ := listed 2 (by decide)
  refine ⟨_, filled, by decide, rfl, ((completions _).1 (by decide)).2,
    ((completions _).1 (by decide)).2, fun completes => ?_, there 3⟩
  exact absurd (((behind 1 le_rfl).2 _).2 ⟨rfl, completes⟩) (by decide)

end Database

end StableModels
