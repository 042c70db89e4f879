import StableModels.Proofs.PrefixFree

/-!
# Tries as prefix-free maps

A trie that was grown from the empty one is known by the **history** of the insertions that were not
refused. It holds at each key the payload that was last put there, and its inner nodes are the
beginnings of its keys and nothing else (`StableModels.Trie.Represents`).

What makes the second half true is that no inner node below the root is empty. Only the root can be:
it is where the first insertion finds an inner node to put a leaf in place of, if the key has no
handle at all. Everywhere else an inner node lies above some stored key
(`StableModels.Trie.Sound.lookup_eq_node_iff`), so that a key that ends there is refused.

The main statement is `StableModels.Trie.Grown.prefix_free_map`.
-/

universe u

namespace StableModels

/-- **One key is a beginning of another one**, and not all of it. -/
def ProperPrefix (first second : List Handle) : Prop := first <+: second ∧ first ≠ second

theorem overlaps_iff {first second : List Handle} :
    Overlaps first second ↔ ProperPrefix first second ∨ ProperPrefix second first := by
  rw [Overlaps, ProperPrefix, ProperPrefix, ne_comm (a := second)]
  tauto

namespace Trie

variable {α : Type u} {trie after node : Trie α} {keys : List Handle} {payload : α}
  {old : Option α} {children : OrderedMap Handle (Trie α)}

/-! ### Inner nodes -/

/-- **Only the root can be empty.** -/
theorem Sound.inhabited_of_lookup (sound : trie.Sound) (below : keys ≠ [])
    (reached : trie.lookup keys = some node) : node.isEmpty = false := by
  induction keys generalizing trie with
  | nil => exact absurd rfl below
  | cons key rest ih =>
    cases sound with
    | leaf payload => cases reached
    | @node children ordered sounds inhabited =>
      rw [Trie.lookup] at reached
      split at reached
      · cases reached
      · next child found =>
        have member := (OrderedMap.find?_eq_some_iff ordered).1 found
        cases rest with
        | nil =>
          obtain rfl := Option.some.inj reached
          exact inhabited _ member
        | cons next rest => exact ih (sounds _ member) (List.cons_ne_nil next rest) reached

/-- **Inner nodes lie above stored keys**: a look-up ends at one exactly if its handles are the
beginning of a key that goes on behind them, or at the root of the empty trie. -/
theorem Sound.lookup_eq_node_iff (sound : trie.Sound) :
    (∃ children, trie.lookup keys = some (.node children)) ↔
      (∃ stored, (trie.find? stored).isSome = true ∧ ProperPrefix keys stored) ∨
        keys = [] ∧ trie = empty := by
  constructor
  · rintro ⟨children, reached⟩
    cases hempty : (Trie.node children).isEmpty with
    | true =>
      obtain rfl : keys = [] := by
        by_contra below
        exact Bool.false_ne_true ((sound.inhabited_of_lookup below reached).symm.trans hempty)
      obtain rfl := Option.some.inj reached
      exact Or.inr ⟨rfl, eq_empty_of_isEmpty hempty⟩
    | false =>
      obtain ⟨rest, payload, found⟩ := (sound.lookup reached).exists_find? hempty
      refine Or.inl ⟨keys ++ rest, ?_, List.prefix_append keys rest, ?_⟩
      · rw [find?_of_lookup reached, found]
        rfl
      · intro same
        obtain rfl := List.self_eq_append_right.1 same
        cases found
  · rintro (⟨stored, held, ⟨rest, rfl⟩, proper⟩ | ⟨rfl, rfl⟩)
    · obtain ⟨payload, found⟩ := Option.isSome_iff_exists.1 held
      rw [find?_eq_some_iff_lookup, lookup_append] at found
      obtain ⟨node, reached, rest_reached⟩ := Option.bind_eq_some_iff.1 found
      cases node with
      | node children => exact ⟨children, reached⟩
      | leaf payload =>
        cases rest with
        | nil => exact absurd (List.append_nil keys).symm proper
        | cons key rest => cases rest_reached
    · exact ⟨.empty, rfl⟩

/-! ### Histories -/

/-- **A trie that was grown from the empty one** by insertions, the latest first, of which none was
refused. -/
inductive Grown : List (List Handle × α) → Trie α → Prop where
  /-- Nothing was inserted. -/
  | empty : Grown [] .empty
  /-- One more payload was put at a key. -/
  | insert {history : List (List Handle × α)} {trie after : Trie α} {keys : List Handle}
      {payload : α} {old : Option α} (grown : Grown history trie)
      (inserted : trie.insert keys payload = .ok (after, old)) :
      Grown ((keys, payload) :: history) after

/-- **The trie is the map that a history of insertions makes**, and its inner nodes are the
beginnings of the keys. -/
structure Represents (history : List (List Handle × α)) (trie : Trie α) : Prop where
  /-- At a key there is what was last put there. -/
  find?_eq : ∀ keys, trie.find? keys = history.lookup keys
  /-- No inner node below the root is empty. -/
  inhabited : ∀ keys children, keys ≠ [] → trie.lookup keys = some (.node children) →
    children.isEmpty = false
  /-- A look-up ends at an inner node exactly if a stored key goes on there, or if nothing is
  stored and it does not go anywhere. -/
  lookup_eq_node_iff : ∀ keys, (∃ children, trie.lookup keys = some (.node children)) ↔
    (∃ stored, (history.lookup stored).isSome = true ∧ ProperPrefix keys stored) ∨
      keys = [] ∧ history = []

variable {history : List (List Handle × α)}

theorem Grown.sound (grown : Grown history trie) : trie.Sound := by
  induction grown with
  | empty => exact sound_empty
  | insert _ inserted ih => exact (ih.insert inserted).1

theorem Grown.find?_eq (grown : Grown history trie) (keys : List Handle) :
    trie.find? keys = history.lookup keys := by
  induction grown with
  | empty => exact find?_empty keys
  | insert grown inserted ih =>
    obtain ⟨-, -, -, find⟩ := grown.sound.insert inserted
    rw [find, ih, List.lookup_cons]
    split
    · next same => rw [beq_iff_eq.2 same]
    · next differ => rw [beq_eq_false_iff_ne.2 differ]

/-- A trie is empty exactly if nothing was inserted. -/
theorem Grown.eq_empty_iff (grown : Grown history trie) : trie = .empty ↔ history = [] := by
  cases grown with
  | empty => exact iff_of_true rfl rfl
  | insert grown inserted =>
    obtain ⟨-, inhabited, -⟩ := grown.sound.insert inserted
    refine iff_of_false ?_ (List.cons_ne_nil _ _)
    rintro rfl
    cases inhabited

theorem Grown.represents (grown : Grown history trie) : Represents history trie where
  find?_eq := grown.find?_eq
  inhabited := fun _ _ below reached => grown.sound.inhabited_of_lookup below reached
  lookup_eq_node_iff := by
    intro keys
    rw [grown.sound.lookup_eq_node_iff, grown.eq_empty_iff]
    simp only [grown.find?_eq]

/-- **A trie is a prefix-free map.** It represents the history that it was grown by. One more
insertion is refused exactly if some stored key is a proper beginning of the new one or goes on
behind it; otherwise it reports what was stored at the key, a look-up of the key then ends at the
leaf of the new payload, all other keys keep theirs, and the new trie represents the longer
history. -/
theorem Grown.prefix_free_map (grown : Grown history trie) (keys : List Handle) (payload : α) :
    Represents history trie ∧
      ((∃ fault, trie.insert keys payload = .error fault) ↔
        ∃ stored, (history.lookup stored).isSome = true ∧
          (ProperPrefix stored keys ∨ ProperPrefix keys stored)) ∧
        ∀ after old, trie.insert keys payload = .ok (after, old) →
          old = history.lookup keys ∧ after.lookup keys = some (.leaf payload) ∧
            (∀ other, other ≠ keys → after.find? other = trie.find? other) ∧
              Represents ((keys, payload) :: history) after := by
  refine ⟨grown.represents, ?_, ?_⟩
  · rw [grown.sound.refuses_iff_overlaps]
    simp only [grown.find?_eq, overlaps_iff, or_comm]
  · intro after old inserted
    obtain ⟨-, -, reported, find⟩ := grown.sound.insert inserted
    refine ⟨reported.trans (grown.find?_eq keys), ?_, fun other differ => ?_,
      (grown.insert inserted).represents⟩
    · exact find?_eq_some_iff_lookup.1 ((find keys).trans (if_pos rfl))
    · exact (find other).trans (if_neg differ)

/-- Three keys of different lengths, one of which got its payload twice; the latest comes first. -/
def forked : List (List Handle × Nat) := [([5, 3], 30), ([5, 4, 4], 20), ([6], 10), ([5, 3], 0)]

/-- The beginning that two of the keys share is an inner node and no key, and the key that is put in
once more reports its second payload. -/
theorem Grown.prefix_free_map_forked : ∃ trie : Trie Nat, Grown forked trie ∧
    (∃ fault, trie.insert [5] 7 = .error fault) ∧ (∃ fault, trie.insert [6, 3] 7 = .error fault) ∧
      (∃ children, trie.lookup [5] = some (.node children) ∧ children.isEmpty = false) ∧
        ∃ after, trie.insert [5, 3] 7 = .ok (after, some 30) ∧
          after.lookup [5, 3] = some (.leaf 7) ∧ after.find? [6] = some 10 := by
  have grown : Grown forked _ :=
    .insert (.insert (.insert (.insert .empty rfl) rfl) rfl) rfl
  obtain ⟨represents, inside, -⟩ := grown.prefix_free_map [5] 7
  obtain ⟨-, behind, -⟩ := grown.prefix_free_map [6, 3] 7
  obtain ⟨-, -, replaced⟩ := grown.prefix_free_map [5, 3] 7
  obtain ⟨reported, leaf, kept, -⟩ := replaced _ _ rfl
  obtain ⟨children, reached⟩ :=
    (represents.lookup_eq_node_iff [5]).2 (.inl ⟨[5, 3], rfl, ⟨[3], rfl⟩, by decide⟩)
  refine ⟨_, grown, inside.2 ⟨[5, 3], rfl, .inr ⟨⟨[3], rfl⟩, by decide⟩⟩,
    behind.2 ⟨[6], rfl, .inl ⟨⟨[3], rfl⟩, by decide⟩⟩,
    ⟨children, reached, represents.inhabited _ _ (by decide) reached⟩, _, rfl, leaf, ?_⟩
  exact (kept [6] (by decide)).trans (represents.find?_eq [6])

end Trie

end StableModels
