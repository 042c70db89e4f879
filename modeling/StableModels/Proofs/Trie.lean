import StableModels.Proofs.OrderedMap
import StableModels.Trie

/-!
# Tries as finite maps

A trie is **sound** if every inner node keeps its subtrees in order and none of them is empty.
What an insertion does is said once, by a rule for each way in which it ends or goes on
(`StableModels.Trie.Inserts`). It keeps a trie sound, and on a sound trie the operations say what a
finite map under lists of handles says: a look-up after an insertion sees the new payload at the
key and the old ones everywhere else, the entries are the graph of the look-up, and the nodes at
one depth are those that a look-up of that many handles reaches.

Soundness is needed twice over. The order of the subtrees makes a look-up agree with a walk over
the list of them, and the absence of empty subtrees makes every inner node lie above some stored
key (`StableModels.Trie.Sound.exists_find?`), so that whatever an enumeration passes through is
the beginning of something that was put in.
-/

universe u

namespace StableModels

namespace Trie

variable {α : Type u}

/-- Every inner node keeps its subtrees in order, and no subtree is empty. -/
inductive Sound : Trie α → Prop where
  /-- A leaf has nothing below it. -/
  | leaf (payload : α) : Sound (.leaf payload)
  /-- The subtrees ascend, are sound and are not empty. -/
  | node {children : OrderedMap Handle (Trie α)} (ordered : children.Ordered compare)
      (below : ∀ entry ∈ children.toList, Sound entry.2)
      (inhabited : ∀ entry ∈ children.toList, entry.2.isEmpty = false) : Sound (.node children)

theorem sound_empty : (empty : Trie α).Sound :=
  .node OrderedMap.ordered_empty (by simp) (by simp)

/-! ### Look-ups -/

@[simp] theorem find?_nil_leaf (payload : α) : (leaf payload).find? [] = some payload := rfl

@[simp] theorem find?_nil_node (children : OrderedMap Handle (Trie α)) :
    (node children).find? [] = none := rfl

@[simp] theorem find?_cons_leaf (key : Handle) (keys : List Handle) (payload : α) :
    (leaf payload).find? (key :: keys) = none := rfl

@[simp] theorem find?_cons_node (key : Handle) (keys : List Handle)
    (children : OrderedMap Handle (Trie α)) :
    (node children).find? (key :: keys) = (children.find? compare key).bind (·.find? keys) := by
  rw [find?, lookup]
  cases children.find? compare key <;> rfl

@[simp] theorem find?_empty (keys : List Handle) : (empty : Trie α).find? keys = none := by
  cases keys with
  | nil => rfl
  | cons key keys => simp [empty, OrderedMap.find?]

theorem eq_empty_of_isEmpty {trie : Trie α} (hempty : trie.isEmpty = true) : trie = empty := by
  cases trie with
  | leaf payload => cases hempty
  | node children =>
    cases children with
    | empty => rfl
    | node => cases hempty

/-- A payload is found at the leaf that a look-up ends at. -/
theorem find?_eq_some_iff_lookup {keys : List Handle} {trie : Trie α} {payload : α} :
    trie.find? keys = some payload ↔ trie.lookup keys = some (leaf payload) := by
  rw [find?]
  cases trie.lookup keys with
  | none => simp
  | some node => cases node <;> simp [payload?]

/-- A look-up can stop half-way. -/
theorem lookup_append (first second : List Handle) (trie : Trie α) :
    trie.lookup (first ++ second) = (trie.lookup first).bind (·.lookup second) := by
  induction first generalizing trie with
  | nil => rfl
  | cons key first ih =>
    cases trie with
    | leaf payload => rfl
    | node children =>
      rw [List.cons_append, lookup, lookup]
      cases children.find? compare key with
      | none => rfl
      | some child => exact ih child

/-- A payload is found below a node exactly if it is found at all. -/
theorem find?_of_lookup {keys more : List Handle} {trie node : Trie α}
    (reached : trie.lookup keys = some node) : trie.find? (keys ++ more) = node.find? more := by
  rw [find?, lookup_append, reached]
  rfl

/-- What a look-up reaches in a sound trie is sound. -/
theorem Sound.lookup {trie : Trie α} (sound : trie.Sound) {keys : List Handle} {node : Trie α}
    (reached : trie.lookup keys = some node) : node.Sound := by
  induction keys generalizing trie with
  | nil =>
    obtain rfl := Option.some.inj reached
    exact sound
  | cons key keys ih =>
    cases sound with
    | leaf payload => simp [Trie.lookup] at reached
    | node ordered below inhabited =>
      rw [Trie.lookup] at reached
      split at reached
      · simp at reached
      · next child found =>
        exact ih (below _ ((OrderedMap.find?_eq_some_iff ordered).1 found)) reached

/-- **A sound trie that is not empty holds a payload.** -/
theorem Sound.exists_find? {trie : Trie α} (sound : trie.Sound) (inhabited : trie.isEmpty = false) :
    ∃ keys payload, trie.find? keys = some payload := by
  induction sound with
  | leaf payload => exact ⟨[], payload, rfl⟩
  | @node children ordered _ hinhabited ih =>
    cases children with
    | empty => simp [isEmpty, OrderedMap.isEmpty] at inhabited
    | node height left key child right =>
      have member : (key, child) ∈ (OrderedMap.node height left key child right).toList :=
        List.mem_append_right _ List.mem_cons_self
      obtain ⟨keys, payload, found⟩ := ih _ member (hinhabited _ member)
      refine ⟨key :: keys, payload, ?_⟩
      rw [find?_cons_node, (OrderedMap.find?_eq_some_iff ordered).2 member]
      exact found

/-! ### Insertion -/

/-- A subtree that is sound and not empty may be put below any handle. -/
theorem Sound.put {children : OrderedMap Handle (Trie α)} {child : Trie α}
    (sound : (Trie.node children).Sound) (key : Handle) (child_sound : child.Sound)
    (child_inhabited : child.isEmpty = false) :
    (Trie.node (children.put compare key child)).Sound ∧
      (Trie.node (children.put compare key child)).isEmpty = false := by
  cases sound with
  | node ordered below inhabited =>
    have hput := OrderedMap.ordered_put ordered key child
    have stored : ∀ entry ∈ (children.put compare key child).toList,
        entry = (key, child) ∨ entry ∈ children.toList := by
      intro entry member
      have hentry := (OrderedMap.find?_eq_some_iff hput).2 member
      rw [OrderedMap.find?_put ordered] at hentry
      split at hentry
      · next heq => exact Or.inl (Prod.ext heq (Option.some.inj hentry).symm)
      · exact Or.inr ((OrderedMap.find?_eq_some_iff ordered).1 hentry)
    refine ⟨.node hput ?_ ?_, ?_⟩
    · intro entry member
      rcases stored entry member with rfl | member
      · exact child_sound
      · exact below _ member
    · intro entry member
      rcases stored entry member with rfl | member
      · exact child_inhabited
      · exact inhabited _ member
    · have hmem : (key, child) ∈ (children.put compare key child).toList :=
        (OrderedMap.find?_eq_some_iff hput).1 (by simp [OrderedMap.find?_put ordered])
      rw [isEmpty]
      cases hmap : children.put compare key child with
      | empty => simp [hmap] at hmem
      | node => rfl

/-- The law of an update, one level down. -/
theorem find?_put {children : OrderedMap Handle (Trie α)} (ordered : children.Ordered compare)
    (key : Handle) (child : Trie α) (first : Handle) (rest : List Handle) :
    (node (children.put compare key child)).find? (first :: rest) =
      if first = key then child.find? rest else (node children).find? (first :: rest) := by
  rw [find?_cons_node, OrderedMap.find?_put ordered]
  split
  · rfl
  · rw [find?_cons_node]

/-- What a look-up below a handle sees in the subtree there, where a missing one counts as empty. -/
theorem find?_getD_empty (child? : Option (Trie α)) (keys : List Handle) :
    (child?.getD empty).find? keys = child?.bind (·.find? keys) := by
  cases child? <;> simp

/-- What a successful insertion of a payload at a key does to a trie, and the payload it replaces.
At the end of the key a leaf takes the place of nothing or of a leaf; before that the subtree at
the next handle is replaced, where a missing one counts as empty. -/
inductive Inserts (payload : α) : List Handle → Trie α → Trie α → Option α → Prop where
  /-- The key ends where nothing is. -/
  | fresh : Inserts payload [] empty (leaf payload) none
  /-- The key ends at a leaf. -/
  | replaces (old : α) : Inserts payload [] (leaf old) (leaf payload) (some old)
  /-- The key goes on below a handle. -/
  | descends {key : Handle} {keys : List Handle} {children : OrderedMap Handle (Trie α)}
      {child : Trie α} {old : Option α}
      (inner : Inserts payload keys ((children.find? compare key).getD empty) child old) :
      Inserts payload (key :: keys) (node children) (node (children.put compare key child)) old

/-- The payload that an insertion reports is the one that was at the key. -/
theorem Inserts.find?_eq {payload : α} {keys : List Handle} {trie new : Trie α} {old : Option α}
    (inserts : Inserts payload keys trie new old) : trie.find? keys = old := by
  induction inserts with
  | fresh => rfl
  | replaces old => rfl
  | descends inner ih => rw [find?_cons_node, ← find?_getD_empty, ih]

/-- An insertion that is not refused follows the rules. -/
theorem inserts_of_insertBelow {length : Nat} {payload : α} {keys : List Handle}
    {below? : Option (Trie α)} {trie : Trie α} {old : Option α}
    (inserted : insertBelow length payload keys below? = .ok (trie, old)) :
    Inserts payload keys (below?.getD empty) trie old := by
  induction keys generalizing below? trie old with
  | nil =>
    rcases below? with _ | (stored | children)
    · obtain ⟨rfl, rfl⟩ := Prod.mk.inj (Except.ok.inj inserted)
      exact .fresh
    · obtain ⟨rfl, rfl⟩ := Prod.mk.inj (Except.ok.inj inserted)
      exact .replaces stored
    · rw [insertBelow] at inserted
      split at inserted
      · next hempty =>
        obtain ⟨rfl, rfl⟩ := Prod.mk.inj (Except.ok.inj inserted)
        have hnode : node children = empty := eq_empty_of_isEmpty hempty
        rw [Option.getD_some, hnode]
        exact .fresh
      · cases inserted
  | cons key keys ih =>
    rcases below? with _ | (stored | children)
    · rw [insertBelow] at inserted
      split at inserted
      · cases inserted
      · next child replaced hchild =>
        obtain ⟨rfl, rfl⟩ := Prod.mk.inj (Except.ok.inj inserted)
        have inner := ih hchild
        -- Nothing is replaced below a node that was not there.
        obtain rfl : none = replaced := (find?_empty keys).symm.trans inner.find?_eq
        exact Inserts.descends inner
    · cases inserted
    · rw [insertBelow] at inserted
      split at inserted
      · cases inserted
      · next child replaced hchild =>
        obtain ⟨rfl, rfl⟩ := Prod.mk.inj (Except.ok.inj inserted)
        exact .descends (ih hchild)

theorem inserts_of_insert {keys : List Handle} {payload : α} {trie new : Trie α} {old : Option α}
    (inserted : trie.insert keys payload = .ok (new, old)) : Inserts payload keys trie new old :=
  inserts_of_insertBelow inserted

/-- The subtree that an insertion goes down into is sound. -/
theorem Sound.child {children : OrderedMap Handle (Trie α)} (sound : (Trie.node children).Sound)
    (key : Handle) : ((children.find? compare key).getD empty).Sound := by
  cases sound with
  | node ordered below inhabited =>
    cases found : children.find? compare key with
    | none => exact sound_empty
    | some child => exact below _ ((OrderedMap.find?_eq_some_iff ordered).1 found)

theorem Sound.ordered {children : OrderedMap Handle (Trie α)}
    (sound : (Trie.node children).Sound) : children.Ordered compare := by
  cases sound with
  | node ordered below inhabited => exact ordered

/-- Insertion keeps a trie sound and leaves it inhabited. -/
theorem Inserts.sound {payload : α} {keys : List Handle} {trie new : Trie α} {old : Option α}
    (inserts : Inserts payload keys trie new old) (sound : trie.Sound) :
    new.Sound ∧ new.isEmpty = false := by
  induction inserts with
  | fresh => exact ⟨.leaf _, rfl⟩
  | replaces old => exact ⟨.leaf _, rfl⟩
  | @descends key keys children child old inner ih =>
    obtain ⟨child_sound, child_inhabited⟩ := ih (sound.child key)
    exact sound.put key child_sound child_inhabited

/-- After an insertion into a sound trie only the key itself looks different. -/
theorem Inserts.find? {payload : α} {keys : List Handle} {trie new : Trie α} {old : Option α}
    (inserts : Inserts payload keys trie new old) (sound : trie.Sound) (other : List Handle) :
    new.find? other = if other = keys then some payload else trie.find? other := by
  induction inserts generalizing other with
  | fresh => cases other <;> simp
  | replaces old => cases other <;> simp
  | @descends key keys children child old inner ih =>
    cases other with
    | nil => simp
    | cons first rest =>
      rw [find?_put sound.ordered]
      by_cases heq : first = key
      · subst heq
        simp [ih (sound.child first), find?_getD_empty]
      · simp [heq]

/-- **Insertion is the update of a finite map**: the trie stays sound, the payload that is
reported is the one that was there, and afterwards only the key itself looks different. -/
theorem Sound.insert {trie new : Trie α} (sound : trie.Sound) {keys : List Handle} {payload : α}
    {old : Option α} (inserted : trie.insert keys payload = .ok (new, old)) :
    new.Sound ∧ new.isEmpty = false ∧ old = trie.find? keys ∧
      ∀ other, new.find? other = if other = keys then some payload else trie.find? other := by
  have inserts := inserts_of_insert inserted
  obtain ⟨new_sound, new_inhabited⟩ := inserts.sound sound
  exact ⟨new_sound, new_inhabited, inserts.find?_eq.symm, inserts.find? sound⟩

/-! ### Enumeration -/

/-- A list that ascends by key still does with one more handle in front of each key. -/
theorem pairwise_map_cons {β : Type u} (key : Handle) {found : List (List Handle × β)}
    (ascending : found.Pairwise fun first second => first.1 < second.1) :
    (found.map fun entry => (key :: entry.1, entry.2)).Pairwise fun first second =>
      first.1 < second.1 := by
  rw [List.pairwise_map]
  exact ascending.imp fun later => List.cons_lt_cons_iff.2 (Or.inr ⟨rfl, later⟩)

/-- What is found in one subtree comes before what is found in a later one: the first handles
decide. -/
theorem pairwise_of_ordered {β : Type u} {children : OrderedMap Handle (Trie α)}
    (ordered : children.Ordered compare) (found : Handle × Trie α → List (List Handle × β)) :
    children.toList.Pairwise fun child other =>
      ∀ first ∈ (found child).map fun entry => (child.1 :: entry.1, entry.2),
        ∀ second ∈ (found other).map fun entry => (other.1 :: entry.1, entry.2),
          first.1 < second.1 := by
  refine ordered.imp fun {child other} hlt => ?_
  simp only [List.mem_map]
  rintro _ ⟨first, -, rfl⟩ _ ⟨second, -, rfl⟩
  exact List.cons_lt_cons_iff.2 (Or.inl (Nat.compare_eq_lt.1 hlt))

/-- **The nodes at one depth** are those that a look-up of that many handles reaches. -/
theorem Sound.mem_visit {trie : Trie α} (sound : trie.Sound) {depth : Nat} {keys : List Handle}
    {node : Trie α} :
    (keys, node) ∈ trie.visit depth ↔ keys.length = depth ∧ trie.lookup keys = some node := by
  induction depth generalizing trie keys with
  | zero =>
    rw [visit, List.mem_singleton, Prod.mk.injEq, List.length_eq_zero_iff]
    constructor
    · rintro ⟨rfl, rfl⟩
      exact ⟨rfl, rfl⟩
    · rintro ⟨rfl, reached⟩
      exact ⟨rfl, (Option.some.inj reached).symm⟩
  | succ depth ih =>
    cases sound with
    | leaf payload => cases keys <;> simp [visit, Trie.lookup]
    | @node children ordered below inhabited =>
      rw [visit, List.mem_flatMap]
      constructor
      · rintro ⟨⟨key, child⟩, member, hmem⟩
        obtain ⟨⟨rest, reached⟩, hrest, heq⟩ := List.mem_map.1 hmem
        obtain ⟨rfl, rfl⟩ := Prod.mk.inj heq
        obtain ⟨hlength, hlookup⟩ := (ih (below _ member)).1 hrest
        refine ⟨by simp [hlength], ?_⟩
        rw [Trie.lookup, (OrderedMap.find?_eq_some_iff ordered).2 member]
        exact hlookup
      · rintro ⟨hlength, hlookup⟩
        cases keys with
        | nil => simp at hlength
        | cons key rest =>
          rw [Trie.lookup] at hlookup
          split at hlookup
          · simp at hlookup
          · next child found =>
            have member := (OrderedMap.find?_eq_some_iff ordered).1 found
            refine ⟨(key, child), member, List.mem_map.2 ⟨(rest, node), ?_, rfl⟩⟩
            exact (ih (below _ member)).2 ⟨by simpa using hlength, hlookup⟩

/-- **The nodes at one depth ascend by key**, handle by handle. -/
theorem Sound.pairwise_visit {trie : Trie α} (sound : trie.Sound) (depth : Nat) :
    (trie.visit depth).Pairwise fun first second => first.1 < second.1 := by
  induction depth generalizing trie with
  | zero =>
    rw [visit]
    exact List.pairwise_singleton _ _
  | succ depth ih =>
    cases sound with
    | leaf payload => exact List.Pairwise.nil
    | node ordered below inhabited =>
      rw [visit, List.pairwise_flatMap]
      exact ⟨fun child member => pairwise_map_cons child.1 (ih (below child member)),
        pairwise_of_ordered ordered fun child => child.2.visit depth⟩

/-- The entries of subtrees, as one list over them. -/
theorem childEntries_eq (children : OrderedMap Handle (Trie α)) :
    childEntries children = children.toList.flatMap fun child =>
      (entries child.2).map fun entry => (child.1 :: entry.1, entry.2) := by
  induction children with
  | empty => rw [childEntries]; rfl
  | node height left key child right ihl ihr =>
    rw [childEntries, ihl, ihr]
    simp [OrderedMap.toList]

/-- **The entries are the graph of the look-up.** -/
theorem Sound.mem_entries {trie : Trie α} (sound : trie.Sound) {keys : List Handle} {payload : α} :
    (keys, payload) ∈ trie.entries ↔ trie.find? keys = some payload := by
  induction sound generalizing keys with
  | leaf stored =>
    rw [entries, List.mem_singleton, Prod.mk.injEq]
    cases keys <;> simp [eq_comm]
  | @node children ordered below inhabited ih =>
    rw [entries, childEntries_eq, List.mem_flatMap]
    constructor
    · rintro ⟨⟨key, child⟩, member, hmem⟩
      obtain ⟨⟨rest, stored⟩, hrest, heq⟩ := List.mem_map.1 hmem
      obtain ⟨rfl, rfl⟩ := Prod.mk.inj heq
      rw [find?_cons_node, (OrderedMap.find?_eq_some_iff ordered).2 member]
      exact (ih _ member).1 hrest
    · intro found
      cases keys with
      | nil => simp at found
      | cons key rest =>
        rw [find?_cons_node] at found
        obtain ⟨child, hchild, hfound⟩ := Option.bind_eq_some_iff.1 found
        have member := (OrderedMap.find?_eq_some_iff ordered).1 hchild
        exact ⟨(key, child), member, List.mem_map.2 ⟨(rest, payload), (ih _ member).2 hfound, rfl⟩⟩

/-- **The entries ascend by key**, handle by handle. -/
theorem Sound.pairwise_entries {trie : Trie α} (sound : trie.Sound) :
    trie.entries.Pairwise fun first second => first.1 < second.1 := by
  induction sound with
  | leaf payload =>
    rw [entries]
    exact List.pairwise_singleton _ _
  | @node children ordered below inhabited ih =>
    rw [entries, childEntries_eq, List.pairwise_flatMap]
    exact ⟨fun child member => pairwise_map_cons child.1 (ih child member),
      pairwise_of_ordered ordered fun child => child.2.entries⟩

/-- Insertion adds to the entries or takes the place of one. -/
theorem Inserts.perm_entries {payload : α} {keys : List Handle} {trie new : Trie α}
    {old : Option α} (inserts : Inserts payload keys trie new old) (sound : trie.Sound) :
    ∃ rest, trie.entries.Perm (old.toList.map (keys, ·) ++ rest) ∧
      new.entries.Perm ((keys, payload) :: rest) := by
  induction inserts with
  | fresh => exact ⟨[], by simp [empty, entries, childEntries], by simp [entries]⟩
  | replaces old => exact ⟨[], by simp [entries], by simp [entries]⟩
  | @descends key keys children child old inner ih =>
    obtain ⟨rest, hbefore, hafter⟩ := ih (sound.child key)
    -- The subtree at the key makes way for another, the rest of the node stays.
    obtain ⟨others, hlist, hput⟩ := OrderedMap.perm_toList_put sound.ordered key child
    let listed (child : Handle × Trie α) : List (List Handle × α) :=
      (entries child.2).map fun entry => (child.1 :: entry.1, entry.2)
    refine ⟨(rest.map fun entry => (key :: entry.1, entry.2)) ++ others.flatMap listed, ?_, ?_⟩
    · rw [entries, childEntries_eq]
      refine (hlist.flatMap_right listed).trans ?_
      rw [List.flatMap_append, ← List.append_assoc]
      refine List.Perm.append_right _ ?_
      have hmapped := hbefore.map fun entry => (key :: entry.1, entry.2)
      cases hfound : children.find? compare key with
      | none => simpa [hfound, empty, entries, childEntries, Function.comp_def] using hmapped
      | some child => simpa [hfound, listed, Function.comp_def] using hmapped
    · rw [entries, childEntries_eq]
      refine (hput.flatMap_right listed).trans ?_
      rw [List.flatMap_cons, ← List.cons_append]
      exact List.Perm.append_right _ (hafter.map fun entry => (key :: entry.1, entry.2))

end Trie

end StableModels
