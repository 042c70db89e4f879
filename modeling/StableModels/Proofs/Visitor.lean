import Mathlib.Data.List.Sort
import StableModels.Proofs.PrefixFreeMap
import StableModels.Proofs.SortedMap

/-!
# Visiting a trie one node at a time

A visitor (`StableModels.Trie.Visitor`) finds the nodes at one depth on demand. It remembers where
it is by two lists that are kept apart: the cursors of the levels that it has come down, and the
handles of the way to the lowest of them. What it has still to visit can be read off both together
(`StableModels.Trie.Visitor.pending`): the subtrees ahead of the lowest cursor, each behind the
whole path, then those of the level above behind the path without its last handle, and so on.

One request takes the first of these nodes and leaves the others
(`StableModels.Trie.Visitor.InStep.takes_next`), whatever levels it has to leave and whatever leaves
it has to pass on the way. So the answers are the list `StableModels.Trie.visit`, one by one, and
nothing after it.

For a trie whose keys have one length this list and the entries say the same, with one exception.
The root of a trie without keys is a node at depth zero, and no entry
(`StableModels.Trie.not_forall_answers_entries`).

The main statement is `StableModels.Trie.Grown.visited_in_order`.
-/

universe u

namespace StableModels

open OrderedMap (Cursor)

namespace Trie

variable {α : Type u} {trie : Trie α} {history : List (List Handle × α)} {depth : Nat}

namespace Visitor

variable {visitor : Visitor α} {path : List Handle} {stack : List (Cursor Handle (Trie α))}

/-! ### What is still to be visited -/

/-- The nodes at a depth that are found from a stack and a path on. -/
def pending (depth : Nat) :
    List Handle → List (Cursor Handle (Trie α)) → List (List Handle × Trie α)
  | _, [] => []
  | path, top :: stack =>
    (top.ahead.flatMap fun child =>
      (child.2.visit (depth - (stack.length + 1))).map fun found =>
        (path.reverse ++ child.1 :: found.1, found.2)) ++ pending depth path.tail stack

/-- The nodes that a visitor has still to visit. -/
def ahead (visitor : Visitor α) : List (List Handle × Trie α) :=
  match visitor.root? with
  | some root => root.visit visitor.depth
  | none => pending visitor.depth visitor.path visitor.stack

/-- **The visitor is in step**: it is on no level before it has entered the root, and never on a
level below the nodes that it looks for; and each of its cursors knows how much is ahead of it. -/
structure InStep (visitor : Visitor α) : Prop where
  /-- Before the start there are no levels and no handles. -/
  fresh : visitor.root?.isSome = true → visitor.path = [] ∧ visitor.stack = []
  /-- The levels end at the depth of the nodes. -/
  length_le : visitor.stack.length ≤ visitor.depth
  /-- The numbers that the cursors keep are right. -/
  counted : ∀ cursor ∈ visitor.stack, cursor.Counted

/-- **The answer takes the first of these nodes**, and a visitor that is in step has still to visit
the others. -/
structure Takes (found : List (List Handle × Trie α))
    (answer : Option (List Handle × Trie α) × Visitor α) : Prop where
  /-- The answer is the first node. -/
  first : answer.1 = found.head?
  /-- The others are left. -/
  others : answer.2.ahead = found.tail
  /-- The visitor is in step. -/
  inStep : answer.2.InStep

/-! ### One request -/

variable {top rest : Cursor Handle (Trie α)} {key : Handle} {child : Trie α}
  {children : OrderedMap Handle (Trie α)}

/-- A subtree that is taken from the lowest cursor comes first. -/
theorem pending_of_next (next : top.next? = some ((key, child), rest)) :
    pending depth path (top :: stack) =
      ((child.visit (depth - (stack.length + 1))).map fun found =>
        (path.reverse ++ key :: found.1, found.2)) ++ pending depth path (rest :: stack) := by
  rw [pending, pending, Cursor.ahead_of_next?_eq_some next, List.flatMap_cons, List.append_assoc]

/-- To enter an inner node above the depth is to put its subtrees in its place, behind one more
handle. -/
theorem pending_enter (above : stack.length + 1 < depth) :
    pending depth (key :: path) (children.cursor :: rest :: stack) =
      (((node children).visit (depth - (stack.length + 1))).map fun found =>
        (path.reverse ++ key :: found.1, found.2)) ++ pending depth path (rest :: stack) := by
  obtain ⟨below, hbelow⟩ := Nat.exists_eq_add_of_lt above
  have levels : depth - (stack.length + 1) = below + 1 := by omega
  have levels' : depth - ((rest :: stack).length + 1) = below := by
    rw [List.length_cons]
    omega
  rw [pending, OrderedMap.ahead_cursor, levels, levels', visit, List.tail_cons, List.map_flatMap]
  simp only [List.map_map, List.reverse_cons, List.append_assoc, List.singleton_append]
  rfl

/-- There is nothing below a leaf. -/
theorem visit_leaf (payload : α) (below : 0 < depth) : (leaf payload).visit depth = [] := by
  cases depth with
  | zero => cases below
  | succ depth => rw [visit]

/-- A visitor that has entered the root is in step above the depth of the nodes. -/
theorem inStep_entered (fits : stack.length ≤ depth) (counted : ∀ cursor ∈ stack, cursor.Counted) :
    (⟨depth, none, path, stack⟩ : Visitor α).InStep :=
  ⟨fun fresh => Bool.noConfusion fresh, fits, counted⟩

/-- The numbers stay right when a subtree is taken from the lowest cursor. -/
theorem counted_of_next (counted : ∀ cursor ∈ top :: stack, cursor.Counted)
    (next : top.next? = some ((key, child), rest)) : ∀ cursor ∈ rest :: stack, cursor.Counted := by
  obtain ⟨right, below⟩ := List.forall_mem_cons.1 counted
  exact List.forall_mem_cons.2 ⟨(right.next next).2, below⟩

/-- **The way to the next node loses none**: what is pending stays as it is while levels are left
and entered and leaves are passed, and a node at the depth is the first of it. -/
theorem takes_advance (fits : stack.length ≤ depth) (counted : ∀ cursor ∈ stack, cursor.Counted) :
    Takes (pending depth path stack) (advance depth path stack) := by
  -- The induction is on the way from level to level, none of which lies below the depth.
  fun_induction advance depth path stack with
  | case1 path => exact ⟨rfl, rfl, inStep_entered (Nat.zero_le depth) counted⟩
  | case2 path top stack spent ih =>
    rw [pending, Cursor.ahead_of_next?_eq_none spent]
    exact ih (Nat.le_of_succ_le fits) (List.forall_mem_cons.1 counted).2
  | case3 path top stack key child rest next here =>
    have none_below : depth - (stack.length + 1) = 0 := by omega
    rw [pending_of_next next, none_below, visit]
    refine ⟨?_, rfl, inStep_entered fits (counted_of_next counted next)⟩
    rw [List.reverse_cons]
    rfl
  | case4 path top stack key rest above payload next _ ih =>
    have inside : stack.length + 1 < depth := Nat.lt_of_le_of_ne fits above
    rw [pending_of_next next, visit_leaf payload (Nat.sub_pos_of_lt inside)]
    exact ih fits (counted_of_next counted next)
  | case5 path top stack key rest above children next _ ih =>
    have inside : stack.length + 1 < depth := Nat.lt_of_le_of_ne fits above
    rw [pending_of_next next, ← pending_enter inside]
    exact ih inside
      (List.forall_mem_cons.2 ⟨children.counted_cursor, counted_of_next counted next⟩)

/-- What there is to be visited from an inner node on is what is pending when it has been entered.
-/
theorem visit_node : (node children).visit (depth + 1) =
    pending (depth + 1) [] [children.cursor] := by
  rw [pending, OrderedMap.ahead_cursor, pending, List.append_nil]
  rfl

/-- **A request takes the first node** that a visitor in step has still to visit. -/
theorem InStep.takes_next (inStep : visitor.InStep) : Takes visitor.ahead visitor.next := by
  obtain ⟨depth, root?, path, stack⟩ := visitor
  cases root? with
  | none => exact takes_advance inStep.length_le inStep.counted
  | some root =>
    obtain ⟨rfl, rfl⟩ := inStep.fresh rfl
    cases depth with
    | zero => exact ⟨rfl, rfl, inStep_entered le_rfl inStep.counted⟩
    | succ depth =>
      cases root with
      | leaf payload => exact ⟨rfl, rfl, inStep_entered (Nat.zero_le _) inStep.counted⟩
      | node children =>
        have entered : Takes (pending (depth + 1) [] [children.cursor])
            (advance (depth + 1) [] [children.cursor]) :=
          takes_advance (Nat.le_add_left 1 depth) (by simpa using children.counted_cursor)
        rw [← visit_node] at entered
        exact entered

/-! ### All requests -/

/-- The answer to the request that comes after `count` others. -/
def answer : Nat → Visitor α → Option (List Handle × Trie α)
  | 0, visitor => visitor.next.1
  | count + 1, visitor => visitor.next.2.answer count

/-- **The answers are what was ahead**, one by one, and nothing after it. -/
theorem InStep.answer_eq (inStep : visitor.InStep) (count : Nat) :
    visitor.answer count = visitor.ahead[count]? := by
  induction count generalizing visitor with
  | zero => rw [answer, inStep.takes_next.first, List.head?_eq_getElem?]
  | succ count ih =>
    rw [answer, ih inStep.takes_next.inStep, inStep.takes_next.others, List.getElem?_tail]

end Visitor

/-- **Visiting one node at a time is listing the nodes.** -/
theorem answer_visitor (depth : Nat) (trie : Trie α) (count : Nat) :
    (trie.visitor depth).answer count = (trie.visit depth)[count]? :=
  have inStep : (trie.visitor depth).InStep := ⟨fun _ => ⟨rfl, rfl⟩, Nat.zero_le depth, nofun⟩
  inStep.answer_eq count

/-! ### Keys of one length -/

/-- **A list that ascends by key is settled by its members.** -/
theorem eq_of_ascending {β : Type u} {found others : List (List Handle × β)}
    (found_ascends : found.Pairwise fun first second => first.1 < second.1)
    (others_ascend : others.Pairwise fun first second => first.1 < second.1)
    (same : ∀ entry, entry ∈ found ↔ entry ∈ others) : found = others := by
  have irrefl : Std.Irrefl fun first second : List Handle × β => first.1 < second.1 :=
    ⟨fun entry => List.lt_irrefl entry.1⟩
  have antisymm : Std.Antisymm fun first second : List Handle × β => first.1 < second.1 :=
    ⟨fun first second below above => absurd (List.lt_trans below above) (List.lt_irrefl first.1)⟩
  exact found_ascends.eq_of_mem_iff others_ascend same

/-- **Where all keys have one length, the nodes at that depth are the entries**, unless it is the
root that is found and there is no entry. -/
theorem Sound.visit_eq_map_entries (sound : trie.Sound)
    (uniform : ∀ keys, (trie.find? keys).isSome = true → keys.length = depth)
    (proper : ¬(trie = .empty ∧ depth = 0)) :
    trie.visit depth = trie.entries.map fun entry => (entry.1, .leaf entry.2) := by
  have entries_ascend : (trie.entries.map fun entry => (entry.1, Trie.leaf entry.2)).Pairwise
      fun first second => first.1 < second.1 := by
    rw [List.pairwise_map]
    exact sound.pairwise_entries
  refine eq_of_ascending (sound.pairwise_visit depth) entries_ascend fun ⟨keys, here⟩ => ?_
  simp only [sound.mem_visit, List.mem_map, Prod.exists, Prod.mk.injEq, sound.mem_entries]
  constructor
  · rintro ⟨hlength, reached⟩
    cases here with
    | leaf payload => exact ⟨keys, payload, find?_eq_some_iff_lookup.2 reached, rfl, rfl⟩
    | node children =>
      -- An inner node below the root is the beginning of a key, which would be longer.
      rcases sound.lookup_eq_node_iff.1 ⟨children, reached⟩ with
        ⟨stored, held, start, differ⟩ | ⟨rfl, rfl⟩
      · exact absurd (start.eq_of_length (hlength.trans (uniform stored held).symm)) differ
      · exact absurd ⟨rfl, hlength.symm⟩ proper
  · rintro ⟨_, payload, found, rfl, rfl⟩
    exact ⟨uniform _ (by rw [found]; rfl), find?_eq_some_iff_lookup.1 found⟩

/-! ### The main statement -/

/-- **A trie is visited in order.** Requests to the visitor for some depth are answered by the nodes
at that depth, one by one, and by nothing when they are used up; these nodes are those that a
look-up of so many handles ends at, listed with strictly ascending keys. The entries are the stored
keys with their payloads, ascending as well. If all keys have the length that is the depth, the
nodes are the leaves of the entries; only where nothing is stored and the depth is zero the root is
found, and there is no entry. -/
theorem Grown.visited_in_order (grown : Grown history trie) (depth : Nat) :
    ((∀ count, (trie.visitor depth).answer count = (trie.visit depth)[count]?) ∧
      (trie.visit depth).Pairwise (fun first second => first.1 < second.1) ∧
        ∀ keys node, (keys, node) ∈ trie.visit depth ↔
          keys.length = depth ∧ trie.lookup keys = some node) ∧
      (trie.entries.Pairwise (fun first second => first.1 < second.1) ∧
        ∀ keys payload, (keys, payload) ∈ trie.entries ↔ history.lookup keys = some payload) ∧
        ((∀ keys, (history.lookup keys).isSome = true → keys.length = depth) →
          trie.visit depth = if history = [] ∧ depth = 0 then [([], .empty)]
            else trie.entries.map fun entry => (entry.1, .leaf entry.2)) := by
  have sound := grown.sound
  refine ⟨⟨answer_visitor depth trie, sound.pairwise_visit depth, fun keys node => sound.mem_visit⟩,
    ⟨sound.pairwise_entries, fun keys payload => ?_⟩, fun uniform => ?_⟩
  · rw [sound.mem_entries, grown.find?_eq]
  · split
    · next bare =>
      obtain ⟨rfl, rfl⟩ := bare
      rw [grown.eq_empty_iff.2 rfl, visit]
    · next stored =>
      refine sound.visit_eq_map_entries (fun keys held => uniform keys ?_) ?_
      · rwa [grown.find?_eq] at held
      · rwa [grown.eq_empty_iff]

/-- Keys of length two, one of which got its payload twice; the latest comes first. -/
def paired : List (List Handle × Nat) := [([5, 3], 30), ([4, 6], 20), ([5, 3], 0)]

/-- At depth two of keys of different lengths there are a leaf and an inner node, and the short key
is passed over; keys of length two are found there with their payloads. -/
theorem Grown.visited_in_order_forked :
    (∃ trie : Trie Nat, Grown forked trie ∧
      (trie.visitor 2).answer 0 = some ([5, 3], .leaf 30) ∧
        (∃ children, (trie.visitor 2).answer 1 = some ([5, 4], .node children)) ∧
          (trie.visitor 2).answer 2 = none ∧ (trie.visitor 2).answer 9 = none ∧
            ([6], 10) ∈ trie.entries) ∧
      ∃ trie : Trie Nat, Grown paired trie ∧
        (∀ keys, (paired.lookup keys).isSome = true → keys.length = 2) ∧
          trie.entries = [([4, 6], 20), ([5, 3], 30)] ∧
            trie.visit 2 = trie.entries.map fun entry => (entry.1, .leaf entry.2) := by
  have ragged : Grown forked _ :=
    .insert (.insert (.insert (.insert .empty rfl) rfl) rfl) rfl
  have even : Grown paired _ := .insert (.insert (.insert .empty rfl) rfl) rfl
  have uniform : ∀ keys, (paired.lookup keys).isSome = true → keys.length = 2 := by
    intro keys held
    obtain ⟨entry, member, same⟩ := List.lookup_isSome_iff.1 held
    have lengths : ∀ entry ∈ paired, entry.1.length = 2 := by decide
    rw [eq_of_beq same]
    exact lengths entry member
  obtain ⟨⟨answers, -⟩, ⟨-, entries⟩, -⟩ := ragged.visited_in_order 2
  obtain ⟨-, -, agree⟩ := even.visited_in_order 2
  refine ⟨⟨_, ragged, answers 0, ⟨_, answers 1⟩, answers 2, answers 9, (entries _ _).2 rfl⟩,
    _, even, uniform, rfl, ?_⟩
  exact (agree uniform).trans (if_neg (by decide))

/-- **The nodes at one depth are not always the entries**: without any key the root is found at
depth zero. -/
theorem not_forall_answers_entries :
    ¬∀ (history : List (List Handle × Nat)) (trie : Trie Nat) (depth : Nat), Grown history trie →
      (∀ keys, (history.lookup keys).isSome = true → keys.length = depth) →
        ∀ count, ((trie.visitor depth).answer count).map Prod.fst =
          trie.entries[count]?.map Prod.fst := by
  intro agree
  have same := agree [] .empty 0 .empty (by simp) 0
  cases same

end Trie

end StableModels
