import Mathlib.Data.List.Pairwise
import StableModels.OrderedMap

/-!
# Ordered maps as ascending lists

A map is **ordered** by a comparison if the list of its entries ascends strictly. Everything
that can be asked of an ordered map is then a question about that list: a look-up finds the one
entry whose key compares equal, and putting a value at a key cuts the list at the place of the
key and leaves both sides alone (`StableModels.OrderedMap.exists_toList_put`). The rotations that
keep the tree low are invisible here, because they do not move entries in the list.

The second half specialises to comparisons that tell different keys apart. There the list can be
read as the graph of a partial function, and `StableModels.OrderedMap.find?_put` is the usual law
of an update.
-/

universe u v

namespace StableModels

namespace OrderedMap

variable {κ : Type u} {ν : Type v} {cmp : κ → κ → Ordering}

/-- The list of the entries ascends strictly by key. -/
def Ordered (cmp : κ → κ → Ordering) (map : OrderedMap κ ν) : Prop :=
  map.toList.Pairwise fun first second => cmp first.1 second.1 = .lt

@[simp] theorem toList_empty : (empty : OrderedMap κ ν).toList = [] := rfl

@[simp] theorem toList_single (key : κ) (value : ν) :
    (single key value).toList = [(key, value)] := rfl

theorem ordered_empty : (empty : OrderedMap κ ν).Ordered cmp := List.Pairwise.nil

/-- A node is ordered when its two subtrees are and its own entry stands between them. -/
theorem ordered_node {height : Nat} {left right : OrderedMap κ ν} {key : κ} {value : ν}
    (ordered : (node height left key value right).Ordered cmp) :
    left.Ordered cmp ∧ right.Ordered cmp ∧
      (∀ entry ∈ left.toList, cmp entry.1 key = .lt) ∧
        ∀ entry ∈ right.toList, cmp key entry.1 = .lt := by
  obtain ⟨hleft, hright, hbetween⟩ := List.pairwise_append.1 ordered
  obtain ⟨habove, hright⟩ := List.pairwise_cons.1 hright
  exact ⟨hleft, hright, fun entry member => hbetween entry member _ List.mem_cons_self, habove⟩

/-- A value that is found stands in the list, at a key that compares equal. -/
theorem exists_mem_of_find?_eq_some {key : κ} {value : ν} {map : OrderedMap κ ν}
    (found : map.find? cmp key = some value) :
    ∃ here, (here, value) ∈ map.toList ∧ cmp key here = .eq := by
  induction map with
  | empty => simp [find?] at found
  | node height left here old right ihl ihr =>
    rw [find?] at found
    cases hcmp : cmp key here with
    | lt =>
      rw [hcmp] at found
      obtain ⟨other, member, heq⟩ := ihl found
      exact ⟨other, List.mem_append_left _ member, heq⟩
    | gt =>
      rw [hcmp] at found
      obtain ⟨other, member, heq⟩ := ihr found
      exact ⟨other, List.mem_append_right _ (List.mem_cons_of_mem _ member), heq⟩
    | eq =>
      rw [hcmp] at found
      obtain rfl := Option.some.inj found
      exact ⟨here, List.mem_append_right _ List.mem_cons_self, hcmp⟩

variable [Std.TransCmp cmp]

/-- In an ordered map a key finds the entry that compares equal to it. -/
theorem find?_eq_some_of_mem {key here : κ} {value : ν} {map : OrderedMap κ ν}
    (ordered : map.Ordered cmp) (member : (here, value) ∈ map.toList)
    (heq : cmp key here = .eq) : map.find? cmp key = some value := by
  induction map with
  | empty => simp at member
  | node height left root old right ihl ihr =>
    obtain ⟨hleft, hright, hbelow, habove⟩ := ordered_node ordered
    rw [find?]
    rcases List.mem_append.1 member with member | member
    · rw [Std.TransCmp.lt_of_eq_of_lt heq (hbelow _ member)]
      exact ihl hleft member
    · rcases List.mem_cons.1 member with hroot | member
      · obtain ⟨rfl, rfl⟩ := Prod.mk.inj hroot
        rw [heq]
      · rw [Std.OrientedCmp.gt_of_lt
          (Std.TransCmp.lt_of_lt_of_eq (habove _ member) (Std.OrientedCmp.eq_symm heq))]
        exact ihr hright member

/-- **Putting a value cuts the list at the key.** The entries below the key and those above it
stay, and between them the entry that compared equal, if there was one, makes way for the new
one. -/
theorem exists_toList_put {map : OrderedMap κ ν} (ordered : map.Ordered cmp) (key : κ) (value : ν) :
    ∃ front back, map.toList = front ++ (map.entryAt? cmp key).toList ++ back ∧
      (map.put cmp key value).toList = front ++ (key, value) :: back ∧
        (∀ entry ∈ front, cmp entry.1 key = .lt) ∧ ∀ entry ∈ back, cmp key entry.1 = .lt := by
  induction map with
  | empty => exact ⟨[], [], rfl, rfl, by simp, by simp⟩
  | node height left here old right ihl ihr =>
    obtain ⟨hleft, hright, hbelow, habove⟩ := ordered_node ordered
    cases hcmp : cmp key here with
    | lt =>
      obtain ⟨front, back, hlist, hput, hfront, hback⟩ := ihl hleft
      refine ⟨front, back ++ (here, old) :: right.toList, ?_, ?_, hfront, ?_⟩
      · simp [toList, hlist, entryAt?, hcmp]
      · simp only [put, insert, hcmp, toList_rebalance]
        rw [put] at hput
        simp [hput]
      · intro entry member
        rcases List.mem_append.1 member with member | member
        · exact hback entry member
        · rcases List.mem_cons.1 member with rfl | member
          · exact hcmp
          · exact Std.TransCmp.lt_trans hcmp (habove entry member)
    | gt =>
      obtain ⟨front, back, hlist, hput, hfront, hback⟩ := ihr hright
      refine ⟨left.toList ++ (here, old) :: front, back, ?_, ?_, ?_, hback⟩
      · simp [toList, hlist, entryAt?, hcmp]
      · simp only [put, insert, hcmp, toList_rebalance]
        rw [put] at hput
        simp [hput]
      · intro entry member
        have hhere : cmp here key = .lt := Std.OrientedCmp.lt_of_gt hcmp
        rcases List.mem_append.1 member with member | member
        · exact Std.TransCmp.lt_trans (hbelow entry member) hhere
        · rcases List.mem_cons.1 member with rfl | member
          · exact hhere
          · exact hfront entry member
    | eq =>
      refine ⟨left.toList, right.toList, ?_, ?_, ?_, ?_⟩
      · simp [toList, entryAt?, hcmp]
      · simp [put, insert, hcmp, toList]
      · intro entry member
        exact Std.TransCmp.lt_of_lt_of_eq (hbelow entry member) (Std.OrientedCmp.eq_symm hcmp)
      · exact fun entry member => Std.TransCmp.lt_of_eq_of_lt hcmp (habove entry member)

theorem ordered_put {map : OrderedMap κ ν} (ordered : map.Ordered cmp) (key : κ) (value : ν) :
    (map.put cmp key value).Ordered cmp := by
  obtain ⟨front, back, hlist, hput, hfront, hback⟩ := exists_toList_put ordered key value
  rw [Ordered, hlist] at ordered
  obtain ⟨hleft, hright, hbetween⟩ := List.pairwise_append.1 ordered
  have hfronts := (List.pairwise_append.1 hleft).1
  rw [Ordered, hput]
  refine List.pairwise_append.2 ⟨hfronts, List.pairwise_cons.2 ⟨hback, hright⟩, ?_⟩
  intro first member second member'
  rcases List.mem_cons.1 member' with rfl | member'
  · exact hfront first member
  · exact hbetween first (List.mem_append_left _ member) second member'

/-! ### Comparisons that tell keys apart -/

variable [Std.LawfulEqCmp cmp]

/-- Looking up a key reads the list as the graph of a partial function. -/
theorem find?_eq_some_iff {map : OrderedMap κ ν} (ordered : map.Ordered cmp) {key : κ}
    {value : ν} : map.find? cmp key = some value ↔ (key, value) ∈ map.toList := by
  constructor
  · intro found
    obtain ⟨here, member, heq⟩ := exists_mem_of_find?_eq_some found
    rwa [Std.LawfulEqCmp.eq_of_compare heq]
  · exact fun member => find?_eq_some_of_mem ordered member Std.ReflCmp.compare_self

omit [Std.TransCmp cmp] in
/-- The entry at a key is the key with its value. -/
theorem entryAt?_eq {map : OrderedMap κ ν} {key : κ} :
    map.entryAt? cmp key = (map.find? cmp key).map (key, ·) := by
  induction map with
  | empty => rfl
  | node height left here old right ihl ihr =>
    rw [find?, entryAt?]
    cases hcmp : cmp key here with
    | lt => simpa using ihl
    | gt => simpa using ihr
    | eq => simp [Std.LawfulEqCmp.eq_of_compare hcmp]

/-- **The law of an update.** -/
theorem find?_put [DecidableEq κ] {map : OrderedMap κ ν} (ordered : map.Ordered cmp)
    (key other : κ) (value : ν) :
    (map.put cmp key value).find? cmp other =
      if other = key then some value else map.find? cmp other := by
  have hput := ordered_put ordered key value
  obtain ⟨front, back, hlist, hputs, hfront, hback⟩ := exists_toList_put ordered key value
  rw [entryAt?_eq] at hlist
  split
  · next heq =>
    subst heq
    exact (find?_eq_some_iff hput).2 (by simp [hputs])
  · next hne =>
    ext found
    rw [find?_eq_some_iff hput, find?_eq_some_iff ordered, hlist, hputs]
    cases hold : map.find? cmp key <;> simp [hne]

/-- Putting a value at a key adds to the entries or takes the place of one. -/
theorem perm_toList_put {map : OrderedMap κ ν} (ordered : map.Ordered cmp) (key : κ) (value : ν) :
    ∃ rest, map.toList.Perm ((map.find? cmp key).toList.map (key, ·) ++ rest) ∧
      (map.put cmp key value).toList.Perm ((key, value) :: rest) := by
  obtain ⟨front, back, hlist, hput, -, -⟩ := exists_toList_put ordered key value
  refine ⟨front ++ back, ?_, ?_⟩
  · rw [hlist, entryAt?_eq]
    cases map.find? cmp key with
    | none => simp
    | some old => simp
  · rw [hput]
    exact List.perm_middle

end OrderedMap

end StableModels
