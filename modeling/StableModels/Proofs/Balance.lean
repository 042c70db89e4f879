import Mathlib.Data.Nat.Fib.Basic
import StableModels.Proofs.OrderedMap

/-!
# Balanced trees

An ordered map is **balanced** if every node stores its depth and the depths of any two siblings
differ by at most one. Insertion keeps that (`StableModels.OrderedMap.Balanced.insert`): it makes a
tree higher by one at most, so on the way back up a node meets a pair of subtrees that are apart by
two at most, and one rotation or two bring them together
(`StableModels.OrderedMap.Balanced.rebalance`). Which tree comes out is of no importance here, only
how high it may be.

Two things follow for a balanced tree. It has at least as many entries as the sparsest tree of its
height, which the numbers of Fibonacci count (`StableModels.OrderedMap.Balanced.fib_le_size`), and
the check that a map can be put to succeeds on it
(`StableModels.OrderedMap.Balanced.checkedHeight?_eq`).
-/

universe u v

namespace StableModels

namespace OrderedMap

variable {κ : Type u} {ν : Type v}

/-- The number of entries on the longest way down. -/
def depth : OrderedMap κ ν → Nat
  | empty => 0
  | node _ left _ _ right => max left.depth right.depth + 1

/-- Every node stores its depth, and siblings are within one of each other. -/
inductive Balanced : OrderedMap κ ν → Prop where
  /-- A map without entries has nothing to store. -/
  | empty : Balanced empty
  /-- An entry over two such subtrees. -/
  | node {height : Nat} {left right : OrderedMap κ ν} {key : κ} {value : ν}
      (left_balanced : left.Balanced) (right_balanced : right.Balanced)
      (stored : height = max left.depth right.depth + 1)
      (left_close : left.depth ≤ right.depth + 1) (right_close : right.depth ≤ left.depth + 1) :
      Balanced (node height left key value right)

/-- The height that a balanced tree stores is its depth. -/
theorem Balanced.height_eq_depth {map : OrderedMap κ ν} (balanced : map.Balanced) :
    map.height = map.depth := by
  cases balanced with
  | empty => rfl
  | node _ _ stored _ _ => exact stored

variable {left right : OrderedMap κ ν} {key : κ} {value : ν}

/-- What a balanced node says, in terms of the heights that its subtrees store. -/
theorem Balanced.of_node {height : Nat}
    (balanced : (OrderedMap.node height left key value right).Balanced) :
    left.Balanced ∧ right.Balanced ∧ height = max left.height right.height + 1 ∧
      left.height ≤ right.height + 1 ∧ right.height ≤ left.height + 1 := by
  cases balanced with
  | node hleft hright stored left_close right_close =>
    rw [hleft.height_eq_depth, hright.height_eq_depth]
    exact ⟨hleft, hright, stored, left_close, right_close⟩

@[simp] theorem height_node {height : Nat} :
    (node height left key value right).height = height := rfl

@[simp] theorem height_branch :
    (branch left key value right).height = max left.height right.height + 1 := rfl

theorem Balanced.branch (left_balanced : left.Balanced) (right_balanced : right.Balanced)
    (left_close : left.height ≤ right.height + 1) (right_close : right.height ≤ left.height + 1) :
    (branch left key value right).Balanced := by
  rw [left_balanced.height_eq_depth, right_balanced.height_eq_depth] at left_close right_close
  refine .node left_balanced right_balanced ?_ left_close right_close
  rw [left_balanced.height_eq_depth, right_balanced.height_eq_depth]

/-! ### Rotations -/

/-- **Rotations find the subtrees that they take apart.** A subtree that is two higher than its
sibling is a node, and so is its inner subtree if that is higher than the outer one. -/
def Rotatable (left right : OrderedMap κ ν) : Prop :=
  (right.height + 1 < left.height → ∃ height outer key value inner,
    left = node height outer key value inner ∧ (outer.height < inner.height → inner ≠ empty)) ∧
  (left.height + 1 < right.height → ∃ height inner key value outer,
    right = node height inner key value outer ∧ (outer.height < inner.height → inner ≠ empty))

/-- A map without entries is never the higher one. -/
theorem exists_of_height_pos {map : OrderedMap κ ν} (positive : 0 < map.height) :
    ∃ height left key value right, map = node height left key value right := by
  cases map with
  | empty => simp [height] at positive
  | node height left key value right => exact ⟨height, left, key, value, right, rfl⟩

theorem ne_empty_of_height_pos {map : OrderedMap κ ν} (positive : 0 < map.height) :
    map ≠ empty := by
  rintro rfl
  simp [height] at positive

theorem rotatable (left right : OrderedMap κ ν) : Rotatable left right := by
  constructor
  · intro higher
    obtain ⟨height, outer, key, value, inner, rfl⟩ :=
      exists_of_height_pos (Nat.zero_lt_of_lt higher)
    exact ⟨height, outer, key, value, inner, rfl,
      fun inward => ne_empty_of_height_pos (Nat.zero_lt_of_lt inward)⟩
  · intro higher
    obtain ⟨height, inner, key, value, outer, rfl⟩ :=
      exists_of_height_pos (Nat.zero_lt_of_lt higher)
    exact ⟨height, inner, key, value, outer, rfl,
      fun inward => ne_empty_of_height_pos (Nat.zero_lt_of_lt inward)⟩

section Rotations

variable {height : Nat} {outer inner near far : OrderedMap κ ν} {k k' : κ} {v v' : ν}

/-- One rotation to the right. -/
theorem leanRight_of_le (outward : inner.height ≤ outer.height) :
    leanRight (node height outer k v inner) key value right =
      branch outer k v (branch inner key value right) :=
  if_pos outward

/-- Two rotations to the right. -/
theorem leanRight_of_lt {height' : Nat}
    (inward : outer.height < (node height' near k' v' far).height) :
    leanRight (node height outer k v (node height' near k' v' far)) key value right =
      branch (branch outer k v near) k' v' (branch far key value right) :=
  if_neg (Nat.not_le.2 inward)

/-- One rotation to the left. -/
theorem leanLeft_of_le (outward : inner.height ≤ outer.height) :
    leanLeft left key value (node height inner k v outer) =
      branch (branch left key value inner) k v outer :=
  if_pos outward

/-- Two rotations to the left. -/
theorem leanLeft_of_lt {height' : Nat}
    (inward : outer.height < (node height' far k' v' near).height) :
    leanLeft left key value (node height (node height' far k' v' near) k v outer) =
      branch (branch left key value far) k' v' (branch near k v outer) :=
  if_neg (Nat.not_le.2 inward)

end Rotations

/-- A rotation to the right leaves a balanced tree that is as high as the subtree that was too
high, or one higher. -/
theorem Balanced.leanRight (left_balanced : left.Balanced) (right_balanced : right.Balanced)
    (key : κ) (value : ν) (apart : left.height = right.height + 2) :
    (leanRight left key value right).Balanced ∧
      left.height ≤ (leanRight left key value right).height ∧
        (leanRight left key value right).height ≤ left.height + 1 := by
  obtain ⟨height, outer, k, v, inner, rfl, -⟩ := (rotatable left right).1 (by omega)
  obtain ⟨houter, hinner, hstored, outer_close, inner_close⟩ := left_balanced.of_node
  rw [height_node] at apart ⊢
  rcases Nat.lt_or_ge outer.height inner.height with higher | lower
  · -- The inner subtree is the higher one: it comes up, and its own subtrees part.
    obtain ⟨height', near, k', v', far, rfl⟩ := exists_of_height_pos (Nat.zero_lt_of_lt higher)
    obtain ⟨hnear, hfar, hstored', near_close, far_close⟩ := hinner.of_node
    rw [leanRight_of_lt higher]
    rw [height_node] at hstored outer_close inner_close higher
    have first : (OrderedMap.branch outer k v near).Balanced :=
      houter.branch hnear (by omega) (by omega)
    have second : (OrderedMap.branch far key value right).Balanced :=
      hfar.branch right_balanced (by omega) (by omega)
    refine ⟨first.branch second ?_ ?_, ?_, ?_⟩ <;> simp only [height_branch] <;> omega
  · -- The outer subtree reaches down as far as the inner one, which changes sides.
    rw [leanRight_of_le lower]
    have near : (OrderedMap.branch inner key value right).Balanced :=
      hinner.branch right_balanced (by omega) (by omega)
    refine ⟨houter.branch near ?_ ?_, ?_, ?_⟩ <;> simp only [height_branch] <;> omega

/-- A rotation to the left, likewise. -/
theorem Balanced.leanLeft (left_balanced : left.Balanced) (right_balanced : right.Balanced)
    (key : κ) (value : ν) (apart : right.height = left.height + 2) :
    (leanLeft left key value right).Balanced ∧
      right.height ≤ (leanLeft left key value right).height ∧
        (leanLeft left key value right).height ≤ right.height + 1 := by
  obtain ⟨height, inner, k, v, outer, rfl, -⟩ := (rotatable left right).2 (by omega)
  obtain ⟨hinner, houter, hstored, inner_close, outer_close⟩ := right_balanced.of_node
  rw [height_node] at apart ⊢
  rcases Nat.lt_or_ge outer.height inner.height with higher | lower
  · obtain ⟨height', far, k', v', near, rfl⟩ := exists_of_height_pos (Nat.zero_lt_of_lt higher)
    obtain ⟨hfar, hnear, hstored', far_close, near_close⟩ := hinner.of_node
    rw [leanLeft_of_lt higher]
    rw [height_node] at hstored outer_close inner_close higher
    have first : (OrderedMap.branch left key value far).Balanced :=
      left_balanced.branch hfar (by omega) (by omega)
    have second : (OrderedMap.branch near k v outer).Balanced :=
      hnear.branch houter (by omega) (by omega)
    refine ⟨first.branch second ?_ ?_, ?_, ?_⟩ <;> simp only [height_branch] <;> omega
  · rw [leanLeft_of_le lower]
    have near : (OrderedMap.branch left key value inner).Balanced :=
      left_balanced.branch hinner (by omega) (by omega)
    refine ⟨near.branch houter ?_ ?_, ?_, ?_⟩ <;> simp only [height_branch] <;> omega

/-- **Rebalancing brings together what is apart by two.** The tree is then as high as its higher
subtree or one higher, and just one higher if there was nothing to do. -/
theorem Balanced.rebalance (left_balanced : left.Balanced) (right_balanced : right.Balanced)
    (key : κ) (value : ν) (left_close : left.height ≤ right.height + 2)
    (right_close : right.height ≤ left.height + 2) :
    (rebalance left key value right).Balanced ∧
      max left.height right.height ≤ (rebalance left key value right).height ∧
        (rebalance left key value right).height ≤ max left.height right.height + 1 ∧
          (left.height ≤ right.height + 1 → right.height ≤ left.height + 1 →
            (rebalance left key value right).height = max left.height right.height + 1) := by
  rw [OrderedMap.rebalance]
  split
  · next higher =>
    obtain ⟨balanced, least, most⟩ :=
      left_balanced.leanRight right_balanced key value (by omega)
    exact ⟨balanced, by omega, by omega, fun close _ => by omega⟩
  · split
    · next higher =>
      obtain ⟨balanced, least, most⟩ :=
        left_balanced.leanLeft right_balanced key value (by omega)
      exact ⟨balanced, by omega, by omega, fun _ close => by omega⟩
    · refine ⟨left_balanced.branch right_balanced (by omega) (by omega), ?_, ?_,
        fun _ _ => height_branch⟩ <;> simp only [height_branch] <;> omega

/-! ### Insertion -/

/-- **Insertion keeps a map balanced** and makes it higher by one at most. -/
theorem Balanced.insert {map : OrderedMap κ ν} (balanced : map.Balanced)
    (cmp : κ → κ → Ordering) (key : κ) (value : ν) :
    (map.insert cmp key value).1.Balanced ∧
      map.height ≤ (map.insert cmp key value).1.height ∧
        (map.insert cmp key value).1.height ≤ map.height + 1 := by
  induction map with
  | empty =>
    have single : (single key value).Balanced :=
      .node .empty .empty rfl (Nat.zero_le _) (Nat.zero_le _)
    exact ⟨single, Nat.zero_le _, Nat.le_refl _⟩
  | node height left here old right ihl ihr =>
    obtain ⟨hleft, hright, hstored, left_close, right_close⟩ := balanced.of_node
    rw [OrderedMap.insert]
    cases hcmp : cmp key here with
    | lt =>
      obtain ⟨hnew, least, most⟩ := ihl hleft
      obtain ⟨hbalanced, low, high, exactly⟩ :=
        hnew.rebalance hright here old (by omega) (by omega)
      refine ⟨hbalanced, ?_, ?_⟩ <;> simp only [height_node] <;> omega
    | gt =>
      obtain ⟨hnew, least, most⟩ := ihr hright
      obtain ⟨hbalanced, low, high, exactly⟩ :=
        hleft.rebalance hnew here old (by omega) (by omega)
      refine ⟨hbalanced, ?_, ?_⟩ <;> simp only [height_node] <;> omega
    | eq =>
      cases balanced with
      | node _ _ stored left_close right_close =>
        exact ⟨.node hleft hright stored left_close right_close, Nat.le_refl _, Nat.le_succ _⟩

theorem Balanced.ofList (cmp : κ → κ → Ordering) (entries : List (κ × ν)) :
    (ofList cmp entries).Balanced := by
  rw [OrderedMap.ofList, ← List.foldr_reverse]
  induction entries.reverse with
  | nil => exact .empty
  | cons entry rest ih => exact (ih.insert cmp entry.1 entry.2).1

/-! ### What balance is good for -/

/-- **A balanced tree has at least as many entries as the sparsest one of its height.** -/
theorem Balanced.fib_le_size {map : OrderedMap κ ν} (balanced : map.Balanced) :
    Nat.fib (map.height + 2) ≤ map.size + 1 := by
  induction map with
  | empty => simp [height, size]
  | node height left key value right ihl ihr =>
    obtain ⟨hleft, hright, hstored, left_close, right_close⟩ := balanced.of_node
    have hfirst := ihl hleft
    have hsecond := ihr hright
    rw [height_node, hstored, size]
    -- The higher subtree counts in full, the other one as if it were one lower.
    rcases Nat.le_total right.height left.height with higher | higher
    · have lower : Nat.fib (left.height + 1) ≤ Nat.fib (right.height + 2) :=
        Nat.fib_mono (by omega)
      rw [max_eq_left higher, Nat.fib_add_two]
      change Nat.fib (left.height + 1) + Nat.fib (left.height + 2) ≤ _
      omega
    · have lower : Nat.fib (right.height + 1) ≤ Nat.fib (left.height + 2) :=
        Nat.fib_mono (by omega)
      rw [max_eq_right higher, Nat.fib_add_two]
      change Nat.fib (right.height + 1) + Nat.fib (right.height + 2) ≤ _
      omega

/-- The key at the root is the key of an entry. -/
theorem rootCompares_eq_true {cmp : κ → κ → Ordering} {expected : Ordering}
    {map : OrderedMap κ ν} (compares : ∀ entry ∈ map.toList, cmp entry.1 key = expected) :
    map.rootCompares cmp expected key = true := by
  cases map with
  | empty => rfl
  | node height left here value right =>
    have root := compares (here, value) (List.mem_append_right _ List.mem_cons_self)
    simp [rootCompares, root?, root]

/-- **The check succeeds** on a balanced tree whose entries ascend. -/
theorem Balanced.checkedHeight?_eq {cmp : κ → κ → Ordering} [Std.OrientedCmp cmp]
    {map : OrderedMap κ ν} (balanced : map.Balanced) (ordered : map.Ordered cmp) :
    map.checkedHeight? cmp = some map.height := by
  induction map with
  | empty => rfl
  | node height left key value right ihl ihr =>
    obtain ⟨hleft, hright, hstored, left_close, right_close⟩ := balanced.of_node
    obtain ⟨left_ordered, right_ordered, hbelow, habove⟩ := ordered_node ordered
    have smaller := rootCompares_eq_true hbelow
    have greater : right.rootCompares cmp .gt key = true :=
      rootCompares_eq_true fun entry member => Std.OrientedCmp.gt_of_lt (habove entry member)
    rw [checkedHeight?, ihl hleft left_ordered, ihr hright right_ordered]
    simp [left_close, right_close, hstored, smaller, greater]

end OrderedMap

end StableModels
