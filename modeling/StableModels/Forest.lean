/-!
# Binomial forests

A max-queue as a forest of trees in heap order. A tree of **rank** `r` has children of the
ranks `0` to `r - 1`, and so `2 ^ r` elements; the forest has at most one tree of each rank.
Adding a tree is adding a bit to a binary number: where there is a tree of its rank already the
two are joined into one of the next rank, which is carried on.

The number of elements is kept beside the trees: it goes up by one when an element is added and down
by one when an element leaves. That it is the number of elements that the trees hold is part of what
a forest is, and rests on this: joining trees, carrying and trimming rearrange the elements and lose
none of them.

Of two elements with one priority either may leave first. Which of them does is determined by
the shape of the trees, and so by the history of the queue.
-/

universe u v

namespace StableModels

/-- An element over the trees that were joined below it, the smallest rank first. -/
inductive HeapTree (π : Type u) (τ : Type v) where
  | node (priority : π) (item : τ) (children : List (HeapTree π τ)) : HeapTree π τ

namespace HeapTree

variable {π : Type u} {τ : Type v}

/-- The priority of the root. -/
def priority : HeapTree π τ → π
  | node priority _ _ => priority

/-- The element at the root. -/
def item : HeapTree π τ → τ
  | node _ item _ => item

/-- The trees below the root. -/
def children : HeapTree π τ → List (HeapTree π τ)
  | node _ _ children => children

/-- The number of trees below the root. -/
def rank (tree : HeapTree π τ) : Nat := tree.children.length

/-- Two trees of one rank as a tree of the next: the second goes on top only if its priority
is the greater one. -/
def join [Ord π] (first second : HeapTree π τ) : HeapTree π τ :=
  match first, second with
  | node p a as, node q b bs =>
    if (compare q p).isGT then node q b (bs ++ [node p a as]) else node p a (as ++ [node q b bs])

mutual

/-- The elements of a tree, the root first. -/
def toList : HeapTree π τ → List (π × τ)
  | node priority item children => (priority, item) :: listAll children

/-- The elements of several trees. -/
def listAll : List (HeapTree π τ) → List (π × τ)
  | [] => []
  | tree :: trees => toList tree ++ listAll trees

end

/-! Joining rearranges the elements. -/

theorem listAll_append (first second : List (HeapTree π τ)) :
    listAll (first ++ second) = listAll first ++ listAll second := by
  induction first with
  | nil => rw [listAll, List.nil_append, List.nil_append]
  | cons tree trees ih => rw [List.cons_append, listAll, listAll, ih, List.append_assoc]

theorem listAll_singleton (tree : HeapTree π τ) : listAll [tree] = tree.toList := by
  rw [listAll, listAll, List.append_nil]

theorem toList_eq (tree : HeapTree π τ) :
    tree.toList = (tree.priority, tree.item) :: listAll tree.children := by
  cases tree with
  | node => rw [toList, priority, item, children]

/-- Joining rearranges the elements. -/
theorem toList_join [Ord π] (first second : HeapTree π τ) :
    (first.join second).toList.Perm (first.toList ++ second.toList) := by
  obtain ⟨p, a, as⟩ := first
  obtain ⟨q, b, bs⟩ := second
  rw [join]
  split
  · rw [toList_eq, children, listAll_append, listAll_singleton, ← List.cons_append]
    refine List.perm_append_comm.trans ?_
    rw [toList_eq (node q b bs)]
    rfl
  · rw [toList_eq, children, listAll_append, listAll_singleton, ← List.cons_append,
      toList_eq (node p a as)]
    rfl

end HeapTree

/-! ### Lists of roots -/

namespace Forest

variable {π : Type u} {τ : Type v}

/-- The elements of the trees that are there. -/
abbrev elements (roots : List (Option (HeapTree π τ))) : List (π × τ) :=
  HeapTree.listAll (roots.filterMap id)

theorem elements_none (roots : List (Option (HeapTree π τ))) :
    elements (none :: roots) = elements roots := rfl

theorem elements_some (tree : HeapTree π τ) (roots : List (Option (HeapTree π τ))) :
    elements (some tree :: roots) = tree.toList ++ elements roots := by
  change HeapTree.listAll (tree :: roots.filterMap id) = _
  rw [HeapTree.listAll]

section Adding

variable [Ord π]

/-- Adds a tree to the trees from its rank on, carrying as long as there is one already. -/
def carry (tree : HeapTree π τ) : List (Option (HeapTree π τ)) →
    List (Option (HeapTree π τ))
  | [] => [some tree]
  | none :: roots => some tree :: roots
  | some other :: roots => none :: carry (other.join tree) roots

/-- Adds a tree `rank` places up. -/
def addAt (tree : HeapTree π τ) : Nat → List (Option (HeapTree π τ)) →
    List (Option (HeapTree π τ))
  | 0, roots => carry tree roots
  | rank + 1, [] => none :: addAt tree rank []
  | rank + 1, root :: roots => root :: addAt tree rank roots

/-- Adds a tree at its rank. -/
def add (tree : HeapTree π τ) (roots : List (Option (HeapTree π τ))) :
    List (Option (HeapTree π τ)) :=
  addAt tree tree.rank roots

/-- Adds trees, one after the other. -/
def addAll (trees : List (HeapTree π τ)) (roots : List (Option (HeapTree π τ))) :
    List (Option (HeapTree π τ)) :=
  trees.foldl (fun roots tree => add tree roots) roots

theorem elements_carry (tree : HeapTree π τ) (roots : List (Option (HeapTree π τ))) :
    (elements (carry tree roots)).Perm (tree.toList ++ elements roots) := by
  induction roots generalizing tree with
  | nil =>
    rw [carry, elements_some]
  | cons root roots ih =>
    cases root with
    | none => rw [carry, elements_some, elements_none]
    | some other =>
      rw [carry, elements_none, elements_some, ← List.append_assoc]
      refine (ih _).trans (List.Perm.append_right _ ?_)
      exact (HeapTree.toList_join other tree).trans List.perm_append_comm

theorem elements_addAt (tree : HeapTree π τ) (rank : Nat) (roots : List (Option (HeapTree π τ))) :
    (elements (addAt tree rank roots)).Perm (tree.toList ++ elements roots) := by
  induction rank generalizing roots with
  | zero => exact elements_carry tree roots
  | succ rank ih =>
    cases roots with
    | nil =>
      rw [addAt, elements_none]
      exact ih []
    | cons root roots =>
      rw [addAt]
      cases root with
      | none =>
        rw [elements_none, elements_none]
        exact ih roots
      | some other =>
        rw [elements_some, elements_some, ← List.append_assoc]
        refine ((ih roots).append_left _).trans ?_
        rw [← List.append_assoc]
        exact List.perm_append_comm.append_right _

theorem elements_add (tree : HeapTree π τ) (roots : List (Option (HeapTree π τ))) :
    (elements (add tree roots)).Perm (tree.toList ++ elements roots) :=
  elements_addAt tree tree.rank roots

theorem elements_addAll (trees : List (HeapTree π τ)) (roots : List (Option (HeapTree π τ))) :
    (elements (addAll trees roots)).Perm (HeapTree.listAll trees ++ elements roots) := by
  induction trees generalizing roots with
  | nil => rw [addAll, List.foldl_nil, HeapTree.listAll, List.nil_append]
  | cons tree trees ih =>
    rw [addAll, List.foldl_cons, ← addAll, HeapTree.listAll]
    refine (ih _).trans (((elements_add tree roots).append_left _).trans ?_)
    rw [← List.append_assoc]
    exact List.perm_append_comm.append_right _

end Adding

/-- The first root with the greatest priority, with its rank counted from `rank`. -/
def greatestFrom [Ord π] : Nat → List (Option (HeapTree π τ)) → Option (Nat × HeapTree π τ)
  | _, [] => none
  | rank, none :: roots => greatestFrom (rank + 1) roots
  | rank, some tree :: roots =>
    match greatestFrom (rank + 1) roots with
    | none => some (rank, tree)
    | some (later, other) =>
      if (compare other.priority tree.priority).isGT then some (later, other)
      else some (rank, tree)

/-- The places up to the last one that is taken. -/
def trim : List (Option (HeapTree π τ)) → List (Option (HeapTree π τ))
  | [] => []
  | some tree :: roots => some tree :: trim roots
  | none :: roots =>
    match trim roots with
    | [] => []
    | root :: rest => none :: root :: rest

theorem elements_trim (roots : List (Option (HeapTree π τ))) : elements
    (trim roots) = elements roots := by
  induction roots with
  | nil => rfl
  | cons root roots ih =>
    cases root with
    | some tree => rw [trim, elements_some, elements_some, ih]
    | none =>
      rw [trim, elements_none, ← ih]
      cases trim roots <;> rfl

/-- Taking a tree off takes its elements off. -/
theorem elements_set {rank : Nat} {tree : HeapTree π τ} {roots : List (Option (HeapTree π τ))}
    (found : roots[rank]? = some (some tree)) :
    (elements roots).Perm (tree.toList ++ elements (roots.set rank none)) := by
  induction roots generalizing rank with
  | nil => cases found
  | cons root roots ih =>
    cases rank with
    | zero =>
      obtain rfl := Option.some.inj found
      rw [elements_some, List.set_cons_zero, elements_none]
    | succ rank =>
      have hrest := ih (found : roots[rank]? = some (some tree))
      rw [List.set_cons_succ]
      cases root with
      | none =>
        rw [elements_none, elements_none]
        exact hrest
      | some other =>
        rw [elements_some, elements_some, ← List.append_assoc]
        refine (hrest.append_left _).trans ?_
        rw [← List.append_assoc]
        exact List.perm_append_comm.append_right _

theorem getElem?_of_greatestFrom [Ord π] {start rank : Nat} {tree : HeapTree π τ}
    {roots : List (Option (HeapTree π τ))} (found : greatestFrom start roots = some (rank, tree)) :
    start ≤ rank ∧ roots[rank - start]? = some (some tree) := by
  induction roots generalizing start with
  | nil => cases found
  | cons root roots ih =>
    have later (hfound : greatestFrom (start + 1) roots = some (rank, tree)) :
        start ≤ rank ∧ (root :: roots)[rank - start]? = some (some tree) := by
      obtain ⟨hle, hget⟩ := ih hfound
      -- The rank counts from the start, and the list from its own first root.
      obtain ⟨offset, rfl⟩ := Nat.exists_eq_add_of_le hle
      refine ⟨by omega, ?_⟩
      rw [Nat.add_sub_cancel_left] at hget
      rw [show start + 1 + offset - start = offset + 1 by omega, List.getElem?_cons_succ, hget]
    cases root with
    | none => exact later found
    | some first =>
      rw [greatestFrom] at found
      split at found
      · obtain ⟨rfl, rfl⟩ := Prod.mk.inj (Option.some.inj found)
        exact ⟨Nat.le_refl _, by simp⟩
      · next other hother hfound =>
        split at found
        · exact later (hfound.trans found)
        · obtain ⟨rfl, rfl⟩ := Prod.mk.inj (Option.some.inj found)
          exact ⟨Nat.le_refl _, by simp⟩

/-- **Taking a root off takes its element off**: the root's children are added to the other trees.
-/
theorem elements_addAll_children [Ord π] {rank : Nat} {tree : HeapTree π τ}
    {roots : List (Option (HeapTree π τ))} (found : greatestFrom 0 roots = some (rank, tree)) :
    (elements roots).Perm ((tree.priority, tree.item) ::
      elements (addAll tree.children (trim (roots.set rank none)))) := by
  obtain ⟨-, hget⟩ := getElem?_of_greatestFrom found
  refine (elements_set hget).trans ?_
  rw [HeapTree.toList_eq, List.cons_append]
  refine List.Perm.cons _ ((elements_addAll _ _).trans ?_).symm
  rw [elements_trim]
  rfl

end Forest

/-! ### The queue -/

/-- A max-queue: the tree of each rank, if there is one, the smallest rank first. -/
structure Forest (π : Type u) (τ : Type v) where
  /-- The tree of each rank. -/
  roots : List (Option (HeapTree π τ))
  /-- The number of elements. -/
  size : Nat
  /-- The trees hold so many. -/
  size_eq : size = (Forest.elements roots).length

namespace Forest

variable {π : Type u} {τ : Type v}

/-- The queue without elements. -/
def empty : Forest π τ := ⟨[], 0, rfl⟩

instance : Inhabited (Forest π τ) := ⟨empty⟩

/-- The elements in the order of the trees that hold them. -/
def toList (forest : Forest π τ) : List (π × τ) := elements forest.roots

/-- The queue has no element. -/
def isEmpty (forest : Forest π τ) : Bool := forest.size == 0

variable [Ord π]

/-- Adds an element. -/
def push (priority : π) (item : τ) (forest : Forest π τ) : Forest π τ where
  roots := add (.node priority item []) forest.roots
  size := forest.size + 1
  size_eq := by
    rw [(elements_add _ _).length_eq, List.length_append, forest.size_eq, Nat.add_comm]
    rfl

/-- The root that is to leave next, with its rank. -/
def greatest? (forest : Forest π τ) : Option (Nat × HeapTree π τ) := greatestFrom 0 forest.roots

/-- The greatest priority. -/
def peek? (forest : Forest π τ) : Option π := forest.greatest?.map fun found => found.2.priority

/-- Removes an element of the greatest priority; its children join the forest, the smallest
rank first. -/
def pop? (forest : Forest π τ) : Option ((π × τ) × Forest π τ) :=
  match found : forest.greatest? with
  | none => none
  | some (rank, tree) =>
    some ((tree.priority, tree.item),
      { roots := addAll tree.children (trim (forest.roots.set rank none))
        size := forest.size - 1
        size_eq := by
          rw [forest.size_eq, (elements_addAll_children found).length_eq, List.length_cons,
            Nat.add_sub_cancel] })

/-- Removes up to `count` elements; the elements in the order in which they leave. -/
def popMany : Nat → Forest π τ → List (π × τ) × Forest π τ
  | 0, forest => ([], forest)
  | count + 1, forest =>
    match forest.pop? with
    | none => ([], forest)
    | some (first, forest) =>
      let (rest, forest) := popMany count forest
      (first :: rest, forest)

end Forest

end StableModels
