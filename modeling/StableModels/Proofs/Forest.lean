import StableModels.Forest

/-!
# The elements of a forest

Adding an element adds just that one (`StableModels.Forest.toList_push`), and what is removed is an
element that was there (`StableModels.Forest.toList_pop?`), which there is unless the forest is
empty (`StableModels.Forest.pop?_eq_none_iff`). The number that is kept goes up and down by one, and
is not zero when it goes down (`StableModels.Forest.size_of_pop?`). In which order the elements
leave is of no importance for what a search finds.
-/

universe u v

namespace StableModels

namespace Forest

variable {π : Type u} {τ : Type v}

/-- The number that is kept is that of the elements. -/
@[simp] theorem length_toList (forest : Forest π τ) : forest.toList.length = forest.size :=
  forest.size_eq.symm

theorem isEmpty_iff {forest : Forest π τ} : forest.isEmpty = true ↔ forest.toList = [] := by
  rw [isEmpty, beq_iff_eq, ← length_toList, List.length_eq_zero_iff]

variable [Ord π]

/-! ### Adding -/

/-- **Adding an element** adds it to the elements. -/
theorem toList_push (priority : π) (item : τ) (forest : Forest π τ) :
    (forest.push priority item).toList.Perm ((priority, item) :: forest.toList) := by
  refine (elements_add _ _).trans ?_
  rw [HeapTree.toList, HeapTree.listAll]
  rfl

@[simp] theorem size_push (priority : π) (item : τ) (forest : Forest π τ) :
    (forest.push priority item).size = forest.size + 1 := rfl

/-! ### Removing -/

/-- **What a pop does**: the greatest root leaves its place, and its children are added to the other
trees. -/
theorem exists_of_pop? {forest rest : Forest π τ} {first : π × τ}
    (popped : forest.pop? = some (first, rest)) :
    ∃ rank tree, forest.greatest? = some (rank, tree) ∧ first = (tree.priority, tree.item) ∧
      rest.roots = addAll tree.children (trim (forest.roots.set rank none)) := by
  rw [pop?] at popped
  split at popped
  · cases popped
  · next rank tree found =>
    obtain ⟨rfl, rfl⟩ := Prod.mk.inj (Option.some.inj popped)
    exact ⟨rank, tree, found, rfl, rfl⟩

/-- **Removing an element** removes it from the elements. -/
theorem toList_pop? {forest rest : Forest π τ} {first : π × τ}
    (popped : forest.pop? = some (first, rest)) : forest.toList.Perm (first :: rest.toList) := by
  obtain ⟨rank, tree, found, rfl, roots_eq⟩ := exists_of_pop? popped
  rw [toList, toList, roots_eq]
  exact elements_addAll_children found

/-- **One element leaves**, and one is taken off a number that is not zero. -/
theorem size_of_pop? {forest rest : Forest π τ} {first : π × τ}
    (popped : forest.pop? = some (first, rest)) : forest.size = rest.size + 1 := by
  rw [← length_toList, (toList_pop? popped).length_eq, List.length_cons, length_toList]

theorem greatestFrom_eq_none_iff {start : Nat} {roots : List (Option (HeapTree π τ))} :
    greatestFrom start roots = none ↔ elements roots = [] := by
  induction roots generalizing start with
  | nil => exact iff_of_true rfl rfl
  | cons root roots ih =>
    cases root with
    | none => exact ih
    | some tree =>
      refine iff_of_false (fun found => ?_) (by simp [elements_some, HeapTree.toList_eq])
      rw [greatestFrom] at found
      split at found
      · cases found
      · split at found <;> cases found

theorem pop?_eq_none_iff {forest : Forest π τ} : forest.pop? = none ↔ forest.toList = [] := by
  rw [toList, ← @greatestFrom_eq_none_iff _ _ _ 0, pop?]
  split
  · next found => exact iff_of_true rfl found
  · next found => exact iff_of_false nofun fun none_found => by cases found.symm.trans none_found

end Forest

end StableModels
