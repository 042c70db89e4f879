/-!
# Handles

Every term of a run is known by a number, its **handle**; the store that issued the handle
knows which term it is. Handles are issued in the order in which terms are first met, and all
ordered collections of terms are ordered by handle.

A `HandleSet` is a set of handles as its ascending list, so that two sets with the same
members are equal.
-/

namespace StableModels

/-- The number of a term in its store. -/
abbrev Handle := Nat

namespace Handle

/-- The unit term. -/
def unit : Handle := 0

/-- The truth value true. -/
def true : Handle := 1

/-- The truth value false. -/
def false : Handle := 2

/-- The handle of a truth value. -/
def ofBool (value : Bool) : Handle := if value then true else false

end Handle

/-- A finite set of handles, as its ascending list. -/
structure HandleSet where
  /-- The members in ascending order. -/
  toList : List Handle
  /-- The members ascend. -/
  ascending : toList.Pairwise (· < ·)
  deriving DecidableEq

namespace HandleSet

/-- A handle put into its place in an ascending list, which may hold it already. -/
def insertSorted (handle : Handle) : List Handle → List Handle
  | [] => [handle]
  | first :: rest =>
    if handle < first then handle :: first :: rest
    else if first < handle then first :: insertSorted handle rest
    else first :: rest

theorem mem_insertSorted {handle other : Handle} {members : List Handle} :
    other ∈ insertSorted handle members ↔ other = handle ∨ other ∈ members := by
  induction members with
  | nil => simp [insertSorted]
  | cons first rest ih =>
    grind [insertSorted]

theorem pairwise_insertSorted {handle : Handle} {members : List Handle}
    (ascending : members.Pairwise (· < ·)) :
    (insertSorted handle members).Pairwise (· < ·) := by
  induction members with
  | nil => simp [insertSorted]
  | cons first rest ih =>
    rw [List.pairwise_cons] at ascending
    unfold insertSorted
    split
    · rename_i below
      refine List.pairwise_cons.2 ⟨fun other member => ?_, List.pairwise_cons.2 ascending⟩
      rcases List.mem_cons.1 member with rfl | later
      · exact below
      · exact Nat.lt_trans below (ascending.1 other later)
    · split
      · rename_i above
        refine List.pairwise_cons.2 ⟨fun other member => ?_, ih ascending.2⟩
        rcases mem_insertSorted.1 member with rfl | later
        · exact above
        · exact ascending.1 other later
      · exact List.pairwise_cons.2 ascending

instance : Membership Handle HandleSet := ⟨fun set handle => handle ∈ set.toList⟩

instance (handle : Handle) (set : HandleSet) : Decidable (handle ∈ set) :=
  inferInstanceAs (Decidable (handle ∈ set.toList))

/-- The set without members. -/
def empty : HandleSet := ⟨[], List.Pairwise.nil⟩

instance : Inhabited HandleSet := ⟨empty⟩

/-- The set with one more member. -/
def insert (handle : Handle) (set : HandleSet) : HandleSet :=
  ⟨insertSorted handle set.toList, pairwise_insertSorted set.ascending⟩

/-- The set of the members of a list. -/
def ofList (handles : List Handle) : HandleSet :=
  handles.foldl (fun set handle => set.insert handle) empty

/-- The members of either set. -/
def union (first second : HandleSet) : HandleSet :=
  second.toList.foldl (fun set handle => set.insert handle) first

/-- The handle is a member. -/
def contains (set : HandleSet) (handle : Handle) : Bool := set.toList.contains handle

/-- The members that are not in the other set, in ascending order. -/
def without (set other : HandleSet) : List Handle :=
  set.toList.filter fun handle => !other.contains handle

/-! ### Membership -/

@[simp] theorem contains_iff {set : HandleSet} {handle : Handle} :
    set.contains handle ↔ handle ∈ set := List.contains_iff_mem

@[simp] theorem mem_toList {set : HandleSet} {handle : Handle} :
    handle ∈ set.toList ↔ handle ∈ set := Iff.rfl

@[simp] theorem not_mem_empty {handle : Handle} : handle ∉ empty := List.not_mem_nil

@[simp] theorem mem_insert {handle other : Handle} {set : HandleSet} :
    other ∈ set.insert handle ↔ other = handle ∨ other ∈ set := mem_insertSorted

/-- Inserting one handle after the other adds them all. -/
theorem mem_foldl_insert {handles : List Handle} {set : HandleSet} {other : Handle} :
    other ∈ handles.foldl (fun set handle => set.insert handle) set ↔
      other ∈ handles ∨ other ∈ set := by
  induction handles generalizing set with
  | nil => simp
  | cons handle handles ih => grind [mem_insert]

@[simp] theorem mem_ofList {handles : List Handle} {other : Handle} :
    other ∈ ofList handles ↔ other ∈ handles := by
  simp [ofList, mem_foldl_insert]

@[simp] theorem mem_union {first second : HandleSet} {other : Handle} :
    other ∈ first.union second ↔ other ∈ first ∨ other ∈ second := by
  rw [union, mem_foldl_insert, or_comm, mem_toList]

@[simp] theorem mem_without {set other : HandleSet} {handle : Handle} :
    handle ∈ set.without other ↔ handle ∈ set ∧ handle ∉ other := by
  simp [without, ← contains_iff]

end HandleSet

end StableModels
