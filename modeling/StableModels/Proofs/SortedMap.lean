import Mathlib.Data.List.Pairwise
import Mathlib.Data.Set.Card
import StableModels.Proofs.Balance

/-!
# What a sequence of insertions leaves

A map that was made by putting one entry after the other is settled by that sequence alone, up to
the shape of its tree. A comparison parts the keys into classes, and each class keeps the entry that
came last (`StableModels.OrderedMap.entryAt?_ofList`): this is the whole content of the map, and
everything that can be asked of it is answered from there.

The list of the entries is where the two readings of a map meet. A look-up is a search through the
list (`StableModels.OrderedMap.Ordered.entryAt?_eq`), and a cursor goes through the list from the
left, knowing at each place how much is ahead of it
(`StableModels.OrderedMap.Cursor.Counted.take_eq`).

The main statement, `StableModels.OrderedMap.sorted_map`, puts these together with the balance of
the tree, for comparisons that may identify keys that differ.
-/

universe u v

namespace StableModels

namespace OrderedMap

variable {κ : Type u} {ν : Type v} {cmp : κ → κ → Ordering}

/-! ### Looking up an entry -/

/-- The value at a key is the value of the entry there. -/
theorem find?_eq_map_entryAt? (cmp : κ → κ → Ordering) (key : κ) (map : OrderedMap κ ν) :
    map.find? cmp key = (map.entryAt? cmp key).map Prod.snd := by
  induction map with
  | empty => rfl
  | node height left here value right ihl ihr =>
    rw [find?, entryAt?]
    cases cmp key here with
    | lt => exact ihl
    | gt => exact ihr
    | eq => rfl

/-- An insertion reports the value that was at the key. -/
theorem insert_snd (cmp : κ → κ → Ordering) (key : κ) (value : ν) (map : OrderedMap κ ν) :
    (map.insert cmp key value).2 = map.find? cmp key := by
  induction map with
  | empty => rfl
  | node height left here old right ihl ihr =>
    rw [insert, find?]
    cases cmp key here with
    | lt => exact ihl
    | gt => exact ihr
    | eq => rfl

/-- An insertion adds an entry unless it replaces one. -/
theorem size_insert (cmp : κ → κ → Ordering) (key : κ) (value : ν) (map : OrderedMap κ ν) :
    (map.insert cmp key value).1.size =
      if (map.find? cmp key).isSome then map.size else map.size + 1 := by
  induction map with
  | empty => rfl
  | node height left here old right ihl ihr =>
    rw [insert, find?, size]
    cases cmp key here with
    | lt =>
      simp only [← length_toList, toList_rebalance, List.length_append, List.length_cons] at ihl ⊢
      rw [ihl]
      split <;> omega
    | gt =>
      simp only [← length_toList, toList_rebalance, List.length_append, List.length_cons] at ihr ⊢
      rw [ihr]
      split <;> omega
    | eq => rfl

section Ordered

variable [Std.TransCmp cmp] {map : OrderedMap κ ν}

/-- Two entries of an ordered map whose keys compare equal are one entry. -/
theorem Ordered.eq_of_compare (ordered : map.Ordered cmp) {first second : κ × ν}
    (hfirst : first ∈ map.toList) (hsecond : second ∈ map.toList)
    (heq : cmp first.1 second.1 = .eq) : first = second := by
  let R (first second : κ × ν) : Prop := cmp first.1 second.1 = .eq → first = second
  have symm : Std.Symm R := ⟨fun first second related heq =>
    (related (Std.OrientedCmp.eq_symm heq)).symm⟩
  have pairwise : map.toList.Pairwise R := ordered.imp fun hlt heq => by simp [hlt] at heq
  exact pairwise.forall_of_forall (fun _ _ _ => rfl) hfirst hsecond heq

/-- No entry of an ordered map is listed twice. -/
theorem Ordered.nodup (ordered : map.Ordered cmp) : map.toList.Nodup :=
  ordered.imp fun hlt heq => by
    subst heq
    simp [Std.ReflCmp.compare_self] at hlt

/-- **A look-up is a search through the list.** -/
theorem Ordered.entryAt?_eq (ordered : map.Ordered cmp) (key : κ) :
    map.entryAt? cmp key = map.toList.find? fun entry => cmp key entry.1 == .eq := by
  induction map with
  | empty => rfl
  | node height left here value right ihl ihr =>
    obtain ⟨hleft, hright, hbelow, habove⟩ := ordered_node ordered
    rw [toList, entryAt?, List.find?_append, List.find?_cons]
    -- On the sides that the look-up does not enter no key compares equal.
    have left_misses (hcmp : cmp here key ≠ .gt) :
        left.toList.find? (fun entry => cmp key entry.1 == .eq) = none := by
      refine List.find?_eq_none.2 fun entry member heq => ?_
      have below : cmp entry.1 key = .lt :=
        Std.TransCmp.lt_of_lt_of_isLE (hbelow entry member) (Ordering.isLE_iff_ne_gt.2 hcmp)
      rw [Std.OrientedCmp.gt_of_lt below] at heq
      cases heq
    cases hcmp : cmp key here with
    | lt =>
      have right_misses : right.toList.find? (fun entry => cmp key entry.1 == .eq) = none := by
        refine List.find?_eq_none.2 fun entry member heq => ?_
        rw [Std.TransCmp.lt_trans hcmp (habove entry member)] at heq
        cases heq
      simp [ihl hleft, right_misses]
    | gt =>
      have hhere : cmp here key = .lt := Std.OrientedCmp.lt_of_gt hcmp
      simp [ihr hright, left_misses (by simp [hhere])]
    | eq =>
      have hhere : cmp here key = .eq := Std.OrientedCmp.eq_symm hcmp
      simp [left_misses (by simp [hhere])]

theorem Ordered.entryAt?_eq_some_iff (ordered : map.Ordered cmp) {key : κ} {entry : κ × ν} :
    map.entryAt? cmp key = some entry ↔ entry ∈ map.toList ∧ cmp key entry.1 = .eq := by
  rw [ordered.entryAt?_eq]
  constructor
  · intro found
    exact ⟨List.mem_of_find?_eq_some found, by simpa using List.find?_some found⟩
  · rintro ⟨member, heq⟩
    obtain ⟨other, found⟩ : ∃ other, map.toList.find? (fun entry => cmp key entry.1 == .eq) =
        some other :=
      Option.isSome_iff_exists.1 (List.find?_isSome.2 ⟨entry, member, by simp [heq]⟩)
    have hother : cmp key other.1 = .eq := by simpa using List.find?_some found
    rw [found, ordered.eq_of_compare member (List.mem_of_find?_eq_some found)
      (Std.TransCmp.eq_trans (Std.OrientedCmp.eq_symm heq) hother)]

/-- An entry is listed exactly if its own key finds it. -/
theorem Ordered.mem_toList_iff (ordered : map.Ordered cmp) {entry : κ × ν} :
    entry ∈ map.toList ↔ map.entryAt? cmp entry.1 = some entry := by
  simp [ordered.entryAt?_eq_some_iff, Std.ReflCmp.compare_self]

/-- **The law of an update**, for comparisons that may identify keys. -/
theorem Ordered.entryAt?_put (ordered : map.Ordered cmp) (key other : κ) (value : ν) :
    entryAt? cmp other (map.put cmp key value) =
      if cmp other key = .eq then some (key, value) else map.entryAt? cmp other := by
  have hput := ordered_put ordered key value
  obtain ⟨front, back, hlist, hputs, -, -⟩ := exists_toList_put ordered key value
  split
  · next heq => exact hput.entryAt?_eq_some_iff.2 ⟨by simp [hputs], heq⟩
  · next hne =>
    ext entry
    rw [hput.entryAt?_eq_some_iff, ordered.entryAt?_eq_some_iff]
    refine and_congr_left fun heq => ?_
    -- Neither the new entry nor the one it replaces has a key that compares equal to the other.
    have not_new : entry ≠ (key, value) := by
      rintro rfl
      exact hne heq
    have not_old : map.entryAt? cmp key ≠ some entry := fun found =>
      hne (Std.TransCmp.eq_trans heq
        (Std.OrientedCmp.eq_symm (ordered.entryAt?_eq_some_iff.1 found).2))
    rw [hputs, hlist]
    simp [not_new, not_old]

end Ordered

/-! ### Sequences of insertions -/

/-- The last entry of a sequence whose key compares equal to the one given. -/
def latest? (cmp : κ → κ → Ordering) (key : κ) (entries : List (κ × ν)) : Option (κ × ν) :=
  entries.reverse.find? fun entry => cmp key entry.1 == .eq

theorem ofList_concat (cmp : κ → κ → Ordering) (entries : List (κ × ν)) (entry : κ × ν) :
    ofList cmp (entries ++ [entry]) = (ofList cmp entries).put cmp entry.1 entry.2 := by
  rw [ofList, List.foldl_append]
  rfl

theorem latest?_concat (cmp : κ → κ → Ordering) (key : κ) (entries : List (κ × ν))
    (entry : κ × ν) :
    latest? cmp key (entries ++ [entry]) =
      if cmp key entry.1 = .eq then some entry else latest? cmp key entries := by
  rw [latest?, List.reverse_append, List.reverse_singleton, List.singleton_append, List.find?_cons]
  cases hcmp : cmp key entry.1 <;> simp [latest?]

/-- **A map made by insertions** ascends, and finds the last entry of the class of a key. -/
theorem entryAt?_ofList (cmp : κ → κ → Ordering) [Std.TransCmp cmp]
    (entries : List (κ × ν)) :
    (ofList cmp entries).Ordered cmp ∧
      ∀ key, entryAt? cmp key (ofList cmp entries) = latest? cmp key entries := by
  induction entries using List.reverseRecOn with
  | nil => exact ⟨ordered_empty, fun _ => rfl⟩
  | append_singleton entries entry ih =>
    obtain ⟨ordered, finds⟩ := ih
    rw [ofList_concat]
    refine ⟨ordered_put ordered _ _, fun key => ?_⟩
    rw [ordered.entryAt?_put, latest?_concat, finds]

/-- The keys that compare equal to a given one. -/
def classOf (cmp : κ → κ → Ordering) (key : κ) : Set κ := fun other => cmp key other = .eq

theorem classOf_eq_iff [Std.TransCmp cmp] {first second : κ} :
    classOf cmp first = classOf cmp second ↔ cmp first second = .eq := by
  constructor
  · intro heq
    have member : classOf cmp second second := Std.ReflCmp.compare_self
    rw [← heq] at member
    exact member
  · intro heq
    ext other
    change cmp first other = .eq ↔ cmp second other = .eq
    exact ⟨Std.TransCmp.eq_trans (Std.OrientedCmp.eq_symm heq), Std.TransCmp.eq_trans heq⟩

/-- **The entries of an ordered map count the classes of its keys.** -/
theorem Ordered.ncard_classes [Std.TransCmp cmp] {map : OrderedMap κ ν}
    (ordered : map.Ordered cmp) :
    ((fun entry => classOf cmp entry.1) '' {entry | entry ∈ map.toList}).ncard = map.size := by
  classical
  have injective : Set.InjOn (fun entry : κ × ν => classOf cmp entry.1)
      {entry | entry ∈ map.toList} := fun first hfirst second hsecond heq =>
    ordered.eq_of_compare hfirst hsecond (classOf_eq_iff.1 heq)
  rw [injective.ncard_image, ← List.coe_toFinset, Set.ncard_coe_finset,
    List.toFinset_card_of_nodup ordered.nodup, length_toList]

/-- The classes of the keys that were put in are those of the keys that are listed. -/
theorem classes_ofList (cmp : κ → κ → Ordering) [Std.TransCmp cmp]
    (entries : List (κ × ν)) :
    (fun entry => classOf cmp entry.1) '' {entry | entry ∈ (ofList cmp entries).toList} =
      {members | ∃ entry ∈ entries, members = classOf cmp entry.1} := by
  obtain ⟨ordered, finds⟩ := entryAt?_ofList cmp entries
  ext members
  constructor
  · rintro ⟨entry, member, rfl⟩
    have found := ordered.mem_toList_iff.1 member
    rw [finds] at found
    exact ⟨entry, List.mem_reverse.1 (List.mem_of_find?_eq_some found), rfl⟩
  · rintro ⟨entry, member, rfl⟩
    obtain ⟨last, found⟩ : ∃ last, latest? cmp entry.1 entries = some last :=
      Option.isSome_iff_exists.1 (List.find?_isSome.2
        ⟨entry, List.mem_reverse.2 member, by simp [Std.ReflCmp.compare_self]⟩)
    rw [← finds, ordered.entryAt?_eq_some_iff] at found
    exact ⟨last, found.1, classOf_eq_iff.2 (Std.OrientedCmp.eq_symm found.2)⟩

/-! ### Cursors -/

namespace Cursor

/-- The entries that a spine leads to. -/
def along : List (κ × ν × OrderedMap κ ν) → List (κ × ν)
  | [] => []
  | (key, value, right) :: spine => (key, value) :: (right.toList ++ along spine)

/-- The entries ahead of a cursor. -/
def ahead (cursor : Cursor κ ν) : List (κ × ν) := along cursor.spine

theorem along_descend (map : OrderedMap κ ν) (spine : List (κ × ν × OrderedMap κ ν)) :
    along (map.descend spine) = map.toList ++ along spine := by
  induction map generalizing spine with
  | empty => rfl
  | node height left key value right ihl ihr =>
    rw [descend, ihl, along, toList, List.append_assoc, List.cons_append]

theorem ahead_of_next?_eq_none {cursor : Cursor κ ν} (spent : cursor.next? = none) :
    cursor.ahead = [] := by
  obtain ⟨_ | ⟨place, spine⟩, remaining⟩ := cursor
  · rfl
  · cases spent

/-- The next entry is the first one ahead. -/
theorem ahead_of_next?_eq_some {cursor rest : Cursor κ ν} {entry : κ × ν}
    (next : cursor.next? = some (entry, rest)) : cursor.ahead = entry :: rest.ahead := by
  obtain ⟨_ | ⟨⟨key, value, right⟩, spine⟩, remaining⟩ := cursor
  · cases next
  · obtain ⟨rfl, rfl⟩ := Prod.mk.inj (Option.some.inj next)
    exact congrArg ((key, value) :: ·) (along_descend right spine).symm

/-- **The number that a cursor keeps is right**: it is that of the entries ahead. -/
def Counted (cursor : Cursor κ ν) : Prop := cursor.remaining = cursor.ahead.length

/-- **The next entry is taken off a number that is not zero**, and the number stays right. -/
theorem Counted.next {cursor rest : Cursor κ ν} {entry : κ × ν} (counted : cursor.Counted)
    (next : cursor.next? = some (entry, rest)) :
    cursor.remaining = rest.remaining + 1 ∧ rest.Counted := by
  rw [Counted, ahead_of_next?_eq_some next, List.length_cons] at counted
  have remaining_eq : rest.remaining = cursor.remaining - 1 := by
    obtain ⟨_ | ⟨place, spine⟩, remaining⟩ := cursor
    · cases next
    · obtain ⟨-, rfl⟩ := Prod.mk.inj (Option.some.inj next)
      rfl
  have right : rest.Counted := by
    rw [Counted]
    omega
  exact ⟨by omega, right⟩

/-- **Taking entries from a cursor goes through the list** of what is ahead, and the number of
entries still to come stays right. -/
theorem Counted.take_eq {cursor : Cursor κ ν} (counted : cursor.Counted) (count : Nat) :
    (cursor.take count).1 = cursor.ahead.take count ∧
      (cursor.take count).2.remaining = cursor.ahead.length - count := by
  induction count generalizing cursor with
  | zero => exact ⟨rfl, counted⟩
  | succ count ih =>
    rw [Cursor.take]
    cases next : cursor.next? with
    | none =>
      rw [Counted, ahead_of_next?_eq_none next] at counted
      rw [ahead_of_next?_eq_none next]
      exact ⟨rfl, by simpa using counted⟩
    | some found =>
      obtain ⟨entry, rest⟩ := found
      obtain ⟨taken, left⟩ := ih (counted.next next).2
      rw [ahead_of_next?_eq_some next, List.length_cons, Nat.add_sub_add_right]
      exact ⟨congrArg (entry :: ·) taken, left⟩

end Cursor

/-- All entries are ahead of the place before the first one. -/
theorem ahead_cursor (map : OrderedMap κ ν) : map.cursor.ahead = map.toList := by
  rw [Cursor.ahead, cursor, Cursor.along_descend, Cursor.along, List.append_nil]

theorem counted_cursor (map : OrderedMap κ ν) : map.cursor.Counted := by
  rw [Cursor.Counted, ahead_cursor, length_toList, cursor]

theorem take_cursor (map : OrderedMap κ ν) (count : Nat) :
    (map.cursor.take count).1 = map.toList.take count ∧
      (map.cursor.take count).2.remaining = map.toList.length - count := by
  rw [← ahead_cursor]
  exact map.counted_cursor.take_eq count

/-! ### The main statement -/

/-- Two ascending lists with the same members are equal. -/
theorem eq_of_mem_iff [Std.TransCmp cmp] {first second : OrderedMap κ ν}
    (hfirst : first.Ordered cmp) (hsecond : second.Ordered cmp)
    (same : ∀ entry, entry ∈ first.toList ↔ entry ∈ second.toList) :
    first.toList = second.toList := by
  have perm := (List.perm_ext_iff_of_nodup hfirst.nodup hsecond.nodup).2 same
  refine perm.eq_of_pairwise (fun a b _ _ below above => ?_) hfirst hsecond
  rw [Std.OrientedCmp.gt_of_lt below] at above
  cases above

/-- **A map is sorted and balanced whatever is put into it.** The map that a sequence of entries
leaves, under any comparison that orders the keys up to classes, lists the last entry of each class
in ascending order, and a cursor goes through this list knowing what remains. Look-ups answer from
the list, a further insertion reports the value that it replaces and adds an entry if there was
none, and the size is the number of classes. The tree stores its depths, its siblings are within one
of each other, no rotation misses a subtree, and it has no fewer entries than the sparsest tree of
its height. Two maps in the natural order are equal exactly if they list the same entries. -/
theorem sorted_map [Std.TransCmp cmp] {entries : List (κ × ν)} {map : OrderedMap κ ν}
    (built : ofList cmp entries = map) :
    (map.Ordered cmp ∧ ∀ entry, entry ∈ map.toList ↔ latest? cmp entry.1 entries = some entry) ∧
      (∀ count, (map.cursor.take count).1 = map.toList.take count ∧
        (map.cursor.take count).2.remaining = map.toList.length - count) ∧
        (∀ key,
          (map.entryAt? cmp key = map.toList.find? fun entry => cmp key entry.1 == .eq) ∧
            map.find? cmp key = (map.entryAt? cmp key).map Prod.snd ∧
              map.contains cmp key = (map.entryAt? cmp key).isSome) ∧
          (∀ key value,
            (map.insert cmp key value).2 = (latest? cmp key entries).map Prod.snd ∧
              (map.insert cmp key value).1.size =
                if (latest? cmp key entries).isSome then map.size else map.size + 1) ∧
            map.size = {members | ∃ entry ∈ entries, members = classOf cmp entry.1}.ncard ∧
              (map.Balanced ∧ map.isBalanced cmp = true ∧
                ∀ left right : OrderedMap κ ν, Rotatable left right) ∧
                Nat.fib (map.height + 2) - 1 ≤ map.size ∧
                  ∀ [Ord κ] [Std.TransOrd κ] [Std.LawfulEqOrd κ] [BEq κ] [LawfulBEq κ] [BEq ν]
                    [LawfulBEq ν] (first second : List (κ × ν)),
                    (ofList compare first == ofList compare second) = true ↔
                      ∀ entry, entry ∈ (ofList compare first).toList ↔
                        entry ∈ (ofList compare second).toList := by
  obtain ⟨ordered, finds⟩ := entryAt?_ofList cmp entries
  have balanced := Balanced.ofList cmp entries
  have classes := classes_ofList cmp entries
  rw [built] at ordered finds balanced classes
  refine ⟨⟨ordered, fun entry => ?_⟩, take_cursor map, fun key => ?_, fun key value => ?_, ?_,
    ⟨balanced, ?_, rotatable⟩, ?_, ?_⟩
  · rw [ordered.mem_toList_iff, finds]
  · refine ⟨ordered.entryAt?_eq key, find?_eq_map_entryAt? cmp key map, ?_⟩
    rw [contains, find?_eq_map_entryAt?, Option.isSome_map]
  · rw [insert_snd, size_insert, find?_eq_map_entryAt?, finds, Option.isSome_map]
    exact ⟨rfl, rfl⟩
  · rw [← classes, ordered.ncard_classes]
  · rw [isBalanced, balanced.checkedHeight?_eq ordered]
    rfl
  · have sparse := balanced.fib_le_size
    omega
  · intro _ _ _ _ _ _ _ first second
    change ((ofList compare first).toList == (ofList compare second).toList) = true ↔ _
    rw [beq_iff_eq]
    constructor
    · intro same entry
      rw [same]
    · exact eq_of_mem_iff (entryAt?_ofList compare first).1
        (entryAt?_ofList compare second).1

/-- Compares numbers by their last digits. -/
def byLastDigit : Nat → Nat → Ordering := compareOn (· % 10)

instance : Std.TransCmp byLastDigit := by
  unfold byLastDigit
  infer_instance

/-- Entries of which two have one last digit. -/
def digits : List (Nat × String) := [(13, "a"), (7, "b"), (3, "c"), (21, "d"), (40, "e")]

/-- The later one of the two stays, and 27 would take the place of 7. -/
theorem sorted_map_digits :
    ∃ map, ofList byLastDigit digits = map ∧
      map.toList = [(40, "e"), (21, "d"), (3, "c"), (7, "b")] ∧
        (map.cursor.take 3).2.remaining = 1 ∧
          (map.insert byLastDigit 27 "f").2 = some "b" ∧
            {members | ∃ entry ∈ digits, members = classOf byLastDigit entry.1}.ncard = 4 ∧
              map.isBalanced byLastDigit = true ∧ Nat.fib (map.height + 2) - 1 ≤ map.size := by
  obtain ⟨-, cursor, -, reports, classes, ⟨-, checks, -⟩, sparse, -⟩ :=
    sorted_map (rfl : ofList byLastDigit digits = _)
  refine ⟨_, rfl, rfl, (cursor 3).2, ?_, classes.symm, checks, sparse⟩
  rw [(reports 27 "f").1]
  rfl

end OrderedMap

end StableModels
