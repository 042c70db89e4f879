import Mathlib.Algebra.Ring.Nat
import Mathlib.Data.List.Induction
import Mathlib.Data.List.Perm.Basic
import StableModels.Proofs.Forest

/-!
# Binomial forests as max-queues

What a forest holds is settled by its trees as bags of elements; in which order the elements leave
it, and in how few steps, rests on the shape of the trees. A tree is **sound** if its children have
the ranks from zero up to its own, in this order, and none of them has a greater priority than the
root. A list of roots is **ranked** if each place is empty or has a sound tree of the rank that
belongs to the place.

Two sound trees of one rank join to a sound tree of the next (`StableModels.HeapTree.Sound.join`),
so carrying keeps a list ranked, and the children of a root that leaves can be added back at their
places. A ranked list is a number in binary: the places that are taken are the digits of the number
of elements (`StableModels.Forest.Ranked.exists_digits`).

The main statement, `StableModels.Forest.Serves.max_queue`, is about every history of pushes and
pops: each pop gives an element of the greatest priority among those that are waiting, and takes
off just that one.
-/

universe u v

namespace StableModels

variable {π : Type u} {τ : Type v} [Ord π]

/-! ### Trees -/

namespace HeapTree

/-- The children stand in the order of their ranks, zero first, none has a greater priority than
the root, and each is such a tree itself. -/
inductive Sound : HeapTree π τ → Prop where
  | node {priority : π} {item : τ} {children : List (HeapTree π τ)}
      (ranks : children.map rank = List.range children.length)
      (ordered : ∀ child ∈ children, (compare child.priority priority).isLE)
      (below : ∀ child ∈ children, child.Sound) : Sound (.node priority item children)

theorem sound_single (priority : π) (item : τ) : (node priority item []).Sound :=
  .node rfl (by simp) (by simp)

/-- The tree that stays on top takes a tree of its own rank as its last child. -/
theorem Sound.concat {priority : π} {item : τ} {children : List (HeapTree π τ)}
    {last : HeapTree π τ} (sound : (HeapTree.node priority item children).Sound)
    (last_sound : last.Sound) (ranks : last.rank = children.length)
    (ordered : (compare last.priority priority).isLE) :
    (HeapTree.node priority item (children ++ [last])).Sound := by
  cases sound with
  | node hranks hordered hbelow =>
    refine .node ?_ ?_ ?_
    · rw [List.map_append, hranks, List.map_singleton, ranks, List.length_append,
        List.length_singleton, List.range_succ]
    · intro child member
      rcases List.mem_append.1 member with member | member
      · exact hordered child member
      · obtain rfl := List.mem_singleton.1 member
        exact ordered
    · intro child member
      rcases List.mem_append.1 member with member | member
      · exact hbelow child member
      · obtain rfl := List.mem_singleton.1 member
        exact last_sound

theorem rank_join {first second : HeapTree π τ} (ranks : first.rank = second.rank) :
    (first.join second).rank = first.rank + 1 := by
  obtain ⟨p, a, as⟩ := first
  obtain ⟨q, b, bs⟩ := second
  simp only [rank, children] at ranks
  rw [join]
  split <;> simp [rank, children, ranks]

/-- **Two sound trees of one rank join to a sound tree.** -/
theorem Sound.join [Std.OrientedOrd π] {first second : HeapTree π τ} (first_sound : first.Sound)
    (second_sound : second.Sound) (ranks : first.rank = second.rank) :
    (first.join second).Sound := by
  obtain ⟨p, a, as⟩ := first
  obtain ⟨q, b, bs⟩ := second
  rw [HeapTree.join]
  split
  · next greater =>
    refine second_sound.concat first_sound ranks ?_
    -- The tree that goes below has the smaller priority, since the other one is greater.
    have smaller : compare p q = .lt := Std.OrientedCmp.lt_of_gt (Ordering.isGT_iff_eq_gt.1 greater)
    exact Ordering.isLE_of_eq_lt smaller
  · next notGreater =>
    refine first_sound.concat second_sound ranks.symm ?_
    exact Ordering.isLE_iff_ne_gt.2 fun greater => notGreater (Ordering.isGT_iff_eq_gt.2 greater)

omit [Ord π] in
/-- Children that stand in the order of their ranks have one element fewer than the power of two
that comes next. -/
theorem length_listAll {children : List (HeapTree π τ)}
    (counts : ∀ child ∈ children, child.toList.length = 2 ^ child.rank)
    (ranks : children.map rank = List.range children.length) :
    (listAll children).length + 1 = 2 ^ children.length := by
  -- The last child is taken off, since its rank is the number of those before it.
  induction children using List.reverseRecOn with
  | nil => simp [listAll]
  | append_singleton children last ih =>
    rw [List.map_append, List.length_append, List.length_singleton, List.range_succ] at ranks
    obtain ⟨hinit, hlast⟩ := List.append_inj' ranks rfl
    obtain hrank := List.singleton_inj.1 hlast
    have hcount := counts last (List.mem_append_right _ List.mem_cons_self)
    have hrest := ih (fun child member => counts child (List.mem_append_left _ member)) hinit
    rw [hrank] at hcount
    rw [listAll_append, listAll_singleton, List.length_append, List.length_append, hcount,
      List.length_singleton, Nat.pow_succ]
    omega

/-- **A sound tree of rank `r` has `2 ^ r` elements.** -/
theorem Sound.length_toList {tree : HeapTree π τ} (sound : tree.Sound) :
    tree.toList.length = 2 ^ tree.rank := by
  induction sound with
  | node ranks _ _ ih =>
    rw [toList_eq, List.length_cons]
    exact length_listAll ih ranks

omit [Ord π] in
theorem mem_listAll {trees : List (HeapTree π τ)} {element : π × τ} :
    element ∈ listAll trees ↔ ∃ tree ∈ trees, element ∈ tree.toList := by
  induction trees with
  | nil => simp [listAll]
  | cons tree trees ih => simp [listAll, ih]

/-- **The root of a sound tree has the greatest priority.** -/
theorem Sound.isLE_of_mem [Std.TransOrd π] {tree : HeapTree π τ} (sound : tree.Sound)
    {element : π × τ} (member : element ∈ tree.toList) :
    (compare element.1 tree.priority).isLE := by
  induction sound with
  | @node priority item children ranks ordered below ih =>
    rw [toList_eq] at member
    rcases List.mem_cons.1 member with rfl | member
    · exact Ordering.isLE_of_eq_eq Std.ReflCmp.compare_self
    · obtain ⟨child, hchild, helement⟩ := mem_listAll.1 member
      exact Std.TransCmp.isLE_trans (ih child hchild helement) (ordered child hchild)

/-- The children of a sound tree are sound. -/
theorem Sound.of_mem_children {tree child : HeapTree π τ} (sound : tree.Sound)
    (member : child ∈ tree.children) : child.Sound := by
  cases sound with
  | node ranks ordered below => exact below child member

end HeapTree

/-! ### Roots -/

namespace Forest

/-- Each place, with its rank counted from `start`, is empty or has a sound tree of that rank. -/
def Ranked (start : Nat) (roots : List (Option (HeapTree π τ))) : Prop :=
  ∀ place tree, roots[place]? = some (some tree) → tree.rank = start + place ∧ tree.Sound

theorem ranked_nil (start : Nat) : Ranked start ([] : List (Option (HeapTree π τ))) := by
  intro place tree found
  simp at found

/-- The first root has the rank to start from, and the others count from the next one. -/
theorem ranked_cons {start : Nat} {root : Option (HeapTree π τ)}
    {roots : List (Option (HeapTree π τ))} :
    Ranked start (root :: roots) ↔
      (∀ tree ∈ root, tree.rank = start ∧ tree.Sound) ∧ Ranked (start + 1) roots := by
  constructor
  · intro ranked
    refine ⟨fun tree member => ranked 0 tree (congrArg some member), fun place tree found => ?_⟩
    obtain ⟨hrank, sound⟩ := ranked (place + 1) tree found
    exact ⟨by omega, sound⟩
  · rintro ⟨hroot, hroots⟩ (_ | place) tree found
    · exact hroot tree (Option.some.inj found)
    · obtain ⟨hrank, sound⟩ := hroots place tree found
      exact ⟨by omega, sound⟩

/-- An empty place asks for nothing. -/
theorem ranked_none_cons {start : Nat} {roots : List (Option (HeapTree π τ))} :
    Ranked start (none :: roots) ↔ Ranked (start + 1) roots := by
  simp [ranked_cons]

/-- **A ranked list is a number in binary**: its places are the digits of a number, which counts
the elements in units of the first rank. -/
theorem Ranked.exists_digits {start : Nat} {roots : List (Option (HeapTree π τ))}
    (ranked : Ranked start roots) :
    ∃ number, (elements roots).length = 2 ^ start * number ∧
      ∀ place, number.testBit place = true ↔ ∃ tree, roots[place]? = some (some tree) := by
  induction roots generalizing start with
  | nil => exact ⟨0, rfl, by simp⟩
  | cons root roots ih =>
    obtain ⟨hroot, hroots⟩ := ranked_cons.1 ranked
    obtain ⟨number, hlength, hdigits⟩ := ih hroots
    cases root with
    | none =>
      refine ⟨2 * number, ?_, ?_⟩
      · rw [elements_none, hlength, Nat.pow_succ, Nat.mul_assoc]
      · rintro (_ | place)
        · simp
        · rw [Nat.testBit_succ, Nat.mul_div_cancel_left number Nat.two_pos]
          exact hdigits place
    | some tree =>
      obtain ⟨hrank, sound⟩ := hroot tree rfl
      refine ⟨2 * number + 1, ?_, ?_⟩
      · rw [elements_some, List.length_append, sound.length_toList, hrank, hlength, Nat.pow_succ,
          Nat.mul_add, Nat.mul_one, Nat.mul_assoc, Nat.add_comm]
      · rintro (_ | place)
        · simp
        · rw [Nat.testBit_succ, show (2 * number + 1) / 2 = number by omega]
          exact hdigits place

/-! ### Adding and removing -/

section Adding

variable [Std.OrientedOrd π]

theorem ranked_carry {start : Nat} {roots : List (Option (HeapTree π τ))} {tree : HeapTree π τ}
    (ranked : Ranked start roots) (sound : tree.Sound) (hrank : tree.rank = start) :
    Ranked start (carry tree roots) := by
  induction roots generalizing start tree with
  | nil => exact ranked_cons.2 ⟨by simp [hrank, sound], ranked_nil _⟩
  | cons root roots ih =>
    obtain ⟨hroot, hroots⟩ := ranked_cons.1 ranked
    cases root with
    | none => exact ranked_cons.2 ⟨by simp [hrank, sound], hroots⟩
    | some other =>
      obtain ⟨hother, other_sound⟩ := hroot other rfl
      have ranks : other.rank = tree.rank := hother.trans hrank.symm
      rw [carry, ranked_none_cons]
      exact ih hroots (other_sound.join sound ranks) (by rw [HeapTree.rank_join ranks, hother])

theorem ranked_addAt {start places : Nat} {roots : List (Option (HeapTree π τ))}
    {tree : HeapTree π τ} (ranked : Ranked start roots) (sound : tree.Sound)
    (hrank : tree.rank = start + places) : Ranked start (addAt tree places roots) := by
  induction places generalizing start roots with
  | zero => exact ranked_carry ranked sound hrank
  | succ places ih =>
    have next : tree.rank = start + 1 + places := by omega
    cases roots with
    | nil =>
      rw [addAt, ranked_none_cons]
      exact ih (ranked_nil _) next
    | cons root roots =>
      obtain ⟨hroot, hroots⟩ := ranked_cons.1 ranked
      exact ranked_cons.2 ⟨hroot, ih hroots next⟩

theorem ranked_add {roots : List (Option (HeapTree π τ))} {tree : HeapTree π τ}
    (ranked : Ranked 0 roots) (sound : tree.Sound) : Ranked 0 (add tree roots) :=
  ranked_addAt ranked sound (Nat.zero_add _).symm

theorem ranked_addAll {roots : List (Option (HeapTree π τ))} {trees : List (HeapTree π τ)}
    (ranked : Ranked 0 roots) (sound : ∀ tree ∈ trees, tree.Sound) :
    Ranked 0 (addAll trees roots) := by
  induction trees generalizing roots with
  | nil => exact ranked
  | cons tree trees ih =>
    refine ih (ranked_add ranked (sound tree List.mem_cons_self)) fun other member => ?_
    exact sound other (List.mem_cons_of_mem _ member)

end Adding

theorem ranked_trim {start : Nat} {roots : List (Option (HeapTree π τ))}
    (ranked : Ranked start roots) : Ranked start (trim roots) := by
  induction roots generalizing start with
  | nil => exact ranked
  | cons root roots ih =>
    obtain ⟨hroot, hroots⟩ := ranked_cons.1 ranked
    have hrest := ih hroots
    cases root with
    | some tree => exact ranked_cons.2 ⟨hroot, hrest⟩
    | none =>
      rw [trim]
      split
      · exact ranked_nil _
      · next root rest htrim =>
        rw [htrim] at hrest
        exact ranked_none_cons.2 hrest

/-- Emptying a place asks for nothing new. -/
theorem ranked_set {start rank : Nat} {roots : List (Option (HeapTree π τ))}
    (ranked : Ranked start roots) : Ranked start (roots.set rank none) := by
  intro place tree found
  rw [List.getElem?_set] at found
  split at found
  · split at found <;> simp at found
  · exact ranked place tree found

/-- The root that is to leave has the greatest priority of all roots. -/
theorem isLE_of_greatestFrom [Std.TransOrd π] {start rank : Nat} {first : HeapTree π τ}
    {roots : List (Option (HeapTree π τ))} (found : greatestFrom start roots = some (rank, first)) :
    ∀ tree, some tree ∈ roots → (compare tree.priority first.priority).isLE := by
  induction roots generalizing start rank first with
  | nil => cases found
  | cons root roots ih =>
    cases root with
    | none => simpa using ih found
    | some here =>
      rw [greatestFrom] at found
      simp only [List.mem_cons, Option.some.injEq, forall_eq_or_imp]
      have self : (compare here.priority here.priority).isLE :=
        Ordering.isLE_of_eq_eq Std.ReflCmp.compare_self
      split at found
      · next none_later =>
        -- No root comes later, so the one at hand is the only one.
        obtain ⟨rfl, rfl⟩ := Prod.mk.inj (Option.some.inj found)
        refine ⟨self, fun tree member => ?_⟩
        have hnil := greatestFrom_eq_none_iff.1 none_later
        have hmem : tree ∈ roots.filterMap id := List.mem_filterMap.2 ⟨_, member, rfl⟩
        have hroot : (tree.priority, tree.item) ∈ elements roots :=
          HeapTree.mem_listAll.2 ⟨tree, hmem, by simp [HeapTree.toList_eq]⟩
        simp [hnil] at hroot
      · next later other hlater =>
        have hrest := ih hlater
        split at found
        · next greater =>
          obtain ⟨rfl, rfl⟩ := Prod.mk.inj (Option.some.inj found)
          have smaller := Std.OrientedCmp.lt_of_gt (Ordering.isGT_iff_eq_gt.1 greater)
          exact ⟨Ordering.isLE_of_eq_lt smaller, hrest⟩
        · next notGreater =>
          obtain ⟨rfl, rfl⟩ := Prod.mk.inj (Option.some.inj found)
          have atMost : (compare other.priority here.priority).isLE :=
            Ordering.isLE_iff_ne_gt.2 fun greater => notGreater (Ordering.isGT_iff_eq_gt.2 greater)
          exact ⟨self, fun tree member => Std.TransCmp.isLE_trans (hrest tree member) atMost⟩

/-- **What leaves a ranked forest has the greatest priority**, and the forest stays ranked. -/
theorem Ranked.pop? [Std.TransOrd π] {forest rest : Forest π τ} {first : π × τ}
    (ranked : Ranked 0 forest.roots) (popped : forest.pop? = some (first, rest)) :
    Ranked 0 rest.roots ∧ ∀ other ∈ forest.toList, (compare other.1 first.1).isLE := by
  obtain ⟨rank, tree, found, rfl, roots_eq⟩ := exists_of_pop? popped
  obtain ⟨-, hget⟩ := getElem?_of_greatestFrom found
  obtain ⟨-, sound⟩ := ranked _ _ hget
  constructor
  · rw [roots_eq]
    exact ranked_addAll (ranked_trim (ranked_set ranked)) fun child => sound.of_mem_children
  · intro other member
    obtain ⟨root, hroot, hother⟩ := HeapTree.mem_listAll.1 member
    obtain ⟨place, hplace, rfl⟩ := List.mem_filterMap.1 hroot
    obtain ⟨index, hindex⟩ := List.mem_iff_getElem?.1 hplace
    have root_sound := (ranked index root hindex).2
    exact Std.TransCmp.isLE_trans (root_sound.isLE_of_mem hother)
      (isLE_of_greatestFrom found root hplace)

/-- What is peeked at is the priority of what leaves. -/
theorem peek?_eq (forest : Forest π τ) :
    forest.peek? = forest.pop?.map fun popped => popped.1.1 := by
  rw [peek?, Forest.pop?]
  split
  · next found => exact congrArg (Option.map _) found
  · next found => exact congrArg (Option.map _) found

/-! ### Histories -/

/-- A queue after a history of pushes and pops that began with the empty one: what was pushed, and
what left, the latest first. A pop that finds nothing leaves no trace. -/
inductive Serves : List (π × τ) → List (π × τ) → Forest π τ → Prop where
  /-- A queue begins empty. -/
  | start : Serves [] [] empty
  /-- An element is added. -/
  | push {pushed left : List (π × τ)} {forest : Forest π τ} (serves : Serves pushed left forest)
      (priority : π) (item : τ) :
      Serves ((priority, item) :: pushed) left (forest.push priority item)
  /-- An element leaves. -/
  | pop {pushed left : List (π × τ)} {forest rest : Forest π τ} {first : π × τ}
      (serves : Serves pushed left forest) (popped : forest.pop? = some (first, rest)) :
      Serves pushed (first :: left) rest

variable {pushed left : List (π × τ)} {forest : Forest π τ}

theorem Serves.ranked [Std.TransOrd π] (serves : Serves pushed left forest) :
    Ranked 0 forest.roots := by
  induction serves with
  | start => exact ranked_nil 0
  | push _ priority item ih => exact ranked_add ih (HeapTree.sound_single priority item)
  | pop _ popped ih => exact (ih.pop? popped).1

/-- Whatever was pushed is waiting or has left. -/
theorem Serves.perm_pushed (serves : Serves pushed left forest) :
    pushed.Perm (forest.toList ++ left) := by
  induction serves with
  | start => exact List.Perm.nil
  | push _ priority item ih =>
    exact (ih.cons _).trans ((toList_push priority item _).symm.append_right _)
  | pop _ popped ih =>
    exact ih.trans (((toList_pop? popped).append_right _).trans List.perm_middle.symm)

/-- **A binomial forest is a max-queue.** After any history of pushes and pops, the elements of the
forest are those that were pushed and have not left. A pop gives nothing exactly if there are none;
else it gives one of the greatest priority, the one that is peeked at, and takes off just that one.
The size counts the elements that are waiting, and its binary digits tell the ranks that are taken;
the tree of each rank is sound and has as many elements as its digit is worth. -/
theorem Serves.max_queue [Std.TransOrd π] (serves : Serves pushed left forest) :
    pushed.Perm (forest.toList ++ left) ∧
      (forest.pop? = none ↔ forest.toList = []) ∧
        (∀ first rest, forest.pop? = some (first, rest) →
          forest.toList.Perm (first :: rest.toList) ∧
            ∀ other ∈ forest.toList, (compare other.1 first.1).isLE) ∧
          (forest.peek? = forest.pop?.map fun popped => popped.1.1) ∧
            forest.size + left.length = pushed.length ∧
              (∀ rank, (∃ tree, forest.roots[rank]? = some (some tree)) ↔
                forest.size.testBit rank = true) ∧
                ∀ rank tree, forest.roots[rank]? = some (some tree) →
                  tree.rank = rank ∧ tree.Sound ∧ tree.toList.length = 2 ^ rank := by
  have ranked := serves.ranked
  refine ⟨serves.perm_pushed, pop?_eq_none_iff, fun first rest popped => ?_, peek?_eq forest,
    ?_, ?_, ?_⟩
  · exact ⟨toList_pop? popped, (ranked.pop? popped).2⟩
  · rw [serves.perm_pushed.length_eq, List.length_append, length_toList]
  · obtain ⟨number, hlength, hdigits⟩ := ranked.exists_digits
    have hsize : forest.size = number := by
      rw [forest.size_eq, hlength, Nat.pow_zero, Nat.one_mul]
    intro rank
    rw [hsize, hdigits]
  · intro rank tree found
    obtain ⟨hrank, sound⟩ := ranked rank tree found
    rw [Nat.zero_add] at hrank
    exact ⟨hrank, sound, by rw [sound.length_toList, hrank]⟩

/-- A queue in which three of the five elements have the greatest priority. -/
def tied : Forest Nat String :=
  ((((empty.push 2 "a").push 5 "b").push 5 "c").push 1 "d").push 5 "e"

/-- One of the three leaves, and the other four elements make one tree. -/
theorem Serves.max_queue_tied :
    ∃ first rest tree, tied.pop? = some (first, rest) ∧
      Serves [(5, "e"), (1, "d"), (5, "c"), (5, "b"), (2, "a")] [first] rest ∧
        (∀ other ∈ tied.toList, (compare other.1 first.1).isLE) ∧
          tied.toList.Perm (first :: rest.toList) ∧ rest.size = 4 ∧
            rest.roots[2]? = some (some tree) ∧ tree.Sound ∧ tree.toList.length = 4 := by
  have serves : Serves [(5, "e"), (1, "d"), (5, "c"), (5, "b"), (2, "a")] [] tied :=
    ((((Serves.start.push 2 "a").push 5 "b").push 5 "c").push 1 "d").push 5 "e"
  obtain ⟨first, rest, popped⟩ : ∃ first rest, tied.pop? = some (first, rest) := ⟨_, _, rfl⟩
  obtain ⟨-, -, goes, -⟩ := serves.max_queue
  obtain ⟨taken, greatest⟩ := goes first rest popped
  obtain ⟨-, -, -, -, waiting, digits, trees⟩ := (serves.pop popped).max_queue
  have four : rest.size = 4 := by simpa using waiting
  obtain ⟨tree, found⟩ := (digits 2).2 (by rw [four]; rfl)
  obtain ⟨-, sound, counts⟩ := trees 2 tree found
  exact ⟨first, rest, tree, popped, serves.pop popped, greatest, taken, four, found, sound, counts⟩

end Forest

end StableModels
