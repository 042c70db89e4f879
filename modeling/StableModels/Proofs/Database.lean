import Mathlib.Data.List.Count
import StableModels.Database
import StableModels.Proofs.Trie

/-!
# Databases as finite maps

A database is **sound** if its relations are in order, their tries are sound, and every tally
says how many constraints of either kind there are. Setting a constraint keeps a database sound
and is the update of a finite map from tuples to constraints
(`StableModels.Database.Sound.get?_set`), so that no tuple is ever touched but the one that is
named.

Two things follow that the search relies on. A database that counts no narrowed tuple has none
(`StableModels.Database.Sound.narrowed_eq_zero_iff`). And the index finds exactly the ways in
which stored tuples go on, where a fixed value is one position more
(`StableModels.Database.Sound.mem_visit`): the second half of that statement, the positions in
the middle of longer tuples, is why a relation has to be used at one arity for its matches to
mean what they say.
-/

namespace StableModels

namespace Tally

/-- The tally of a list of constraints. -/
def of (constraints : List Constraint) : Tally :=
  ⟨constraints.countP Constraint.isFixed, constraints.countP fun constraint => !constraint.isFixed⟩

/-- Replacing a constraint in a list is replacing it in the tally. -/
theorem replace_of {before after rest : List Constraint} {old : Option Constraint}
    {new : Constraint} (hbefore : before.Perm (old.toList ++ rest))
    (hafter : after.Perm (new :: rest)) : (of before).replace old new = of after := by
  rw [of, of, hbefore.countP_eq, hbefore.countP_eq, hafter.countP_eq, hafter.countP_eq]
  rcases old with _ | (value | excluded) <;> rcases new with value' | excluded' <;>
    simp [replace, add, remove, Constraint.isFixed, List.countP_cons]

end Tally

namespace Relation

/-- The constraints of the tuples. -/
def constraints (relation : Relation) : List Constraint := relation.entries.map Prod.snd

/-- The trie is sound and the tally is that of its constraints. -/
structure Sound (relation : Relation) : Prop where
  /-- The trie is sound. -/
  tuples : relation.tuples.Sound
  /-- The tally counts the constraints. -/
  tally : relation.tally = Tally.of relation.constraints

theorem sound_empty : Sound {} := ⟨Trie.sound_empty, rfl⟩

theorem get?_empty (args : List Handle) : get? args {} = none := Trie.find?_empty args

theorem Sound.set {relation new : Relation} (sound : relation.Sound) {args : List Handle}
    {constraint : Constraint} {old : Option Constraint}
    (set : relation.set args constraint = .ok (new, old)) :
    new.Sound ∧ old = relation.get? args ∧
      (∀ other, new.get? other = if other = args then some constraint else relation.get? other) ∧
        ∃ rest, relation.constraints.Perm (old.toList ++ rest) ∧
          new.constraints.Perm (constraint :: rest) := by
  rw [Relation.set] at set
  split at set
  · cases set
  · next tuples replaced inserted =>
    obtain ⟨rfl, rfl⟩ := Prod.mk.inj (Except.ok.inj set)
    obtain ⟨hsound, -, hold, hfind⟩ := sound.tuples.insert inserted
    obtain ⟨rest, hbefore, hafter⟩ :=
      (Trie.inserts_of_insert inserted).perm_entries sound.tuples
    have hconstraints : relation.constraints.Perm (replaced.toList ++ rest.map Prod.snd) := by
      have hmapped := hbefore.map Prod.snd
      cases replaced <;> simpa [constraints, entries] using hmapped
    have hnew := hafter.map Prod.snd
    refine ⟨⟨hsound, ?_⟩, hold, hfind, rest.map Prod.snd, hconstraints, hnew⟩
    rw [sound.tally]
    exact Tally.replace_of hconstraints hnew

end Relation

namespace Database

/-- The constraints of all tuples. -/
def constraints (database : Database) : List Constraint :=
  database.relations.toList.flatMap fun entry => entry.2.constraints

/-- The relations are in order and sound, and the tally counts their constraints. -/
structure Sound (database : Database) : Prop where
  /-- The relations ascend by name. -/
  ordered : database.relations.Ordered compare
  /-- The relations are sound. -/
  relations : ∀ entry ∈ database.relations.toList, entry.2.Sound
  /-- The tally counts the constraints. -/
  tally : database.tally = Tally.of database.constraints

theorem sound_empty : empty.Sound := ⟨OrderedMap.ordered_empty, by simp [empty], rfl⟩

@[simp] theorem get?_empty (name : String) (args : List Handle) : empty.get? name args = none := rfl

variable {database new : Database} {name : String} {args : List Handle} {constraint : Constraint}
  {old : Option Constraint}

theorem Sound.relation?_eq_some_iff (sound : database.Sound) {relation : Relation} :
    database.relation? name = some relation ↔ (name, relation) ∈ database.relations.toList :=
  OrderedMap.find?_eq_some_iff sound.ordered

theorem Sound.of_relation? (sound : database.Sound) {relation : Relation}
    (found : database.relation? name = some relation) : relation.Sound :=
  sound.relations _ (sound.relation?_eq_some_iff.1 found)

/-- A tuple without a relation has no constraint, as in a relation without tuples. -/
theorem get?_eq_getD (name : String) (args : List Handle) (database : Database) :
    database.get? name args = ((database.relation? name).getD {}).get? args := by
  rw [get?]
  cases database.relation? name with
  | none => exact (Relation.get?_empty args).symm
  | some relation => rfl

theorem Sound.getD_relation? (sound : database.Sound) (name : String) :
    ((database.relation? name).getD {}).Sound := by
  cases found : database.relation? name with
  | none => exact Relation.sound_empty
  | some relation => exact sound.of_relation? found

/-- Setting a constraint replaces the relation of its predicate. -/
theorem exists_of_set (set : database.set name args constraint = .ok (new, old)) :
    ∃ relation, ((database.relation? name).getD {}).set args constraint = .ok (relation, old) ∧
      new = ⟨database.relations.put compare name relation,
        database.tally.replace old constraint⟩ := by
  rw [Database.set] at set
  split at set
  · cases set
  · next relation replaced hset =>
    obtain ⟨rfl, rfl⟩ := Prod.mk.inj (Except.ok.inj set)
    exact ⟨relation, hset, rfl⟩

/-- In the list of all constraints, those of the new relation take the place of those of the old
one. -/
theorem Sound.perm_constraints_put (sound : database.Sound) (name : String) (relation : Relation)
    (tally : Tally) :
    ∃ others, database.constraints.Perm
        (((database.relation? name).getD {}).constraints ++ others) ∧
      (constraints ⟨database.relations.put compare name relation, tally⟩).Perm
        (relation.constraints ++ others) := by
  obtain ⟨others, hlist, hput⟩ := OrderedMap.perm_toList_put sound.ordered name relation
  let listed (entry : String × Relation) : List Constraint := entry.2.constraints
  refine ⟨others.flatMap listed, (hlist.flatMap_right listed).trans ?_, hput.flatMap_right listed⟩
  rw [List.flatMap_append, relation?]
  cases database.relations.find? compare name with
  | none => exact List.Perm.refl _
  | some relation => simp [listed]

/-- **Setting a constraint keeps a database sound.** -/
theorem Sound.set (sound : database.Sound)
    (set : database.set name args constraint = .ok (new, old)) :
    new.Sound := by
  obtain ⟨relation, hset, rfl⟩ := exists_of_set set
  obtain ⟨hsound, -, -, rest, hbefore, hafter⟩ := (sound.getD_relation? name).set hset
  have hput := OrderedMap.ordered_put sound.ordered name relation
  constructor
  case ordered => exact hput
  case relations =>
    rintro ⟨other, found⟩ member
    have hfound := (OrderedMap.find?_eq_some_iff hput).2 member
    rw [OrderedMap.find?_put sound.ordered] at hfound
    split at hfound
    · exact Option.some.inj hfound ▸ hsound
    · exact sound.relations _ ((OrderedMap.find?_eq_some_iff sound.ordered).1 hfound)
  case tally =>
    -- In the list of constraints, too, one takes the place of another.
    obtain ⟨others, hfirst, hsecond⟩ := sound.perm_constraints_put name relation
      (database.tally.replace old constraint)
    have hbefore' := hfirst.trans (List.Perm.append_right others hbefore)
    rw [List.append_assoc] at hbefore'
    rw [sound.tally]
    exact Tally.replace_of hbefore' (hsecond.trans (List.Perm.append_right others hafter))

/-- **Setting a constraint is the update of a finite map.** -/
theorem Sound.get?_set (sound : database.Sound)
    (set : database.set name args constraint = .ok (new, old)) (other : String)
    (others : List Handle) :
    new.get? other others =
      if other = name ∧ others = args then some constraint else database.get? other others := by
  obtain ⟨relation, hset, rfl⟩ := exists_of_set set
  obtain ⟨-, -, hget, -⟩ := (sound.getD_relation? name).set hset
  rw [get?, relation?, OrderedMap.find?_put sound.ordered]
  by_cases heq : other = name
  · subst heq
    simp [hget, ← get?_eq_getD]
  · simp [heq, get?, relation?]

/-- The constraint of a tuple is listed in the relation of its predicate. -/
theorem Sound.get?_eq_some_iff (sound : database.Sound) :
    database.get? name args = some constraint ↔
      ∃ entry ∈ database.relations.toList, entry.1 = name ∧
        (args, constraint) ∈ entry.2.entries := by
  rw [get?, Option.bind_eq_some_iff]
  constructor
  · rintro ⟨relation, hrelation, found⟩
    have member := sound.relation?_eq_some_iff.1 hrelation
    exact ⟨_, member, rfl, (sound.relations _ member).tuples.mem_entries.2 found⟩
  · rintro ⟨⟨name, relation⟩, member, rfl, listed⟩
    exact ⟨relation, sound.relation?_eq_some_iff.2 member,
      (sound.relations _ member).tuples.mem_entries.1 listed⟩

/-- A constraint that is listed is the constraint of some tuple, and the other way round. -/
theorem Sound.mem_constraints (sound : database.Sound) :
    constraint ∈ database.constraints ↔
      ∃ name args, database.get? name args = some constraint := by
  simp only [constraints, Relation.constraints, List.mem_flatMap, List.mem_map,
    sound.get?_eq_some_iff]
  constructor
  · rintro ⟨entry, member, ⟨args, _⟩, listed, rfl⟩
    exact ⟨entry.1, args, entry, member, rfl, listed⟩
  · rintro ⟨_, args, entry, member, -, listed⟩
    exact ⟨entry, member, (args, constraint), listed, rfl⟩

/-- **The facts of a database are its fixed tuples.** -/
theorem Sound.mem_facts (sound : database.Sound) {stored : StoredFact} :
    stored ∈ database.facts ↔
      database.get? stored.name stored.args = some (.just stored.value) := by
  simp only [facts, List.mem_flatMap, List.mem_filterMap, Option.map_eq_some_iff,
    sound.get?_eq_some_iff]
  constructor
  · rintro ⟨entry, member, ⟨args, _ | _⟩, listed, _, ⟨⟩, rfl⟩
    exact ⟨entry, member, rfl, listed⟩
  · rintro ⟨⟨name, relation⟩, member, rfl, listed⟩
    exact ⟨_, member, _, listed, stored.value, rfl, rfl⟩

/-- **No narrowed tuple is counted exactly if there is none.** -/
theorem Sound.narrowed_eq_zero_iff (sound : database.Sound) :
    database.tally.narrowed = 0 ↔
      ∀ name args excluded, database.get? name args ≠ some (.noneOf excluded) := by
  rw [sound.tally, Tally.of, List.countP_eq_zero]
  constructor
  · intro none name args excluded found
    simpa [Constraint.isFixed] using none _ (sound.mem_constraints.2 ⟨name, args, found⟩)
  · intro none constraint member
    obtain ⟨name, args, found⟩ := sound.mem_constraints.1 member
    cases constraint with
    | just value => simp [Constraint.isFixed]
    | noneOf excluded => exact absurd found (none name args excluded)

/-! ### The index -/

/-- What the index finds behind a node: the value of a fixed leaf, or a position at which some
tuple goes on. -/
theorem mem_continuations {trie : Trie Constraint} (sound : trie.Sound) {last : Handle} :
    last ∈ continuations trie ↔
      trie.find? [] = some (.just last) ∨
        ∃ more constraint, trie.find? (last :: more) = some constraint := by
  cases sound with
  | leaf stored => cases stored <;> simp [continuations, Constraint.value?, eq_comm]
  | @node children ordered below inhabited =>
    rw [continuations, OrderedMap.keys, List.mem_map]
    constructor
    · rintro ⟨⟨key, child⟩, member, rfl⟩
      obtain ⟨more, constraint, found⟩ :=
        (below _ member).exists_find? (inhabited _ member)
      refine Or.inr ⟨more, constraint, ?_⟩
      rw [Trie.find?_cons_node, (OrderedMap.find?_eq_some_iff ordered).2 member]
      exact found
    · rintro (found | ⟨more, constraint, found⟩)
      · simp at found
      · rw [Trie.find?_cons_node] at found
        obtain ⟨child, hchild, -⟩ := Option.bind_eq_some_iff.1 found
        exact ⟨(last, child), (OrderedMap.find?_eq_some_iff ordered).1 hchild, rfl⟩

/-- What the index finds behind the node that a look-up reaches. -/
theorem exists_lookup_iff {trie : Trie Constraint} (sound : trie.Sound) {keys : List Handle}
    {last : Handle} :
    (∃ node, trie.lookup keys = some node ∧ last ∈ continuations node) ↔
      trie.find? keys = some (.just last) ∨
        ∃ more constraint, trie.find? (keys ++ last :: more) = some constraint := by
  constructor
  · rintro ⟨node, hnode, hlast⟩
    have hfound := (mem_continuations (sound.lookup hnode)).1 hlast
    simpa only [← Trie.find?_of_lookup hnode, List.append_nil] using hfound
  · rintro (found | ⟨more, constraint, found⟩)
    · exact ⟨_, Trie.find?_eq_some_iff_lookup.1 found, by simp [continuations, Constraint.value?]⟩
    · have reached := Trie.find?_eq_some_iff_lookup.1 found
      rw [Trie.lookup_append] at reached
      obtain ⟨node, hnode, hmore⟩ := Option.bind_eq_some_iff.1 reached
      refine ⟨node, hnode, (mem_continuations (sound.lookup hnode)).2 (Or.inr ?_)⟩
      exact ⟨more, constraint, Trie.find?_eq_some_iff_lookup.2 hmore⟩

/-- **What the index finds**: the rests of fixed tuples followed by their value, and the
beginnings of the rests of longer tuples. -/
theorem Sound.mem_visit (sound : database.Sound) {depth : Nat} {completion : List Handle} :
    completion ∈ database.visit name args (depth + 1) ↔
      ∃ rest last, completion = rest ++ [last] ∧ rest.length = depth ∧
        (database.get? name (args ++ rest) = some (.just last) ∨
          ∃ more constraint,
            database.get? name (args ++ rest ++ last :: more) = some constraint) := by
  rw [visit]
  cases hrelation : database.relation? name with
  | none => simp [get?, hrelation]
  | some relation =>
    have hsound := (sound.of_relation? hrelation).tuples
    have hget : ∀ keys, database.get? name keys = relation.tuples.find? keys := fun keys => by
      rw [get?, hrelation]
      rfl
    simp only [hget, ← exists_lookup_iff hsound]
    constructor
    · intro member
      cases hlookup : relation.tuples.lookup args with
      | none => simp [hlookup] at member
      | some trie =>
        simp only [hlookup, List.mem_flatMap, List.mem_map] at member
        obtain ⟨⟨rest, node⟩, hvisit, last, hlast, rfl⟩ := member
        obtain ⟨hlength, hnode⟩ := (hsound.lookup hlookup).mem_visit.1 hvisit
        refine ⟨rest, last, rfl, hlength, node, ?_, hlast⟩
        rw [Trie.lookup_append, hlookup]
        exact hnode
    · rintro ⟨rest, last, rfl, hlength, node, hnode, hlast⟩
      rw [Trie.lookup_append] at hnode
      obtain ⟨trie, htrie, hrest⟩ := Option.bind_eq_some_iff.1 hnode
      simp only [htrie, List.mem_flatMap, List.mem_map]
      exact ⟨(rest, node), (hsound.lookup htrie).mem_visit.2 ⟨hlength, hrest⟩, last, hlast, rfl⟩

end Database

end StableModels
