import Mathlib.Data.List.Basic
import StableModels.Proofs.Database
import StableModels.Proofs.Guarded
import StableModels.Proofs.TextOrder

/-!
# What a database lists

A database that was filled by settings is the finite map of the last settings, and all its listings
are views of one list, the **tuples** that have a constraint (`StableModels.Database.tuples`): the
facts are the fixed ones among them, the undetermined ones are the others, and the relation of a
predicate has those of its name.

The tuples ascend, by name and then by arguments (`StableModels.Database.Sound.pairwise_tuples`),
where names are ordered by their bytes. So every tuple is listed once, and the tallies, which are
kept up to date one setting at a time, are the lengths of the listings.

The main statement is `StableModels.Database.Filled.finite_map`.
-/

namespace StableModels

/-! ### Tallies -/

/-- A tally counts what it is the tally of. -/
theorem Tally.counts_of {constraints : List Constraint} {constraint : Constraint}
    (member : constraint ∈ constraints) : (of constraints).counts constraint = true := by
  rw [counts, of]
  cases fixed : constraint.isFixed with
  | true => simpa using ⟨constraint, member, fixed⟩
  | false => simpa using ⟨constraint, member, fixed⟩

namespace Database

/-- **Tallies never go below zero** in a sound database. -/
theorem Sound.inRange {database : Database} (sound : database.Sound) (name : String)
    (args : List Handle) : database.inRange name args = true := by
  rw [Database.inRange]
  cases found : database.get? name args with
  | none => rfl
  | some constraint =>
    have member := sound.mem_constraints.2 ⟨name, args, found⟩
    have hrelation := sound.getD_relation? name
    rw [get?_eq_getD, Relation.get?] at found
    have member' : constraint ∈ ((database.relation? name).getD {}).constraints :=
      List.mem_map.2 ⟨_, hrelation.tuples.mem_entries.2 found, rfl⟩
    rw [Option.all_some, sound.tally, hrelation.tally, Tally.counts_of member,
      Tally.counts_of member']
    rfl

/-! ### The list of the tuples -/

/-- A tuple of a predicate, with its constraint. -/
abbrev Tuple := String × List Handle × Constraint

/-- The tuples that a relation has under a name. -/
def tuplesOf (name : String) (relation : Relation) : List Tuple :=
  relation.entries.map fun tuple => (name, tuple.1, tuple.2)

/-- The tuples that have a constraint, ascending by predicate and then by arguments. -/
def tuples (database : Database) : List Tuple :=
  database.relations.toList.flatMap fun entry => tuplesOf entry.1 entry.2

/-- The first tuple comes before the second: its name has smaller bytes, or the names are the same
and its arguments are smaller, handle by handle. -/
def Before (first second : String × List Handle) : Prop :=
  Data.utf8 first.1 < Data.utf8 second.1 ∨ first.1 = second.1 ∧ first.2 < second.2

/-- The fact that a tuple is, if it is fixed. -/
def factOf? (tuple : Tuple) : Option StoredFact :=
  tuple.2.2.value?.map fun value => ⟨tuple.1, tuple.2.1, value⟩

variable {database : Database} {name : String} {relation : Relation}

theorem factOf?_isSome (tuple : Tuple) : (factOf? tuple).isSome = tuple.2.2.isFixed := by
  obtain ⟨name, args, _ | _⟩ := tuple <;> rfl

theorem factOf?_eq_some_iff {tuple : Tuple} {stored : StoredFact} :
    factOf? tuple = some stored ↔ tuple = (stored.name, stored.args, .just stored.value) := by
  obtain ⟨name', args', value'⟩ := stored
  obtain ⟨name, args, value | excluded⟩ := tuple <;> simp [factOf?, Constraint.value?]

/-- **The listed tuples are the graph of the look-up.** -/
theorem Sound.mem_tuples (sound : database.Sound) {tuple : Tuple} :
    tuple ∈ database.tuples ↔ database.get? tuple.1 tuple.2.1 = some tuple.2.2 := by
  simp only [tuples, tuplesOf, List.mem_flatMap, List.mem_map, sound.get?_eq_some_iff]
  constructor
  · rintro ⟨entry, member, ⟨args, constraint⟩, listed, rfl⟩
    exact ⟨entry, member, rfl, listed⟩
  · rintro ⟨entry, member, heq, listed⟩
    exact ⟨entry, member, _, listed, by rw [heq]⟩

/-- **The tuples ascend.** -/
theorem Sound.pairwise_tuples (sound : database.Sound) :
    database.tuples.Pairwise fun first second =>
      Before (first.1, first.2.1) (second.1, second.2.1) := by
  rw [tuples, List.pairwise_flatMap]
  constructor
  · intro entry member
    rw [tuplesOf, List.pairwise_map]
    have ascending := (sound.relations entry member).tuples.pairwise_entries
    exact ascending.imp fun later => Or.inr ⟨rfl, later⟩
  · refine sound.ordered.imp fun {first second} hlt => ?_
    simp only [tuplesOf, List.mem_map]
    rintro _ ⟨tuple, -, rfl⟩ _ ⟨tuple', -, rfl⟩
    exact Or.inl (compare_eq_lt_iff_utf8.1 hlt)

theorem filter_tuplesOf (other : String) (relation : Relation) :
    ((tuplesOf other relation).filter fun tuple => tuple.1 = name) =
      if other = name then tuplesOf other relation else [] := by
  rw [tuplesOf, List.filter_map]
  split
  · next same => simp [same, Function.comp_def]
  · next differ => simp [differ, Function.comp_def]

/-- **The tuples of one name are those of its relation.** -/
theorem Sound.filter_tuples (sound : database.Sound)
    (found : database.relation? name = some relation) :
    (database.tuples.filter fun tuple => tuple.1 = name) = tuplesOf name relation := by
  obtain ⟨front, back, hlist⟩ := List.append_of_mem (sound.relation?_eq_some_iff.1 found)
  have ordered := sound.ordered
  rw [OrderedMap.Ordered, hlist, List.pairwise_append, List.pairwise_cons] at ordered
  obtain ⟨-, ⟨above, -⟩, below⟩ := ordered
  -- Relations of other names have no tuple of this name.
  have foreign {others : List (String × Relation)} (differ : ∀ entry ∈ others, entry.1 ≠ name) :
      (others.flatMap fun entry =>
        (tuplesOf entry.1 entry.2).filter fun tuple => tuple.1 = name) = [] := by
    refine List.flatMap_eq_nil_iff.2 fun entry member => ?_
    rw [filter_tuplesOf, if_neg (differ entry member)]
  have hfront : ∀ entry ∈ front, entry.1 ≠ name := by
    rintro entry member rfl
    simpa [Std.ReflCmp.compare_self] using below entry member _ List.mem_cons_self
  have hback : ∀ entry ∈ back, entry.1 ≠ name := by
    rintro entry member rfl
    simpa [Std.ReflCmp.compare_self] using above entry member
  rw [tuples, hlist, List.filter_flatMap, List.flatMap_append, List.flatMap_cons, foreign hfront,
    foreign hback, filter_tuplesOf, if_pos rfl, List.nil_append, List.append_nil]

theorem constraints_eq (database : Database) :
    database.constraints = database.tuples.map fun tuple => tuple.2.2 := by
  simp [constraints, tuples, tuplesOf, Relation.constraints, List.map_flatMap, Function.comp_def]

/-! ### Facts and undetermined tuples -/

theorem facts_eq (database : Database) : database.facts = database.tuples.filterMap factOf? := by
  simp only [facts, tuples, tuplesOf, List.filterMap_flatMap, List.filterMap_map]
  rfl

/-- A relation that is passed over, because it counts no narrowed tuple, has none. -/
theorem Sound.undetermined_eq (sound : database.Sound) :
    database.undetermined = database.tuples.filter fun tuple => !tuple.2.2.isFixed := by
  rw [undetermined, tuples, List.filter_flatMap]
  refine List.flatMap_congr fun entry member => ?_
  rw [tuplesOf, List.filter_map]
  split
  · next none =>
    rw [(sound.relations entry member).tally, Tally.of, List.countP_eq_zero] at none
    rw [eq_comm, List.map_eq_nil_iff, List.filter_eq_nil_iff]
    exact fun tuple listed => none _ (List.mem_map_of_mem listed)
  · rfl

theorem Sound.pairwise_facts (sound : database.Sound) :
    database.facts.Pairwise fun first second =>
      Before (first.name, first.args) (second.name, second.args) := by
  rw [facts_eq, List.pairwise_filterMap]
  refine sound.pairwise_tuples.imp fun {first second} before fact hfact fact' hfact' => ?_
  rw [factOf?_eq_some_iff] at hfact hfact'
  subst hfact hfact'
  exact before

/-- How many constraints there are of either kind. -/
theorem Sound.tally_eq (sound : database.Sound) :
    database.tally.fixed = database.facts.length ∧
      database.tally.narrowed = database.undetermined.length := by
  rw [sound.tally, Tally.of, constraints_eq, List.countP_map, List.countP_map, facts_eq,
    List.length_filterMap_eq_countP, sound.undetermined_eq, ← List.countP_eq_length_filter]
  simp only [factOf?_isSome]
  exact ⟨rfl, rfl⟩

/-- How many constraints there are of either kind in one relation. -/
theorem Sound.tally_relation (sound : database.Sound)
    (found : database.relation? name = some relation) :
    relation.tally.fixed = (database.facts.filter fun fact => fact.name = name).length ∧
      relation.tally.narrowed =
        (database.undetermined.filter fun tuple => tuple.1 = name).length := by
  have here := sound.filter_tuples found
  have hfacts : (database.facts.filter fun fact => fact.name = name) =
      (tuplesOf name relation).filterMap factOf? := by
    rw [facts_eq, List.filter_filterMap, ← here, List.filterMap_filter]
    refine List.filterMap_congr fun tuple _ => ?_
    by_cases same : tuple.1 = name <;> obtain ⟨_, _, _ | _⟩ := tuple <;>
      simp_all [factOf?, Constraint.value?]
  have hundetermined : (database.undetermined.filter fun tuple => tuple.1 = name) =
      (tuplesOf name relation).filter fun tuple => !tuple.2.2.isFixed := by
    simp only [sound.undetermined_eq, ← here, List.filter_filter, Bool.and_comm]
  rw [hfacts, hundetermined, List.length_filterMap_eq_countP, ← List.countP_eq_length_filter,
    (sound.of_relation? found).tally, Tally.of, Relation.constraints, List.countP_map,
    List.countP_map, tuplesOf, List.countP_map, List.countP_map]
  simp only [factOf?_isSome]
  exact ⟨rfl, rfl⟩

/-! ### Settings -/

/-- One constraint to be set. -/
structure Setting where
  /-- The predicate. -/
  name : String
  /-- The arguments. -/
  args : List Handle
  /-- The constraint. -/
  constraint : Constraint

/-- A database that was filled from the empty one by settings, the latest first, of which none was
refused. -/
inductive Filled : List Setting → Database → Prop where
  /-- Nothing was set. -/
  | empty : Filled [] empty
  /-- One more constraint was set. -/
  | set {settings : List Setting} {database after : Database} {setting : Setting}
      {old : Option Constraint} (filled : Filled settings database)
      (set : database.set setting.name setting.args setting.constraint = .ok (after, old)) :
      Filled (setting :: settings) after

/-- The constraint that was last set for a tuple. -/
def lastSet? (name : String) (args : List Handle) : List Setting → Option Constraint
  | [] => none
  | setting :: settings =>
    if name = setting.name ∧ args = setting.args then some setting.constraint
    else lastSet? name args settings

variable {settings : List Setting}

theorem Filled.sound (filled : Filled settings database) : database.Sound := by
  induction filled with
  | empty => exact sound_empty
  | set _ set ih => exact ih.set set

theorem Filled.get?_eq (filled : Filled settings database) (name : String) (args : List Handle) :
    database.get? name args = lastSet? name args settings := by
  induction filled with
  | empty => rfl
  | set filled set ih => rw [filled.sound.get?_set set, ih, lastSet?]

/-- A setting reports the constraint that it replaces. -/
theorem Sound.set_eq_get? (sound : database.Sound) {args : List Handle} {constraint : Constraint}
    {after : Database} {old : Option Constraint}
    (set : database.set name args constraint = .ok (after, old)) :
    old = database.get? name args := by
  obtain ⟨relation, hset, -⟩ := exists_of_set set
  rw [get?_eq_getD]
  exact ((sound.getD_relation? name).set hset).2.1

/-- **A database is a finite map with its counts.** After any settings that were not refused, the
constraint of a tuple is the last one set for it; one more setting reports the constraint that it
replaces, which the tallies of the database and of the relation have counted, so that none of them
goes below zero. The facts are the tuples that were last fixed, and the undetermined tuples are
those that were last narrowed, each listed once, ascending by the bytes of the name and then by the
arguments. The tallies are the lengths of the two lists, and those of a relation the lengths of the
lists of its name. -/
theorem Filled.finite_map (filled : Filled settings database) :
    (∀ name args, database.get? name args = lastSet? name args settings) ∧
      (∀ name args constraint after old,
        database.set name args constraint = .ok (after, old) →
          old = lastSet? name args settings ∧
            ∀ replaced, old = some replaced → database.tally.counts replaced = true ∧
              ∃ relation, database.relation? name = some relation ∧
                relation.tally.counts replaced = true) ∧
        (database.facts.Pairwise (fun first second =>
            Before (first.name, first.args) (second.name, second.args)) ∧
          ∀ fact, fact ∈ database.facts ↔
            lastSet? fact.name fact.args settings = some (.just fact.value)) ∧
          (database.undetermined.Pairwise (fun first second =>
              Before (first.1, first.2.1) (second.1, second.2.1)) ∧
            ∀ name args constraint, (name, args, constraint) ∈ database.undetermined ↔
              lastSet? name args settings = some constraint ∧
                ∃ excluded, constraint = .noneOf excluded) ∧
            (database.tally.fixed = database.facts.length ∧
              database.tally.narrowed = database.undetermined.length) ∧
              ∀ name relation, database.relation? name = some relation →
                relation.tally.fixed = (database.facts.filter fun fact => fact.name = name).length ∧
                  relation.tally.narrowed =
                    (database.undetermined.filter fun tuple => tuple.1 = name).length := by
  have sound := filled.sound
  have get := filled.get?_eq
  refine ⟨get, ?_, ⟨sound.pairwise_facts, fun fact => ?_⟩, ⟨?_, ?_⟩, sound.tally_eq,
    fun name relation found => sound.tally_relation found⟩
  · intro name args constraint after old set
    have reported := sound.set_eq_get? set
    refine ⟨reported.trans (get name args), ?_⟩
    rintro replaced rfl
    have counted := sound.inRange name args
    rw [inRange, ← reported, Option.all_some, Bool.and_eq_true] at counted
    cases hrelation : database.relation? name with
    | none => simp [get?, hrelation] at reported
    | some relation =>
      rw [hrelation] at counted
      exact ⟨counted.1, relation, rfl, counted.2⟩
  · rw [sound.mem_facts, get]
  · rw [sound.undetermined_eq]
    exact sound.pairwise_tuples.filter _
  · intro name args constraint
    rw [sound.undetermined_eq, List.mem_filter, sound.mem_tuples, get]
    refine and_congr_right fun _ => ?_
    cases constraint <;> simp [Constraint.isFixed]

/-- A tuple is fixed that was narrowed before, and another one stays narrowed; the latest setting
comes first. -/
def replacements : List Setting :=
  [⟨"é", [4], .just 3⟩, ⟨"é", [4], .noneOf (.ofList [5])⟩, ⟨"z", [4], .noneOf (.ofList [3])⟩]

/-- The tuple that was fixed is counted once, and its name stands last. -/
theorem Filled.finite_map_replacements :
    ∃ database, Filled replacements database ∧
      database.get? "é" [4] = some (.just 3) ∧
        database.names = ["z", "é"] ∧
          ⟨"é", [4], 3⟩ ∈ database.facts ∧
            database.tally.fixed = database.facts.length ∧
              database.tally = ⟨1, 1⟩ := by
  have filled : Filled replacements _ := .set (.set (.set .empty rfl) rfl) rfl
  obtain ⟨get, -, ⟨-, facts⟩, -, ⟨fixed, -⟩, -⟩ := filled.finite_map
  exact ⟨_, filled, get _ _, rfl, (facts _).2 rfl, fixed, rfl⟩

end Database

end StableModels
