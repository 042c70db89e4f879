import StableModels.Proofs.Database
import StableModels.Proofs.Machine

/-!
# The elementary changes of partial models

A partial model is **sound** if its database and the tries of its intermediates are. A tuple that is
derived or a fact that is asserted is there already, or kills, or joins the agenda
(`StableModels.PartialModel.Derivation`, `StableModels.PartialModel.Assertion`). Both have the same
effect, up to the kind of the news: if the partial model survives, then the news is known afterwards
and waits on the agenda unless it was known before, no tuple has changed but the one that the news
is about, and that tuple was free to take its value (`StableModels.PartialModel.Learns`).
Registering a choice only adds to what the entry of its key offers
(`StableModels.PartialModel.exists_of_mem_registerIn`).

Whatever happens to a partial model that survives, it **evolves**: what is known stays known, what
is excluded stays excluded unless the tuple is fixed to another value
(`StableModels.PartialModel.Evolves`).
-/

namespace StableModels

/-! ### Keys of choices -/

theorem ChoiceKey.eq_of_compare {first second : ChoiceKey} (heq : first.compare second = .eq) :
    first = second := by
  obtain ⟨name, args⟩ := first
  obtain ⟨name', args'⟩ := second
  rw [ChoiceKey.compare, Ordering.then_eq_eq] at heq
  have hargs : Ord.compare args args' = .eq := heq.2
  exact ChoiceKey.mk.injEq .. ▸
    ⟨Std.LawfulEqCmp.eq_of_compare heq.1, Std.LawfulEqCmp.eq_of_compare hargs⟩

namespace PartialModel

/-! ### Registered choices -/

/-- The entry offers these values at least, and is exhaustive if it has to be. -/
def Covers (entry : ChoiceKey × Choice) (key : ChoiceKey) (choice : Choice) : Prop :=
  entry.1 = key ∧ (choice.exhaustive = true → entry.2.exhaustive = true) ∧
    ∀ value ∈ choice.values, value ∈ entry.2.values

theorem Covers.refl (entry : ChoiceKey × Choice) : Covers entry entry.1 entry.2 :=
  ⟨rfl, id, fun _ => id⟩

theorem Covers.trans {entry other : ChoiceKey × Choice} {key : ChoiceKey} {choice : Choice}
    (hentry : Covers entry other.1 other.2) (hother : Covers other key choice) :
    Covers entry key choice :=
  ⟨hentry.1.trans hother.1, fun exhaustive => hentry.2.1 (hother.2.1 exhaustive),
    fun value member => hentry.2.2 value (hother.2.2 value member)⟩

/-- What two choices come to covers the first of them. -/
theorem covers_merge_left (key : ChoiceKey) (first second : Choice) :
    Covers (key, first.merge second) key first := by
  refine ⟨rfl, ?_, ?_⟩
  · intro exhaustive
    simp [Choice.merge, exhaustive]
  · intro value member
    exact HandleSet.mem_union.2 (Or.inl member)

/-- What two choices come to covers the second of them. -/
theorem covers_merge_right (key : ChoiceKey) (first second : Choice) :
    Covers (key, first.merge second) key second := by
  refine ⟨rfl, ?_, ?_⟩
  · intro exhaustive
    simp [Choice.merge, exhaustive]
  · intro value member
    exact HandleSet.mem_union.2 (Or.inr member)

/-- The choice that is registered has an entry that covers it. -/
theorem exists_covers_registerIn (key : ChoiceKey) (choice : Choice)
    (choices : List (ChoiceKey × Choice)) :
    ∃ entry ∈ registerIn key choice choices, Covers entry key choice := by
  induction choices with
  | nil => exact ⟨(key, choice), List.mem_singleton.2 rfl, Covers.refl _⟩
  | cons entry choices ih =>
    obtain ⟨other, registered⟩ := entry
    rw [registerIn]
    split
    · exact ⟨_, List.mem_cons_self, Covers.refl _⟩
    · next heq =>
      obtain rfl := ChoiceKey.eq_of_compare heq
      exact ⟨_, List.mem_cons_self, covers_merge_right key registered choice⟩
    · obtain ⟨entry, member, covers⟩ := ih
      exact ⟨entry, List.mem_cons_of_mem _ member, covers⟩

/-- Every entry that was there is covered afterwards. -/
theorem exists_covers_of_mem {key : ChoiceKey} {choice : Choice}
    {choices : List (ChoiceKey × Choice)} {entry : ChoiceKey × Choice} (member : entry ∈ choices) :
    ∃ after ∈ registerIn key choice choices, Covers after entry.1 entry.2 := by
  induction choices with
  | nil => cases member
  | cons first choices ih =>
    obtain ⟨other, registered⟩ := first
    rw [registerIn]
    split
    · exact ⟨entry, List.mem_cons_of_mem _ member, Covers.refl entry⟩
    · rcases List.mem_cons.1 member with rfl | member
      · exact ⟨_, List.mem_cons_self, covers_merge_left other registered choice⟩
      · exact ⟨entry, List.mem_cons_of_mem _ member, Covers.refl entry⟩
    · rcases List.mem_cons.1 member with rfl | member
      · exact ⟨_, List.mem_cons_self, Covers.refl _⟩
      · obtain ⟨after, hafter, covers⟩ := ih member
        exact ⟨after, List.mem_cons_of_mem _ hafter, covers⟩

/-- An entry is one that was there, or the new one, or what the two of them come to. -/
theorem exists_of_mem_registerIn {key : ChoiceKey} {choice : Choice}
    {choices : List (ChoiceKey × Choice)} {entry : ChoiceKey × Choice}
    (member : entry ∈ registerIn key choice choices) :
    entry ∈ choices ∨ entry = (key, choice) ∨
      ∃ registered, (key, registered) ∈ choices ∧ entry = (key, registered.merge choice) := by
  induction choices with
  | nil => exact Or.inr (Or.inl (List.mem_singleton.1 member))
  | cons first choices ih =>
    obtain ⟨other, registered⟩ := first
    rw [registerIn] at member
    split at member
    · rcases List.mem_cons.1 member with rfl | member
      · exact Or.inr (Or.inl rfl)
      · exact Or.inl member
    · next heq =>
      obtain rfl := ChoiceKey.eq_of_compare heq
      rcases List.mem_cons.1 member with rfl | member
      · exact Or.inr (Or.inr ⟨registered, List.mem_cons_self, rfl⟩)
      · exact Or.inl (List.mem_cons_of_mem _ member)
    · rcases List.mem_cons.1 member with rfl | member
      · exact Or.inl List.mem_cons_self
      · rcases ih member with member | rfl | ⟨registered', hmem, rfl⟩
        · exact Or.inl (List.mem_cons_of_mem _ member)
        · exact Or.inr (Or.inl rfl)
        · exact Or.inr (Or.inr ⟨registered', List.mem_cons_of_mem _ hmem, rfl⟩)

/-! ### Sound partial models -/

/-- The database and the tries of the intermediates are sound. -/
structure Sound (model : PartialModel) : Prop where
  /-- The database is sound. -/
  database : model.database.Sound
  /-- The intermediates ascend by name. -/
  ordered : model.tuples.Ordered compare
  /-- The tries are sound. -/
  tries : ∀ entry ∈ model.tuples.toList, entry.2.Sound

variable {rules : RuleSet} {model before after : PartialModel} {name other : String}
  {args others : List Handle} {value : Handle}

theorem sound_empty : Sound {} := ⟨Database.sound_empty, OrderedMap.ordered_empty, by simp⟩

theorem Sound.tuplesOf (sound : model.Sound) (name : String) : (model.tuplesOf name).Sound := by
  rw [PartialModel.tuplesOf]
  cases found : model.tuples.find? compare name with
  | none => exact Trie.sound_empty
  | some trie => exact sound.tries _ ((OrderedMap.find?_eq_some_iff sound.ordered).1 found)

/-- An intermediate derives some tuple exactly if its trie is not empty. -/
theorem Sound.derivesSome_iff (sound : model.Sound) :
    model.derivesSome name = true ↔ ∃ args, model.derives name args = true := by
  rw [derivesSome, Bool.not_eq_true']
  constructor
  · intro inhabited
    obtain ⟨args, payload, found⟩ := (sound.tuplesOf name).exists_find? inhabited
    exact ⟨args, by rw [derives, found]; rfl⟩
  · rintro ⟨args, found⟩
    rw [derives, Option.isSome_iff_exists] at found
    obtain ⟨payload, found⟩ := found
    by_contra hempty
    rw [Bool.not_eq_false] at hempty
    rw [Trie.eq_empty_of_isEmpty hempty, Trie.find?_empty] at found
    cases found

/-- **What the index of an intermediate finds**: the rests of its derived tuples. -/
theorem Sound.mem_completions (sound : model.Sound) {start rest : List Handle} {depth : Nat} :
    rest ∈ model.completions name start depth ↔
      rest.length = depth ∧ model.derives name (start ++ rest) = true := by
  have hsound := sound.tuplesOf name
  rw [completions, derives, Trie.find?, Trie.lookup_append]
  cases hlookup : (model.tuplesOf name).lookup start with
  | none => simp
  | some trie =>
    simp only [List.mem_map, List.mem_filter, Option.bind_some]
    constructor
    · rintro ⟨⟨keys, node⟩, ⟨hvisit, hpayload⟩, rfl⟩
      obtain ⟨hlength, hnode⟩ := (hsound.lookup hlookup).mem_visit.1 hvisit
      refine ⟨hlength, ?_⟩
      rw [hnode]
      exact hpayload
    · rintro ⟨hlength, hpayload⟩
      cases hnode : trie.lookup rest with
      | none => simp [hnode] at hpayload
      | some node =>
        refine ⟨(rest, node), ⟨(hsound.lookup hlookup).mem_visit.2 ⟨hlength, hnode⟩, ?_⟩, rfl⟩
        simpa [hnode] using hpayload

@[simp] theorem mem_known_fact :
    News.fact name args value ∈ model.known ↔ model.database.get? name args = some (.just value) :=
  Iff.rfl

@[simp] theorem mem_known_tuple :
    News.tuple name args ∈ model.known ↔ model.derives name args = true := Iff.rfl

/-! ### Evolution -/

/-- The second partial model says all that the first one says: nothing known is forgotten, and no
exclusion is lifted unless the tuple is fixed to another value. -/
structure Refines (before after : PartialModel) : Prop where
  /-- The dead stay dead. -/
  alive : after.isDead = false → before.isDead = false
  /-- What is known stays known. -/
  known : before.known ⊆ after.known
  /-- What is excluded stays excluded, or the tuple is fixed to another value. -/
  excluded : ∀ name args excluded, before.database.get? name args = some (.noneOf excluded) →
    (∃ more, after.database.get? name args = some (.noneOf more) ∧
        ∀ value ∈ excluded, value ∈ more) ∨
      ∃ value, after.database.get? name args = some (.just value) ∧ value ∉ excluded

/-- The second partial model may come after the first one without an examination: it refines it, and
every registered choice still has an entry. -/
structure Evolves (before after : PartialModel) : Prop extends Refines before after where
  /-- Every entry is covered. -/
  choices : ∀ entry ∈ before.choices, ∃ other ∈ after.choices, Covers other entry.1 entry.2

theorem Refines.refl (model : PartialModel) : Refines model model where
  alive := id
  known := fun _ => id
  excluded := fun _ _ excluded found => Or.inl ⟨excluded, found, fun _ => id⟩

theorem Refines.trans {first second third : PartialModel} (hfirst : Refines first second)
    (hsecond : Refines second third) : Refines first third where
  alive := fun survives => hfirst.alive (hsecond.alive survives)
  known := fun _ member => hsecond.known (hfirst.known member)
  excluded := by
    intro name args excluded found
    rcases hfirst.excluded name args excluded found with ⟨more, hmore, subset⟩ |
      ⟨value, fixed, free⟩
    · rcases hsecond.excluded name args more hmore with ⟨most, hmost, subset'⟩ |
        ⟨value, fixed, free⟩
      · exact Or.inl ⟨most, hmost, fun value member => subset' value (subset value member)⟩
      · exact Or.inr ⟨value, fixed, fun member => free (subset value member)⟩
    · have fixed' : News.fact name args value ∈ third.known := hsecond.known fixed
      exact Or.inr ⟨value, fixed', free⟩

theorem Evolves.refl (model : PartialModel) : Evolves model model where
  toRefines := .refl model
  choices := fun entry member => ⟨entry, member, .refl entry⟩

theorem Evolves.trans {first second third : PartialModel} (hfirst : Evolves first second)
    (hsecond : Evolves second third) : Evolves first third where
  toRefines := hfirst.toRefines.trans hsecond.toRefines
  choices := by
    intro entry member
    obtain ⟨other, hother, covers⟩ := hfirst.choices entry member
    obtain ⟨last, hlast, covers'⟩ := hsecond.choices other hother
    exact ⟨last, hlast, covers'.trans covers⟩

/-! ### The agenda -/

/-- What is known and waits no more. -/
def propagated (model : PartialModel) : Set News :=
    {news | news ∈ model.known ∧ news ∉ model.agenda}

/-- What is new waits on the agenda, behind what waited there before. -/
def Queues (before after : PartialModel) : Prop :=
  ∃ extra, after.agenda = before.agenda ++ extra ∧
    ∀ news, news ∈ after.known ↔ news ∈ before.known ∨ news ∈ extra

theorem Queues.refl (model : PartialModel) : Queues model model := ⟨[], by simp, by simp⟩

theorem Queues.trans {first second third : PartialModel} (hfirst : Queues first second)
    (hsecond : Queues second third) : Queues first third := by
  obtain ⟨extra, agenda, known⟩ := hfirst
  obtain ⟨more, agenda', known'⟩ := hsecond
  refine ⟨extra ++ more, by rw [agenda', agenda, List.append_assoc], ?_⟩
  intro news
  rw [known', known, List.mem_append, or_assoc]

theorem Queues.known_subset (queues : Queues before after) : before.known ⊆ after.known :=
  have ⟨_, _, known⟩ := queues
  fun news member => (known news).2 (Or.inl member)

/-- Nothing is propagated without having waited. -/
theorem Queues.propagated_subset (queues : Queues before after) :
    after.propagated ⊆ before.propagated := by
  obtain ⟨extra, agenda, known⟩ := queues
  rintro news ⟨member, waits⟩
  rw [agenda, List.mem_append, not_or] at waits
  exact ⟨((known news).1 member).resolve_right waits.2, waits.1⟩

theorem Queues.agenda_known (queues : Queues before after)
    (agenda_known : ∀ news ∈ before.agenda, news ∈ before.known) :
    ∀ news ∈ after.agenda, news ∈ after.known := by
  obtain ⟨extra, agenda, known⟩ := queues
  intro news member
  rw [agenda, List.mem_append] at member
  exact (known news).2 (member.imp_left (agenda_known news))

/-! ### What elementary changes do -/

/-- A constraint is put into the database, and nothing else changes. -/
theorem exists_of_constrain {constraint : Constraint}
    (constrained : model.constrain name args constraint = .ok after) :
    ∃ database old, model.database.set name args constraint = .ok (database, old) ∧
      after = { model with database := database } := by
  rw [constrain] at constrained
  split at constrained
  · cases constrained
  · next database old set => exact ⟨database, old, set, (Except.ok.inj constrained).symm⟩

/-- A fact is put into the database and onto the agenda, and nothing else changes. -/
theorem exists_of_fix (fixed : model.fix name args value = .ok after) :
    ∃ database old, model.database.set name args (.just value) = .ok (database, old) ∧
      after = { model with
        database := database
        agenda := model.agenda ++ [.fact name args value] } := by
  rw [fix] at fixed
  split at fixed
  · cases fixed
  · next constrained =>
    obtain ⟨database, old, set, rfl⟩ := exists_of_constrain constrained
    exact ⟨database, old, set, (Except.ok.inj fixed).symm⟩

/-- **What becomes of a partial model when a tuple is derived.** -/
inductive Derivation (rules : RuleSet) (name : String) (args : List Handle)
    (model : PartialModel) : PartialModel → Prop where
  /-- The tuple is there already. -/
  | known {trie : Trie Unit}
      (inserted : (model.tuplesOf name).insert args () = .ok (trie, some ())) :
      Derivation rules name args model model
  /-- The tuple is new and kills. -/
  | kills {trie : Trie Unit} (inserted : (model.tuplesOf name).insert args () = .ok (trie, none))
      (forbidden : rules.isForbidden name = true) :
      Derivation rules name args model
        (kill (.forbidden name) { model with tuples := model.tuples.put compare name trie })
  /-- The tuple is new and joins the agenda. -/
  | joins {trie : Trie Unit} (inserted : (model.tuplesOf name).insert args () = .ok (trie, none))
      (allowed : rules.isForbidden name = false) :
      Derivation rules name args model { model with
        tuples := model.tuples.put compare name trie
        agenda := model.agenda ++ [.tuple name args] }

theorem derivation_of_derive (derived : model.derive rules name args = .ok after) :
    Derivation rules name args model after := by
  rw [derive] at derived
  split at derived
  · cases derived
  · next trie inserted => exact Except.ok.inj derived ▸ .known inserted
  · next trie inserted =>
    split at derived
    · next forbidden => exact Except.ok.inj derived ▸ .kills inserted forbidden
    · next allowed =>
      exact Except.ok.inj derived ▸ .joins inserted (Bool.not_eq_true _ ▸ allowed)

theorem exists_of_plant_cons {seed : String} {seeds : List String}
    (planted : model.plant rules (seed :: seeds) = .ok after) :
    ∃ middle, model.derive rules seed [] = .ok middle ∧ middle.plant rules seeds = .ok after := by
  rw [plant] at planted
  split at planted
  · cases planted
  · next middle derived => exact ⟨middle, derived, planted⟩

/-- **What is preserved when seeds are derived** is preserved when they are planted. -/
theorem plant_induct (holds : PartialModel → Prop) {seeds : List String} (start : holds model)
    (derive : ∀ seed ∈ seeds, ∀ before after, holds before →
      before.derive rules seed [] = .ok after → holds after)
    (planted : model.plant rules seeds = .ok after) : holds after := by
  induction seeds generalizing model with
  | nil => exact Except.ok.inj planted ▸ start
  | cons seed seeds ih =>
    obtain ⟨middle, derived, rest⟩ := exists_of_plant_cons planted
    have first := derive seed List.mem_cons_self model middle start derived
    exact ih first (fun other member => derive other (List.mem_cons_of_mem _ member)) rest

/-- **What becomes of a partial model when a fact is asserted.** -/
inductive Assertion (name : String) (args : List Handle) (value : Handle)
    (model : PartialModel) : PartialModel → Prop where
  /-- The fact is there already. -/
  | known (found : model.database.get? name args = some (.just value)) :
      Assertion name args value model model
  /-- The fact contradicts what is known of its tuple. -/
  | kills {constraint : Constraint} (found : model.database.get? name args = some constraint)
      (refuses : constraint.admits value = false) :
      Assertion name args value model (model.kill (.conflict name))
  /-- The fact is new and joins the agenda. -/
  | joins {database : Database} {old : Option Constraint}
      (free : ∀ known, model.database.get? name args ≠ some (.just known))
      (admitted : ∀ excluded, model.database.get? name args = some (.noneOf excluded) →
        value ∉ excluded)
      (set : model.database.set name args (.just value) = .ok (database, old)) :
      Assertion name args value model { model with
        database := database
        agenda := model.agenda ++ [.fact name args value] }

theorem assertion_of_assert (asserted : model.assert name args value = .ok after) :
    Assertion name args value model after := by
  rw [assert] at asserted
  split at asserted
  · next unknown =>
    obtain ⟨database, old, set, rfl⟩ := exists_of_fix asserted
    exact .joins (by simp [unknown]) (by simp [unknown]) set
  · next known found =>
    split at asserted
    · next heq => exact Except.ok.inj asserted ▸ .known (heq ▸ found)
    · next hne => exact Except.ok.inj asserted ▸ .kills found (by simp [Constraint.admits, hne])
  · next excluded found =>
    split at asserted
    · next contained =>
      exact Except.ok.inj asserted ▸ .kills found (by simpa [Constraint.admits] using contained)
    · next spared =>
      obtain ⟨database, old, set, rfl⟩ := exists_of_fix asserted
      refine .joins (by simp [found]) ?_ set
      intro other hother
      obtain rfl := Constraint.noneOf.inj (Option.some.inj (found.symm.trans hother))
      simpa using spared

/-! ### Learning -/

/-- The partial model survived learning this piece of news. -/
structure Learns (news : News) (before after : PartialModel) : Prop where
  /-- It was alive before. -/
  alive : before.isDead = false
  /-- It stays sound. -/
  sound : after.Sound
  /-- The news is known, and nothing else is new. -/
  known : ∀ other, other ∈ after.known ↔ other = news ∨ other ∈ before.known
  /-- The news waits on the agenda, unless it is none. -/
  agenda : after.agenda = before.agenda ∧ news ∈ before.known ∨
    after.agenda = before.agenda ++ [news]
  /-- The choices are as before. -/
  choices : after.choices = before.choices
  /-- No tuple has changed but the one that was fixed, which was free to take its value. -/
  get? : ∀ name args, after.database.get? name args = before.database.get? name args ∨
    ∃ value, news = .fact name args value ∧ after.database.get? name args = some (.just value) ∧
      ∀ excluded, before.database.get? name args = some (.noneOf excluded) → value ∉ excluded

theorem Learns.evolves {news : News} (learns : Learns news before after) :
    Evolves before after where
  alive := fun _ => learns.alive
  known := fun other member => (learns.known other).2 (Or.inr member)
  excluded := by
    intro name args excluded found
    rcases learns.get? name args with same | ⟨value, -, fixed, free⟩
    · exact Or.inl ⟨excluded, same.trans found, fun _ => id⟩
    · exact Or.inr ⟨value, fixed, free excluded found⟩
  choices := by
    rw [learns.choices]
    exact (Evolves.refl before).choices

theorem Learns.queues {news : News} (learns : Learns news before after) : Queues before after := by
  rcases learns.agenda with ⟨same, known⟩ | appended
  · refine ⟨[], by rw [same, List.append_nil], ?_⟩
    intro other
    rw [learns.known]
    exact ⟨fun h => Or.inl (h.elim (fun heq => heq ▸ known) id), fun h => Or.inr (by simpa using h)⟩
  · refine ⟨[news], appended, ?_⟩
    intro other
    rw [learns.known, List.mem_singleton, or_comm]

/-- Learning what is known already changes nothing. -/
theorem Learns.of_known {news : News} (sound : model.Sound) (alive : model.isDead = false)
    (known : news ∈ model.known) : Learns news model model where
  alive := alive
  sound := sound
  known := fun _ => ⟨Or.inr, fun hother => hother.elim (fun heq => heq ▸ known) id⟩
  agenda := Or.inl ⟨rfl, known⟩
  choices := rfl
  get? := fun _ _ => Or.inl rfl

theorem derives_put {trie : Trie Unit} (sound : model.Sound)
    (inserted : (model.tuplesOf name).insert args () = .ok (trie, none)) (other : String)
    (others : List Handle) :
    derives other others { model with tuples := model.tuples.put compare name trie } = true ↔
      other = name ∧ others = args ∨ model.derives other others = true := by
  obtain ⟨-, -, -, hfind⟩ := (sound.tuplesOf name).insert inserted
  rw [derives, PartialModel.tuplesOf, OrderedMap.find?_put sound.ordered]
  by_cases heq : other = name
  · subst heq
    simp only [if_true, Option.getD_some, hfind]
    by_cases hargs : others = args <;> simp [hargs, derives]
  · simp [heq, derives, PartialModel.tuplesOf]

theorem sound_put {trie : Trie Unit} (sound : model.Sound)
    (inserted : (model.tuplesOf name).insert args () = .ok (trie, none)) :
    Sound { model with tuples := model.tuples.put compare name trie } := by
  obtain ⟨hsound, -⟩ := (sound.tuplesOf name).insert inserted
  have ordered := OrderedMap.ordered_put sound.ordered name trie
  refine ⟨sound.database, ordered, ?_⟩
  intro entry member
  have found := (OrderedMap.find?_eq_some_iff ordered).2 member
  rw [OrderedMap.find?_put sound.ordered] at found
  split at found
  · exact Option.some.inj found ▸ hsound
  · exact sound.tries _ ((OrderedMap.find?_eq_some_iff sound.ordered).1 found)

/-- **Deriving a tuple**, if the partial model survives it. -/
theorem Sound.learns_derive (sound : model.Sound)
    (derived : model.derive rules name args = .ok after) (survives : after.isDead = false) :
    Learns (.tuple name args) model after ∧
      (rules.isForbidden name = true → model.derives name args = true) := by
  cases derivation_of_derive derived with
  | known inserted =>
    obtain ⟨-, -, hold, -⟩ := (sound.tuplesOf name).insert inserted
    have known : model.derives name args = true := by rw [derives, ← hold]; rfl
    exact ⟨.of_known sound survives known, fun _ => known⟩
  | kills => cases survives
  | joins inserted allowed =>
    have hsound := sound_put sound inserted
    refine ⟨⟨survives, ⟨sound.database, hsound.ordered, hsound.tries⟩, ?_, Or.inr rfl, rfl,
      fun _ _ => Or.inl rfl⟩, fun forbidden => by rw [allowed] at forbidden; cases forbidden⟩
    rintro (⟨other, others, found⟩ | ⟨other, others⟩)
    · simp
    · simp only [mem_known_tuple, News.tuple.injEq]
      exact derives_put sound inserted other others

/-- **Asserting a fact**, if the partial model survives it. -/
theorem Sound.learns_assert (sound : model.Sound)
    (asserted : model.assert name args value = .ok after)
    (survives : after.isDead = false) : Learns (.fact name args value) model after := by
  cases assertion_of_assert asserted with
  | known found => exact .of_known sound survives found
  | kills => cases survives
  | joins free admitted set =>
    have hget := sound.database.get?_set set
    refine ⟨survives, ⟨sound.database.set set, sound.ordered, sound.tries⟩, ?_, Or.inr rfl,
      rfl, ?_⟩
    · -- A constraint that is set at one tuple shows at this tuple only, and at no intermediate.
      rintro (⟨other, others, found⟩ | ⟨other, others⟩)
      · simp only [mem_known_fact, hget, News.fact.injEq]
        by_cases heq : other = name ∧ others = args
        · obtain ⟨rfl, rfl⟩ := heq
          simp [free, eq_comm]
        · simp only [heq, if_false]
          exact ⟨Or.inr, fun hother => hother.elim (fun h => absurd ⟨h.1, h.2.1⟩ heq) id⟩
      · simp [derives, PartialModel.tuplesOf]
    · intro other others
      by_cases heq : other = name ∧ others = args
      · obtain ⟨rfl, rfl⟩ := heq
        exact Or.inr ⟨value, rfl, by simp [hget], admitted⟩
      · exact Or.inl (by simp [hget, heq])

/-- A tuple that is not forbidden does not kill. -/
theorem isDead_derive (derived : model.derive rules name args = .ok after)
    (alive : model.isDead = false) (allowed : rules.isForbidden name = false) :
    after.isDead = false := by
  cases derivation_of_derive derived with
  | known => exact alive
  | kills _ forbidden =>
    rw [allowed] at forbidden
    cases forbidden
  | joins => exact alive

/-- A fact that its tuple admits does not kill. -/
theorem isDead_assert (asserted : model.assert name args value = .ok after)
    (alive : model.isDead = false)
    (admitted : ∀ constraint, model.database.get? name args = some constraint →
      constraint.admits value = true) : after.isDead = false := by
  cases assertion_of_assert asserted with
  | known => exact alive
  | kills found refuses =>
    rw [admitted _ found] at refuses
    cases refuses
  | joins => exact alive

/-! ### Registering -/

theorem evolves_register (key : ChoiceKey) (choice : Choice) (model : PartialModel) :
    Evolves model (model.register key choice) where
  alive := id
  known := fun _ => id
  excluded := (Evolves.refl model).excluded
  choices := fun _ member => exists_covers_of_mem member

end PartialModel

end StableModels
