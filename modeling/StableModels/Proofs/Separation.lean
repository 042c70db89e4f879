import StableModels.Proofs.Enumeration
import StableModels.Proofs.Growth
import StableModels.Proofs.Slicing

/-!
# No model is reported twice

Two partial models are **apart** if one of them is dead, or if there is a tuple that one of them
fixes to a value and the other does not admit (`StableModels.PartialModel.Apart`). Whatever refines
one of them is still apart from the other, since a fixed tuple stays fixed and an excluded value is
never taken. The branches of a partial model are apart from each other: two of them fix the tuple
of the choice to different values, and the one that is spared excludes each of these.

Hence the partial models that a search holds, together with those that it has reported, are always
apart from each other (`StableModels.Search.Separated`). In a reported model no tuple is merely
narrowed, so that two of them fix some tuple to different values
(`StableModels.Search.Reports.pairwise_ne`).
-/

namespace StableModels

namespace PartialModel

variable {rules : RuleSet} {model other before after first second : PartialModel}

/-! ### Partial models that are apart -/

/-- The first partial model fixes a tuple to a value that the second one does not admit. -/
def Opposes (first second : PartialModel) : Prop :=
  ∃ name args value constraint, first.database.get? name args = some (.just value) ∧
    second.database.get? name args = some constraint ∧ constraint.admits value = false

/-- No living partial model refines both. -/
def Apart (first second : PartialModel) : Prop :=
  first.isDead = true ∨ second.isDead = true ∨ Opposes first second ∨ Opposes second first

theorem Apart.symm (apart : Apart first second) : Apart second first := by
  rcases apart with dead | dead | opposes | opposes
  · exact Or.inr (Or.inl dead)
  · exact Or.inl dead
  · exact Or.inr (Or.inr (Or.inr opposes))
  · exact Or.inr (Or.inr (Or.inl opposes))

/-- A fixed tuple stays fixed. -/
theorem Opposes.refine_left (opposes : Opposes before other) (refines : Refines before after) :
    Opposes after other := by
  obtain ⟨name, args, value, constraint, fixed, found, refused⟩ := opposes
  have fixed' : News.fact name args value ∈ after.known := refines.known fixed
  exact ⟨name, args, value, constraint, fixed', found, refused⟩

/-- What is not admitted is never admitted again. -/
theorem Opposes.refine_right (opposes : Opposes other before) (refines : Refines before after) :
    Opposes other after := by
  obtain ⟨name, args, value, constraint, fixed, found, refused⟩ := opposes
  cases constraint with
  | just held =>
    have found' : News.fact name args held ∈ after.known := refines.known found
    exact ⟨name, args, value, _, fixed, found', refused⟩
  | noneOf excluded =>
    have hvalue : value ∈ excluded := by
      simpa [Constraint.admits, HandleSet.contains_iff] using refused
    rcases refines.excluded name args excluded found with ⟨more, found', subset⟩ |
      ⟨held, found', free⟩
    · refine ⟨name, args, value, _, fixed, found', ?_⟩
      simpa [Constraint.admits, HandleSet.contains_iff] using subset value hvalue
    · refine ⟨name, args, value, _, fixed, found', ?_⟩
      have differs : held ≠ value := fun heq => free (heq ▸ hvalue)
      simpa [Constraint.admits] using differs

/-- **Whatever refines a partial model is apart from what that is apart from.** -/
theorem Apart.refine (apart : Apart before other) (refines : Refines before after) :
    Apart after other := by
  rcases apart with dead | dead | opposes | opposes
  · refine Or.inl (Bool.eq_true_of_not_eq_false fun survives => ?_)
    rw [refines.alive survives] at dead
    cases dead
  · exact Or.inr (Or.inl dead)
  · exact Or.inr (Or.inr (Or.inl (opposes.refine_left refines)))
  · exact Or.inr (Or.inr (Or.inr (opposes.refine_right refines)))

/-! ### Branches are apart -/

variable {key : ChoiceKey} {values : List Handle} {branches : List PartialModel}

/-- A tuple for which a fact is asserted is fixed. -/
theorem Sound.get?_of_assert (sound : model.Sound) {name : String} {args : List Handle}
    {value : Handle} (asserted : model.assert name args value = .ok after)
    (survives : after.isDead = false) : after.database.get? name args = some (.just value) :=
  mem_known_fact.1 (((sound.learns_assert asserted survives).known _).2 (Or.inl rfl))

theorem pairwise_apart_of_fixedTo (sound : model.Sound) (distinct : values.Nodup)
    (fixed : FixedTo key model values branches) : branches.Pairwise Apart := by
  induction fixed with
  | nil => exact .nil
  | @cons value branch values branches asserted fixed ih =>
    obtain ⟨fresh, distinct⟩ := List.nodup_cons.1 distinct
    refine .cons ?_ (ih distinct)
    intro other member
    obtain ⟨held, hheld, asserted'⟩ := exists_of_mem_right fixed member
    cases dead : branch.isDead with
    | true => exact Or.inl dead
    | false =>
      cases dead' : other.isDead with
      | true => exact Or.inr (Or.inl dead')
      | false =>
        have differs : held ≠ value := fun heq => fresh (heq ▸ hheld)
        exact Or.inr (Or.inr (Or.inl ⟨key.name, key.args, value, _,
          sound.get?_of_assert asserted dead, sound.get?_of_assert asserted' dead',
          by simpa [Constraint.admits] using differs⟩))

/-- **The branches that an examination leads to are apart from each other.** -/
theorem Examines.pairwise_apart {rest : PartialModel}
    (examines : Examines rules model (.branch branches) rest) (sound : model.Sound) :
    branches.Pairwise Apart := by
  cases examines with
  | closed _ _ _ fixed =>
    exact pairwise_apart_of_fixedTo (sound.forget _) (nodup_without _ _) fixed
  | @opened key choice choices excluded branches spared _ first free _ _ fixed narrowed =>
    have narrows := (sound.forget choices).narrows_constrain (free.forget choices) narrowed
    refine List.pairwise_append.2 ⟨pairwise_apart_of_fixedTo (sound.forget _)
      (nodup_without _ _) fixed, List.pairwise_singleton _ _, ?_⟩
    intro branch member last hlast
    obtain rfl := List.mem_singleton.1 hlast
    obtain ⟨value, hvalue, asserted⟩ := exists_of_mem_right fixed member
    cases dead : branch.isDead with
    | true => exact Or.inl dead
    | false =>
      -- The branch fixes the tuple to a value that the last one excludes.
      have hfixed := (sound.forget choices).get?_of_assert asserted dead
      have hspared := narrows.get? key.name key.args
      rw [if_pos ⟨rfl, rfl⟩] at hspared
      refine Or.inr (Or.inr (Or.inl ⟨key.name, key.args, value, _, hfixed, hspared, ?_⟩))
      have excluded : value ∈ excluded.union (.ofList (choice.values.without excluded)) :=
        HandleSet.mem_union.2 (Or.inr (HandleSet.mem_ofList.2 hvalue))
      simpa [Constraint.admits, HandleSet.contains_iff] using excluded

end PartialModel

open PartialModel

variable {program : Program} {rules : RuleSet} {model after : PartialModel} {store more : Store}
  {asserted : Set News}

/-! ### Reported models -/

/-- These are the facts of a partial model that was reported. -/
structure PartialModel.Shown (program : Program) (store : Store) (facts : List Fact)
    (model : PartialModel) : Prop where
  /-- It is alive. -/
  alive : model.isDead = false
  /-- It can be read. -/
  readable : model.Readable program store
  /-- No tuple is merely narrowed. -/
  decided : model.database.tally.narrowed = 0
  /-- The facts are those of its database. -/
  facts_eq : facts = store.facts model.database

/-- The facts of a partial model are read in an extension of the store as before. -/
theorem PartialModel.Readable.facts_eq (readable : model.Readable program store)
    (extension : store.Extends more) : more.facts model.database = store.facts model.database := by
  refine List.map_congr_left fun stored member => ?_
  have found := readable.sound.database.mem_facts.1 member
  obtain ⟨⟨⟨terms, args_expand⟩, -⟩, values⟩ := readable.constrained _ _ _ found
  obtain ⟨term, value_expands⟩ := values _ rfl
  rw [Store.fact, Store.fact, Store.map_term_of_expands args_expand,
    Store.map_term_of_expands (extension.expands args_expand),
    Store.term_of_expand value_expands, Store.term_of_expand (extension.expand value_expands)]

namespace PartialModel.Shown

variable {facts others : List Fact} {other : PartialModel}

theorem mono (shown : model.Shown program store facts) (extension : store.Extends more) :
    model.Shown program more facts :=
  ⟨shown.alive, shown.readable.mono extension, shown.decided,
    shown.facts_eq.trans (shown.readable.facts_eq extension).symm⟩

/-- A tuple that is fixed is among the facts. -/
theorem mem_facts (shown : model.Shown program store facts) {name : String}
    {args : List Handle} {value : Handle} {terms : List Term} {term : Term}
    (fixed : model.database.get? name args = some (.just value))
    (args_expand : store.Expands args terms) (value_expands : store.expand value = some term) :
    ⟨name, terms, term⟩ ∈ facts := by
  have member : (⟨name, terms, term⟩ : Fact) ∈ factsOf (model.atoms store) :=
    ⟨_, fixed, .fact args_expand value_expands⟩
  rwa [← shown.readable.factSet_eq, ← shown.facts_eq] at member

/-- A tuple has one value among the facts. -/
theorem functional (shown : model.Shown program store facts) (sound : store.Sound) {name : String}
    {args : List Term} {value held : Term} (hvalue : ⟨name, args, value⟩ ∈ facts)
    (hheld : ⟨name, args, held⟩ ∈ facts) : value = held := by
  have read {term : Term} (member : ⟨name, args, term⟩ ∈ facts) :
      .fact name args term ∈ model.atoms store := by
    rw [shown.facts_eq] at member
    have hmember : (⟨name, args, term⟩ : Fact) ∈ factSet (store.facts model.database) := member
    rwa [shown.readable.factSet_eq] at hmember
  obtain ⟨handles, handle, args_expand, expands, found⟩ := Reached.exists_get?_of_mem (read hvalue)
  obtain ⟨handles', handle', args_expand', expands', found'⟩ :=
    Reached.exists_get?_of_mem (read hheld)
  obtain rfl := sound.expands_injective args_expand args_expand'
  obtain rfl := Constraint.just.inj (Option.some.inj (found.symm.trans found'))
  exact Option.some.inj (expands.symm.trans expands')

/-- If one of two reported partial models fixes a tuple to a value that the other does not admit,
then the other fixes it to another value. -/
theorem exists_ne_of_opposes (sound : store.Sound) (shown : model.Shown program store facts)
    (shown' : other.Shown program store others) (opposes : Opposes model other) :
    ∃ name args value held, ⟨name, args, value⟩ ∈ facts ∧ ⟨name, args, held⟩ ∈ others ∧
      value ≠ held := by
  obtain ⟨name, args, value, constraint, fixed, found, refused⟩ := opposes
  cases constraint with
  | noneOf excluded =>
    have decided := shown'.readable.sound.database.narrowed_eq_zero_iff.1 shown'.decided
    exact absurd found (decided name args excluded)
  | just held =>
    obtain ⟨⟨⟨terms, args_expand⟩, -⟩, values⟩ := shown.readable.constrained _ _ _ fixed
    obtain ⟨-, values'⟩ := shown'.readable.constrained _ _ _ found
    obtain ⟨term, value_expands⟩ := values value rfl
    obtain ⟨term', held_expands⟩ := values' held rfl
    refine ⟨name, terms, term, term', shown.mem_facts fixed args_expand value_expands,
      shown'.mem_facts found args_expand held_expands, ?_⟩
    rintro rfl
    obtain rfl := sound.expand_injective value_expands held_expands
    simp [Constraint.admits] at refused

/-- **Reported partial models that are apart fix some tuple to different values**, and so have
different facts. -/
theorem exists_ne (sound : store.Sound) (shown : model.Shown program store facts)
    (shown' : other.Shown program store others) (apart : Apart model other) :
    factSet facts ≠ factSet others ∧ ∃ name args value held, ⟨name, args, value⟩ ∈ facts ∧
      ⟨name, args, held⟩ ∈ others ∧ value ≠ held := by
  have conflict : ∃ name args value held, ⟨name, args, value⟩ ∈ facts ∧
      ⟨name, args, held⟩ ∈ others ∧ value ≠ held := by
    rcases apart with dead | dead | opposes | opposes
    · simp [shown.alive] at dead
    · simp [shown'.alive] at dead
    · exact exists_ne_of_opposes sound shown shown' opposes
    · obtain ⟨name, args, value, held, hvalue, hheld, differs⟩ :=
        exists_ne_of_opposes sound shown' shown opposes
      exact ⟨name, args, held, value, hheld, hvalue, differs.symm⟩
  refine ⟨fun heq => ?_, conflict⟩
  obtain ⟨name, args, value, held, hvalue, hheld, differs⟩ := conflict
  have hvalue' : (⟨name, args, value⟩ : Fact) ∈ factSet others := heq ▸ hvalue
  exact differs (shown'.functional sound hvalue' hheld)

/-- Reported partial models that are apart from each other have different facts. -/
theorem pairwise_facts_ne {reported : List (List Fact)} {models : List PartialModel}
    (sound : store.Sound) (shown : List.Forall₂ (Shown program store) reported models)
    (apart : models.Pairwise Apart) :
    reported.Pairwise fun facts others => factSet facts ≠ factSet others ∧
      ∃ name args value held, ⟨name, args, value⟩ ∈ facts ∧ ⟨name, args, held⟩ ∈ others ∧
        value ≠ held := by
  induction shown with
  | nil => exact .nil
  | cons hfirst rest ih =>
    obtain ⟨apart_first, apart_rest⟩ := List.pairwise_cons.1 apart
    refine .cons ?_ (ih apart_rest)
    intro others member
    obtain ⟨other, hother, hshown⟩ := exists_of_mem_left rest member
    exact hfirst.exists_ne sound hshown (apart_first other hother)

end PartialModel.Shown

/-! ### What a search holds and what it has reported -/

/-- The facts that a step reports. -/
def Step.reports (store : Store) : Step → List (List Fact)
  | .found database => [store.facts database]
  | .paused | .exhausted | .failed _ => []

namespace Search

variable {search before after last : Search} {model : PartialModel} {outcome : Cycle}
  {successors : List PartialModel} {settings : Settings} {result : Step} {budget : Nat}
  {reported : List (List Fact)}

/-- **What takes the place of a partial model is apart from itself**, and from all that the partial
model was apart from. -/
theorem Works.apart (works : Works rules store model outcome successors more)
    (reached : Reached program rules ⟨model, store⟩ asserted) :
    successors.Pairwise Apart ∧
      ∀ successor ∈ successors, ∀ other, Apart model other → Apart successor other := by
  have sound := reached.attained.sound
  have away {successor : PartialModel} (operates : Operates rules model successor) :
      ∀ other, Apart model other → Apart successor other :=
    fun _ apart => apart.refine (operates.refines sound)
  cases works with
  | drops | fails | refuses | finds => exact ⟨.nil, by simp⟩
  | steps alive stepped =>
    refine ⟨List.pairwise_singleton _ _, fun successor member => ?_⟩
    obtain rfl := List.mem_singleton.1 member
    exact away (.of_step stepped)
  | branches alive _ examined =>
    refine ⟨(examines_of_examine alive examined).pairwise_apart sound,
      fun successor member => away (.branch examined member)⟩
  | decides alive _ examined _ unbranched =>
    refine ⟨List.pairwise_singleton _ _, fun successor member => ?_⟩
    obtain rfl := List.mem_singleton.1 member
    exact away (Examined.whole examined unbranched).operates

/-- **The invariant**: the partial models that the search holds and those that it has reported, with
these facts, are apart from each other. -/
structure Separated (program : Program) (search : Search) (reported : List (List Fact)) : Prop where
  /-- What the search holds is reached. -/
  grounded : search.Grounded program
  /-- The store is sound. -/
  sound : search.store.Sound
  /-- The partial models are apart from each other. -/
  apart : ∃ shown, List.Forall₂ (PartialModel.Shown program search.store) reported shown ∧
    (search.leaves ++ shown).Pairwise Apart

theorem separated_of_start (started : start program settings = .ok search) :
    search.Separated program [] := by
  have grounded := grounded_of_start started
  cases starts_of_start started with
  | root compiled planted =>
    obtain ⟨sound, -, -⟩ := RuleSet.compile_sound Store.sound_initial compiled
    exact ⟨grounded, sound, [], .nil, List.pairwise_singleton _ _⟩

/-- A cycle keeps what is apart apart. -/
theorem Separated.cycle (separated : search.Separated program reported)
    (cycled : search.cycle = (outcome, after)) : after.Separated program reported := by
  rcases works_of_cycle cycled with
    ⟨-, rfl, -⟩ | ⟨model, rest, successors, -, perm, perm', -, works⟩
  · exact separated
  obtain ⟨grounded, sound, shown, facts, apart⟩ := separated
  obtain ⟨asserted, reached⟩ := grounded model (perm.mem_iff.2 List.mem_cons_self)
  obtain ⟨sound', extension, -⟩ := works.reached reached
  obtain ⟨apart_successors, apart_others⟩ := works.apart reached
  refine ⟨grounded.cycle cycled, sound', shown, facts.imp fun _ _ hshown => hshown.mono extension,
    ?_⟩
  -- The successors take the place of the partial model among all that are apart.
  rw [(perm.append_right shown).pairwise_iff Apart.symm, List.cons_append,
    List.pairwise_cons] at apart
  rw [(perm'.append_right shown).pairwise_iff Apart.symm, List.append_assoc]
  exact List.pairwise_append.2 ⟨apart_successors, apart.2, fun successor member other hother =>
    apart_others successor member other (apart.1 other hother)⟩

/-- A partial model that is reported was apart from all others. -/
theorem Separated.found {database : Database} (separated : search.Separated program reported)
    (cycled : search.cycle = (.found database, after)) :
    after.Separated program (reported ++ [after.store.facts database]) := by
  obtain ⟨grounded', sound', -⟩ := separated.cycle cycled
  rcases works_of_cycle cycled with
    ⟨heq, -⟩ | ⟨model, rest, successors, -, perm, perm', -, works⟩
  · cases heq
  obtain ⟨grounded, sound, shown, facts, apart⟩ := separated
  obtain ⟨asserted, reached⟩ := grounded model (perm.mem_iff.2 List.mem_cons_self)
  obtain ⟨solves, rfl, rfl, heq⟩ := works.solves
  have hmodel : model.Shown program search.store (search.store.facts model.database) :=
    ⟨solves.alive, reached.readable solves.alive, solves.decided, rfl⟩
  refine ⟨grounded', sound', shown ++ [model], ?_, ?_⟩
  · rw [heq]
    exact List.rel_append facts (.cons hmodel .nil)
  · -- The partial model is no longer held, but still among those that are apart.
    have moved : (after.leaves ++ (shown ++ [model])).Perm (search.leaves ++ shown) := by
      rw [List.nil_append] at perm'
      refine (perm'.append_right _).trans (.trans ?_ (perm.append_right shown).symm)
      rw [← List.append_assoc]
      exact List.perm_append_singleton _ _
    rwa [moved.pairwise_iff Apart.symm]

theorem Separated.abandon (separated : search.Separated program reported) :
    search.abandon.Separated program reported := by
  obtain ⟨-, sound, shown, facts, apart⟩ := separated
  exact ⟨fun _ member => (by cases member), sound, shown, facts,
    (List.pairwise_append.1 apart).2.1⟩

/-! ### Histories -/

theorem Separated.step (separated : search.Separated program reported)
    (stepped : search.step budget = (result, after)) :
    after.Separated program (reported ++ result.reports after.store) := by
  have ends := ends_of_step (P := fun search => search.Separated program reported)
    (fun separated cycled => separated.cycle cycled)
    (fun separated => ⟨separated.grounded, separated.sound, separated.apart⟩) separated stepped
  cases ends with
  | paused holds | exhausted holds => rwa [Step.reports, List.append_nil]
  | found holds cycled => exact holds.found cycled
  | failed holds cycled =>
    rw [Step.reports, List.append_nil]
    exact holds.cycle cycled

theorem Separated.next {rounds : Nat} (separated : search.Separated program reported)
    (found : search.next rounds = (result, after)) :
    after.Separated program (reported ++ result.reports after.store) := by
  induction rounds generalizing search with
  | zero =>
    obtain ⟨rfl, rfl⟩ := Prod.mk.inj found
    rwa [Step.reports, List.append_nil]
  | succ rounds ih =>
    cases stepped : search.step unlimited with
    | mk first middle =>
      have hfirst := separated.step stepped
      rw [Search.next, stepped] at found
      cases first with
      | paused =>
        rw [Step.reports, List.append_nil] at hfirst
        exact ih hfirst found
      | found | exhausted =>
        obtain ⟨rfl, rfl⟩ := Prod.mk.inj found
        exact hfirst
      | failed =>
        obtain ⟨rfl, rfl⟩ := Prod.mk.inj found
        exact hfirst.abandon

/-- **What a search has reported**, one call after the other, whether they succeed or fail. -/
inductive Reports (program : Program) (settings : Settings) : List (List Fact) → Search → Prop where
  /-- Nothing at the start. -/
  | start {search : Search} (started : Search.start program settings = .ok search) :
      Reports program settings [] search
  /-- What a call reports comes last. -/
  | call {reported : List (List Fact)} {search after : Search} {call : Call} {step : Step}
      (reports : Reports program settings reported search)
      (made : call.make search = (step, after)) :
      Reports program settings (reported ++ step.reports after.store) after

theorem Reports.separated (reports : Reports program settings reported search) :
    search.Separated program reported := by
  induction reports with
  | start started => exact separated_of_start started
  | @call _ _ _ call _ _ made ih =>
    cases call with
    | step budget => exact ih.step made
    | next more => exact ih.next made

/-- **No model is reported twice**, whatever the seed and the calls: of any two reports one holds a
tuple with one value and the other the same tuple with another value, so that they are different
sets of facts. -/
theorem Reports.pairwise_ne (reports : Reports program settings reported search) :
    reported.Pairwise fun facts others => factSet facts ≠ factSet others ∧
      ∃ name args value held, ⟨name, args, value⟩ ∈ facts ∧ ⟨name, args, held⟩ ∈ others ∧
        value ≠ held := by
  obtain ⟨-, sound, shown, facts, apart⟩ := reports.separated
  exact PartialModel.Shown.pairwise_facts_ne sound facts (List.pairwise_append.1 apart).2.1

/-- What a host sees that drives the search up to a fault is part of its history. -/
theorem Reports.drive {calls : List Call} {account : Account}
    (reports : Reports program settings reported search)
    (driven : search.drive calls = (account, last)) :
    Reports program settings (reported ++ account.models.map FoundModel.facts) last := by
  induction calls generalizing search reported account with
  | nil =>
    obtain ⟨rfl, rfl⟩ := Prod.mk.inj driven
    rwa [List.map_nil, List.append_nil]
  | cons call calls ih =>
    cases made : call.make search with
    | mk result middle =>
      have hreports := reports.call made
      rw [Search.drive, made] at driven
      cases result with
      | paused | exhausted =>
        rw [Step.reports, List.append_nil] at hreports
        exact ih hreports driven
      | found =>
        obtain ⟨rfl, rfl⟩ := Prod.mk.inj driven
        have hrest := ih hreports rfl
        rwa [List.append_assoc] at hrest
      | failed =>
        obtain ⟨rfl, rfl⟩ := Prod.mk.inj driven
        exact hreports

theorem Reports.pairwise_ne_coin : ∃ reported search, Reports coin ⟨0, true⟩ reported search ∧
    reported.length = 2 ∧ reported.Pairwise fun facts others => factSet facts ≠ factSet others ∧
      ∃ name args value held, ⟨name, args, value⟩ ∈ facts ∧ ⟨name, args, held⟩ ∈ others ∧
        value ≠ held := by
  have seen : driven? coin ⟨0, true⟩ [.next 0, .step 9, .next 0] = some (2, false, 6) := by
    decide +kernel
  obtain ⟨search, account, last, started, driven, found, -⟩ := exists_of_driven? seen
  have reports := (Reports.start started).drive driven
  exact ⟨_, last, reports, by simpa using found, reports.pairwise_ne⟩

end Search

end StableModels
