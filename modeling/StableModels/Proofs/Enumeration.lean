import Mathlib.Data.List.Nodup
import StableModels.Proofs.Branching
import StableModels.Report

/-!
# Searches enumerate the stable models

Let a stable model of a program be given in which every predicate is used with one arity. The number
of partial models below it that a search holds, together with the number of times that its facts
have been reported, is one from the start and stays one (`StableModels.Search.countBelow`): a cycle
replaces a partial model that is below the stable model by just one, or reports its facts. When no
work is left they have therefore been reported exactly once.

Hence any two searches of a program, under whatever seeds and budgets, agree on the stable models
(`StableModels.Program.Enumerates.perm`). They may report other sets of facts besides, in which an
exhaustive choice is decided for a value that it does not offer, and on these they need not agree:
which registrations are merged before a choice is examined depends on the order of the handles, and
so on the order in which branches are explored. If no choice of a tuple offers more than an
exhaustive one does, then all that is reported is stable, and the searches agree on everything.

Programs that show that the conditions are needed stand at the end. One has predicates of one arity
and choices that disagree, the other has choices that agree and a predicate of two arities: a tuple
that joins with a fact looks for the arguments of the fact by their number alone, and may find the
beginning of a longer one.
-/

namespace StableModels

/-! ### Facts -/

/-- The facts among atoms. -/
def factsOf (atoms : Set Atom) : Set Fact :=
  {fact | .fact fact.name fact.args fact.value ∈ atoms}

/-- The members of a list of facts. -/
def factSet (facts : List Fact) : Set Fact := {fact | fact ∈ facts}

variable {program : Program} {rules : RuleSet} {store more : Store} {model : PartialModel}
  {atoms : Set Atom} {asserted : Set News}

theorem Store.term_of_expand {handle : Handle} {term : Term}
    (expands : store.expand handle = some term) :
    store.term handle = term := by
  rw [Store.term, expands]
  rfl

theorem Store.map_term_of_expands {handles : List Handle} {terms : List Term}
    (expands : store.Expands handles terms) : handles.map store.term = terms := by
  induction expands with
  | nil => rfl
  | cons expands _ ih => rw [List.map_cons, Store.term_of_expand expands, ih]

/-- **The facts that are reported of a partial model are those among its atoms.** -/
theorem PartialModel.Readable.factSet_eq (readable : model.Readable program store) :
    factSet (store.facts model.database) = factsOf (model.atoms store) := by
  ext ⟨name, args, value⟩
  rw [factSet, Set.mem_ofPred_eq, Store.facts, List.mem_map]
  constructor
  · rintro ⟨⟨name, handles, handle⟩, stored, heq⟩
    have found := readable.sound.database.mem_facts.1 stored
    obtain ⟨⟨⟨terms, args_expand⟩, -⟩, values⟩ := readable.constrained name handles _ found
    obtain ⟨term, value_expands⟩ := values handle rfl
    obtain ⟨rfl, rfl, rfl⟩ := Fact.mk.inj heq
    rw [Store.map_term_of_expands args_expand, Store.term_of_expand value_expands]
    exact ⟨_, found, .fact args_expand value_expands⟩
  · intro member
    obtain ⟨handles, handle, args_expand, value_expands, found⟩ := Reached.exists_get?_of_mem member
    refine ⟨⟨name, handles, handle⟩, readable.sound.database.mem_facts.2 found, ?_⟩
    rw [Store.fact, Store.map_term_of_expands args_expand, Store.term_of_expand value_expands]

/-- A supported set is determined by its facts. -/
theorem Program.Supported.subset_of_factsOf_eq {others : Set Atom}
    (supported : program.Supported atoms) (satisfied : program.Satisfied others)
    (heq : factsOf atoms = factsOf others) : atoms ⊆ others := by
  intro atom member
  refine satisfied.mem_of_founded (fun name args value hfact => ?_) (supported.founded atom member)
  have hfact' : (⟨name, args, value⟩ : Fact) ∈ factsOf atoms := hfact
  rw [heq] at hfact'
  exact hfact'

/-- **A reported partial model is below a supported set exactly if its facts are those of the
set.** -/
theorem Reached.below_iff_factSet_eq (reached : Reached program rules ⟨model, store⟩ asserted)
    (one_arity : program.OneArity) (solves : model.Solves rules)
    (supported : program.Supported atoms) :
    model.Below store atoms ↔ factSet (store.facts model.database) = factsOf atoms := by
  have readable := reached.readable solves.alive
  rw [readable.factSet_eq]
  constructor
  · intro below
    rw [reached.atoms_eq_of_below solves.alive solves.saturated solves.none_left supported below]
  · intro heq
    have supported' := reached.supported solves one_arity
    refine ⟨solves.alive, supported'.subset_of_factsOf_eq supported.toSatisfied heq, ?_⟩
    intro name handles excluded found
    exact absurd found (readable.sound.database.narrowed_eq_zero_iff.1 solves.decided _ _ _)

/-! ### The root of the search -/

namespace PartialModel

variable {after : PartialModel}

/-- Seeds that are not forbidden do not kill. -/
theorem isDead_plant {seeds : List String} (alive : model.isDead = false)
    (allowed : ∀ seed ∈ seeds, rules.isForbidden seed = false)
    (planted : model.plant rules seeds = .ok after) : after.isDead = false := by
  refine plant_induct (·.isDead = false) alive ?_ planted
  intro seed member before last survives derived
  exact isDead_derive derived survives (allowed seed member)

/-- The root of the search is below whatever satisfies the program. -/
theorem below_of_seeded (compiles : rules.Compiles program store)
    (satisfied : program.Satisfied atoms) (planted : seeded rules = .ok model) :
    model.Below store atoms := by
  have survives : model.isDead = false := by
    have alive : isDead {} = false := rfl
    refine isDead_plant alive (fun seed member => ?_) planted
    rw [RuleSet.isForbidden, compiles.forbids, ← Bool.not_eq_true, List.contains_iff_mem]
    intro forbidden
    exact satisfied.forbids seed forbidden [] (satisfied.seeds seed (compiles.seeds ▸ member))
  have plants := plants_of_seeded planted survives
  refine ⟨survives, fun atom member => ?_, fun name handles excluded found => ?_⟩
  · obtain ⟨seed, hseed, rfl⟩ := plants.mem_atoms_iff.1 member
    exact satisfied.seeds seed (compiles.seeds ▸ hseed)
  · rw [plants.get?] at found
    cases found

end PartialModel

/-! ### Counting below a stable model -/

namespace Search

variable {search after last : Search} {settings : Settings} {database : Database} {outcome : Cycle}
  {successors : List PartialModel}

open Classical in
/-- The number of partial models below the set that the search holds. -/
noncomputable def countBelow (atoms : Set Atom) (search : Search) : Nat :=
  search.leaves.countP fun model => model.Below search.store atoms

open Classical in
/-- **A cycle that works** puts one partial model below a stable model in the place of one that is,
and none in the place of one that is not. -/
theorem Works.countP_below (works : Works rules store model .worked successors more)
    (reached : Reached program rules ⟨model, store⟩ asserted) (one_arity : program.OneArity)
    (stable : program.Stable atoms) :
    successors.countP (fun successor => successor.Below more atoms) =
      if model.Below store atoms then 1 else 0 := by
  cases works with
  | drops dead =>
    rw [List.countP_nil, if_neg fun below => Bool.false_ne_true (below.alive.symm.trans dead)]
  | steps alive stepped =>
    rw [List.countP_singleton]
    refine if_congr ?_ rfl rfl
    rw [decide_eq_true_iff, reached.below_step_iff one_arity stable.toSatisfied alive stepped]
  | branches alive _ examined =>
    exact (PartialModel.examines_of_examine alive examined).countP_below reached one_arity alive
      stable
  | decides alive saturated examined _ unbranched =>
    rw [List.countP_singleton]
    refine if_congr ?_ rfl rfl
    rw [decide_eq_true_iff,
      (PartialModel.examines_of_examine alive examined).below_iff unbranched reached
      one_arity alive saturated stable]

/-- A partial model that a search holds is below the set also in an extension of the store. -/
theorem below_iff_of_extends (reached : Reached program rules ⟨model, store⟩ asserted)
    (extension : store.Extends more) : model.Below more atoms ↔ model.Below store atoms :=
  ⟨fun below => below.of_extends extension,
    fun below => below.mono extension (reached.readable below.alive)⟩

open Classical in
/-- What a cycle does to the number of partial models below the set. -/
theorem Grounded.countBelow_add (grounded : search.Grounded program) (atoms : Set Atom)
    (cycled : search.cycle = (outcome, after)) (active : outcome ≠ .idle) :
    ∃ model asserted successors, Reached program search.rules ⟨model, search.store⟩ asserted ∧
      Works search.rules search.store model outcome successors after.store ∧
        after.countBelow atoms + (if model.Below search.store atoms then 1 else 0) =
          search.countBelow atoms +
            successors.countP fun successor => successor.Below after.store atoms := by
  rcases works_of_cycle cycled with
    ⟨idle, -⟩ | ⟨model, rest, successors, -, perm, perm', -, works⟩
  · exact absurd idle active
  obtain ⟨asserted, reached⟩ := grounded model (perm.mem_iff.2 List.mem_cons_self)
  obtain ⟨-, extension, -⟩ := works.reached reached
  have hrest : rest.countP (fun other => other.Below after.store atoms) =
      rest.countP fun other => other.Below search.store atoms := by
    refine List.countP_congr ?_
    intro other member
    obtain ⟨_, reached'⟩ := grounded other (perm.mem_iff.2 (List.mem_cons_of_mem _ member))
    rw [decide_eq_true_iff, decide_eq_true_iff, below_iff_of_extends reached' extension]
  refine ⟨model, asserted, successors, reached, works, ?_⟩
  rw [countBelow, countBelow, perm'.countP_eq, perm.countP_eq, List.countP_append, List.countP_cons,
    hrest]
  simp only [decide_eq_true_eq]
  omega

/-- A cycle that works does not change the number of partial models below a stable model. -/
theorem Grounded.countBelow_worked (grounded : search.Grounded program)
    (one_arity : program.OneArity)
    (stable : program.Stable atoms) (cycled : search.cycle = (.worked, after)) :
    after.countBelow atoms = search.countBelow atoms := by
  obtain ⟨model, asserted, successors, reached, works, law⟩ :=
    grounded.countBelow_add atoms cycled nofun
  rw [works.countP_below reached one_arity stable] at law
  exact Nat.add_right_cancel law

open Classical in
/-- A cycle that finds a model takes one off that number, if it reports the facts of the stable
model. -/
theorem Grounded.countBelow_found (grounded : search.Grounded program)
    (one_arity : program.OneArity)
    (stable : program.Stable atoms) (cycled : search.cycle = (.found database, after)) :
    after.countBelow atoms +
      (if factSet (after.store.facts database) = factsOf atoms then 1 else 0) =
        search.countBelow atoms := by
  obtain ⟨model, asserted, successors, reached, works, law⟩ :=
    grounded.countBelow_add atoms cycled nofun
  obtain ⟨solves, rfl, rfl, heq⟩ := works.solves
  rw [List.countP_nil, Nat.add_zero] at law
  rw [heq, ← law]
  congr 1
  exact if_congr (reached.below_iff_factSet_eq one_arity solves stable.toSupported).symm rfl rfl

open Classical in
/-- At the start one partial model is held, and it is below every stable model. -/
theorem countBelow_of_start (started : Search.start program settings = .ok search)
    (stable : program.Stable atoms) : search.countBelow atoms = 1 := by
  cases starts_of_start started with
  | root compiled planted =>
    obtain ⟨-, -, compiles⟩ := RuleSet.compile_sound Store.sound_initial compiled
    have below := PartialModel.below_of_seeded compiles stable.toSatisfied planted
    refine List.countP_eq_length.2 fun other member => ?_
    obtain rfl := List.mem_singleton.1 member
    exact decide_eq_true below

theorem countBelow_of_isExhausted (exhausted : search.isExhausted = true) :
    search.countBelow atoms = 0 := by
  rw [countBelow, leaves_eq_nil_iff.2 exhausted, List.countP_nil]

end Search

/-! ### What is reported -/

/-- The supported sets in which every exhaustive choice is decided for a value that some choice
offers for its tuple. -/
structure Program.Admissible (program : Program) (atoms : Set Atom) : Prop extends
    program.Supported atoms where
  /-- An exhaustive choice is decided for a value that some choice offers for its tuple. -/
  offered : ∀ name args offered value, program.Offers atoms name args offered true →
    .fact name args value ∈ atoms → ∃ others exhaustive,
      program.Offers atoms name args others exhaustive ∧ value ∈ others

/-- In the set no choice of a tuple offers a value that an exhaustive choice of it does not. -/
def Program.Concerted (program : Program) (atoms : Set Atom) : Prop :=
  ∀ name args offered others exhaustive, program.Offers atoms name args offered true →
    program.Offers atoms name args others exhaustive → ∀ value ∈ others, value ∈ offered

/-- All choices of one predicate offer the same values. -/
theorem Program.concerted_of_uniform (values : String → List Term)
    (uniform : ∀ name args offered exhaustive, program.Offers atoms name args offered exhaustive →
      offered = values name) : program.Concerted atoms := by
  intro name args offered others exhaustive offers offers' value member
  rw [uniform _ _ _ _ offers]
  rwa [uniform _ _ _ _ offers'] at member

theorem Program.Admissible.stable (admissible : program.Admissible atoms)
    (concerted : program.Concerted atoms) : program.Stable atoms where
  toSupported := admissible.toSupported
  respects := by
    intro name args offered value offers member
    obtain ⟨others, exhaustive, offers', hvalue⟩ :=
      admissible.offered name args offered value offers member
    exact concerted name args offered others exhaustive offers offers' value hvalue

theorem Reached.admissible (reached : Reached program rules ⟨model, store⟩ asserted)
    (solves : model.Solves rules) (one_arity : program.OneArity) :
    program.Admissible (model.atoms store) where
  toSupported := reached.supported solves one_arity
  offered := fun _ _ _ _ => reached.mem_offered solves one_arity

namespace Search

variable {search after last : Search} {settings : Settings} {database : Database} {report : Report}
  {budget : Nat} {budgets : List Nat} {reported : List (List Fact)}

/-- What is reported are the facts of an admissible set. -/
theorem Grounded.exists_admissible (grounded : search.Grounded program)
    (one_arity : program.OneArity) (cycled : search.cycle = (.found database, after)) :
    ∃ atoms, program.Admissible atoms ∧ factSet (after.store.facts database) = factsOf atoms := by
  obtain ⟨leaf, asserted, -, rfl, reached, solves⟩ := grounded.exists_finds cycled
  exact ⟨_, reached.admissible solves one_arity, (reached.readable solves.alive).factSet_eq⟩

/-! ### Runs -/

/-- Advances with one budget after the other: what is reported on the way, unless a step fails. -/
def advanceAll : List Nat → Search → Except Fault (List (List Fact) × Search)
  | [], search => .ok ([], search)
  | budget :: budgets, search =>
    match search.advance budget with
    | (.error fault, _) => .error fault
    | (.ok report, search) =>
      match search.advanceAll budgets with
      | .error fault => .error fault
      | .ok (reported, last) => .ok (report.solution.toList ++ reported, last)

/-- The reports of a search that advances without a fault. -/
inductive Runs : Search → List (List Fact) → Search → Prop where
  /-- It stands still. -/
  | refl (search : Search) : Runs search [] search
  /-- It advances and goes on. -/
  | advance {search middle last : Search} {budget : Nat} {report : Report}
      {reported : List (List Fact)}
      (advanced : search.advance budget = (.ok report, middle)) (rest : Runs middle reported last) :
      Runs search (report.solution.toList ++ reported) last

theorem runs_of_advanceAll (advanced : search.advanceAll budgets = .ok (reported, last)) :
    Runs search reported last := by
  induction budgets generalizing search reported with
  | nil =>
    obtain ⟨rfl, rfl⟩ := Prod.mk.inj (Except.ok.inj advanced)
    exact .refl search
  | cons budget budgets ih =>
    rw [advanceAll] at advanced
    split at advanced
    · cases advanced
    · next report middle hadvance =>
      split at advanced
      · cases advanced
      · next rest _ hrest =>
        obtain ⟨rfl, rfl⟩ := Prod.mk.inj (Except.ok.inj advanced)
        exact .advance hadvance (ih hrest)

/-- A report holds the model that a step has found, if it has found one. -/
theorem ends_of_advance {P : Search → Prop}
    (worked : ∀ {search after}, P search → search.cycle = (.worked, after) → P after)
    (drawn : ∀ {search budgets}, P search → P { search with budgets := budgets }) (holds : P search)
    (advanced : search.advance budget = (.ok report, after)) :
    (report.solution = none ∧ P after) ∨ ∃ before database, P before ∧
      before.cycle = (.found database, after) ∧
        report.solution = some (after.store.facts database) := by
  rw [advance] at advanced
  split at advanced
  · cases advanced
  · next stepped =>
    obtain ⟨hreport, rfl⟩ := Prod.mk.inj advanced
    obtain rfl := Except.ok.inj hreport
    cases ends_of_step worked drawn holds stepped with
    | found holds cycled => exact Or.inr ⟨_, _, holds, cycled, rfl⟩
  · next stepped =>
    obtain ⟨hreport, rfl⟩ := Prod.mk.inj advanced
    obtain rfl := Except.ok.inj hreport
    cases ends_of_step worked drawn holds stepped with
    | paused holds => exact Or.inl ⟨rfl, holds⟩
  · next stepped =>
    obtain ⟨hreport, rfl⟩ := Prod.mk.inj advanced
    obtain rfl := Except.ok.inj hreport
    cases ends_of_step worked drawn holds stepped with
    | exhausted holds => exact Or.inl ⟨rfl, holds⟩

theorem Grounded.advance (grounded : search.Grounded program) (one_arity : program.OneArity)
    (advanced : search.advance budget = (.ok report, after)) :
    after.Grounded program ∧ ∀ facts ∈ report.solution.toList,
      ∃ atoms, program.Admissible atoms ∧ factSet facts = factsOf atoms := by
  rcases ends_of_advance (fun grounded cycled => Grounded.cycle grounded cycled)
    (fun grounded => grounded) grounded advanced with
    ⟨none_found, holds⟩ | ⟨before, database, holds, cycled, found⟩
  · exact ⟨holds, by simp [none_found]⟩
  · refine ⟨holds.cycle cycled, ?_⟩
    intro facts member
    rw [found, Option.toList_some, List.mem_singleton] at member
    exact member ▸ holds.exists_admissible one_arity cycled

open Classical in
theorem Grounded.countBelow_advance (grounded : search.Grounded program)
    (one_arity : program.OneArity) (stable : program.Stable atoms)
    (advanced : search.advance budget = (.ok report, after)) :
    after.countBelow atoms +
        report.solution.toList.countP (fun facts => factSet facts = factsOf atoms) =
      search.countBelow atoms := by
  have worked {middle next : Search}
      (holds : middle.Grounded program ∧ middle.countBelow atoms = search.countBelow atoms)
      (cycled : middle.cycle = (.worked, next)) :
      next.Grounded program ∧ next.countBelow atoms = search.countBelow atoms :=
    ⟨holds.1.cycle cycled, (holds.1.countBelow_worked one_arity stable cycled).trans holds.2⟩
  rcases ends_of_advance worked (fun holds => holds) ⟨grounded, rfl⟩ advanced with
    ⟨none_found, -, heq⟩ | ⟨before, database, ⟨holds, heq⟩, cycled, found⟩
  · rw [none_found, Option.toList_none, List.countP_nil, heq, Nat.add_zero]
  · rw [found, Option.toList_some, List.countP_singleton, ← heq,
      ← holds.countBelow_found one_arity stable cycled]
    simp only [decide_eq_true_eq]

open Classical in
/-- **The law of a run**: what has been reported of a stable model and what is still held below it
make up what was held below it before. -/
theorem Runs.countBelow_add (runs : Runs search reported last) (grounded : search.Grounded program)
    (one_arity : program.OneArity) (stable : program.Stable atoms) :
    last.countBelow atoms + reported.countP (fun facts => factSet facts = factsOf atoms) =
      search.countBelow atoms := by
  induction runs with
  | refl => rfl
  | advance advanced rest ih =>
    rw [← grounded.countBelow_advance one_arity stable advanced,
      ← ih (grounded.advance one_arity advanced).1, List.countP_append]
    omega

/-- All that is reported are facts of admissible sets. -/
theorem Runs.exists_admissible (runs : Runs search reported last)
    (grounded : search.Grounded program) (one_arity : program.OneArity) :
    ∀ facts ∈ reported, ∃ atoms, program.Admissible atoms ∧ factSet facts = factsOf atoms := by
  induction runs with
  | refl => simp
  | advance advanced rest ih =>
    obtain ⟨grounded', admissible⟩ := grounded.advance one_arity advanced
    intro facts member
    rcases List.mem_append.1 member with member | member
    · exact admissible facts member
    · exact ih grounded' facts member

end Search

/-! ### Whole searches -/

/-- A search of the program under these settings, with its work cut into budgets in some way, goes
on without a fault until no work is left, and reports these lists of facts. -/
def Program.Enumerates (program : Program) (settings : Settings) (reported : List (List Fact)) :
    Prop :=
  ∃ search budgets last, Search.start program settings = .ok search ∧
    search.advanceAll budgets = .ok (reported, last) ∧ last.isExhausted = true

/-- The facts of a stable model. -/
def Program.Answer (program : Program) (facts : Set Fact) : Prop :=
  ∃ atoms, program.Stable atoms ∧ factsOf atoms = facts

namespace Program.Enumerates

variable {settings others : Settings} {reported reported' : List (List Fact)} {facts : Set Fact}

/-- All that is reported are facts of admissible sets. -/
theorem exists_admissible (enumerates : program.Enumerates settings reported)
    (one_arity : program.OneArity) :
    ∀ facts ∈ reported, ∃ atoms, program.Admissible atoms ∧ factSet facts = factsOf atoms := by
  obtain ⟨search, budgets, last, started, advanced, -⟩ := enumerates
  exact (Search.runs_of_advanceAll advanced).exists_admissible
    (Search.grounded_of_start started) one_arity

open Classical in
/-- **The facts of a stable model are reported exactly once.** -/
theorem count_eq_one (enumerates : program.Enumerates settings reported)
    (one_arity : program.OneArity)
    (answer : program.Answer facts) : (reported.map factSet).count facts = 1 := by
  obtain ⟨search, budgets, last, started, advanced, exhausted⟩ := enumerates
  obtain ⟨atoms, stable, rfl⟩ := answer
  have law := (Search.runs_of_advanceAll advanced).countBelow_add (Search.grounded_of_start started)
    one_arity stable
  rw [Search.countBelow_of_isExhausted exhausted, Search.countBelow_of_start started stable,
    Nat.zero_add] at law
  rw [List.count, List.countP_map, ← law]
  refine List.countP_congr ?_
  intro reported _
  simp

/-- If no choice offers more than an exhaustive one, then only facts of stable models are
reported. -/
theorem answer_of_concerted (enumerates : program.Enumerates settings reported)
    (one_arity : program.OneArity)
    (concerted : ∀ atoms, program.Admissible atoms → program.Concerted atoms) :
    ∀ facts ∈ reported.map factSet, program.Answer facts := by
  intro facts member
  obtain ⟨listed, hlisted, rfl⟩ := List.mem_map.1 member
  obtain ⟨atoms, admissible, heq⟩ := enumerates.exists_admissible one_arity listed hlisted
  exact ⟨atoms, admissible.stable (concerted atoms admissible), heq.symm⟩

open Classical in
/-- **The seed only changes the order of the stable models**: any two searches of a program in which
every predicate is used with one arity, under whatever seeds and budgets, report the same sets of
facts of stable models, each of them once. If no choice of a tuple offers more than an exhaustive
one does, then they report the same sets of facts, and nothing else. Neither condition can be
spared. -/
theorem perm (one_arity : program.OneArity) (first : program.Enumerates settings reported)
    (second : program.Enumerates others reported') :
    ((reported.map factSet).filter fun facts => program.Answer facts).Perm
      ((reported'.map factSet).filter fun facts => program.Answer facts) ∧
    ((∀ atoms, program.Admissible atoms → program.Concerted atoms) →
      (reported.map factSet).Perm (reported'.map factSet) ∧ (reported.map factSet).Nodup) := by
  have agree : ((reported.map factSet).filter fun facts => program.Answer facts).Perm
      ((reported'.map factSet).filter fun facts => program.Answer facts) := by
    refine List.perm_iff_count.2 ?_
    intro facts
    by_cases answer : program.Answer facts
    · rw [List.count_filter (by simpa using answer), List.count_filter (by simpa using answer),
        first.count_eq_one one_arity answer, second.count_eq_one one_arity answer]
    · rw [List.count_eq_zero.2 (by simp [answer]), List.count_eq_zero.2 (by simp [answer])]
  refine ⟨agree, ?_⟩
  intro concerted
  have answers := first.answer_of_concerted one_arity concerted
  have answers' := second.answer_of_concerted one_arity concerted
  rw [List.filter_eq_self.2 (by simpa using answers),
    List.filter_eq_self.2 (by simpa using answers')]
    at agree
  refine ⟨agree, List.nodup_iff_count_eq_one.2 ?_⟩
  intro facts member
  exact first.count_eq_one one_arity (answers facts member)

end Program.Enumerates

/-! ### Three programs -/

/-- The number of reports of a search, if these budgets are enough for all of its work. -/
def Program.countReports (program : Program) (settings : Settings) (budgets : List Nat) :
    Option Nat :=
  match Search.start program settings with
  | .error _ => none
  | .ok search =>
    match search.advanceAll budgets with
    | .error _ => none
    | .ok (reported, last) => if last.isExhausted then some reported.length else none

theorem Program.exists_enumerates {settings : Settings} {budgets : List Nat} {count : Nat}
    (counted : program.countReports settings budgets = some count) :
    ∃ reported, program.Enumerates settings reported ∧ reported.length = count := by
  rw [countReports] at counted
  split at counted
  · cases counted
  next search started =>
  split at counted
  · cases counted
  next reported last advanced =>
  split at counted
  · next exhausted =>
    exact ⟨reported, ⟨search, budgets, last, started, advanced, exhausted⟩, Option.some.inj counted⟩
  · cases counted

/-- The program that tosses a coin. -/
def coin : Program where
  seeds := ["go"]
  rules := [.run "go" [] [] (.choice "coin" [] [.const "heads" [], .const "tails" []] true)]

/-- There is one choice only. -/
theorem concerted_coin (atoms : Set Atom) : coin.Concerted atoms := by
  refine Program.concerted_of_uniform (fun _ => [.const "heads" [], .const "tails" []]) ?_
  rintro name args offered exhaustive ⟨rule, member, valuation, body, -, -, chooses⟩
  obtain rfl := List.mem_singleton.1 member
  cases chooses with
  | choice _ values_denote =>
    match offered, values_denote with
    | [_, _], ⟨⟨[], rfl, _⟩, ⟨[], rfl, _⟩, _⟩ => rfl

theorem Program.Enumerates.perm_coin : ∃ reported reported', coin.OneArity ∧
    coin.Enumerates { seed := 0 } reported ∧ coin.Enumerates { seed := 1 } reported' ∧
      reported.length = 2 ∧ (reported.map factSet).Perm (reported'.map factSet) := by
  have one_arity : coin.OneArity := by decide
  have counted : coin.countReports { seed := 0 } (List.replicate 4 9) = some 2 := by decide +kernel
  have counted' : coin.countReports { seed := 1 } (List.replicate 4 9) = some 2 := by decide +kernel
  obtain ⟨reported, first, length⟩ := Program.exists_enumerates counted
  obtain ⟨reported', second, -⟩ := Program.exists_enumerates counted'
  exact ⟨reported, reported', one_arity, first, second, length,
    ((Program.Enumerates.perm one_arity first second).2 fun atoms _ => concerted_coin atoms).1⟩

/-- The program in which the order of two handles decides which registrations are merged: on the
left the handle of `p` is issued first, on the right that of `q`. If the tuple of `p` is examined
first, then a second choice for that of `q` is registered before the first one is examined. -/
def crossed : Program where
  seeds := ["go"]
  rules := [
    .run "go" [] [] (.choice "x" [] [.string "l", .string "r"] true),
    .unary ⟨"x", [], .string "l"⟩ (.intermediate "left" []),
    .unary ⟨"x", [], .string "r"⟩ (.intermediate "right" []),
    .run "left" [] [.const (.string "p"), .store 0, .const (.string "q"), .store 1]
      (.intermediate "both" [.var 0, .var 1]),
    .run "right" [] [.const (.string "q"), .store 1, .const (.string "p"), .store 0]
      (.intermediate "both" [.var 0, .var 1]),
    .run "both" [0, 1] [] (.choice "d" [.var 0] [.string "1"] true),
    .run "both" [0, 1] [] (.choice "d" [.var 1] [.string "2", .string "3"] true),
    .unary ⟨"d", [.var 0], .string "1"⟩ (.intermediate "one" []),
    .run "one" [] [.const (.string "q"), .store 0]
      (.choice "d" [.var 0] [.string "1", .string "2"] true)]

/-- Without the condition on the choices the seed may change the number of sets that are
reported. -/
theorem Program.not_forall_length_eq : ¬∀ (program : Program) (settings others : Settings)
    (reported reported' : List (List Fact)), program.OneArity →
    program.Enumerates settings reported →
      program.Enumerates others reported' → reported.length = reported'.length := by
  intro claimed
  have one_arity : crossed.OneArity := by decide
  have counted : crossed.countReports { seed := 0 } (List.replicate 10 100) = some 6 := by
    decide +kernel
  have counted' : crossed.countReports { seed := 5 } (List.replicate 10 100) = some 2 := by
    decide +kernel
  obtain ⟨reported, first, length⟩ := Program.exists_enumerates counted
  obtain ⟨reported', second, length'⟩ := Program.exists_enumerates counted'
  have heq := claimed crossed _ _ reported reported' one_arity first second
  rw [length, length'] at heq
  cases heq

/-- The program in which the order of two handles decides when a tuple is propagated. The premise
over `f` has one argument and the fact has two. If the tuple of `p` is examined first, then the fact
is known when `late` is propagated, and is taken for one that the premise can be read as. -/
def staggered : Program where
  seeds := ["go"]
  rules := [
    .run "go" [] [] (.choice "x" [] [.string "l", .string "r"] true),
    .unary ⟨"x", [], .string "l"⟩ (.intermediate "left" []),
    .unary ⟨"x", [], .string "r"⟩ (.intermediate "right" []),
    .run "left" [] [.const (.string "p"), .store 0, .const (.string "q"), .store 1]
      (.intermediate "both" [.var 0, .var 1]),
    .run "right" [] [.const (.string "q"), .store 1, .const (.string "p"), .store 0]
      (.intermediate "both" [.var 0, .var 1]),
    .run "both" [0, 1] [] (.intermediate "swapped" [.var 1, .var 0]),
    .run "both" [0, 1] [] (.choice "d" [.var 0] [.string "1"] true),
    .run "both" [0, 1] [] (.choice "d" [.var 1] [.string "1"] true),
    .join "both" [0, 1] 1 ⟨"d", [.var 0], .string "1"⟩
      (.fact "f" [.string "1", .string "1"] (.string "1")),
    .join "swapped" [0, 1] 1 ⟨"d", [.var 0], .string "1"⟩ (.intermediate "late" []),
    .join "late" [] 0 ⟨"f", [.wildcard], .wildcard⟩ (.intermediate "strayed" []),
    .run "strayed" [] [] (.choice "e" [] [.string "1", .string "2"] true)]

/-- All choices of one predicate have the same values. -/
theorem concerted_staggered (atoms : Set Atom) : staggered.Concerted atoms := by
  refine Program.concerted_of_uniform (fun name =>
    if name = "x" then [.string "l", .string "r"]
    else if name = "d" then [.string "1"] else [.string "1", .string "2"]) ?_
  rintro name args offered exhaustive ⟨rule, member, valuation, body, -, -, chooses⟩
  simp only [staggered, List.mem_cons, List.not_mem_nil, or_false] at member
  rcases member with rfl | rfl | rfl | rfl | rfl | rfl | rfl | rfl | rfl | rfl | rfl | rfl <;>
    obtain ⟨-, values_denote⟩ := chooses <;>
      rcases offered with _ | ⟨first, _ | ⟨second, _ | _⟩⟩ <;>
        simp_all [Pattern.DenoteAll, Pattern.Denotes]

/-- Without one arity it may change that number too, even if the condition on the choices holds. -/
theorem Program.not_forall_length_eq_of_concerted : ¬∀ (program : Program)
    (settings others : Settings)
    (reported reported' : List (List Fact)), (∀ atoms, program.Concerted atoms) →
      program.Enumerates settings reported → program.Enumerates others reported' →
        reported.length = reported'.length := by
  intro claimed
  have counted : staggered.countReports { seed := 0 } (List.replicate 8 100) = some 4 := by
    decide +kernel
  have counted' : staggered.countReports { seed := 5 } (List.replicate 8 100) = some 2 := by
    decide +kernel
  obtain ⟨reported, first, length⟩ := Program.exists_enumerates counted
  obtain ⟨reported', second, length'⟩ := Program.exists_enumerates counted'
  have heq := claimed staggered _ _ reported reported' concerted_staggered first second
  rw [length, length'] at heq
  cases heq

end StableModels
