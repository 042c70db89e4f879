import StableModels.Proofs.Examination

/-!
# Reachable partial models

A search reaches partial models from the one in which the seeds are planted, by steps of saturation
and by examinations, while the store that they share grows on behalf of others
(`StableModels.Reached`). Along with a partial model we keep the news that examinations have
asserted on the way to it; which entries have been registered on the way can be read off the steps
that lead to it (`StableModels.Workspace.Registered`).

What holds of all of them that are alive is collected in `StableModels.Workspace.Regular`. At its
heart is the invariant of saturation: every instance is settled whose atoms are all known and wait
no more. A step takes one piece of news off the agenda, and fires just those instances that the
invariant has to speak of from then on. An examination adds to the agenda whatever it adds to the
partial model, so that there the invariant has to speak of no further instance.
-/

namespace StableModels

/-! ### Planting the seeds -/

namespace PartialModel

variable {rules : RuleSet} {model after : PartialModel} {name : String} {args : List Handle}

theorem alive_of_derive (derived : model.derive rules name args = .ok after)
    (survives : after.isDead = false) : model.isDead = false := by
  cases derivation_of_derive derived with
  | known | joins => exact survives
  | kills => cases survives

theorem alive_of_plant {seeds : List String} (planted : model.plant rules seeds = .ok after)
    (survives : after.isDead = false) : model.isDead = false := by
  induction seeds generalizing model with
  | nil => exact Except.ok.inj planted ▸ survives
  | cons seed seeds ih =>
    obtain ⟨middle, derived, planted⟩ := exists_of_plant_cons planted
    exact alive_of_derive derived (ih planted)

/-- What planting seeds makes of a partial model that survives it. -/
structure Plants (rules : RuleSet) (seeds : List String) (before after : PartialModel) : Prop where
  /-- It stays sound. -/
  sound : after.Sound
  /-- The seeds are known, and nothing else is new. -/
  known : ∀ news, news ∈ after.known ↔ (∃ seed ∈ seeds, news = .tuple seed []) ∨ news ∈ before.known
  /-- What is new waits on the agenda. -/
  queues : Queues before after
  /-- The choices are as before. -/
  choices : after.choices = before.choices
  /-- The constraints are as before. -/
  get? : ∀ name args, after.database.get? name args = before.database.get? name args
  /-- No seed is new that is forbidden. -/
  allowed : ∀ seed ∈ seeds, rules.isForbidden seed = true → before.derives seed [] = true

theorem Sound.plants (sound : model.Sound) {seeds : List String}
    (planted : model.plant rules seeds = .ok after) (survives : after.isDead = false) :
    Plants rules seeds model after := by
  induction seeds generalizing model with
  | nil =>
    obtain rfl := Except.ok.inj planted
    exact ⟨sound, by simp, .refl model, rfl, fun _ _ => rfl, by simp⟩
  | cons seed seeds ih =>
    obtain ⟨middle, derived, planted⟩ := exists_of_plant_cons planted
    obtain ⟨learns, hallowed⟩ := sound.learns_derive derived (alive_of_plant planted survives)
    have plants := ih learns.sound planted
    constructor
    case sound => exact plants.sound
    case queues => exact learns.queues.trans plants.queues
    case choices => exact plants.choices.trans learns.choices
    case known =>
      intro news
      rw [plants.known, learns.known]
      simp only [List.mem_cons, exists_eq_or_imp]
      exact or_left_comm.trans or_assoc.symm
    case get? =>
      intro name args
      rcases learns.get? name args with same | ⟨value, heq, -⟩
      · exact (plants.get? name args).trans same
      · cases heq
    case allowed =>
      intro other member forbidden
      -- A seed may be planted twice, and is then known already the second time.
      rcases List.mem_cons.1 member with rfl | member
      · exact hallowed forbidden
      · rcases (learns.known (.tuple other [])).1 (plants.allowed other member forbidden) with
          heq | known
        · obtain ⟨rfl, -⟩ := News.tuple.inj heq
          exact hallowed forbidden
        · exact known

@[simp] theorem known_empty : known {} = ∅ := by
  ext news
  cases news with
  | fact name args value => exact iff_of_false (by simp [Database.get?_empty]) (by simp)
  | tuple name args =>
    refine iff_of_false ?_ (by simp)
    simp [derives, PartialModel.tuplesOf, OrderedMap.find?, Trie.find?_empty]

/-- **The root of the search**: the seeds are derived, and nothing else. -/
theorem plants_of_seeded (planted : seeded rules = .ok model) (survives : model.isDead = false) :
    Plants rules rules.seeds {} model := sound_empty.plants planted survives

end PartialModel

/-! ### Reachable partial models -/

/-- **The partial models that a search can reach**, each with a store and with the news that
examinations have asserted on the way. -/
inductive Reached (program : Program) (rules : RuleSet) : Workspace → Set News → Prop where
  /-- The root of the search. -/
  | root {model : PartialModel} {store : Store}
      (compiled : RuleSet.compile program .initial = .ok (rules, store))
      (planted : PartialModel.seeded rules = .ok model) : Reached program rules ⟨model, store⟩ ∅
  /-- Meanwhile the store has grown. -/
  | grow {model : PartialModel} {store more : Store} {asserted : Set News}
      (reached : Reached program rules ⟨model, store⟩ asserted) (sound : more.Sound)
      (extension : store.Extends more) : Reached program rules ⟨model, more⟩ asserted
  /-- A step of saturation. -/
  | step {model : PartialModel} {store : Store} {after : Workspace} {asserted : Set News}
      {progress : Bool} (reached : Reached program rules ⟨model, store⟩ asserted)
      (stepped : Saturating.step rules ⟨model, store⟩ = .ok progress after) :
      Reached program rules after asserted
  /-- An examination, or one of the branches that it leads to. -/
  | examine {model after : PartialModel} {store : Store} {asserted : Set News}
      (reached : Reached program rules ⟨model, store⟩ asserted)
      (examined : model.Examined rules after) :
      Reached program rules ⟨after, store⟩
        (asserted ∪ {news | news ∈ after.known ∧ news ∉ model.known})

namespace Workspace

/-- What one workspace on the way to a partial model comes after: the one before it has grown, or
made a step, or been examined. -/
inductive Advances (rules : RuleSet) : Workspace → Workspace → Prop where
  /-- The store has grown. -/
  | grow {model : PartialModel} {store more : Store} (sound : more.Sound)
      (extension : store.Extends more) : Advances rules ⟨model, store⟩ ⟨model, more⟩
  /-- A step of saturation. -/
  | step {before after : Workspace} {progress : Bool}
      (stepped : Saturating.step rules before = .ok progress after) : Advances rules before after
  /-- An examination, or one of the branches that it leads to. -/
  | examine {model after : PartialModel} {store : Store} (examined : model.Examined rules after) :
      Advances rules ⟨model, store⟩ ⟨after, store⟩

/-- On the way to the workspace the entry was registered. -/
def Registered (program : Program) (rules : RuleSet) (workspace : Workspace)
    (entry : ChoiceKey × Choice) : Prop :=
  ∃ earlier asserted, Reached program rules earlier asserted ∧
    Relation.ReflTransGen (Advances rules) earlier workspace ∧ entry ∈ earlier.model.choices

theorem Registered.advance {program : Program} {rules : RuleSet} {before after : Workspace}
    (advances : Advances rules before after) :
    ∀ entry, before.Registered program rules entry → after.Registered program rules entry :=
  fun _ ⟨earlier, asserted, reached, leads, member⟩ =>
    ⟨earlier, asserted, reached, leads.tail advances, member⟩

end Workspace

/-- **What holds of a living partial model** that a search reaches. -/
structure Workspace.Regular (program : Program) (rules : RuleSet) (asserted : Set News)
    (workspace : Workspace) : Prop where
  /-- What waits is known. -/
  agenda : ∀ news ∈ workspace.model.agenda, news ∈ workspace.model.known
  /-- The seeds are derived. -/
  seeds : ∀ name ∈ program.seeds, workspace.model.derives name [] = true
  /-- Nothing forbidden is derived. -/
  allowed : ∀ name, rules.isForbidden name = true →
    ∀ args, workspace.model.derives name args = false
  /-- Everything has a reason. -/
  justified : program.OneArity → workspace.model.Justified program workspace.store
  /-- Everything is derivable from what examinations have asserted. -/
  derivable : program.OneArity → ∀ atom ∈ workspace.model.atoms workspace.store,
    Derivable program (workspace.store.meaning asserted) atom
  /-- Every instance is settled whose atoms are known and wait no more. -/
  settled : ∀ rule ∈ program.rules, ∀ valuation body, rule.Instance valuation body →
    (∀ atom ∈ body, atom ∈ workspace.store.meaning workspace.model.propagated) →
      rule.conclusion.Settled (workspace.Registered program rules) workspace.store workspace.model
        valuation

theorem Rule.Instance.exists_mem {rule : Rule} {valuation : Valuation} {body : List Atom}
    (inst : rule.Instance valuation body) : ∃ atom, atom ∈ body := by
  cases inst <;> exact ⟨_, List.mem_cons_self⟩

theorem Store.meaning_subset_of_extends {store more : Store} (extension : store.Extends more)
    (known : Set News) : store.meaning known ⊆ more.meaning known :=
  fun _ ⟨news, member, reads⟩ => ⟨news, member, reads.mono extension⟩

variable {program : Program} {rules : RuleSet} {model after : PartialModel} {store more : Store}
  {asserted : Set News}

namespace PartialModel

/-! ### The root -/

theorem Plants.readable (plants : Plants rules rules.seeds {} model) (program : Program)
    (store : Store) : model.Readable program store where
  sound := plants.sound
  tuples := by
    intro name args derived
    rcases (plants.known (.tuple name args)).1 derived with ⟨seed, -, heq⟩ | known
    · obtain ⟨-, rfl⟩ := News.tuple.inj heq
      exact ⟨[], .nil⟩
    · simp at known
  constrained := by
    intro name args constraint found
    rw [plants.get?] at found
    cases found
  choices := by simp [plants.choices]

theorem Plants.mem_atoms_iff (plants : Plants rules rules.seeds {} model) {store : Store}
    {atom : Atom} :
    atom ∈ model.atoms store ↔ ∃ seed ∈ rules.seeds, atom = .tuple seed [] := by
  constructor
  · rintro ⟨news, member, reads⟩
    rcases (plants.known news).1 member with ⟨seed, hseed, rfl⟩ | known
    · cases reads with
      | tuple args_expand =>
        cases args_expand
        exact ⟨seed, hseed, rfl⟩
    · simp at known
  · rintro ⟨seed, hseed, rfl⟩
    exact ⟨_, (plants.known _).2 (Or.inl ⟨seed, hseed, rfl⟩), .tuple .nil⟩

theorem Plants.regular (plants : Plants rules rules.seeds {} model)
    (compiles : rules.Compiles program store) :
    Workspace.Regular program rules ∅ ⟨model, store⟩ where
  agenda := plants.queues.agenda_known (by simp)
  seeds := fun name member =>
    (plants.known (.tuple name [])).2 (Or.inl ⟨name, compiles.seeds ▸ member, rfl⟩)
  allowed := by
    intro name forbidden args
    by_contra derived
    rw [Bool.not_eq_false] at derived
    rcases (plants.known (.tuple name args)).1 derived with ⟨seed, member, heq⟩ | known
    · obtain ⟨rfl, rfl⟩ := News.tuple.inj heq
      have known : News.tuple name [] ∈ PartialModel.known {} :=
        plants.allowed name member forbidden
      simp at known
    · simp at known
  justified := by
    intro _
    refine ⟨fun atom member => ?_, by simp [plants.choices], by simp [plants.choices], ?_⟩
    · obtain ⟨seed, hseed, rfl⟩ := plants.mem_atoms_iff.1 member
      exact .seed (compiles.seeds ▸ hseed)
    · intro name args excluded found
      rw [plants.get?] at found
      cases found
  derivable := by
    intro _ atom member
    obtain ⟨seed, hseed, rfl⟩ := plants.mem_atoms_iff.1 member
    exact .seed (compiles.seeds ▸ hseed)
  settled := by
    -- Every body asks for something, and at the root everything still waits.
    intro rule _ valuation body inst propagated
    obtain ⟨atom, hatom⟩ := inst.exists_mem
    obtain ⟨news, member, -⟩ := propagated atom hatom
    have known := (plants.queues.propagated_subset member).1
    simp at known

end PartialModel

namespace Workspace

/-! ### What is preserved -/

theorem Regular.grow (regular : Regular program rules asserted ⟨model, store⟩)
    (readable : model.Readable program store) (sound : more.Sound)
    (extension : store.Extends more) :
    Regular program rules asserted ⟨model, more⟩ where
  agenda := regular.agenda
  seeds := regular.seeds
  allowed := regular.allowed
  justified := fun one_arity => (regular.justified one_arity).mono extension readable
  derivable := by
    intro one_arity
    rw [readable.atoms_eq extension]
    intro atom member
    exact (regular.derivable one_arity atom member).mono
      (Store.meaning_subset_of_extends extension asserted)
  settled := by
    intro rule member valuation body inst propagated
    have before : ∀ atom ∈ body, atom ∈ store.meaning model.propagated := by
      rwa [← Store.meaning_eq extension fun news hnews => readable.reads news hnews.1]
    have settled := (regular.settled rule member valuation body inst before).mono extension
    exact settled.imp (Registered.advance (.grow sound extension))

/-- Taking news off the agenda does not change what is settled. -/
theorem settled_dropNews {registered : ChoiceKey × Choice → Prop} {conclusion : Conclusion}
    {valuation : Valuation} (settled : conclusion.Settled registered store model valuation)
    (agenda : List News) :
    conclusion.Settled registered store { model with agenda := agenda } valuation := by
  have refl := PartialModel.Evolves.refl model
  have evolves : PartialModel.Evolves model { model with agenda := agenda } :=
    ⟨⟨id, fun _ => id, refl.excluded⟩, refl.choices⟩
  exact settled.evolve evolves

/-- **What a step of saturation does** to a workspace that it does not leave as it is. -/
theorem Regular.ensures_step (regular : Regular program rules asserted ⟨model, store⟩)
    (fit : Fit program rules ⟨model, store⟩) (alive : model.isDead = false) :
    Saturating.Ensures (Saturating.step rules) ⟨model, store⟩ fun _ last =>
      last = ⟨model, store⟩ ∨ ∃ news agenda atom fired, model.agenda = news :: agenda ∧
        news.Reads store atom ∧
        Firings program rules ⟨{ model with agenda := agenda }, store⟩ fired last ∧
        (last.model.isDead = false → ∀ rule ∈ program.rules, ∀ valuation,
          rule.Involves store (PartialModel.propagated { model with agenda := agenda })
              atom valuation →
            ∃ least, (rule, least) ∈ fired ∧ least.Within valuation) := by
  cases pending : model.agenda with
  | nil =>
    rw [Saturating.Ensures, StableModels.Ensures, Saturating.step, alive, pending]
    exact ⟨fit.sound, .refl store, Or.inl rfl⟩
  | cons news agenda =>
    have known := regular.agenda news (pending ▸ List.mem_cons_self)
    obtain ⟨atom, reads⟩ := (fit.readable alive).reads news known
    have seen_known : PartialModel.propagated { model with agenda := agenda } ⊆ model.known :=
      fun _ member => member.1
    refine (Saturating.ensures_step fit alive pending known reads seen_known).mono ?_
    rintro progress last - - ⟨fired, firings, covered⟩
    exact Or.inr ⟨news, agenda, atom, fired, rfl, reads, firings, covered⟩

/-- Firing every instance that a piece of news completes preserves the invariant, if the news is
taken off the agenda first. -/
theorem Regular.fired (regular : Regular program rules asserted ⟨model, store⟩)
    (fit : Fit program rules ⟨model, store⟩) (alive : model.isDead = false) {last : Workspace}
    {news : News} {agenda : List News} {atom : Atom} {fired : List (Rule × Valuation)}
    (pending : model.agenda = news :: agenda) (reads : news.Reads store atom)
    (firings : Firings program rules ⟨{ model with agenda := agenda }, store⟩ fired last)
    (covered : ∀ rule ∈ program.rules, ∀ valuation,
      rule.Involves store (PartialModel.propagated { model with agenda := agenda }) atom
        valuation → ∃ least, (rule, least) ∈ fired ∧ least.Within valuation)
    (advances : Advances rules ⟨model, store⟩ last) (survives : last.model.isDead = false) :
    Regular program rules asserted last := by
  have hfit := fit.dropNews agenda
  have readable := fit.readable alive
  have queues := firings.queues hfit survives
  have known_subset : model.known ⊆ last.model.known := queues.known_subset
  constructor
  case agenda =>
    refine queues.agenda_known ?_
    intro other member
    have waits : other ∈ model.agenda := pending ▸ List.mem_cons_of_mem _ member
    exact regular.agenda other waits
  case seeds =>
    intro name member
    have derived : News.tuple name [] ∈ model.known := regular.seeds name member
    exact known_subset derived
  case allowed =>
    intro name forbidden
    exact firings.derives_eq_false hfit survives forbidden (regular.allowed name forbidden)
  case justified =>
    intro one_arity
    have justified := regular.justified one_arity
    refine firings.justified one_arity hfit ?_ survives
    exact ⟨justified.founded, justified.offered, justified.exhaustive, justified.narrowed⟩
  case derivable =>
    intro one_arity
    refine firings.forall_atoms one_arity hfit survives ?_ ?_
    · intro rule member valuation body other inst derivable gives
      exact .rule member inst derivable gives
    · intro other member
      exact (regular.derivable one_arity other member).mono
        (Store.meaning_subset_of_extends firings.extension asserted)
  case settled =>
    intro rule member valuation body inst propagated
    -- What is known and waits no more was known before, and waited no more or is the news.
    have seen : ∀ other ∈ body,
        other ∈ store.meaning (PartialModel.propagated { model with agenda := agenda }) := by
      intro other hother
      have hmeaning := last.store.meaning_mono queues.propagated_subset (propagated other hother)
      rwa [Store.meaning_eq firings.extension fun news hnews =>
        readable.reads news hnews.1] at hmeaning
    -- If the news completes the instance then it has fired, and otherwise it was settled before.
    by_cases hatom : atom ∈ body
    · obtain ⟨least, hleast, within⟩ := covered rule member valuation ⟨body, inst, seen, hatom⟩
      exact (firings.settled hfit survives hleast).within within
    · have before : ∀ other ∈ body, other ∈ store.meaning model.propagated := by
        intro other hother
        obtain ⟨found, ⟨known, waits⟩, hreads⟩ := seen other hother
        refine ⟨found, ⟨known, ?_⟩, hreads⟩
        intro hfound
        rw [pending] at hfound
        rcases List.mem_cons.1 hfound with rfl | hfound
        · exact hatom (hreads.unique reads ▸ hother)
        · exact waits hfound
      have settled := regular.settled rule member valuation body inst before
      have hsettled := firings.settled_of_settled hfit survives (settled_dropNews settled agenda)
      exact hsettled.imp (Registered.advance advances)

/-- **A step preserves the invariant.** -/
theorem Regular.step (regular : Regular program rules asserted ⟨model, store⟩)
    (fit : Fit program rules ⟨model, store⟩) (alive : model.isDead = false) {last : Workspace}
    {progress : Bool} (stepped : Saturating.step rules ⟨model, store⟩ = .ok progress last) :
    last.Fit program rules ∧ (last.model.isDead = false → Regular program rules asserted last) := by
  have ensures := regular.ensures_step fit alive
  rw [Saturating.Ensures, StableModels.Ensures, stepped] at ensures
  obtain ⟨-, -, rfl | ⟨news, agenda, atom, fired, pending, reads, firings, covered⟩⟩ := ensures
  · exact ⟨fit, fun _ => regular⟩
  · refine ⟨firings.fit (fit.dropNews agenda), ?_⟩
    intro survives
    exact regular.fired fit alive pending reads firings (covered survives) (.step stepped) survives

/-- **An examination preserves the invariant.** -/
theorem Regular.examine (regular : Regular program rules asserted ⟨model, store⟩)
    (reached : Reached program rules ⟨model, store⟩ asserted)
    (readable : model.Readable program store) (examined : model.Examined rules after)
    (survives : after.isDead = false) :
    Regular program rules (asserted ∪ {news | news ∈ after.known ∧ news ∉ model.known})
      ⟨after, store⟩ := by
  have decides := examined.decides readable.sound survives
  have queues := decides.queues readable.sound survives
  have derives := decides.derives readable.sound survives
  have advances : Advances rules ⟨model, store⟩ ⟨after, store⟩ := .examine examined
  constructor
  case agenda => exact queues.agenda_known regular.agenda
  case seeds =>
    intro name member
    exact (derives name []).2 (regular.seeds name member)
  case allowed =>
    intro name forbidden args
    rw [← Bool.not_eq_true, derives, Bool.not_eq_true]
    exact regular.allowed name forbidden args
  case justified =>
    intro one_arity
    exact decides.justified readable (regular.justified one_arity) survives
  case derivable =>
    rintro one_arity atom ⟨news, hnews, reads⟩
    by_cases known : news ∈ model.known
    · have derivable := regular.derivable one_arity atom ⟨news, known, reads⟩
      exact derivable.mono (store.meaning_mono Set.subset_union_left)
    · exact .given ⟨news, Or.inr ⟨hnews, known⟩, reads⟩
  case settled =>
    -- Nothing waits less after an examination, so that no further instance has to be settled.
    intro rule member valuation body inst propagated
    have before : ∀ atom ∈ body, atom ∈ store.meaning model.propagated := by
      intro atom hatom
      exact store.meaning_mono queues.propagated_subset (propagated atom hatom)
    have settled := (regular.settled rule member valuation body inst before).imp
      (Registered.advance advances)
    refine settled.decide decides readable.sound ?_ survives
    intro entry hentry
    exact ⟨_, _, reached, .single advances, hentry⟩

end Workspace

/-! ### All reachable partial models -/

namespace Reached

variable {workspace : Workspace}

/-- The rules of the program can be fired on every reachable partial model, and the invariant holds
if it is alive. -/
theorem fit_and_regular (reached : Reached program rules workspace asserted) :
    workspace.Fit program rules ∧
      (workspace.model.isDead = false → workspace.Regular program rules asserted) := by
  induction reached with
  | root compiled planted =>
    obtain ⟨sound, -, compiles⟩ := RuleSet.compile_sound Store.sound_initial compiled
    refine ⟨⟨sound, compiles, fun survives => ?_⟩, fun survives => ?_⟩
    · exact (PartialModel.plants_of_seeded planted survives).readable program _
    · exact (PartialModel.plants_of_seeded planted survives).regular compiles
  | grow reached sound extension ih =>
    obtain ⟨fit, regular⟩ := ih
    refine ⟨fit.grow sound extension, ?_⟩
    intro survives
    exact (regular survives).grow (fit.readable survives) sound extension
  | @step model store after asserted progress reached stepped ih =>
    obtain ⟨fit, regular⟩ := ih
    cases dead : model.isDead with
    | true =>
      rw [Saturating.step, if_pos dead] at stepped
      cases stepped
      exact ⟨fit, regular⟩
    | false => exact (regular dead).step fit dead stepped
  | @examine model after store asserted reached examined ih =>
    obtain ⟨fit, regular⟩ := ih
    refine ⟨⟨fit.sound, fit.compiles, fun survives => ?_⟩, fun survives => ?_⟩
    · have readable := fit.readable (examined.alive survives)
      exact (examined.decides readable.sound survives).readable readable survives
    · have alive := examined.alive survives
      exact (regular alive).examine reached (fit.readable alive) examined survives

theorem fit (reached : Reached program rules workspace asserted) : workspace.Fit program rules :=
  reached.fit_and_regular.1

theorem readable (reached : Reached program rules workspace asserted)
    (alive : workspace.model.isDead = false) : workspace.model.Readable program workspace.store :=
  reached.fit.readable alive

theorem regular (reached : Reached program rules workspace asserted)
    (alive : workspace.model.isDead = false) : workspace.Regular program rules asserted :=
  reached.fit_and_regular.2 alive

end Reached

/-! ### On the way -/

namespace Workspace

variable {before workspace earlier : Workspace}

/-- What comes next is reached, has a store that extends the one before, and knows all that was
known. -/
theorem Advances.reached {next : Workspace} (advances : Advances rules before next)
    (reached : Reached program rules before asserted) :
    ∃ asserted, Reached program rules next asserted ∧ before.store.Extends next.store ∧
      (next.model.isDead = false →
        before.model.isDead = false ∧ before.model.known ⊆ next.model.known) := by
  cases advances with
  | grow sound extension =>
    exact ⟨_, .grow reached sound extension, extension, fun alive => ⟨alive, fun _ => id⟩⟩
  | step stepped =>
    refine ⟨_, .step reached stepped, ?_⟩
    obtain ⟨model, store⟩ := before
    cases dead : model.isDead with
    | true =>
      rw [Saturating.step, if_pos dead] at stepped
      cases stepped
      exact ⟨.refl store, fun alive => by simp [dead] at alive⟩
    | false =>
      have ensures := (reached.regular dead).ensures_step reached.fit dead
      rw [Saturating.Ensures, StableModels.Ensures, stepped] at ensures
      obtain ⟨-, extension, rfl | ⟨news, agenda, atom, fired, -, -, firings, -⟩⟩ := ensures
      · exact ⟨extension, fun _ => ⟨rfl, fun _ => id⟩⟩
      · refine ⟨extension, ?_⟩
        intro survives
        exact ⟨rfl, (firings.evolves (reached.fit.dropNews agenda) survives).known⟩
  | @examine model after store examined =>
    refine ⟨_, .examine reached examined, .refl store, ?_⟩
    intro survives
    have alive := examined.alive survives
    have sound := (reached.readable alive).sound
    exact ⟨alive, ((examined.decides sound survives).refines sound survives).known⟩

/-- Whatever lies on the way to a workspace says less. -/
theorem reached_of_leads (reached : Reached program rules earlier asserted)
    (leads : Relation.ReflTransGen (Advances rules) earlier workspace) :
    ∃ asserted, Reached program rules workspace asserted ∧
      earlier.store.Extends workspace.store ∧ (workspace.model.isDead = false →
        earlier.model.isDead = false ∧ earlier.model.known ⊆ workspace.model.known) := by
  induction leads with
  | refl => exact ⟨_, reached, .refl _, fun alive => ⟨alive, fun _ => id⟩⟩
  | tail _ advances ih =>
    obtain ⟨_, reached', extension, known⟩ := ih
    obtain ⟨asserted, reached'', extension', known'⟩ := advances.reached reached'
    refine ⟨asserted, reached'', extension.trans extension', ?_⟩
    intro survives
    obtain ⟨alive, subset'⟩ := known' survives
    obtain ⟨alive', subset⟩ := known alive
    exact ⟨alive', subset.trans subset'⟩

/-- On the way to the workspace an entry with these values was registered for the tuple. -/
def Pooled (program : Program) (rules : RuleSet) (workspace : Workspace) (name : String)
    (args : List Term) (values : Set Term) : Prop :=
  ∃ entry, workspace.Registered program rules entry ∧ entry.1.name = name ∧
    workspace.store.Expands entry.1.args args ∧
      values = {term | ∃ value ∈ entry.2.values, workspace.store.expand value = some term}

/-- **Every value that was registered for a tuple is offered by some instance**, if every predicate
is used with one arity. -/
theorem Pooled.offered {name : String} {args : List Term} {values : Set Term}
    (pooled : workspace.Pooled program rules name args values) (one_arity : program.OneArity)
    (alive : workspace.model.isDead = false) {term : Term} (member : term ∈ values) :
    ∃ offered exhaustive,
      program.Offers (workspace.model.atoms workspace.store) name args offered exhaustive ∧
        term ∈ offered := by
  obtain ⟨entry, ⟨earlier, asserted, reached, leads, hentry⟩, rfl, args_expand, rfl⟩ := pooled
  obtain ⟨value, hvalue, value_expands⟩ := member
  obtain ⟨-, -, extension, known⟩ := reached_of_leads reached leads
  obtain ⟨alive', subset⟩ := known alive
  -- At the time when the entry was registered, its values had been offered.
  obtain ⟨⟨args_read, -⟩, values_read⟩ := (reached.readable alive').choices entry hentry
  obtain ⟨offered, exhaustive, offers, hterm⟩ :=
    ((reached.regular alive').justified one_arity).offered entry hentry args
      (PartialModel.expands_of_extends extension args_read args_expand) value hvalue term
      (PartialModel.expand_of_extends extension (values_read value hvalue) value_expands)
  refine ⟨offered, exhaustive, offers.mono ?_, hterm⟩
  exact (PartialModel.atoms_subset_of_extends extension earlier.model).trans
    (workspace.store.meaning_mono subset)

end Workspace

end StableModels
