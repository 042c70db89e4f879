import StableModels.Proofs.Compilation

/-!
# Firings

What saturation does to a partial model and its store is a sequence of **firings**: the store grows,
and the conclusions of instances are carried out (`StableModels.Firings`). Everything that has to be
preserved by saturation is preserved by a firing and hence by all of them.

The other half of the meaning of saturation is what it does not leave out. A computation **fires** a
set of instances (`StableModels.Saturating.Fires`) if it is such a sequence and, unless the partial
model dies on the way, each instance of the set was fired, possibly under a smaller valuation.
-/

namespace StableModels

/-! ### Computations on workspaces -/

namespace Saturating

/-- The computation keeps the store sound and extends it, and its result, if there is one, is as
described. -/
abbrev Ensures {α : Type} (compute : Saturating α) (workspace : Workspace)
    (post : α → Workspace → Prop) : Prop :=
  StableModels.Ensures Workspace.store compute workspace post

variable {α : Type} {model : PartialModel} {store : Store}

theorem ensures_interning {compute : Interning α} {post : α → Store → Prop}
    (ensures : compute.Ensures store post) :
    Ensures (interning compute) ⟨model, store⟩ fun result after =>
      after.model = model ∧ post result after.store := by
  rw [Interning.Ensures, StableModels.Ensures] at ensures
  rw [Ensures, StableModels.Ensures, interning]
  cases hcompute : compute store with
  | error fault after =>
    rw [hcompute] at ensures
    simp only
    exact ensures
  | ok result after =>
    rw [hcompute] at ensures
    exact ⟨ensures.1, ensures.2.1, rfl, ensures.2.2⟩

theorem ensures_change (sound : store.Sound) (update : PartialModel → Except Fault PartialModel) :
    Ensures (change update) ⟨model, store⟩ fun _ after =>
      after.store = store ∧ update model = .ok after.model := by
  rw [Ensures, StableModels.Ensures, change]
  cases hupdate : update model with
  | error fault => exact ⟨sound, .refl store⟩
  | ok after => exact ⟨sound, .refl store, rfl, rfl⟩

end Saturating

open Saturating

/-- Instantiating a conclusion and carrying it out. -/
theorem CompiledConclusion.ensures_carryOut {store : Store} (sound : store.Sound) (rules : RuleSet)
    (model : PartialModel) {conclusion : Conclusion} {compiled : CompiledConclusion}
    (compiles : conclusion.Compiles store compiled) {substitution : Substitution}
    (known : substitution.Known store) :
    Saturating.Ensures (compiled.carryOut rules substitution) ⟨model, store⟩ fun _ after =>
      conclusion.Carries rules after.store (substitution.valuation store) model after.model := by
  cases compiles with
  | intermediate args_compile =>
    rw [carryOut]
    have hargs := Substitution.ensures_instantiateAll sound known args_compile
    refine (ensures_interning hargs).bind ?_
    rintro handles ⟨_, middle⟩ hsound - ⟨rfl, terms, args_expand, pins⟩
    refine (ensures_change hsound _).mono ?_
    rintro _ ⟨after, _⟩ - - ⟨rfl, derived⟩
    exact .tuple (Conclusion.pins_intermediate pins) args_expand derived
  | fact args_compile value_compiles =>
    rw [carryOut]
    have hargs := Substitution.ensures_instantiateAll sound known args_compile
    refine (ensures_interning hargs).bind ?_
    rintro handles ⟨_, middle⟩ hsound extension ⟨rfl, terms, args_expand, pins⟩
    have hvalue := Substitution.ensures_instantiate hsound (known.mono extension)
      (value_compiles.mono extension)
    refine (ensures_interning hvalue).bind ?_
    rintro value ⟨_, last⟩ hsound' extension' ⟨rfl, term, value_expands, value_pins⟩
    -- Interning the arguments has made the store larger, which does not change the valuation.
    rw [known.valuation_eq extension] at value_pins
    refine (ensures_change hsound' _).mono ?_
    rintro _ ⟨after, _⟩ - - ⟨rfl, asserted⟩
    exact .fact (Conclusion.pins_fact pins value_pins) (extension'.expands args_expand)
      value_expands asserted
  | choice args_compile values_compile =>
    rw [carryOut]
    have hargs := Substitution.ensures_instantiateAll sound known args_compile
    refine (ensures_interning hargs).bind ?_
    rintro handles ⟨_, middle⟩ hsound extension ⟨rfl, terms, args_expand, pins⟩
    have hvalues := Substitution.ensures_instantiateAll hsound (known.mono extension)
      (CompilesAll.mono extension values_compile)
    refine (ensures_interning hvalues).bind ?_
    rintro members ⟨_, last⟩ hsound' extension' ⟨rfl, offered, values_expand, values_pin⟩
    rw [known.valuation_eq extension] at values_pin
    refine (ensures_change hsound' _).mono ?_
    rintro _ ⟨after, _⟩ - - ⟨rfl, registered⟩
    exact .choice (Conclusion.pinsChoice_choice pins values_pin) (extension'.expands args_expand)
      values_expand (Except.ok.inj registered).symm

/-! ### Sequences of firings -/

/-- **A sequence of firings**, each of a rule under a valuation. If predicates have one arity each,
then under the valuation the rule has an instance whose body is held when it fires. -/
inductive Firings (program : Program) (rules : RuleSet) :
    Workspace → List (Rule × Valuation) → Workspace → Prop where
  /-- Nothing happens. -/
  | refl (workspace : Workspace) : Firings program rules workspace [] workspace
  /-- The store grows. -/
  | grow {model : PartialModel} {store more : Store} {fired : List (Rule × Valuation)}
      {after : Workspace} (sound : more.Sound) (extension : store.Extends more)
      (rest : Firings program rules ⟨model, more⟩ fired after) :
      Firings program rules ⟨model, store⟩ fired after
  /-- A conclusion is carried out. -/
  | fire {model changed : PartialModel} {store : Store} {rule : Rule} {valuation : Valuation}
      {fired : List (Rule × Valuation)} {after : Workspace} (alive : model.isDead = false)
      (member : rule ∈ program.rules)
      (inst : program.OneArity → ∃ body, rule.Instance valuation body ∧
        ∀ atom ∈ body, atom ∈ model.atoms store)
      (carries : rule.conclusion.Carries rules store valuation model changed)
      (rest : Firings program rules ⟨changed, store⟩ fired after) :
      Firings program rules ⟨model, store⟩ ((rule, valuation) :: fired) after

/-- A workspace on which the rules of the program can be fired. -/
structure Workspace.Fit (program : Program) (rules : RuleSet) (workspace : Workspace) : Prop where
  /-- The store is sound. -/
  sound : workspace.store.Sound
  /-- The rules are compiled in the store. -/
  compiles : rules.Compiles program workspace.store
  /-- A living partial model can be read. -/
  readable : workspace.model.isDead = false → workspace.model.Readable program workspace.store

theorem Workspace.Fit.grow {program : Program} {rules : RuleSet} {model : PartialModel}
    {store more : Store} (fit : Fit program rules ⟨model, store⟩) (sound : more.Sound)
    (extension : store.Extends more) : Fit program rules ⟨model, more⟩ :=
  ⟨sound, fit.compiles.mono extension, fun alive => (fit.readable alive).mono extension⟩

/-- Carrying out a conclusion of the program. -/
theorem Workspace.Fit.fire {program : Program} {rules : RuleSet} {model changed : PartialModel}
    {store : Store} {rule : Rule} {valuation : Valuation} (fit : Fit program rules ⟨model, store⟩)
    (alive : model.isDead = false) (member : rule ∈ program.rules)
    (carries : rule.conclusion.Carries rules store valuation model changed) :
    Fit program rules ⟨changed, store⟩ :=
  ⟨fit.sound, fit.compiles, carries.readable member (fit.readable alive)⟩

namespace Firings

variable {program : Program} {rules : RuleSet} {before middle after : Workspace}
  {fired more : List (Rule × Valuation)}

theorem trans (firings : Firings program rules before fired middle)
    (rest : Firings program rules middle more after) :
    Firings program rules before (fired ++ more) after := by
  induction firings with
  | refl => exact rest
  | grow sound extension _ ih => exact .grow sound extension (ih rest)
  | fire alive member inst carries _ ih => exact .fire alive member inst carries (ih rest)

theorem alive (firings : Firings program rules before fired after)
    (survives : after.model.isDead = false) : before.model.isDead = false := by
  induction firings with
  | refl => exact survives
  | grow _ _ _ ih => exact ih survives
  | fire alive => exact alive

theorem extension (firings : Firings program rules before fired after) :
    before.store.Extends after.store := by
  induction firings with
  | refl => exact .refl _
  | grow _ extension _ ih => exact extension.trans ih
  | fire _ _ _ _ _ ih => exact ih

theorem sound (firings : Firings program rules before fired after) (sound : before.store.Sound) :
    after.store.Sound := by
  induction firings with
  | refl => exact sound
  | grow hsound _ _ ih => exact ih hsound
  | fire _ _ _ _ _ ih => exact ih sound

theorem readable (firings : Firings program rules before fired after)
    (readable : before.model.Readable program before.store)
    (survives : after.model.isDead = false) :
    after.model.Readable program after.store := by
  induction firings with
  | refl => exact readable
  | grow _ extension _ ih => exact ih (readable.mono extension) survives
  | fire _ member _ carries rest ih =>
    exact ih (carries.readable member readable (rest.alive survives)) survives

theorem fit (firings : Firings program rules before fired after) (fit : before.Fit program rules) :
    after.Fit program rules where
  sound := firings.sound fit.sound
  compiles := fit.compiles.mono firings.extension
  readable := fun survives => firings.readable (fit.readable (firings.alive survives)) survives

/-- The partial model evolves. -/
theorem evolves (firings : Firings program rules before fired after)
    (fit : before.Fit program rules) (survives : after.model.isDead = false) :
    PartialModel.Evolves before.model after.model := by
  induction firings with
  | refl => exact .refl _
  | grow hsound extension rest ih => exact ih (fit.grow hsound extension) survives
  | fire alive member inst carries rest ih =>
    have evolves := carries.evolves (fit.readable alive).sound (rest.alive survives)
    exact evolves.trans (ih (fit.fire alive member carries) survives)

/-- Everything stays justified. -/
theorem justified (firings : Firings program rules before fired after)
    (one_arity : program.OneArity) (fit : before.Fit program rules)
    (justified : before.model.Justified program before.store)
    (survives : after.model.isDead = false) : after.model.Justified program after.store := by
  induction firings with
  | refl => exact justified
  | grow hsound extension rest ih =>
    have readable := fit.readable (rest.alive survives)
    exact ih (fit.grow hsound extension) (justified.mono extension readable) survives
  | fire alive member inst carries rest ih =>
    obtain ⟨body, hinst, held⟩ := inst one_arity
    have hjustified := carries.justified member hinst held (fit.readable alive) justified
      (rest.alive survives)
    exact ih (fit.fire alive member carries) hjustified survives

theorem atoms_subset (firings : Firings program rules before fired after)
    (fit : before.Fit program rules) (survives : after.model.isDead = false) :
    before.model.atoms before.store ⊆ after.model.atoms after.store := fun _ member =>
  (firings.evolves fit survives).atoms_subset after.store
    (PartialModel.atoms_subset_of_extends firings.extension before.model member)

end Firings

/-! ### What a computation fires -/

namespace Saturating

/-- **The computation fires these instances**: it is a sequence of firings which, unless the partial
model dies, covers each of the instances with a valuation that is no greater. -/
def Fires (program : Program) (rules : RuleSet) (compute : Saturating Unit) (workspace : Workspace)
    (wanted : Rule → Valuation → Prop) : Prop :=
  Ensures compute workspace fun _ after => ∃ fired, Firings program rules workspace fired after ∧
    (after.model.isDead = false → ∀ rule valuation, wanted rule valuation →
      ∃ least, (rule, least) ∈ fired ∧ least.Within valuation)

variable {program : Program} {rules : RuleSet} {workspace : Workspace} {compute : Saturating Unit}
  {wanted : Rule → Valuation → Prop}

theorem fires_nothing (sound : workspace.store.Sound)
    (nothing : workspace.model.isDead = false → ∀ rule valuation, ¬wanted rule valuation) :
    Fires program rules (pure ()) workspace wanted := by
  rw [Fires]
  refine .pure sound ⟨[], .refl workspace, ?_⟩
  intro survives rule valuation hwanted
  exact absurd hwanted (nothing survives rule valuation)

/-- What is fired is fired also if less is wanted. -/
theorem Fires.mono {fewer : Rule → Valuation → Prop}
    (fires : Fires program rules compute workspace wanted)
    (subset : ∀ rule valuation, fewer rule valuation → wanted rule valuation) :
    Fires program rules compute workspace fewer := by
  refine StableModels.Ensures.mono fires ?_
  intro _ after _ _ hfired
  obtain ⟨fired, firings, covered⟩ := hfired
  refine ⟨fired, firings, ?_⟩
  intro survives rule valuation hfewer
  exact covered survives rule valuation (subset rule valuation hfewer)

/-- The workspace may be looked at on the way. -/
theorem fires_get {next : Workspace → Saturating Unit}
    (fires : Fires program rules (next workspace) workspace wanted) :
    Fires program rules (MonadState.get >>= next) workspace wanted := fires

/-- The store may grow on the way. -/
theorem fires_interning {α : Type} {model : PartialModel} {store : Store} {compute : Interning α}
    {next : α → Saturating Unit} {post : α → Store → Prop} (ensures : compute.Ensures store post)
    (fires : ∀ result more, more.Sound → store.Extends more → post result more →
      Fires program rules (next result) ⟨model, more⟩ wanted) :
    Fires program rules (interning compute >>= next) ⟨model, store⟩ wanted := by
  refine StableModels.Ensures.bind (ensures_interning ensures) ?_
  rintro result ⟨_, more⟩ sound extension ⟨rfl, holds⟩
  refine StableModels.Ensures.mono (fires result more sound extension holds) ?_
  rintro - after - - ⟨fired, firings, covered⟩
  exact ⟨fired, .grow sound extension firings, covered⟩

theorem fires_ifAlive (sound : workspace.store.Sound)
    (fires : workspace.model.isDead = false → Fires program rules compute workspace wanted) :
    Fires program rules (ifAlive compute) workspace wanted := by
  refine fires_get ?_
  split
  · next dead => exact fires_nothing sound fun alive => by simp [alive] at dead
  · next alive => exact fires (Bool.not_eq_true _ ▸ alive)

/-- Going through a list fires what is wanted for any of its members. -/
theorem fires_each {α : Type} {compute : α → Saturating Unit} {wanted : α → Rule → Valuation → Prop}
    (fit : workspace.Fit program rules) (members : List α)
    (fires : ∀ member ∈ members, ∀ fired middle, Firings program rules workspace fired middle →
      middle.Fit program rules → Fires program rules (compute member) middle (wanted member)) :
    Fires program rules (each compute members) workspace fun rule valuation =>
      ∃ member ∈ members, wanted member rule valuation := by
  induction members generalizing workspace with
  | nil => exact fires_nothing fit.sound fun _ _ _ hwanted => by simp at hwanted
  | cons member members ih =>
    rw [each]
    have hfirst := fires member List.mem_cons_self [] workspace (.refl workspace) fit
    refine StableModels.Ensures.bind hfirst ?_
    rintro - middle - - ⟨fired, firings, covered⟩
    have hrest := ih (firings.fit fit) fun other hother more last hmore =>
      fires other (List.mem_cons_of_mem _ hother) _ last (firings.trans hmore)
    refine StableModels.Ensures.mono hrest ?_
    rintro - after - - ⟨more, rest, covered'⟩
    refine ⟨fired ++ more, firings.trans rest, ?_⟩
    intro survives rule valuation hwanted
    obtain ⟨other, hother, hwanted⟩ := hwanted
    rcases List.mem_cons.1 hother with rfl | hother
    · obtain ⟨least, hleast, within⟩ := covered (rest.alive survives) rule valuation hwanted
      exact ⟨least, List.mem_append_left _ hleast, within⟩
    · obtain ⟨least, hleast, within⟩ := covered' survives rule valuation ⟨other, hother, hwanted⟩
      exact ⟨least, List.mem_append_right _ hleast, within⟩

end Saturating

/-- **Firing a conclusion** fires its rule under the valuation of the substitution. -/
theorem CompiledConclusion.fires_fire {program : Program} {rules : RuleSet} {workspace : Workspace}
    (fit : workspace.Fit program rules) {rule : Rule} (member : rule ∈ program.rules)
    {compiled : CompiledConclusion} (compiles : rule.conclusion.Compiles workspace.store compiled)
    {substitution : Substitution} (known : substitution.Known workspace.store)
    (inst : workspace.model.isDead = false → program.OneArity →
      ∃ body, rule.Instance (substitution.valuation workspace.store) body ∧
        ∀ atom ∈ body, atom ∈ workspace.model.atoms workspace.store) :
    Fires program rules (compiled.fire rules substitution) workspace fun other valuation =>
      other = rule ∧ (substitution.valuation workspace.store).Within valuation := by
  obtain ⟨model, store⟩ := workspace
  refine fires_ifAlive fit.sound ?_
  intro alive
  refine StableModels.Ensures.mono (ensures_carryOut fit.sound rules model compiles known) ?_
  rintro - ⟨after, last⟩ sound extension carries
  have hinst : program.OneArity → ∃ body, rule.Instance (substitution.valuation store) body ∧
      ∀ atom ∈ body, atom ∈ model.atoms last := by
    intro one_arity
    obtain ⟨body, hinst, held⟩ := inst alive one_arity
    refine ⟨body, hinst, ?_⟩
    intro atom hatom
    exact PartialModel.atoms_subset_of_extends extension model (held atom hatom)
  refine ⟨[(rule, substitution.valuation store)], ?_, ?_⟩
  · exact .grow sound extension (.fire alive member hinst carries (.refl _))
  · rintro - other valuation ⟨rfl, within⟩
    exact ⟨_, List.mem_singleton.2 rfl, within⟩

end StableModels
