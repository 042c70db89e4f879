import StableModels.Proofs.Growth

/-!
# Dead partial models are inert

Death can strike anywhere: at one of several seeds, rules, tuples or outcomes, with the others still
to come. What is still to come must not change the partial model any more.

For the operations that saturate, this is said with a second version of them, which **breaks off**
as soon as the partial model dies (`StableModels.Saturating.changeOrHalt`). It leaves the workspace
that there was at the moment of death, and the operation itself ends well and leaves the same one
(`StableModels.Saturating.CutShort`). Both versions are instances of one definition, with different
ways to make a change.

What a host does is a list of operations, one after the other, to which the planting of each seed
belongs as well (`StableModels.Operation`). Two of them do not ask whether the partial model is
alive: a seed is planted and a fact is asserted in any case. Whoever keeps these off the dead,
unless they have no effect (`StableModels.Careful`), finds a partial model as it was when it died
(`StableModels.Careful.inert`). The program of two seeds of which the first is forbidden is not
started with this care (`StableModels.Careful.not_forall_inert`).
-/

namespace StableModels

open PartialModel

/-! ### Two ways to make a change -/

/-- The signal of a computation that breaks off because the partial model has died. -/
def Fault.died : Fault := Cause.stated .protocol "partial model has died"

namespace Saturating

/-- A way to make a change of the partial model. -/
abbrev Effect := (PartialModel → Except Fault PartialModel) → Saturating Unit

/-- Makes a change, and breaks off if the partial model dies of it. -/
def changeOrHalt : Effect := fun update ⟨model, store⟩ =>
  match update model with
  | .ok model => if model.isDead then .error .died ⟨model, store⟩ else .ok () ⟨model, store⟩
  | .error fault => .error fault ⟨model, store⟩

end Saturating

open Saturating

namespace CompiledConclusion

/-- Instantiates a conclusion and carries it out. -/
def carryOutBy (effect : Effect) (rules : RuleSet) (substitution : Substitution) :
    CompiledConclusion → Saturating Unit
  | intermediate name args => do
    let args ← interning (substitution.instantiateAll args)
    effect (·.derive rules name args)
  | fact name args value => do
    let args ← interning (substitution.instantiateAll args)
    let value ← interning (substitution.instantiate value)
    effect (·.assert name args value)
  | choice name args values exhaustive => do
    let args ← interning (substitution.instantiateAll args)
    let values ← interning (substitution.instantiateAll values)
    effect fun model => .ok (model.register ⟨name, args⟩ ⟨.ofList values, exhaustive⟩)

/-- Fires a conclusion, which a dead partial model ignores. -/
def fireBy (effect : Effect) (rules : RuleSet) (conclusion : CompiledConclusion)
    (substitution : Substitution) : Saturating Unit :=
  ifAlive (conclusion.carryOutBy effect rules substitution)

end CompiledConclusion

namespace CompiledRule

/-- Lets a new fact trigger a rule. -/
def onFactBy (effect : Effect) (rules : RuleSet) (args : List Handle) (value : Handle)
    (rule : CompiledRule) : Saturating Unit := do
  let ⟨model, store⟩ ← get
  match rule.body with
  | .unary premise =>
    match premise.match? store rule.slots args value with
    | none => pure ()
    | some substitution => rule.conclusion.fireBy effect rules substitution
  | .join intermediate vars shared premise =>
    match premise.match? store rule.slots args value with
    | none => pure ()
    | some substitution =>
      each (fun tuple =>
          match substitution.bindTuple? (vars.drop shared) tuple with
          | none => pure ()
          | some substitution => rule.conclusion.fireBy effect rules substitution)
        (model.completions intermediate (args.take shared) (vars.length - shared))
  | .run .. => pure ()

/-- Lets a new tuple of an intermediate trigger a rule. -/
def onTupleBy (effect : Effect) (rules : RuleSet) (args : List Handle) (rule : CompiledRule) :
    Saturating Unit := do
  let ⟨model, _⟩ ← get
  match rule.body with
  | .unary _ => pure ()
  | .join _ vars shared premise =>
    match (Substitution.blank rule.slots).bindTuple? vars args with
    | none => pure ()
    | some substitution =>
      each (fun completion => do
          match premise.matchRest? (← get).store shared substitution completion with
          | none => pure ()
          | some substitution => rule.conclusion.fireBy effect rules substitution)
        (model.database.visit premise.name (args.take shared) (premise.args.length - shared + 1))
  | .run _ vars instructions forFailure =>
    match (Substitution.blank rule.slots).bindTuple? vars args with
    | none => pure ()
    | some substitution => do
      let outcomes ← interning (Machine.run instructions substitution)
      if forFailure then
        if outcomes.isEmpty then rule.conclusion.fireBy effect rules substitution else pure ()
      else
        each (rule.conclusion.fireBy effect rules) outcomes

end CompiledRule

/-- Lets one piece of news trigger its rules. -/
def News.propagateBy (effect : Effect) (rules : RuleSet) : News → Saturating Unit
  | fact name args value =>
    each (fun rule => ifAlive (rule.onFactBy effect rules args value)) (rules.onFact name)
  | tuple name args =>
    each (fun rule => ifAlive (rule.onTupleBy effect rules args)) (rules.onTuple name)

namespace Saturating

/-- Takes the oldest piece of news off the agenda and propagates it. -/
def stepBy (effect : Effect) (rules : RuleSet) : Saturating Bool := fun ⟨model, store⟩ =>
  if model.isDead then .ok false ⟨model, store⟩
  else
    match model.agenda with
    | [] => .ok false ⟨model, store⟩
    | news :: agenda =>
      (do news.propagateBy effect rules; pure true : Saturating Bool)
        ⟨{ model with agenda := agenda }, store⟩

/-- Steps until nothing is left to do, at most `rounds` times. -/
def saturateBy (effect : Effect) (rules : RuleSet) : Nat → Saturating Nat
  | 0 => pure 0
  | rounds + 1 => do
    if ← stepBy effect rules then
      let steps ← saturateBy effect rules rounds
      pure (steps + 1)
    else
      pure 0

variable {rules : RuleSet}

/-- A step makes its changes and goes on. -/
theorem stepBy_change : stepBy change rules = step rules := rfl

/-- Saturation makes its changes and goes on. -/
theorem saturateBy_change (rounds : Nat) :
    saturateBy change rules rounds = saturate rules rounds := by
  induction rounds with
  | zero => rfl
  | succ rounds ih => rw [saturateBy, saturate, ih, stepBy_change]

/-! ### What the dead ignore -/

section Dead

variable {α : Type} {workspace : Workspace}

theorem ifAlive_of_dead (compute : Saturating Unit) (dead : workspace.model.isDead = true) :
    ifAlive compute workspace = .ok () workspace := by
  rw [ifAlive, get_bind, if_pos dead]
  rfl

/-- A loop of which no part has an effect. -/
theorem each_of_forall {compute : α → Saturating Unit}
    (inert : ∀ member, compute member workspace = .ok () workspace) (members : List α) :
    each compute members workspace = .ok () workspace := by
  induction members with
  | nil => rfl
  | cons first members ih =>
    rw [each, bind_of_ok (inert first)]
    exact ih

theorem step_of_dead (dead : workspace.model.isDead = true) :
    step rules workspace = .ok false workspace := by
  obtain ⟨model, store⟩ := workspace
  rw [step, if_pos dead]

theorem saturate_of_dead (rounds : Nat) (dead : workspace.model.isDead = true) :
    saturate rules rounds workspace = .ok 0 workspace := by
  cases rounds with
  | zero => rfl
  | succ rounds =>
    rw [saturate, bind_of_ok (step_of_dead dead)]
    rfl

end Dead

/-! ### Breaking off or going on -/

/-- What a computation comes to that breaks off when the partial model dies, and what it comes to
when it goes on instead: the same, unless the partial model dies; and then going on ends well, in
the workspace that was left. -/
inductive CutShort {α : Type} :
    EStateM.Result Fault Workspace α → EStateM.Result Fault Workspace α → Prop where
  /-- The partial model survives. -/
  | survives {result : α} {after : Workspace} (alive : after.model.isDead = false) :
      CutShort (.ok result after) (.ok result after)
  /-- A fault ends both, and the partial model survives it. -/
  | fails {fault : Fault} {after : Workspace} (alive : after.model.isDead = false) :
      CutShort (.error fault after) (.error fault after)
  /-- The partial model dies. -/
  | dies {result : α} {after : Workspace} (dead : after.model.isDead = true) :
      CutShort (.error .died after) (.ok result after)

variable {α β : Type} {model : PartialModel} {store : Store} {workspace : Workspace}

namespace CutShort

theorem pure (result : α) (alive : workspace.model.isDead = false) :
    CutShort ((Pure.pure result : Saturating α) workspace)
      ((Pure.pure result : Saturating α) workspace) := .survives alive

/-- One computation after another. What comes second does not change the dead. -/
theorem bind {broken whole : Saturating α} {next next' : α → Saturating β}
    (first : CutShort (broken workspace) (whole workspace))
    (living : ∀ result middle, middle.model.isDead = false →
      CutShort (next result middle) (next' result middle))
    (inert : ∀ result middle, middle.model.isDead = true →
      ∃ last, next' result middle = .ok last middle) :
    CutShort ((broken >>= next) workspace) ((whole >>= next') workspace) := by
  generalize hbroken : broken workspace = short at first
  generalize hwhole : whole workspace = long at first
  cases first with
  | @survives result after alive =>
    rw [bind_of_ok hbroken, bind_of_ok hwhole]
    exact living result after alive
  | fails alive =>
    rw [bind_of_error hbroken, bind_of_error hwhole]
    exact .fails alive
  | @dies result after dead =>
    obtain ⟨last, hlast⟩ := inert result after dead
    rw [bind_of_error hbroken, bind_of_ok hwhole, hlast]
    exact .dies dead

/-- Interning does not kill. -/
theorem interning {compute : Interning α} {next next' : α → Saturating β}
    (alive : model.isDead = false)
    (rest : ∀ result more, CutShort (next result ⟨model, more⟩) (next' result ⟨model, more⟩)) :
    CutShort ((Saturating.interning compute >>= next) ⟨model, store⟩)
      ((Saturating.interning compute >>= next') ⟨model, store⟩) := by
  cases computed : compute store with
  | error fault after =>
    have failed : Saturating.interning compute ⟨model, store⟩ = .error fault ⟨model, after⟩ := by
      rw [Saturating.interning, computed]
    rw [bind_of_error failed, bind_of_error failed]
    exact .fails alive
  | ok result after =>
    have interned : Saturating.interning compute ⟨model, store⟩ = .ok result ⟨model, after⟩ := by
      rw [Saturating.interning, computed]
    rw [bind_of_ok interned, bind_of_ok interned]
    exact rest result after

theorem ifAlive {broken whole : Saturating Unit} (alive : workspace.model.isDead = false)
    (living : CutShort (broken workspace) (whole workspace)) :
    CutShort (Saturating.ifAlive broken workspace) (Saturating.ifAlive whole workspace) := by
  rw [Saturating.ifAlive, Saturating.ifAlive, get_bind, get_bind, alive]
  exact living

theorem change (update : PartialModel → Except Fault PartialModel) (alive : model.isDead = false) :
    CutShort (changeOrHalt update ⟨model, store⟩) (Saturating.change update ⟨model, store⟩) := by
  rw [changeOrHalt, Saturating.change]
  cases update model with
  | error fault => exact .fails alive
  | ok after =>
    cases died : after.isDead with
    | false =>
      simp only [died, Bool.false_eq_true, if_false]
      exact .survives died
    | true =>
      simp only [died, if_true]
      exact .dies died

/-- What is left of a loop does not change the dead either. -/
theorem each {broken whole : α → Saturating Unit}
    (living : ∀ member workspace, workspace.model.isDead = false →
      CutShort (broken member workspace) (whole member workspace))
    (inert : ∀ member workspace, workspace.model.isDead = true →
      whole member workspace = .ok () workspace)
    (members : List α) (alive : workspace.model.isDead = false) :
    CutShort (Saturating.each broken members workspace)
      (Saturating.each whole members workspace) := by
  induction members generalizing workspace with
  | nil => exact .pure () alive
  | cons first members ih =>
    refine (living first workspace alive).bind (fun _ _ alive => ih alive) fun _ middle dead => ?_
    exact ⟨(), each_of_forall (inert · middle dead) members⟩

end CutShort

end Saturating

section Propagation

variable {rules : RuleSet} {workspace : Workspace}

namespace CompiledConclusion

theorem fire_of_dead (conclusion : CompiledConclusion) (substitution : Substitution)
    (dead : workspace.model.isDead = true) :
    conclusion.fire rules substitution workspace = .ok () workspace :=
  ifAlive_of_dead _ dead

/-- A conclusion is instantiated before the one change that it makes. -/
theorem cutShort_carryOut (conclusion : CompiledConclusion) (substitution : Substitution)
    (alive : workspace.model.isDead = false) :
    CutShort (conclusion.carryOutBy changeOrHalt rules substitution workspace)
      (conclusion.carryOut rules substitution workspace) := by
  obtain ⟨model, store⟩ := workspace
  cases conclusion with
  | intermediate name args =>
    exact .interning alive fun _ _ => .change _ alive
  | fact name args value =>
    exact .interning alive fun _ _ => .interning alive fun _ _ => .change _ alive
  | choice name args values exhaustive =>
    exact .interning alive fun _ _ => .interning alive fun _ _ => .change _ alive

theorem cutShort_fire (conclusion : CompiledConclusion) (substitution : Substitution)
    (alive : workspace.model.isDead = false) :
    CutShort (conclusion.fireBy changeOrHalt rules substitution workspace)
      (conclusion.fire rules substitution workspace) :=
  .ifAlive alive (conclusion.cutShort_carryOut substitution alive)

end CompiledConclusion

namespace CompiledRule

theorem cutShort_onFact (args : List Handle) (value : Handle) (rule : CompiledRule)
    (alive : workspace.model.isDead = false) :
    CutShort (rule.onFactBy changeOrHalt rules args value workspace)
      (rule.onFact rules args value workspace) := by
  obtain ⟨index, slots, body, conclusion⟩ := rule
  rw [onFactBy, onFact, get_bind, get_bind]
  cases body with
  | unary premise =>
    simp only
    cases premise.match? workspace.store slots args value with
    | none => exact .pure () alive
    | some substitution => exact conclusion.cutShort_fire substitution alive
  | join intermediate vars shared premise =>
    simp only
    cases premise.match? workspace.store slots args value with
    | none => exact .pure () alive
    | some substitution =>
      refine .each (fun tuple middle living => ?_) (fun tuple middle dead => ?_) _ alive
      · cases substitution.bindTuple? (vars.drop shared) tuple with
        | none => exact .pure () living
        | some joined => exact conclusion.cutShort_fire joined living
      · cases substitution.bindTuple? (vars.drop shared) tuple with
        | none => rfl
        | some joined => exact conclusion.fire_of_dead joined dead
  | run => exact .pure () alive

theorem cutShort_onTuple (args : List Handle) (rule : CompiledRule)
    (alive : workspace.model.isDead = false) :
    CutShort (rule.onTupleBy changeOrHalt rules args workspace)
      (rule.onTuple rules args workspace) := by
  obtain ⟨index, slots, body, conclusion⟩ := rule
  rw [onTupleBy, onTuple, get_bind, get_bind]
  cases body with
  | unary => exact .pure () alive
  | join intermediate vars shared premise =>
    simp only
    cases (Substitution.blank slots).bindTuple? vars args with
    | none => exact .pure () alive
    | some substitution =>
      refine .each (fun completion middle living => ?_) (fun completion middle dead => ?_) _ alive
      · rw [get_bind, get_bind]
        cases premise.matchRest? middle.store shared substitution completion with
        | none => exact .pure () living
        | some joined => exact conclusion.cutShort_fire joined living
      · rw [get_bind]
        cases premise.matchRest? middle.store shared substitution completion with
        | none => rfl
        | some joined => exact conclusion.fire_of_dead joined dead
  | run intermediate vars instructions forFailure =>
    obtain ⟨model, store⟩ := workspace
    simp only
    cases (Substitution.blank slots).bindTuple? vars args with
    | none => exact .pure () alive
    | some substitution =>
      refine .interning alive fun outcomes more => ?_
      split
      · split
        · exact conclusion.cutShort_fire substitution alive
        · exact .pure () alive
      · exact .each (fun outcome _ living => conclusion.cutShort_fire outcome living)
          (fun outcome _ dead => conclusion.fire_of_dead outcome dead) outcomes alive

end CompiledRule

theorem News.cutShort_propagate (news : News) (alive : workspace.model.isDead = false) :
    CutShort (news.propagateBy changeOrHalt rules workspace) (news.propagate rules workspace) := by
  cases news with
  | fact name args value =>
    exact .each (fun rule _ living => .ifAlive living (rule.cutShort_onFact args value living))
      (fun _ _ dead => ifAlive_of_dead _ dead) _ alive
  | tuple name args =>
    exact .each (fun rule _ living => .ifAlive living (rule.cutShort_onTuple args living))
      (fun _ _ dead => ifAlive_of_dead _ dead) _ alive

namespace Saturating

/-- **A step goes on only in appearance after it has killed.** -/
theorem cutShort_step (alive : workspace.model.isDead = false) :
    CutShort (stepBy changeOrHalt rules workspace) (step rules workspace) := by
  obtain ⟨model, store⟩ := workspace
  rw [stepBy, step, if_neg (Bool.eq_false_iff.1 alive), if_neg (Bool.eq_false_iff.1 alive)]
  cases pending : model.agenda with
  | nil => exact .survives alive
  | cons news agenda =>
    have propagates : CutShort
        (news.propagateBy changeOrHalt rules ⟨{ model with agenda := agenda }, store⟩)
        (news.propagate rules ⟨{ model with agenda := agenda }, store⟩) :=
      news.cutShort_propagate alive
    exact propagates.bind (fun _ _ living => .pure true living) fun _ middle _ => ⟨true, rfl⟩

/-- **Saturation goes on only in appearance after it has killed.** -/
theorem cutShort_saturate (rounds : Nat) (alive : workspace.model.isDead = false) :
    CutShort (saturateBy changeOrHalt rules rounds workspace)
      (saturate rules rounds workspace) := by
  induction rounds generalizing workspace with
  | zero => exact .pure 0 alive
  | succ rounds ih =>
    refine (cutShort_step alive).bind (fun progress middle living => ?_)
      fun progress middle dead => ?_
    · split
      · exact (ih living).bind (fun steps _ living => .pure (steps + 1) living)
          fun steps last _ => ⟨steps + 1, rfl⟩
      · exact .pure 0 living
    · split
      · exact ⟨1, by rw [bind_of_ok (saturate_of_dead rounds dead)]; rfl⟩
      · exact ⟨0, rfl⟩

end Saturating

end Propagation

/-! ### Dying forgets what is waiting -/

namespace PartialModel

variable {rules : RuleSet} {model before after : PartialModel} {name : String}
  {args : List Handle} {value : Handle}

/-- Nothing is waiting in a dead partial model. -/
def Rests (model : PartialModel) : Prop := model.isDead = true → model.agenda = []

theorem rests_of_alive (alive : model.isDead = false) : model.Rests := by
  intro dead
  rw [alive] at dead
  cases dead

theorem rests_kill (reason : DeadEnd) (model : PartialModel) : (model.kill reason).Rests :=
  fun _ => rfl

theorem rests_derive (derived : model.derive rules name args = .ok after)
    (alive : model.isDead = false) : after.Rests := by
  cases derivation_of_derive derived with
  | known | joins => exact rests_of_alive alive
  | kills => exact rests_kill _ _

theorem rests_assert (asserted : model.assert name args value = .ok after)
    (alive : model.isDead = false) : after.Rests := by
  cases assertion_of_assert asserted with
  | known | joins => exact rests_of_alive alive
  | kills => exact rests_kill _ _

theorem Change.rests (change : Change rules before after) (alive : before.isDead = false) :
    after.Rests := by
  cases change with
  | derive derived => exact rests_derive derived alive
  | assert asserted => exact rests_assert asserted alive
  | narrow _ _ narrowed =>
    obtain ⟨database, old, set, rfl⟩ := exists_of_constrain narrowed
    exact rests_of_alive alive
  | register | dropNews | forget => exact rests_of_alive alive
  | kill reason => exact rests_kill reason before

/-! ### What can be done to the dead -/

theorem Sound.derives_of_derive (sound : model.Sound)
    (derived : model.derive rules name args = .ok after) : after.derives name args = true := by
  cases derivation_of_derive derived with
  | known inserted =>
    obtain ⟨-, -, hold, -⟩ := (sound.tuplesOf name).insert inserted
    rw [derives, ← hold]
    rfl
  | kills inserted | joins inserted =>
    exact (derives_put sound inserted name args).2 (Or.inl ⟨rfl, rfl⟩)

/-- A tuple that is derived already changes nothing, and only such a one. -/
theorem Sound.derive_eq_self_iff (sound : model.Sound)
    (derived : model.derive rules name args = .ok after) :
    after = model ↔ model.derives name args = true := by
  constructor
  · rintro rfl
    exact sound.derives_of_derive derived
  · intro known
    have not_new {trie : Trie Unit} :
        (model.tuplesOf name).insert args () ≠ .ok (trie, none) := by
      intro inserted
      obtain ⟨-, -, hold, -⟩ := (sound.tuplesOf name).insert inserted
      rw [derives, ← hold] at known
      cases known
    cases derivation_of_derive derived with
    | known => rfl
    | kills inserted | joins inserted => exact absurd inserted not_new

/-- The tuple does not admit the value. -/
def Excludes (model : PartialModel) (name : String) (args : List Handle) (value : Handle) : Prop :=
  ∃ constraint, model.database.get? name args = some constraint ∧ constraint.admits value = false

theorem kill_eq_self_iff (dead : model.isDead = true) (rests : model.Rests) (reason : DeadEnd) :
    model.kill reason = model ↔ model.deadEnd = some reason := by
  constructor
  · intro heq
    rw [← heq]
    rfl
  · intro heq
    rw [kill, ← heq, ← rests dead]

/-- A fact that is there already changes nothing, and neither does one that contradicts what is
known of its tuple if the partial model has died of such a fact of the same predicate. -/
theorem assert_eq_self_iff (dead : model.isDead = true) (rests : model.Rests)
    (asserted : model.assert name args value = .ok after) :
    after = model ↔ model.database.get? name args = some (.just value) ∨
      model.Excludes name args value ∧ model.deadEnd = some (.conflict name) := by
  cases assertion_of_assert asserted with
  | known found => exact iff_of_true rfl (Or.inl found)
  | kills found refuses =>
    have unknown : model.database.get? name args ≠ some (.just value) := by
      intro known
      obtain rfl := Option.some.inj (found.symm.trans known)
      simp [Constraint.admits] at refuses
    rw [kill_eq_self_iff dead rests, or_iff_right unknown]
    exact (and_iff_right ⟨_, found, refuses⟩).symm
  | joins free admitted set =>
    -- What joins the agenda makes it longer.
    refine iff_of_false (fun heq => ?_) ?_
    · have hagenda := congrArg (fun model => model.agenda.length) heq
      simp at hagenda
    · rintro (known | ⟨⟨_ | excluded, found, refuses⟩, -⟩)
      · exact free value known
      · exact free _ found
      · have member : value ∈ excluded := by simpa [Constraint.admits] using refuses
        exact admitted excluded found member

end PartialModel

/-! ### Operations in a row -/

/-- What a host can do with a partial model. -/
inductive Operation where
  /-- A seed is planted. -/
  | plant (seed : String)
  /-- A step of saturation is made, with this store. -/
  | step (store : Store)
  /-- It is saturated by at most so many steps. -/
  | saturate (rounds : Nat) (store : Store)
  /-- A fact is asserted. -/
  | assert (name : String) (args : List Handle) (value : Handle)
  /-- It is examined. -/
  | examine
  /-- It is examined and, if it has so many branches, replaced by this one of them. -/
  | branch (index : Nat)

namespace Operation

/-- What an operation leaves. A seed or a fact that is refused leaves the partial model as it is. -/
def perform (rules : RuleSet) (model : PartialModel) : Operation → PartialModel
  | plant seed => (model.derive rules seed []).toOption.getD model
  | step store => ((Saturating.step rules).remains ⟨model, store⟩).model
  | saturate rounds store => ((Saturating.saturate rules rounds).remains ⟨model, store⟩).model
  | assert name args value => (model.assert name args value).toOption.getD model
  | examine => (model.examine rules).2
  | branch index =>
    match (model.examine rules).1 with
    | .ok (.branch branches) => branches[index]?.getD model
    | _ => model

/-- What operations leave, one after the other. -/
def performAll (rules : RuleSet) (model : PartialModel) (operations : List Operation) :
    PartialModel :=
  operations.foldl (perform rules) model

/-- What the operation would put into the partial model is there already, or is refused; or it is a
contradiction for which the partial model has died. Most operations put in nothing by themselves. -/
def Spares (rules : RuleSet) (model : PartialModel) : Operation → Prop
  | plant seed => ∀ after, model.derive rules seed [] = .ok after → model.derives seed [] = true
  | assert name args value => ∀ after, model.assert name args value = .ok after →
      model.database.get? name args = some (.just value) ∨
        model.Excludes name args value ∧ model.deadEnd = some (.conflict name)
  | step _ | saturate _ _ | examine | branch _ => True

variable {rules : RuleSet} {model : PartialModel} {operation : Operation}

theorem performAll_append (first rest : List Operation) :
    performAll rules model (first ++ rest) = performAll rules (performAll rules model first) rest :=
  List.foldl_append

/-- **The operations that leave a dead partial model as it is.** -/
theorem perform_eq_self_iff (sound : model.Sound) (rests : model.Rests)
    (dead : model.isDead = true) :
    operation.perform rules model = model ↔ operation.Spares rules model := by
  cases operation with
  | plant seed =>
    rw [perform, Spares]
    cases derived : model.derive rules seed [] with
    | error fault => simp [Except.toOption]
    | ok after => simpa [Except.toOption] using sound.derive_eq_self_iff derived
  | assert name args value =>
    rw [perform, Spares]
    cases asserted : model.assert name args value with
    | error fault => simp [Except.toOption]
    | ok after => simpa [Except.toOption] using assert_eq_self_iff dead rests asserted
  | step store =>
    have same : Saturating.step rules ⟨model, store⟩ = .ok false ⟨model, store⟩ := step_of_dead dead
    simp [perform, Spares, remains, same]
  | saturate rounds store =>
    have same : Saturating.saturate rules rounds ⟨model, store⟩ = .ok 0 ⟨model, store⟩ :=
      saturate_of_dead rounds dead
    simp [perform, Spares, remains, same]
  | examine => simp [perform, Spares, examine_of_isDead dead]
  | branch index => simp [perform, Spares, examine_of_isDead dead]

/-- An operation is made of elementary changes of the living, or it is a single change, which may be
done to the dead as well. -/
theorem changes_or_change (rules : RuleSet) (model : PartialModel) (operation : Operation) :
    Changes rules model (operation.perform rules model) ∨
      Change rules model (operation.perform rules model) := by
  cases operation with
  | plant seed =>
    rw [perform]
    cases derived : model.derive rules seed [] with
    | error fault => exact Or.inl .refl
    | ok after => exact Or.inr (.derive derived)
  | assert name args value =>
    rw [perform]
    cases asserted : model.assert name args value with
    | error fault => exact Or.inl .refl
    | ok after => exact Or.inr (.assert asserted)
  | step store => exact Or.inl (byChanges_step ⟨model, store⟩)
  | saturate rounds store => exact Or.inl (byChanges_saturate rounds ⟨model, store⟩)
  | examine => exact Or.inl (changes_examine rules model)
  | branch index =>
    rw [perform]
    split
    · next branches examined =>
      cases found : branches[index]? with
      | none => exact Or.inl .refl
      | some branch =>
        exact Or.inl (changes_of_mem_branches (Prod.ext examined rfl) (List.mem_of_getElem? found))
    · exact Or.inl .refl

theorem sound_perform (sound : model.Sound) : (operation.perform rules model).Sound := by
  have preserved (after : PartialModel)
      (changes : Relation.ReflTransGen (Change rules) model after) : after.Sound := by
    induction changes with
    | refl => exact sound
    | tail _ change ih => exact change.sound ih
  rcases changes_or_change rules model operation with changes | change
  · exact preserved _ changes.relax
  · exact change.sound sound

/-- An operation that kills ends with the change that does it. -/
theorem exists_change_of_dead (alive : model.isDead = false)
    (dead : (operation.perform rules model).isDead = true) :
    ∃ last, Changes rules model last ∧ last.isDead = false ∧
      Change rules last (operation.perform rules model) := by
  rcases changes_or_change rules model operation with changes | change
  · rcases changes.cases_tail with heq | ⟨last, changes, living, change⟩
    · rw [heq, alive] at dead
      cases dead
    · exact ⟨last, changes, living, change⟩
  · exact ⟨model, .refl, alive, change⟩

/-- Whether it was killed by the operation or before, nothing is waiting in what is left. -/
theorem rests_perform (sound : model.Sound) (rests : model.Rests)
    (spares : model.isDead = true → operation.Spares rules model) :
    (operation.perform rules model).Rests := by
  cases dead : model.isDead with
  | true => rwa [(perform_eq_self_iff sound rests dead).2 (spares dead)]
  | false =>
    intro died
    obtain ⟨last, -, living, change⟩ := exists_change_of_dead dead died
    exact change.rests living died

end Operation

open Operation

/-- What a host does, one operation after the other, spares the dead. -/
def Careful (rules : RuleSet) : PartialModel → List Operation → Prop
  | _, [] => True
  | model, operation :: operations =>
    (model.isDead = true → operation.Spares rules model) ∧
      Careful rules (operation.perform rules model) operations

namespace Careful

variable {rules : RuleSet} {model : PartialModel} {operations : List Operation}

theorem append_iff {first rest : List Operation} : Careful rules model (first ++ rest) ↔
    Careful rules model first ∧ Careful rules (performAll rules model first) rest := by
  induction first generalizing model with
  | nil => simp [Careful, performAll]
  | cons operation first ih => simp [Careful, performAll, ih, and_assoc]

/-- What is done with care leaves a sound partial model, in which nothing is waiting if it is
dead. -/
theorem sound_and_rests (careful : Careful rules model operations) (sound : model.Sound)
    (rests : model.Rests) :
    (performAll rules model operations).Sound ∧ (performAll rules model operations).Rests := by
  induction operations generalizing model with
  | nil => exact ⟨sound, rests⟩
  | cons operation operations ih =>
    exact ih careful.2 (sound_perform sound) (rests_perform sound rests careful.1)

/-- What is done with care leaves the dead as they are. -/
theorem performAll_eq_self (careful : Careful rules model operations) (sound : model.Sound)
    (rests : model.Rests) (dead : model.isDead = true) :
    performAll rules model operations = model := by
  induction operations with
  | nil => rfl
  | cons operation operations ih =>
    obtain ⟨spares, careful⟩ := careful
    have same := (perform_eq_self_iff sound rests dead).2 (spares dead)
    rw [same] at careful
    rw [performAll, List.foldl_cons, same]
    exact ih careful

/-- Planting seeds is one operation for each of them, done with care if a forbidden seed is followed
only by seeds that have come before. -/
theorem of_plant {seeds : List String} {root : PartialModel} (before : List String)
    (planted : model.plant rules seeds = .ok root) (sound : model.Sound)
    (derived : ∀ seed ∈ before, model.derives seed [] = true)
    (spent : model.isDead = true → ∀ seed ∈ seeds, seed ∈ before)
    (timely : ∀ first seed rest, seeds = first ++ seed :: rest → rules.isForbidden seed = true →
      ∀ later ∈ rest, later ∈ before ∨ later ∈ first ∨ later = seed) :
    Careful rules model (seeds.map .plant) ∧ performAll rules model (seeds.map .plant) = root := by
  induction seeds generalizing model before with
  | nil => exact ⟨trivial, Except.ok.inj planted⟩
  | cons seed seeds ih =>
    obtain ⟨middle, hmiddle, planted⟩ := exists_of_plant_cons planted
    have performed : (Operation.plant seed).perform rules model = middle := by
      rw [perform, hmiddle]
      rfl
    have grows := (Change.derive hmiddle).refines sound
    have careful := ih (seed :: before) planted ((Change.derive hmiddle).sound sound) ?_ ?_ ?_
    · rw [List.map_cons, performAll, List.foldl_cons, performed]
      refine ⟨⟨fun dead after _ => ?_, performed.symm ▸ careful.1⟩, careful.2⟩
      exact derived seed (spent dead seed List.mem_cons_self)
    · intro other member
      rcases List.mem_cons.1 member with rfl | member
      · exact sound.derives_of_derive hmiddle
      · exact mem_known_tuple.1 (grows.known (mem_known_tuple.2 (derived other member)))
    · intro dead other member
      cases alive : model.isDead with
      | true => exact List.mem_cons_of_mem _ (spent alive other (List.mem_cons_of_mem _ member))
      | false =>
        -- The seed itself has killed.
        have forbidden : rules.isForbidden seed = true := by
          by_contra allowed
          rw [Bool.not_eq_true] at allowed
          rw [isDead_derive hmiddle alive allowed] at dead
          cases dead
        have := timely [] seed seeds rfl forbidden other member
        simpa [or_comm] using this
    · intro first other rest heq forbidden later member
      have := timely (seed :: first) other rest (by rw [heq]; rfl) forbidden later member
      simp only [List.mem_cons] at this ⊢
      tauto

/-- The root of a search is planted with care if a forbidden seed is followed only by repetitions of
itself and of seeds before it. -/
theorem of_seeded {root : PartialModel} (planted : seeded rules = .ok root)
    (timely : ∀ first seed rest, rules.seeds = first ++ seed :: rest →
      rules.isForbidden seed = true → ∀ later ∈ rest, later ∈ first ∨ later = seed) :
    Careful rules {} (rules.seeds.map .plant) ∧
      performAll rules {} (rules.seeds.map .plant) = root :=
  of_plant [] planted sound_empty (fun _ member => by cases member)
    (fun dead => by cases dead) fun first seed rest heq forbidden later member =>
      Or.inr (timely first seed rest heq forbidden later member)

/-- **A dead partial model is inert.** Suppose that a host keeps seeds and facts off the dead,
unless they have no effect. Take what there is at any moment, between two of its operations. If it
is alive, then an operation that kills it ends with the change that does it, and what a step or a
saturation would still do after that has no effect. If it is dead, then nothing is waiting in it,
and whatever comes after leaves it as it is; in general, the operations that do so are those that
spare it. -/
theorem inert (first rest : List Operation) (careful : Careful rules {} (first ++ rest))
    (reached : performAll rules {} first = model) :
    (model.isDead = false →
      (∀ operation : Operation, (operation.perform rules model).isDead = true →
        ∃ last, Changes rules model last ∧ last.isDead = false ∧
          Change rules last (operation.perform rules model)) ∧
      ∀ store, CutShort (stepBy changeOrHalt rules ⟨model, store⟩) (step rules ⟨model, store⟩) ∧
        ∀ rounds, CutShort (saturateBy changeOrHalt rules rounds ⟨model, store⟩)
          (saturate rules rounds ⟨model, store⟩)) ∧
    (model.isDead = true →
      model.agenda = [] ∧ performAll rules {} (first ++ rest) = model ∧
        ∀ operation : Operation,
          operation.perform rules model = model ↔ operation.Spares rules model) := by
  obtain ⟨before, after⟩ := append_iff.1 careful
  obtain ⟨sound, rests⟩ := before.sound_and_rests sound_empty (rests_of_alive rfl)
  rw [performAll_append]
  rw [reached] at after sound rests ⊢
  constructor
  · intro alive
    refine ⟨fun operation => exists_change_of_dead alive, fun store => ⟨cutShort_step alive, ?_⟩⟩
    exact fun rounds => cutShort_saturate rounds alive
  · intro dead
    refine ⟨rests dead, after.performAll_eq_self sound rests dead, ?_⟩
    exact fun operation => perform_eq_self_iff sound rests dead

/-! Two examples: rules that contradict each other, with one more rule after them, and programs in
which the only seed or the first of two is forbidden. -/

/-- The rules that contradict each other. -/
def striking : RuleSet where
  rules := [⟨0, 0, .run "go" [] [] false, .fact "c" [] (.term 3)⟩,
    ⟨1, 0, .run "go" [] [] false, .fact "c" [] (.term 4)⟩,
    ⟨2, 0, .run "go" [] [] false, .intermediate "late" []⟩]
  seeds := ["go"]
  demands := []
  forbids := []

theorem inert_striking : ∃ root struck : PartialModel,
    seeded striking = .ok root ∧ root.isDead = false ∧
      CutShort (stepBy changeOrHalt striking ⟨root, .initial⟩) (step striking ⟨root, .initial⟩) ∧
      struck.deadEnd = some (.conflict "c") ∧ struck.agenda = [] ∧
      struck.derives "late" [] = false ∧
      performAll striking {} [.plant "go", .step .initial] = struck ∧
      performAll striking {} [.plant "go", .step .initial, .saturate 2 .initial, .assert "c" [] 3] =
        struck := by
  have planted : seeded striking = .ok (performAll striking {} [.plant "go"]) := rfl
  have allowed (seed : String) : striking.isForbidden seed ≠ true := Bool.false_ne_true
  obtain ⟨before, -⟩ :=
    of_seeded planted fun _ seed _ _ forbidden => absurd forbidden (allowed seed)
  have after : Careful striking (performAll striking {} [.plant "go"])
      [.step .initial, .saturate 2 .initial, .assert "c" [] 3] :=
    ⟨fun _ => trivial, fun _ => trivial, fun _ _ _ => Or.inl (by decide +kernel), trivial⟩
  have careful : Careful striking {}
      [.plant "go", .step .initial, .saturate 2 .initial, .assert "c" [] 3] :=
    append_iff.2 ⟨before, after⟩
  have alive := (inert [.plant "go"] _ careful rfl).1 rfl
  obtain ⟨nothing, same, -⟩ :=
    (inert [.plant "go", .step .initial] _ careful rfl).2 (by decide +kernel)
  exact ⟨_, _, planted, rfl, (alive.2 .initial).1, by decide +kernel, nothing, by decide +kernel,
    rfl, same⟩

/-- **The dead are not always left alone.** A seed that is planted after a forbidden one is waiting
in the dead partial model, and a fact can be asserted of it. -/
theorem not_forall_inert :
    (¬∀ (program : Program) (rules : RuleSet) (store : Store) (model : PartialModel),
      RuleSet.compile program .initial = .ok (rules, store) → seeded rules = .ok model →
        model.isDead = true → model.agenda = []) ∧
    ¬∀ (program : Program) (rules : RuleSet) (store : Store) (model : PartialModel),
      RuleSet.compile program .initial = .ok (rules, store) → seeded rules = .ok model →
        model.isDead = true → ∀ operation : Operation, operation.perform rules model = model := by
  constructor
  · intro rests
    have nothing := rests { seeds := ["a", "b"], forbids := ["a"] } _ _ _ rfl rfl rfl
    exact absurd nothing (by decide)
  · intro inert
    have same := inert { seeds := ["a"], forbids := ["a"] } _ _ _ rfl rfl rfl (.assert "f" [] 3)
    exact absurd (congrArg PartialModel.agenda same) (by decide)

end Careful

end StableModels
