import StableModels.Proofs.Reachability

/-!
# What is done to a partial model

A host takes a partial model that is blank, or in which the seeds are planted, and then steps it,
saturates it, asserts facts of its own and examines it, in whatever order it likes
(`StableModels.PartialModel.Operates`). What it can come to in this way is *attained*
(`StableModels.PartialModel.Attained`); the partial models that a search reaches are among them.

All of this is made of a few **elementary changes** (`StableModels.PartialModel.Change`), whether an
operation succeeds or fails on the way, and all but what the host does by itself happens to living
partial models only (`StableModels.PartialModel.Changes`). So what elementary changes preserve is
preserved by every operation, and holds of everything that is attained.
-/

namespace StableModels

open PartialModel

/-- The workspace that a computation leaves, whether it fails or not. -/
def Saturating.remains {α : Type} (compute : Saturating α) (workspace : Workspace) : Workspace :=
  match compute workspace with
  | .ok _ after => after
  | .error _ after => after

namespace PartialModel

/-! ### Elementary changes -/

/-- **The elementary changes of a partial model.** -/
inductive Change (rules : RuleSet) (model : PartialModel) : PartialModel → Prop where
  /-- A tuple is derived. -/
  | derive {name : String} {args : List Handle} {after : PartialModel}
      (derived : model.derive rules name args = .ok after) : Change rules model after
  /-- A fact is asserted. -/
  | assert {name : String} {args : List Handle} {value : Handle} {after : PartialModel}
      (asserted : model.assert name args value = .ok after) : Change rules model after
  /-- A choice is registered. -/
  | register (key : ChoiceKey) (choice : Choice) : Change rules model (model.register key choice)
  /-- The oldest news is taken off the agenda. -/
  | dropNews {news : News} {agenda : List News} (pending : model.agenda = news :: agenda) :
      Change rules model { model with agenda := agenda }
  /-- The first choice is taken off the others. -/
  | forget {entry : ChoiceKey × Choice} {choices : List (ChoiceKey × Choice)}
      (first : model.choices = entry :: choices) :
      Change rules model { model with choices := choices }
  /-- A tuple that is not fixed is narrowed. -/
  | narrow {key : ChoiceKey} {excluded more : HandleSet} {after : PartialModel}
      (free : model.Free key excluded) (subset : ∀ value ∈ excluded, value ∈ more)
      (narrowed : model.constrain key.name key.args (.noneOf more) = .ok after) :
      Change rules model after
  /-- The partial model is given up. -/
  | kill (reason : DeadEnd) : Change rules model (model.kill reason)

/-- The second partial model comes of the first one by elementary changes, each of them of a partial
model that is still alive. -/
abbrev Changes (rules : RuleSet) : PartialModel → PartialModel → Prop :=
  Relation.ReflTransGen fun before after => before.isDead = false ∧ Change rules before after

variable {rules : RuleSet} {model before after : PartialModel}

theorem Change.changes (change : Change rules before after) (alive : before.isDead = false) :
    Changes rules before after := .single ⟨alive, change⟩

theorem Changes.relax (changes : Changes rules before after) :
    Relation.ReflTransGen (Change rules) before after :=
  Relation.ReflTransGen.mono (fun _ _ living => living.2) _ _ changes

end PartialModel

/-! ### Computations that change a partial model -/

namespace Saturating

/-- Whether the computation fails or not, it leaves a partial model that comes of the one before it
by elementary changes. -/
def ByChanges {α : Type} (rules : RuleSet) (compute : Saturating α)
    (workspace : Workspace) : Prop :=
  Changes rules workspace.model (remains compute workspace).model

variable {α β : Type} {rules : RuleSet} {model : PartialModel} {store : Store}
  {workspace : Workspace}

theorem byChanges_pure (result : α) (workspace : Workspace) :
    ByChanges rules (pure result) workspace := .refl

theorem byChanges_get {next : Workspace → Saturating α}
    (rest : ByChanges rules (next workspace) workspace) :
    ByChanges rules (get >>= next) workspace := rest

theorem ByChanges.bind {compute : Saturating α} {next : α → Saturating β}
    (first : ByChanges rules compute workspace)
    (rest : ∀ result middle, ByChanges rules (next result) middle) :
    ByChanges rules (compute >>= next) workspace := by
  rw [ByChanges, remains] at first ⊢
  cases computed : compute workspace with
  | error fault after =>
    rw [computed] at first
    rwa [bind_of_error computed]
  | ok result after =>
    rw [computed] at first
    rw [bind_of_ok computed]
    exact first.trans (rest result after)

/-- Interning leaves the partial model as it is. -/
theorem byChanges_interning {compute : Interning α} {next : α → Saturating β}
    (rest : ∀ result more, ByChanges rules (next result) ⟨model, more⟩) :
    ByChanges rules (interning compute >>= next) ⟨model, store⟩ := by
  cases computed : compute store with
  | error fault after =>
    have failed : interning compute ⟨model, store⟩ = .error fault ⟨model, after⟩ := by
      rw [interning, computed]
    rw [ByChanges, remains, bind_of_error failed]
  | ok result after =>
    have interned : interning compute ⟨model, store⟩ = .ok result ⟨model, after⟩ := by
      rw [interning, computed]
    rw [ByChanges, remains, bind_of_ok interned]
    exact rest result after

theorem byChanges_change {update : PartialModel → Except Fault PartialModel}
    (alive : model.isDead = false)
    (changes : ∀ after, update model = .ok after → Change rules model after) :
    ByChanges rules (change update) ⟨model, store⟩ := by
  rw [ByChanges, remains, change]
  cases updated : update model with
  | error fault => exact .refl
  | ok after => exact (changes after updated).changes alive

theorem byChanges_ifAlive {compute : Saturating Unit}
    (living : workspace.model.isDead = false → ByChanges rules compute workspace) :
    ByChanges rules (ifAlive compute) workspace := by
  refine byChanges_get ?_
  split
  · exact byChanges_pure () workspace
  · next alive => exact living (Bool.eq_false_iff.2 alive)

theorem byChanges_each {compute : α → Saturating Unit} {members : List α}
    (member : ∀ member workspace, ByChanges rules (compute member) workspace)
    (workspace : Workspace) : ByChanges rules (each compute members) workspace := by
  induction members generalizing workspace with
  | nil => exact byChanges_pure () workspace
  | cons first members ih => exact (member first workspace).bind fun _ middle => ih middle

end Saturating

open Saturating

variable {rules : RuleSet}

/-! ### Saturation -/

theorem CompiledConclusion.byChanges_carryOut (conclusion : CompiledConclusion)
    (substitution : Substitution) {workspace : Workspace} (alive : workspace.model.isDead = false) :
    ByChanges rules (conclusion.carryOut rules substitution) workspace := by
  obtain ⟨model, store⟩ := workspace
  cases conclusion with
  | intermediate name args =>
    exact byChanges_interning fun _ _ => byChanges_change alive fun _ derived => .derive derived
  | fact name args value =>
    exact byChanges_interning fun _ _ => byChanges_interning fun _ _ =>
      byChanges_change alive fun _ asserted => .assert asserted
  | choice name args values exhaustive =>
    refine byChanges_interning fun _ _ => byChanges_interning fun _ _ =>
      byChanges_change alive ?_
    intro after registered
    obtain rfl := Except.ok.inj registered
    exact .register _ _

theorem CompiledConclusion.byChanges_fire (conclusion : CompiledConclusion)
    (substitution : Substitution) (workspace : Workspace) :
    ByChanges rules (conclusion.fire rules substitution) workspace :=
  byChanges_ifAlive fun alive => conclusion.byChanges_carryOut substitution alive

theorem CompiledRule.byChanges_onFact (args : List Handle) (value : Handle) (rule : CompiledRule)
    (workspace : Workspace) : ByChanges rules (rule.onFact rules args value) workspace := by
  obtain ⟨model, store⟩ := workspace
  refine byChanges_get ?_
  simp only
  split
  · split
    · exact byChanges_pure () _
    · exact rule.conclusion.byChanges_fire _ _
  · split
    · exact byChanges_pure () _
    · refine byChanges_each ?_ _
      intro tuple middle
      split
      · exact byChanges_pure () middle
      · exact rule.conclusion.byChanges_fire _ middle
  · exact byChanges_pure () _

theorem CompiledRule.byChanges_onTuple (args : List Handle) (rule : CompiledRule)
    (workspace : Workspace) : ByChanges rules (rule.onTuple rules args) workspace := by
  obtain ⟨model, store⟩ := workspace
  refine byChanges_get ?_
  simp only
  split
  · exact byChanges_pure () _
  · split
    · exact byChanges_pure () _
    · refine byChanges_each ?_ _
      intro completion middle
      refine byChanges_get ?_
      split
      · exact byChanges_pure () middle
      · exact rule.conclusion.byChanges_fire _ middle
  · split
    · exact byChanges_pure () _
    · refine byChanges_interning fun outcomes more => ?_
      split
      · split
        · exact rule.conclusion.byChanges_fire _ _
        · exact byChanges_pure () _
      · exact byChanges_each rule.conclusion.byChanges_fire _

theorem News.byChanges_propagate (news : News) (workspace : Workspace) :
    ByChanges rules (news.propagate rules) workspace := by
  cases news with
  | fact name args value =>
    exact byChanges_each (fun rule middle => byChanges_ifAlive fun _ =>
      rule.byChanges_onFact args value middle) workspace
  | tuple name args =>
    exact byChanges_each (fun rule middle => byChanges_ifAlive fun _ =>
      rule.byChanges_onTuple args middle) workspace

/-- **A step is made of elementary changes**, whether it fails or not. -/
theorem Saturating.byChanges_step (workspace : Workspace) :
    ByChanges rules (step rules) workspace := by
  obtain ⟨model, store⟩ := workspace
  cases dead : model.isDead with
  | true =>
    rw [ByChanges, remains, step, if_pos dead]
  | false =>
    cases pending : model.agenda with
    | nil => simp only [ByChanges, remains, step, dead, pending]; exact .refl
    | cons news agenda =>
      have propagates : ByChanges rules (do news.propagate rules; pure true : Saturating Bool)
          ⟨{ model with agenda := agenda }, store⟩ :=
        (news.byChanges_propagate _).bind fun _ middle => byChanges_pure true middle
      simp only [ByChanges, remains, step, dead, pending]
      exact ((Change.dropNews pending).changes dead).trans propagates

/-- **Saturating is made of elementary changes**, whether it fails or not. -/
theorem Saturating.byChanges_saturate (rounds : Nat) (workspace : Workspace) :
    ByChanges rules (saturate rules rounds) workspace := by
  induction rounds generalizing workspace with
  | zero => exact byChanges_pure 0 workspace
  | succ rounds ih =>
    refine (byChanges_step workspace).bind fun progress middle => ?_
    split
    · exact (ih middle).bind fun steps last => byChanges_pure (steps + 1) last
    · exact byChanges_pure 0 middle

/-! ### Examination -/

namespace PartialModel

variable {model : PartialModel}

theorem changes_resolve (key : ChoiceKey) (choice : Choice) (excluded : HandleSet)
    (alive : model.isDead = false) : Changes rules model (model.resolve key choice excluded).2 := by
  rw [resolve]
  split
  · exact (Change.kill _).changes alive
  · exact .refl
  · split
    · exact .refl
    · next asserted => exact (Change.assert asserted).changes alive
  · split <;> exact .refl

theorem changes_judge (alive : model.isDead = false) :
    Changes rules model (model.judge rules).2 := by
  rw [judge]
  split
  · exact (Change.kill _).changes alive
  · split
    · exact (Change.kill _).changes alive
    · exact .refl

/-- **What an examination leaves comes of elementary changes**, whether it fails or not. -/
theorem changes_examine (rules : RuleSet) (model : PartialModel) :
    Changes rules model (model.examine rules).2 := by
  rw [examine]
  split
  · exact .refl
  · next alive =>
    rw [Bool.not_eq_true] at alive
    split
    · exact changes_judge alive
    · next key choice choices first =>
      refine ((Change.forget first).changes alive).trans ?_
      simp only
      split
      · split
        · exact (Change.kill _).changes alive
        · exact .refl
      · exact changes_resolve key choice _ alive
      · exact changes_resolve key choice _ alive

theorem changes_of_fixedTo {key : ChoiceKey} {values : List Handle}
    {branches : List PartialModel} {branch : PartialModel}
    (fixed : FixedTo key model values branches) (member : branch ∈ branches)
    (alive : model.isDead = false) : Changes rules model branch := by
  obtain ⟨value, -, asserted⟩ := exists_of_mem_right fixed member
  exact (Change.assert asserted).changes alive

/-- **A branch comes of elementary changes.** -/
theorem changes_of_mem_branches {branches : List PartialModel} {rest branch : PartialModel}
    (examined : model.examine rules = (.ok (.branch branches), rest))
    (member : branch ∈ branches) : Changes rules model branch := by
  -- A dead partial model has no branches.
  cases alive : model.isDead with
  | true =>
    rw [examine, if_pos alive] at examined
    cases examined
  | false =>
    cases examines_of_examine alive examined with
    | closed first free exhaustive fixed =>
      exact ((Change.forget first).changes alive).trans (changes_of_fixedTo fixed member alive)
    | @opened key choice choices excluded branches spared rest first free _ _ fixed narrowed =>
      refine ((Change.forget first).changes alive).trans ?_
      rcases List.mem_append.1 member with member | member
      · exact changes_of_fixedTo fixed member alive
      · obtain rfl := List.mem_singleton.1 member
        have subset : ∀ value ∈ excluded,
            value ∈ excluded.union (.ofList (choice.values.without excluded)) :=
          fun value hvalue => HandleSet.mem_union.2 (Or.inl hvalue)
        exact (Change.narrow (free.forget choices) subset narrowed).changes alive

/-! ### Operations -/

/-- **What a host can make of a partial model in one go**: a step, a saturation, an assertion or an
examination, whether it succeeds or not, or one of the branches that an examination leads to. -/
inductive Operates (rules : RuleSet) (model : PartialModel) : PartialModel → Prop where
  /-- A step of saturation, with whatever store. -/
  | step (store : Store) :
      Operates rules model ((Saturating.step rules).remains ⟨model, store⟩).model
  /-- Saturation by at most so many steps, with whatever store. -/
  | saturate (rounds : Nat) (store : Store) :
      Operates rules model ((Saturating.saturate rules rounds).remains ⟨model, store⟩).model
  /-- The assertion of a fact. One that fails leaves the partial model as it is. -/
  | assert {name : String} {args : List Handle} {value : Handle} {after : PartialModel}
      (asserted : model.assert name args value = .ok after) : Operates rules model after
  /-- What an examination leaves. -/
  | examine : Operates rules model (model.examine rules).2
  /-- A branch. -/
  | branch {branches : List PartialModel} {rest branch : PartialModel}
      (examined : model.examine rules = (.ok (.branch branches), rest))
      (member : branch ∈ branches) : Operates rules model branch

/-- **The partial models that a host can come to**: the blank one and the one in which the seeds are
planted, and whatever comes of them by operations. -/
inductive Attained (rules : RuleSet) : PartialModel → Prop where
  /-- The blank one. -/
  | blank : Attained rules {}
  /-- The one in which the seeds are planted. -/
  | seeded {model : PartialModel} (planted : PartialModel.seeded rules = .ok model) :
      Attained rules model
  /-- What an operation makes of one. -/
  | operate {model after : PartialModel} (attained : Attained rules model)
      (operates : Operates rules model after) : Attained rules after

/-- **An operation is made of elementary changes**, and all but the assertions of a host are changes
of living partial models only. -/
theorem Operates.changes (operates : Operates rules before after) :
    Changes rules before after ∨
      ∃ name args value, before.assert name args value = .ok after := by
  cases operates with
  | step store => exact Or.inl (byChanges_step ⟨before, store⟩)
  | saturate rounds store => exact Or.inl (byChanges_saturate rounds ⟨before, store⟩)
  | assert asserted => exact Or.inr ⟨_, _, _, asserted⟩
  | examine => exact Or.inl (changes_examine rules before)
  | branch examined member => exact Or.inl (changes_of_mem_branches examined member)

theorem Operates.of_step {store : Store} {last : Workspace} {progress : Bool}
    (stepped : Saturating.step rules ⟨model, store⟩ = .ok progress last) :
    Operates rules model last.model := by
  have operates : Operates rules model _ := .step store
  rwa [remains, stepped] at operates

theorem Examined.operates (examined : model.Examined rules after) : Operates rules model after := by
  cases examined with
  | @whole verdict _ examined _ =>
    have operates : Operates rules model _ := .examine
    rwa [examined] at operates
  | branch examined member => exact .branch examined member

theorem Operates.relax (operates : Operates rules before after) :
    Relation.ReflTransGen (Change rules) before after := by
  rcases operates.changes with changes | ⟨name, args, value, asserted⟩
  · exact changes.relax
  · exact .single (.assert asserted)

/-- Planting seeds is made of elementary changes. -/
theorem changes_of_plant {seeds : List String} (planted : before.plant rules seeds = .ok after) :
    Relation.ReflTransGen (Change rules) before after := by
  refine plant_induct (Relation.ReflTransGen (Change rules) before) .refl ?_ planted
  intro seed _ middle last changes derived
  exact changes.tail (.derive derived)

/-- **Whatever is attained comes of the blank partial model by elementary changes.** -/
theorem Attained.changes (attained : Attained rules model) :
    Relation.ReflTransGen (Change rules) {} model := by
  induction attained with
  | blank => exact .refl
  | seeded planted => exact changes_of_plant planted
  | operate _ operates ih => exact ih.trans operates.relax

/-- **What elementary changes preserve holds of everything that is attained**, if it holds of the
blank partial model. -/
theorem Attained.induct {holds : PartialModel → Prop} (blank : holds {})
    (change : ∀ before after, holds before → Change rules before after → holds after)
    (attained : Attained rules model) : holds model := by
  suffices ∀ last, Relation.ReflTransGen (Change rules) {} last → holds last from
    this model attained.changes
  intro last changes
  induction changes with
  | refl => exact blank
  | tail _ changed ih => exact change _ _ ih changed

/-- Whatever comes of an attained partial model by operations is attained. -/
theorem Attained.trans (attained : Attained rules before)
    (path : Relation.ReflTransGen (Operates rules) before after) : Attained rules after := by
  induction path with
  | refl => exact attained
  | tail _ operates ih => exact .operate ih operates

/-! An example: the seed lets a choice be registered that offers two values and others as well. -/

/-- The rules that offer two values. -/
def offering : RuleSet where
  rules := [⟨0, 0, .run "go" [] [] false, .choice "c" [] [.term 3, .term 4] false⟩]
  seeds := ["go"]
  demands := []
  forbids := []

/-- The partial model in which their seed is planted. -/
def planted : PartialModel := (seeded offering).toOption.getD {}

/-- What a step makes of it. -/
def offered : PartialModel := ((Saturating.step offering).remains ⟨planted, .initial⟩).model

theorem attained_offered : Attained offering offered :=
  have planted : Attained offering planted := .seeded rfl
  planted.operate (.step .initial)

end PartialModel

/-! ### Searches -/

/-- **What a search reaches is attained.** -/
theorem Reached.attained {program : Program} {workspace : Workspace} {asserted : Set News}
    (reached : Reached program rules workspace asserted) : Attained rules workspace.model := by
  induction reached with
  | root compiled planted => exact .seeded planted
  | grow _ _ _ ih => exact ih
  | step _ stepped ih => exact ih.operate (.of_step stepped)
  | examine _ examined ih => exact ih.operate examined.operates

end StableModels
