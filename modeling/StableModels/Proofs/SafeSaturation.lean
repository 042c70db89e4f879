import StableModels.Proofs.Listing
import StableModels.Proofs.Safety

/-!
# Safe saturation

Saturating with the rules of a valid program is safe (`StableModels.Saturating.safe_step`): no guard
stops a step, and a step fails only where the partial model refuses a tuple.

What a firing may rely on is that the body has bound the slots of the conclusion. A premise that
matches binds its slots. A join is entered from either side, by a fact or by a tuple, and binds the
slots in two different orders; the slots of the shared arguments are bound by either, for the
premise has the variables of the tuple there. Code binds what its check has counted, except that a
rule that fires on failure goes on from the tuple alone.
-/

namespace StableModels

open Saturating

/-! ### Computations on workspaces -/

namespace Saturating

section Safe

variable {α : Type} {model : PartialModel} {store : Store} {refused : Fault → Workspace → Prop}

theorem safe_interning {guarded plain : Interning α}
    (succeeds : Interning.Succeeds guarded plain store) :
    Safe (interning guarded) (interning plain) ⟨model, store⟩ refused := by
  obtain ⟨heq, never⟩ := succeeds
  refine ⟨by rw [interning, interning, heq], fun fault after failed => ?_⟩
  rw [interning] at failed
  cases computed : plain store with
  | error inner last => exact (never inner last computed).elim
  | ok result last =>
    rw [computed] at failed
    cases failed

/-- Interning leaves the partial model as it is. -/
theorem exists_of_interning_eq_ok {compute : Interning α} {result : α} {after : Workspace}
    (computed : interning compute ⟨model, store⟩ = .ok result after) :
    ∃ more, compute store = .ok result more ∧ after = ⟨model, more⟩ := by
  rw [interning] at computed
  cases first : compute store with
  | error fault last =>
    rw [first] at computed
    cases computed
  | ok value more =>
    rw [first] at computed
    cases computed
    exact ⟨more, rfl, rfl⟩

/-- Interning first, and then something that may rely on what interning ensures. -/
theorem safe_interning_bind {β : Type} {guarded plain : Interning α}
    {next' next : α → Saturating β} {post : α → Store → Prop}
    (succeeds : Interning.Succeeds guarded plain store) (ensures : plain.Ensures store post)
    (continues : ∀ result more, more.Sound → store.Extends more → post result more →
      Safe (next' result) (next result) ⟨model, more⟩ refused) :
    Safe (interning guarded >>= next') (interning plain >>= next) ⟨model, store⟩ refused := by
  refine (safe_interning succeeds).bind ?_
  intro result after computed
  obtain ⟨more, interned, rfl⟩ := exists_of_interning_eq_ok computed
  obtain ⟨sound, extension, holds⟩ := ensures.of_ok interned
  exact continues result more sound extension holds

/-- A change is safe if whatever refuses it is a tuple that stands in the way. -/
theorem safe_change {rules : RuleSet} {update : PartialModel → Except Fault PartialModel}
    (fails : ∀ fault, update model = .error fault → model.Refuses rules fault) :
    Safe (change update) (change update) ⟨model, store⟩ fun fault after =>
      after.model.Refuses rules fault := by
  refine ⟨rfl, fun fault after failed => ?_⟩
  rw [change] at failed
  cases updated : update model with
  | ok changed =>
    rw [updated] at failed
    cases failed
  | error inner =>
    rw [updated] at failed
    cases failed
    exact fails fault updated

end Safe

/-- **The computation behaves** on the workspace: its guards never stop it, it fails only where the
partial model refuses a tuple, and it leaves a workspace on which rules can be fired. -/
structure Behaves (program : Program) (rules : RuleSet) (guarded plain : Saturating Unit)
    (workspace : Workspace) : Prop where
  /-- The computation is safe. -/
  safe : Safe guarded plain workspace fun fault after => after.model.Refuses rules fault
  /-- What it leaves is fit for more. -/
  fit : Ensures plain workspace fun _ after => after.Fit program rules

section Behaves

variable {α : Type} {program : Program} {rules : RuleSet} {workspace : Workspace}
  {guarded plain : Saturating Unit}

theorem behaves_nothing (fit : workspace.Fit program rules) :
    Behaves program rules (pure ()) (pure ()) workspace :=
  ⟨safe_pure _ _ _, .pure fit.sound fit⟩

/-- The workspace may be looked at on the way. -/
theorem behaves_get {next' next : Workspace → Saturating Unit}
    (behaves : Behaves program rules (next' workspace) (next workspace) workspace) :
    Behaves program rules (MonadState.get >>= next') (MonadState.get >>= next) workspace :=
  ⟨safe_get behaves.safe, behaves.fit⟩

theorem behaves_demand {inRange : Bool} (holds : inRange = true)
    (behaves : Behaves program rules guarded plain workspace) :
    Behaves program rules (do demand inRange; guarded) plain workspace :=
  ⟨safe_demand holds behaves.safe, behaves.fit⟩

theorem Behaves.bind {next' next : Saturating Unit}
    (behaves : Behaves program rules guarded plain workspace)
    (continues : ∀ after, after.Fit program rules → workspace.store.Extends after.store →
      Behaves program rules next' next after) :
    Behaves program rules (do guarded; next') (do plain; next) workspace := by
  refine ⟨behaves.safe.bind ?_, behaves.fit.bind ?_⟩
  · intro _ after computed
    obtain ⟨-, extension, fit⟩ := behaves.fit.of_ok computed
    exact (continues after fit extension).safe
  · intro _ after _ extension fit
    exact (continues after fit extension).fit

/-- Interning first, and then something that may rely on what interning ensures. -/
theorem behaves_interning {model : PartialModel} {store : Store} {guarded plain : Interning α}
    {next' next : α → Saturating Unit} {post : α → Store → Prop}
    (fit : Workspace.Fit program rules ⟨model, store⟩)
    (succeeds : Interning.Succeeds guarded plain store) (ensures : plain.Ensures store post)
    (continues : ∀ result more, Workspace.Fit program rules ⟨model, more⟩ → store.Extends more →
      post result more → Behaves program rules (next' result) (next result) ⟨model, more⟩) :
    Behaves program rules (interning guarded >>= next') (interning plain >>= next)
      ⟨model, store⟩ := by
  refine ⟨safe_interning_bind succeeds ensures ?_, (ensures_interning ensures).bind ?_⟩
  · intro result more sound extension holds
    exact (continues result more (fit.grow sound extension) extension holds).safe
  · rintro result ⟨_, more⟩ sound extension ⟨rfl, holds⟩
    exact (continues result more (fit.grow sound extension) extension holds).fit

theorem behaves_ifAlive (fit : workspace.Fit program rules)
    (behaves : workspace.model.isDead = false → Behaves program rules guarded plain workspace) :
    Behaves program rules (ifAlive guarded) (ifAlive plain) workspace := by
  refine behaves_get ?_
  cases alive : workspace.model.isDead with
  | true => exact behaves_nothing fit
  | false => exact behaves alive

/-- Going through a list, each member in a store that those before it have extended. -/
theorem behaves_each {guarded plain : α → Saturating Unit} (fit : workspace.Fit program rules)
    (members : List α) (behaves : ∀ member ∈ members, ∀ middle, middle.Fit program rules →
      workspace.store.Extends middle.store →
        Behaves program rules (guarded member) (plain member) middle) :
    Behaves program rules (each guarded members) (each plain members) workspace := by
  induction members generalizing workspace with
  | nil => exact behaves_nothing fit
  | cons member members ih =>
    refine (behaves member List.mem_cons_self workspace fit (.refl _)).bind ?_
    intro after hfit extension
    refine ih hfit ?_
    intro other hother middle hmiddle extension'
    exact behaves other (List.mem_cons_of_mem _ hother) middle hmiddle (extension.trans extension')

end Behaves

end Saturating

/-! ### Conclusions -/

namespace CompiledConclusion

variable {program : Program} {rules : RuleSet} {substitution : Substitution} {bound : List Nat}

/-- **Carrying out a conclusion is safe** once its slots are bound. -/
theorem safe_carryOut {model : PartialModel} {store : Store} (sound : store.Sound)
    (model_sound : model.Sound) (known : substitution.Known store)
    (binds : substitution.Binds bound) {conclusion : Conclusion} {compiled : CompiledConclusion}
    (compiles : conclusion.Compiles store compiled) (complete : conclusion.Complete bound) :
    Safe (compiled.carryOutGuarded rules substitution) (compiled.carryOut rules substitution)
      ⟨model, store⟩ fun fault after => after.model.Refuses rules fault := by
  cases compiles with
  | intermediate args_compile =>
    refine safe_interning_bind
      (Substitution.succeeds_instantiateAll binds sound known args_compile complete)
      (Substitution.ensures_instantiateAll sound known args_compile) ?_
    intro args more _ _ _
    exact safe_change fun fault refused => model_sound.refuses_of_derive refused
  | fact args_compile value_compiles =>
    have complete_args : ∀ arg ∈ _, Pattern.Complete bound arg := fun arg member =>
      complete arg (List.mem_append_left _ member)
    have complete_value := complete _ (List.mem_append_right _ (List.mem_singleton.2 rfl))
    refine safe_interning_bind
      (Substitution.succeeds_instantiateAll binds sound known args_compile complete_args)
      (Substitution.ensures_instantiateAll sound known args_compile) ?_
    intro args more hsound extension _
    have hknown := known.mono extension
    have hvalue := value_compiles.mono extension
    refine safe_interning_bind
      (Substitution.succeeds_instantiate binds hsound hknown hvalue complete_value)
      (Substitution.ensures_instantiate hsound hknown hvalue) ?_
    intro value last _ _ _
    refine safe_get_demand (model_sound.database.inRange _ args) ?_
    exact safe_change fun fault refused => model_sound.refuses_of_assert refused
  | choice args_compile values_compile =>
    have complete_args : ∀ arg ∈ _, Pattern.Complete bound arg := fun arg member =>
      complete arg (List.mem_append_left _ member)
    have complete_values : ∀ value ∈ _, Pattern.Complete bound value := fun value member =>
      complete value (List.mem_append_right _ member)
    refine safe_interning_bind
      (Substitution.succeeds_instantiateAll binds sound known args_compile complete_args)
      (Substitution.ensures_instantiateAll sound known args_compile) ?_
    intro args more hsound extension _
    have hknown := known.mono extension
    have hvalues := CompilesAll.mono extension values_compile
    refine safe_interning_bind
      (Substitution.succeeds_instantiateAll binds hsound hknown hvalues complete_values)
      (Substitution.ensures_instantiateAll hsound hknown hvalues) ?_
    intro values last _ _ _
    exact safe_change fun fault refused => by cases refused

/-- **Firing a conclusion** of the program whose slots are bound. -/
theorem behaves_fire {workspace : Workspace} (fit : workspace.Fit program rules) {rule : Rule}
    (member : rule ∈ program.rules) (complete : rule.conclusion.Complete bound)
    {compiled : CompiledConclusion} (compiles : rule.conclusion.Compiles workspace.store compiled)
    (known : substitution.Known workspace.store) (binds : substitution.Binds bound) :
    Behaves program rules (compiled.fireGuarded rules substitution)
      (compiled.fire rules substitution) workspace := by
  obtain ⟨model, store⟩ := workspace
  refine behaves_ifAlive fit ?_
  intro alive
  refine ⟨safe_carryOut fit.sound (fit.readable alive).sound known binds compiles complete, ?_⟩
  refine (ensures_carryOut fit.sound rules model compiles known).mono ?_
  rintro _ ⟨after, last⟩ sound extension carries
  exact (fit.grow sound extension).fire alive member carries

end CompiledConclusion

/-! ### Premises -/

namespace CompiledPremise

variable {store : Store} {premise : Premise} {compiled : CompiledPremise} {args rest : List Handle}
  {value last : Handle} {terms : List Term} {term : Term}

/-- Matching a fact that can be read looks up terms of the store only. -/
theorem inRange_of_expands (sound : store.Sound) (args_expand : store.Expands args terms)
    (value_expands : store.expand value = some term) :
    compiled.inRange store args value = true := by
  rw [inRange, CompiledPattern.allInRange_of_expands sound _ args_expand,
    CompiledPattern.inRange_of_expand sound _ value_expands]
  rfl

/-- Matching the rest of a fact that can be read looks up terms of the store only. -/
theorem restInRange_of_expands (sound : store.Sound) (shared : Nat)
    (rest_expands : store.Expands rest terms) (last_expands : store.expand last = some term) :
    compiled.restInRange store shared (rest ++ [last]) = true := by
  rw [restInRange, List.getLast?_concat, List.dropLast_concat, Option.all_some,
    CompiledPattern.allInRange_of_expands sound _ rest_expands,
    CompiledPattern.inRange_of_expand sound _ last_expands]
  rfl

end CompiledPremise

/-! ### Rules -/

section Rules

variable {program : Program} {rules : RuleSet} {workspace : Workspace} {premise : Premise}
  {conclusion : Conclusion} {compiled : CompiledPremise} {concluded : CompiledConclusion}
  {args : List Handle} {value : Handle} {terms : List Term} {term : Term} {slots : Nat}
  {intermediate : String} {vars : List Nat} {shared : Nat} {code : List Instruction} {index : Nat}

theorem behaves_unary (fit : workspace.Fit program rules)
    (member : Rule.unary premise conclusion ∈ program.rules)
    (complete : conclusion.Complete premise.slots)
    (premise_compiles : premise.Compiles workspace.store compiled)
    (conclusion_compiles : conclusion.Compiles workspace.store concluded)
    (args_expand : workspace.store.Expands args terms)
    (value_expands : workspace.store.expand value = some term) :
    Behaves program rules
      (CompiledRule.onFactGuarded rules args value ⟨index, slots, .unary compiled, concluded⟩)
      (CompiledRule.onFact rules args value ⟨index, slots, .unary compiled, concluded⟩)
      workspace := by
  have inRange : compiled.inRange workspace.store args value = true :=
    CompiledPremise.inRange_of_expands fit.sound args_expand value_expands
  refine behaves_get (behaves_demand inRange ?_)
  dsimp only
  cases matched : compiled.match? workspace.store slots args value with
  | none => exact behaves_nothing fit
  | some substitution =>
    obtain ⟨known, denotes⟩ := CompiledPremise.match?_sound fit.sound premise_compiles args_expand
      value_expands matched
    exact CompiledConclusion.behaves_fire fit member complete conclusion_compiles known
      denotes.binds

theorem behaves_join_onFact (fit : workspace.Fit program rules)
    (alive : workspace.model.isDead = false)
    (member : Rule.join intermediate vars shared premise conclusion ∈ program.rules)
    (complete : conclusion.Complete (vars ++ premise.slots))
    (premise_compiles : premise.Compiles workspace.store compiled)
    (conclusion_compiles : conclusion.Compiles workspace.store concluded)
    (args_expand : workspace.store.Expands args terms)
    (value_expands : workspace.store.expand value = some term) :
    Behaves program rules
      (CompiledRule.onFactGuarded rules args value
        ⟨index, slots, .join intermediate vars shared compiled, concluded⟩)
      (CompiledRule.onFact rules args value
        ⟨index, slots, .join intermediate vars shared compiled, concluded⟩)
      workspace := by
  obtain ⟨shared_le, shared_le', linked⟩ := fit.compiles.linked _ member
  have readable := fit.readable alive
  have inRange : compiled.inRange workspace.store args value = true :=
    CompiledPremise.inRange_of_expands fit.sound args_expand value_expands
  refine behaves_get (behaves_demand inRange ?_)
  dsimp only
  cases matched : compiled.match? workspace.store slots args value with
  | none => exact behaves_nothing fit
  | some substitution =>
    obtain ⟨known, denotes⟩ := CompiledPremise.match?_sound fit.sound premise_compiles args_expand
      value_expands matched
    have length_eq := args_expand.length_eq.trans denotes.1.length_eq.symm
    refine behaves_demand (by simp [length_eq, shared_le, shared_le']) ?_
    refine behaves_each fit _ ?_
    intro rest hrest middle hfit extension
    obtain ⟨-, derived⟩ := readable.sound.mem_completions.1 hrest
    obtain ⟨tuple, tuple_expands⟩ := readable.tuples _ _ derived
    obtain ⟨-, others, -, -, rest_expands⟩ := tuple_expands.exists_of_append
    cases bound : substitution.bindTuple? (vars.drop shared) rest with
    | none => exact behaves_nothing hfit
    | some after =>
      obtain ⟨hknown, within, agrees⟩ := Substitution.bindTuple?_sound (known.mono extension)
        (extension.expands rest_expands) bound
      rw [known.valuation_eq extension] at within
      have hdenotes : premise.Denotes (after.valuation middle.store) terms term :=
        ⟨denotes.1.mono within, denotes.2.mono within⟩
      -- The first slots of the tuple are bound by the shared arguments of the premise.
      have hvars : after.Binds vars := by
        rw [← List.take_append_drop shared vars]
        exact (Substitution.binds_of_map_eq (map_take_of_denoteAll linked hdenotes.1)).append
          (Substitution.binds_of_map_eq agrees)
      exact CompiledConclusion.behaves_fire hfit member complete
        (conclusion_compiles.mono extension) hknown (hvars.append hdenotes.binds)

theorem behaves_join_onTuple (fit : workspace.Fit program rules)
    (alive : workspace.model.isDead = false)
    (member : Rule.join intermediate vars shared premise conclusion ∈ program.rules)
    (complete : conclusion.Complete (vars ++ premise.slots))
    (premise_compiles : premise.Compiles workspace.store compiled)
    (conclusion_compiles : conclusion.Compiles workspace.store concluded)
    (args_expand : workspace.store.Expands args terms) :
    Behaves program rules
      (CompiledRule.onTupleGuarded rules args
        ⟨index, slots, .join intermediate vars shared compiled, concluded⟩)
      (CompiledRule.onTuple rules args
        ⟨index, slots, .join intermediate vars shared compiled, concluded⟩)
      workspace := by
  obtain ⟨shared_le, shared_le', linked⟩ := fit.compiles.linked _ member
  have readable := fit.readable alive
  refine behaves_get ?_
  dsimp only
  cases bound : (Substitution.blank slots).bindTuple? vars args with
  | none => exact behaves_nothing fit
  | some substitution =>
    obtain ⟨known, agrees⟩ := Substitution.bindTuple?_blank_sound args_expand bound
    have length_eq := Substitution.length_eq_of_bindTuple? bound
    have length_eq' := premise_compiles.args.length_eq
    refine behaves_demand (by simp [length_eq, ← length_eq', shared_le, shared_le']) ?_
    refine behaves_each fit _ ?_
    intro completion hcompletion middle hfit extension
    obtain ⟨rest, last, others, term, rfl, -, rest_expands, last_expands, -⟩ :=
      readable.exists_of_mem_visit hcompletion
    have hrest := extension.expands rest_expands
    have hlast := extension.expand last_expands
    refine behaves_get (behaves_demand ?_ ?_)
    · exact CompiledPremise.restInRange_of_expands hfit.sound shared hrest hlast
    cases matched : compiled.matchRest? middle.store shared substitution (rest ++ [last]) with
    | none => exact behaves_nothing hfit
    | some after =>
      obtain ⟨hknown, within, denote, value_denotes⟩ :=
        CompiledPremise.matchRest?_sound hfit.sound (premise_compiles.mono extension)
          (known.mono extension) hrest hlast matched
      rw [known.valuation_eq extension] at within
      have hagrees := within.map_eq agrees
      -- The slots of the shared arguments are bound by the tuple.
      have denotes := Premise.denotes_of_linked linked hagrees denote value_denotes
      exact CompiledConclusion.behaves_fire hfit member complete
        (conclusion_compiles.mono extension) hknown
        ((Substitution.binds_of_map_eq hagrees).append denotes.binds)

/-! ### Code -/

theorem behaves_run (fit : workspace.Fit program rules)
    (member : Rule.run intermediate vars code conclusion ∈ program.rules) {final : List Nat}
    (checked : Rule.checkCode code 0 0 vars = .ok final) (complete : conclusion.Complete final)
    (conclusion_compiles : conclusion.Compiles workspace.store concluded)
    (args_expand : workspace.store.Expands args terms) :
    Behaves program rules
      (CompiledRule.onTupleGuarded rules args
        ⟨index, slots, .run intermediate vars code false, concluded⟩)
      (CompiledRule.onTuple rules args ⟨index, slots, .run intermediate vars code false, concluded⟩)
      workspace := by
  obtain ⟨model, store⟩ := workspace
  refine behaves_get ?_
  dsimp only
  cases bound : (Substitution.blank slots).bindTuple? vars args with
  | none => exact behaves_nothing fit
  | some substitution =>
    obtain ⟨known, agrees⟩ := Substitution.bindTuple?_blank_sound args_expand bound
    have binds := Substitution.binds_of_map_eq agrees
    refine behaves_interning fit (Machine.succeeds_run fit.sound known binds checked)
      (Machine.ensures_run code fit.sound known).computed ?_
    rintro outcomes more hfit extension ⟨ran, outcomes_known⟩
    refine behaves_each hfit outcomes ?_
    intro outcome houtcome middle hmiddle extension'
    exact CompiledConclusion.behaves_fire hmiddle member complete
      (conclusion_compiles.mono (extension.trans extension'))
      ((outcomes_known outcome houtcome).mono extension')
      (Machine.binds_of_outcomes checked binds ran outcome houtcome)

theorem behaves_runForFailure (fit : workspace.Fit program rules)
    (member : Rule.runForFailure intermediate vars code conclusion ∈ program.rules)
    {final : List Nat} (checked : Rule.checkCode code 0 0 vars = .ok final)
    (complete : conclusion.Complete vars)
    (conclusion_compiles : conclusion.Compiles workspace.store concluded)
    (args_expand : workspace.store.Expands args terms) :
    Behaves program rules
      (CompiledRule.onTupleGuarded rules args
        ⟨index, slots, .run intermediate vars code true, concluded⟩)
      (CompiledRule.onTuple rules args ⟨index, slots, .run intermediate vars code true, concluded⟩)
      workspace := by
  obtain ⟨model, store⟩ := workspace
  refine behaves_get ?_
  dsimp only
  cases bound : (Substitution.blank slots).bindTuple? vars args with
  | none => exact behaves_nothing fit
  | some substitution =>
    obtain ⟨known, agrees⟩ := Substitution.bindTuple?_blank_sound args_expand bound
    have binds := Substitution.binds_of_map_eq agrees
    refine behaves_interning fit (Machine.succeeds_run fit.sound known binds checked)
      (Machine.ensures_run code fit.sound known) ?_
    intro outcomes more hfit extension _
    cases outcomes.isEmpty with
    | false => exact behaves_nothing hfit
    | true =>
      exact CompiledConclusion.behaves_fire hfit member complete
        (conclusion_compiles.mono extension) (known.mono extension) binds

/-! ### Triggering rules -/

section Triggers

variable {rule : Rule} {compiled : CompiledRule}

/-- A fact lets a valid rule behave. -/
theorem CompiledRule.behaves_onFact (fit : workspace.Fit program rules)
    (alive : workspace.model.isDead = false) (member : rule ∈ program.rules)
    (valid : rule.validate = .ok ()) (compiles : rule.Compiles workspace.store compiled)
    (args_expand : workspace.store.Expands args terms)
    (value_expands : workspace.store.expand value = some term) :
    Behaves program rules (compiled.onFactGuarded rules args value)
      (compiled.onFact rules args value) workspace := by
  obtain ⟨bound, checked, complete⟩ := Rule.exists_complete_of_validate valid
  cases compiles with
  | unary premise_compiles conclusion_compiles =>
    cases checked
    exact behaves_unary fit member complete premise_compiles conclusion_compiles args_expand
      value_expands
  | join premise_compiles conclusion_compiles =>
    obtain ⟨-, -, rfl⟩ := Rule.of_checkBody_join checked
    exact behaves_join_onFact fit alive member complete premise_compiles conclusion_compiles
      args_expand value_expands
  | run | runForFailure => exact behaves_nothing fit

/-- A tuple lets a valid rule behave. -/
theorem CompiledRule.behaves_onTuple (fit : workspace.Fit program rules)
    (alive : workspace.model.isDead = false) (member : rule ∈ program.rules)
    (valid : rule.validate = .ok ()) (compiles : rule.Compiles workspace.store compiled)
    (args_expand : workspace.store.Expands args terms) :
    Behaves program rules (compiled.onTupleGuarded rules args) (compiled.onTuple rules args)
      workspace := by
  obtain ⟨bound, checked, complete⟩ := Rule.exists_complete_of_validate valid
  cases compiles with
  | unary => exact behaves_nothing fit
  | join premise_compiles conclusion_compiles =>
    obtain ⟨-, -, rfl⟩ := Rule.of_checkBody_join checked
    exact behaves_join_onTuple fit alive member complete premise_compiles conclusion_compiles
      args_expand
  | run conclusion_compiles =>
    exact behaves_run fit member checked complete conclusion_compiles args_expand
  | runForFailure conclusion_compiles =>
    obtain ⟨final, hchecked, rfl⟩ := Rule.exists_of_checkBody_runForFailure checked
    exact behaves_runForFailure fit member hchecked complete conclusion_compiles args_expand

end Triggers

/-- Going through the compiled rules that are triggered behaves if each of them behaves, compiled
from a rule of the program, as long as the partial model lives. -/
theorem RuleSet.behaves_each (fit : workspace.Fit program rules) (triggers : CompiledRule → Bool)
    {guarded plain : CompiledRule → Saturating Unit}
    (behaves : ∀ rule ∈ program.rules, ∀ compiled middle, middle.Fit program rules →
      workspace.store.Extends middle.store → middle.model.isDead = false →
        rule.Compiles middle.store compiled →
          Behaves program rules (guarded compiled) (plain compiled) middle) :
    Behaves program rules
      (each (fun rule => do demand (rules.has rule); ifAlive (guarded rule))
        (rules.rules.filter triggers))
      (each (fun rule => ifAlive (plain rule)) (rules.rules.filter triggers)) workspace := by
  refine Saturating.behaves_each fit _ ?_
  intro compiled triggered middle hfit extension
  have among := List.mem_of_mem_filter triggered
  obtain ⟨index_lt, -⟩ := List.getElem?_eq_some_iff.1 (hfit.compiles.placed compiled among)
  refine behaves_demand (decide_eq_true index_lt) (behaves_ifAlive hfit ?_)
  intro alive
  obtain ⟨rule, member, compiles⟩ := exists_of_mem_right hfit.compiles.rules among
  exact behaves rule member compiled middle hfit extension alive compiles

/-- **A piece of news that can be read lets all rules of a valid program behave.** -/
theorem News.behaves_propagate (fit : workspace.Fit program rules)
    (valid : program.validate = .ok ()) {news : News} {atom : Atom}
    (reads : news.Reads workspace.store atom) :
    Behaves program rules (news.propagateGuarded rules) (news.propagate rules) workspace := by
  cases reads with
  | fact args_expand value_expands =>
    refine RuleSet.behaves_each fit _ ?_
    intro rule member compiled middle hfit extension alive compiles
    exact CompiledRule.behaves_onFact hfit alive member (Program.forall_validate valid rule member)
      compiles (extension.expands args_expand) (extension.expand value_expands)
  | tuple args_expand =>
    refine RuleSet.behaves_each fit _ ?_
    intro rule member compiled middle hfit extension alive compiles
    exact CompiledRule.behaves_onTuple hfit alive member (Program.forall_validate valid rule member)
      compiles (extension.expands args_expand)

end Rules

/-- **A step of saturation is safe** for a valid program. -/
theorem Saturating.safe_step {program : Program} {rules : RuleSet} {model : PartialModel}
    {store : Store} (fit : Workspace.Fit program rules ⟨model, store⟩)
    (valid : program.validate = .ok ()) (agenda_known : ∀ news ∈ model.agenda, news ∈ model.known) :
    Safe (stepGuarded rules) (step rules) ⟨model, store⟩ fun fault after =>
      after.model.Refuses rules fault := by
  rw [Safe, stepGuarded, step]
  cases alive : model.isDead with
  | true => exact safe_pure false _ _
  | false =>
    cases pending : model.agenda with
    | nil => exact safe_pure false _ _
    | cons news agenda =>
      have known := agenda_known news (by rw [pending]; exact List.mem_cons_self)
      obtain ⟨atom, reads⟩ := (fit.readable alive).reads news known
      have behaves := News.behaves_propagate (fit.dropNews agenda) valid reads
      exact behaves.safe.bind fun _ after _ => safe_pure true _ _

/-- An examination of a sound partial model needs no guard. -/
theorem PartialModel.examineGuarded_eq {model : PartialModel} (rules : RuleSet)
    (sound : model.isDead = false → model.Sound) :
    model.examineGuarded rules = model.examine rules := by
  rw [examineGuarded]
  refine if_pos ?_
  cases alive : model.isDead with
  | true => rfl
  | false =>
    cases model.choices.head? with
    | none => rfl
    | some entry => exact (sound alive).database.inRange entry.1.name entry.1.args

end StableModels
