import StableModels.Machine
import StableModels.PartialModel

/-!
# Saturation

Saturation takes the news off the agenda, one at a time, and lets each trigger its rules. A
rule that matches **fires**: its conclusion is instantiated and derived, asserted or registered,
which may put further news on the agenda. When the agenda is empty the partial model is closed
under the rules.

Firing has no effect on a partial model that is dead, and rules are no longer matched then. A
fault leaves what was done before it in place.
-/

namespace StableModels

/-- A partial model together with the store of its terms. -/
structure Workspace where
  /-- The partial model. -/
  model : PartialModel
  /-- The store. -/
  store : Store

/-- A computation that changes a partial model, may intern terms and may fail. -/
abbrev Saturating := EStateM Fault Workspace

namespace Saturating

/-- An interning computation, with the partial model left as it is. -/
def interning {α : Type} (compute : Interning α) : Saturating α := fun ⟨model, store⟩ =>
  match compute store with
  | .ok value store => .ok value ⟨model, store⟩
  | .error fault store => .error fault ⟨model, store⟩

/-- A change of the partial model that may be refused, and then changes nothing. -/
def change (update : PartialModel → Except Fault PartialModel) : Saturating Unit :=
  fun ⟨model, store⟩ =>
    match update model with
    | .ok model => .ok () ⟨model, store⟩
    | .error fault => .error fault ⟨model, store⟩

/-- A computation for each member of a list, one after the other. -/
def each {α : Type} (compute : α → Saturating Unit) : List α → Saturating Unit
  | [] => pure ()
  | member :: members => do
    compute member
    each compute members

/-- The computation, unless the partial model is dead. -/
def ifAlive (compute : Saturating Unit) : Saturating Unit := do
  if (← get).model.isDead then pure () else compute

end Saturating

open Saturating

/-! ### Firing -/

/-- Instantiates a conclusion and carries it out. -/
def CompiledConclusion.carryOut (rules : RuleSet) (substitution : Substitution) :
    CompiledConclusion → Saturating Unit
  | intermediate name args => do
    let args ← interning (substitution.instantiateAll args)
    change (·.derive rules name args)
  | fact name args value => do
    let args ← interning (substitution.instantiateAll args)
    let value ← interning (substitution.instantiate value)
    change (·.assert name args value)
  | choice name args values exhaustive => do
    let args ← interning (substitution.instantiateAll args)
    let values ← interning (substitution.instantiateAll values)
    change fun model => .ok (model.register ⟨name, args⟩ ⟨.ofList values, exhaustive⟩)

/-- Fires a conclusion, which a dead partial model ignores. -/
def CompiledConclusion.fire (rules : RuleSet) (conclusion : CompiledConclusion)
    (substitution : Substitution) : Saturating Unit :=
  ifAlive (conclusion.carryOut rules substitution)

/-! ### Matching -/

namespace CompiledPremise

/-- The bindings under which a fact matches the premise. -/
def match? (store : Store) (premise : CompiledPremise) (slots : Nat) (args : List Handle)
    (value : Handle) : Option Substitution :=
  match (Substitution.blank slots).matchAll store premise.args args with
  | (false, _) => none
  | (true, substitution) =>
    match substitution.matchTerm store premise.value value with
    | (false, _) => none
    | (true, substitution) => some substitution

/-- The bindings that are added when the premise, from its shared arguments on, matches a way in
which a tuple goes on: the further arguments and, last, the value. -/
def matchRest? (store : Store) (premise : CompiledPremise) (shared : Nat)
    (substitution : Substitution) (completion : List Handle) : Option Substitution :=
  match completion.getLast? with
  | none => none
  | some value =>
    match substitution.matchAll store (premise.args.drop shared) completion.dropLast with
    | (false, _) => none
    | (true, substitution) =>
      match substitution.matchTerm store premise.value value with
      | (false, _) => none
      | (true, substitution) => some substitution

end CompiledPremise

/-- The bindings of slots to the members of a tuple, if that succeeds. -/
def Substitution.bindTuple? (slots : List Nat) (tuple : List Handle)
    (substitution : Substitution) : Option Substitution :=
  match substitution.bindAll slots tuple with
  | (true, substitution) => some substitution
  | (false, _) => none

namespace PartialModel

/-- The ways in which a prefix of arguments goes on to a derived tuple of `rest` more. -/
def completions (name : String) (start : List Handle) (rest : Nat) (model : PartialModel) :
    List (List Handle) :=
  match (model.tuplesOf name).lookup start with
  | none => []
  | some trie => ((trie.visit rest).filter fun found => found.2.payload?.isSome).map Prod.fst

end PartialModel

/-! ### Propagation -/

/-- Lets a new fact trigger a rule. -/
def CompiledRule.onFact (rules : RuleSet) (args : List Handle) (value : Handle)
    (rule : CompiledRule) : Saturating Unit := do
  let ⟨model, store⟩ ← get
  match rule.body with
  | .unary premise =>
    match premise.match? store rule.slots args value with
    | none => pure ()
    | some substitution => rule.conclusion.fire rules substitution
  | .join intermediate vars shared premise =>
    match premise.match? store rule.slots args value with
    | none => pure ()
    | some substitution =>
      each (fun tuple =>
          match substitution.bindTuple? (vars.drop shared) tuple with
          | none => pure ()
          | some substitution => rule.conclusion.fire rules substitution)
        (model.completions intermediate (args.take shared) (vars.length - shared))
  | .run .. => pure ()

/-- Lets a new tuple of an intermediate trigger a rule. -/
def CompiledRule.onTuple (rules : RuleSet) (args : List Handle) (rule : CompiledRule) :
    Saturating Unit := do
  let ⟨model, _⟩ ← get
  match rule.body with
  | .unary _ => pure ()
  | .join _ vars shared premise =>
    match (Substitution.blank rule.slots).bindTuple? vars args with
    | none => pure ()
    | some substitution =>
      each (fun completion => do
          match premise.matchRest? (← get).store shared substitution completion with
          | none => pure ()
          | some substitution => rule.conclusion.fire rules substitution)
        (model.database.visit premise.name (args.take shared) (premise.args.length - shared + 1))
  | .run _ vars instructions forFailure =>
    match (Substitution.blank rule.slots).bindTuple? vars args with
    | none => pure ()
    | some substitution => do
      let outcomes ← interning (Machine.run instructions substitution)
      if forFailure then
        if outcomes.isEmpty then rule.conclusion.fire rules substitution else pure ()
      else
        each (rule.conclusion.fire rules) outcomes

/-- Lets one piece of news trigger its rules, in the order of the program. -/
def News.propagate (rules : RuleSet) : News → Saturating Unit
  | fact name args value =>
    each (fun rule => ifAlive (rule.onFact rules args value)) (rules.onFact name)
  | tuple name args =>
    each (fun rule => ifAlive (rule.onTuple rules args)) (rules.onTuple name)

namespace Saturating

/-- Takes the oldest piece of news off the agenda and propagates it. False if there is none or
the partial model is dead. -/
def step (rules : RuleSet) : Saturating Bool := fun ⟨model, store⟩ =>
  if model.isDead then .ok false ⟨model, store⟩
  else
    match model.agenda with
    | [] => .ok false ⟨model, store⟩
    | news :: agenda =>
      (do news.propagate rules; pure true : Saturating Bool)
        ⟨{ model with agenda := agenda }, store⟩

/-- Steps until nothing is left to do, at most `rounds` times; the number of steps. -/
def saturate (rules : RuleSet) : Nat → Saturating Nat
  | 0 => pure 0
  | rounds + 1 => do
    if ← step rules then
      let steps ← saturate rules rounds
      pure (steps + 1)
    else
      pure 0

end Saturating

end StableModels
