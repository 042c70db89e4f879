import StableModels.Search

/-!
# Guarded searches

Handles are positions in a store, rules are triggered by their places, the arguments that a join
shares are the beginning of a tuple, a tally goes down when a constraint is replaced, and so does
the size of a queue when an element leaves. All this can go out of range: a handle could belong to
another store, a tuple could be shorter than what is shared, a count could be zero already. The
search does not look, and a total function has some answer in any case.

A **guarded** computation looks first, and stops with a fault of its own where it is about to reach
out of range (`StableModels.Fault.outOfRange`); apart from that it is the computation that it
guards. Where there is a guard, it may ask for more than the computation looks at, never for less:
matching looks up a term only if everything before it has matched, and its guard asks for all of
them at once.

There is no guard where nothing that is given from outside could go wrong. A text is cut between its
characters, at places that are read off the text (`StableModels.isValid_of_segments`). A cursor that
goes through a map, or through a level of a trie, takes each entry off a number of entries that is
not zero (`StableModels.OrderedMap.Cursor.Counted.next`,
`StableModels.Trie.Visitor.InStep.counted`); the computations here list the entries at once, to the
same effect.
-/

namespace StableModels

/-- The fault of a guarded computation that is about to reach out of range. -/
def Fault.outOfRange : Fault := Cause.stated .protocol "access out of range"

/-- Goes on only if everything is in range. -/
def demand {σ : Type} (inRange : Bool) : EStateM Fault σ Unit := fun state =>
  if inRange then .ok () state else .error .outOfRange state

/-! ### Terms -/

/-- The handle is one of the store's. -/
def Store.has (store : Store) (handle : Handle) : Bool := handle < store.size

namespace Interning

/-- Interns a constructor over handles of the store. -/
def buildGuarded (name : String) (handles : List Handle) : Interning Handle := do
  let store ← get
  demand (handles.all store.has)
  intern (.const name handles)

end Interning

namespace Pattern

mutual

/-- Interns the term of a ground pattern. -/
def internGuarded : Pattern → Interning Handle
  | const name args => do
    let handles ← internAllGuarded args
    Interning.buildGuarded name handles
  | pattern => pattern.intern

/-- Interns the terms of ground patterns. -/
def internAllGuarded : List Pattern → Interning (List Handle)
  | [] => pure []
  | pattern :: patterns => do
    let handle ← internGuarded pattern
    let handles ← internAllGuarded patterns
    pure (handle :: handles)

end

end Pattern

namespace CompiledPattern

mutual

/-- All terms that a match against the pattern can look up are in the store. -/
def inRange (store : Store) : CompiledPattern → Handle → Bool
  | .const _ args, handle =>
    match store.shape? handle with
    | none => false
    | some (.const _ handles) => allInRange store args handles
    | some _ => true
  | .term _, _ | .var _, _ | .wildcard, _ => true

/-- All terms that matches of several terms can look up are in the store. -/
def allInRange (store : Store) : List CompiledPattern → List Handle → Bool
  | pattern :: patterns, handle :: handles =>
    inRange store pattern handle && allInRange store patterns handles
  | [], _ | _ :: _, [] => true

end

end CompiledPattern

namespace Substitution

mutual

/-- The term that a pattern denotes. -/
def instantiateGuarded (substitution : Substitution) : CompiledPattern → Interning Handle
  | .const name args => do
    let handles ← substitution.instantiateAllGuarded args
    Interning.buildGuarded name handles
  | pattern => substitution.instantiate pattern

/-- The terms that patterns denote. -/
def instantiateAllGuarded (substitution : Substitution) :
    List CompiledPattern → Interning (List Handle)
  | [] => pure []
  | pattern :: patterns => do
    let handle ← substitution.instantiateGuarded pattern
    let handles ← substitution.instantiateAllGuarded patterns
    pure (handle :: handles)

end

end Substitution

/-! ### The machine -/

namespace Machine

/-- The operands of an instruction are in the store, and so are the terms of the slots that it
binds. -/
def inRange (store : Store) (substitution : Substitution) (instruction : Instruction)
    (operands : List Handle) : Bool :=
  operands.all store.has && instruction.binds.all fun slot => (substitution.get? slot).all store.has

/-- Carries out an instruction whose operands have been popped. -/
def performGuarded (position : Nat) (stack : List Handle) (substitution : Substitution)
    (instruction : Instruction) (operands : List Handle) : Interning Progress := do
  let store ← get
  demand (inRange store substitution instruction operands)
  match instruction.constant? with
  | some value => do
    let handle ← value.internGuarded
    pure (.next (handle :: stack) substitution)
  | none => perform position stack substitution instruction operands

/-- Pops the operands of an instruction and carries it out. -/
def stepGuarded (position : Nat) (instruction : Instruction) (stack : List Handle)
    (substitution : Substitution) : Interning Progress :=
  if instruction.pops ≤ stack.length then
    performGuarded position (stack.drop instruction.pops) substitution instruction
      (stack.take instruction.pops).reverse
  else
    Interning.fail (.stackUnderflow position)

/-- The outcomes of code. -/
def outcomesGuarded :
    List Instruction → Nat → List Handle → Substitution → Interning (List Substitution)
  | [], _, _, substitution => pure [substitution]
  | instruction :: code, position, stack, substitution => do
    match ← stepGuarded position instruction stack substitution with
    | .stop => pure []
    | .next stack substitution => outcomesGuarded code (position + 1) stack substitution
    | .fork stack substitution rows =>
      collect (fun row => do
        match ← bindRow row substitution with
        | some substitution => outcomesGuarded code (position + 1) stack substitution
        | none => pure []) rows

/-- The outcomes of code that starts with an empty stack. -/
def runGuarded (code : List Instruction) (substitution : Substitution) :
    Interning (List Substitution) :=
  outcomesGuarded code 0 [] substitution

end Machine

/-! ### Databases -/

/-- The tally has counted some tuple with this constraint. -/
def Tally.counts (constraint : Constraint) (tally : Tally) : Bool :=
  if constraint.isFixed then 0 < tally.fixed else 0 < tally.narrowed

/-- If the tuple has a constraint, which may be replaced, then both tallies have counted it. -/
def Database.inRange (name : String) (args : List Handle) (database : Database) : Bool :=
  (database.get? name args).all fun constraint =>
    database.tally.counts constraint &&
      ((database.relation? name).getD {}).tally.counts constraint

/-! ### Saturation -/

open Saturating

namespace CompiledConclusion

/-- Instantiates a conclusion and carries it out. -/
def carryOutGuarded (rules : RuleSet) (substitution : Substitution) :
    CompiledConclusion → Saturating Unit
  | intermediate name args => do
    let args ← interning (substitution.instantiateAllGuarded args)
    change (·.derive rules name args)
  | fact name args value => do
    let args ← interning (substitution.instantiateAllGuarded args)
    let value ← interning (substitution.instantiateGuarded value)
    let workspace ← get
    demand (workspace.model.database.inRange name args)
    change (·.assert name args value)
  | choice name args values exhaustive => do
    let args ← interning (substitution.instantiateAllGuarded args)
    let values ← interning (substitution.instantiateAllGuarded values)
    change fun model => .ok (model.register ⟨name, args⟩ ⟨.ofList values, exhaustive⟩)

/-- Fires a conclusion. -/
def fireGuarded (rules : RuleSet) (conclusion : CompiledConclusion) (substitution : Substitution) :
    Saturating Unit :=
  ifAlive (conclusion.carryOutGuarded rules substitution)

end CompiledConclusion

namespace CompiledPremise

/-- All terms that a match of a fact can look up are in the store. -/
def inRange (store : Store) (premise : CompiledPremise) (args : List Handle) (value : Handle) :
    Bool :=
  CompiledPattern.allInRange store premise.args args && premise.value.inRange store value

/-- All terms that a match of the rest of a fact can look up are in the store. -/
def restInRange (store : Store) (premise : CompiledPremise) (shared : Nat)
    (completion : List Handle) : Bool :=
  completion.getLast?.all fun value =>
    CompiledPattern.allInRange store (premise.args.drop shared) completion.dropLast &&
      premise.value.inRange store value

end CompiledPremise

namespace CompiledRule

/-- Lets a new fact trigger a rule. -/
def onFactGuarded (rules : RuleSet) (args : List Handle) (value : Handle) (rule : CompiledRule) :
    Saturating Unit := do
  let workspace ← get
  match rule.body with
  | .unary premise => do
    demand (premise.inRange workspace.store args value)
    match premise.match? workspace.store rule.slots args value with
    | none => pure ()
    | some substitution => rule.conclusion.fireGuarded rules substitution
  | .join intermediate vars shared premise => do
    demand (premise.inRange workspace.store args value)
    match premise.match? workspace.store rule.slots args value with
    | none => pure ()
    | some substitution => do
      demand (shared ≤ args.length && shared ≤ vars.length)
      each (fun tuple =>
          match substitution.bindTuple? (vars.drop shared) tuple with
          | none => pure ()
          | some substitution => rule.conclusion.fireGuarded rules substitution)
        (workspace.model.completions intermediate (args.take shared) (vars.length - shared))
  | .run .. => pure ()

/-- Lets a new tuple of an intermediate trigger a rule. -/
def onTupleGuarded (rules : RuleSet) (args : List Handle) (rule : CompiledRule) :
    Saturating Unit := do
  let workspace ← get
  match rule.body with
  | .unary _ => pure ()
  | .join _ vars shared premise =>
    match (Substitution.blank rule.slots).bindTuple? vars args with
    | none => pure ()
    | some substitution => do
      demand (shared ≤ args.length && shared ≤ premise.args.length)
      each (fun completion => do
          let store := (← get).store
          demand (premise.restInRange store shared completion)
          match premise.matchRest? store shared substitution completion with
          | none => pure ()
          | some substitution => rule.conclusion.fireGuarded rules substitution)
        (workspace.model.database.visit premise.name (args.take shared)
          (premise.args.length - shared + 1))
  | .run _ vars instructions forFailure =>
    match (Substitution.blank rule.slots).bindTuple? vars args with
    | none => pure ()
    | some substitution => do
      let outcomes ← interning (Machine.runGuarded instructions substitution)
      if forFailure then
        if outcomes.isEmpty then rule.conclusion.fireGuarded rules substitution else pure ()
      else
        each (rule.conclusion.fireGuarded rules) outcomes

end CompiledRule

/-- The rule names a place among the rules, at which a table of triggers finds it. -/
def RuleSet.has (rules : RuleSet) (rule : CompiledRule) : Bool := rule.index < rules.rules.length

/-- Lets one piece of news trigger its rules. -/
def News.propagateGuarded (rules : RuleSet) : News → Saturating Unit
  | fact name args value =>
    each (fun rule => do
      demand (rules.has rule)
      ifAlive (rule.onFactGuarded rules args value)) (rules.onFact name)
  | tuple name args =>
    each (fun rule => do
      demand (rules.has rule)
      ifAlive (rule.onTupleGuarded rules args)) (rules.onTuple name)

/-- Takes the oldest piece of news off the agenda and propagates it. -/
def Saturating.stepGuarded (rules : RuleSet) : Saturating Bool := fun ⟨model, store⟩ =>
  if model.isDead then .ok false ⟨model, store⟩
  else
    match model.agenda with
    | [] => .ok false ⟨model, store⟩
    | news :: agenda =>
      (do news.propagateGuarded rules; pure true : Saturating Bool)
        ⟨{ model with agenda := agenda }, store⟩

/-! ### Examination -/

/-- Examines the first choice of a partial model, whose tuple may be constrained anew. -/
def PartialModel.examineGuarded (rules : RuleSet) (model : PartialModel) :
    Except Fault Verdict × PartialModel :=
  if model.isDead || model.choices.head?.all fun entry =>
      model.database.inRange entry.1.name entry.1.args then
    model.examine rules
  else
    (.error .outOfRange, model)

/-! ### The search -/

/-- The root that is to leave the queue has its place there, and its element is counted. -/
def Forest.inRange {π τ : Type} [Ord π] (forest : Forest π τ) : Bool :=
  forest.greatest?.all fun found => found.1 < forest.roots.length && 0 < forest.size

namespace Search

/-- Does one thing with a partial model that was taken off the search. -/
def workOnGuarded (model : PartialModel) (search : Search) : Cycle × Search :=
  if model.isDead then
    (.worked, { search with stats := { search.stats with deadEnds := search.stats.deadEnds + 1 } })
  else if !model.isSaturated then
    match Saturating.stepGuarded search.rules ⟨model, search.store⟩ with
    | .ok _ ⟨model, store⟩ => (.worked, { search with store := store, current := some model })
    | .error fault ⟨_, store⟩ => (.failed fault, { search with store := store })
  else
    match model.examineGuarded search.rules with
    | (.error fault, _) => (.failed fault, search)
    | (.ok (.branch branches), _) => (.worked, search.queue branches)
    | (.ok .solution, model) =>
      (.found model.database,
        { search with stats := { search.stats with solutions := search.stats.solutions + 1 } })
    | (.ok .discharged, model) | (.ok .applied, model) | (.ok .dead, model) =>
      (.worked, { search with current := some model })

/-- One cycle. -/
def cycleGuarded (search : Search) : Cycle × Search :=
  if search.current.isSome || search.pending.inRange then
    match search.take? with
    | none => (.idle, search)
    | some (model, search) =>
      workOnGuarded model
        { search with stats := { search.stats with cycles := search.stats.cycles + 1 } }
  else
    (.failed .outOfRange, search)

/-- Spends so many cycles, unless the search stops before. -/
def spendGuarded : Nat → Search → Step × Search
  | 0, search => (if search.isExhausted then .exhausted else .paused, search)
  | cycles + 1, search =>
    match search.cycleGuarded with
    | (.idle, search) => (.exhausted, search)
    | (.worked, search) => spendGuarded cycles search
    | (.found model, search) => (.found model, search)
    | (.failed fault, search) => (.failed fault, search)

/-- Spends a budget of cycles, stopping early at a model. -/
def stepGuarded (budget : Nat) (search : Search) : Step × Search :=
  let (cycles, search) := search.drawBudget budget
  search.spendGuarded cycles

/-- Goes on to the next model in steps without limit. -/
def nextGuarded : Nat → Search → Step × Search
  | 0, search => (.paused, search)
  | rounds + 1, search =>
    match search.stepGuarded unlimited with
    | (.found model, search) => (.found model, search)
    | (.paused, search) => nextGuarded rounds search
    | (.exhausted, search) => (.exhausted, search)
    | (.failed fault, search) => (.failed fault, search.abandon)

end Search

end StableModels
