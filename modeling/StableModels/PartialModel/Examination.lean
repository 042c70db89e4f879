import StableModels.PartialModel

/-!
# Examination

When a partial model is saturated its choices are examined, one at a time. The values still
open for a choice are those on offer that are not excluded for its tuple. A tuple that is fixed
has nothing left to choose, and an exhaustive choice with one open value is no choice; in all
other cases the partial model **branches**: into one branch for each open value, and, unless the
choice is exhaustive, one more in which the tuple has none of them.

Without choices left the partial model is a model, provided that no tuple is merely narrowed and
every demand is derived.
-/

namespace StableModels

/-- What an examination comes to. -/
inductive Verdict where
  /-- The choice needed no decision; examine again. -/
  | discharged
  /-- The only open value of an exhaustive choice was asserted; saturate again. -/
  | applied
  /-- The partial model is dead. -/
  | dead
  /-- The partial model is to be replaced by its branches. -/
  | branch (branches : List PartialModel)
  /-- The partial model is a model. -/
  | solution

namespace PartialModel

/-- The branches in which the tuple has one of these values. -/
def fixEach (key : ChoiceKey) (model : PartialModel) :
    List Handle → Except Fault (List PartialModel)
  | [] => .ok []
  | value :: values =>
    match model.assert key.name key.args value with
    | .error fault => .error fault
    | .ok branch =>
      match model.fixEach key values with
      | .error fault => .error fault
      | .ok branches => .ok (branch :: branches)

/-- The branches of a choice with these open values: one for each of them and, unless the choice
is exhaustive, one in which the tuple has none of them. -/
def branches (key : ChoiceKey) (exhaustive : Bool) (excluded : HandleSet) (opens : List Handle)
    (model : PartialModel) : Except Fault (List PartialModel) :=
  match model.fixEach key opens with
  | .error fault => .error fault
  | .ok fixed =>
    if exhaustive then .ok fixed
    else
      match model.constrain key.name key.args (.noneOf (excluded.union (.ofList opens))) with
      | .error fault => .error fault
      | .ok spared => .ok (fixed ++ [spared])

/-- Resolves a choice that has been taken off the others, with these values excluded for its
tuple. A fault leaves the partial model without the choice. -/
def resolve (key : ChoiceKey) (choice : Choice) (excluded : HandleSet) (model : PartialModel) :
    Except Fault Verdict × PartialModel :=
  match choice.exhaustive, choice.values.without excluded with
  | true, [] => (.ok .dead, model.kill (.noCandidates key.name))
  | false, [] => (.ok .discharged, model)
  | true, [only] =>
    match model.assert key.name key.args only with
    | .error fault => (.error fault, model)
    | .ok model => (.ok .applied, model)
  | exhaustive, opens =>
    match model.branches key exhaustive excluded opens with
    | .error fault => (.error fault, model)
    | .ok branches => (.ok (.branch branches), model)

/-- Judges a partial model without choices. -/
def judge (rules : RuleSet) (model : PartialModel) : Verdict × PartialModel :=
  if 0 < model.database.tally.narrowed then (.dead, model.kill .unjustified)
  else
    match rules.demands.find? fun name => !model.derivesSome name with
    | some name => (.dead, model.kill (.missingDemand name))
    | none => (.solution, model)

/-- Examines the first choice of a partial model, or the partial model itself if no choice is
left. -/
def examine (rules : RuleSet) (model : PartialModel) : Except Fault Verdict × PartialModel :=
  if model.isDead then (.ok .dead, model)
  else
    match model.choices with
    | [] =>
      let (verdict, model) := model.judge rules
      (.ok verdict, model)
    | (key, choice) :: choices =>
      let model := { model with choices := choices }
      match model.database.get? key.name key.args with
      | some (.just value) =>
        if choice.exhaustive && !choice.values.contains value then
          (.ok .dead, model.kill (.noCandidates key.name))
        else
          (.ok .discharged, model)
      | some (.noneOf excluded) => model.resolve key choice excluded
      | none => model.resolve key choice .empty

end PartialModel

end StableModels
