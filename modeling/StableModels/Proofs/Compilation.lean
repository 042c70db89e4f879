import StableModels.Proofs.Justification

/-!
# Compiled rules

Compiling a program extends the store and turns each of its rules into a compiled rule that speaks
of the same terms (`StableModels.RuleSet.compile_sound`). A rule stays compiled in every extension
of the store.

Of all that validation asks for, one thing matters for the meaning of the compiled rules: the shared
arguments of a join premise are the variables that its tuple binds, so that the index may be entered
with the members of the tuple in their place (`StableModels.Rule.Linked`).
-/

namespace StableModels

/-! ### Valid rules -/

/-- The shared arguments of a join premise are the variables of the first slots. -/
def Rule.Linked : Rule → Prop
  | join _ vars shared premise _ => shared ≤ vars.length ∧ shared ≤ premise.args.length ∧
    premise.args.take shared = (vars.take shared).map Pattern.var
  | _ => True

namespace Rule

theorem take_of_checkShared {position : Nat} {slots : List Nat} {args : List Pattern}
    (checked : checkShared position slots args = .ok ()) (length_le : slots.length ≤ args.length) :
    args.take slots.length = slots.map Pattern.var := by
  induction slots generalizing position args with
  | nil => rfl
  | cons slot slots ih =>
    cases args with
    | nil => simp at length_le
    | cons arg args =>
      cases arg with
      | var other =>
        rw [checkShared] at checked
        split at checked
        · next heq =>
          rw [List.length_cons, List.take_succ_cons, List.map_cons, heq,
            ih checked (Nat.le_of_succ_le_succ length_le)]
        · cases checked
      | _ => simp [checkShared] at checked

/-- What is required holds if the check succeeds. -/
theorem of_require {α : Type} {holds : Bool} {cause : Cause} {rest : Except Fault α} {result : α}
    (checked : (do require holds cause; rest) = .ok result) :
    holds = true ∧ rest = .ok result := by
  cases holds with
  | true => exact ⟨rfl, checked⟩
  | false => cases checked

/-- The parts of a check succeed if the check does. -/
theorem exists_of_check {α β : Type} {first : Except Fault α} {rest : α → Except Fault β}
    {result : β} (checked : (first >>= rest) = .ok result) :
    ∃ found, first = .ok found ∧ rest found = .ok result := by
  cases first with
  | error fault => cases checked
  | ok found => exact ⟨found, rfl, checked⟩

/-- The body of a join that is sound: its shared arguments are checked, and it binds the slots of
its tuple and those of its premise. -/
theorem of_checkBody_join {intermediate : String} {vars : List Nat} {shared : Nat}
    {premise : Premise} {conclusion : Conclusion} {bound : List Nat}
    (checked : checkBody (join intermediate vars shared premise conclusion) = .ok bound) :
    (shared ≤ vars.length ∧ shared ≤ premise.args.length) ∧
      checkShared 0 (vars.take shared) premise.args = .ok () ∧ bound = vars ++ premise.slots := by
  rw [checkBody] at checked
  obtain ⟨bounds, checked⟩ := of_require checked
  obtain ⟨⟨⟩, shared_checked, checked⟩ := exists_of_check checked
  rw [Bool.and_eq_true_iff, decide_eq_true_iff, decide_eq_true_iff] at bounds
  exact ⟨bounds, shared_checked, (Except.ok.inj checked).symm⟩

/-- A valid rule is linked. -/
theorem linked_of_validate {rule : Rule} (valid : rule.validate = .ok ()) : rule.Linked := by
  cases rule with
  | join intermediate vars shared premise conclusion =>
    obtain ⟨bound, checked, -⟩ := exists_of_check valid
    obtain ⟨bounds, shared_checked, -⟩ := of_checkBody_join checked
    have length_take : (vars.take shared).length = shared := List.length_take_of_le bounds.1
    refine ⟨bounds.1, bounds.2, ?_⟩
    rw [← take_of_checkShared shared_checked (length_take.trans_le bounds.2), length_take]
  | _ => trivial

end Rule

/-- Every rule of a valid program is valid. -/
theorem Program.forall_validate {program : Program} (valid : program.validate = .ok ()) :
    ∀ rule ∈ program.rules, rule.validate = .ok () := by
  have forall_from {index : Nat} {rules : List Rule} (valid : validateFrom index rules = .ok ()) :
      ∀ rule ∈ rules, rule.validate = .ok () := by
    induction rules generalizing index with
    | nil => simp
    | cons first rules ih =>
      rw [validateFrom] at valid
      split at valid
      · next hfirst =>
        intro rule member
        rcases List.mem_cons.1 member with rfl | member
        · exact hfirst
        · exact ih valid rule member
      · cases valid
  exact forall_from valid

theorem Program.linked_of_validate {program : Program} (valid : program.validate = .ok ()) :
    ∀ rule ∈ program.rules, rule.Linked := fun rule member =>
  Rule.linked_of_validate (forall_validate valid rule member)

/-! ### Compiled conclusions and rules -/

/-- The compiled form of a conclusion. -/
inductive Conclusion.Compiles (store : Store) : Conclusion → CompiledConclusion → Prop where
  /-- A tuple of an intermediate. -/
  | intermediate {name : String} {args : List Pattern} {compiled : List CompiledPattern}
      (args_compile : CompilesAll store args compiled) :
      Compiles store (.intermediate name args) (.intermediate name compiled)
  /-- A fact. -/
  | fact {name : String} {args : List Pattern} {compiled : List CompiledPattern} {value : Pattern}
      {compiledValue : CompiledPattern} (args_compile : CompilesAll store args compiled)
      (value_compiles : StableModels.Compiles store value compiledValue) :
      Compiles store (.fact name args value) (.fact name compiled compiledValue)
  /-- A choice. -/
  | choice {name : String} {args values : List Pattern}
      {compiled compiledValues : List CompiledPattern}
      {exhaustive : Bool} (args_compile : CompilesAll store args compiled)
      (values_compile : CompilesAll store values compiledValues) :
      Compiles store (.choice name args values exhaustive)
        (.choice name compiled compiledValues exhaustive)

/-- The compiled form of a rule. -/
inductive Rule.Compiles (store : Store) : Rule → CompiledRule → Prop where
  /-- A rule over facts. -/
  | unary {premise : Premise} {conclusion : Conclusion} {index slots : Nat}
      {compiled : CompiledPremise} {concluded : CompiledConclusion}
      (premise_compiles : premise.Compiles store compiled)
      (conclusion_compiles : conclusion.Compiles store concluded) :
      Compiles store (.unary premise conclusion) ⟨index, slots, .unary compiled, concluded⟩
  /-- A rule over tuples and facts. -/
  | join {intermediate : String} {vars : List Nat} {shared : Nat} {premise : Premise}
      {conclusion : Conclusion} {index slots : Nat} {compiled : CompiledPremise}
      {concluded : CompiledConclusion} (premise_compiles : premise.Compiles store compiled)
      (conclusion_compiles : conclusion.Compiles store concluded) :
      Compiles store (.join intermediate vars shared premise conclusion)
        ⟨index, slots, .join intermediate vars shared compiled, concluded⟩
  /-- A rule over the outcomes of code. -/
  | run {intermediate : String} {vars : List Nat} {code : List Instruction}
      {conclusion : Conclusion} {index slots : Nat} {concluded : CompiledConclusion}
      (conclusion_compiles : conclusion.Compiles store concluded) :
      Compiles store (.run intermediate vars code conclusion)
        ⟨index, slots, .run intermediate vars code false, concluded⟩
  /-- A rule over the absence of outcomes. -/
  | runForFailure {intermediate : String} {vars : List Nat} {code : List Instruction}
      {conclusion : Conclusion} {index slots : Nat} {concluded : CompiledConclusion}
      (conclusion_compiles : conclusion.Compiles store concluded) :
      Compiles store (.runForFailure intermediate vars code conclusion)
        ⟨index, slots, .run intermediate vars code true, concluded⟩

/-- The compiled form of a program. -/
structure RuleSet.Compiles (program : Program) (store : Store) (compiled : RuleSet) : Prop where
  /-- The rules. -/
  rules : List.Forall₂ (Rule.Compiles store) program.rules compiled.rules
  /-- The intermediates that hold from the start. -/
  seeds : compiled.seeds = program.seeds
  /-- The intermediates that have to be derived. -/
  demands : compiled.demands = program.demands
  /-- The intermediates that must not be derived. -/
  forbids : compiled.forbids = program.forbids
  /-- The joins are linked. -/
  linked : ∀ rule ∈ program.rules, rule.Linked
  /-- Each rule is found at the place that it names. -/
  placed : ∀ rule ∈ compiled.rules, compiled.rules[rule.index]? = some rule

section Extensions

variable {before after : Store}

theorem Premise.Compiles.mono (extension : before.Extends after) {premise : Premise}
    {compiled : CompiledPremise} (compiles : premise.Compiles before compiled) :
    premise.Compiles after compiled :=
  ⟨compiles.name, CompilesAll.mono extension compiles.args, compiles.value.mono extension⟩

theorem Conclusion.Compiles.mono (extension : before.Extends after) {conclusion : Conclusion}
    {compiled : CompiledConclusion} (compiles : conclusion.Compiles before compiled) :
    conclusion.Compiles after compiled := by
  cases compiles with
  | intermediate args_compile => exact .intermediate (CompilesAll.mono extension args_compile)
  | fact args_compile value_compiles =>
    exact .fact (CompilesAll.mono extension args_compile) (value_compiles.mono extension)
  | choice args_compile values_compile =>
    exact .choice (CompilesAll.mono extension args_compile)
      (CompilesAll.mono extension values_compile)

theorem Rule.Compiles.mono (extension : before.Extends after) {rule : Rule}
    {compiled : CompiledRule}
    (compiles : rule.Compiles before compiled) : rule.Compiles after compiled := by
  cases compiles with
  | unary premise_compiles conclusion_compiles =>
    exact .unary (premise_compiles.mono extension) (conclusion_compiles.mono extension)
  | join premise_compiles conclusion_compiles =>
    exact .join (premise_compiles.mono extension) (conclusion_compiles.mono extension)
  | run conclusion_compiles => exact .run (conclusion_compiles.mono extension)
  | runForFailure conclusion_compiles => exact .runForFailure (conclusion_compiles.mono extension)

theorem RuleSet.Compiles.mono (extension : before.Extends after) {program : Program}
    {rules : RuleSet} (compiles : rules.Compiles program before) : rules.Compiles program after :=
  { compiles with rules := compiles.rules.imp fun _ _ => Rule.Compiles.mono extension }

end Extensions

/-! ### Compilation -/

theorem Premise.compile_sound {store : Store} (sound : store.Sound) (premise : Premise) :
    (premise.compile store).2.Sound ∧ store.Extends (premise.compile store).2 ∧
      premise.Compiles (premise.compile store).2 (premise.compile store).1 := by
  obtain ⟨hsound, extension, args_compile⟩ := Pattern.compileAll_sound sound premise.args
  obtain ⟨hsound', extension', value_compiles⟩ := Pattern.compile_sound hsound premise.value
  exact ⟨hsound', extension.trans extension', rfl, CompilesAll.mono extension' args_compile,
    value_compiles⟩

theorem Conclusion.compile_sound {store : Store} (sound : store.Sound) (conclusion : Conclusion) :
    (conclusion.compile store).2.Sound ∧ store.Extends (conclusion.compile store).2 ∧
      conclusion.Compiles (conclusion.compile store).2 (conclusion.compile store).1 := by
  cases conclusion with
  | intermediate name args =>
    obtain ⟨hsound, extension, args_compile⟩ := Pattern.compileAll_sound sound args
    exact ⟨hsound, extension, .intermediate args_compile⟩
  | fact name args value =>
    obtain ⟨hsound, extension, args_compile⟩ := Pattern.compileAll_sound sound args
    obtain ⟨hsound', extension', value_compiles⟩ := Pattern.compile_sound hsound value
    exact ⟨hsound', extension.trans extension',
      .fact (CompilesAll.mono extension' args_compile) value_compiles⟩
  | choice name args values exhaustive =>
    obtain ⟨hsound, extension, args_compile⟩ := Pattern.compileAll_sound sound args
    obtain ⟨hsound', extension', values_compile⟩ := Pattern.compileAll_sound hsound values
    exact ⟨hsound', extension.trans extension',
      .choice (CompilesAll.mono extension' args_compile) values_compile⟩

theorem Rule.compile_sound {store : Store} (sound : store.Sound) (index : Nat) (rule : Rule) :
    (rule.compile index store).2.Sound ∧ store.Extends (rule.compile index store).2 ∧
      rule.Compiles (rule.compile index store).2 (rule.compile index store).1 := by
  cases rule with
  | unary premise conclusion =>
    obtain ⟨hsound, extension, premise_compiles⟩ := premise.compile_sound sound
    obtain ⟨hsound', extension', conclusion_compiles⟩ := conclusion.compile_sound hsound
    exact ⟨hsound', extension.trans extension',
      .unary (premise_compiles.mono extension') conclusion_compiles⟩
  | join intermediate vars shared premise conclusion =>
    obtain ⟨hsound, extension, premise_compiles⟩ := premise.compile_sound sound
    obtain ⟨hsound', extension', conclusion_compiles⟩ := conclusion.compile_sound hsound
    exact ⟨hsound', extension.trans extension',
      .join (premise_compiles.mono extension') conclusion_compiles⟩
  | run intermediate vars code conclusion =>
    obtain ⟨hsound, extension, conclusion_compiles⟩ := conclusion.compile_sound sound
    exact ⟨hsound, extension, .run conclusion_compiles⟩
  | runForFailure intermediate vars code conclusion =>
    obtain ⟨hsound, extension, conclusion_compiles⟩ := conclusion.compile_sound sound
    exact ⟨hsound, extension, .runForFailure conclusion_compiles⟩

namespace RuleSet

theorem compileRules_sound {store : Store} (sound : store.Sound) (index : Nat) (rules : List Rule) :
    (compileRules index rules store).2.Sound ∧ store.Extends (compileRules index rules store).2 ∧
      List.Forall₂ (Rule.Compiles (compileRules index rules store).2) rules
        (compileRules index rules store).1 := by
  induction rules generalizing index store with
  | nil => exact ⟨sound, .refl store, .nil⟩
  | cons rule rules ih =>
    obtain ⟨hsound, extension, compiles⟩ := rule.compile_sound sound index
    obtain ⟨hsound', extension', rest⟩ := ih hsound (index + 1)
    exact ⟨hsound', extension.trans extension', .cons (compiles.mono extension') rest⟩

/-- The rules stand at the places that they name, counted from the first of them. -/
theorem index_of_compileRules {index place : Nat} {list : List Rule} {store : Store}
    {rule : CompiledRule} (found : (compileRules index list store).1[place]? = some rule) :
    rule.index = index + place := by
  induction list generalizing index place store with
  | nil => cases found
  | cons first list ih =>
    cases place with
    | zero =>
      obtain rfl := Option.some.inj found
      rfl
    | succ place => exact (ih found).trans (Nat.add_right_comm index 1 place)

/-- **Compiling a program** extends the store and answers the compiled form of the program. -/
theorem compile_sound {program : Program} {store after : Store} {rules : RuleSet}
    (sound : store.Sound) (compiled : compile program store = .ok (rules, after)) :
    after.Sound ∧ store.Extends after ∧ rules.Compiles program after := by
  rw [compile] at compiled
  split at compiled
  · cases compiled
  · next valid =>
    obtain ⟨hsound, extension, rules_compile⟩ := compileRules_sound sound 0 program.rules
    obtain ⟨rfl, rfl⟩ := Prod.mk.inj (Except.ok.inj compiled)
    refine ⟨hsound, extension, rules_compile, rfl, rfl, rfl, program.linked_of_validate valid, ?_⟩
    intro rule member
    obtain ⟨place, found⟩ := List.mem_iff_getElem?.1 member
    rw [index_of_compileRules found, Nat.zero_add]
    exact found

end RuleSet

end StableModels
