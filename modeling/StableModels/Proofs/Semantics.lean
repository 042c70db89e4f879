import Mathlib.Data.Set.Basic
import StableModels.PartialModel.Saturation
import StableModels.Proofs.Store

/-!
# What programs mean

The meaning of a program in terms, without handles and without an order of events. A **valuation**
says which term each slot stands for, an **atom** is a tuple of an intermediate or a fact with its
value, and an **instance** of a rule is a valuation together with the atoms that its body asks for
(`StableModels.Rule.Instance`). A premise asks for a fact of exactly as many arguments as it has
patterns. The code of a rule is the machine's: which valuations it ends with is read off a run in
some store (`StableModels.Machine.Yields`), and does not depend on which.

The instances of the rules are all there is to the meaning: a set of atoms is closed under a rule
if the conclusion of each instance whose body lies in the set is in the set too, and an atom is
derivable if a finite tree of instances leads to it (`StableModels.Derivable`).

A choice does not conclude an atom but **offers** values for a tuple
(`StableModels.Program.Offers`). The stable models of a program (`StableModels.Program.Stable`) are
the sets of atoms that its searches are looking for. This is the answer-set reading of a program,
with the choices in the place of negation: what holds has to be founded in rules and in values that
some choice offers.

The last section reads a partial model as a set of atoms.
-/

namespace StableModels

/-- What each slot stands for, if it stands for anything. -/
abbrev Valuation := Nat → Option Term

/-- Whatever the first valuation says the second one says too. -/
def Valuation.Within (first second : Valuation) : Prop :=
  ∀ slot term, first slot = some term → second slot = some term

/-! ### Patterns -/

namespace Pattern

mutual

/-- Under the valuation the pattern can be read as this term; a wildcard is read as any. -/
def Denotes (valuation : Valuation) : Pattern → Term → Prop
  | unit, term => term = .unit
  | int value, term => term = .int value
  | bool value, term => term = .bool value
  | string text, term => term = .string text
  | ref index, term => term = .ref index
  | const name args, term => ∃ terms, term = .const name terms ∧ DenoteAll valuation args terms
  | var slot, term => valuation slot = some term
  | wildcard, _ => True

/-- The patterns can be read as these terms, one by one. -/
def DenoteAll (valuation : Valuation) : List Pattern → List Term → Prop
  | [], [] => True
  | pattern :: patterns, term :: terms =>
    Denotes valuation pattern term ∧ DenoteAll valuation patterns terms
  | [], _ :: _ | _ :: _, [] => False

end

end Pattern

/-! ### Atoms and instances -/

/-- A tuple of an intermediate, or a fact with its value. -/
inductive Atom where
  /-- A tuple of an intermediate. -/
  | tuple (name : String) (args : List Term)
  /-- A fact: this tuple has this value. -/
  | fact (name : String) (args : List Term) (value : Term)

/-- The premise can be read as a fact with these arguments and this value. -/
def Premise.Denotes (valuation : Valuation) (premise : Premise) (args : List Term) (value : Term) :
    Prop :=
  Pattern.DenoteAll valuation premise.args args ∧ premise.value.Denotes valuation value

/-- What a substitution says in a store. -/
def Substitution.valuation (store : Store) (substitution : Substitution) : Valuation :=
  fun slot => (substitution.get? slot).bind store.expand

/-- The code, run with the slots `vars` bound to the members of a tuple and no other slot bound,
ends with these valuations, one for each outcome. -/
def Machine.Yields (code : List Instruction) (vars : List Nat) (tuple : List Term)
    (valuations : List Valuation) : Prop :=
  ∃ (store after : Store) (handles : List Handle) (size : Nat) (start : Substitution)
    (outcomes : List Substitution),
    store.Sound ∧ store.Expands handles tuple ∧
      (Substitution.blank size).bindTuple? vars handles = some start ∧
        Machine.run code start store = .ok outcomes after ∧
          valuations = outcomes.map fun outcome => outcome.valuation after

/-- **The instances of a rule**: under a valuation, the body of the rule asks for these atoms. -/
inductive Rule.Instance : Rule → Valuation → List Atom → Prop where
  /-- A fact that the premise can be read as. -/
  | unary {premise : Premise} {conclusion : Conclusion} {valuation : Valuation} {args : List Term}
      {value : Term} (denotes : premise.Denotes valuation args value) :
      Instance (.unary premise conclusion) valuation [.fact premise.name args value]
  /-- A tuple that the slots stand for, and a fact that the premise can be read as. -/
  | join {intermediate : String} {vars : List Nat} {shared : Nat} {premise : Premise}
      {conclusion : Conclusion} {valuation : Valuation} {tuple args : List Term} {value : Term}
      (binds : vars.map valuation = tuple.map some)
        (denotes : premise.Denotes valuation args value) :
      Instance (.join intermediate vars shared premise conclusion) valuation
        [.tuple intermediate tuple, .fact premise.name args value]
  /-- A tuple for which the code ends with the valuation. -/
  | run {intermediate : String} {vars : List Nat} {code : List Instruction}
      {conclusion : Conclusion} {valuation : Valuation} {valuations : List Valuation}
      {tuple : List Term} (yields : Machine.Yields code vars tuple valuations)
      (member : valuation ∈ valuations) :
      Instance (.run intermediate vars code conclusion) valuation [.tuple intermediate tuple]
  /-- A tuple that the slots stand for and for which the code has no outcome. -/
  | runForFailure {intermediate : String} {vars : List Nat} {code : List Instruction}
      {conclusion : Conclusion} {valuation : Valuation} {tuple : List Term}
      (yields : Machine.Yields code vars tuple []) (binds : vars.map valuation = tuple.map some) :
      Instance (.runForFailure intermediate vars code conclusion) valuation
        [.tuple intermediate tuple]

namespace Conclusion

/-- Under the valuation the conclusion is this atom. A choice concludes none. -/
inductive Gives (valuation : Valuation) : Conclusion → Atom → Prop where
  /-- A tuple of an intermediate. -/
  | tuple {name : String} {args : List Pattern} {terms : List Term}
      (denotes : Pattern.DenoteAll valuation args terms) :
      Gives valuation (.intermediate name args) (.tuple name terms)
  /-- A fact. -/
  | fact {name : String} {args : List Pattern} {value : Pattern} {terms : List Term} {term : Term}
      (denotes : Pattern.DenoteAll valuation args terms)
        (value_denotes : value.Denotes valuation term) :
      Gives valuation (.fact name args value) (.fact name terms term)

/-- Under the valuation the conclusion is a choice among these values for this tuple. -/
inductive Chooses (valuation : Valuation) :
    Conclusion → String → List Term → List Term → Bool → Prop where
  /-- The arguments and the values can be read as these terms. -/
  | choice {name : String} {args values : List Pattern} {exhaustive : Bool}
      {terms offered : List Term}
      (denotes : Pattern.DenoteAll valuation args terms)
      (values_denote : Pattern.DenoteAll valuation values offered) :
      Chooses valuation (.choice name args values exhaustive) name terms offered exhaustive

end Conclusion

/-! ### Closed sets and derivations -/

/-- Under the valuation the conclusion is one atom, which lies in the set, or it is one choice. -/
def Conclusion.HoldsIn (atoms : Set Atom) (valuation : Valuation) (conclusion : Conclusion) :
    Prop :=
  (∃ atom ∈ atoms, ∀ other, conclusion.Gives valuation other ↔ other = atom) ∨
    ∃ name args offered exhaustive, ∀ name' args' offered' exhaustive',
      conclusion.Chooses valuation name' args' offered' exhaustive' ↔
        name' = name ∧ args' = args ∧ offered' = offered ∧ exhaustive' = exhaustive

/-- The conclusion of every instance of the rule holds in the set if the body lies in it. -/
def Rule.Closes (rule : Rule) (atoms : Set Atom) : Prop :=
  ∀ valuation body, rule.Instance valuation body → (∀ atom ∈ body, atom ∈ atoms) →
    rule.conclusion.HoldsIn atoms valuation

theorem Conclusion.Gives.not_chooses {conclusion : Conclusion} {valuation : Valuation} {atom : Atom}
    (gives : conclusion.Gives valuation atom) {name : String} {args offered : List Term}
    {exhaustive : Bool} : ¬conclusion.Chooses valuation name args offered exhaustive := by
  cases gives <;> exact nofun

/-- What an instance gives whose body is held is held. -/
theorem Rule.Closes.mem_of_gives {rule : Rule} {atoms : Set Atom} {atom : Atom}
    (closes : rule.Closes atoms) {valuation : Valuation} {body : List Atom}
    (inst : rule.Instance valuation body) (held : ∀ other ∈ body, other ∈ atoms)
    (gives : rule.conclusion.Gives valuation atom) : atom ∈ atoms := by
  rcases closes valuation body inst held with
    ⟨other, hother, unique⟩ | ⟨name, args, offered, exhaustive, unique⟩
  · exact (unique atom).1 gives ▸ hother
  · exact absurd ((unique name args offered exhaustive).2 ⟨rfl, rfl, rfl, rfl⟩) gives.not_chooses

/-- A finite tree of rule instances leads from the seeds and the atoms that are given to this
atom. -/
inductive Derivable (program : Program) (given : Set Atom) : Atom → Prop where
  /-- A given atom. -/
  | given {atom : Atom} (member : atom ∈ given) : Derivable program given atom
  /-- A seed. -/
  | seed {name : String} (member : name ∈ program.seeds) : Derivable program given (.tuple name [])
  /-- The conclusion of an instance whose body is derivable. -/
  | rule {rule : Rule} {valuation : Valuation} {body : List Atom} {atom : Atom}
      (member : rule ∈ program.rules) (inst : rule.Instance valuation body)
      (body_derivable : ∀ other ∈ body, Derivable program given other)
      (gives : rule.conclusion.Gives valuation atom) : Derivable program given atom

theorem Derivable.mono {program : Program} {given more : Set Atom} (subset : given ⊆ more)
    {atom : Atom} (derivable : Derivable program given atom) : Derivable program more atom := by
  induction derivable with
  | given member => exact .given (subset member)
  | seed member => exact .seed member
  | rule member inst _ gives ih => exact .rule member inst ih gives

/-! ### Choices and stable models -/

/-- In a set of atoms the program offers these values for the tuple: some instance with its body in
the set concludes such a choice. -/
def Program.Offers (program : Program) (atoms : Set Atom) (name : String) (args offered : List Term)
    (exhaustive : Bool) : Prop :=
  ∃ rule ∈ program.rules, ∃ valuation body, rule.Instance valuation body ∧
    (∀ atom ∈ body, atom ∈ atoms) ∧ rule.conclusion.Chooses valuation name args offered exhaustive

theorem Program.Offers.mono {program : Program} {atoms more : Set Atom} (subset : atoms ⊆ more)
    {name : String} {args offered : List Term} {exhaustive : Bool}
    (offers : program.Offers atoms name args offered exhaustive) :
    program.Offers more name args offered exhaustive :=
  have ⟨rule, member, valuation, body, inst, within, chooses⟩ := offers
  ⟨rule, member, valuation, body, inst, fun atom hatom => subset (within atom hatom), chooses⟩

/-- A finite tree of rule instances leads to this atom, where a choice may conclude any value that
it offers and that its tuple has in the set. -/
inductive Founded (program : Program) (chosen : Set Atom) : Atom → Prop where
  /-- A seed. -/
  | seed {name : String} (member : name ∈ program.seeds) : Founded program chosen (.tuple name [])
  /-- The conclusion of an instance whose body is founded. -/
  | rule {rule : Rule} {valuation : Valuation} {body : List Atom} {atom : Atom}
      (member : rule ∈ program.rules) (inst : rule.Instance valuation body)
      (body_founded : ∀ other ∈ body, Founded program chosen other)
      (gives : rule.conclusion.Gives valuation atom) : Founded program chosen atom
  /-- A value that an instance offers whose body is founded. -/
  | choice {rule : Rule} {valuation : Valuation} {body : List Atom} {name : String}
      {args offered : List Term} {value : Term} {exhaustive : Bool} (member : rule ∈ program.rules)
      (inst : rule.Instance valuation body)
      (body_founded : ∀ other ∈ body, Founded program chosen other)
      (chooses : rule.conclusion.Chooses valuation name args offered exhaustive)
      (offers : value ∈ offered) (holds : .fact name args value ∈ chosen) :
      Founded program chosen (.fact name args value)

theorem Founded.mono {program : Program} {chosen more : Set Atom} (subset : chosen ⊆ more)
    {atom : Atom} (founded : Founded program chosen atom) : Founded program more atom := by
  induction founded with
  | seed member => exact .seed member
  | rule member inst _ gives ih => exact .rule member inst ih gives
  | choice member inst _ chooses offers holds ih =>
    exact .choice member inst ih chooses offers (subset holds)

/-- The sets of atoms that are closed under the rules, give each tuple at most one value, decide
every choice that has to be decided, and keep the demands and the prohibitions. -/
structure Program.Satisfied (program : Program) (atoms : Set Atom) : Prop where
  /-- A tuple has one value. -/
  functional : ∀ name args first second, .fact name args first ∈ atoms →
    .fact name args second ∈ atoms → first = second
  /-- The seeds hold. -/
  seeds : ∀ name ∈ program.seeds, .tuple name [] ∈ atoms
  /-- The rules are kept. -/
  closed : ∀ rule ∈ program.rules, rule.Closes atoms
  /-- A choice that is exhaustive or offers anything is decided. -/
  decided : ∀ name args offered exhaustive, program.Offers atoms name args offered exhaustive →
    exhaustive = true ∨ offered ≠ [] → ∃ value, .fact name args value ∈ atoms
  /-- Every demand is derived. -/
  demands : ∀ name ∈ program.demands, ∃ args, .tuple name args ∈ atoms
  /-- Nothing forbidden is derived. -/
  forbids : ∀ name ∈ program.forbids, ∀ args, .tuple name args ∉ atoms

/-- The sets of atoms that satisfy the program and hold nothing without a reason. -/
structure Program.Supported (program : Program) (atoms : Set Atom) : Prop extends
    program.Satisfied atoms where
  /-- Every atom is founded. -/
  founded : ∀ atom ∈ atoms, Founded program atoms atom

/-- **The stable models of a program**: the supported sets of atoms that decide every exhaustive
choice for one of its own values. -/
structure Program.Stable (program : Program) (atoms : Set Atom) : Prop extends
    program.Supported atoms where
  /-- An exhaustive choice is decided for one of its own values. -/
  respects : ∀ name args offered value, program.Offers atoms name args offered true →
    .fact name args value ∈ atoms → value ∈ offered

/-! ### Arities -/

namespace Rule

/-- The predicates that the rule uses, each with the number of arguments it is used with. -/
def uses : Rule → List (String × Nat)
  | unary premise conclusion => (premise.name, premise.args.length) :: ofConclusion conclusion
  | join _ _ _ premise conclusion => (premise.name, premise.args.length) :: ofConclusion conclusion
  | run _ _ _ conclusion | runForFailure _ _ _ conclusion => ofConclusion conclusion
where
  /-- The predicate that a conclusion uses. -/
  ofConclusion : Conclusion → List (String × Nat)
    | .intermediate .. => []
    | .fact name args _ => [(name, args.length)]
    | .choice name args _ _ => [(name, args.length)]

end Rule

/-- Every predicate is used with one number of arguments throughout the program. -/
def Program.OneArity (program : Program) : Prop :=
  ∀ first ∈ program.rules.flatMap Rule.uses, ∀ second ∈ program.rules.flatMap Rule.uses,
    first.1 = second.1 → first.2 = second.2

instance (program : Program) : Decidable program.OneArity :=
  inferInstanceAs (Decidable (∀ first ∈ program.rules.flatMap Rule.uses,
    ∀ second ∈ program.rules.flatMap Rule.uses, first.1 = second.1 → first.2 = second.2))

/-! ### Partial models as sets of atoms -/

/-- A store reads a piece of news as an atom. -/
inductive News.Reads (store : Store) : News → Atom → Prop where
  /-- A fact. -/
  | fact {name : String} {args : List Handle} {value : Handle} {terms : List Term} {term : Term}
      (args_expand : store.Expands args terms) (value_expands : store.expand value = some term) :
      Reads store (.fact name args value) (.fact name terms term)
  /-- A tuple. -/
  | tuple {name : String} {args : List Handle} {terms : List Term}
      (args_expand : store.Expands args terms) : Reads store (.tuple name args) (.tuple name terms)

/-- The atoms that a store reads in a set of tuples and facts. -/
def Store.meaning (store : Store) (known : Set News) : Set Atom :=
  {atom | ∃ news ∈ known, news.Reads store atom}

namespace PartialModel

/-- The derived tuples and the fixed facts. -/
def known (model : PartialModel) : Set News
  | .fact name args value => model.database.get? name args = some (.just value)
  | .tuple name args => model.derives name args = true

/-- The atoms of a partial model. -/
def atoms (store : Store) (model : PartialModel) : Set Atom := store.meaning model.known

end PartialModel

end StableModels
