import StableModels.Proofs.Search

/-!
# What a reported model satisfies

A partial model is reported when it is alive and saturated, no choice of it is left, no tuple of it
is merely narrowed and every demand is derived (`StableModels.PartialModel.Solves`). If it is
reached, then its atoms **satisfy** the program (`StableModels.Reached.satisfied`): by then the
obligation of each choice has been discharged in one of the four ways in which it can be answered,
and two of them leave the tuple fixed, one would leave it narrowed, and the last asks for nothing.

If every predicate is used with one arity, then its atoms are moreover **supported**
(`StableModels.Reached.supported`). They need not be stable: an exhaustive choice is decided for a
value of the entry into which it was merged, but not always for one of its own. It is one of its own
if the entry has no others (`StableModels.Reached.exists_pooled`), and so if no choice offers more.
-/

namespace StableModels

/-! ### Satisfied and founded sets -/

namespace Program

variable {program : Program} {atoms chosen : Set Atom} {atom : Atom}

/-- **What is founded is held**, if the facts that were chosen are. -/
theorem Satisfied.mem_of_founded (satisfied : program.Satisfied atoms)
    (facts : ∀ name args value, .fact name args value ∈ chosen → .fact name args value ∈ atoms)
    (founded : Founded program chosen atom) : atom ∈ atoms := by
  induction founded with
  | seed member => exact satisfied.seeds _ member
  | rule member inst _ gives ih => exact (satisfied.closed _ member).mem_of_gives inst ih gives
  | choice _ _ _ _ _ holds _ => exact facts _ _ _ holds

/-- Every fact of a supported set is given by an instance, or offered by one for its tuple. -/
theorem Supported.given_or_offered (supported : program.Supported atoms) {name : String}
    {args : List Term} {value : Term} (member : .fact name args value ∈ atoms) :
    (∃ rule ∈ program.rules, ∃ valuation body, rule.Instance valuation body ∧
      (∀ atom ∈ body, atom ∈ atoms) ∧ rule.conclusion.Gives valuation (.fact name args value)) ∨
    ∃ offered exhaustive, program.Offers atoms name args offered exhaustive ∧ value ∈ offered := by
  have held {body : List Atom} (founded : ∀ other ∈ body, Founded program atoms other) :
      ∀ other ∈ body, other ∈ atoms :=
    fun other hother => supported.mem_of_founded (fun _ _ _ => id) (founded other hother)
  cases supported.founded _ member with
  | rule member inst founded gives =>
    exact Or.inl ⟨_, member, _, _, inst, held founded, gives⟩
  | choice member inst founded chooses offers _ =>
    exact Or.inr ⟨_, _, ⟨_, member, _, _, inst, held founded, chooses⟩, offers⟩

end Program

/-! ### Reported models -/

/-- The partial model is reported as a model. -/
structure PartialModel.Solves (rules : RuleSet) (model : PartialModel) : Prop where
  /-- It is alive. -/
  alive : model.isDead = false
  /-- Nothing waits. -/
  saturated : model.agenda = []
  /-- No choice is left. -/
  none_left : model.choices = []
  /-- No tuple is merely narrowed. -/
  decided : model.database.tally.narrowed = 0
  /-- Every demand is derived. -/
  demands : ∀ name ∈ rules.demands, model.derivesSome name = true

variable {program : Program} {rules : RuleSet} {model : PartialModel} {store : Store}
  {asserted : Set News} {name : String} {args offered : List Term} {value : Term}
    {exhaustive : Bool}

namespace Reached

/-- A fact of the atoms is the reading of a tuple that is fixed. -/
theorem exists_get?_of_mem (member : .fact name args value ∈ model.atoms store) :
    ∃ handles handle, store.Expands handles args ∧ store.expand handle = some value ∧
      model.database.get? name handles = some (.just handle) := by
  obtain ⟨news, known, reads⟩ := member
  cases reads with
  | fact args_expand value_expands => exact ⟨_, _, args_expand, value_expands, known⟩

/-- A tuple has one value. -/
theorem functional (reached : Reached program rules ⟨model, store⟩ asserted) {first second : Term}
    (hfirst : .fact name args first ∈ model.atoms store)
    (hsecond : .fact name args second ∈ model.atoms store) : first = second := by
  obtain ⟨handles, handle, args_expand, expands, found⟩ := exists_get?_of_mem hfirst
  obtain ⟨handles', handle', args_expand', expands', found'⟩ := exists_get?_of_mem hsecond
  obtain rfl := reached.fit.sound.expands_injective args_expand args_expand'
  obtain rfl := Constraint.just.inj (Option.some.inj (found.symm.trans found'))
  exact Option.some.inj (expands.symm.trans expands')

/-- The choice of an instance is answered in a saturated partial model. -/
theorem answers_of_offers (reached : Reached program rules ⟨model, store⟩ asserted)
    (alive : model.isDead = false) (saturated : model.agenda = [])
    (offers : program.Offers (model.atoms store) name args offered exhaustive) :
    ∃ handles members, store.Expands handles args ∧ store.Expands members offered ∧
      model.Answers (Workspace.Registered program rules ⟨model, store⟩) ⟨name, handles⟩
        ⟨.ofList members, exhaustive⟩ := by
  obtain ⟨rule, member, valuation, body, inst, held, chooses⟩ := offers
  cases reached.settled alive saturated member inst held with
  | holds pins _ => exact absurd chooses pins.gives.not_chooses
  | choice pins args_expand values_expand answers =>
    obtain ⟨rfl, rfl, rfl, rfl⟩ := (pins valuation (.refl valuation) _ _ _ _).1 chooses
    exact ⟨_, _, args_expand, values_expand, answers⟩

/-- **The obligation of a choice is discharged** in a reported model: the tuple is fixed, if the
choice is exhaustive to a value of the entry into which it was merged, or the choice is not
exhaustive and offers nothing. -/
theorem fixed_or_idle (reached : Reached program rules ⟨model, store⟩ asserted)
    (solves : model.Solves rules)
    (offers : program.Offers (model.atoms store) name args offered exhaustive) :
    (∃ value, .fact name args value ∈ model.atoms store ∧ (exhaustive = true →
      ∃ values, Workspace.Pooled program rules ⟨model, store⟩ name args values ∧
        (∀ term ∈ offered, term ∈ values) ∧ value ∈ values)) ∨ exhaustive = false ∧
          offered = [] := by
  have readable := reached.readable solves.alive
  obtain ⟨handles, members, args_expand, values_expand, answers⟩ :=
    reached.answers_of_offers solves.alive solves.saturated offers
  -- No choice is left and no tuple is merely narrowed, which leaves two of the four ways.
  cases answers with
  | pending member _ => simp [solves.none_left] at member
  | @fixed handle found hoffered =>
    obtain ⟨value, value_expands⟩ := (readable.constrained _ _ _ found).2 handle rfl
    have member : Atom.fact name args value ∈ model.atoms store :=
      ⟨_, found, .fact args_expand value_expands⟩
    refine Or.inl ⟨value, member, ?_⟩
    intro hexhaustive
    obtain ⟨entry, registered, ⟨hkey, -, subset⟩, hhandle⟩ := hoffered hexhaustive
    refine ⟨_, ⟨entry, registered, by rw [hkey], by rwa [hkey], rfl⟩, fun term hterm => ?_,
      handle, hhandle, value_expands⟩
    obtain ⟨other, hother, expands⟩ := exists_of_mem_right values_expand hterm
    exact ⟨other, subset other (HandleSet.mem_ofList.2 hother), expands⟩
  | excluded _ found _ =>
    exact absurd found ((readable.sound.database.narrowed_eq_zero_iff.1 solves.decided) _ _ _)
  | idle lenient none_offered =>
    refine Or.inr ⟨lenient, List.eq_nil_iff_forall_not_mem.2 fun term hterm => ?_⟩
    obtain ⟨handle, hhandle, -⟩ := exists_of_mem_right values_expand hterm
    exact none_offered handle (HandleSet.mem_ofList.2 hhandle)

/-- **The atoms of a reported model satisfy the program.** -/
theorem satisfied (reached : Reached program rules ⟨model, store⟩ asserted)
    (solves : model.Solves rules) : program.Satisfied (model.atoms store) where
  functional := fun _ _ _ _ => reached.functional
  seeds := reached.seeds_mem solves.alive
  closed := reached.closes solves.alive solves.saturated
  decided := by
    rintro name args offered exhaustive offers asks
    rcases reached.fixed_or_idle solves offers with ⟨value, member, -⟩ | ⟨rfl, rfl⟩
    · exact ⟨value, member⟩
    · simp at asks
  demands := by
    intro name member
    have readable := reached.readable solves.alive
    obtain ⟨handles, derived⟩ := readable.sound.derivesSome_iff.1
      (solves.demands name (reached.fit.compiles.demands ▸ member))
    obtain ⟨terms, args_expand⟩ := readable.tuples name handles derived
    exact ⟨terms, _, derived, .tuple args_expand⟩
  forbids := by
    rintro name member args ⟨news, known, reads⟩
    cases reads with
    | @tuple _ handles _ _ =>
      have forbidden : rules.isForbidden name = true := by
        rw [RuleSet.isForbidden, reached.fit.compiles.forbids]
        exact List.contains_iff_mem.2 member
      have free := (reached.regular solves.alive).allowed name forbidden handles
      exact Bool.false_ne_true (free.symm.trans known)

/-- **The atoms of a reported model are supported**, if every predicate is used with one arity. -/
theorem supported (reached : Reached program rules ⟨model, store⟩ asserted)
    (solves : model.Solves rules) (one_arity : program.OneArity) :
    program.Supported (model.atoms store) where
  toSatisfied := reached.satisfied solves
  founded := ((reached.regular solves.alive).justified one_arity).founded

/-- An exhaustive choice is decided for a value of the entry into which it was merged. -/
theorem exists_pooled (reached : Reached program rules ⟨model, store⟩ asserted)
    (solves : model.Solves rules)
    (offers : program.Offers (model.atoms store) name args offered true)
    (member : .fact name args value ∈ model.atoms store) :
    ∃ values, Workspace.Pooled program rules ⟨model, store⟩ name args values ∧
      (∀ term ∈ offered, term ∈ values) ∧ value ∈ values := by
  rcases reached.fixed_or_idle solves offers with ⟨other, hother, pooled⟩ | ⟨lenient, -⟩
  · obtain rfl := reached.functional member hother
    exact pooled rfl
  · cases lenient

/-- An exhaustive choice is decided for a value that some choice offers for its tuple, if every
predicate is used with one arity. -/
theorem mem_offered (reached : Reached program rules ⟨model, store⟩ asserted)
    (solves : model.Solves rules) (one_arity : program.OneArity)
    (offers : program.Offers (model.atoms store) name args offered true)
    (member : .fact name args value ∈ model.atoms store) :
    ∃ others exhaustive, program.Offers (model.atoms store) name args others exhaustive ∧
      value ∈ others := by
  obtain ⟨values, pooled, -, hvalue⟩ := reached.exists_pooled solves offers member
  exact pooled.offered one_arity solves.alive hvalue

end Reached

/-! ### Models that a search reports -/

namespace Search

variable {search after : Search} {settings : Settings} {budget : Nat} {database : Database}
  {leaf : PartialModel}

/-- The cycle takes this partial model off the search and reports it as a model. -/
def Finds (search : Search) (leaf : PartialModel) (after : Search) : Prop :=
  search.take?.map Prod.fst = some leaf ∧ search.cycle = (.found leaf.database, after)

/-- The partial model that a cycle reports is one that solves the program. -/
theorem Works.solves {successors : List PartialModel} {more : Store}
    (works : Works rules store model (.found database) successors more) :
    model.Solves rules ∧ model.database = database ∧ successors = [] ∧ more = store := by
  cases works with
  | finds alive saturated examined =>
    cases PartialModel.examines_of_examine alive examined with
    | solution none_left decided demands =>
      exact ⟨⟨alive, saturated, none_left, decided, demands⟩, rfl, rfl, rfl⟩

theorem Grounded.exists_finds (grounded : search.Grounded program)
    (cycled : search.cycle = (.found database, after)) :
    ∃ leaf asserted, search.Finds leaf after ∧ leaf.database = database ∧
      Reached program after.rules ⟨leaf, after.store⟩ asserted ∧ leaf.Solves after.rules := by
  rcases works_of_cycle cycled with
    ⟨heq, -⟩ | ⟨leaf, rest, successors, taken, perm, -, rules, works⟩
  · cases heq
  · obtain ⟨solves, rfl, -, store⟩ := works.solves
    obtain ⟨asserted, reached⟩ := grounded leaf (perm.mem_iff.2 List.mem_cons_self)
    rw [rules, store]
    exact ⟨leaf, asserted, ⟨taken, cycled⟩, rfl, reached, solves⟩

theorem Finds.solves (finds : Finds search leaf after) : leaf.Solves after.rules := by
  obtain ⟨taken, cycled⟩ := finds
  rcases works_of_cycle cycled with
    ⟨heq, -⟩ | ⟨model, rest, successors, taken', -, -, rules, works⟩
  · cases heq
  · obtain rfl := Option.some.inj (taken.symm.trans taken')
    rw [rules]
    exact works.solves.1

/-- A model that a step reports is that of a partial model which is reached and solves the
program. -/
theorem Visits.exists_finds (visits : Visits program settings search)
    (stepped : search.step budget = (.found database, after)) :
    ∃ before leaf asserted, Finds before leaf after ∧ leaf.database = database ∧
      Reached program after.rules ⟨leaf, after.store⟩ asserted ∧ leaf.Solves after.rules := by
  cases visits.grounded.ends stepped with
  | found grounded cycled => exact ⟨_, grounded.exists_finds cycled⟩

/-- **Every model that a search reports satisfies the program**, whatever the seed and the budgets:
no tuple of it is merely narrowed, its demands and prohibitions are kept, and every choice that is
exhaustive or offers anything is decided. If every predicate is used with one arity, then each of
its facts is given by an instance, or offered by one for its tuple. -/
theorem Visits.satisfied_of_found (visits : Visits program settings search)
    (stepped : search.step budget = (.found database, after)) :
    ∃ before leaf asserted, Finds before leaf after ∧ leaf.database = database ∧
      Reached program after.rules ⟨leaf, after.store⟩ asserted ∧
      (∀ name args excluded, database.get? name args ≠ some (.noneOf excluded)) ∧
      program.Satisfied (leaf.atoms after.store) ∧
      (program.OneArity → ∀ name args value, .fact name args value ∈ leaf.atoms after.store →
        (∃ rule ∈ program.rules, ∃ valuation body, rule.Instance valuation body ∧
          (∀ atom ∈ body, atom ∈ leaf.atoms after.store) ∧
            rule.conclusion.Gives valuation (.fact name args value)) ∨
        ∃ offered exhaustive,
          program.Offers (leaf.atoms after.store) name args offered exhaustive ∧
            value ∈ offered) := by
  obtain ⟨before, leaf, asserted, finds, rfl, reached, solves⟩ := visits.exists_finds stepped
  refine ⟨before, leaf, asserted, finds, rfl, reached, ?_, reached.satisfied solves,
    fun one_arity name args value member => ?_⟩
  · exact (reached.readable solves.alive).sound.database.narrowed_eq_zero_iff.1 solves.decided
  · exact (reached.supported solves one_arity).given_or_offered member

/-! ### Two choices in dispute -/

/-- What the value of a tuple looks like in the model that a search reports in its first step, if it
reports one. -/
def firstShape? (program : Program) (settings : Settings) (budget : Nat) (name : String)
    (args : List Handle) : Option Shape :=
  match Search.start program settings with
  | .error _ => none
  | .ok search =>
    match search.step budget with
    | (.found database, after) =>
      match database.get? name args with
      | some (.just handle) => after.store.shape? handle
      | _ => none
    | _ => none

theorem exists_of_firstShape? {program : Program} {name : String} {args : List Handle}
    {shape : Shape} (reports : firstShape? program settings budget name args = some shape) :
    ∃ search database after handle, Visits program settings search ∧
      search.step budget = (.found database, after) ∧
        database.get? name args = some (.just handle) ∧
          after.store.shape? handle = some shape := by
  rw [firstShape?] at reports
  split at reports
  · cases reports
  next search started =>
  split at reports
  · next database after stepped =>
    split at reports
    · next handle found => exact ⟨_, _, _, _, .start started, stepped, found, reports⟩
    · cases reports
  · cases reports

/-- The program in which two exhaustive choices for one tuple have one value in common. -/
def disputed : Program where
  seeds := ["go"]
  rules := [.run "go" [] [] (.choice "c" [] [.const "a" [], .const "b" []] true),
    .run "go" [] [] (.choice "c" [] [.const "b" [], .const "d" []] true)]

/-- The first model that is reported decides for a value that only one of the choices offers. -/
theorem firstShape?_disputed : firstShape? disputed {} 20 "c" [] = some (.const "a" []) := by
  decide +kernel

/-- The second choice is one of the two. -/
theorem offers_disputed {atoms : Set Atom} (satisfied : disputed.Satisfied atoms) :
    disputed.Offers atoms "c" [] [.const "b" [], .const "d" []] true := by
  refine ⟨_, List.mem_cons_of_mem _ List.mem_cons_self, _, _,
    .run ⟨.initial, .initial, [], 0, _, _, Store.sound_initial, .nil, rfl, rfl, rfl⟩
      (List.mem_singleton.2 rfl), ?_, .choice ?_ ?_⟩
  · simpa using satisfied.seeds "go" (by decide)
  · simp [Pattern.DenoteAll]
  · simp [Pattern.DenoteAll, Pattern.Denotes]

theorem Visits.satisfied_of_found_disputed :
    ∃ (search : Search) (database : Database) (after : Search) (leaf : PartialModel),
    Visits disputed {} search ∧ search.step 20 = (.found database, after) ∧
      leaf.database = database ∧
      disputed.Satisfied (leaf.atoms after.store) := by
  obtain ⟨search, database, after, -, visits, stepped, -⟩ :=
    exists_of_firstShape? firstShape?_disputed
  obtain ⟨-, leaf, -, -, heq, -, -, satisfied, -⟩ := visits.satisfied_of_found stepped
  exact ⟨search, database, after, leaf, visits, stepped, heq, satisfied⟩

/-- **In a reported model an exhaustive choice is decided for a value of the entry into which it was
merged.** It is decided for one of its own values if no entry that was registered for its tuple and
has all of its values has any other, and, where every predicate is used with one arity, if no choice
of the tuple offers any other. Without such a condition it need not be. -/
theorem Visits.mem_offered_of_found (visits : Visits program settings search)
    (stepped : search.step budget = (.found database, after)) :
    ∃ before leaf asserted, Finds before leaf after ∧ leaf.database = database ∧
      Reached program after.rules ⟨leaf, after.store⟩ asserted ∧
      ∀ name args offered value, program.Offers (leaf.atoms after.store) name args offered true →
        .fact name args value ∈ leaf.atoms after.store →
          (∃ values, Workspace.Pooled program after.rules ⟨leaf, after.store⟩ name args values ∧
            (∀ term ∈ offered, term ∈ values) ∧ value ∈ values) ∧
          ((∀ values, Workspace.Pooled program after.rules ⟨leaf, after.store⟩ name args values →
            (∀ term ∈ offered, term ∈ values) → ∀ term ∈ values, term ∈ offered) →
              value ∈ offered) ∧
          (program.OneArity → (∀ others exhaustive,
            program.Offers (leaf.atoms after.store) name args others exhaustive →
              ∀ other ∈ others, other ∈ offered) → value ∈ offered) := by
  obtain ⟨before, leaf, asserted, finds, rfl, reached, solves⟩ := visits.exists_finds stepped
  refine ⟨before, leaf, asserted, finds, rfl, reached, ?_⟩
  intro name args offered value offers member
  obtain ⟨values, pooled, subset, hvalue⟩ := reached.exists_pooled solves offers member
  refine ⟨⟨values, pooled, subset, hvalue⟩,
    fun within => within values pooled subset value hvalue, ?_⟩
  intro one_arity within
  obtain ⟨others, exhaustive, offers', hothers⟩ :=
    reached.mem_offered solves one_arity offers member
  exact within others exhaustive offers' value hothers

theorem Visits.mem_offered_of_found_disputed :
    ∃ (search : Search) (database : Database) (after : Search) (leaf : PartialModel)
      (values : Set Term),
    Visits disputed {} search ∧ search.step 20 = (.found database, after) ∧
      leaf.database = database ∧
        Workspace.Pooled disputed after.rules ⟨leaf, after.store⟩ "c" [] values ∧
          .const "b" [] ∈ values ∧ .const "d" [] ∈ values ∧ .const "a" [] ∈ values := by
  obtain ⟨search, database, after, handle, visits, stepped, found, shaped⟩ :=
    exists_of_firstShape? firstShape?_disputed
  obtain ⟨before, leaf, asserted, finds, rfl, reached, decides⟩ :=
    visits.mem_offered_of_found stepped
  have offers := offers_disputed (reached.satisfied finds.solves)
  have expanded : after.store.expand handle = some (.const "a" []) :=
    reached.fit.sound.expand_of_shape? shaped
  have member : .fact "c" [] (.const "a" []) ∈ leaf.atoms after.store :=
    ⟨.fact "c" [] handle, found, .fact .nil expanded⟩
  obtain ⟨⟨values, pooled, subset, hvalue⟩, -⟩ := decides _ _ _ _ offers member
  exact ⟨search, _, after, leaf, values, visits, stepped, rfl, pooled, subset _ (by simp),
    subset _ (by simp), hvalue⟩

/-- The value need not be one of the choice's own: the registrations for one tuple are merged before
they are examined. -/
theorem not_forall_mem_offered : ¬∀ (program : Program) (settings : Settings)
    (search before after : Search) (budget : Nat) (leaf : PartialModel),
    program.OneArity → Visits program settings search →
      search.step budget = (.found leaf.database, after) → before.Finds leaf after →
        ∀ name args offered value, program.Offers (leaf.atoms after.store) name args offered true →
          .fact name args value ∈ leaf.atoms after.store → value ∈ offered := by
  intro claimed
  obtain ⟨search, database, after, handle, visits, stepped, found, shaped⟩ :=
    exists_of_firstShape? firstShape?_disputed
  obtain ⟨before, leaf, asserted, finds, rfl, reached, solves⟩ := visits.exists_finds stepped
  -- The second choice does not offer the value.
  have offers := offers_disputed (reached.satisfied solves)
  have expanded : after.store.expand handle = some (.const "a" []) :=
    reached.fit.sound.expand_of_shape? shaped
  have member : .fact "c" [] (.const "a" []) ∈ leaf.atoms after.store :=
    ⟨.fact "c" [] handle, found, .fact .nil expanded⟩
  have := claimed disputed {} search before after 20 leaf
    (by decide) visits stepped finds _ _ _ _ offers member
  simp at this

end Search

end StableModels
