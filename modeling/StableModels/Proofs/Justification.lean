import StableModels.Proofs.PartialModel

/-!
# What a partial model holds and why

A partial model is **readable** in a store if its tries are sound and every handle in it stands for
a term (`StableModels.PartialModel.Readable`); then it reads as the same set of atoms in every
extension of the store. If predicates have one arity each, then moreover everything in it is
**justified** (`StableModels.PartialModel.Justified`): an atom is founded, a registered value is
offered by some instance whose body the partial model holds, and so is an exhaustive registration as
a whole.

Both are preserved when the conclusion of an instance is carried out
(`StableModels.Conclusion.Carries`).
-/

namespace StableModels

/-! ### Reading news -/

theorem News.Reads.mono {before after : Store} (extension : before.Extends after) {news : News}
    {atom : Atom} (reads : news.Reads before atom) : news.Reads after atom := by
  cases reads with
  | fact args_expand value_expands =>
    exact .fact (extension.expands args_expand) (extension.expand value_expands)
  | tuple args_expand => exact .tuple (extension.expands args_expand)

/-- A store reads a piece of news in one way. -/
theorem News.Reads.unique {store : Store} {news : News} {first second : Atom}
    (hfirst : news.Reads store first) (hsecond : news.Reads store second) : first = second := by
  cases hfirst with
  | fact args_expand value_expands =>
    cases hsecond with
    | fact args_expand' value_expands' =>
      rw [args_expand.unique args_expand',
        Option.some.inj (value_expands.symm.trans value_expands')]
  | tuple args_expand =>
    cases hsecond with
    | tuple args_expand' => rw [args_expand.unique args_expand']

/-- News that a store can read is read in the same way in an extension. -/
theorem Store.meaning_eq {before after : Store} (extension : before.Extends after)
    {known : Set News} (reads : ∀ news ∈ known, ∃ atom, news.Reads before atom) :
    after.meaning known = before.meaning known := by
  ext atom
  constructor
  · rintro ⟨news, member, hreads⟩
    obtain ⟨other, hother⟩ := reads news member
    obtain rfl := hreads.unique (hother.mono extension)
    exact ⟨news, member, hother⟩
  · rintro ⟨news, member, hreads⟩
    exact ⟨news, member, hreads.mono extension⟩

theorem Store.meaning_mono (store : Store) {known more : Set News} (subset : known ⊆ more) :
    store.meaning known ⊆ store.meaning more :=
  fun _ ⟨news, member, reads⟩ => ⟨news, subset member, reads⟩

/-! ### Readable partial models -/

/-- The constraint speaks of this value. -/
def Constraint.Mentions : Constraint → Handle → Prop
  | just value, handle => handle = value
  | noneOf excluded, handle => handle ∈ excluded

/-- A tuple that rules speak of: the arguments are terms of the store, and the program uses the
predicate with so many of them. -/
def Program.Uses (program : Program) (store : Store) (name : String) (args : List Handle) : Prop :=
  (∃ terms, store.Expands args terms) ∧ (name, args.length) ∈ program.rules.flatMap Rule.uses

theorem Program.Uses.mono {program : Program} {store more : Store} (extension : store.Extends more)
    {name : String} {args : List Handle} (uses : program.Uses store name args) :
    program.Uses more name args :=
  ⟨uses.1.imp fun _ => extension.expands, uses.2⟩

namespace PartialModel

/-- Everything in the partial model can be read in the store, and its predicates are used by the
program with so many arguments. -/
structure Readable (program : Program) (store : Store) (model : PartialModel) : Prop where
  /-- The tries are sound. -/
  sound : model.Sound
  /-- Derived tuples. -/
  tuples : ∀ name args, model.derives name args = true → ∃ terms, store.Expands args terms
  /-- Constrained tuples. -/
  constrained : ∀ name args constraint, model.database.get? name args = some constraint →
    program.Uses store name args ∧
      ∀ value, constraint.Mentions value → ∃ term, store.expand value = some term
  /-- Registered choices. -/
  choices : ∀ entry ∈ model.choices, program.Uses store entry.1.name entry.1.args ∧
    ∀ value ∈ entry.2.values, ∃ term, store.expand value = some term

/-- Everything in the partial model has a reason. -/
structure Justified (program : Program) (store : Store) (model : PartialModel) : Prop where
  /-- Every atom is founded. -/
  founded : ∀ atom ∈ model.atoms store, Founded program (model.atoms store) atom
  /-- Every registered value is offered. -/
  offered : ∀ entry ∈ model.choices, ∀ terms, store.Expands entry.1.args terms →
    ∀ value ∈ entry.2.values, ∀ term, store.expand value = some term →
      ∃ offered exhaustive,
        program.Offers (model.atoms store) entry.1.name terms offered exhaustive ∧
        term ∈ offered
  /-- What makes an entry exhaustive is an exhaustive choice among values of the entry. -/
  exhaustive : ∀ entry ∈ model.choices, entry.2.exhaustive = true →
    ∀ terms, store.Expands entry.1.args terms →
      ∃ offered, program.Offers (model.atoms store) entry.1.name terms offered true ∧
        ∀ term ∈ offered, ∃ value ∈ entry.2.values, store.expand value = some term
  /-- A tuple is narrowed because some choice offers a value for it. -/
  narrowed : ∀ name args excluded, model.database.get? name args = some (.noneOf excluded) →
    ∀ terms, store.Expands args terms →
      ∃ offered exhaustive, program.Offers (model.atoms store) name terms offered exhaustive ∧
        offered ≠ []

variable {program : Program} {store more : Store} {model before after : PartialModel} {news : News}

theorem Readable.reads (readable : model.Readable program store) :
    ∀ news ∈ model.known, ∃ atom, news.Reads store atom := by
  rintro (⟨name, args, value⟩ | ⟨name, args⟩) member
  · obtain ⟨⟨⟨terms, hargs⟩, -⟩, hvalues⟩ := readable.constrained name args _ member
    obtain ⟨term, hvalue⟩ := hvalues value rfl
    exact ⟨_, .fact hargs hvalue⟩
  · obtain ⟨terms, hargs⟩ := readable.tuples name args member
    exact ⟨_, .tuple hargs⟩

/-! ### Growing stores -/

theorem atoms_subset_of_extends (extension : store.Extends more) (model : PartialModel) :
    model.atoms store ⊆ model.atoms more :=
  fun _ ⟨news, member, reads⟩ => ⟨news, member, reads.mono extension⟩

theorem Readable.atoms_eq (readable : model.Readable program store)
    (extension : store.Extends more) : model.atoms more = model.atoms store :=
  Store.meaning_eq extension readable.reads

theorem Readable.mono (extension : store.Extends more) (readable : model.Readable program store) :
    model.Readable program more where
  sound := readable.sound
  tuples := fun name args found => (readable.tuples name args found).imp fun _ => extension.expands
  constrained := fun name args constraint found =>
    have ⟨uses, values⟩ := readable.constrained name args constraint found
    ⟨uses.mono extension,
      fun value mentions => (values value mentions).imp fun _ => extension.expand⟩
  choices := fun entry member =>
    have ⟨uses, values⟩ := readable.choices entry member
    ⟨uses.mono extension, fun value offered => (values value offered).imp fun _ => extension.expand⟩

/-- Handles that can be read in a store are read in the same way in an extension. -/
theorem expands_of_extends (extension : store.Extends more) {handles : List Handle}
    {terms : List Term} (reads : ∃ others, store.Expands handles others)
    (expanded : more.Expands handles terms) : store.Expands handles terms := by
  obtain ⟨others, hothers⟩ := reads
  rwa [← (extension.expands hothers).unique expanded]

theorem expand_of_extends (extension : store.Extends more) {handle : Handle} {term : Term}
    (reads : ∃ other, store.expand handle = some other)
    (expanded : more.expand handle = some term) :
    store.expand handle = some term := by
  obtain ⟨other, hother⟩ := reads
  obtain rfl := Option.some.inj ((extension.expand hother).symm.trans expanded)
  exact hother

theorem Justified.mono (extension : store.Extends more) (readable : model.Readable program store)
    (justified : model.Justified program store) : model.Justified program more where
  founded := by
    rw [readable.atoms_eq extension]
    exact justified.founded
  offered := by
    intro entry member terms args_expand value hvalue term value_expands
    obtain ⟨⟨args_read, -⟩, values_read⟩ := readable.choices entry member
    rw [readable.atoms_eq extension]
    exact justified.offered entry member terms (expands_of_extends extension args_read args_expand)
      value hvalue term (expand_of_extends extension (values_read value hvalue) value_expands)
  exhaustive := by
    intro entry member hexhaustive terms args_expand
    obtain ⟨⟨args_read, -⟩, -⟩ := readable.choices entry member
    rw [readable.atoms_eq extension]
    obtain ⟨offered, offers, covers⟩ := justified.exhaustive entry member hexhaustive terms
      (expands_of_extends extension args_read args_expand)
    refine ⟨offered, offers, ?_⟩
    intro term hterm
    obtain ⟨value, hvalue, value_expands⟩ := covers term hterm
    exact ⟨value, hvalue, extension.expand value_expands⟩
  narrowed := by
    intro name args excluded found terms args_expand
    obtain ⟨⟨args_read, -⟩, -⟩ := readable.constrained name args _ found
    rw [readable.atoms_eq extension]
    exact justified.narrowed name args excluded found terms
      (expands_of_extends extension args_read args_expand)

/-! ### Learning and registering -/

theorem Evolves.atoms_subset (evolves : Evolves before after) (store : Store) :
    before.atoms store ⊆ after.atoms store :=
  store.meaning_mono evolves.known

/-- Learning adds the atom of the news. -/
theorem Learns.mem_atoms_iff (learns : Learns news before after) {atom other : Atom}
    (reads : news.Reads store atom) :
    other ∈ after.atoms store ↔ other = atom ∨ other ∈ before.atoms store := by
  constructor
  · rintro ⟨found, member, hreads⟩
    rcases (learns.known found).1 member with rfl | member
    · exact Or.inl (hreads.unique reads)
    · exact Or.inr ⟨found, member, hreads⟩
  · rintro (rfl | ⟨found, member, hreads⟩)
    · exact ⟨news, (learns.known news).2 (Or.inl rfl), reads⟩
    · exact ⟨found, (learns.known found).2 (Or.inr member), hreads⟩

theorem Learns.readable (learns : Learns news before after)
    (readable : before.Readable program store) {atom : Atom} (reads : news.Reads store atom)
    (uses : ∀ name args value, news = .fact name args value → program.Uses store name args) :
    after.Readable program store where
  sound := learns.sound
  tuples := by
    intro name args found
    rcases (learns.known (.tuple name args)).1 found with rfl | found
    · cases reads with
      | tuple args_expand => exact ⟨_, args_expand⟩
    · exact readable.tuples name args found
  constrained := by
    intro name args constraint found
    rcases learns.get? name args with same | ⟨value, rfl, fixed, -⟩
    · exact readable.constrained name args constraint (same.symm.trans found)
    · obtain rfl := Option.some.inj (fixed.symm.trans found)
      cases reads with
      | fact args_expand value_expands =>
        refine ⟨uses name args value rfl, ?_⟩
        rintro _ rfl
        exact ⟨_, value_expands⟩
  choices := by
    rw [learns.choices]
    exact readable.choices

theorem Learns.justified (learns : Learns news before after)
    (justified : before.Justified program store) {atom : Atom} (reads : news.Reads store atom)
    (founded : Founded program (after.atoms store) atom) : after.Justified program store := by
  have subset : before.atoms store ⊆ after.atoms store := learns.evolves.atoms_subset store
  refine ⟨?_, ?_, ?_, ?_⟩
  · intro other member
    rcases (learns.mem_atoms_iff reads).1 member with rfl | member
    · exact founded
    · exact (justified.founded other member).mono subset
  · rw [learns.choices]
    intro entry member terms args_expand value hvalue term value_expands
    obtain ⟨offered, exhaustive, offers, hterm⟩ :=
      justified.offered entry member terms args_expand value hvalue term value_expands
    exact ⟨offered, exhaustive, offers.mono subset, hterm⟩
  · rw [learns.choices]
    intro entry member exhaustive terms args_expand
    obtain ⟨offered, offers, covers⟩ :=
      justified.exhaustive entry member exhaustive terms args_expand
    exact ⟨offered, offers.mono subset, covers⟩
  · intro name args excluded found terms args_expand
    rcases learns.get? name args with same | ⟨value, -, fixed, -⟩
    · obtain ⟨offered, exhaustive, offers, hne⟩ :=
        justified.narrowed name args excluded (same.symm.trans found) terms args_expand
      exact ⟨offered, exhaustive, offers.mono subset, hne⟩
    · rw [fixed] at found
      cases found

/-- Registering a choice keeps the partial model readable, if its handles can be read. -/
theorem Readable.register (readable : model.Readable program store) {key : ChoiceKey}
    {choice : Choice} (uses : program.Uses store key.name key.args)
    (reads : ∀ value ∈ choice.values, ∃ term, store.expand value = some term) :
    (model.register key choice).Readable program store := by
  refine ⟨⟨readable.sound.database, readable.sound.ordered, readable.sound.tries⟩, readable.tuples,
    readable.constrained, ?_⟩
  intro entry hentry
  rcases exists_of_mem_registerIn hentry with hentry | rfl | ⟨registered, hmem, rfl⟩
  · exact readable.choices entry hentry
  · exact ⟨uses, reads⟩
  · refine ⟨uses, ?_⟩
    intro value hvalue
    rcases HandleSet.mem_union.1 hvalue with hvalue | hvalue
    · exact (readable.choices _ hmem).2 value hvalue
    · exact reads value hvalue

/-- Registering a choice that the program offers keeps everything justified, also where it is merged
with what was registered for the tuple before: the union offers what one of the two offers. -/
theorem Justified.register (justified : model.Justified program store) {name : String}
    {handles members : List Handle} {terms offered : List Term} {exhaustive : Bool}
    (offers : program.Offers (model.atoms store) name terms offered exhaustive)
    (args_expand : store.Expands handles terms) (values_expand : store.Expands members offered) :
    (model.register ⟨name, handles⟩ ⟨.ofList members, exhaustive⟩).Justified program store := by
  have registered_offered : ∀ value ∈ HandleSet.ofList members, ∀ term,
      store.expand value = some term → term ∈ offered := by
    intro value hvalue term expanded
    obtain ⟨other, hother, expanded'⟩ :=
      exists_of_mem_left values_expand (HandleSet.mem_ofList.1 hvalue)
    rwa [Option.some.inj (expanded.symm.trans expanded')]
  have offered_registered : ∀ term ∈ offered, ∃ value ∈ HandleSet.ofList members,
      store.expand value = some term := by
    intro term hterm
    obtain ⟨value, hvalue, expanded⟩ := exists_of_mem_right values_expand hterm
    exact ⟨value, HandleSet.mem_ofList.2 hvalue, expanded⟩
  refine ⟨justified.founded, ?_, ?_, justified.narrowed⟩
  · intro entry hentry others args_expand' value hvalue term expanded
    rcases exists_of_mem_registerIn hentry with hentry | rfl | ⟨registered, hmem, rfl⟩
    · exact justified.offered entry hentry others args_expand' value hvalue term expanded
    · obtain rfl := args_expand'.unique args_expand
      exact ⟨offered, exhaustive, offers, registered_offered value hvalue term expanded⟩
    · rcases HandleSet.mem_union.1 hvalue with hvalue | hvalue
      · exact justified.offered _ hmem others args_expand' value hvalue term expanded
      · obtain rfl := args_expand'.unique args_expand
        exact ⟨offered, exhaustive, offers, registered_offered value hvalue term expanded⟩
  · intro entry hentry hexhaustive others args_expand'
    rcases exists_of_mem_registerIn hentry with hentry | rfl | ⟨registered, hmem, rfl⟩
    · exact justified.exhaustive entry hentry hexhaustive others args_expand'
    · obtain rfl := args_expand'.unique args_expand
      obtain rfl : exhaustive = true := hexhaustive
      exact ⟨offered, offers, offered_registered⟩
    · rcases Bool.or_eq_true_iff.1 hexhaustive with hexhaustive | hexhaustive
      · obtain ⟨offered', offers', covers⟩ :=
          justified.exhaustive _ hmem hexhaustive others args_expand'
        refine ⟨offered', offers', ?_⟩
        intro term hterm
        obtain ⟨value, hvalue, expanded⟩ := covers term hterm
        exact ⟨value, HandleSet.mem_union.2 (Or.inl hvalue), expanded⟩
      · obtain rfl := args_expand'.unique args_expand
        obtain rfl : exhaustive = true := hexhaustive
        refine ⟨offered, offers, ?_⟩
        intro term hterm
        obtain ⟨value, hvalue, expanded⟩ := offered_registered term hterm
        exact ⟨value, HandleSet.mem_union.2 (Or.inr hvalue), expanded⟩

end PartialModel

/-! ### Carrying out a conclusion -/

/-- **What carrying out a conclusion does**: under the valuation it is one atom, which is derived or
asserted, or one choice, which is registered. -/
inductive Conclusion.Carries (rules : RuleSet) (store : Store) (valuation : Valuation)
    (conclusion : Conclusion) (before after : PartialModel) : Prop where
  /-- A tuple is derived. -/
  | tuple {name : String} {handles : List Handle} {terms : List Term}
      (pins : conclusion.Pins valuation (.tuple name terms))
        (args_expand : store.Expands handles terms)
      (derived : before.derive rules name handles = .ok after)
  /-- A fact is asserted. -/
  | fact {name : String} {handles : List Handle} {value : Handle} {terms : List Term} {term : Term}
      (pins : conclusion.Pins valuation (.fact name terms term))
      (args_expand : store.Expands handles terms) (value_expands : store.expand value = some term)
      (asserted : before.assert name handles value = .ok after)
  /-- A choice is registered. -/
  | choice {name : String} {handles members : List Handle} {terms offered : List Term}
      {exhaustive : Bool} (pins : conclusion.PinsChoice valuation name terms offered exhaustive)
      (args_expand : store.Expands handles terms) (values_expand : store.Expands members offered)
      (registered : after = before.register ⟨name, handles⟩ ⟨.ofList members, exhaustive⟩)

namespace Conclusion

variable {program : Program} {rules : RuleSet} {store : Store} {valuation : Valuation}
  {conclusion : Conclusion} {before after : PartialModel}

theorem Gives.uses {name : String} {args : List Term} {value : Term}
    (gives : conclusion.Gives valuation (.fact name args value)) :
    (name, args.length) ∈ Rule.uses.ofConclusion conclusion := by
  cases gives with
  | fact denotes _ => simp [Rule.uses.ofConclusion, denotes.length_eq]

theorem Chooses.uses {name : String} {args offered : List Term} {exhaustive : Bool}
    (chooses : conclusion.Chooses valuation name args offered exhaustive) :
    (name, args.length) ∈ Rule.uses.ofConclusion conclusion := by
  cases chooses with
  | choice denotes _ => simp [Rule.uses.ofConclusion, denotes.length_eq]

/-- If the partial model survives, then it has learned the atom of the conclusion, or the choice is
registered. -/
theorem Carries.learns_or_registers
    (carries : conclusion.Carries rules store valuation before after)
    (sound : before.Sound) (survives : after.isDead = false) :
    (∃ news atom, conclusion.Pins valuation atom ∧ news.Reads store atom ∧
      PartialModel.Learns news before after ∧
        ∀ name args, news = .tuple name args → rules.isForbidden name = true →
          before.derives name args = true) ∨
    (∃ name handles members terms offered exhaustive,
      conclusion.PinsChoice valuation name terms offered exhaustive ∧ store.Expands handles terms ∧
        store.Expands members offered ∧
          after = before.register ⟨name, handles⟩ ⟨.ofList members, exhaustive⟩) := by
  cases carries with
  | tuple pins args_expand derived =>
    obtain ⟨learns, allowed⟩ := sound.learns_derive derived survives
    refine Or.inl ⟨_, _, pins, .tuple args_expand, learns, ?_⟩
    rintro name args ⟨⟩ forbidden
    exact allowed forbidden
  | fact pins args_expand value_expands asserted =>
    refine Or.inl ⟨_, _, pins, .fact args_expand value_expands,
      sound.learns_assert asserted survives, ?_⟩
    rintro name args ⟨⟩
  | choice pins args_expand values_expand registered =>
    exact Or.inr ⟨_, _, _, _, _, _, pins, args_expand, values_expand, registered⟩

theorem Carries.evolves (carries : conclusion.Carries rules store valuation before after)
    (sound : before.Sound) (survives : after.isDead = false) :
    PartialModel.Evolves before after := by
  rcases carries.learns_or_registers sound survives with
    ⟨news, atom, -, -, learns, -⟩ |
      ⟨name, handles, members, terms, offered, exhaustive, -, -, -, rfl⟩
  · exact learns.evolves
  · exact PartialModel.evolves_register _ _ before

end Conclusion

theorem Rule.mem_uses_of_mem_ofConclusion {rule : Rule} {entry : String × Nat}
    (member : entry ∈ Rule.uses.ofConclusion rule.conclusion) : entry ∈ rule.uses := by
  cases rule with
  | unary | join => exact List.mem_cons_of_mem _ member
  | run | runForFailure => exact member

namespace Conclusion

variable {program : Program} {rules : RuleSet} {store : Store} {valuation : Valuation} {rule : Rule}
  {before after : PartialModel}

theorem Carries.readable (carries : rule.conclusion.Carries rules store valuation before after)
    (member : rule ∈ program.rules) (readable : before.Readable program store)
    (survives : after.isDead = false) : after.Readable program store := by
  have mem_uses {entry : String × Nat} (hentry : entry ∈ Rule.uses.ofConclusion rule.conclusion) :
      entry ∈ program.rules.flatMap Rule.uses :=
    List.mem_flatMap.2 ⟨rule, member, Rule.mem_uses_of_mem_ofConclusion hentry⟩
  rcases carries.learns_or_registers readable.sound survives with
    ⟨news, atom, pins, reads, learns, -⟩ |
    ⟨name, handles, members, terms, offered, exhaustive, pins, args_expand, values_expand, rfl⟩
  · refine learns.readable readable reads ?_
    rintro name args value rfl
    cases reads with
    | fact args_expand _ =>
      refine ⟨⟨_, args_expand⟩, ?_⟩
      rw [args_expand.length_eq]
      exact mem_uses pins.gives.uses
  · refine readable.register ⟨⟨_, args_expand⟩, ?_⟩ fun value hvalue => ?_
    · rw [args_expand.length_eq]
      exact mem_uses pins.chooses.uses
    · obtain ⟨term, -, expanded⟩ := exists_of_mem_left values_expand (HandleSet.mem_ofList.1 hvalue)
      exact ⟨term, expanded⟩

/-- **Carrying out the conclusion of an instance** whose body is held keeps everything justified. -/
theorem Carries.justified (carries : rule.conclusion.Carries rules store valuation before after)
    (member : rule ∈ program.rules) {body : List Atom}
    (inst : rule.Instance valuation body) (held : ∀ atom ∈ body, atom ∈ before.atoms store)
    (readable : before.Readable program store) (justified : before.Justified program store)
    (survives : after.isDead = false) : after.Justified program store := by
  rcases carries.learns_or_registers readable.sound survives with
    ⟨news, atom, pins, reads, learns, -⟩ |
    ⟨name, handles, members, terms, offered, exhaustive, pins, args_expand, values_expand, rfl⟩
  · refine learns.justified justified reads (.rule member inst (fun other hother => ?_) pins.gives)
    exact (justified.founded other (held other hother)).mono (learns.evolves.atoms_subset store)
  · exact justified.register ⟨rule, member, valuation, body, inst, held, pins.chooses⟩ args_expand
      values_expand

end Conclusion

end StableModels
