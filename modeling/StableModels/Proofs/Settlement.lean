import StableModels.Proofs.Propagation

/-!
# Settled conclusions

What an instance asks for is **settled** once it has fired, and stays so
(`StableModels.Conclusion.Settled`): its atom holds, or its choice is answered. A choice is answered
as long as it is registered; later because its tuple is fixed, or because all its values are
excluded, or because it never offered any (`StableModels.PartialModel.Answers`). These are the four
ways in which the obligation of a choice can be carried through a run, whatever else is registered
for the same tuple and whenever it arrives.

The value to which the tuple of an exhaustive choice is fixed is one of an entry that covers the
choice. It need not be one that the choice itself offers: registrations for one tuple are merged
before they are examined. Which entries have been registered is a parameter here.
-/

namespace StableModels

/-- A choice about this tuple is registered, or needs to be no longer. -/
inductive PartialModel.Answers (registered : ChoiceKey × Choice → Prop) (model : PartialModel)
    (key : ChoiceKey) (choice : Choice) : Prop where
  /-- An entry covers the choice. -/
  | pending {entry : ChoiceKey × Choice} (member : entry ∈ model.choices)
      (covers : Covers entry key choice) : Answers registered model key choice
  /-- The tuple is fixed, after an exhaustive choice to a value of an entry that covers the
  choice. -/
  | fixed {value : Handle} (found : model.database.get? key.name key.args = some (.just value))
      (offered : choice.exhaustive = true →
        ∃ entry, registered entry ∧ Covers entry key choice ∧ value ∈ entry.2.values) :
      Answers registered model key choice
  /-- All values are excluded. -/
  | excluded {excluded : HandleSet} (lenient : choice.exhaustive = false)
      (found : model.database.get? key.name key.args = some (.noneOf excluded))
      (subset : ∀ value ∈ choice.values, value ∈ excluded) : Answers registered model key choice
  /-- There are no values. -/
  | idle (lenient : choice.exhaustive = false) (none_offered : ∀ value, value ∉ choice.values) :
      Answers registered model key choice

/-- The atom of the conclusion holds, or its choice is answered. -/
inductive Conclusion.Settled (registered : ChoiceKey × Choice → Prop) (store : Store)
    (model : PartialModel) (valuation : Valuation) (conclusion : Conclusion) : Prop where
  /-- The atom holds. -/
  | holds {atom : Atom} (pins : conclusion.Pins valuation atom)
      (member : atom ∈ model.atoms store) :
      Settled registered store model valuation conclusion
  /-- The choice is answered. -/
  | choice {name : String} {handles members : List Handle} {terms offered : List Term}
      {exhaustive : Bool} (pins : conclusion.PinsChoice valuation name terms offered exhaustive)
      (args_expand : store.Expands handles terms) (values_expand : store.Expands members offered)
      (answers : model.Answers registered ⟨name, handles⟩ ⟨.ofList members, exhaustive⟩) :
      Settled registered store model valuation conclusion

variable {program : Program} {rules : RuleSet} {store more : Store} {before after : PartialModel}
  {name : String} {key : ChoiceKey} {choice : Choice}
    {registered others : ChoiceKey × Choice → Prop}
  {valuation above : Valuation} {conclusion : Conclusion}

/-! ### Persistence -/

theorem PartialModel.Answers.imp (subset : ∀ entry, registered entry → others entry)
    (answers : before.Answers registered key choice) : before.Answers others key choice := by
  cases answers with
  | pending member covers => exact .pending member covers
  | fixed found offered =>
    refine .fixed found ?_
    intro exhaustive
    obtain ⟨entry, hentry, covers⟩ := offered exhaustive
    exact ⟨entry, subset entry hentry, covers⟩
  | excluded lenient found subset => exact .excluded lenient found subset
  | idle lenient none_offered => exact .idle lenient none_offered

theorem PartialModel.Answers.evolve (evolves : PartialModel.Evolves before after)
    (answers : before.Answers registered key choice) : after.Answers registered key choice := by
  cases answers with
  | pending member covers =>
    obtain ⟨other, hother, hcovers⟩ := evolves.choices _ member
    exact .pending hother (hcovers.trans covers)
  | @fixed value found offered =>
    have found' : News.fact key.name key.args value ∈ after.known := evolves.known found
    exact .fixed found' offered
  | excluded lenient found subset =>
    rcases evolves.excluded _ _ _ found with ⟨more, hmore, hsubset⟩ | ⟨value, hvalue, -⟩
    · exact .excluded lenient hmore fun value member => hsubset value (subset value member)
    · exact .fixed hvalue fun hexhaustive => by simp [lenient] at hexhaustive
  | idle lenient none_offered => exact .idle lenient none_offered

namespace Conclusion

theorem Settled.mono (extension : store.Extends more)
    (settled : conclusion.Settled registered store before valuation) :
    conclusion.Settled registered more before valuation := by
  cases settled with
  | holds pins member =>
    exact .holds pins (PartialModel.atoms_subset_of_extends extension before member)
  | choice pins args_expand values_expand answers =>
    exact .choice pins (extension.expands args_expand) (extension.expands values_expand) answers

theorem Settled.evolve (evolves : PartialModel.Evolves before after)
    (settled : conclusion.Settled registered store before valuation) :
    conclusion.Settled registered store after valuation := by
  cases settled with
  | holds pins member => exact .holds pins (evolves.atoms_subset store member)
  | choice pins args_expand values_expand answers =>
    exact .choice pins args_expand values_expand (answers.evolve evolves)

theorem Settled.imp (subset : ∀ entry, registered entry → others entry)
    (settled : conclusion.Settled registered store before valuation) :
    conclusion.Settled others store before valuation := by
  cases settled with
  | holds pins member => exact .holds pins member
  | choice pins args_expand values_expand answers =>
    exact .choice pins args_expand values_expand (answers.imp subset)

/-- What is settled under a valuation is settled above it. -/
theorem Settled.within (within : valuation.Within above)
    (settled : conclusion.Settled registered store before valuation) :
    conclusion.Settled registered store before above := by
  cases settled with
  | holds pins member => exact .holds (pins.mono within) member
  | choice pins args_expand values_expand answers =>
    exact .choice (pins.mono within) args_expand values_expand answers

/-- **What is carried out is settled.** -/
theorem Carries.settled (carries : conclusion.Carries rules store valuation before after)
    (sound : before.Sound) (survives : after.isDead = false) :
    conclusion.Settled registered store after valuation := by
  rcases carries.learns_or_registers sound survives with
    ⟨news, atom, pins, reads, learns, -⟩ |
    ⟨name, handles, members, terms, offered, exhaustive, pins, args_expand, values_expand, rfl⟩
  · exact .holds pins ⟨news, (learns.known news).2 (Or.inl rfl), reads⟩
  · obtain ⟨entry, member, covers⟩ := PartialModel.exists_covers_registerIn ⟨name, handles⟩
      ⟨.ofList members, exhaustive⟩ before.choices
    exact .choice pins args_expand values_expand (.pending member covers)

end Conclusion

namespace Firings

variable {start last : Workspace} {fired : List (Rule × Valuation)} {rule : Rule}

theorem settled_of_settled (firings : Firings program rules start fired last)
    (fit : start.Fit program rules) (survives : last.model.isDead = false)
    (settled : conclusion.Settled registered start.store start.model valuation) :
    conclusion.Settled registered last.store last.model valuation :=
  (settled.mono firings.extension).evolve (firings.evolves fit survives)

/-- **What has fired is settled.** -/
theorem settled (firings : Firings program rules start fired last) (fit : start.Fit program rules)
    (survives : last.model.isDead = false) (member : (rule, valuation) ∈ fired) :
    rule.conclusion.Settled registered last.store last.model valuation := by
  induction firings with
  | refl => cases member
  | grow hsound extension rest ih => exact ih (fit.grow hsound extension) survives member
  | fire alive hmember inst carries rest ih =>
    have hfit := fit.fire alive hmember carries
    rcases List.mem_cons.1 member with heq | member
    · obtain ⟨rfl, rfl⟩ := Prod.mk.inj heq
      exact rest.settled_of_settled hfit survives
        (carries.settled (fit.readable alive).sound (rest.alive survives))
    · exact ih hfit survives member

theorem queues (firings : Firings program rules start fired last)
    (fit : start.Fit program rules) (survives : last.model.isDead = false) :
    PartialModel.Queues start.model last.model := by
  induction firings with
  | refl => exact .refl _
  | grow hsound extension rest ih => exact ih (fit.grow hsound extension) survives
  | fire alive hmember inst carries rest ih =>
    have hqueues := ih (fit.fire alive hmember carries) survives
    rcases carries.learns_or_registers (fit.readable alive).sound (rest.alive survives) with
      ⟨news, atom, -, -, learns, -⟩ |
      ⟨name, handles, members, terms, offered, exhaustive, -, -, -, rfl⟩
    · exact learns.queues.trans hqueues
    · exact hqueues

/-- Nothing forbidden is derived. -/
theorem derives_eq_false (firings : Firings program rules start fired last)
    (fit : start.Fit program rules) (survives : last.model.isDead = false)
    (forbidden : rules.isForbidden name = true)
    (free : ∀ args, start.model.derives name args = false) :
    ∀ args, last.model.derives name args = false := by
  induction firings with
  | refl => exact free
  | grow hsound extension rest ih => exact ih (fit.grow hsound extension) survives free
  | fire alive hmember inst carries rest ih =>
    refine ih (fit.fire alive hmember carries) survives ?_
    intro args
    rcases carries.learns_or_registers (fit.readable alive).sound (rest.alive survives) with
      ⟨news, atom, -, -, learns, allowed⟩ |
      ⟨_, handles, members, terms, offered, exhaustive, -, -, -, rfl⟩
    · by_contra derived
      rw [Bool.not_eq_false] at derived
      rcases (learns.known (.tuple name args)).1 derived with rfl | known
      · have known := allowed name args rfl forbidden
        simp [free args] at known
      · simp [free args] at known
    · exact free args

/-- A property of atoms that the rules hand on is handed on by firings. -/
theorem forall_atoms {P : Atom → Prop} (firings : Firings program rules start fired last)
    (one_arity : program.OneArity) (fit : start.Fit program rules)
    (survives : last.model.isDead = false)
    (handed_on : ∀ rule ∈ program.rules, ∀ valuation body atom, rule.Instance valuation body →
      (∀ other ∈ body, P other) → rule.conclusion.Gives valuation atom → P atom)
    (holds : ∀ atom ∈ start.model.atoms start.store, P atom) :
    ∀ atom ∈ last.model.atoms last.store, P atom := by
  induction firings with
  | refl => exact holds
  | grow hsound extension rest ih =>
    refine ih (fit.grow hsound extension) survives ?_
    rw [(fit.readable (rest.alive survives)).atoms_eq extension]
    exact holds
  | fire alive hmember inst carries rest ih =>
    refine ih (fit.fire alive hmember carries) survives ?_
    obtain ⟨body, hinst, held⟩ := inst one_arity
    rcases carries.learns_or_registers (fit.readable alive).sound (rest.alive survives) with
      ⟨news, atom, pins, reads, learns, -⟩ |
      ⟨name, handles, members, terms, offered, exhaustive, -, -, -, rfl⟩
    · intro other hother
      rcases (learns.mem_atoms_iff reads).1 hother with rfl | hother
      · exact handed_on _ hmember _ body other hinst (fun b hb => holds b (held b hb)) pins.gives
      · exact holds other hother
    · exact holds

end Firings

end StableModels
