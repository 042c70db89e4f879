import StableModels.PartialModel.Examination
import StableModels.Proofs.Settlement

/-!
# Examining choices

This module says what an examination may come to (`StableModels.PartialModel.Examines`), and what a
partial model has been through that comes out of it alive (`StableModels.PartialModel.Decides`): no
choice was left, or the first choice was taken off and dropped, because its tuple is fixed or no
value of it is open; or its tuple was fixed to an open value; or, if it is not exhaustive, its tuple
was narrowed.

Whichever it is, what holds stays justified, and what is settled stays settled: the choice that was
taken off has been answered by what became of its tuple.
-/

namespace StableModels

namespace PartialModel

/-! ### The outcomes of an examination -/

/-- The tuple of the key is not fixed, and these values are excluded for it. -/
def Free (key : ChoiceKey) (excluded : HandleSet) (model : PartialModel) : Prop :=
  model.database.get? key.name key.args = some (.noneOf excluded) ∨
    model.database.get? key.name key.args = none ∧ excluded = .empty

/-- The branches of a tuple that is fixed to one value after the other. -/
abbrev FixedTo (key : ChoiceKey) (model : PartialModel) : List Handle → List PartialModel → Prop :=
  List.Forall₂ fun value branch => model.assert key.name key.args value = .ok branch

theorem fixedTo_of_fixEach {key : ChoiceKey} {model : PartialModel} {values : List Handle}
    {branches : List PartialModel} (fixed : model.fixEach key values = .ok branches) :
    FixedTo key model values branches := by
  induction values generalizing branches with
  | nil =>
    obtain rfl := Except.ok.inj fixed
    exact .nil
  | cons value values ih =>
    rw [fixEach] at fixed
    split at fixed
    · cases fixed
    · next branch hbranch =>
      split at fixed
      · cases fixed
      · next rest hrest =>
        obtain rfl := Except.ok.inj fixed
        exact .cons hbranch (ih hrest)

variable {rules : RuleSet} {model after : PartialModel} {key : ChoiceKey} {choice : Choice}
  {choices : List (ChoiceKey × Choice)} {excluded : HandleSet} {verdict : Verdict}

/-- Why a partial model may die of an examination. -/
inductive Hopeless (rules : RuleSet) (model : PartialModel) : Prop where
  /-- No choice is left, and some tuple is merely narrowed. -/
  | undecided (none_left : model.choices = []) (narrowed : 0 < model.database.tally.narrowed)
  /-- No choice is left, and some demand is not derived. -/
  | missing {name : String} (none_left : model.choices = []) (demanded : name ∈ rules.demands)
      (missing : model.derivesSome name = false)
  /-- The tuple of an exhaustive choice is fixed to a value that the choice does not offer. -/
  | outsider {key : ChoiceKey} {choice : Choice} {choices : List (ChoiceKey × Choice)}
      {value : Handle}
      (first : model.choices = (key, choice) :: choices) (exhaustive : choice.exhaustive = true)
      (found : model.database.get? key.name key.args = some (.just value))
      (outside : value ∉ choice.values)
  /-- No value of an exhaustive choice is open. -/
  | spent {key : ChoiceKey} {choice : Choice} {choices : List (ChoiceKey × Choice)}
      {excluded : HandleSet} (first : model.choices = (key, choice) :: choices)
      (free : model.Free key excluded) (exhaustive : choice.exhaustive = true)
      (none_open : choice.values.without excluded = [])

/-- **What the examination of a living partial model may come to.** -/
inductive Examines (rules : RuleSet) (model : PartialModel) : Verdict → PartialModel → Prop where
  /-- It dies. -/
  | dies {after : PartialModel} (hopeless : model.Hopeless rules) (dead : after.isDead = true) :
      Examines rules model .dead after
  /-- No choice is left, nothing is merely narrowed, and every demand is derived. -/
  | solution (none_left : model.choices = []) (decided : model.database.tally.narrowed = 0)
      (demands : ∀ name ∈ rules.demands, model.derivesSome name = true) :
      Examines rules model .solution model
  /-- The tuple is fixed to a value that the choice allows. -/
  | held {key : ChoiceKey} {choice : Choice} {choices : List (ChoiceKey × Choice)} {value : Handle}
      (first : model.choices = (key, choice) :: choices)
      (found : model.database.get? key.name key.args = some (.just value))
      (allowed : choice.exhaustive = true → value ∈ choice.values) :
      Examines rules model .discharged { model with choices := choices }
  /-- No value is open, and none has to be taken. -/
  | spent {key : ChoiceKey} {choice : Choice} {choices : List (ChoiceKey × Choice)}
      {excluded : HandleSet} (first : model.choices = (key, choice) :: choices)
      (free : model.Free key excluded) (lenient : choice.exhaustive = false)
      (none_open : choice.values.without excluded = []) :
      Examines rules model .discharged { model with choices := choices }
  /-- One value is open and has to be taken. -/
  | forced {key : ChoiceKey} {choice : Choice} {choices : List (ChoiceKey × Choice)}
      {excluded : HandleSet} {value : Handle} {after : PartialModel}
      (first : model.choices = (key, choice) :: choices) (free : model.Free key excluded)
      (exhaustive : choice.exhaustive = true) (one_open : choice.values.without excluded = [value])
      (asserted : assert key.name key.args value { model with choices := choices } = .ok after) :
      Examines rules model .applied after
  /-- One of the open values has to be taken. -/
  | closed {key : ChoiceKey} {choice : Choice} {choices : List (ChoiceKey × Choice)}
      {excluded : HandleSet} {branches : List PartialModel} {rest : PartialModel}
      (first : model.choices = (key, choice) :: choices) (free : model.Free key excluded)
      (exhaustive : choice.exhaustive = true) (fixed : FixedTo key { model with choices := choices }
        (choice.values.without excluded) branches) :
      Examines rules model (.branch branches) rest
  /-- One of the open values may be taken, or none of them. -/
  | opened {key : ChoiceKey} {choice : Choice} {choices : List (ChoiceKey × Choice)}
      {excluded : HandleSet} {branches : List PartialModel} {spared rest : PartialModel}
      (first : model.choices = (key, choice) :: choices) (free : model.Free key excluded)
      (lenient : choice.exhaustive = false) (some_open : choice.values.without excluded ≠ [])
      (fixed : FixedTo key { model with choices := choices }
        (choice.values.without excluded) branches)
      (narrowed : constrain key.name key.args
        (.noneOf (excluded.union (.ofList (choice.values.without excluded))))
          { model with choices := choices } = .ok spared) :
      Examines rules model (.branch (branches ++ [spared])) rest

theorem examines_of_judge (none_left : model.choices = [])
    (judged : model.judge rules = (verdict, after)) : Examines rules model verdict after := by
  rw [judge] at judged
  split at judged
  · next narrowed =>
    obtain ⟨rfl, rfl⟩ := Prod.mk.inj judged
    exact .dies (.undecided none_left narrowed) rfl
  · next decided =>
    split at judged
    · next name missing =>
      obtain ⟨rfl, rfl⟩ := Prod.mk.inj judged
      refine .dies (.missing none_left (List.mem_of_find?_eq_some missing) ?_) rfl
      simpa using List.find?_some missing
    · next demands =>
      obtain ⟨rfl, rfl⟩ := Prod.mk.inj judged
      refine .solution none_left (Nat.eq_zero_of_not_pos decided) ?_
      intro name demanded
      simpa using List.find?_eq_none.1 demands name demanded

theorem examines_of_resolve (first : model.choices = (key, choice) :: choices)
    (free : model.Free key excluded)
    (resolved :
      resolve key choice excluded { model with choices := choices } = (.ok verdict, after)) :
    Examines rules model verdict after := by
  rw [resolve] at resolved
  split at resolved
  · next exhaustive none_open =>
    obtain ⟨hverdict, rfl⟩ := Prod.mk.inj resolved
    obtain rfl := Except.ok.inj hverdict
    exact .dies (.spent first free exhaustive none_open) rfl
  · next lenient none_open =>
    obtain ⟨hverdict, rfl⟩ := Prod.mk.inj resolved
    obtain rfl := Except.ok.inj hverdict
    exact .spent first free lenient none_open
  · next only exhaustive one_open =>
    split at resolved
    · cases resolved
    · next changed asserted =>
      obtain ⟨hverdict, rfl⟩ := Prod.mk.inj resolved
      obtain rfl := Except.ok.inj hverdict
      exact .forced first free exhaustive one_open asserted
  · next _ _ _ some_open _ =>
    split at resolved
    · cases resolved
    · next branches hbranches =>
      obtain ⟨hverdict, -⟩ := Prod.mk.inj resolved
      obtain rfl := Except.ok.inj hverdict
      rw [PartialModel.branches] at hbranches
      split at hbranches
      · cases hbranches
      · next fixed hfixed =>
        split at hbranches
        · next exhaustive =>
          obtain rfl := Except.ok.inj hbranches
          exact .closed first free exhaustive (fixedTo_of_fixEach hfixed)
        · next lenient =>
          rw [Bool.not_eq_true] at lenient
          split at hbranches
          · cases hbranches
          · next spared narrowed =>
            obtain rfl := Except.ok.inj hbranches
            exact .opened first free lenient (some_open lenient)
              (fixedTo_of_fixEach hfixed) narrowed

/-- The examination of a living partial model comes to one of the outcomes. -/
theorem examines_of_examine (alive : model.isDead = false)
    (examined : model.examine rules = (.ok verdict, after)) :
    Examines rules model verdict after := by
  rw [examine, alive] at examined
  simp only [Bool.false_eq_true, if_false] at examined
  split at examined
  · next none_left =>
    obtain ⟨hverdict, rfl⟩ := Prod.mk.inj examined
    obtain rfl := Except.ok.inj hverdict
    exact examines_of_judge none_left rfl
  · next key choice choices first =>
    split at examined
    · next value found =>
      split at examined
      · next outside =>
        obtain ⟨hverdict, rfl⟩ := Prod.mk.inj examined
        obtain rfl := Except.ok.inj hverdict
        rw [Bool.and_eq_true_iff, Bool.not_eq_true', ← Bool.not_eq_true,
          HandleSet.contains_iff] at outside
        exact .dies (.outsider first outside.1 found outside.2) rfl
      · next allowed =>
        obtain ⟨hverdict, rfl⟩ := Prod.mk.inj examined
        obtain rfl := Except.ok.inj hverdict
        exact .held first found fun exhaustive => by simpa [exhaustive] using allowed
    · next excluded found => exact examines_of_resolve first (Or.inl found) examined
    · next found => exact examines_of_resolve first (Or.inr ⟨found, rfl⟩) examined

/-! ### Narrowing -/

/-- A tuple that is not fixed has been narrowed by these values, and nothing else has happened. -/
structure Narrows (key : ChoiceKey) (more : HandleSet) (before after : PartialModel) : Prop where
  /-- It stays sound. -/
  sound : after.Sound
  /-- It is as alive as before. -/
  deadEnd : after.deadEnd = before.deadEnd
  /-- Nothing is new. -/
  known : ∀ news, news ∈ after.known ↔ news ∈ before.known
  /-- Nothing more waits. -/
  agenda : after.agenda = before.agenda
  /-- The choices are as before. -/
  choices : after.choices = before.choices
  /-- No other tuple has changed. -/
  get? : ∀ name args, after.database.get? name args =
    if name = key.name ∧ args = key.args then some (.noneOf more)
    else before.database.get? name args

theorem Sound.narrows_constrain (sound : model.Sound) (free : model.Free key excluded)
    {more : HandleSet} (narrowed : model.constrain key.name key.args (.noneOf more) = .ok after) :
    Narrows key more model after := by
  obtain ⟨database, old, set, rfl⟩ := exists_of_constrain narrowed
  have hget := sound.database.get?_set set
  refine ⟨⟨sound.database.set set, sound.ordered, sound.tries⟩, rfl, ?_, rfl, rfl, hget⟩
  rintro (⟨name, args, value⟩ | ⟨name, args⟩)
  · rw [mem_known_fact, mem_known_fact, hget]
    split
    · next heq =>
      obtain ⟨rfl, rfl⟩ := heq
      rcases free with found | ⟨found, -⟩ <;> simp [found]
    · rfl
  · rfl

theorem Narrows.evolves {more : HandleSet} {before : PartialModel}
    (narrows : Narrows key more before after)
    (free : before.Free key excluded) (subset : ∀ value ∈ excluded, value ∈ more) :
    Evolves before after where
  alive := fun survives => by rwa [isDead, narrows.deadEnd] at survives
  known := fun news member => (narrows.known news).2 member
  excluded := by
    intro name args others found
    refine Or.inl ?_
    rw [narrows.get?]
    split
    · next heq =>
      obtain ⟨rfl, rfl⟩ := heq
      rcases free with free | ⟨free, -⟩
      · obtain rfl := Constraint.noneOf.inj (Option.some.inj (free.symm.trans found))
        exact ⟨more, rfl, subset⟩
      · rw [free] at found
        cases found
    · exact ⟨others, found, fun _ => id⟩
  choices := by
    rw [narrows.choices]
    exact (Evolves.refl before).choices

/-! ### What an examination leaves alive -/

/-- **What becomes of a partial model that survives an examination.** -/
inductive Decides (model : PartialModel) : PartialModel → Prop where
  /-- Nothing. -/
  | kept : Decides model model
  /-- The choice is dropped because its tuple is fixed. -/
  | held {key : ChoiceKey} {choice : Choice} {choices : List (ChoiceKey × Choice)} {value : Handle}
      (first : model.choices = (key, choice) :: choices)
      (found : model.database.get? key.name key.args = some (.just value))
      (allowed : choice.exhaustive = true → value ∈ choice.values) :
      Decides model { model with choices := choices }
  /-- The choice is dropped because it has no open value. -/
  | spent {key : ChoiceKey} {choice : Choice} {choices : List (ChoiceKey × Choice)}
      {excluded : HandleSet} (first : model.choices = (key, choice) :: choices)
      (free : model.Free key excluded) (lenient : choice.exhaustive = false)
      (none_open : ∀ value ∈ choice.values, value ∈ excluded) :
      Decides model { model with choices := choices }
  /-- The tuple is fixed to an open value. -/
  | taken {key : ChoiceKey} {choice : Choice} {choices : List (ChoiceKey × Choice)}
      {excluded : HandleSet} {value : Handle} {after : PartialModel}
      (first : model.choices = (key, choice) :: choices) (free : model.Free key excluded)
      (offered : value ∈ choice.values) (unexcluded : value ∉ excluded)
      (asserted : assert key.name key.args value { model with choices := choices } = .ok after) :
      Decides model after
  /-- The tuple is narrowed by the open values. -/
  | spared {key : ChoiceKey} {choice : Choice} {choices : List (ChoiceKey × Choice)}
      {excluded : HandleSet} {after : PartialModel}
      (first : model.choices = (key, choice) :: choices) (free : model.Free key excluded)
      (lenient : choice.exhaustive = false) (some_open : choice.values.without excluded ≠ [])
      (narrows : Narrows key (excluded.union (.ofList (choice.values.without excluded)))
        { model with choices := choices } after) :
      Decides model after

/-- The partial model is what an examination leaves, or one of the branches that it leads to. -/
inductive Examined (rules : RuleSet) (model : PartialModel) : PartialModel → Prop where
  /-- It is what the examination leaves. -/
  | whole {verdict : Verdict} {after : PartialModel}
      (examined : model.examine rules = (.ok verdict, after))
      (unbranched : ∀ branches, verdict ≠ .branch branches) : Examined rules model after
  /-- It is a branch. -/
  | branch {branches : List PartialModel} {rest branch : PartialModel}
      (examined : model.examine rules = (.ok (.branch branches), rest))
        (member : branch ∈ branches) :
      Examined rules model branch

theorem Sound.forget (sound : model.Sound) (choices : List (ChoiceKey × Choice)) :
    Sound { model with choices := choices } := ⟨sound.database, sound.ordered, sound.tries⟩

theorem Free.forget (free : model.Free key excluded) (choices : List (ChoiceKey × Choice)) :
    Free key excluded { model with choices := choices } := free

theorem decides_of_fixedTo (first : model.choices = (key, choice) :: choices)
    (free : model.Free key excluded) {branches : List PartialModel}
    (fixed : FixedTo key { model with choices := choices }
    (choice.values.without excluded) branches)
    {branch : PartialModel} (member : branch ∈ branches) : Decides model branch := by
  obtain ⟨value, hvalue, asserted⟩ := exists_of_mem_right fixed member
  obtain ⟨offered, unexcluded⟩ := HandleSet.mem_without.1 hvalue
  exact .taken first free offered unexcluded asserted

theorem forall_mem_of_without_eq_nil {values others : HandleSet}
    (none_left : values.without others = []) :
    ∀ value ∈ values, value ∈ others := by
  intro value member
  by_contra outside
  have hvalue := HandleSet.mem_without.2 ⟨member, outside⟩
  rw [none_left] at hvalue
  cases hvalue

/-- A dead partial model is left as it is. -/
theorem examine_of_isDead (dead : model.isDead = true) : model.examine rules =
    (.ok .dead, model) := by
  rw [examine, if_pos dead]

theorem Examined.alive (examined : model.Examined rules after) (survives : after.isDead = false) :
    model.isDead = false := by
  by_contra dead
  rw [Bool.not_eq_false] at dead
  cases examined with
  | whole hexamined _ =>
    rw [examine_of_isDead dead] at hexamined
    obtain ⟨-, rfl⟩ := Prod.mk.inj hexamined
    simp [dead] at survives
  | branch hexamined _ =>
    rw [examine_of_isDead dead] at hexamined
    cases hexamined

theorem Examined.decides (examined : model.Examined rules after) (sound : model.Sound)
    (survives : after.isDead = false) : Decides model after := by
  -- The verdicts that leave one partial model and those that branch come to the same few changes.
  have alive := examined.alive survives
  cases examined with
  | whole hexamined unbranched =>
    cases examines_of_examine alive hexamined with
    | dies _ dead => simp [dead] at survives
    | solution => exact .kept
    | held first found allowed => exact .held first found allowed
    | spent first free lenient none_open =>
      exact .spent first free lenient (forall_mem_of_without_eq_nil none_open)
    | @forced _ _ _ _ value _ first free _ one_open asserted =>
      have hvalue : value ∈ [value] := List.mem_singleton.2 rfl
      rw [← one_open] at hvalue
      obtain ⟨offered, unexcluded⟩ := HandleSet.mem_without.1 hvalue
      exact .taken first free offered unexcluded asserted
    | closed => exact absurd rfl (unbranched _)
    | opened => exact absurd rfl (unbranched _)
  | branch hexamined member =>
    cases examines_of_examine alive hexamined with
    | closed first free _ fixed => exact decides_of_fixedTo first free fixed member
    | opened first free lenient some_open fixed narrowed =>
      rcases List.mem_append.1 member with member | member
      · exact decides_of_fixedTo first free fixed member
      · obtain rfl := List.mem_singleton.1 member
        exact .spared first free lenient some_open
          ((sound.forget _).narrows_constrain (free.forget _) narrowed)

/-! ### What is preserved -/

variable {program : Program} {store : Store} {registered : ChoiceKey × Choice → Prop}

theorem Readable.forget (readable : model.Readable program store)
    (first : model.choices = (key, choice) :: choices) :
    Readable program store { model with choices := choices } where
  sound := readable.sound.forget choices
  tuples := readable.tuples
  constrained := readable.constrained
  choices := fun entry member =>
    readable.choices entry (first ▸ List.mem_cons_of_mem _ member)

theorem Justified.forget (justified : model.Justified program store)
    (first : model.choices = (key, choice) :: choices) :
    Justified program store { model with choices := choices } where
  founded := justified.founded
  offered := fun entry member =>
    justified.offered entry (first ▸ List.mem_cons_of_mem _ member)
  exhaustive := fun entry member =>
    justified.exhaustive entry (first ▸ List.mem_cons_of_mem _ member)
  narrowed := justified.narrowed

/-- The atom of a value that the first choice offers. -/
theorem Readable.exists_reads_of_offered (readable : model.Readable program store)
    (first : model.choices = (key, choice) :: choices) {value : Handle}
    (offered : value ∈ choice.values) :
    ∃ terms term, store.Expands key.args terms ∧ store.expand value = some term := by
  obtain ⟨⟨⟨terms, args_expand⟩, -⟩, values⟩ :=
    readable.choices (key, choice) (first ▸ List.mem_cons_self)
  obtain ⟨term, value_expands⟩ := values value offered
  exact ⟨terms, term, args_expand, value_expands⟩

/-- A value of the first choice is offered by some instance. -/
theorem Justified.exists_offers (justified : model.Justified program store)
    (readable : model.Readable program store) (first : model.choices = (key, choice) :: choices)
    {terms : List Term} (args_expand : store.Expands key.args terms) {value : Handle}
    (offered : value ∈ choice.values) : ∃ offered exhaustive term, store.expand value = some term ∧
      program.Offers (model.atoms store) key.name terms offered exhaustive ∧ term ∈ offered := by
  have member : (key, choice) ∈ model.choices := first ▸ List.mem_cons_self
  obtain ⟨term, value_expands⟩ := (readable.choices _ member).2 value offered
  obtain ⟨others, exhaustive, offers, hterm⟩ :=
    justified.offered _ member terms args_expand value offered term value_expands
  exact ⟨others, exhaustive, term, value_expands, offers, hterm⟩

theorem Decides.readable (decides : Decides model after) (readable : model.Readable program store)
    (survives : after.isDead = false) : after.Readable program store := by
  cases decides with
  | kept => exact readable
  | held first _ _ => exact readable.forget first
  | spent first _ _ _ => exact readable.forget first
  | @taken key choice choices _ value _ first free offered _ asserted =>
    have hreadable := readable.forget first
    obtain ⟨terms, term, args_expand, value_expands⟩ :=
      readable.exists_reads_of_offered first offered
    refine (hreadable.sound.learns_assert asserted survives).readable hreadable
      (.fact args_expand value_expands) ?_
    rintro name args other ⟨⟩
    exact (readable.choices (key, choice) (first ▸ List.mem_cons_self)).1
  | @spared key choice choices excluded _ first free _ _ narrows =>
    have hreadable := readable.forget first
    obtain ⟨uses, values⟩ := readable.choices (key, choice) (first ▸ List.mem_cons_self)
    refine ⟨narrows.sound, fun name args derived => ?_, fun name args constraint found => ?_, ?_⟩
    · exact readable.tuples name args ((narrows.known (.tuple name args)).1 derived)
    · rw [narrows.get?] at found
      split at found
      · next heq =>
        obtain ⟨rfl, rfl⟩ := heq
        obtain rfl := Option.some.inj found
        refine ⟨uses, ?_⟩
        intro value mentions
        rcases HandleSet.mem_union.1 mentions with mentions | mentions
        · rcases free with free | ⟨-, rfl⟩
          · exact (readable.constrained _ _ _ free).2 value mentions
          · simp at mentions
        · exact values value (HandleSet.mem_without.1 (HandleSet.mem_ofList.1 mentions)).1
      · exact readable.constrained name args constraint found
    · rw [narrows.choices]
      exact hreadable.choices

theorem Decides.justified (decides : Decides model after) (readable : model.Readable program store)
    (justified : model.Justified program store) (survives : after.isDead = false) :
    after.Justified program store := by
  cases decides with
  | kept => exact justified
  | held first _ _ => exact justified.forget first
  | spent first _ _ _ => exact justified.forget first
  | @taken key choice choices _ value _ first free offered _ asserted =>
    obtain ⟨terms, term, args_expand, value_expands⟩ :=
      readable.exists_reads_of_offered first offered
    have learns := (readable.sound.forget choices).learns_assert asserted survives
    have reads : News.Reads store (.fact key.name key.args value) (.fact key.name terms term) :=
      .fact args_expand value_expands
    refine learns.justified (justified.forget first) reads ?_
    obtain ⟨others, exhaustive, ⟨rule, member, valuation, body, inst, held, chooses⟩, hterm⟩ :=
      justified.offered (key, choice) (first ▸ List.mem_cons_self) terms args_expand value offered
        term value_expands
    have subset := learns.evolves.atoms_subset store
    exact .choice member inst
      (fun other hother => (justified.founded other (held other hother)).mono subset)
      chooses hterm ((learns.mem_atoms_iff reads).2 (Or.inl rfl))
  | @spared key choice choices excluded _ first free _ some_open narrows =>
    have hjustified := justified.forget first
    have hatoms : after.atoms store = model.atoms store := by
      have hknown : after.known = model.known := Set.ext narrows.known
      rw [atoms, atoms, hknown]
    refine ⟨?_, ?_, ?_, fun name args others found terms args_expand => ?_⟩
    · rw [hatoms]
      exact justified.founded
    · rw [hatoms, narrows.choices]
      exact hjustified.offered
    · rw [hatoms, narrows.choices]
      exact hjustified.exhaustive
    · rw [hatoms]
      rw [narrows.get?] at found
      split at found
      · next heq =>
        obtain ⟨rfl, rfl⟩ := heq
        -- A choice is examined for its open values only if there are some.
        obtain ⟨value, hvalue⟩ := List.exists_mem_of_ne_nil _ some_open
        obtain ⟨offered, -⟩ := HandleSet.mem_without.1 hvalue
        obtain ⟨others, exhaustive, term, -, offers, hterm⟩ :=
          justified.exists_offers readable first args_expand offered
        exact ⟨others, exhaustive, offers, List.ne_nil_of_mem hterm⟩
      · exact justified.narrowed name args others found terms args_expand

/-- What is covered by a choice that is not exhaustive is not exhaustive. -/
theorem Covers.lenient {entry : ChoiceKey × Choice} {asked : Choice}
    (covers : Covers entry key asked)
    (lenient : entry.2.exhaustive = false) : asked.exhaustive = false := by
  by_contra exhaustive
  exact Bool.false_ne_true (lenient.symm.trans (covers.2.1 (Bool.not_eq_false _ ▸ exhaustive)))

/-- Whatever is answered is still answered without the first choice, unless by that one. -/
theorem answers_forget (first : model.choices = (key, choice) :: choices) {asked : ChoiceKey}
    {wanted : Choice} (answers : model.Answers registered asked wanted) :
    Answers registered { model with choices := choices } asked wanted ∨
      Covers (key, choice) asked wanted := by
  cases answers with
  | pending member covers =>
    rw [first] at member
    rcases List.mem_cons.1 member with rfl | member
    · exact Or.inr covers
    · exact Or.inl (.pending member covers)
  | fixed found offered => exact Or.inl (.fixed found offered)
  | excluded lenient found subset => exact Or.inl (.excluded lenient found subset)
  | idle lenient none_offered => exact Or.inl (.idle lenient none_offered)

/-- An examination takes nothing back but the choice. -/
theorem Decides.refines (decides : Decides model after) (sound : model.Sound)
    (survives : after.isDead = false) : Refines model after := by
  have refl := Evolves.refl model
  cases decides with
  | kept => exact refl.toRefines
  | held | spent => exact ⟨id, fun _ => id, refl.excluded⟩
  | taken _ _ _ _ asserted =>
    have evolves := ((sound.forget _).learns_assert asserted survives).evolves
    exact ⟨evolves.alive, evolves.known, evolves.excluded⟩
  | spared _ free _ _ narrows =>
    have evolves := narrows.evolves (free.forget _) fun value member =>
      HandleSet.mem_union.2 (Or.inl member)
    exact ⟨evolves.alive, evolves.known, evolves.excluded⟩

theorem Decides.queues (decides : Decides model after) (sound : model.Sound)
    (survives : after.isDead = false) : Queues model after := by
  cases decides with
  | kept | held | spent => exact .refl _
  | taken _ _ _ _ asserted =>
    obtain ⟨extra, agenda, known⟩ := ((sound.forget _).learns_assert asserted survives).queues
    exact ⟨extra, agenda, known⟩
  | spared _ _ _ _ narrows =>
    refine ⟨[], by rw [narrows.agenda, List.append_nil], ?_⟩
    intro news
    rw [narrows.known]
    simp only [List.not_mem_nil, or_false]
    rfl

/-- An examination derives nothing. -/
theorem Decides.derives (decides : Decides model after) (sound : model.Sound)
    (survives : after.isDead = false) (name : String) (args : List Handle) :
    after.derives name args = true ↔ model.derives name args = true := by
  cases decides with
  | kept | held | spent => exact Iff.rfl
  | taken _ _ _ _ asserted =>
    refine (((sound.forget _).learns_assert asserted survives).known (.tuple name args)).trans ?_
    simp only [reduceCtorEq, false_or]
    exact Iff.rfl
  | spared _ _ _ _ narrows => exact narrows.known (.tuple name args)

/-- **What is answered stays answered**, also the choice that is taken off. -/
theorem Decides.answers (decides : Decides model after) (sound : model.Sound)
    (known : ∀ entry ∈ model.choices, registered entry) (survives : after.isDead = false)
    {asked : ChoiceKey} {wanted : Choice} (answers : model.Answers registered asked wanted) :
    after.Answers registered asked wanted := by
  cases decides with
  | kept => exact answers
  | held first found allowed =>
    rcases answers_forget first answers with answers | ⟨rfl, covers, subset⟩
    · exact answers
    · -- The value need be one of the entry only if the choice is exhaustive, and then the entry is.
      refine .fixed found ?_
      intro exhaustive
      exact ⟨_, known _ (first ▸ List.mem_cons_self), ⟨rfl, covers, subset⟩,
        allowed (covers exhaustive)⟩
  | spent first free lenient none_open =>
    rcases answers_forget first answers with answers | covers
    · exact answers
    · have lenient' := covers.lenient lenient
      obtain ⟨rfl, -, subset⟩ := covers
      rcases free with found | ⟨-, rfl⟩
      · exact .excluded lenient' found fun value member => none_open value (subset value member)
      · refine .idle lenient' ?_
        intro value member
        exact HandleSet.not_mem_empty (none_open value (subset value member))
  | @taken key choice choices _ value _ first free offered _ asserted =>
    have learns := (sound.forget choices).learns_assert asserted survives
    rcases answers_forget first answers with answers | ⟨rfl, covers⟩
    · exact answers.evolve learns.evolves
    · refine .fixed ((learns.known (.fact _ _ value)).2 (Or.inl rfl)) ?_
      intro _
      exact ⟨_, known _ (first ▸ List.mem_cons_self), ⟨rfl, covers⟩, offered⟩
  | @spared key choice choices excluded _ first free lenient _ narrows =>
    rcases answers_forget first answers with answers | covers
    · exact answers.evolve (narrows.evolves (free.forget choices) fun value member =>
        HandleSet.mem_union.2 (Or.inl member))
    · have lenient' := covers.lenient lenient
      obtain ⟨rfl, -, subset⟩ := covers
      -- Each of its values was excluded before or is open and excluded now.
      refine .excluded lenient' (by rw [narrows.get?, if_pos ⟨rfl, rfl⟩]) ?_
      intro value member
      rw [HandleSet.mem_union, HandleSet.mem_ofList, HandleSet.mem_without]
      have hvalue := subset value member
      tauto

end PartialModel

/-- **What is settled stays settled** through an examination, if it is known of each entry that was
there that it has been registered. -/
theorem Conclusion.Settled.decide {store : Store} {model after : PartialModel}
    {registered : ChoiceKey × Choice → Prop} {conclusion : Conclusion} {valuation : Valuation}
    (decides : PartialModel.Decides model after) (sound : model.Sound)
    (known : ∀ entry ∈ model.choices, registered entry) (survives : after.isDead = false)
    (settled : conclusion.Settled registered store model valuation) :
    conclusion.Settled registered store after valuation := by
  cases settled with
  | holds pins member =>
    exact .holds pins (store.meaning_mono ((decides.queues sound survives).known_subset) member)
  | choice pins args_expand values_expand answers =>
    exact .choice pins args_expand values_expand (decides.answers sound known survives answers)

end StableModels
