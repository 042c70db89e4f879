import StableModels.Proofs.Below

/-!
# Examinations below a stable model

Let a saturated partial model be examined, and let a stable model be given. If the partial model
branches, then exactly one of its branches is below the stable model if it was itself, and none
otherwise (`StableModels.PartialModel.Examines.countP_below`): the tuple of the choice has one value
in the stable model, and if it is none of the open ones then the choice is not exhaustive and the
branch remains in which the tuple has none of them. In the other cases nothing changes, for a
partial model that is below a stable model is not hopeless
(`StableModels.PartialModel.Hopeless.not_below`).

Here it matters that the stable model decides *every* exhaustive choice for one of its own values:
an entry that is exhaustive covers a choice that is, and so the value of the tuple is among those of
the entry.
-/

namespace StableModels

/-! ### Counting -/

/-- Related lists have as many members of corresponding properties. -/
theorem countP_eq_of_forall₂ {α β : Type} {R : α → β → Prop} {first : List α} {second : List β}
    {p : α → Bool} {q : β → Bool} (related : List.Forall₂ R first second)
    (iff : ∀ a ∈ first, ∀ b, R a b → (p a = true ↔ q b = true)) :
    second.countP q = first.countP p := by
  induction related with
  | nil => rfl
  | @cons a b first second relates _ ih =>
    have heq : q b = p a := (Bool.eq_iff_iff.2 (iff a List.mem_cons_self b relates)).symm
    rw [List.countP_cons, List.countP_cons, heq,
      ih fun a member => iff a (List.mem_cons_of_mem _ member)]

/-- In a list without repetitions at most one member has a property that no two have. -/
theorem countP_eq_one_of_unique {α : Type} [DecidableEq α] {list : List α} {p : α → Bool}
    (nodup : list.Nodup) {chosen : α} (member : chosen ∈ list)
    (iff : ∀ other ∈ list, p other = true ↔ other = chosen) : list.countP p = 1 := by
  have count : list.count chosen = 1 := nodup.count.trans (if_pos member)
  rw [← count, List.count]
  exact List.countP_congr fun other hother => (iff other hother).trans beq_iff_eq.symm

/-! ### The value of a tuple -/

/-- In the set the tuple of the key has this value. -/
def ChoiceKey.Takes (store : Store) (atoms : Set Atom) (key : ChoiceKey) (value : Handle) : Prop :=
  ∃ args term, store.Expands key.args args ∧ store.expand value = some term ∧
    .fact key.name args term ∈ atoms

variable {program : Program} {rules : RuleSet} {store : Store} {model after : PartialModel}
  {atoms : Set Atom} {asserted : Set News} {key : ChoiceKey} {choice : Choice}
  {choices : List (ChoiceKey × Choice)} {excluded : HandleSet} {value : Handle}

theorem ChoiceKey.Takes.unique (sound : store.Sound) (satisfied : program.Satisfied atoms)
    {first second : Handle} (hfirst : key.Takes store atoms first)
    (hsecond : key.Takes store atoms second) : first = second := by
  obtain ⟨args, term, args_expand, expands, member⟩ := hfirst
  obtain ⟨args', term', args_expand', expands', member'⟩ := hsecond
  obtain rfl := args_expand.unique args_expand'
  obtain rfl := satisfied.functional _ _ _ _ member member'
  exact sound.expand_injective expands expands'

namespace PartialModel

/-- A value that the tuple has is not excluded. -/
theorem Below.not_mem_of_takes (below : model.Below store atoms) (free : model.Free key excluded)
    (takes : key.Takes store atoms value) : value ∉ excluded := by
  obtain ⟨args, term, args_expand, value_expands, member⟩ := takes
  rcases free with found | ⟨-, rfl⟩
  · intro hvalue
    exact below.admits key.name key.args excluded found args value term args_expand hvalue
      value_expands member
  · exact HandleSet.not_mem_empty

/-- A partial model is below all that a branch of it is below. -/
theorem Below.of_decides (sound : store.Sound) (satisfied : program.Satisfied atoms)
    (readable : model.Readable program store) (decides : Decides model after)
    (below : after.Below store atoms) : model.Below store atoms := by
  have hreadable := decides.readable readable below.alive
  have refines := decides.refines readable.sound below.alive
  exact below.of_refines sound satisfied hreadable refines

/-- **The branch in which a tuple has an open value** is below the set if the partial model is and
the tuple has that value. -/
theorem below_taken_iff (sound : store.Sound) (satisfied : program.Satisfied atoms)
    (readable : model.Readable program store) (first : model.choices = (key, choice) :: choices)
    (free : model.Free key excluded) (offered : value ∈ choice.values)
    (unexcluded : value ∉ excluded)
    (asserted : assert key.name key.args value { model with choices := choices } = .ok after) :
    after.Below store atoms ↔ model.Below store atoms ∧ key.Takes store atoms value := by
  constructor
  · intro below
    have decides : Decides model after := .taken first free offered unexcluded asserted
    obtain ⟨args, term, args_expand, value_expands⟩ :=
      readable.exists_reads_of_offered first offered
    have learns := (readable.sound.forget choices).learns_assert asserted below.alive
    have member : Atom.fact key.name args term ∈ after.atoms store :=
      ⟨_, (learns.known _).2 (Or.inl rfl), .fact args_expand value_expands⟩
    exact ⟨below.of_decides sound satisfied readable decides, args, term, args_expand,
      value_expands, below.subset member⟩
  · rintro ⟨below, args, term, args_expand, value_expands, member⟩
    have hbelow : Below store atoms { model with choices := choices } :=
      ⟨below.alive, below.subset, below.admits⟩
    exact hbelow.assert sound satisfied (readable.forget first) args_expand value_expands member
      asserted

/-- **The branch in which a tuple has none of the open values** is below the set if the partial
model is and the tuple has none of them. -/
theorem below_spared_iff (sound : store.Sound) (satisfied : program.Satisfied atoms)
    (readable : model.Readable program store) (first : model.choices = (key, choice) :: choices)
    (free : model.Free key excluded) (lenient : choice.exhaustive = false)
    (some_open : choice.values.without excluded ≠ [])
    (narrows : Narrows key (excluded.union (.ofList (choice.values.without excluded)))
      { model with choices := choices } after) :
    after.Below store atoms ↔ model.Below store atoms ∧
      ∀ value ∈ choice.values.without excluded, ¬key.Takes store atoms value := by
  have hget := narrows.get? key.name key.args
  rw [if_pos ⟨rfl, rfl⟩] at hget
  constructor
  · intro below
    have decides : Decides model after := .spared first free lenient some_open narrows
    refine ⟨below.of_decides sound satisfied readable decides, ?_⟩
    intro value member takes
    have hvalue : value ∈ excluded.union (.ofList (choice.values.without excluded)) :=
      HandleSet.mem_union.2 (Or.inr (HandleSet.mem_ofList.2 member))
    exact below.not_mem_of_takes (Or.inl hget) takes hvalue
  · rintro ⟨below, none_taken⟩
    refine ⟨?_, ?_, ?_⟩
    · rw [isDead, narrows.deadEnd]
      exact below.alive
    · rintro atom ⟨news, known, reads⟩
      exact below.subset ⟨news, (narrows.known news).1 known, reads⟩
    · intro name handles others found args value term args_expand hvalue value_expands member
      rw [narrows.get?] at found
      split at found
      · next heq =>
        obtain ⟨rfl, rfl⟩ := heq
        obtain rfl := Constraint.noneOf.inj (Option.some.inj found)
        have takes : key.Takes store atoms value := ⟨args, term, args_expand, value_expands, member⟩
        rcases HandleSet.mem_union.1 hvalue with hvalue | hvalue
        · exact below.not_mem_of_takes free takes hvalue
        · exact none_taken value (HandleSet.mem_ofList.1 hvalue) takes
      · exact below.admits name handles others found args value term args_expand hvalue
          value_expands member

/-- The value of the tuple of an exhaustive entry is an open value of the entry. -/
theorem Below.exists_takes (stable : program.Stable atoms)
    (justified : model.Justified program store)
    (readable : model.Readable program store) (first : model.choices = (key, choice) :: choices)
    (exhaustive : choice.exhaustive = true) (below : model.Below store atoms) :
    ∃ value ∈ choice.values, key.Takes store atoms value := by
  have member : (key, choice) ∈ model.choices := first ▸ List.mem_cons_self
  obtain ⟨⟨⟨args, args_expand⟩, -⟩, -⟩ := readable.choices _ member
  obtain ⟨offered, offers, covers⟩ := justified.exhaustive _ member exhaustive args args_expand
  have offers' := offers.mono below.subset
  obtain ⟨term, holds⟩ := stable.decided _ _ _ _ offers' (Or.inl rfl)
  obtain ⟨value, hvalue, value_expands⟩ := covers term (stable.respects _ _ _ _ offers' holds)
  exact ⟨value, hvalue, args, term, args_expand, value_expands, holds⟩

end PartialModel

/-! ### Hopeless partial models -/

/-- **When nothing is left to be done below a supported set**, the partial model holds all of it. -/
theorem Reached.atoms_eq_of_below (reached : Reached program rules ⟨model, store⟩ asserted)
    (alive : model.isDead = false) (saturated : model.agenda = []) (none_left : model.choices = [])
    (supported : program.Supported atoms) (below : model.Below store atoms) :
    model.atoms store = atoms := by
  -- The induction is on how the atom is founded. Where a choice founds it, the choice has been
  -- answered, and the value is neither excluded nor another one.
  refine below.subset.antisymm ?_
  intro atom member
  have founded := supported.founded atom member
  induction founded with
  | seed hname => exact reached.seeds_mem alive _ hname
  | rule hrule inst body_founded gives ih =>
    have held := fun other hother =>
      ih other hother (supported.mem_of_founded (fun _ _ _ => id) (body_founded other hother))
    exact (reached.closes alive saturated _ hrule).mem_of_gives inst held gives
  | @choice rule valuation body name args offered value exhaustive hrule inst body_founded chooses
      hvalue holds ih =>
    have held := fun other hother =>
      ih other hother (supported.mem_of_founded (fun _ _ _ => id) (body_founded other hother))
    obtain ⟨handles, members, args_expand, values_expand, answers⟩ :=
      reached.answers_of_offers alive saturated ⟨rule, hrule, valuation, body, inst, held, chooses⟩
    obtain ⟨handle, hhandle, expands⟩ := exists_of_mem_right values_expand hvalue
    have registered : handle ∈ HandleSet.ofList members := HandleSet.mem_ofList.2 hhandle
    cases answers with
    | pending hentry _ => simp [none_left] at hentry
    | @fixed other found _ =>
      obtain ⟨term, other_expands⟩ := ((reached.readable alive).constrained _ _ _ found).2 other rfl
      have hfact : Atom.fact name args term ∈ model.atoms store :=
        ⟨_, found, .fact args_expand other_expands⟩
      obtain rfl := supported.functional _ _ _ _ member (below.subset hfact)
      exact hfact
    | excluded _ found subset =>
      exact absurd member (below.admits name handles _ found args handle value args_expand
        (subset handle registered) expands)
    | idle _ none_offered => exact absurd registered (none_offered handle)

/-- **A hopeless partial model is not below any stable model.** -/
theorem PartialModel.Hopeless.not_below (hopeless : model.Hopeless rules)
    (reached : Reached program rules ⟨model, store⟩ asserted) (one_arity : program.OneArity)
    (alive : model.isDead = false) (saturated : model.agenda = []) (stable : program.Stable atoms) :
    ¬model.Below store atoms := by
  intro below
  have sound := reached.fit.sound
  have readable := reached.readable alive
  have justified := (reached.regular alive).justified one_arity
  cases hopeless with
  | undecided none_left narrowed =>
    have heq := reached.atoms_eq_of_below alive saturated none_left stable.toSupported below
    -- Some choice has offered a value for the narrowed tuple, so that the stable model decides it;
    -- but the partial model has all atoms of the stable model and does not.
    obtain ⟨name, handles, excluded, found⟩ :
        ∃ name handles excluded, model.database.get? name handles = some (.noneOf excluded) := by
      by_contra none_narrowed
      push Not at none_narrowed
      exact narrowed.ne' (readable.sound.database.narrowed_eq_zero_iff.2 none_narrowed)
    obtain ⟨⟨⟨args, args_expand⟩, -⟩, -⟩ := readable.constrained name handles _ found
    obtain ⟨offered, exhaustive, offers, some_offered⟩ :=
      justified.narrowed name handles excluded found args args_expand
    rw [heq] at offers
    obtain ⟨term, holds⟩ := stable.decided name args offered exhaustive offers (Or.inr some_offered)
    rw [← heq] at holds
    obtain ⟨others, value, others_expand, -, fixed⟩ := Reached.exists_get?_of_mem holds
    obtain rfl := sound.expands_injective args_expand others_expand
    rw [fixed] at found
    cases found
  | @missing name none_left demanded missing =>
    have heq := reached.atoms_eq_of_below alive saturated none_left stable.toSupported below
    obtain ⟨args, holds⟩ := stable.demands name (reached.fit.compiles.demands ▸ demanded)
    rw [← heq] at holds
    obtain ⟨news, known, reads⟩ := holds
    cases reads with
    | tuple =>
      exact Bool.false_ne_true
        (missing.symm.trans (readable.sound.derivesSome_iff.2 ⟨_, known⟩))
  | @outsider key choice choices value first exhaustive found outside =>
    obtain ⟨other, hother, takes⟩ := below.exists_takes stable justified readable first exhaustive
    obtain ⟨⟨⟨args, args_expand⟩, -⟩, values⟩ := readable.constrained _ _ _ found
    obtain ⟨term, value_expands⟩ := values value rfl
    have takes' : key.Takes store atoms value :=
      ⟨args, term, args_expand, value_expands,
        below.subset ⟨_, found, .fact args_expand value_expands⟩⟩
    exact outside (takes'.unique sound stable.toSatisfied takes ▸ hother)
  | spent first free exhaustive none_open =>
    obtain ⟨value, hvalue, takes⟩ := below.exists_takes stable justified readable first exhaustive
    exact below.not_mem_of_takes free takes
      (PartialModel.forall_mem_of_without_eq_nil none_open value hvalue)

namespace PartialModel

/-! ### Branches -/

theorem nodup_without (set other : HandleSet) : (set.without other).Nodup :=
  (set.ascending.imp Nat.ne_of_lt).filter _

open Classical in
/-- Of the branches in which a tuple has one of the open values one is below the set, if the partial
model is and the tuple has one of these values. -/
theorem countP_below_fixedTo (sound : store.Sound) (satisfied : program.Satisfied atoms)
    (readable : model.Readable program store) (first : model.choices = (key, choice) :: choices)
    (free : model.Free key excluded) {branches : List PartialModel}
    (fixed :
      FixedTo key { model with choices := choices } (choice.values.without excluded) branches) :
    branches.countP (fun branch => branch.Below store atoms) =
      if model.Below store atoms ∧
          ∃ value ∈ choice.values.without excluded, key.Takes store atoms value
      then 1 else 0 := by
  have taken_iff {value : Handle} (member : value ∈ choice.values.without excluded)
      {branch : PartialModel}
      (asserted : assert key.name key.args value { model with choices := choices } = .ok branch) :
      branch.Below store atoms ↔ model.Below store atoms ∧ key.Takes store atoms value := by
    obtain ⟨offered, unexcluded⟩ := HandleSet.mem_without.1 member
    exact below_taken_iff sound satisfied readable first free offered unexcluded asserted
  split
  · next chosen =>
    obtain ⟨below, value, member, takes⟩ := chosen
    rw [countP_eq_of_forall₂ (p := fun value => key.Takes store atoms value) fixed
      fun value member branch asserted => by simp [taken_iff member asserted, below]]
    refine countP_eq_one_of_unique (nodup_without _ _) member ?_
    intro other _
    rw [decide_eq_true_iff]
    exact ⟨fun htakes => htakes.unique sound satisfied takes, fun heq => heq ▸ takes⟩
  · next unchosen =>
    refine List.countP_eq_zero.2 ?_
    intro branch hbranch
    obtain ⟨value, member, asserted⟩ := exists_of_mem_right fixed hbranch
    rw [decide_eq_true_iff, taken_iff member asserted]
    exact fun ⟨below, takes⟩ => unchosen ⟨below, value, member, takes⟩

open Classical in
/-- **Exactly one of the branches is below a stable model** if the partial model is, and none
otherwise. -/
theorem Examines.countP_below {branches : List PartialModel} {rest : PartialModel}
    (examines : Examines rules model (.branch branches) rest)
    (reached : Reached program rules ⟨model, store⟩ asserted) (one_arity : program.OneArity)
    (alive : model.isDead = false) (stable : program.Stable atoms) :
    branches.countP (fun branch => branch.Below store atoms) =
      if model.Below store atoms then 1 else 0 := by
  have sound := reached.fit.sound
  have readable := reached.readable alive
  have satisfied := stable.toSatisfied
  cases examines with
  | closed first free exhaustive fixed =>
    rw [countP_below_fixedTo sound satisfied readable first free fixed]
    refine if_congr (and_iff_left_of_imp fun below => ?_) rfl rfl
    obtain ⟨value, offered, takes⟩ := below.exists_takes stable
      ((reached.regular alive).justified one_arity) readable first exhaustive
    exact ⟨value, HandleSet.mem_without.2 ⟨offered, below.not_mem_of_takes free takes⟩, takes⟩
  | @opened key choice choices excluded fixed_branches spared _ first free lenient some_open fixed
      narrowed =>
    have narrows := (readable.sound.forget choices).narrows_constrain (free.forget choices) narrowed
    rw [List.countP_append, countP_below_fixedTo sound satisfied readable first free fixed,
      List.countP_singleton]
    simp only [decide_eq_true_eq,
      below_spared_iff sound satisfied readable first free lenient some_open narrows]
    -- Either the tuple has one of the open values, and one of the first branches is the one, or it
    -- has none of them, and the last branch is.
    by_cases below : model.Below store atoms
    · rw [if_pos below]
      by_cases chosen : ∃ value ∈ choice.values.without excluded, key.Takes store atoms value
      · obtain ⟨value, member, takes⟩ := chosen
        rw [if_pos ⟨below, value, member, takes⟩, if_neg fun spared => spared.2 value member takes]
      · rw [if_neg fun taken => chosen taken.2,
          if_pos ⟨below, fun value member takes => chosen ⟨value, member, takes⟩⟩]
    · rw [if_neg below, if_neg fun taken => below taken.1, if_neg fun spared => below spared.1]

/-- **An examination that does not branch** does not change whether the partial model is below a
stable model. -/
theorem Examines.below_iff {verdict : Verdict} (examines : Examines rules model verdict after)
    (unbranched : ∀ branches, verdict ≠ .branch branches)
    (reached : Reached program rules ⟨model, store⟩ asserted) (one_arity : program.OneArity)
    (alive : model.isDead = false) (saturated : model.agenda = []) (stable : program.Stable atoms) :
    after.Below store atoms ↔ model.Below store atoms := by
  cases examines with
  | dies hopeless dead =>
    refine iff_of_false (fun below => ?_)
      (hopeless.not_below reached one_arity alive saturated stable)
    simp [below.alive] at dead
  | solution => rfl
  | held | spent =>
    exact ⟨fun below => ⟨below.alive, below.subset, below.admits⟩,
      fun below => ⟨below.alive, below.subset, below.admits⟩⟩
  | @forced key choice choices excluded value _ first free exhaustive one_open asserted =>
    have readable := reached.readable alive
    have hvalue : value ∈ [value] := List.mem_singleton.2 rfl
    rw [← one_open] at hvalue
    obtain ⟨offered, unexcluded⟩ := HandleSet.mem_without.1 hvalue
    rw [below_taken_iff reached.fit.sound stable.toSatisfied readable first free offered unexcluded
      asserted]
    refine and_iff_left_of_imp ?_
    intro below
    obtain ⟨other, hother, takes⟩ := below.exists_takes stable
      ((reached.regular alive).justified one_arity) readable first exhaustive
    have hopen := HandleSet.mem_without.2 ⟨hother, below.not_mem_of_takes free takes⟩
    rw [one_open, List.mem_singleton] at hopen
    exact hopen ▸ takes
  | closed | opened => exact absurd rfl (unbranched _)

end PartialModel

end StableModels
