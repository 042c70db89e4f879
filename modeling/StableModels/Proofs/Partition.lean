import StableModels.Proofs.Conservation
import StableModels.Proofs.Separation

/-!
# Examinations partition the open values

A value is **open** for the first choice of a partial model if the tuple of the choice admits it
and, if the choice is exhaustive, it is on offer (`StableModels.PartialModel.isOpen`). However an
examination goes, what results of it shares out the open values of the first choice: each of them is
admitted by exactly one of the results, and no other value is admitted by any
(`StableModels.PartialModel.Examines.countP_admits`). So no model is reported twice because two
branches overlap, and none is lost in a gap between them.

Apart from the tuple of the choice the results say what the partial model said, and only this choice
has been taken off (`StableModels.PartialModel.Examines.leaves`). That the choice does not come up a
second time is due to the order of the choices: their keys ascend, however they were registered
(`StableModels.PartialModel.Attained.ascending`).
-/

namespace StableModels

/-! ### The order of the choices -/

/-- By arguments. -/
def ChoiceKey.compareArgs (first second : ChoiceKey) : Ordering :=
  List.compareLex Ord.compare first.args second.args

instance : Std.TransCmp ChoiceKey.compareArgs where
  eq_swap {first second} :=
    @Std.OrientedCmp.eq_swap _ (List.compareLex Ord.compare) _ first.args second.args
  isLE_trans {first second third} :=
    @Std.TransCmp.isLE_trans _ (List.compareLex Ord.compare) _ first.args second.args third.args

instance : Std.TransCmp ChoiceKey.compare :=
  inferInstanceAs (Std.TransCmp (compareLex (compareOn ChoiceKey.name) ChoiceKey.compareArgs))

namespace PartialModel

/-- The keys of the choices ascend. -/
def Ascending (choices : List (ChoiceKey × Choice)) : Prop :=
  choices.Pairwise fun first second => first.1.compare second.1 = .lt

variable {rules : RuleSet} {model before after : PartialModel} {name : String}
  {args : List Handle} {value : Handle} {key : ChoiceKey} {choice : Choice}
  {choices : List (ChoiceKey × Choice)}

theorem ascending_registerIn (key : ChoiceKey) (choice : Choice) (ascending : Ascending choices) :
    Ascending (registerIn key choice choices) := by
  induction choices with
  | nil => exact List.pairwise_singleton _ _
  | cons entry choices ih =>
    obtain ⟨other, registered⟩ := entry
    obtain ⟨above, rest⟩ := List.pairwise_cons.1 ascending
    rw [registerIn]
    split
    · next below =>
      refine List.pairwise_cons.2 ⟨fun entry member => ?_, ascending⟩
      rcases List.mem_cons.1 member with rfl | member
      · exact below
      · exact Std.TransCmp.lt_trans below (above entry member)
    · exact List.pairwise_cons.2 ⟨above, rest⟩
    · next greater =>
      refine List.pairwise_cons.2 ⟨fun entry member => ?_, ih rest⟩
      have below : other.compare key = .lt := Std.OrientedCmp.lt_of_gt greater
      rcases exists_of_mem_registerIn member with member | rfl | ⟨merged, -, rfl⟩
      · exact above entry member
      · exact below
      · exact below

/-- Of the choices with ascending keys only the first one has the first key. -/
theorem Ascending.mem_iff (ascending : Ascending ((key, choice) :: choices))
    (entry : ChoiceKey × Choice) :
    entry ∈ choices ↔ entry ∈ (key, choice) :: choices ∧ entry.1 ≠ key := by
  obtain ⟨above, -⟩ := List.pairwise_cons.1 ascending
  constructor
  · intro member
    refine ⟨List.mem_cons_of_mem _ member, ?_⟩
    rintro rfl
    have same : entry.1.compare entry.1 = .eq := Std.ReflCmp.compare_self
    rw [above entry member] at same
    cases same
  · rintro ⟨member, differs⟩
    rcases List.mem_cons.1 member with rfl | member
    · exact absurd rfl differs
    · exact member

/-! ### What elementary changes leave as it is -/

theorem constrain_frame {constraint : Constraint}
    (constrained : model.constrain name args constraint = .ok after) :
    after.tuples = model.tuples ∧ after.choices = model.choices := by
  obtain ⟨database, old, set, rfl⟩ := exists_of_constrain constrained
  exact ⟨rfl, rfl⟩

theorem assert_frame (asserted : model.assert name args value = .ok after) :
    after.tuples = model.tuples ∧ after.choices = model.choices := by
  cases assertion_of_assert asserted with
  | known | kills | joins => exact ⟨rfl, rfl⟩

theorem choices_of_derive (derived : model.derive rules name args = .ok after) :
    after.choices = model.choices := by
  cases derivation_of_derive derived with
  | known | kills | joins => rfl

theorem Change.ascending (change : Change rules before after)
    (ascending : Ascending before.choices) : Ascending after.choices := by
  cases change with
  | derive derived => rwa [choices_of_derive derived]
  | assert asserted => rwa [(assert_frame asserted).2]
  | narrow _ _ narrowed => rwa [(constrain_frame narrowed).2]
  | register key choice => exact ascending_registerIn key choice ascending
  | dropNews | kill => exact ascending
  | forget first =>
    rw [first] at ascending
    exact ascending.of_cons

/-- **The keys of the choices ascend.** -/
theorem Attained.ascending (attained : Attained rules model) : Ascending model.choices :=
  attained.induct .nil fun _ _ ascending change => change.ascending ascending

/-! ### Open values -/

/-- The tuple of the key may have this value. -/
def admits (key : ChoiceKey) (value : Handle) (model : PartialModel) : Bool :=
  (model.database.get? key.name key.args).all (Constraint.admits value)

/-- The value is open for the choice: its tuple may have it and, if the choice is exhaustive, it is
on offer. -/
def isOpen (key : ChoiceKey) (choice : Choice) (value : Handle) (model : PartialModel) : Bool :=
  model.admits key value && (!choice.exhaustive || choice.values.contains value)

variable {excluded : HandleSet} {held : Handle}

theorem isOpen_iff : model.isOpen key choice value = true ↔
    model.admits key value = true ∧ (choice.exhaustive = true → value ∈ choice.values) := by
  simp [isOpen, imp_iff_not_or]

theorem admits_iff_of_fixed (found : model.database.get? key.name key.args = some (.just held)) :
    model.admits key value = true ↔ held = value := by
  simp [admits, found, Constraint.admits]

theorem admits_iff_of_narrowed
    (found : model.database.get? key.name key.args = some (.noneOf excluded)) :
    model.admits key value = true ↔ value ∉ excluded := by
  simp [admits, found, Constraint.admits, ← HandleSet.contains_iff]

theorem Free.admits_iff (free : model.Free key excluded) :
    model.admits key value = true ↔ value ∉ excluded := by
  rcases free with found | ⟨found, rfl⟩
  · exact admits_iff_of_narrowed found
  · simp [admits, found]

/-- If the choice is exhaustive then the values on offer that are not excluded are the open ones. -/
theorem Free.mem_without_iff (free : model.Free key excluded)
    (exhaustive : choice.exhaustive = true) :
    value ∈ choice.values.without excluded ↔ model.isOpen key choice value = true := by
  rw [HandleSet.mem_without, isOpen_iff, free.admits_iff, and_comm]
  exact and_congr_right fun _ => ⟨fun offered _ => offered, fun offered => offered exhaustive⟩

end PartialModel

/-! ### The results of an examination -/

/-- **What results of an examination**: the branches, or nothing if the partial model dies, or what
becomes of the partial model itself. -/
def Verdict.results (after : PartialModel) : Verdict → List PartialModel
  | .branch branches => branches
  | .dead => []
  | .discharged | .applied | .solution => [after]

namespace PartialModel

variable {rules : RuleSet} {model after : PartialModel} {value : Handle} {key : ChoiceKey}
  {choice : Choice} {choices : List (ChoiceKey × Choice)} {excluded : HandleSet}
  {branches : List PartialModel} {verdict : Verdict}

/-- Where the examination of the choice of the key leaves a partial model as it was: it lives, all
other tuples have the same constraints, the same tuples are derived, and these choices are left. -/
structure Leaves (key : ChoiceKey) (choices : List (ChoiceKey × Choice))
    (model after : PartialModel) : Prop where
  /-- It lives. -/
  alive : after.isDead = false
  /-- All other tuples are as before. -/
  get? : ∀ name args, ¬(name = key.name ∧ args = key.args) →
    after.database.get? name args = model.database.get? name args
  /-- The intermediates are as before. -/
  tuples : after.tuples = model.tuples
  /-- These choices are left. -/
  choices : after.choices = choices

theorem Free.leaves_assert (free : model.Free key excluded) (sound : model.Sound)
    (alive : model.isDead = false) (opens : value ∉ excluded)
    (asserted : assert key.name key.args value { model with choices := choices } = .ok after) :
    Leaves key choices model after := by
  have survives : after.isDead = false :=
    (free.forget choices).isDead_assert opens asserted alive
  have learns := (sound.forget choices).learns_assert asserted survives
  obtain ⟨tuples, left⟩ := assert_frame asserted
  refine ⟨survives, fun name args other => ?_, tuples, left⟩
  rcases learns.get? name args with same | ⟨fixed, heq, -⟩
  · exact same
  · obtain ⟨rfl, rfl, -⟩ := News.fact.inj heq
    exact absurd ⟨rfl, rfl⟩ other

theorem Free.leaves_constrain (free : model.Free key excluded) (sound : model.Sound)
    (alive : model.isDead = false) {more : HandleSet}
    (narrowed : constrain key.name key.args (.noneOf more) { model with choices := choices } =
      .ok after) : Leaves key choices model after := by
  have narrows := (sound.forget choices).narrows_constrain (free.forget choices) narrowed
  obtain ⟨tuples, left⟩ := constrain_frame narrowed
  refine ⟨(isDead_constrain narrowed).trans alive, fun name args other => ?_, tuples, left⟩
  rw [narrows.get?, if_neg other]

theorem first_inj {key' : ChoiceKey} {choice' : Choice} {choices' : List (ChoiceKey × Choice)}
    (first : model.choices = (key, choice) :: choices)
    (first' : model.choices = (key', choice') :: choices') :
    key = key' ∧ choice = choice' ∧ choices = choices' := by
  simpa [first, and_assoc] using first'

/-- **Apart from the tuple of the first choice, and from this choice, every result of an examination
is as the partial model was.** -/
theorem Examines.leaves (examines : Examines rules model verdict after) (sound : model.Sound)
    (alive : model.isDead = false) (first : model.choices = (key, choice) :: choices) :
    ∀ result ∈ verdict.results after, Leaves key choices model result := by
  have of_fixedTo {excluded : HandleSet} {branches : List PartialModel}
      (free : model.Free key excluded)
      (fixed : FixedTo key { model with choices := choices } (choice.values.without excluded)
        branches) : ∀ branch ∈ branches, Leaves key choices model branch := by
    intro branch member
    obtain ⟨value, hvalue, asserted⟩ := exists_of_mem_right fixed member
    exact free.leaves_assert sound alive (HandleSet.mem_without.1 hvalue).2 asserted
  cases examines with
  | dies => exact fun _ member => by cases member
  | solution none_left =>
    rw [none_left] at first
    cases first
  | held first' | spent first' =>
    obtain ⟨rfl, rfl, rfl⟩ := first_inj first first'
    intro result member
    obtain rfl := List.mem_singleton.1 member
    exact ⟨alive, fun _ _ _ => rfl, rfl, rfl⟩
  | forced first' free exhaustive one_open asserted =>
    obtain ⟨rfl, rfl, rfl⟩ := first_inj first first'
    intro result member
    obtain rfl := List.mem_singleton.1 member
    have opens := one_open ▸ List.mem_singleton_self _
    exact free.leaves_assert sound alive (HandleSet.mem_without.1 opens).2 asserted
  | closed first' free exhaustive fixed =>
    obtain ⟨rfl, rfl, rfl⟩ := first_inj first first'
    exact of_fixedTo free fixed
  | opened first' free lenient some_open fixed narrowed =>
    obtain ⟨rfl, rfl, rfl⟩ := first_inj first first'
    intro result member
    rcases List.mem_append.1 member with member | member
    · exact of_fixedTo free fixed result member
    · obtain rfl := List.mem_singleton.1 member
      exact free.leaves_constrain sound alive narrowed

/-! ### The partition -/

/-- A partial model that dies of its first choice has no open value. -/
theorem Hopeless.isOpen_eq_false (hopeless : model.Hopeless rules)
    (first : model.choices = (key, choice) :: choices) (value : Handle) :
    model.isOpen key choice value = false := by
  rw [Bool.eq_false_iff]
  intro opens
  obtain ⟨admitted, offered⟩ := isOpen_iff.1 opens
  cases hopeless with
  | undecided none_left | missing none_left =>
    rw [none_left] at first
    cases first
  | outsider first' exhaustive found outside =>
    obtain ⟨rfl, rfl, rfl⟩ := first_inj first first'
    obtain rfl := (admits_iff_of_fixed found).1 admitted
    exact outside (offered exhaustive)
  | spent first' free exhaustive none_open =>
    obtain ⟨rfl, rfl, rfl⟩ := first_inj first first'
    rw [← free.mem_without_iff exhaustive, none_open] at opens
    cases opens

/-- Of the branches in which the tuple has one of the values on offer one admits an open value. -/
theorem countP_admits_fixedTo (sound : model.Sound) (alive : model.isDead = false)
    (free : model.Free key excluded)
    (fixed :
      FixedTo key { model with choices := choices } (choice.values.without excluded) branches)
    (value : Handle) :
    branches.countP (admits key value) =
      if value ∈ choice.values.without excluded then 1 else 0 := by
  have admits_iff {held : Handle} (member : held ∈ choice.values.without excluded)
      {branch : PartialModel}
      (asserted : assert key.name key.args held { model with choices := choices } = .ok branch) :
      branch.admits key value = true ↔ held = value := by
    have survives : branch.isDead = false := (free.forget choices).isDead_assert
      (HandleSet.mem_without.1 member).2 asserted alive
    exact admits_iff_of_fixed ((sound.forget choices).get?_of_assert asserted survives)
  rw [countP_eq_of_forall₂ (p := fun held => held == value) fixed
    fun held member branch asserted => by rw [admits_iff member asserted, beq_iff_eq]]
  exact (nodup_without _ _).count

/-- **What results of an examination shares out the open values of the first choice**: an open value
is admitted by exactly one of the results, and any other value by none. -/
theorem Examines.countP_admits (examines : Examines rules model verdict after)
    (sound : model.Sound) (alive : model.isDead = false)
    (first : model.choices = (key, choice) :: choices) (value : Handle) :
    (verdict.results after).countP (admits key value) =
      if model.isOpen key choice value = true then 1 else 0 := by
  cases examines with
  | dies hopeless =>
    rw [hopeless.isOpen_eq_false first]
    rfl
  | solution none_left =>
    rw [none_left] at first
    cases first
  | held first' found allowed =>
    obtain ⟨rfl, rfl, rfl⟩ := first_inj first first'
    refine List.countP_singleton.trans (if_congr ?_ rfl rfl)
    rw [isOpen_iff, admits_iff_of_fixed found]
    refine (admits_iff_of_fixed found).trans (and_iff_left_of_imp ?_).symm
    rintro rfl
    exact allowed
  | spent first' free lenient none_open =>
    obtain ⟨rfl, rfl, rfl⟩ := first_inj first first'
    refine List.countP_singleton.trans (if_congr ?_ rfl rfl)
    rw [isOpen_iff, lenient]
    exact (and_iff_left nofun).symm
  | @forced _ _ _ excluded _ _ first' free exhaustive one_open asserted =>
    obtain ⟨rfl, rfl, rfl⟩ := first_inj first first'
    -- The partial model itself is the branch of the only value.
    have fixed : FixedTo key { model with choices := choices } (choice.values.without excluded)
        [after] := by
      rw [one_open]
      exact .cons asserted .nil
    refine (countP_admits_fixedTo sound alive free fixed value).trans (if_congr ?_ rfl rfl)
    exact free.mem_without_iff exhaustive
  | closed first' free exhaustive fixed =>
    obtain ⟨rfl, rfl, rfl⟩ := first_inj first first'
    refine (countP_admits_fixedTo sound alive free fixed value).trans (if_congr ?_ rfl rfl)
    exact free.mem_without_iff exhaustive
  | @opened _ _ _ excluded branches spared _ first' free lenient some_open fixed narrowed =>
    obtain ⟨rfl, rfl, rfl⟩ := first_inj first first'
    have narrows := (sound.forget choices).narrows_constrain (free.forget choices) narrowed
    have spares : spared.admits key value = true ↔
        value ∉ excluded ∧ value ∉ choice.values.without excluded := by
      have found := narrows.get? key.name key.args
      rw [if_pos ⟨rfl, rfl⟩] at found
      rw [admits_iff_of_narrowed found, HandleSet.mem_union, HandleSet.mem_ofList, not_or]
    -- A value that is open is on offer, and admitted by one of the first branches, or it is not,
    -- and admitted by the last one.
    simp only [Verdict.results, List.countP_append, List.countP_singleton, spares,
      countP_admits_fixedTo sound alive free fixed value, isOpen_iff, lenient, free.admits_iff]
    by_cases offered : value ∈ choice.values.without excluded
    · simp [offered, (HandleSet.mem_without.1 offered).2]
    · simp [offered]

/-- **Examining a choice partitions the open values.** Let a living partial model that is attained
be examined with success, and let a choice be left in it. Then an open value of the first choice is
admitted by exactly one of the results, and any other value by none; the partial model dies only if
no value is open; and every result lives, agrees with the partial model on all other tuples and on
all intermediates, and has lost this choice and no other one. -/
theorem Attained.partitions (attained : Attained rules model) (alive : model.isDead = false)
    (first : model.choices = (key, choice) :: choices)
    (examined : model.examine rules = (.ok verdict, after)) :
    (∀ value, (verdict.results after).countP (admits key value) =
        if model.isOpen key choice value = true then 1 else 0) ∧
      (verdict = .dead → ∀ value, model.isOpen key choice value = false) ∧
      ∀ result ∈ verdict.results after, result.isDead = false ∧
        (∀ name args, ¬(name = key.name ∧ args = key.args) →
          result.database.get? name args = model.database.get? name args) ∧
        (∀ name args, result.derives name args = model.derives name args) ∧
        ∀ entry, entry ∈ result.choices ↔ entry ∈ model.choices ∧ entry.1 ≠ key := by
  have examines := examines_of_examine alive examined
  have counted := examines.countP_admits attained.sound alive first
  refine ⟨counted, ?_, fun result member => ?_⟩
  · rintro rfl value
    simpa [Verdict.results] using counted value
  · have leaves := examines.leaves attained.sound alive first result member
    refine ⟨leaves.alive, leaves.get?, fun name args => ?_, fun entry => ?_⟩
    · rw [derives, derives, PartialModel.tuplesOf, PartialModel.tuplesOf, leaves.tuples]
    · rw [leaves.choices, first]
      exact (first ▸ attained.ascending).mem_iff entry

/-- A value that is not on offer is admitted by one branch, and so is one that is. -/
theorem Attained.partitions_offered : ∃ key choice choices verdict after,
    offered.choices = (key, choice) :: choices ∧
      offered.examine offering = (.ok verdict, after) ∧ (verdict.results after).length = 3 ∧
      (verdict.results after).countP (admits key 3) = 1 ∧
      (verdict.results after).countP (admits key 5) = 1 := by
  obtain ⟨choice, verdict, after, first, examined, three, opens⟩ : ∃ choice verdict after,
      offered.choices = [(⟨"c", []⟩, choice)] ∧ offered.examine offering = (.ok verdict, after) ∧
        (verdict.results after).length = 3 ∧
        ∀ value, offered.isOpen ⟨"c", []⟩ choice value = true := by
    refine ⟨_, _, _, rfl, rfl, rfl, fun value => rfl⟩
  obtain ⟨counted, -⟩ := attained_offered.partitions rfl first examined
  refine ⟨_, _, _, _, _, first, examined, three, ?_, ?_⟩
  · rw [counted, if_pos (opens 3)]
  · rw [counted, if_pos (opens 5)]

end PartialModel

end StableModels
