import StableModels.Proofs.Operations

/-!
# Knowledge only grows

A database lets a tuple be set to anything, whatever it was set to before. That nothing is forgotten
is due to those who set it: a fact is asserted only after a look at what is known of its tuple, and
a tuple is narrowed only if it is not fixed, by more than it was before. So every elementary change
refines the partial model (`StableModels.PartialModel.Change.refines`), dead or alive, and on the
way from one partial model to another by operations, knowledge only grows
(`StableModels.PartialModel.Attained.grows`).
-/

namespace StableModels

namespace PartialModel

variable {rules : RuleSet} {model before after : PartialModel} {name : String}
  {args : List Handle} {value : Handle}

/-! ### Elementary changes preserve soundness -/

/-- Soundness is about the database and the intermediates only. -/
theorem Sound.congr (sound : before.Sound) (database : after.database = before.database)
    (tuples : after.tuples = before.tuples) : after.Sound :=
  ⟨database ▸ sound.database, tuples ▸ sound.ordered, tuples ▸ sound.tries⟩

theorem Sound.constrain {constraint : Constraint} (sound : model.Sound)
    (constrained : model.constrain name args constraint = .ok after) : after.Sound := by
  obtain ⟨database, old, set, rfl⟩ := exists_of_constrain constrained
  exact ⟨sound.database.set set, sound.ordered, sound.tries⟩

theorem Sound.assert (sound : model.Sound) (asserted : model.assert name args value = .ok after) :
    after.Sound := by
  cases assertion_of_assert asserted with
  | known => exact sound
  | kills => exact sound.congr rfl rfl
  | joins _ _ set => exact ⟨sound.database.set set, sound.ordered, sound.tries⟩

theorem Sound.derive (sound : model.Sound) (derived : model.derive rules name args = .ok after) :
    after.Sound := by
  cases derivation_of_derive derived with
  | known => exact sound
  | kills inserted | joins inserted => exact (sound_put sound inserted).congr rfl rfl

theorem Change.sound (change : Change rules before after) (sound : before.Sound) :
    after.Sound := by
  cases change with
  | derive derived => exact sound.derive derived
  | assert asserted => exact sound.assert asserted
  | narrow _ _ narrowed => exact sound.constrain narrowed
  | register | dropNews | forget | kill => exact sound.congr rfl rfl

theorem Attained.sound (attained : Attained rules model) : model.Sound :=
  attained.induct sound_empty fun _ _ sound change => change.sound sound

end PartialModel

/-! ### Tighter constraints -/

/-- The second constraint says all that the first one says: it is the same, or excludes more, or
fixes the tuple to a value that is not excluded. -/
inductive Constraint.Tightens : Constraint → Constraint → Prop where
  /-- It is the same. -/
  | same (constraint : Constraint) : Tightens constraint constraint
  /-- It excludes more. -/
  | narrow {excluded more : HandleSet} (subset : ∀ value ∈ excluded, value ∈ more) :
      Tightens (.noneOf excluded) (.noneOf more)
  /-- It fixes the tuple. -/
  | fix {excluded : HandleSet} {value : Handle} (free : value ∉ excluded) :
      Tightens (.noneOf excluded) (.just value)

theorem Constraint.Tightens.eq_just {value : Handle} {constraint : Constraint}
    (tightens : Tightens (.just value) constraint) : constraint = .just value := by
  cases tightens
  rfl

theorem Constraint.Tightens.of_noneOf {excluded : HandleSet} {constraint : Constraint}
    (tightens : Tightens (.noneOf excluded) constraint) :
    (∃ more, some constraint = some (.noneOf more) ∧ ∀ value ∈ excluded, value ∈ more) ∨
      ∃ value, some constraint = some (.just value) ∧ value ∉ excluded := by
  cases tightens with
  | same => exact Or.inl ⟨excluded, rfl, fun _ => id⟩
  | narrow subset => exact Or.inl ⟨_, rfl, subset⟩
  | fix free => exact Or.inr ⟨_, rfl, free⟩

namespace PartialModel

/-! ### Elementary changes forget nothing -/

/-- Nothing is forgotten if the database and the intermediates are as before. -/
theorem refines_of_eq (alive : after.isDead = false → before.isDead = false)
    (database : after.database = before.database) (tuples : after.tuples = before.tuples) :
    Refines before after where
  alive := alive
  known := by
    rintro (⟨name, args, value⟩ | ⟨name, args⟩) known
    · rwa [mem_known_fact, database]
    · rw [mem_known_tuple] at known ⊢
      rwa [derives, PartialModel.tuplesOf, tuples]
  excluded := by
    intro name args excluded found
    exact Or.inl ⟨excluded, database ▸ found, fun _ => id⟩

theorem refines_kill (reason : DeadEnd) (model : PartialModel) :
    Refines model (model.kill reason) :=
  refines_of_eq (fun survives => by cases survives) rfl rfl

/-- A tuple may be set to any constraint that tightens the one that it has. -/
theorem Sound.refines_set {constraint : Constraint} {database : Database} {old : Option Constraint}
    (sound : model.Sound) (set : model.database.set name args constraint = .ok (database, old))
    (tightens : ∀ old, model.database.get? name args = some old → old.Tightens constraint) :
    Refines model { model with database := database } := by
  have hget := sound.database.get?_set set
  constructor
  case alive => exact id
  case known =>
    rintro (⟨other, others, value⟩ | ⟨other, others⟩) known
    · rw [mem_known_fact] at known ⊢
      rw [hget]
      split
      · next heq =>
        obtain ⟨rfl, rfl⟩ := heq
        rw [(tightens _ known).eq_just]
      · exact known
    · exact known
  case excluded =>
    intro other others excluded found
    rw [hget]
    split
    · next heq =>
      obtain ⟨rfl, rfl⟩ := heq
      exact (tightens _ found).of_noneOf
    · exact Or.inl ⟨excluded, found, fun _ => id⟩

theorem Sound.refines_constrain {constraint : Constraint} (sound : model.Sound)
    (constrained : model.constrain name args constraint = .ok after)
    (tightens : ∀ old, model.database.get? name args = some old → old.Tightens constraint) :
    Refines model after := by
  obtain ⟨database, old, set, rfl⟩ := exists_of_constrain constrained
  exact sound.refines_set set tightens

theorem Sound.refines_assert (sound : model.Sound)
    (asserted : model.assert name args value = .ok after) : Refines model after := by
  cases assertion_of_assert asserted with
  | known => exact .refl model
  | kills => exact refines_kill _ model
  | joins free admitted set =>
    refine (sound.refines_set set fun old found => ?_).trans (refines_of_eq id rfl rfl)
    cases old with
    | just known => exact absurd found (free known)
    | noneOf excluded => exact .fix (admitted excluded found)

theorem Sound.refines_derive (sound : model.Sound)
    (derived : model.derive rules name args = .ok after) : Refines model after := by
  have refines_put {trie : Trie Unit}
      (inserted : (model.tuplesOf name).insert args () = .ok (trie, none)) :
      Refines model { model with tuples := model.tuples.put compare name trie } := by
    refine ⟨id, ?_, fun _ _ excluded found => Or.inl ⟨excluded, found, fun _ => id⟩⟩
    rintro (⟨other, others, value⟩ | ⟨other, others⟩) known
    · exact known
    · exact (derives_put sound inserted other others).2 (Or.inr known)
  cases derivation_of_derive derived with
  | known => exact .refl model
  | kills inserted => exact (refines_put inserted).trans (refines_kill _ _)
  | joins inserted => exact (refines_put inserted).trans (refines_of_eq id rfl rfl)

/-- **Every elementary change refines the partial model**, whether that survives it or not. -/
theorem Change.refines (change : Change rules before after) (sound : before.Sound) :
    Refines before after := by
  cases change with
  | derive derived => exact sound.refines_derive derived
  | assert asserted => exact sound.refines_assert asserted
  | kill reason => exact refines_kill reason before
  | register | dropNews | forget => exact refines_of_eq id rfl rfl
  | narrow free subset narrowed =>
    refine sound.refines_constrain narrowed fun old found => ?_
    rcases free with narrowed | ⟨unknown, -⟩
    · obtain rfl := Option.some.inj (narrowed.symm.trans found)
      exact .narrow subset
    · rw [unknown] at found
      cases found

/-! ### Operations forget nothing -/

/-- What is said of a sound partial model is said of whatever comes of it by elementary changes. -/
theorem Sound.refines_of_changes (sound : before.Sound)
    (changes : Relation.ReflTransGen (Change rules) before after) :
    after.Sound ∧ Refines before after := by
  induction changes with
  | refl => exact ⟨sound, .refl before⟩
  | tail _ change ih =>
    obtain ⟨sound, refines⟩ := ih
    exact ⟨change.sound sound, refines.trans (change.refines sound)⟩

theorem Operates.refines (operates : Operates rules before after) (sound : before.Sound) :
    Refines before after := (sound.refines_of_changes operates.relax).2

theorem Attained.refines {earlier later : PartialModel} (attained : Attained rules earlier)
    (path : Relation.ReflTransGen (Operates rules) earlier later) : Refines earlier later := by
  induction path with
  | refl => exact .refl earlier
  | tail before operates ih => exact ih.trans (operates.refines (attained.trans before).sound)

/-- **Knowledge only grows**: along any path of operations a fixed tuple stays fixed to its value, a
narrowed tuple stays narrowed with at least its exclusions unless it is fixed to a value outside of
them, and a derived tuple stays derived. -/
theorem Attained.grows {earlier later : PartialModel} (attained : Attained rules earlier)
    (path : Relation.ReflTransGen (Operates rules) earlier later) (name : String)
    (args : List Handle) :
    (∀ value, earlier.database.get? name args = some (.just value) →
        later.database.get? name args = some (.just value)) ∧
      (∀ excluded, earlier.database.get? name args = some (.noneOf excluded) →
        (∃ more, later.database.get? name args = some (.noneOf more) ∧
            ∀ value ∈ excluded, value ∈ more) ∨
          ∃ value, later.database.get? name args = some (.just value) ∧ value ∉ excluded) ∧
      (earlier.derives name args = true → later.derives name args = true) := by
  have refines := attained.refines path
  refine ⟨fun value fixed => ?_, refines.excluded name args, fun derived => ?_⟩
  · have known : News.fact name args value ∈ earlier.known := fixed
    exact refines.known known
  · have known : News.tuple name args ∈ earlier.known := derived
    exact refines.known known

/-- A choice is taken off and its tuple is narrowed, and then a host fixes the tuple to a value that
the choice does not offer. -/
theorem Attained.grows_offered : ∃ spared last, Attained offering spared ∧
    Relation.ReflTransGen (Operates offering) spared last ∧
      spared.database.get? "c" [] = some (.noneOf (.ofList [3, 4])) ∧
      (∃ value, last.database.get? "c" [] = some (.just value) ∧
        value ∉ HandleSet.ofList [3, 4]) ∧ last.derives "go" [] = true := by
  obtain ⟨branches, spared, last, rest, examined, narrowed, derived, asserted, fixed⟩ :
      ∃ branches spared last rest,
        offered.examine offering = (.ok (.branch (branches ++ [spared])), rest) ∧
          spared.database.get? "c" [] = some (.noneOf (.ofList [3, 4])) ∧
          spared.derives "go" [] = true ∧ spared.assert "c" [] 5 = .ok last ∧
          last.database.get? "c" [] = some (.just 5) :=
    ⟨[_, _], _, _, _, rfl, rfl, rfl, rfl, rfl⟩
  have attained : Attained offering spared := attained_offered.operate (.branch examined (by simp))
  have path : Relation.ReflTransGen (Operates offering) spared last := .single (.assert asserted)
  obtain ⟨-, excluded, -⟩ := attained.grows path "c" []
  obtain ⟨-, -, derives⟩ := attained.grows path "go" []
  rcases excluded _ narrowed with ⟨more, found, -⟩ | outside
  · rw [fixed] at found
    cases found
  · exact ⟨spared, last, attained, path, narrowed, outside, derives derived⟩

end PartialModel

end StableModels
