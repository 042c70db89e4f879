import StableModels.Proofs.Reachability

/-!
# What stands in the way of a tuple

A trie refuses a key only if a key that it holds is a proper beginning of it or goes on behind it,
and the fault says at which position the two part (`StableModels.Trie.Sound.exists_clash`).

Nothing else can refuse a tuple. Deriving a tuple, asserting a fact and examining a choice fail only
where some tuple of the same name stands in the way (`StableModels.PartialModel.Refuses`), and
planting the seeds, which are tuples without arguments, never fails.
-/

universe u

namespace StableModels

/-! ### Tries -/

namespace Trie

/-- **A stored key stands in the way of another key**: one of the two is a proper beginning of the
other, and the fault tells which and where it ends. -/
inductive Clashes (keys stored : List Handle) : Fault → Prop where
  /-- The stored key goes on where the other one ends. -/
  | endsInside (start : keys <+: stored) (proper : keys ≠ stored) :
      Clashes keys stored (Cause.keyEndsInside keys.length keys.length)
  /-- The stored key ends where the other one goes on. -/
  | passesLeaf (start : stored <+: keys) (proper : stored ≠ keys) :
      Clashes keys stored (Cause.keyPassesLeaf stored.length keys.length)

theorem Clashes.kind_eq {keys stored : List Handle} {fault : Fault}
    (clashes : Clashes keys stored fault) : fault.kind = .invariant := by
  cases clashes <;> rfl

theorem Clashes.ne {keys stored : List Handle} {fault : Fault}
    (clashes : Clashes keys stored fault) : keys ≠ stored := by
  cases clashes with
  | endsInside _ proper => exact proper
  | passesLeaf _ proper => exact proper.symm

variable {α : Type u} {payload : α} {fault : Fault}

/-- Below `passed` positions of a key, what is left of it is refused because of something that is
stored there. -/
theorem exists_of_insertBelow_eq_error {keys : List Handle} (passed : Nat)
    {below? : Option (Trie α)} (sound : ∀ below ∈ below?, below.Sound)
    (refused : insertBelow (passed + keys.length) payload keys below? = .error fault) :
    ∃ below ∈ below?, ∃ stored, (below.find? stored).isSome = true ∧
      ((keys <+: stored ∧ keys ≠ stored ∧
          fault = Cause.keyEndsInside (passed + keys.length) (passed + keys.length)) ∨
        (stored <+: keys ∧ stored ≠ keys ∧
          fault = Cause.keyPassesLeaf (passed + stored.length) (passed + keys.length))) := by
  induction keys generalizing passed below? with
  | nil =>
    rcases below? with _ | (stored | children)
    · cases refused
    · cases refused
    · rw [insertBelow] at refused
      split at refused
      · cases refused
      · next inhabited =>
        obtain rfl := Except.error.inj refused
        -- The node has children, and so something is stored below it.
        obtain ⟨keys, stored, found⟩ := (sound _ rfl).exists_find? (Bool.not_eq_true _ ▸ inhabited)
        refine ⟨_, rfl, keys, by rw [found]; rfl, Or.inl ⟨List.nil_prefix, ?_, rfl⟩⟩
        rintro rfl
        cases found
  | cons key keys ih =>
    have hlength : passed + (key :: keys).length = passed + 1 + keys.length := by
      rw [List.length_cons]
      omega
    rcases below? with _ | (stored | children)
    · rw [insertBelow, hlength] at refused
      split at refused
      · next inner hinner =>
        obtain rfl := Except.error.inj refused
        have nothing : ∀ below ∈ (none : Option (Trie α)), below.Sound := by simp
        obtain ⟨_, absent, -⟩ := ih (passed + 1) nothing hinner
        cases absent
      · cases refused
    · obtain rfl := Except.error.inj refused
      refine ⟨_, rfl, [], rfl, Or.inr ⟨List.nil_prefix, List.cons_ne_nil key keys |>.symm, ?_⟩⟩
      rw [List.length_cons, Nat.add_sub_cancel]
      rfl
    · cases sound _ rfl with
      | node ordered below inhabited =>
        rw [insertBelow, hlength] at refused
        split at refused
        · next inner hinner =>
          obtain rfl := Except.error.inj refused
          have hbelow : ∀ trie ∈ children.find? compare key, trie.Sound := fun trie found =>
            below _ ((OrderedMap.find?_eq_some_iff ordered).1 found)
          obtain ⟨child, hchild, stored, found, clash⟩ := ih (passed + 1) hbelow hinner
          refine ⟨_, rfl, key :: stored, ?_, ?_⟩
          · rw [find?_cons_node, Option.mem_def.1 hchild]
            exact found
          · have hstored : passed + (key :: stored).length = passed + 1 + stored.length := by
              rw [List.length_cons]
              omega
            rw [hlength, hstored]
            refine clash.imp ?_ ?_
            · rintro ⟨start, proper, heq⟩
              exact ⟨List.cons_prefix_cons.2 ⟨rfl, start⟩,
                fun same => proper (List.cons.inj same).2, heq⟩
            · rintro ⟨start, proper, heq⟩
              exact ⟨List.cons_prefix_cons.2 ⟨rfl, start⟩,
                fun same => proper (List.cons.inj same).2, heq⟩
        · cases refused

/-- **A sound trie refuses a key only because of a key that it holds.** -/
theorem Sound.exists_clash {trie : Trie α} (sound : trie.Sound) {keys : List Handle}
    (refused : trie.insert keys payload = .error fault) :
    ∃ stored, (trie.find? stored).isSome = true ∧ Clashes keys stored fault := by
  rw [Trie.insert, ← Nat.zero_add keys.length] at refused
  obtain ⟨below, hbelow, stored, found, clash⟩ :=
    exists_of_insertBelow_eq_error 0 (by simpa using sound) refused
  obtain rfl := Option.some.inj (Option.mem_def.1 hbelow)
  obtain ⟨start, proper, rfl⟩ | ⟨start, proper, rfl⟩ := clash
  · exact ⟨stored, found, by simpa using .endsInside start proper⟩
  · exact ⟨stored, found, by simpa using .passesLeaf start proper⟩

end Trie

/-! ### Databases -/

/-- A database refuses a tuple only because of a tuple of the same predicate. -/
theorem Database.Sound.exists_clash {database : Database} (sound : database.Sound) {name : String}
    {args : List Handle} {constraint : Constraint} {fault : Fault}
    (refused : database.set name args constraint = .error fault) :
    ∃ stored, (database.get? name stored).isSome = true ∧ Trie.Clashes args stored fault := by
  rw [Database.set] at refused
  split at refused
  · next inner hset =>
    obtain rfl := Except.error.inj refused
    rw [Relation.set] at hset
    split at hset
    · next found hinsert =>
      obtain rfl := Except.error.inj hset
      obtain ⟨stored, hstored, clashes⟩ := (sound.getD_relation? name).tuples.exists_clash hinsert
      exact ⟨stored, by rwa [get?_eq_getD], clashes⟩
    · cases hset
  · cases refused

/-! ### Partial models -/

namespace PartialModel

/-- **The partial model refuses a tuple**, because a tuple that it holds under the same name stands
in the way. -/
inductive Refuses (rules : RuleSet) (model : PartialModel) (fault : Fault) : Prop where
  /-- A tuple of an intermediate cannot be derived. -/
  | tuple {name : String} {args stored : List Handle}
      (refused : model.derive rules name args = .error fault)
      (held : model.derives name stored = true) (clashes : Trie.Clashes args stored fault)
  /-- A tuple of a predicate cannot be constrained. -/
  | constraint {name : String} {args stored : List Handle} {constraint : Constraint}
      (refused : model.constrain name args constraint = .error fault)
      (held : (model.database.get? name stored).isSome = true)
      (clashes : Trie.Clashes args stored fault)

variable {rules : RuleSet} {model after : PartialModel} {fault : Fault} {name : String}
  {args : List Handle} {value : Handle} {key : ChoiceKey}

/-- Nothing is refused but for a broken invariant. -/
theorem Refuses.kind_eq (refuses : model.Refuses rules fault) : fault.kind = .invariant := by
  cases refuses with
  | tuple _ _ clashes => exact clashes.kind_eq
  | constraint _ _ clashes => exact clashes.kind_eq

theorem Sound.refuses_of_derive (sound : model.Sound)
    (refused : model.derive rules name args = .error fault) : model.Refuses rules fault := by
  have hrefused := refused
  rw [derive] at hrefused
  split at hrefused
  · next inner hinsert =>
    obtain rfl := Except.error.inj hrefused
    obtain ⟨stored, held, clashes⟩ := (sound.tuplesOf name).exists_clash hinsert
    exact .tuple refused held clashes
  · cases hrefused
  · split at hrefused <;> cases hrefused

theorem Sound.refuses_of_constrain (sound : model.Sound) {constraint : Constraint}
    (refused : model.constrain name args constraint = .error fault) :
    model.Refuses rules fault := by
  have hrefused := refused
  rw [constrain] at hrefused
  split at hrefused
  · next inner hset =>
    obtain rfl := Except.error.inj hrefused
    obtain ⟨stored, held, clashes⟩ := sound.database.exists_clash hset
    exact .constraint refused held clashes
  · cases hrefused

theorem Sound.refuses_of_fix (sound : model.Sound)
    (refused : model.fix name args value = .error fault) : model.Refuses rules fault := by
  rw [fix] at refused
  split at refused
  · next inner hconstrain =>
    obtain rfl := Except.error.inj refused
    exact sound.refuses_of_constrain hconstrain
  · cases refused

theorem Sound.refuses_of_assert (sound : model.Sound)
    (refused : model.assert name args value = .error fault) : model.Refuses rules fault := by
  rw [assert] at refused
  split at refused
  · exact sound.refuses_of_fix refused
  · split at refused <;> cases refused
  · split at refused
    · cases refused
    · exact sound.refuses_of_fix refused

/-! ### Examinations -/

theorem Sound.refuses_of_fixEach (sound : model.Sound) {values : List Handle}
    (refused : model.fixEach key values = .error fault) : model.Refuses rules fault := by
  induction values with
  | nil => cases refused
  | cons value values ih =>
    rw [fixEach] at refused
    split at refused
    · next hassert =>
      obtain rfl := Except.error.inj refused
      exact sound.refuses_of_assert hassert
    · split at refused
      · next hrest =>
        obtain rfl := Except.error.inj refused
        exact ih hrest
      · cases refused

theorem Sound.refuses_of_branches (sound : model.Sound) {exhaustive : Bool} {excluded : HandleSet}
    {opens : List Handle} (refused : model.branches key exhaustive excluded opens = .error fault) :
    model.Refuses rules fault := by
  rw [branches] at refused
  split at refused
  · next hfixed =>
    obtain rfl := Except.error.inj refused
    exact sound.refuses_of_fixEach hfixed
  · split at refused
    · cases refused
    · split at refused
      · next hconstrain =>
        obtain rfl := Except.error.inj refused
        exact sound.refuses_of_constrain hconstrain
      · cases refused

/-- Resolving a choice leaves the partial model as it is if it fails. -/
theorem Sound.refuses_of_resolve (sound : model.Sound) {choice : Choice} {excluded : HandleSet}
    (refused : model.resolve key choice excluded = (.error fault, after)) :
    after.Refuses rules fault := by
  rw [resolve] at refused
  split at refused
  · cases (Prod.mk.inj refused).1
  · cases (Prod.mk.inj refused).1
  · split at refused
    · next hassert =>
      obtain ⟨heq, rfl⟩ := Prod.mk.inj refused
      obtain rfl := Except.error.inj heq
      exact sound.refuses_of_assert hassert
    · cases (Prod.mk.inj refused).1
  · split at refused
    · next hbranches =>
      obtain ⟨heq, rfl⟩ := Prod.mk.inj refused
      obtain rfl := Except.error.inj heq
      exact sound.refuses_of_branches hbranches
    · cases (Prod.mk.inj refused).1

/-- **An examination fails only where a tuple stands in the way**: what it leaves refuses. -/
theorem refuses_of_examine (sound : model.isDead = false → model.Sound)
    (refused : model.examine rules = (.error fault, after)) : after.Refuses rules fault := by
  rw [examine] at refused
  cases alive : model.isDead with
  | true =>
    rw [alive] at refused
    cases (Prod.mk.inj refused).1
  | false =>
    rw [alive, if_neg Bool.false_ne_true] at refused
    split at refused
    · cases (Prod.mk.inj refused).1
    next choices _ =>
    have hsound := (sound alive).forget choices
    simp only at refused
    split at refused
    · split at refused <;> cases (Prod.mk.inj refused).1
    · exact hsound.refuses_of_resolve refused
    · exact hsound.refuses_of_resolve refused

/-! ### Seeds -/

/-- Every tuple that the partial model derives has no arguments. -/
structure Bare (model : PartialModel) : Prop where
  /-- The tries are sound. -/
  sound : model.Sound
  /-- The tuples have no arguments. -/
  nil : ∀ name args, model.derives name args = true → args = []

/-- Deriving a tuple without arguments never fails if all others have none either. -/
theorem Bare.exists_derive (bare : model.Bare) (rules : RuleSet) (name : String) :
    ∃ after, model.derive rules name [] = .ok after ∧ after.Bare := by
  rw [derive]
  cases inserted : (model.tuplesOf name).insert [] () with
  | error fault =>
    obtain ⟨stored, held, clashes⟩ := (bare.sound.tuplesOf name).exists_clash inserted
    exact absurd (bare.nil name stored held).symm clashes.ne
  | ok result =>
    obtain ⟨trie, _ | ⟨⟨⟩⟩⟩ := result
    · have hsound := sound_put bare.sound inserted
      have hnil : ∀ other others,
          derives other others { model with tuples := model.tuples.put compare name trie } = true →
            others = [] := by
        intro other others derived
        rcases (derives_put bare.sound inserted other others).1 derived with ⟨-, rfl⟩ | derived
        · rfl
        · exact bare.nil other others derived
      simp only
      split
      · exact ⟨_, rfl, ⟨hsound.database, hsound.ordered, hsound.tries⟩, hnil⟩
      · exact ⟨_, rfl, ⟨hsound.database, hsound.ordered, hsound.tries⟩, hnil⟩
    · exact ⟨model, rfl, bare⟩

/-- **Planting seeds never fails.** -/
theorem Bare.exists_plant (bare : model.Bare) (rules : RuleSet) (seeds : List String) :
    ∃ after, model.plant rules seeds = .ok after := by
  induction seeds generalizing model with
  | nil => exact ⟨model, rfl⟩
  | cons seed seeds ih =>
    obtain ⟨middle, derived, hmiddle⟩ := bare.exists_derive rules seed
    rw [plant, derived]
    exact ih hmiddle

theorem exists_seeded (rules : RuleSet) : ∃ model, seeded rules = .ok model := by
  have bare : Bare {} := by
    refine ⟨sound_empty, fun name args derived => ?_⟩
    have known : News.tuple name args ∈ known {} := derived
    simp at known
  exact bare.exists_plant rules rules.seeds

end PartialModel

end StableModels
