import StableModels.Proofs.Store

/-!
# Handles stand for trees, one for each

A store is filled by interning one shape after the other, where the arguments of a shape are handles
that were issued before it. A **register** is a store together with the record of what was asked of
it, and `StableModels.Register.Leads` is the relation between an earlier register and a later one.

What a handle stands for can be read off without any bound on the depth: `StableModels.Store.Names`
is the relation that goes down from a shape to its arguments. In a sound store it is the same as the
bounded reading (`StableModels.Store.Sound.names_iff`), since arguments have smaller handles.

The main statement, `StableModels.Register.Leads.canonical`, says what this comes to along a run: a
handle that was issued stands for one finite tree, now and later; different handles stand for
different trees; and a look-up finds just the shapes of the record.
-/

namespace StableModels

/-- The term of a shape over the terms of its arguments. -/
def Shape.fill : Shape → List Term → Term
  | unit, _ => .unit
  | int value, _ => .int value
  | bool value, _ => .bool value
  | string text, _ => .string text
  | ref index, _ => .ref index
  | const name _, terms => .const name terms

namespace Store

/-! ### Reading a handle -/

/-- **A handle names a tree** if the store has a shape for it and the handles of the arguments name
the trees of the arguments. -/
inductive Names (store : Store) : Handle → Term → Prop where
  | of_shape {handle : Handle} {shape : Shape} {terms : List Term}
      (found : store.shape? handle = some shape)
      (args : List.Forall₂ (Names store) shape.args terms) : Names store handle (shape.fill terms)

variable {store : Store} {handle : Handle} {shape : Shape} {term : Term}

theorem expandShape_eq (store : Store) (shape : Shape) :
    store.expandShape shape = (shape.args.mapM store.expand).map shape.fill := by
  cases shape <;> rfl

/-- **Reading to the end and reading as deep as the handle allows are one.** -/
theorem Sound.names_iff (sound : store.Sound) :
    store.Names handle term ↔ store.expand handle = some term := by
  induction handle using Nat.strongRecOn generalizing term with
  | ind handle ih =>
    -- The arguments come before the handle, so both readings of them agree.
    have agree {shape : Shape} (found : store.shape? handle = some shape) {terms : List Term} :
        List.Forall₂ store.Names shape.args terms ↔ store.Expands shape.args terms := by
      have below := sound.descending handle shape found
      constructor
      · intro args
        exact ((List.forall₂_and_left _ _).2 ⟨below, args⟩).imp fun arg term h => (ih arg h.1).1 h.2
      · intro args
        exact ((List.forall₂_and_left _ _).2 ⟨below, args⟩).imp fun arg term h => (ih arg h.1).2 h.2
    constructor
    · rintro ⟨found, args⟩
      rw [sound.expand_of_shape? found, expandShape_eq,
        mapM_expand_eq_some_iff.2 ((agree found).1 args), Option.map_some]
    · intro expanded
      obtain ⟨shape, found, hterm⟩ := sound.exists_shape? expanded
      rw [expandShape_eq] at hterm
      obtain ⟨terms, hargs, rfl⟩ := Option.map_eq_some_iff.1 hterm
      exact .of_shape found ((agree found).2 (mapM_expand_eq_some_iff.1 hargs))

theorem intern_of_lookup (found : store.lookup shape = some handle) :
    store.intern shape = (handle, store) := by
  rw [Store.intern, found]

theorem intern_of_fresh (fresh : store.lookup shape = none) :
    store.intern shape = (store.shapes.size, ⟨store.shapes.push shape,
      store.handles.put Shape.compare shape store.shapes.size⟩) := by
  rw [Store.intern, fresh]

/-- **What interning does to the look-up**: it finds the shape at the handle that was answered, and
all others as before. -/
theorem Sound.lookup_intern (sound : store.Sound) (shape other : Shape) :
    (store.intern shape).2.lookup other =
      if other = shape then some (store.intern shape).1 else store.lookup other := by
  cases found : store.lookup shape with
  | some handle =>
    rw [intern_of_lookup found]
    split
    · next heq => rw [heq, found]
    · rfl
  | none =>
    rw [intern_of_fresh found]
    exact OrderedMap.find?_put sound.ordered shape other store.shapes.size

end Store

/-! ### Registers -/

/-- A store beside the record of what was interned in it. -/
structure Register where
  /-- The store. -/
  store : Store
  /-- Each shape that was given, with the handle that was answered. -/
  record : List (Shape × Handle)

namespace Register

/-- A register begins with the reserved shapes. -/
def initial : Register :=
  ⟨.initial, [(.unit, Handle.unit), (.bool true, Handle.true), (.bool false, Handle.false)]⟩

/-- The handles issued so far. -/
def issued (register : Register) : List Handle := register.record.map Prod.snd

/-- The register after one more shape was interned: an integer, a string, a constructor over its
arguments or a reference, new or not. -/
def ask (shape : Shape) (register : Register) : Register :=
  ⟨(register.store.intern shape).2, register.record ++ [(shape, (register.store.intern shape).1)]⟩

/-- The second register comes after the first: shapes were interned whose arguments are handles
issued before them. -/
inductive Leads : Register → Register → Prop where
  /-- Nothing was interned. -/
  | refl (register : Register) : Leads register register
  /-- One more shape was interned. -/
  | ask {first second : Register} (leads : Leads first second) (shape : Shape)
      (known : ∀ arg ∈ shape.args, arg ∈ second.issued) : Leads first (second.ask shape)

/-- The store is sound, and its look-up finds what is on record. -/
structure Kept (register : Register) : Prop where
  /-- The store is sound. -/
  sound : register.store.Sound
  /-- The look-up finds what is on record. -/
  lookup_iff : ∀ shape handle,
    register.store.lookup shape = some handle ↔ (shape, handle) ∈ register.record

theorem kept_initial : initial.Kept where
  sound := Store.sound_initial
  lookup_iff := by
    intro shape handle
    have shapes : Store.initial.shapes = #[.unit, .bool true, .bool false] := by decide
    refine (Store.sound_initial.lookup_iff shape handle).trans ?_
    rw [Store.shape?, shapes]
    rcases handle with _ | _ | _ | handle <;>
      simp [initial, Handle.unit, Handle.true, Handle.false, eq_comm]

variable {register first second : Register} {handle : Handle} {shape : Shape}

theorem Kept.shape?_iff (kept : register.Kept) :
    register.store.shape? handle = some shape ↔ (shape, handle) ∈ register.record :=
  (kept.sound.lookup_iff shape handle).symm.trans (kept.lookup_iff shape handle)

/-- The handles on record are those that the store has a shape for. -/
theorem Kept.mem_issued_iff (kept : register.Kept) :
    handle ∈ register.issued ↔ handle < register.store.size := by
  rw [issued, List.mem_map]
  constructor
  · rintro ⟨⟨shape, handle⟩, member, rfl⟩
    exact Store.lt_size_of_shape? (kept.shape?_iff.2 member)
  · intro hlt
    have found : register.store.shape? handle = some register.store.shapes[handle] :=
      Store.shape?_eq_some_iff_getElem.2 ⟨hlt, rfl⟩
    exact ⟨_, kept.shape?_iff.1 found, rfl⟩

/-- **One more shape is put on record**, and every earlier handle keeps its shape. -/
theorem Kept.ask (kept : register.Kept) (known : ∀ arg ∈ shape.args, arg ∈ register.issued) :
    (register.ask shape).Kept ∧ register.store.Extends (register.ask shape).store := by
  obtain ⟨sound, extension, -⟩ :=
    kept.sound.intern fun arg member => kept.mem_issued_iff.1 (known arg member)
  refine ⟨⟨sound, fun other handle => ?_⟩, extension⟩
  change (register.store.intern shape).2.lookup other = some handle ↔
    (other, handle) ∈ register.record ++ [(shape, (register.store.intern shape).1)]
  rw [kept.sound.lookup_intern, List.mem_append, ← kept.lookup_iff, List.mem_singleton,
    Prod.mk.injEq]
  split
  · next heq =>
    subst heq
    constructor
    · intro answered
      exact Or.inr ⟨rfl, (Option.some.inj answered).symm⟩
    · rintro (found | ⟨-, rfl⟩)
      · -- A shape that was on record already is answered with its handle.
        rw [Store.intern_of_lookup found]
      · rfl
  · next hne => simp [hne]

theorem Leads.kept (leads : Leads first second) (kept : first.Kept) :
    second.Kept ∧ first.store.Extends second.store := by
  induction leads with
  | refl => exact ⟨kept, Store.Extends.refl _⟩
  | ask _ shape known ih =>
    obtain ⟨hkept, extension⟩ := ih
    obtain ⟨hnext, hstep⟩ := hkept.ask known
    exact ⟨hnext, extension.trans hstep⟩

/-- **Handles are canonical.** In a store that was filled from the start, the handles issued are
those below its size. Each has a shape whose arguments have smaller handles, and names a finite
tree, which is what reading it to the end gives and what is displayed; two handles are equal exactly
if their trees are. A look-up finds a shape exactly if it is on record, at the handle behind which
it stands. The first three handles stand for the unit term and the truth values. And whatever is
interned later, the handles issued so far name the trees that they named. -/
theorem Leads.canonical {before after : Register} (early : Leads initial before)
    (late : Leads before after) :
    (∀ handle, handle ∈ before.issued ↔ handle < before.store.size) ∧
      (∀ handle ∈ before.issued, ∃ shape term,
        before.store.shape? handle = some shape ∧ (∀ arg ∈ shape.args, arg < handle) ∧
          before.store.Names handle term ∧ before.store.expand handle = some term ∧
            before.store.display handle = term.render false) ∧
        (∀ handle ∈ before.issued, ∀ other ∈ before.issued,
          handle = other ↔ before.store.expand handle = before.store.expand other) ∧
          (∀ shape handle,
            (before.store.lookup shape = some handle ↔ (shape, handle) ∈ before.record) ∧
              (before.store.lookup shape = some handle ↔
                before.store.shape? handle = some shape)) ∧
            (before.store.expand 0 = some .unit ∧ before.store.expand 1 = some (.bool true) ∧
              before.store.expand 2 = some (.bool false)) ∧
              ∀ handle ∈ before.issued, handle ∈ after.issued ∧
                after.store.expand handle = before.store.expand handle := by
  obtain ⟨kept, -⟩ := early.kept kept_initial
  obtain ⟨later, extension⟩ := late.kept kept
  have sound := kept.sound
  have tree {handle : Handle} (issued : handle ∈ before.issued) :
      ∃ term, before.store.expand handle = some term :=
    sound.exists_expand (kept.mem_issued_iff.1 issued)
  refine ⟨fun _ => kept.mem_issued_iff, ?_, ?_, ?_, ?_, ?_⟩
  · intro handle issued
    obtain ⟨term, expanded⟩ := tree issued
    obtain ⟨shape, found, -⟩ := sound.exists_shape? expanded
    refine ⟨shape, term, found, sound.descending handle shape found, sound.names_iff.2 expanded,
      expanded, ?_⟩
    rw [Store.display, expanded]
  · intro handle hissued other hother
    constructor
    · rintro rfl
      rfl
    · intro same
      obtain ⟨term, expanded⟩ := tree hissued
      exact sound.expand_injective expanded (same.symm.trans expanded)
  · exact fun shape handle => ⟨kept.lookup_iff shape handle, sound.lookup_iff shape handle⟩
  · exact ⟨sound.expand_unit, sound.expand_bool true, sound.expand_bool false⟩
  · intro handle issued
    obtain ⟨term, expanded⟩ := tree issued
    have kept_tree := extension.expand expanded
    exact ⟨later.mem_issued_iff.2 (later.sound.lt_size_of_expand kept_tree),
      kept_tree.trans expanded.symm⟩

/-- A register that knows a successor. -/
def counting : Register := (initial.ask (.const "z" [])).ask (.const "s" [3])

/-- The same register after a pair, in which the successor stands again. -/
def pairing : Register := (counting.ask (.const "pair" [4, 3])).ask (.const "s" [3])

theorem Leads.canonical_pairing :
    Leads initial counting ∧ Leads counting pairing ∧
      (Shape.const "s" [3], 4) ∈ counting.record ∧
        pairing.store.lookup (.const "s" [3]) = some 4 ∧
          pairing.store.display 5 = "pair (s z) z" ∧
            pairing.store.expand 4 = counting.store.expand 4 ∧
              pairing.store.expand 4 ≠ pairing.store.expand 5 := by
  have early : Leads initial counting :=
    ((Leads.refl initial).ask (.const "z" []) (by decide)).ask (.const "s" [3]) (by decide)
  have late : Leads counting pairing :=
    ((Leads.refl counting).ask (.const "pair" [4, 3]) (by decide)).ask (.const "s" [3]) (by decide)
  have together : Leads initial pairing :=
    (early.ask (.const "pair" [4, 3]) (by decide)).ask (.const "s" [3]) (by decide)
  obtain ⟨-, -, -, lookups, -, kept⟩ := early.canonical late
  obtain ⟨-, -, differ, found, -, -⟩ := together.canonical (.refl pairing)
  have recorded : (Shape.const "s" [3], 4) ∈ counting.record := by decide
  refine ⟨early, late, recorded, (found _ _).1.2 (by decide), by decide, (kept 4 (by decide)).2, ?_⟩
  intro same
  exact absurd ((differ 4 (by decide) 5 (by decide)).2 same) (by decide)

end Register

end StableModels
