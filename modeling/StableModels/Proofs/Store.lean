import Mathlib.Data.List.Forall2
import StableModels.Proofs.OrderedMap
import StableModels.Term.Tree

/-!
# Stores and the trees behind their handles

A store is **sound** if its two tables are inverse to each other, if the arguments of a shape
have smaller handles than the shape itself, and if the reserved handles stand for the reserved
shapes. Interning a shape whose arguments the store knows keeps it sound and never changes what
an earlier handle stands for (`StableModels.Store.Sound.intern`).

In a sound store every known handle has a tree (`StableModels.Store.Sound.exists_expand`), and
equal trees have equal handles (`StableModels.Store.Sound.expand_injective`): this is why the
engine may compare handles where a program speaks of terms. A store that **extends** another one
reads every handle of it in the same way.
-/

namespace StableModels

/-! ### The order of shapes -/

namespace Shape

/-- A shape as one key: its kind, and behind it the content, where a shape of one kind leaves
the places of the others blank. -/
def sortKey : Shape → Nat × Int × Bool × String × String × List Handle × Nat
  | unit => (0, 0, .false, "", "", [], 0)
  | int value => (1, value, .false, "", "", [], 0)
  | bool value => (2, 0, value, "", "", [], 0)
  | string text => (3, 0, .false, text, "", [], 0)
  | const name args => (4, 0, .false, "", name, args, 0)
  | ref index => (5, 0, .false, "", "", [], index)

/-- The lexicographic comparison of sort keys. -/
def compareKeys : Nat × Int × Bool × String × String × List Handle × Nat →
    Nat × Int × Bool × String × String × List Handle × Nat → Ordering :=
  compareLex (compareOn (·.1)) <| compareLex (compareOn (·.2.1)) <|
    compareLex (compareOn (·.2.2.1)) <| compareLex (compareOn (·.2.2.2.1)) <|
      compareLex (compareOn (·.2.2.2.2.1)) <| compareLex (compareOn (·.2.2.2.2.2.1)) <|
        compareOn (·.2.2.2.2.2.2)

/-- Comparing shapes is comparing their sort keys. -/
theorem compare_eq_compareKeys (first second : Shape) :
    first.compare second = compareKeys first.sortKey second.sortKey := by
  cases first <;> cases second <;>
    simp [compare, sortKey, compareKeys, compareLex, compareOn, rank, Std.ReflCmp.compare_self] <;>
      rfl

theorem sortKey_injective {first second : Shape} (heq : first.sortKey = second.sortKey) :
    first = second := by
  cases first <;> cases second <;> simp_all [sortKey]

instance : Std.TransCmp compareKeys := by
  unfold compareKeys
  infer_instance

instance : Std.TransCmp Shape.compare where
  eq_swap := by
    intro first second
    rw [compare_eq_compareKeys, compare_eq_compareKeys]
    exact Std.OrientedCmp.eq_swap
  isLE_trans := by
    intro first second third
    rw [compare_eq_compareKeys, compare_eq_compareKeys, compare_eq_compareKeys]
    exact Std.TransCmp.isLE_trans

instance : Std.LawfulEqCmp Shape.compare where
  compare_self := by
    intro shape
    rw [compare_eq_compareKeys]
    exact Std.ReflCmp.compare_self
  eq_of_compare := by
    intro first second heq
    rw [compare_eq_compareKeys] at heq
    simp only [compareKeys, compareLex_eq_eq, compareOn, Std.LawfulEqCmp.compare_eq_iff_eq] at heq
    obtain ⟨h1, h2, h3, h4, h5, h6, h7⟩ := heq
    exact sortKey_injective (by simp only [Prod.ext_iff]; exact ⟨h1, h2, h3, h4, h5, h6, h7⟩)

/-- The handles of the arguments. -/
def args : Shape → List Handle
  | const _ args => args
  | _ => []

end Shape

/-! ### Terms and their kinds -/

namespace Term

/-- The integer, if it is one. -/
def int? : Term → Option Int
  | int value => some value
  | _ => none

/-- The string, if it is one. -/
def string? : Term → Option String
  | string text => some text
  | _ => none

end Term

/-- Mapping a partial function over a list succeeds exactly if it does at each member. -/
theorem mapM_eq_some_iff {α β : Type} {f : α → Option β} {first : List α} {second : List β} :
    first.mapM f = some second ↔ List.Forall₂ (fun a b => f a = some b) first second := by
  induction first generalizing second with
  | nil => simp [List.forall₂_nil_left_iff, eq_comm]
  | cons a first ih =>
    rw [List.mapM_cons]
    cases hf : f a with
    | none => cases second <;> simp [hf]
    | some b =>
      cases hmap : first.mapM f with
      | none =>
        cases second with
        | nil => simp
        | cons c second => simp [hf, ← ih, hmap]
      | some rest => cases second <;> simp [hf, ← ih, hmap]

/-- In two lists of one length, each member of the first stands beside one of the second. -/
theorem exists_mem_zip {α β : Type} {R : α → β → Prop} {first : List α} {second : List β}
    (related : List.Forall₂ R first second) {a : α} (member : a ∈ first) :
    ∃ b, (a, b) ∈ first.zip second := by
  induction related with
  | nil => cases member
  | @cons a' b first second _ _ ih =>
    rcases List.mem_cons.1 member with rfl | member
    · exact ⟨b, List.mem_cons_self⟩
    · obtain ⟨b', hb'⟩ := ih member
      exact ⟨b', List.mem_cons_of_mem _ hb'⟩

/-- In two lists that are related member by member, each member of the first has a partner. -/
theorem exists_of_mem_left {α β : Type} {R : α → β → Prop} {first : List α} {second : List β}
    (related : List.Forall₂ R first second) {a : α} (member : a ∈ first) :
    ∃ b ∈ second, R a b := by
  induction related with
  | nil => cases member
  | @cons a' b first second hrel _ ih =>
    rcases List.mem_cons.1 member with rfl | member
    · exact ⟨b, List.mem_cons_self, hrel⟩
    · obtain ⟨c, hmem, hrel⟩ := ih member
      exact ⟨c, List.mem_cons_of_mem _ hmem, hrel⟩

/-- In two lists that are related member by member, each member of the second has a partner. -/
theorem exists_of_mem_right {α β : Type} {R : α → β → Prop} {first : List α} {second : List β}
    (related : List.Forall₂ R first second) {b : β} (member : b ∈ second) :
    ∃ a ∈ first, R a b :=
  exists_of_mem_left related.flip member

/-- Mapping a partial function over a list looks at the members of the list only. -/
theorem mapM_congr_of_mem {α β : Type} {f g : α → Option β} {list : List α}
    (heq : ∀ a ∈ list, f a = g a) : list.mapM f = list.mapM g := by
  induction list with
  | nil => rfl
  | cons a list ih =>
    rw [List.mapM_cons, List.mapM_cons, heq a List.mem_cons_self,
      ih fun b member => heq b (List.mem_cons_of_mem a member)]

namespace Store

/-- The tables of the store are inverse to each other, whatever the arguments of its shapes are. -/
structure Indexed (store : Store) : Prop where
  /-- The table of the handles ascends. -/
  ordered : store.handles.Ordered Shape.compare
  /-- The tables are inverse to each other. -/
  lookup_iff : ∀ shape handle, store.lookup shape = some handle ↔ store.shape? handle = some shape

/-- The tables of the store are inverse to each other, and arguments come before the shapes that
have them. -/
structure Coherent (store : Store) : Prop where
  /-- The table of the handles ascends. -/
  ordered : store.handles.Ordered Shape.compare
  /-- The tables are inverse to each other. -/
  lookup_iff : ∀ shape handle, store.lookup shape = some handle ↔ store.shape? handle = some shape
  /-- Arguments have smaller handles. -/
  descending : ∀ handle shape, store.shape? handle = some shape → ∀ arg ∈ shape.args, arg < handle

/-- The store is coherent, and the reserved handles stand for the reserved shapes. -/
structure Sound (store : Store) : Prop extends Coherent store where
  /-- The unit term. -/
  unit : store.shape? Handle.unit = some .unit
  /-- The truth values. -/
  bool : ∀ value, store.shape? (Handle.ofBool value) = some (.bool value)

/-- Whatever the first store knows the second one knows too, under the same handle. -/
def Extends (before after : Store) : Prop :=
  ∀ handle shape, before.shape? handle = some shape → after.shape? handle = some shape

theorem Extends.refl (store : Store) : store.Extends store := fun _ _ found => found

theorem Extends.trans {first second third : Store} (hfirst : first.Extends second)
    (hsecond : second.Extends third) : first.Extends third :=
  fun handle shape found => hsecond handle shape (hfirst handle shape found)

variable {store before after : Store} {handle other : Handle} {handles : List Handle}
  {shape : Shape} {term : Term} {terms : List Term}

theorem shape?_eq_some_iff_getElem :
    store.shape? handle = some shape ↔ ∃ h : handle < store.shapes.size,
      store.shapes[handle] = shape :=
  Array.getElem?_eq_some_iff

theorem lt_size_of_shape? (found : store.shape? handle = some shape) :
    handle < store.shapes.size := (shape?_eq_some_iff_getElem.1 found).1

/-! ### Trees -/

/-- The tree of a shape whose arguments are handles of the store. -/
def expandShape (store : Store) : Shape → Option Term
  | .unit => some .unit
  | .int value => some (.int value)
  | .bool value => some (.bool value)
  | .string text => some (.string text)
  | .ref index => some (.ref index)
  | .const name args => (args.mapM store.expand).map (.const name)

/-- The store reads a list of handles as a list of terms. -/
def Expands (store : Store) (handles : List Handle) (terms : List Term) : Prop :=
  List.Forall₂ (fun handle term => store.expand handle = some term) handles terms

theorem mapM_expand_eq_some_iff : handles.mapM store.expand = some terms ↔
    store.Expands handles terms :=
  mapM_eq_some_iff

/-- Any depth beyond the handle itself is enough to read its tree. -/
theorem Sound.expandWithin_eq (sound : store.Sound) {depth : Nat} (hlt : handle < depth) :
    store.expandWithin depth handle = store.expand handle := by
  -- The arguments of the shape have smaller handles, and so need less depth.
  induction handle using Nat.strongRecOn generalizing depth with
  | ind handle ih =>
    obtain ⟨depth, rfl⟩ := Nat.exists_eq_succ_of_ne_zero (Nat.ne_zero_of_lt hlt)
    rw [expand, expandWithin, expandWithin]
    cases found : store.shape? handle with
    | none => rfl
    | some shape =>
      cases shape with
      | const name args =>
        have hargs : ∀ arg ∈ args,
          store.expandWithin depth arg = store.expandWithin handle arg := by
          intro arg member
          have harg := sound.descending handle _ found arg member
          rw [ih arg harg harg, ih arg harg (Nat.lt_of_lt_of_le harg (Nat.le_of_lt_succ hlt))]
        simp only [mapM_congr_of_mem hargs]
      | _ => rfl

/-- **The tree behind a handle is the tree of its shape.** -/
theorem Sound.expand_eq (sound : store.Sound) :
    store.expand handle = (store.shape? handle).bind store.expandShape := by
  rw [expand, expandWithin]
  cases found : store.shape? handle with
  | none => rfl
  | some shape =>
    cases shape with
    | const name args =>
      have hargs : ∀ arg ∈ args, store.expandWithin handle arg = store.expand arg :=
        fun arg member => sound.expandWithin_eq (sound.descending handle _ found arg member)
      simp only [mapM_congr_of_mem hargs]
      rfl
    | _ => rfl

theorem Sound.expand_of_shape? (sound : store.Sound) (found : store.shape? handle = some shape) :
    store.expand handle = store.expandShape shape := by
  rw [sound.expand_eq, found]
  rfl

/-- A handle with a tree has a shape, whose tree it is. -/
theorem Sound.exists_shape? (sound : store.Sound) (expanded : store.expand handle = some term) :
    ∃ shape, store.shape? handle = some shape ∧ store.expandShape shape = some term := by
  rw [sound.expand_eq] at expanded
  exact Option.bind_eq_some_iff.1 expanded

theorem Sound.lt_size_of_expand (sound : store.Sound) (expanded : store.expand handle = some term) :
    handle < store.shapes.size := by
  obtain ⟨shape, found, -⟩ := sound.exists_shape? expanded
  exact lt_size_of_shape? found

/-- **Every known handle has a tree.** -/
theorem Sound.exists_expand (sound : store.Sound) (hlt : handle < store.shapes.size) :
    ∃ term, store.expand handle = some term := by
  induction handle using Nat.strongRecOn with
  | ind handle ih =>
    have found : store.shape? handle = some store.shapes[handle] :=
      shape?_eq_some_iff_getElem.2 ⟨hlt, rfl⟩
    rw [sound.expand_of_shape? found]
    cases hshape : store.shapes[handle] with
    | const name args =>
      rw [hshape] at found
      have hargs : ∀ arg ∈ args, ∃ term, store.expand arg = some term := fun arg member =>
        have harg := sound.descending handle _ found arg member
        ih arg harg (Nat.lt_trans harg hlt)
      obtain ⟨terms, hterms⟩ : ∃ terms, store.Expands args terms := by
        clear found hshape
        induction args with
        | nil => exact ⟨[], List.Forall₂.nil⟩
        | cons arg args ihargs =>
          obtain ⟨term, hterm⟩ := hargs arg List.mem_cons_self
          obtain ⟨terms, hterms⟩ := ihargs fun arg member =>
            hargs arg (List.mem_cons_of_mem _ member)
          exact ⟨term :: terms, List.Forall₂.cons hterm hterms⟩
      exact ⟨.const name terms,
        by rw [expandShape, mapM_expand_eq_some_iff.2 hterms, Option.map_some]⟩
    | _ => exact ⟨_, rfl⟩

/-- A shape with the tree of a constructor is that constructor, over arguments with the trees of
its arguments. -/
theorem expandShape_eq_const_iff {name : String} :
    store.expandShape shape = some (.const name terms) ↔
      ∃ handles, shape = .const name handles ∧ store.Expands handles terms := by
  cases shape with
  | const actual args =>
    rw [expandShape]
    simp only [Option.map_eq_some_iff, mapM_expand_eq_some_iff]
    constructor
    · rintro ⟨terms, hterms, heq⟩
      obtain ⟨rfl, rfl⟩ := Term.const.inj heq
      exact ⟨args, rfl, hterms⟩
    · rintro ⟨handles, heq, hterms⟩
      obtain ⟨rfl, rfl⟩ := Shape.const.inj heq
      exact ⟨terms, hterms, rfl⟩
  | _ => simp [expandShape]

theorem Expands.exists_of_append {first second : List Handle}
    (expanded : store.Expands (first ++ second) terms) :
    ∃ start rest, terms = start ++ rest ∧ store.Expands first start ∧
      store.Expands second rest := by
  refine ⟨terms.take first.length, terms.drop first.length,
    (List.take_append_drop _ _).symm, ?_, ?_⟩
  · have htake := List.forall₂_take first.length expanded
    rwa [List.take_left] at htake
  · have hdrop := List.forall₂_drop first.length expanded
    rwa [List.drop_left] at hdrop

theorem Expands.const (name : String) (expanded : store.Expands handles terms) :
    store.expandShape (.const name handles) = some (.const name terms) :=
  expandShape_eq_const_iff.2 ⟨handles, rfl, expanded⟩

/-- Handles that are equal wherever their trees are make equal lists. -/
theorem Expands.eq_of_forall_mem {first second : List Handle} (hfirst : store.Expands first terms)
    (hsecond : store.Expands second terms)
    (injective : ∀ handle ∈ first, ∀ other term, store.expand handle = some term →
      store.expand other = some term → handle = other) : first = second := by
  induction hfirst generalizing second with
  | nil =>
    cases hsecond
    rfl
  | cons hterm _ ih =>
    obtain _ | ⟨hother, hrest⟩ := hsecond
    rw [injective _ List.mem_cons_self _ _ hterm hother, ih hrest fun handle member =>
      injective handle (List.mem_cons_of_mem _ member)]

/-- **Equal trees have equal handles.** -/
theorem Sound.expand_injective (sound : store.Sound) (hfirst : store.expand handle = some term)
    (hsecond : store.expand other = some term) : handle = other := by
  induction handle using Nat.strongRecOn generalizing other term with
  | ind handle ih =>
    obtain ⟨first, hshape, hexpand⟩ := sound.exists_shape? hfirst
    obtain ⟨second, hshape', hexpand'⟩ := sound.exists_shape? hsecond
    -- Shapes with one tree are one shape, since the handles of their arguments are equal by
    -- induction.
    have heq : first = second := by
      cases first with
      | const name args =>
        obtain ⟨terms, hterms, rfl⟩ := Option.map_eq_some_iff.1 hexpand
        rw [mapM_expand_eq_some_iff] at hterms
        obtain ⟨args', rfl, hterms'⟩ := expandShape_eq_const_iff.1 hexpand'
        rw [hterms.eq_of_forall_mem hterms' fun arg member other term harg hother =>
          ih arg (sound.descending handle _ hshape arg member) harg hother]
      | _ =>
        -- Shapes without arguments show their content.
        cases second <;>
          simp only [expandShape, Option.map_eq_some_iff, Option.some.injEq] at hexpand hexpand' <;>
            grind
    subst heq
    have hhandle := (sound.lookup_iff _ _).2 hshape
    have hother := (sound.lookup_iff _ _).2 hshape'
    exact Option.some.inj (hhandle.symm.trans hother)

theorem Sound.expands_injective (sound : store.Sound) {first second : List Handle}
    (hfirst : store.Expands first terms) (hsecond : store.Expands second terms) : first = second :=
  hfirst.eq_of_forall_mem hsecond fun _ _ _ _ hhandle hother =>
    sound.expand_injective hhandle hother

/-- One handle has one tree, so a list of handles reads in one way. -/
theorem Expands.unique {first second : List Term} (hfirst : store.Expands handles first)
    (hsecond : store.Expands handles second) : first = second := by
  rw [← mapM_expand_eq_some_iff] at hfirst hsecond
  exact Option.some.inj (hfirst.symm.trans hsecond)

/-! ### Extensions -/

/-- Nothing is read differently in an extension. -/
theorem Extends.expandWithin (extension : before.Extends after) {depth : Nat}
    (expanded : before.expandWithin depth handle = some term) :
    after.expandWithin depth handle = some term := by
  induction depth generalizing handle term with
  | zero => simp [Store.expandWithin] at expanded
  | succ depth ih =>
    rw [Store.expandWithin] at expanded ⊢
    cases found : before.shape? handle with
    | none => simp [found] at expanded
    | some shape =>
      rw [found] at expanded
      rw [extension handle shape found]
      cases shape with
      | const name args =>
        obtain ⟨terms, hterms, rfl⟩ := Option.map_eq_some_iff.1 expanded
        have hmapped : args.mapM (after.expandWithin depth) = some terms :=
          mapM_eq_some_iff.2 ((mapM_eq_some_iff.1 hterms).imp fun _ _ => ih)
        simp [hmapped]
      | _ => exact expanded

theorem Extends.expand (extension : before.Extends after)
    (expanded : before.expand handle = some term) : after.expand handle = some term :=
  extension.expandWithin expanded

theorem Extends.expands (extension : before.Extends after)
    (expanded : before.Expands handles terms) : after.Expands handles terms :=
  expanded.imp fun _ _ => extension.expand

theorem Extends.expandShape (extension : before.Extends after)
    (expanded : before.expandShape shape = some term) : after.expandShape shape = some term := by
  cases shape with
  | const name args =>
    obtain ⟨terms, hterms, rfl⟩ := Option.map_eq_some_iff.1 expanded
    exact (extension.expands (mapM_expand_eq_some_iff.1 hterms)).const name
  | _ => exact expanded

/-! ### Kinds -/

theorem Sound.int?_eq (sound : store.Sound) (expanded : store.expand handle = some term) :
    store.int? handle = term.int? := by
  obtain ⟨shape, found, hterm⟩ := sound.exists_shape? expanded
  rw [int?, found]
  cases shape with
  | const name args =>
    obtain ⟨terms, -, rfl⟩ := Option.map_eq_some_iff.1 hterm
    rfl
  | _ =>
    obtain rfl := Option.some.inj hterm
    rfl

theorem Sound.string?_eq (sound : store.Sound) (expanded : store.expand handle = some term) :
    store.string? handle = term.string? := by
  obtain ⟨shape, found, hterm⟩ := sound.exists_shape? expanded
  rw [string?, found]
  cases shape with
  | const name args =>
    obtain ⟨terms, -, rfl⟩ := Option.map_eq_some_iff.1 hterm
    rfl
  | _ =>
    obtain rfl := Option.some.inj hterm
    rfl

theorem Sound.expand_unit (sound : store.Sound) : store.expand Handle.unit = some .unit :=
  sound.expand_of_shape? sound.unit

theorem Sound.expand_bool (sound : store.Sound) (value : Bool) :
    store.expand (Handle.ofBool value) = some (.bool value) :=
  sound.expand_of_shape? (sound.bool value)

/-! ### Interning -/

/-- The store after a shape was given the next handle. -/
theorem shape?_push (store : Store) (shape : Shape) (handles : OrderedMap Shape Handle) :
    Store.shape? ⟨store.shapes.push shape, handles⟩ handle =
      if handle = store.shapes.size then some shape else store.shape? handle := by
  rw [shape?, shape?, Array.getElem?_push]

theorem Coherent.indexed (coherent : store.Coherent) : store.Indexed :=
  ⟨coherent.ordered, coherent.lookup_iff⟩

/-- **Interning** keeps the tables inverse to each other, extends the store, and answers a handle
that stands for the shape. -/
theorem Indexed.intern (indexed : store.Indexed) (shape : Shape) :
    (store.intern shape).2.Indexed ∧ store.Extends (store.intern shape).2 ∧
      (store.intern shape).2.shape? (store.intern shape).1 = some shape := by
  rw [Store.intern]
  cases found : store.lookup shape with
  | some handle => exact ⟨indexed, Extends.refl store, (indexed.lookup_iff _ _).1 found⟩
  | none =>
    have fresh : ∀ handle, store.shape? handle ≠ some shape := by
      intro handle hshape
      rw [← indexed.lookup_iff, found] at hshape
      cases hshape
    have extension : store.Extends
        ⟨store.shapes.push shape, store.handles.put Shape.compare shape store.shapes.size⟩ := by
      intro handle other hshape
      have hlt := lt_size_of_shape? hshape
      rw [shape?_push, if_neg (Nat.ne_of_lt hlt)]
      exact hshape
    refine ⟨⟨OrderedMap.ordered_put indexed.ordered _ _, ?_⟩, extension, by simp [shape?_push]⟩
    intro other handle
    rw [lookup, OrderedMap.find?_put indexed.ordered, shape?_push]
    -- The new shape has the next handle, which no other shape has; all else is as before.
    by_cases heq : other = shape
    · subst heq
      by_cases hhandle : handle = store.shapes.size
      · simp [hhandle]
      · simp [hhandle, Ne.symm hhandle, fresh handle]
    · rw [if_neg heq]
      refine (indexed.lookup_iff other handle).trans ?_
      by_cases hhandle : handle = store.shapes.size
      · subst hhandle
        have hnone : store.shape? store.shapes.size = none := by simp [shape?]
        simp [hnone, Ne.symm heq]
      · rw [if_neg hhandle]

/-- A shape that the store knows is answered with its handle. -/
theorem Indexed.intern_of_shape? (indexed : store.Indexed)
    (found : store.shape? handle = some shape) : store.intern shape = (handle, store) := by
  rw [Store.intern, (indexed.lookup_iff shape handle).2 found]

/-- Interning a shape whose arguments are known keeps the store coherent. -/
theorem Coherent.intern (coherent : store.Coherent)
    (known : ∀ arg ∈ shape.args, arg < store.shapes.size) :
    (store.intern shape).2.Coherent ∧ store.Extends (store.intern shape).2 ∧
      (store.intern shape).2.shape? (store.intern shape).1 = some shape := by
  obtain ⟨indexed, extension, answered⟩ := coherent.indexed.intern shape
  refine ⟨⟨indexed.ordered, indexed.lookup_iff, ?_⟩, extension, answered⟩
  rw [Store.intern]
  cases found : store.lookup shape with
  | some handle => exact coherent.descending
  | none =>
    intro handle other hshape arg member
    rw [shape?_push] at hshape
    split at hshape
    · next heq =>
      obtain rfl := Option.some.inj hshape
      exact heq ▸ known arg member
    · exact coherent.descending handle other hshape arg member

theorem Sound.intern (sound : store.Sound) (known : ∀ arg ∈ shape.args, arg < store.shapes.size) :
    (store.intern shape).2.Sound ∧ store.Extends (store.intern shape).2 ∧
      (store.intern shape).2.shape? (store.intern shape).1 = some shape := by
  obtain ⟨coherent, extension, found⟩ := sound.toCoherent.intern known
  exact ⟨⟨coherent, extension _ _ sound.unit, fun value => extension _ _ (sound.bool value)⟩,
    extension, found⟩

theorem Sound.expand_intern (sound : store.Sound) (expanded : store.expandShape shape = some term) :
    (store.intern shape).2.Sound ∧ store.Extends (store.intern shape).2 ∧
      (store.intern shape).2.expand (store.intern shape).1 = some term := by
  have known : ∀ arg ∈ shape.args, arg < store.shapes.size := by
    intro arg member
    cases shape with
    | const name args =>
      obtain ⟨terms, hterms, -⟩ := Option.map_eq_some_iff.1 expanded
      obtain ⟨term, -, hterm⟩ := exists_of_mem_left (mapM_expand_eq_some_iff.1 hterms) member
      exact sound.lt_size_of_expand hterm
    | _ => cases member
  obtain ⟨hsound, extension, found⟩ := sound.intern known
  exact ⟨hsound, extension, (hsound.expand_of_shape? found).trans (extension.expandShape expanded)⟩

theorem coherent_empty : Coherent ⟨#[], .empty⟩ where
  ordered := OrderedMap.ordered_empty
  lookup_iff := by simp [lookup, shape?, OrderedMap.find?]
  descending := by simp [shape?]

/-- Interning one shape without arguments after the other keeps the store coherent. -/
theorem Coherent.foldl_intern {shapes : List Shape} (coherent : store.Coherent)
    (closed : ∀ shape ∈ shapes, shape.args = []) :
    (shapes.foldl (fun store shape => (store.intern shape).2) store).Coherent := by
  induction shapes generalizing store with
  | nil => exact coherent
  | cons shape shapes ih =>
    have hclosed := closed shape List.mem_cons_self
    refine ih (coherent.intern (by simp [hclosed])).1 ?_
    intro other member
    exact closed other (List.mem_cons_of_mem _ member)

/-- The store with which every run begins is sound. -/
theorem sound_initial : initial.Sound where
  toCoherent := coherent_empty.foldl_intern (by decide)
  unit := by decide
  bool := by decide

end Store

end StableModels
