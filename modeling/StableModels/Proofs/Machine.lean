import Mathlib.Data.Option.Basic
import StableModels.Proofs.Instantiation

/-!
# Runs of the machine in two stores

A run depends on its store only through the trees behind the handles that it is given. To say so,
two runs of the same code are followed side by side, each in a store of its own: as long as they
start from operands and bindings with the same trees, they go through the same steps, and either
both fail with the same fault or both end with outcomes that bind the same slots to the same trees
(`StableModels.Machine.run_agree`).

Hence the code of a rule has one meaning on terms, whichever store it is run in
(`StableModels.Machine.Yields.unique`). A run followed beside itself tells that the store stays
sound and knows every term that an outcome binds (`StableModels.Machine.ensures_run`).
-/

namespace StableModels

/-! ### Two stores side by side -/

/-- Two stores. -/
abbrev Stores := Store × Store

namespace Stores

/-- Both stores are sound. -/
def Sound (stores : Stores) : Prop := stores.1.Sound ∧ stores.2.Sound

/-- Both stores are extended. -/
def Extends (before after : Stores) : Prop := before.1.Extends after.1 ∧ before.2.Extends after.2

theorem Extends.refl (stores : Stores) : stores.Extends stores := ⟨.refl _, .refl _⟩

theorem Extends.trans {first second third : Stores} (hfirst : first.Extends second)
    (hsecond : second.Extends third) : first.Extends third :=
  ⟨hfirst.1.trans hsecond.1, hfirst.2.trans hsecond.2⟩

/-- Two handles, one of either store, with the same tree. -/
def Same (stores : Stores) (first second : Handle) : Prop :=
  ∃ term, stores.1.expand first = some term ∧ stores.2.expand second = some term

/-- Two shapes, one for either store, with the same tree. -/
def SameShape (stores : Stores) (first second : Shape) : Prop :=
  ∃ term, stores.1.expandShape first = some term ∧ stores.2.expandShape second = some term

/-- Two substitutions that bind the same slots to the same trees. -/
def Agree (stores : Stores) (first second : Substitution) : Prop :=
  ∀ slot, Option.Rel stores.Same (first.get? slot) (second.get? slot)

variable {stores after : Stores} {first second other another : Handle}
  {firsts seconds : List Handle} {left right : Substitution}

theorem Same.mono (extension : stores.Extends after) (same : stores.Same first second) :
    after.Same first second :=
  have ⟨term, hfirst, hsecond⟩ := same
  ⟨term, extension.1.expand hfirst, extension.2.expand hsecond⟩

theorem same_all_mono (extension : stores.Extends after)
    (same : List.Forall₂ stores.Same firsts seconds) : List.Forall₂ after.Same firsts seconds :=
  same.imp fun _ _ => Same.mono extension

/-- Comparing handles has the same answer in both stores. -/
theorem Same.eq_iff (sound : stores.Sound) (hfirst : stores.Same first second)
    (hother : stores.Same other another) : first = other ↔ second = another := by
  obtain ⟨term, hterm, hterm'⟩ := hfirst
  obtain ⟨term', hother, hother'⟩ := hother
  constructor
  · rintro rfl
    obtain rfl := Option.some.inj (hterm.symm.trans hother)
    exact sound.2.expand_injective hterm' hother'
  · rintro rfl
    obtain rfl := Option.some.inj (hterm'.symm.trans hother')
    exact sound.1.expand_injective hterm hother

theorem Same.beq_eq (sound : stores.Sound) (hfirst : stores.Same first second)
    (hother : stores.Same other another) : (first == other) = (second == another) := by
  rw [Bool.eq_iff_iff, beq_iff_eq, beq_iff_eq]
  exact hfirst.eq_iff sound hother

theorem Same.int?_eq (sound : stores.Sound) (same : stores.Same first second) :
    stores.1.int? first = stores.2.int? second := by
  obtain ⟨term, hfirst, hsecond⟩ := same
  rw [sound.1.int?_eq hfirst, sound.2.int?_eq hsecond]

theorem Same.string?_eq (sound : stores.Sound) (same : stores.Same first second) :
    stores.1.string? first = stores.2.string? second := by
  obtain ⟨term, hfirst, hsecond⟩ := same
  rw [sound.1.string?_eq hfirst, sound.2.string?_eq hsecond]

theorem exists_expands (same : List.Forall₂ stores.Same firsts seconds) :
    ∃ terms, stores.1.Expands firsts terms ∧ stores.2.Expands seconds terms := by
  induction same with
  | nil => exact ⟨[], .nil, .nil⟩
  | cons hsame _ ih =>
    obtain ⟨term, hfirst, hsecond⟩ := hsame
    obtain ⟨terms, hfirsts, hseconds⟩ := ih
    exact ⟨term :: terms, .cons hfirst hfirsts, .cons hsecond hseconds⟩

theorem sameShape_const (name : String) (same : List.Forall₂ stores.Same firsts seconds) :
    stores.SameShape (.const name firsts) (.const name seconds) :=
  have ⟨terms, hfirsts, hseconds⟩ := exists_expands same
  ⟨.const name terms, hfirsts.const name, hseconds.const name⟩

theorem same_all_of_expands {terms : List Term} (hfirsts : stores.1.Expands firsts terms)
    (hseconds : stores.2.Expands seconds terms) : List.Forall₂ stores.Same firsts seconds := by
  induction hfirsts generalizing seconds with
  | nil =>
    cases hseconds
    exact .nil
  | cons hterm _ ih =>
    obtain _ | ⟨hterm', hrest⟩ := hseconds
    exact .cons ⟨_, hterm, hterm'⟩ (ih hrest)

/-! ### Substitutions side by side -/

theorem Agree.mono (extension : stores.Extends after) (agree : stores.Agree left right) :
    after.Agree left right := by
  intro slot
  have hslot := agree slot
  generalize left.get? slot = bound at hslot ⊢
  generalize right.get? slot = bound' at hslot ⊢
  cases hslot with
  | some same => exact .some (same.mono extension)
  | none => exact .none

theorem agree_blank (stores : Stores) (size size' : Nat) :
    stores.Agree (.blank size) (.blank size') := by
  intro slot
  rw [Substitution.get?_blank, Substitution.get?_blank]
  exact .none

theorem agree_self {store : Store} {substitution : Substitution}
    (known : substitution.Known store) :
    Agree (store, store) substitution substitution := by
  intro slot
  cases bound : substitution.get? slot with
  | none => exact .none
  | some handle =>
    obtain ⟨term, expanded⟩ := known slot handle bound
    exact .some ⟨term, expanded, expanded⟩

theorem Agree.known (agree : stores.Agree left right) : left.Known stores.1 := by
  intro slot handle bound
  have hslot := agree slot
  rw [bound] at hslot
  generalize right.get? slot = bound' at hslot
  obtain ⟨term, expanded, -⟩ | _ := hslot
  exact ⟨term, expanded⟩

theorem Agree.valuation_eq (agree : stores.Agree left right) :
    left.valuation stores.1 = right.valuation stores.2 := by
  funext slot
  rw [Substitution.valuation, Substitution.valuation]
  have hslot := agree slot
  generalize left.get? slot = bound at hslot ⊢
  generalize right.get? slot = bound' at hslot ⊢
  cases hslot with
  | none => rfl
  | some same =>
    obtain ⟨term, hfirst, hsecond⟩ := same
    exact hfirst.trans hsecond.symm

/-- Binding a slot to one tree has the same success in both stores, and the same effect. -/
theorem Agree.bind (sound : stores.Sound) (agree : stores.Agree left right)
    (same : stores.Same first second) (slot : Nat) :
    ∃ flag left' right', left.bind slot first = (flag, left') ∧
      right.bind slot second = (flag, right') ∧ stores.Agree left' right' := by
  suffices (left.bind slot first).1 = (right.bind slot second).1 ∧
      stores.Agree (left.bind slot first).2 (right.bind slot second).2 from
    ⟨(left.bind slot first).1, _, (right.bind slot second).2, rfl, Prod.ext this.1.symm rfl, this.2⟩
  have hslot := agree slot
  cases hleft : left.get? slot with
  | none =>
    cases hright : right.get? slot with
    | some bound => rw [hleft, hright] at hslot; cases hslot
    | none =>
      refine ⟨by rw [Substitution.bind, Substitution.bind, hleft, hright], ?_⟩
      intro other
      rw [Substitution.get?_bind first hleft, Substitution.get?_bind second hright]
      split
      · exact .some same
      · exact agree other
  | some bound =>
    cases hright : right.get? slot with
    | none => rw [hleft, hright] at hslot; cases hslot
    | some bound' =>
      rw [hleft, hright] at hslot
      obtain hbound | _ := hslot
      -- A bound slot accepts the handle that it has, and equal trees have equal handles in both
      -- stores.
      rw [Substitution.bind, Substitution.bind, hleft, hright]
      exact ⟨hbound.beq_eq sound same, agree⟩

theorem Agree.bindAll (sound : stores.Sound) (slots : List Nat) (agree : stores.Agree left right)
    (same : List.Forall₂ stores.Same firsts seconds) :
    (left.bindAll slots firsts).1 = (right.bindAll slots seconds).1 ∧
      stores.Agree (left.bindAll slots firsts).2 (right.bindAll slots seconds).2 := by
  induction same generalizing slots left right with
  | nil => cases slots <;> exact ⟨rfl, agree⟩
  | @cons first second firsts seconds hsame _ ih =>
    cases slots with
    | nil => exact ⟨rfl, agree⟩
    | cons slot slots =>
      obtain ⟨flag, left', right', hleft, hright, hagree⟩ := agree.bind sound hsame slot
      rw [Substitution.bindAll, Substitution.bindAll, hleft, hright]
      cases flag with
      | true => exact ih slots hagree
      | false => exact ⟨rfl, hagree⟩

end Stores

/-! ### Computations side by side -/

namespace Interning

/-- Run in the two stores, the computations either have related results or fail with the same
fault; both stores stay sound and are extended. -/
def Agree {α β : Type} (first : Interning α) (second : Interning β) (stores : Stores)
    (related : Stores → α → β → Prop) : Prop :=
  match first stores.1, second stores.2 with
  | .ok result left, .ok result' right =>
    Stores.Sound (left, right) ∧ stores.Extends (left, right) ∧ related (left, right) result result'
  | .error fault left, .error fault' right =>
    Stores.Sound (left, right) ∧ stores.Extends (left, right) ∧ fault = fault'
  | _, _ => False

variable {α β γ δ : Type} {stores : Stores}

theorem Agree.pure {result : α} {result' : β} {related : Stores → α → β → Prop}
    (sound : stores.Sound) (holds : related stores result result') :
    Agree (Pure.pure result) (Pure.pure result') stores related :=
  ⟨sound, .refl stores, holds⟩

theorem Agree.fail {cause : Cause} {related : Stores → α → β → Prop} (sound : stores.Sound) :
    Agree (Interning.fail cause) (Interning.fail cause) stores related :=
  ⟨sound, .refl stores, rfl⟩

theorem Agree.bind {first : Interning α} {second : Interning β} {next : α → Interning γ}
    {next' : β → Interning δ} {middle : Stores → α → β → Prop} {related : Stores → γ → δ → Prop}
    (agree : Agree first second stores middle)
    (continues : ∀ result result' after, Stores.Sound after → stores.Extends after →
      middle after result result' → Agree (next result) (next' result') after related) :
    Agree (first >>= next) (second >>= next') stores related := by
  rw [Agree] at agree
  cases hfirst : first stores.1 with
  | error fault left =>
    cases hsecond : second stores.2 with
    | ok result' right => rw [hfirst, hsecond] at agree; exact agree.elim
    | error fault' right =>
      rw [hfirst, hsecond] at agree
      rw [Agree, bind_of_error hfirst, bind_of_error hsecond]
      exact agree
  | ok result left =>
    cases hsecond : second stores.2 with
    | error fault' right => rw [hfirst, hsecond] at agree; exact agree.elim
    | ok result' right =>
      rw [hfirst, hsecond] at agree
      obtain ⟨hsound, extension, hmiddle⟩ := agree
      have hnext := continues result result' (left, right) hsound extension hmiddle
      rw [Agree] at hnext
      rw [Agree, bind_of_ok hfirst, bind_of_ok hsecond]
      generalize next result left = outcome at hnext ⊢
      generalize next' result' right = outcome' at hnext ⊢
      cases outcome <;> cases outcome' <;> simp only at hnext ⊢
      · exact ⟨hnext.1, extension.trans hnext.2.1, hnext.2.2⟩
      · exact ⟨hnext.1, extension.trans hnext.2.1, hnext.2.2⟩

/-- What the stores look like may be asked on the way. -/
theorem Agree.get {next : Store → Interning α} {next' : Store → Interning β}
    {related : Stores → α → β → Prop}
    (continues : Agree (next stores.1) (next' stores.2) stores related) :
    Agree (MonadState.get >>= next) (MonadState.get >>= next') stores related :=
  continues

/-- A computation that is followed beside itself: what its two results have in common describes the
one result. -/
theorem Agree.ensures {compute : Interning α} {store : Store} {related : Stores → α → α → Prop}
    (agree : Agree compute compute (store, store) related) :
    compute.Ensures store fun result after => related (after, after) result result := by
  rw [Agree] at agree
  rw [Interning.Ensures, StableModels.Ensures]
  cases computed : compute store with
  | error fault after =>
    rw [computed] at agree
    exact ⟨agree.1.1, agree.2.1.1⟩
  | ok result after =>
    rw [computed] at agree
    exact ⟨agree.1.1, agree.2.1.1, agree.2.2⟩

theorem agree_intern {first second : Shape} (sound : stores.Sound)
    (same : stores.SameShape first second) :
    Agree (intern first) (intern second) stores Stores.Same := by
  obtain ⟨term, hfirst, hsecond⟩ := same
  obtain ⟨hsound, extension, hterm⟩ := sound.1.expand_intern hfirst
  obtain ⟨hsound', extension', hterm'⟩ := sound.2.expand_intern hsecond
  exact ⟨⟨hsound, hsound'⟩, ⟨extension, extension'⟩, term, hterm, hterm'⟩

end Interning

open Interning

/-! ### Ground patterns -/

namespace Pattern

mutual

theorem agree_intern : (pattern : Pattern) → {stores : Stores} → stores.Sound →
    Agree pattern.intern pattern.intern stores Stores.Same
  | .unit, _, sound => .pure sound ⟨.unit, sound.1.expand_unit, sound.2.expand_unit⟩
  | .bool value, _, sound =>
    .pure sound ⟨.bool value, sound.1.expand_bool value, sound.2.expand_bool value⟩
  | .int value, _, sound => Interning.agree_intern sound ⟨.int value, rfl, rfl⟩
  | .string text, _, sound => Interning.agree_intern sound ⟨.string text, rfl, rfl⟩
  | .ref index, _, sound => Interning.agree_intern sound ⟨.ref index, rfl, rfl⟩
  | .var slot, _, sound => .fail sound
  | .wildcard, _, sound => .fail sound
  | .const name args, _, sound => by
    rw [Pattern.intern]
    refine (agree_internAll args sound).bind ?_
    intro handles handles' after hsound _ same
    exact Interning.agree_intern hsound (Stores.sameShape_const name same)

theorem agree_internAll : (patterns : List Pattern) → {stores : Stores} → stores.Sound →
    Agree (internAll patterns) (internAll patterns) stores fun stores => List.Forall₂ stores.Same
  | [], _, sound => .pure sound .nil
  | pattern :: patterns, _, sound => by
    rw [internAll]
    refine (agree_intern pattern sound).bind ?_
    intro handle handle' middle hsound _ same
    refine (agree_internAll patterns hsound).bind ?_
    intro handles handles' after hsound' extension rest
    exact .pure hsound' (.cons (same.mono extension) rest)

end

end Pattern

/-! ### Operators -/

namespace Machine

variable {stores : Stores} {first second other another : Handle} {operands operands' : List Handle}
  {left right : Substitution}

theorem mapM_eq_of_forall₂ {α β γ : Type} {f : α → Option γ} {g : β → Option γ} {first : List α}
    {second : List β} (same : List.Forall₂ (fun a b => f a = g b) first second) :
    first.mapM f = second.mapM g := by
  induction same with
  | nil => rfl
  | cons heq _ ih => rw [List.mapM_cons, List.mapM_cons, heq, ih]

theorem ints?_eq (sound : stores.Sound) (same : List.Forall₂ stores.Same operands operands') :
    ints? stores.1 operands = ints? stores.2 operands' :=
  mapM_eq_of_forall₂ (same.imp fun _ _ hsame => hsame.int?_eq sound)

theorem strings?_eq (sound : stores.Sound) (same : List.Forall₂ stores.Same operands operands') :
    strings? stores.1 operands = strings? stores.2 operands' :=
  mapM_eq_of_forall₂ (same.imp fun _ _ hsame => hsame.string?_eq sound)

theorem related_eq (sound : stores.Sound) (relation : Ordering → Bool)
    (hfirst : stores.Same first second) (hother : stores.Same other another) :
    related relation stores.1 first other = related relation stores.2 second another := by
  rw [related, related, hfirst.int?_eq sound, hother.int?_eq sound]

/-- Shapes that are made of the same content in both stores have the same tree, if they have for
each content, and so with shapes that need not exist. -/
theorem rel_sameShape_map {α : Type} {content content' : Option α} (heq : content = content')
    {shape : α → Shape} (same : ∀ value, stores.SameShape (shape value) (shape value)) :
    Option.Rel stores.SameShape (content.map shape) (content'.map shape) := by
  subst heq
  cases content with
  | none => exact .none
  | some value => exact .some (same value)

theorem rel_sameShape_bind {α : Type} {content content' : Option α} (heq : content = content')
    {shape shape' : α → Option Shape}
    (same : ∀ value, Option.Rel stores.SameShape (shape value) (shape' value)) :
    Option.Rel stores.SameShape (content.bind shape) (content'.bind shape') := by
  subst heq
  cases content with
  | none => exact .none
  | some value => exact same value

/-- An operator has results with the same tree in both stores, or none in either. -/
theorem rel_result? (sound : stores.Sound) (operator : Instruction)
    (same : List.Forall₂ stores.Same operands operands') :
    Option.Rel stores.SameShape (result? stores.1 operator operands)
      (result? stores.2 operator operands') := by
  cases operator with
  | plus | times => exact rel_sameShape_map (ints?_eq sound same) fun _ => ⟨_, rfl, rfl⟩
  | concat arity => exact rel_sameShape_map (strings?_eq sound same) fun _ => ⟨_, rfl, rfl⟩
  | build name arity => exact .some (Stores.sameShape_const name same)
  | minus =>
    obtain _ | ⟨hfirst, _ | ⟨hsecond, _ | _⟩⟩ := same
    · exact .none
    · exact .none
    · refine rel_sameShape_bind (hfirst.int?_eq sound) fun a => ?_
      exact rel_sameShape_bind (hsecond.int?_eq sound) fun b => .some ⟨_, rfl, rfl⟩
    · exact .none
  | natZero =>
    obtain _ | _ := same
    · exact .some ⟨_, rfl, rfl⟩
    · exact .none
  | natSucc | natPred =>
    obtain _ | ⟨hfirst, _ | _⟩ := same
    · exact .none
    · refine rel_sameShape_bind (hfirst.int?_eq sound) fun value => ?_
      split
      · exact .none
      · exact .some ⟨_, rfl, rfl⟩
    · exact .none
  | _ => exact .none

/-! ### Splits -/

theorem template?_eq (sound : stores.Sound) (agree : stores.Agree left right)
    (parts : List SplitPart) :
    template? stores.1 left parts = template? stores.2 right parts := by
  induction parts with
  | nil => rfl
  | cons part parts ih =>
    cases part with
    | literal text => rw [template?, template?, ih]
    | piece slot =>
      rw [template?, template?, ih]
      have hslot := agree slot
      generalize left.get? slot = bound at hslot ⊢
      generalize right.get? slot = bound' at hslot ⊢
      cases hslot with
      | none => rfl
      | some same => simp only [same.string?_eq sound]

theorem rows?_eq (sound : stores.Sound) (agree : stores.Agree left right)
    (same : stores.Same first second) (parts : List SplitPart) :
    rows? stores.1 parts left first = rows? stores.2 parts right second := by
  rw [rows?, rows?, same.string?_eq sound, template?_eq sound agree]

theorem agree_bindRow (row : List (Nat × List Char)) {stores : Stores} {left right : Substitution}
    (sound : stores.Sound) (agree : stores.Agree left right) :
    Interning.Agree (bindRow row left) (bindRow row right) stores
      fun stores => Option.Rel stores.Agree := by
  induction row generalizing stores left right with
  | nil => exact .pure sound (.some agree)
  | cons entry row ih =>
    obtain ⟨slot, text⟩ := entry
    rw [bindRow, bindRow]
    have hshape : stores.SameShape (.string (String.ofList text)) (.string (String.ofList text)) :=
      ⟨_, rfl, rfl⟩
    refine (agree_intern sound hshape).bind ?_
    intro handle handle' after hsound extension same
    obtain ⟨flag, left', right', hleft, hright, hagree⟩ :=
      (agree.mono extension).bind hsound same slot
    rw [hleft, hright]
    cases flag with
    | true => exact ih hsound hagree
    | false => exact .pure hsound .none

/-! ### Steps -/

/-- What an instruction leads to, side by side. -/
inductive Progress.Agree (stores : Stores) : Progress → Progress → Prop where
  /-- Both runs end. -/
  | stop : Agree stores .stop .stop
  /-- Both runs go on. -/
  | next {stack stack' : List Handle} {left right : Substitution}
      (same : List.Forall₂ stores.Same stack stack') (agree : stores.Agree left right) :
      Agree stores (.next stack left) (.next stack' right)
  /-- Both runs go on once for each row. -/
  | fork {stack stack' : List Handle} {left right : Substitution}
      {rows : List (List (Nat × List Char))} (same : List.Forall₂ stores.Same stack stack')
      (agree : stores.Agree left right) :
      Agree stores (.fork stack left rows) (.fork stack' right rows)

theorem Progress.agree_guard {stack stack' : List Handle} {holds holds' : Bool}
    (heq : holds = holds') (same : List.Forall₂ stores.Same stack stack')
    (agree : stores.Agree left right) :
    Progress.Agree stores (.guard holds stack left) (.guard holds' stack' right) := by
  subst heq
  cases holds with
  | true => exact .next same agree
  | false => exact .stop

/-- What `perform` does for every instruction without a case of its own, also for one with the wrong
number of operands: it computes the shape of the result, if there is one. -/
def compute (stack : List Handle) (substitution : Substitution) (operator : Instruction)
    (operands : List Handle) : Interning Progress := do
  match result? (← get) operator operands with
  | some shape =>
    let handle ← Interning.intern shape
    pure (.next (handle :: stack) substitution)
  | none => pure .stop

theorem agree_compute (sound : stores.Sound) (operator : Instruction) {stack stack' : List Handle}
    (same : List.Forall₂ stores.Same stack stack') (agree : stores.Agree left right)
    (operands_same : List.Forall₂ stores.Same operands operands') :
    Interning.Agree (compute stack left operator operands) (compute stack' right operator operands')
      stores Progress.Agree := by
  refine .get ?_
  have hresult := rel_result? sound operator operands_same
  generalize result? stores.1 operator operands = result at hresult ⊢
  generalize result? stores.2 operator operands' = result' at hresult ⊢
  cases hresult with
  | none => exact .pure sound .stop
  | some hshape =>
    refine (agree_intern sound hshape).bind ?_
    intro handle handle' after hsound extension hsame
    exact .pure hsound (.next (.cons hsame (Stores.same_all_mono extension same))
      (agree.mono extension))

/-- The tests: what they find out about two operands in a store. -/
def test? : Instruction → Option (Store → Handle → Handle → Bool)
  | .equal => some fun _ first second => first == second
  | .notEqual => some fun _ first second => first != second
  | .gt => some (related Ordering.isGT)
  | .geq => some (related Ordering.isGE)
  | .lt => some (related Ordering.isLT)
  | .leq => some (related Ordering.isLE)
  | _ => none

section Tests

variable {operator : Instruction} {test : Store → Handle → Handle → Bool}

/-- A test of two operands is a guard. -/
theorem perform_of_test? (tests : test? operator = some test) (position : Nat)
    (stack : List Handle) (substitution : Substitution) (first second : Handle) :
    perform position stack substitution operator [first, second] =
      (do pure (.guard (test (← get) first second) stack substitution)) := by
  cases operator <;> cases tests <;> rfl

/-- With another number of operands a test has nothing to compute. -/
theorem perform_eq_compute_of_test? (tests : test? operator = some test) (position : Nat)
    (stack : List Handle) (substitution : Substitution) (length_ne : operands.length ≠ 2) :
    perform position stack substitution operator operands =
      compute stack substitution operator operands := by
  obtain _ | ⟨first, _ | ⟨second, _ | ⟨third, rest⟩⟩⟩ := operands
  · cases operator <;> cases tests <;> rfl
  · cases operator <;> cases tests <;> rfl
  · exact absurd rfl length_ne
  · cases operator <;> cases tests <;> rfl

/-- A test finds out the same about operands with the same trees. -/
theorem test_eq (tests : test? operator = some test) (sound : stores.Sound)
    (hfirst : stores.Same first second) (hother : stores.Same other another) :
    test stores.1 first other = test stores.2 second another := by
  cases operator with
  | equal =>
    cases tests
    exact hfirst.beq_eq sound hother
  | notEqual =>
    cases tests
    exact congrArg (!·) (hfirst.beq_eq sound hother)
  | gt | geq | lt | leq =>
    cases tests
    exact related_eq sound _ hfirst hother
  | _ => cases tests

theorem agree_test (tests : test? operator = some test) (sound : stores.Sound) (position : Nat)
    {stack stack' : List Handle} (same : List.Forall₂ stores.Same stack stack')
    (agree : stores.Agree left right)
    (operands_same : List.Forall₂ stores.Same operands operands') :
    Interning.Agree (perform position stack left operator operands)
      (perform position stack' right operator operands') stores Progress.Agree := by
  by_cases pair : operands.length = 2
  · obtain ⟨first, other, rfl⟩ := List.length_eq_two.1 pair
    obtain _ | ⟨hfirst, _ | ⟨hother, _ | _⟩⟩ := operands_same
    rw [perform_of_test? tests, perform_of_test? tests]
    exact .get (.pure sound (Progress.agree_guard (test_eq tests sound hfirst hother) same agree))
  · rw [perform_eq_compute_of_test? tests position stack left pair,
      perform_eq_compute_of_test? tests position stack' right (operands_same.length_eq ▸ pair)]
    exact agree_compute sound operator same agree operands_same

end Tests

theorem agree_perform (sound : stores.Sound) (position : Nat) (instruction : Instruction)
    {stack stack' : List Handle} (same : List.Forall₂ stores.Same stack stack')
    (agree : stores.Agree left right)
    (operands_same : List.Forall₂ stores.Same operands operands') :
    Interning.Agree (perform position stack left instruction operands)
      (perform position stack' right instruction operands') stores Progress.Agree := by
  have operate (operator : Instruction) := agree_compute sound operator same agree operands_same
  cases instruction with
  | const value =>
    refine (Pattern.agree_intern value sound).bind ?_
    intro handle handle' after hsound extension hsame
    exact .pure hsound (.next (.cons hsame (Stores.same_all_mono extension same))
      (agree.mono extension))
  | load slot =>
    rw [perform, perform]
    have hslot := agree slot
    generalize left.get? slot = bound at hslot ⊢
    generalize right.get? slot = bound' at hslot ⊢
    cases hslot with
    | none => exact .fail sound
    | some hsame => exact .pure sound (.next (.cons hsame same) agree)
  | store slot =>
    obtain _ | ⟨hoperand, _ | _⟩ := operands_same
    · exact operate (.store slot)
    · obtain ⟨flag, left', right', hleft, hright, hagree⟩ := agree.bind sound hoperand slot
      rw [perform, perform, hleft, hright]
      cases flag with
      | true => exact .pure sound (.next same hagree)
      | false => exact .pure sound .stop
    · exact operate (.store slot)
  | boolTrue =>
    exact .pure sound
      (.next (.cons ⟨_, sound.1.expand_bool true, sound.2.expand_bool true⟩ same) agree)
  | boolFalse =>
    exact .pure sound
      (.next (.cons ⟨_, sound.1.expand_bool false, sound.2.expand_bool false⟩ same) agree)
  | equal | notEqual | gt | geq | lt | leq =>
    exact agree_test rfl sound position same agree operands_same
  | split parts =>
    obtain _ | ⟨hsubject, _ | _⟩ := operands_same
    · exact operate (.split parts)
    · refine .get ?_
      rw [rows?_eq sound agree hsubject]
      cases rows? stores.2 parts right _ with
      | none => exact .pure sound .stop
      | some rows => exact .pure sound (.fork same agree)
    · exact operate (.split parts)
  | fail => exact .pure sound .stop
  | plus arity => exact operate (.plus arity)
  | minus => exact operate .minus
  | times arity => exact operate (.times arity)
  | natZero => exact operate .natZero
  | natSucc => exact operate .natSucc
  | natPred => exact operate .natPred
  | build name arity => exact operate (.build name arity)
  | concat arity => exact operate (.concat arity)

theorem agree_step (sound : stores.Sound) (position : Nat) (instruction : Instruction)
    {stack stack' : List Handle} (same : List.Forall₂ stores.Same stack stack')
    (agree : stores.Agree left right) :
    Interning.Agree (step position instruction stack left) (step position instruction stack' right)
      stores Progress.Agree := by
  rw [step, step, same.length_eq]
  split
  · have operands_same := List.forall₂_reverse_iff.2 (List.forall₂_take instruction.pops same)
    exact agree_perform sound position instruction (List.forall₂_drop instruction.pops same) agree
      operands_same
  · exact .fail sound

/-! ### Runs -/

/-- The outcomes of two runs, one by one. -/
abbrev OutcomesAgree (stores : Stores) : List Substitution → List Substitution → Prop :=
  List.Forall₂ stores.Agree

theorem OutcomesAgree.mono {after : Stores} (extension : stores.Extends after)
    {outcomes outcomes' : List Substitution} (agree : OutcomesAgree stores outcomes outcomes') :
    OutcomesAgree after outcomes outcomes' :=
  agree.imp fun _ _ => Stores.Agree.mono extension

theorem OutcomesAgree.valuations_eq {outcomes outcomes' : List Substitution}
    (agree : OutcomesAgree stores outcomes outcomes') :
    (outcomes.map fun outcome => outcome.valuation stores.1) =
      outcomes'.map fun outcome => outcome.valuation stores.2 := by
  induction agree with
  | nil => rfl
  | cons hfirst _ ih => rw [List.map_cons, List.map_cons, hfirst.valuation_eq, ih]

/-- The results for the members of a list agree if those for each member do, in all stores that
extend these. -/
theorem agree_collect {α : Type} {results results' : α → Interning (List Substitution)}
    {stores : Stores} (sound : stores.Sound) (members : List α)
    (agree : ∀ member after, Stores.Sound after → stores.Extends after →
      Interning.Agree (results member) (results' member) after OutcomesAgree) :
    Interning.Agree (collect results members) (collect results' members) stores OutcomesAgree := by
  induction members generalizing stores with
  | nil => exact .pure sound .nil
  | cons member members ih =>
    rw [collect, collect]
    refine (agree member stores sound (.refl stores)).bind ?_
    intro first first' middle hsound extension hfirst
    have hrest := ih hsound fun member after hsound' extension' =>
      agree member after hsound' (extension.trans extension')
    refine hrest.bind ?_
    intro rest rest' after hsound' extension' hrest
    exact .pure hsound' (List.rel_append (hfirst.mono extension') hrest)

theorem agree_outcomes (code : List Instruction) {stores : Stores} (sound : stores.Sound)
    (position : Nat) {stack stack' : List Handle} {left right : Substitution}
    (same : List.Forall₂ stores.Same stack stack') (agree : stores.Agree left right) :
    Interning.Agree (outcomes code position stack left) (outcomes code position stack' right) stores
      OutcomesAgree := by
  induction code generalizing stores position stack stack' left right with
  | nil => exact .pure sound (.cons agree .nil)
  | cons instruction code ih =>
    rw [outcomes, outcomes]
    refine (agree_step sound position instruction same agree).bind ?_
    rintro _ _ middle hsound - (_ | ⟨hsame, hagree⟩ | ⟨hsame, hagree⟩)
    · exact .pure hsound .nil
    · exact ih hsound (position + 1) hsame hagree
    · -- Each row starts in the store that the rows before it have left.
      refine agree_collect hsound _ ?_
      intro row after hsound' extension
      refine (agree_bindRow row hsound' (hagree.mono extension)).bind ?_
      rintro _ _ last hsound'' extension' (hrow | _)
      · have hsame' := Stores.same_all_mono (extension.trans extension') hsame
        exact ih hsound'' (position + 1) hsame' hrow
      · exact .pure hsound'' .nil

/-- **A run depends on the trees only**: from substitutions that bind the same slots to the same
trees it has the same faults and the same outcomes. -/
theorem run_agree (code : List Instruction) (sound : stores.Sound)
    (agree : stores.Agree left right) :
    Interning.Agree (run code left) (run code right) stores OutcomesAgree :=
  agree_outcomes code sound 0 .nil agree

/-- A run leaves the store sound, and knows every term that an outcome binds. -/
theorem ensures_run {store : Store} (code : List Instruction) (sound : store.Sound)
    {substitution : Substitution} (known : substitution.Known store) :
    (run code substitution).Ensures store fun outcomes after =>
      ∀ outcome ∈ outcomes, outcome.Known after := by
  have sounds : Stores.Sound (store, store) := ⟨sound, sound⟩
  refine (run_agree code sounds (Stores.agree_self known)).ensures.mono ?_
  intro outcomes after _ _ agree outcome member
  obtain ⟨other, -, hother⟩ := exists_of_mem_left agree member
  exact hother.known

/-- Slots that can be bound to the members of a tuple in one store can be so bound in any. -/
theorem Yields.exists_bindTuple? {code : List Instruction} {vars : List Nat} {tuple : List Term}
    {valuations : List Valuation} (yields : Yields code vars tuple valuations) {store : Store}
    (sound : store.Sound) {handles : List Handle} (expanded : store.Expands handles tuple)
    (size : Nat) : ∃ start, (Substitution.blank size).bindTuple? vars handles = some start := by
  obtain ⟨store', -, handles', size', start', -, sound', expanded', hbind', -, -⟩ := yields
  have sounds : Stores.Sound (store, store') := ⟨sound, sound'⟩
  have same : List.Forall₂ (Stores.Same (store, store')) handles handles' :=
    Stores.same_all_of_expands expanded expanded'
  obtain ⟨hflag, -⟩ := (Stores.agree_blank (store, store') size size').bindAll sounds vars same
  rw [Substitution.bindTuple?_eq_some_iff.1 hbind'] at hflag
  generalize hbound : (Substitution.blank size).bindAll vars handles = bound at hflag
  obtain ⟨flag, start⟩ := bound
  obtain rfl : flag = true := hflag
  exact ⟨start, Substitution.bindTuple?_eq_some_iff.2 hbound⟩

/-- **The code of a rule has one meaning**, whichever store it is run in. -/
theorem Yields.unique {code : List Instruction} {vars : List Nat} {tuple : List Term}
    {valuations valuations' : List Valuation} (yields : Yields code vars tuple valuations)
    (yields' : Yields code vars tuple valuations') : valuations = valuations' := by
  obtain ⟨store, after, handles, size, start, outcomes, sound, expanded, hbind, hrun, rfl⟩ := yields
  obtain ⟨store', after', handles', size', start', outcomes', sound', expanded', hbind', hrun',
    rfl⟩ := yields'
  have sounds : Stores.Sound (store, store') := ⟨sound, sound'⟩
  have same : List.Forall₂ (Stores.Same (store, store')) handles handles' :=
    Stores.same_all_of_expands expanded expanded'
  obtain ⟨-, hstart⟩ := (Stores.agree_blank (store, store') size size').bindAll sounds vars same
  rw [Substitution.bindTuple?_eq_some_iff.1 hbind,
    Substitution.bindTuple?_eq_some_iff.1 hbind'] at hstart
  have hagree := run_agree code sounds hstart
  rw [Interning.Agree] at hagree
  simp only [hrun, hrun'] at hagree
  exact hagree.2.2.valuations_eq

end Machine

end StableModels
