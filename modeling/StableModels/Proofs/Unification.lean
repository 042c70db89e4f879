import StableModels.Proofs.Outcomes

/-!
# Matching and instantiation undo each other

A match threads its bindings from left to right through a pattern whose ground parts are handles.
What it answers has nothing to do with that order: it is the **least** substitution, above the one
that it starts from, under which the pattern denotes the term
(`StableModels.Substitution.LeastAbove`). It is such a substitution because matching is sound, and
below any other one because matching is complete. That it binds no slots but those of the pattern
then follows without another look at the match: a pattern does not care what other slots stand for
(`StableModels.Pattern.Denotes.congr`), so that the answer may be cut down to these slots.

Instantiation goes the other way. A pattern without wildcards that denotes a term of the store
already is instantiated to the handle of that term, and the store stays as it is
(`StableModels.Substitution.instantiate_of_denotes`). And a term that the pattern denotes already is
matched without a new binding (`StableModels.Substitution.matchTerm_of_denotes`).

The main statement, `StableModels.Substitution.compiled_unify`, says all of it of patterns that were
compiled at some time before, one by one and in lists.
-/

namespace StableModels

/-! ### Which slots matter -/

namespace Pattern

variable {first second : Valuation}

mutual

/-- What a pattern denotes depends on its own slots only. -/
theorem Denotes.congr : {pattern : Pattern} → {term : Term} →
    (∀ slot ∈ pattern.slots, first slot = second slot) → pattern.Denotes first term →
      pattern.Denotes second term
  | .unit, _, _, denotes | .int _, _, _, denotes | .bool _, _, _, denotes
  | .string _, _, _, denotes | .ref _, _, _, denotes => denotes
  | .const _ _, _, agree, ⟨terms, heq, denote⟩ => ⟨terms, heq, DenoteAll.congr agree denote⟩
  | .var slot, _, agree, denotes => (agree slot (List.mem_singleton.2 rfl)).symm.trans denotes
  | .wildcard, _, _, _ => trivial

theorem DenoteAll.congr : {patterns : List Pattern} → {terms : List Term} →
    (∀ slot ∈ slotsOf patterns, first slot = second slot) → DenoteAll first patterns terms →
      DenoteAll second patterns terms
  | [], [], _, _ => trivial
  | _ :: _, _ :: _, agree, ⟨denotes, rest⟩ =>
    ⟨denotes.congr fun slot member => agree slot (List.mem_append_left _ member),
      DenoteAll.congr (fun slot member => agree slot (List.mem_append_right _ member)) rest⟩

end

end Pattern

namespace Substitution

variable {store : Store} {substitution after first second : Substitution} {slots : List Nat}
  {slot : Nat}

/-! ### Substitutions and valuations -/

/-- A substitution that binds more says more. -/
theorem Within.valuation (within : first.Within second) (store : Store) :
    (first.valuation store).Within (second.valuation store) := by
  intro slot term stands
  obtain ⟨handle, bound, expanded⟩ := valuation_eq_some_iff.1 stands
  exact valuation_eq_some_iff.2 ⟨handle, within slot handle bound, expanded⟩

/-- A substitution that says more binds more, since a term has one handle. -/
theorem within_of_valuation (sound : store.Sound) (known : first.Known store)
    (within : (first.valuation store).Within (second.valuation store)) : first.Within second := by
  intro slot handle bound
  obtain ⟨term, expanded⟩ := known slot handle bound
  obtain ⟨other, hother, expanded'⟩ := valuation_eq_some_iff.1
    (within slot term (valuation_eq_some_iff.2 ⟨handle, bound, expanded⟩))
  obtain rfl := sound.expand_injective expanded expanded'
  exact hother

/-- **The valuation of a substitution, cut down** to the slots of another one and some more. -/
def restricted (store : Store) (start : Substitution) (slots : List Nat) (whole : Substitution) :
    Valuation := fun slot =>
  if (start.get? slot).isSome = true ∨ slot ∈ slots then whole.valuation store slot else none

/-! ### Least substitutions -/

/-- **The answer is the least substitution above `start` that reads the patterns as the terms**, and
it is a success if there is any. `reads` tells which valuations do so, and `slots` are the slots of
the patterns. -/
structure LeastAbove (store : Store) (reads : Valuation → Prop) (slots : List Nat)
    (start : Substitution) (answer : Bool × Substitution) : Prop where
  /-- It is a success exactly if there is such a substitution. -/
  succeeds_iff : answer.1 = true ↔ ∃ above, start.Within above ∧ reads (above.valuation store)
  /-- Nothing that was bound is lost. -/
  within : answer.1 = true → start.Within answer.2
  /-- The patterns are read as the terms. -/
  reading : answer.1 = true → reads (answer.2.valuation store)
  /-- Every other such substitution binds whatever this one does. -/
  least : answer.1 = true → ∀ above, start.Within above → reads (above.valuation store) →
    answer.2.Within above
  /-- What is bound are the slots that were bound, and those of the patterns. -/
  isSome_iff : answer.1 = true → ∀ slot, (answer.2.get? slot).isSome = true ↔
    (start.get? slot).isSome = true ∨ slot ∈ slots

/-- A match that is sound and complete answers the least substitution, if the reading depends on the
slots of the patterns only and needs them all. -/
theorem leastAbove_of (sound : store.Sound) {reads : Valuation → Prop} {start : Substitution}
    {answer : Bool × Substitution}
    (matched : answer.1 = true → answer.2.Known store ∧
      (start.valuation store).Within (answer.2.valuation store) ∧ reads (answer.2.valuation store))
    (complete : ∀ valuation, (start.valuation store).Within valuation → reads valuation →
      answer.1 = true ∧ (answer.2.valuation store).Within valuation)
    (congr : ∀ first second, (∀ slot ∈ slots, first slot = second slot) → reads first →
      reads second)
    (stands : ∀ valuation, reads valuation → ∀ slot ∈ slots, ∃ term, valuation slot = some term)
    (known : start.Known store) : LeastAbove store reads slots start answer where
  succeeds_iff := by
    constructor
    · intro success
      obtain ⟨-, within, hreads⟩ := matched success
      exact ⟨answer.2, within_of_valuation sound known within, hreads⟩
    · rintro ⟨above, within, hreads⟩
      exact (complete _ (within.valuation store) hreads).1
  within := fun success => within_of_valuation sound known (matched success).2.1
  reading := fun success => (matched success).2.2
  least := fun success above within hreads =>
    within_of_valuation sound (matched success).1 (complete _ (within.valuation store) hreads).2
  isSome_iff := by
    intro success slot
    obtain ⟨hknown, within, hreads⟩ := matched success
    constructor
    · intro bound
      by_contra outside
      -- The answer, cut down to these slots, would do as well, and the answer is below it.
      have hrestricted : (start.valuation store).Within
          (restricted store start slots answer.2) := by
        intro other term hother
        have before : (start.get? other).isSome = true := by
          obtain ⟨handle, bound, -⟩ := valuation_eq_some_iff.1 hother
          rw [bound]
          rfl
        rw [restricted, if_pos (Or.inl before)]
        exact within other term hother
      have reads_restricted : reads (restricted store start slots answer.2) :=
        congr _ _ (fun other member => by rw [restricted, if_pos (Or.inr member)]) hreads
      obtain ⟨handle, hhandle⟩ := Option.isSome_iff_exists.1 bound
      obtain ⟨term, expanded⟩ := hknown slot handle hhandle
      have hslot := (complete _ hrestricted reads_restricted).2 slot term
        (valuation_eq_some_iff.2 ⟨handle, hhandle, expanded⟩)
      rw [restricted, if_neg outside] at hslot
      cases hslot
    · rintro (bound | member)
      · obtain ⟨handle, hhandle⟩ := Option.isSome_iff_exists.1 bound
        rw [within_of_valuation sound known within slot handle hhandle]
        rfl
      · obtain ⟨term, hslot⟩ := stands _ hreads slot member
        obtain ⟨handle, hhandle, -⟩ := valuation_eq_some_iff.1 hslot
        rw [hhandle]
        rfl

/-! ### What is denoted already -/

/-- A slot that stands for the term of a handle is bound to the handle. -/
theorem get?_of_valuation (sound : store.Sound) {handle : Handle} {term : Term}
    (stands : substitution.valuation store slot = some term)
    (expanded : store.expand handle = some term) : substitution.get? slot = some handle := by
  obtain ⟨other, bound, expanded'⟩ := valuation_eq_some_iff.1 stands
  rw [bound, sound.expand_injective expanded' expanded]

mutual

/-- **A term that the pattern denotes already is matched**, and nothing is bound. -/
theorem matchTerm_of_denotes (sound : store.Sound) : {compiled : CompiledPattern} →
    {pattern : Pattern} → {handle : Handle} → {term : Term} → Compiles store pattern compiled →
      store.expand handle = some term → pattern.Denotes (substitution.valuation store) term →
        substitution.matchTerm store compiled handle = (true, substitution)
  | .term _, _, _, _, .ground denotes_iff hterm, expanded, denotes => by
    obtain rfl := (denotes_iff _ _).1 denotes
    obtain rfl := sound.expand_injective hterm expanded
    rw [matchTerm, beq_self_eq_true]
  | .var _, _, _, _, .var _, expanded, denotes => by
    rw [matchTerm]
    exact bind_of_get? (get?_of_valuation sound denotes expanded)
  | .wildcard, _, _, _, .wildcard, _, _ => by rw [matchTerm]
  | .const name compiled, _, _, _, .const args_compile, expanded, denotes => by
    obtain ⟨handles, terms, found, hterms, denote, hlength⟩ :=
      exists_args_of_denotes sound args_compile expanded denotes
    rw [matchTerm, found]
    simp only [beq_self_eq_true, hlength, Bool.and_self, if_true]
    exact matchEach_of_denote sound args_compile hterms denote

theorem matchEach_of_denote (sound : store.Sound) : {compiled : List CompiledPattern} →
    {patterns : List Pattern} → {handles : List Handle} → {terms : List Term} →
      CompilesAll store patterns compiled → store.Expands handles terms →
        Pattern.DenoteAll (substitution.valuation store) patterns terms →
          substitution.matchEach store compiled handles = (true, substitution)
  | [], _, _, _, .nil, _, _ => by rw [matchEach]
  | _ :: _, _, _, _, .cons compiles rest, .cons hterm hterms, ⟨denotes, denote⟩ => by
    rw [matchEach, matchTerm_of_denotes sound compiles hterm denotes]
    exact matchEach_of_denote sound rest hterms denote

end

theorem matchAll_of_denote (sound : store.Sound) {compiled : List CompiledPattern}
    {patterns : List Pattern} {handles : List Handle} {terms : List Term}
    (compiles : CompilesAll store patterns compiled) (expanded : store.Expands handles terms)
    (denote : Pattern.DenoteAll (substitution.valuation store) patterns terms) :
    substitution.matchAll store compiled handles = (true, substitution) := by
  rw [matchAll, if_pos (by rw [expanded.length_eq, ← denote.length_eq, compiles.length_eq])]
  exact matchEach_of_denote sound compiles expanded denote

mutual

/-- **A pattern without wildcards that denotes a term of the store is instantiated to its handle**,
and nothing is interned. -/
theorem instantiate_of_denotes (sound : store.Sound) : {compiled : CompiledPattern} →
    {pattern : Pattern} → {handle : Handle} → {term : Term} → Compiles store pattern compiled →
      pattern.hasWildcard = false → store.expand handle = some term →
        pattern.Denotes (substitution.valuation store) term →
          substitution.instantiate compiled store = .ok handle store
  | .term _, _, _, _, .ground denotes_iff hterm, _, expanded, denotes => by
    obtain rfl := (denotes_iff _ _).1 denotes
    obtain rfl := sound.expand_injective hterm expanded
    rw [instantiate]
    rfl
  | .var _, _, _, _, .var _, _, expanded, denotes => by
    rw [instantiate, get?_of_valuation sound denotes expanded]
    rfl
  | .wildcard, _, _, _, .wildcard, tame, _, _ => by cases tame
  | .const name compiled, _, _, _, .const args_compile, tame, expanded, denotes => by
    obtain ⟨handles, terms, found, hterms, denote, -⟩ :=
      exists_args_of_denotes sound args_compile expanded denotes
    rw [Pattern.hasWildcard] at tame
    rw [instantiate, bind_of_ok (instantiateAll_of_denote sound args_compile tame hterms denote)]
    exact Interning.intern_of_shape? sound.indexed found

theorem instantiateAll_of_denote (sound : store.Sound) : {compiled : List CompiledPattern} →
    {patterns : List Pattern} → {handles : List Handle} → {terms : List Term} →
      CompilesAll store patterns compiled → Pattern.anyWildcard patterns = false →
        store.Expands handles terms →
          Pattern.DenoteAll (substitution.valuation store) patterns terms →
            substitution.instantiateAll compiled store = .ok handles store
  | [], _, _, _, .nil, _, expanded, denote => by
    obtain _ | _ := expanded
    · rw [instantiateAll]
      rfl
    · cases denote
  | _ :: _, _, _, _, .cons compiles rest, tame, .cons hterm hterms, ⟨denotes, denote⟩ => by
    rw [Pattern.anyWildcard, Bool.or_eq_false_iff] at tame
    rw [instantiateAll, bind_of_ok (instantiate_of_denotes sound compiles tame.1 hterm denotes),
      bind_of_ok (instantiateAll_of_denote sound rest tame.2 hterms denote)]
    rfl

end

/-! ### Patterns that were compiled -/

variable {pattern : Pattern} {patterns : List Pattern} {compiled : CompiledPattern}
  {list : List CompiledPattern}

/-- **Matching reads a term as the pattern, and instantiation takes it back.** -/
structure Unifies (store : Store) (pattern : Pattern) (compiled : CompiledPattern)
    (start : Substitution) : Prop where
  /-- A match answers the least substitution under which the pattern denotes the term. -/
  least : ∀ handle term, store.expand handle = some term →
    LeastAbove store (pattern.Denotes · term) pattern.slots start
      (start.matchTerm store compiled handle)
  /-- A term that was matched is instantiated again, and nothing is interned. -/
  rebuilt : pattern.hasWildcard = false → ∀ handle term, store.expand handle = some term →
    ∀ after, start.matchTerm store compiled handle = (true, after) →
      after.instantiate compiled store = .ok handle store
  /-- A term that was instantiated is matched, and nothing is bound. -/
  confirmed : ∀ handle grown, start.instantiate compiled store = .ok handle grown →
    start.matchTerm grown compiled handle = (true, start)

/-- Matching reads a list of terms as the patterns, and instantiation takes it back. -/
structure UnifyAll (store : Store) (patterns : List Pattern) (compiled : List CompiledPattern)
    (start : Substitution) : Prop where
  /-- A match answers the least substitution under which the patterns denote the terms. -/
  least : ∀ handles terms, store.Expands handles terms →
    LeastAbove store (Pattern.DenoteAll · patterns terms) (Pattern.slotsOf patterns) start
      (start.matchAll store compiled handles)
  /-- Terms that were matched are instantiated again, and nothing is interned. -/
  rebuilt : Pattern.anyWildcard patterns = false → ∀ handles terms, store.Expands handles terms →
    ∀ after, start.matchAll store compiled handles = (true, after) →
      after.instantiateAll compiled store = .ok handles store
  /-- Terms that were instantiated are matched, and nothing is bound. -/
  confirmed : ∀ handles grown, start.instantiateAll compiled store = .ok handles grown →
    start.matchAll grown compiled handles = (true, start)

theorem unifies_of_compiles (sound : store.Sound) (compiles : Compiles store pattern compiled)
    (known : substitution.Known store) : Unifies store pattern compiled substitution where
  least := by
    intro handle term expanded
    refine leastAbove_of sound ?_ ?_ ?_ ?_ known
    · intro success
      exact matchTerm_sound sound compiles known expanded (Prod.ext success rfl)
    · intro valuation within denotes
      obtain ⟨after, matched, hwithin⟩ :=
        matchTerm_complete sound compiles known within expanded denotes
      rw [matched]
      exact ⟨rfl, hwithin⟩
    · intro first second agree denotes
      exact denotes.congr agree
    · intro valuation denotes
      exact denotes.exists_of_mem_slots
  rebuilt := by
    intro tame handle term expanded after matched
    obtain ⟨-, -, denotes⟩ := matchTerm_sound sound compiles known expanded matched
    exact instantiate_of_denotes sound compiles tame expanded denotes
  confirmed := by
    intro handle grown built
    have ensured := ensures_instantiate sound known compiles
    simp only [Interning.Ensures, Ensures, built] at ensured
    obtain ⟨hsound, extension, term, expanded, pins⟩ := ensured
    refine matchTerm_of_denotes hsound (compiles.mono extension) expanded ?_
    rw [known.valuation_eq extension]
    exact pins.denotes

theorem unifyAll_of_compiles (sound : store.Sound) (compiles : CompilesAll store patterns list)
    (known : substitution.Known store) : UnifyAll store patterns list substitution where
  least := by
    intro handles terms expanded
    refine leastAbove_of sound ?_ ?_ ?_ ?_ known
    · intro success
      exact matchAll_sound sound compiles known expanded (Prod.ext success rfl)
    · intro valuation within denote
      obtain ⟨after, matched, hwithin⟩ :=
        matchAll_complete sound compiles known within expanded denote
      rw [matched]
      exact ⟨rfl, hwithin⟩
    · intro first second agree denote
      exact Pattern.DenoteAll.congr agree denote
    · intro valuation denote
      exact Pattern.DenoteAll.exists_of_mem_slots denote
  rebuilt := by
    intro tame handles terms expanded after matched
    obtain ⟨-, -, denote⟩ := matchAll_sound sound compiles known expanded matched
    exact instantiateAll_of_denote sound compiles tame expanded denote
  confirmed := by
    intro handles grown built
    have ensured := ensures_instantiateAll sound known compiles
    simp only [Interning.Ensures, Ensures, built] at ensured
    obtain ⟨hsound, extension, terms, expanded, pins⟩ := ensured
    refine matchAll_of_denote hsound (CompilesAll.mono extension compiles) expanded ?_
    rw [known.valuation_eq extension]
    exact pins.denote

/-- **Matching and instantiation are inverse to each other.** Take patterns that were compiled
against a sound store, as every store is that was filled from the start
(`StableModels.Register.Leads.kept`), any sound store that came of it, and any substitution of terms
of that store. Then a match answers the least substitution above it under which the patterns denote
the terms, and fails if there is none; patterns without wildcards that were matched are instantiated
to the very same handles, and nothing is interned; and what was instantiated is matched without a
new binding. -/
theorem compiled_unify {before : Store} (hbefore : before.Sound) (sound : store.Sound)
    (known : substitution.Known store) :
    (∀ pattern : Pattern, (pattern.compile before).2.Extends store →
      Unifies store pattern (pattern.compile before).1 substitution) ∧
    (∀ patterns : List Pattern, (Pattern.compileAll patterns before).2.Extends store →
      UnifyAll store patterns (Pattern.compileAll patterns before).1 substitution) := by
  constructor
  · intro pattern extension
    obtain ⟨-, -, compiles⟩ := Pattern.compile_sound hbefore pattern
    exact unifies_of_compiles sound (compiles.mono extension) known
  · intro patterns extension
    obtain ⟨-, -, compiles⟩ := Pattern.compileAll_sound hbefore patterns
    exact unifyAll_of_compiles sound (CompilesAll.mono extension compiles) known

/-- A pattern with a variable that is there twice and a ground part between. -/
def twins : Pattern := .const "f" [.var 0, .const "a" [], .var 0, .var 1]

/-- The store that knows the pattern, and a term of it. -/
def birth : Store := ((twins.compile .initial).2.intern (.const "f" [1, 3, 1, 2])).2

/-- The second slot is bound to the last argument of that term. -/
def younger : Substitution := ⟨[none, some 2]⟩

theorem compiled_unify_twins : Store.initial.Sound ∧ birth.Sound ∧ younger.Known birth ∧
    (twins.compile .initial).2.Extends birth ∧
      younger.matchTerm birth (twins.compile .initial).1 4 = (true, ⟨[some 1, some 2]⟩) ∧
        (⟨[some 1, some 2]⟩ : Substitution).instantiate (twins.compile .initial).1 birth =
          .ok 4 birth ∧
        (Pattern.compileAll [.var 1, .const "a" []] .initial).2.Extends birth ∧
          younger.matchAll birth (Pattern.compileAll [.var 1, .const "a" []] .initial).1 [2, 3] =
            (true, younger) := by
  obtain ⟨hsound, -, -⟩ := Pattern.compile_sound Store.sound_initial twins
  have args_known : ∀ arg ∈ (Shape.const "f" [1, 3, 1, 2]).args,
      arg < (twins.compile .initial).2.shapes.size := by decide
  obtain ⟨sound, extension, -⟩ := hsound.intern args_known
  have known : younger.Known birth := by
    rintro (_ | _ | slot) handle bound
    · cases bound
    · cases bound
      exact ⟨.bool false, rfl⟩
    · cases bound
  obtain ⟨one, all⟩ := compiled_unify Store.sound_initial sound known
  have matched :
      younger.matchTerm birth (twins.compile .initial).1 4 = (true, ⟨[some 1, some 2]⟩) := by
    decide +kernel
  have expanded : birth.expand 4 =
      some (.const "f" [.bool true, .const "a" [], .bool true, .bool false]) := rfl
  refine ⟨Store.sound_initial, sound, known, extension, matched,
    (one twins extension).rebuilt rfl 4 _ expanded _ matched, extension,
    (all [.var 1, .const "a" []] extension).confirmed [2, 3] birth rfl⟩

end Substitution

end StableModels
