import StableModels.Proofs.Binding
import StableModels.Proofs.Canonicity
import StableModels.Proofs.Segmentation

/-!
# Outcomes of the machine

An outcome is an answer of the code: it only adds bindings, any two of the outcomes of a run
contradict each other at some slot, and the code, asked again about an outcome, confirms it and
nothing else (`StableModels.Machine.run_outcomes`).

The second run of the code takes another way than the first one. Where the first one bound a slot
the second one compares, and where the first one forked into all segmentations of a string the
second one, to which every piece is known, finds the one row that was chosen. What both have in
common is told by what an instruction leads to (`StableModels.Machine.Lasts`): from any outcome that
comes of it, and in any later store, the same instruction leads to the same operands again.

None of this depends on what the handles stand for, or on whether they stand for anything. A store
only has to answer the same shape with the same handle, as every store does that was filled from the
start. That outcomes do not depend on the numbers of the handles either is
`StableModels.Machine.run_alike`.
-/

namespace StableModels

/-! ### Later stores -/

namespace Store

/-- The store after these shapes were interned, one after the other. -/
def filled (shapes : List Shape) : Store :=
  shapes.foldl (fun store shape => (store.intern shape).2) initial

theorem Indexed.foldl_intern {store : Store} (indexed : store.Indexed) (shapes : List Shape) :
    (shapes.foldl (fun store shape => (store.intern shape).2) store).Indexed := by
  induction shapes generalizing store with
  | nil => exact indexed
  | cons shape shapes ih => exact ih (indexed.intern shape).1

theorem indexed_filled (shapes : List Shape) : (filled shapes).Indexed :=
  sound_initial.indexed.foldl_intern shapes

/-- The second store is an extension of the first one, and its tables are inverse to each other. -/
structure Later (store last : Store) : Prop where
  /-- The tables are inverse to each other. -/
  indexed : last.Indexed
  /-- What was known is known. -/
  extension : store.Extends last

variable {store middle last : Store} {handle : Handle} {text : String} {value : Int}

theorem Later.trans (later : store.Later middle) (further : middle.Later last) :
    store.Later last :=
  ⟨further.indexed, later.extension.trans further.extension⟩

theorem Indexed.later (indexed : store.Indexed) : store.Later store := ⟨indexed, .refl store⟩

theorem Extends.later (extension : store.Extends middle) (later : middle.Later last) :
    store.Later last :=
  ⟨later.indexed, extension.trans later.extension⟩

theorem string?_eq_some_iff : store.string? handle = some text ↔
    store.shape? handle = some (.string text) := by
  rw [string?, Option.bind_eq_some_iff]
  constructor
  · rintro ⟨shape, found, heq⟩
    cases shape <;> cases heq
    exact found
  · intro found
    exact ⟨_, found, rfl⟩

theorem Extends.string? (extension : store.Extends last)
    (found : store.string? handle = some text) : last.string? handle = some text :=
  string?_eq_some_iff.2 (extension _ _ (string?_eq_some_iff.1 found))

theorem Extends.int? (extension : store.Extends last) (found : store.int? handle = some value) :
    last.int? handle = some value := by
  obtain ⟨shape, found, heq⟩ := Option.bind_eq_some_iff.1 found
  exact Option.bind_eq_some_iff.2 ⟨shape, extension _ _ found, heq⟩

end Store

/-! ### Interning once more -/

namespace Interning

variable {α β : Type} {compute : Interning α} {next : α → Interning β} {store after : Store}

/-- **The computation, once done, is done for good**: if it succeeds, then in any later store it has
the same result again and interns nothing. -/
def Settles (compute : Interning α) (store : Store) : Prop :=
  ∀ result after, compute store = .ok result after →
    store.Later after ∧ ∀ last, after.Later last → compute last = .ok result last

theorem settles_pure (result : α) (indexed : store.Indexed) : Settles (pure result) store := by
  rintro _ _ ⟨⟩
  exact ⟨indexed.later, fun _ _ => rfl⟩

theorem settles_fail (cause : Cause) : Settles (fail cause : Interning α) store := by
  rintro _ _ ⟨⟩

theorem Settles.bind (settles : Settles compute store)
    (rest : ∀ result middle, middle.Indexed → Settles (next result) middle) :
    Settles (compute >>= next) store := by
  intro result after computed
  obtain ⟨found, middle, first, second⟩ := exists_of_bind_eq_ok computed
  obtain ⟨later, again⟩ := settles found middle first
  obtain ⟨later', again'⟩ := rest found middle later.indexed result after second
  refine ⟨later.trans later', fun last further => ?_⟩
  rw [bind_of_ok (again last (later'.trans further)), again' last further]

theorem intern_of_shape? {shape : Shape} {handle : Handle} (indexed : store.Indexed)
    (found : store.shape? handle = some shape) : intern shape store = .ok handle store := by
  rw [intern, indexed.intern_of_shape? found]

theorem settles_intern (shape : Shape) (indexed : store.Indexed) :
    Settles (intern shape) store := by
  intro result after computed
  have interned : intern shape store = .ok (store.intern shape).1 (store.intern shape).2 := rfl
  rw [interned] at computed
  obtain ⟨rfl, rfl⟩ := EStateM.Result.ok.inj computed
  obtain ⟨hindexed, extension, found⟩ := indexed.intern shape
  exact ⟨⟨hindexed, extension⟩, fun last later =>
    intern_of_shape? later.indexed (later.extension _ _ found)⟩

end Interning

open Interning

namespace Pattern

mutual

/-- Interning a ground pattern again answers the same handle. -/
theorem settles_intern : (pattern : Pattern) → {store : Store} → store.Indexed →
    Settles pattern.intern store
  | .unit, _, indexed | .bool _, _, indexed => settles_pure _ indexed
  | .int _, _, indexed | .string _, _, indexed | .ref _, _, indexed =>
    Interning.settles_intern _ indexed
  | .var _, _, _ | .wildcard, _, _ => settles_fail _
  | .const name args, _, indexed =>
    (settles_internAll args indexed).bind fun handles _ hindexed =>
      Interning.settles_intern (.const name handles) hindexed

theorem settles_internAll : (patterns : List Pattern) → {store : Store} → store.Indexed →
    Settles (internAll patterns) store
  | [], _, indexed => settles_pure _ indexed
  | pattern :: patterns, _, indexed =>
    (settles_intern pattern indexed).bind fun handle _ hindexed =>
      (settles_internAll patterns hindexed).bind fun handles _ hindexed' =>
        settles_pure (handle :: handles) hindexed'

end

end Pattern

/-! ### Substitutions that grow -/

namespace Substitution

variable {first second third outcome after : Substitution} {slot : Nat} {handle : Handle}
  {store last : Store} {row : List (Nat × List Char)}

/-- Whatever the first substitution binds the second one binds too, to the same handle. -/
def Within (first second : Substitution) : Prop :=
  ∀ slot handle, first.get? slot = some handle → second.get? slot = some handle

theorem Within.refl (substitution : Substitution) : substitution.Within substitution :=
  fun _ _ => id

theorem Within.trans (within : first.Within second) (within' : second.Within third) :
    first.Within third :=
  fun slot handle bound => within' slot handle (within slot handle bound)

/-- A successful binding adds to the substitution that the slot is bound to the handle. -/
theorem within_of_bind (bound : first.bind slot handle = (true, after)) :
    first.Within after ∧ after.get? slot = some handle := by
  cases hold : first.get? slot with
  | some old =>
    rw [bind, hold] at bound
    obtain ⟨heq, rfl⟩ := Prod.mk.inj bound
    obtain rfl := beq_iff_eq.1 heq
    exact ⟨.refl first, hold⟩
  | none =>
    have hget := get?_bind handle hold
    rw [bound] at hget
    refine ⟨fun other found hfound => ?_, by rw [hget, if_pos rfl]⟩
    have hne : other ≠ slot := by
      rintro rfl
      rw [hold] at hfound
      cases hfound
    rw [hget, if_neg hne, hfound]

/-- A slot that is bound to the handle accepts it again. -/
theorem bind_of_get? (bound : outcome.get? slot = some handle) :
    outcome.bind slot handle = (true, outcome) := by
  rw [bind, bound]
  simp

/-- The slots of the row are bound to its texts. -/
def Reads (store : Store) (row : List (Nat × List Char)) (substitution : Substitution) : Prop :=
  ∀ slot text, (slot, text) ∈ row → ∃ handle,
    substitution.get? slot = some handle ∧ store.string? handle = some (String.ofList text)

theorem Reads.mono (extension : store.Extends last) (within : first.Within second)
    (reads : first.Reads store row) : second.Reads last row := by
  intro slot text member
  obtain ⟨handle, bound, found⟩ := reads slot text member
  exact ⟨handle, within _ _ bound, extension.string? found⟩

/-- **The two substitutions contradict each other**: they bind some slot to different strings. -/
def Contradicts (store : Store) (first second : Substitution) : Prop :=
  ∃ slot handle other text text', first.get? slot = some handle ∧ second.get? slot = some other ∧
    store.string? handle = some text ∧ store.string? other = some text' ∧ text ≠ text'

theorem Contradicts.mono (extension : store.Extends last)
    (contradicts : first.Contradicts store second) : first.Contradicts last second := by
  obtain ⟨slot, handle, other, text, text', bound, bound', found, found', differ⟩ := contradicts
  exact ⟨slot, handle, other, text, text', bound, bound', extension.string? found,
    extension.string? found', differ⟩

end Substitution

namespace Machine

variable {store after last : Store} {substitution outcome : Substitution}
  {operands stack : List Handle} {instruction : Instruction} {position : Nat}
  {row : List (Nat × List Char)}

open Substitution

/-! ### Operators in a later store -/

theorem mapM_mono {α β : Type} {f g : α → Option β} (mono : ∀ a b, f a = some b → g a = some b)
    {list : List α} {found : List β} (mapped : list.mapM f = some found) :
    list.mapM g = some found :=
  mapM_eq_some_iff.2 ((mapM_eq_some_iff.1 mapped).imp mono)

/-- An operator that has a result has it in every later store. -/
theorem result?_mono (extension : store.Extends last) {shape : Shape}
    (computed : result? store instruction operands = some shape) :
    result? last instruction operands = some shape := by
  revert computed
  fun_cases result? store instruction operands with
  | case1 | case2 =>
    intro computed
    obtain ⟨values, found, rfl⟩ := Option.map_eq_some_iff.1 computed
    rw [result?, ints?, mapM_mono (fun _ _ => extension.int?) found, Option.map_some]
  | case8 =>
    intro computed
    obtain ⟨values, found, rfl⟩ := Option.map_eq_some_iff.1 computed
    rw [result?, strings?, mapM_mono (fun _ _ => extension.string?) found, Option.map_some]
  | case3 first second =>
    intro computed
    obtain ⟨a, hfirst, computed⟩ := Option.bind_eq_some_iff.1 computed
    obtain ⟨b, hsecond, computed⟩ := Option.bind_eq_some_iff.1 computed
    rw [result?, extension.int? hfirst, extension.int? hsecond]
    exact computed
  | case5 operand | case6 operand =>
    intro computed
    obtain ⟨value, found, computed⟩ := Option.bind_eq_some_iff.1 computed
    rw [result?, extension.int? found]
    exact computed
  | case4 | case7 => exact id
  | case9 =>
    intro computed
    cases computed

/-- Integers that are related are so in every later store. -/
theorem related_mono (extension : store.Extends last) {relation : Ordering → Bool}
    {first second : Handle} (holds : related relation store first second = true) :
    related relation last first second = true := by
  rw [related] at holds
  split at holds
  · next hfirst hsecond => rwa [related, extension.int? hfirst, extension.int? hsecond]
  · cases holds

/-! ### Rows of a split -/

/-- The rows that a split leads to contradict each other: some slot has different texts in them. -/
def Apart (first second : List (Nat × List Char)) : Prop :=
  ∃ slot text text', (slot, text) ∈ first ∧ (slot, text') ∈ second ∧ text ≠ text'

/-- Different texts for the same slots contradict each other. -/
theorem apart_zip {slots : List Nat} {first second : List (List Char)}
    (length_eq : slots.length = first.length) (length_eq' : slots.length = second.length)
    (differ : first ≠ second) : Apart (slots.zip first) (slots.zip second) := by
  induction slots generalizing first second with
  | nil =>
    rw [List.eq_nil_of_length_eq_zero length_eq.symm,
      List.eq_nil_of_length_eq_zero length_eq'.symm] at differ
    exact absurd rfl differ
  | cons slot slots ih =>
    obtain ⟨text, first, rfl⟩ := List.exists_cons_of_length_eq_add_one length_eq.symm
    obtain ⟨text', second, rfl⟩ := List.exists_cons_of_length_eq_add_one length_eq'.symm
    by_cases heq : text = text'
    · subst heq
      obtain ⟨other, texts⟩ := ih (Nat.succ.inj length_eq) (Nat.succ.inj length_eq')
        (by rintro rfl; exact differ rfl)
      obtain ⟨text', text'', member, member', differ⟩ := texts
      exact ⟨other, text', text'', List.mem_cons_of_mem _ member, List.mem_cons_of_mem _ member',
        differ⟩
    · exact ⟨slot, text, text', List.mem_cons_self, List.mem_cons_self, heq⟩

/-- Outcomes that read rows which contradict each other do so themselves. -/
theorem Apart.contradicts {first second : List (Nat × List Char)} {other : Substitution}
    (apart : Apart first second) (reads : outcome.Reads store first)
    (reads' : other.Reads store second) : outcome.Contradicts store other := by
  obtain ⟨slot, text, text', member, member', differ⟩ := apart
  obtain ⟨handle, bound, found⟩ := reads slot text member
  obtain ⟨handle', bound', found'⟩ := reads' slot text' member'
  refine ⟨slot, handle, handle', _, _, bound, bound', found, found', ?_⟩
  exact fun heq => differ (String.ofList_injective heq)

/-- To a substitution that reads a row all pieces of the template are known, and only this row is
left of its segmentations. -/
theorem exists_template?_of_reads {parts : List SplitPart} {template : List Segment}
    {text : List Char} {pieces : List (List Char)}
    (found : template? store substitution parts = some template)
    (segments : Segment.Segments template text pieces)
    (reads : outcome.Reads last ((parts.filterMap SplitPart.slot?).zip pieces)) :
    ∃ known, template? last outcome parts = some known ∧ segmentations known text = [pieces] := by
  induction parts generalizing template text pieces with
  | nil =>
    obtain rfl := Option.some.inj found
    obtain ⟨rfl, rfl⟩ := Segment.segments_nil.1 segments
    exact ⟨[], rfl, rfl⟩
  | cons part parts ih =>
    rcases part with own | slot
    · obtain ⟨template, htemplate, rfl⟩ := Option.map_eq_some_iff.1 found
      obtain ⟨rest, cut, hrest⟩ := Segment.segments_literal.1 segments
      obtain ⟨known, hknown, hpieces⟩ := ih htemplate hrest reads
      exact ⟨.literal own.toList :: known, by rw [template?, hknown, Option.map_some],
        by rw [segmentations_literal cut, hpieces]⟩
    · -- Whether the piece was known or free, it has a text now, and the slot is bound to it.
      obtain ⟨template, htemplate, first, others, rest, rfl, cut, hrest⟩ : ∃ template,
          template? store substitution parts = some template ∧ ∃ first others rest,
            pieces = first :: others ∧ first ++ rest = text ∧
              Segment.Segments template rest others := by
        rw [template?] at found
        split at found
        · obtain ⟨template, htemplate, rfl⟩ := Option.map_eq_some_iff.1 found
          exact ⟨template, htemplate, Segment.segments_free.1 segments⟩
        · obtain ⟨own, -, found⟩ := Option.bind_eq_some_iff.1 found
          obtain ⟨template, htemplate, found⟩ := Option.bind_eq_some_iff.1 found
          obtain rfl := Option.some.inj found
          exact ⟨template, htemplate, _, Segment.segments_known.1 segments⟩
      obtain ⟨handle, bound, hstring⟩ := reads slot first List.mem_cons_self
      obtain ⟨known, hknown, hpieces⟩ := ih htemplate hrest fun other text member =>
        reads other text (List.mem_cons_of_mem _ member)
      refine ⟨.known first :: known, ?_, ?_⟩
      · simp [template?, bound, hstring, hknown]
      · rw [segmentations_known cut, hpieces, List.map_singleton]

/-- **The one row that was chosen.** To a substitution that reads a row of a split all its pieces
are known, and in a later store the split leads to this row only. -/
theorem rows?_of_reads {parts : List SplitPart} {subject : Handle}
    {rows : List (List (Nat × List Char))}
    (found : rows? store parts substitution subject = some rows)
    (member : row ∈ rows) (extension : store.Extends last) (reads : outcome.Reads last row) :
    rows? last parts outcome subject = some [row] := by
  obtain ⟨text, hsubject, found⟩ := Option.bind_eq_some_iff.1 found
  obtain ⟨template, htemplate, found⟩ := Option.bind_eq_some_iff.1 found
  obtain rfl := Option.some.inj found
  obtain ⟨pieces, hpieces, rfl⟩ := List.mem_map.1 member
  rw [mem_segmentations] at hpieces
  obtain ⟨known, hknown, hsegments⟩ := exists_template?_of_reads htemplate hpieces reads
  simp [rows?, extension.string? hsubject, hknown, hsegments]

/-- The rows of a split contradict each other. -/
theorem pairwise_apart_of_rows? {parts : List SplitPart} {subject : Handle}
    {rows : List (List (Nat × List Char))}
    (found : rows? store parts substitution subject = some rows) : rows.Pairwise Apart := by
  obtain ⟨text, -, found⟩ := Option.bind_eq_some_iff.1 found
  obtain ⟨template, htemplate, found⟩ := Option.bind_eq_some_iff.1 found
  obtain rfl := Option.some.inj found
  refine List.pairwise_map.2 ((nodup_segmentations template text.toList).imp_of_mem ?_)
  intro first second hfirst hsecond differ
  have hcount := countP_of_template? htemplate
  exact apart_zip (by rw [length_of_mem_segmentations hfirst, hcount])
    (by rw [length_of_mem_segmentations hsecond, hcount]) differ

/-- Binding a row adds to the substitution that it reads the row, and a substitution that reads it
binds it again without a change. -/
theorem lasts_bindRow (indexed : store.Indexed) {answer : Option Substitution}
    (ran : bindRow row substitution store = .ok answer after) :
    store.Later after ∧ ∀ branch ∈ answer, substitution.Within branch ∧ branch.Reads after row := by
  induction row generalizing substitution store with
  | nil =>
    obtain ⟨rfl, rfl⟩ := EStateM.Result.ok.inj ran
    refine ⟨indexed.later, ?_⟩
    rintro _ ⟨⟩
    exact ⟨.refl _, fun _ _ member => by cases member⟩
  | cons entry row ih =>
    obtain ⟨slot, text⟩ := entry
    rw [bindRow] at ran
    obtain ⟨handle, middle, interned, ran⟩ := exists_of_bind_eq_ok ran
    obtain ⟨hindexed, extension, found⟩ := indexed.intern (.string (String.ofList text))
    obtain ⟨rfl, rfl⟩ := EStateM.Result.ok.inj interned
    generalize hbind : substitution.bind slot _ = bound at ran
    obtain ⟨_ | _, next⟩ := bound
    · obtain ⟨rfl, rfl⟩ := EStateM.Result.ok.inj ran
      exact ⟨⟨hindexed, extension⟩, fun _ member => by cases member⟩
    · obtain ⟨within, hslot⟩ := within_of_bind hbind
      obtain ⟨later, binds⟩ := ih hindexed ran
      refine ⟨extension.later later, fun branch member => ?_⟩
      obtain ⟨within', reads⟩ := binds branch member
      refine ⟨within.trans within', fun other text' hmember => ?_⟩
      rcases List.mem_cons.1 hmember with heq | hmember
      · obtain ⟨rfl, rfl⟩ := Prod.mk.inj heq
        exact ⟨_, within' _ _ hslot,
          later.extension.string? (Store.string?_eq_some_iff.2 found)⟩
      · exact reads other text' hmember

theorem bindRow_of_reads (indexed : last.Indexed) (reads : outcome.Reads last row) :
    bindRow row outcome last = .ok (some outcome) last := by
  induction row with
  | nil => rfl
  | cons entry row ih =>
    obtain ⟨slot, text⟩ := entry
    obtain ⟨handle, bound, found⟩ := reads slot text List.mem_cons_self
    rw [bindRow, bind_of_ok (intern_of_shape? indexed (Store.string?_eq_some_iff.1 found)),
      bind_of_get? bound]
    exact ih fun other text' member => reads other text' (List.mem_cons_of_mem _ member)

/-! ### Instructions -/

/-- **What an instruction leads to, and what it leads to again** from any outcome that comes of it,
in any later store: the run that goes on goes on with the same operands, and of the rows of a split
there is only the one that the outcome reads. -/
inductive Lasts (again : Substitution → Interning Progress) (after : Store)
    (substitution : Substitution) : Progress → Prop where
  /-- The run ends. -/
  | stop : Lasts again after substitution .stop
  /-- The run goes on. -/
  | next {stack : List Handle} {next : Substitution} (within : substitution.Within next)
      (repeats : ∀ outcome last, next.Within outcome → after.Later last →
        again outcome last = .ok (.next stack outcome) last) :
      Lasts again after substitution (.next stack next)
  /-- The run forks. -/
  | fork {stack : List Handle} {rows : List (List (Nat × List Char))}
      (apart : rows.Pairwise Apart)
      (repeats : ∀ row ∈ rows, ∀ outcome last, outcome.Reads last row → after.Later last →
        again outcome last = .ok (.fork stack outcome [row]) last) :
      Lasts again after substitution (.fork stack substitution rows)

/-- An instruction that pushes what some computation answers. -/
theorem lasts_push {compute : Interning Handle} {progress : Progress}
    (settles : compute.Settles store)
    (ran : (compute >>= fun handle => pure (.next (handle :: stack) substitution)) store =
      .ok progress after) :
    store.Later after ∧
      Lasts (fun outcome => compute >>= fun handle => pure (.next (handle :: stack) outcome))
        after substitution progress := by
  obtain ⟨handle, middle, computed, ran⟩ := exists_of_bind_eq_ok ran
  obtain ⟨rfl, rfl⟩ := EStateM.Result.ok.inj ran
  obtain ⟨later, again⟩ := settles handle middle computed
  refine ⟨later, .next (.refl _) fun outcome last _ further => ?_⟩
  rw [bind_of_ok (again last further)]
  rfl

/-- A guard that held holds again. -/
theorem lasts_guard {holds : Store → Bool}
    (mono : ∀ last, store.Extends last → holds store = true → holds last = true) :
    Lasts (fun outcome last => .ok (.guard (holds last) stack outcome) last) store substitution
      (.guard (holds store) stack substitution) := by
  cases held : holds store with
  | false => exact .stop
  | true =>
    refine .next (.refl _) fun outcome last _ later => ?_
    rw [mono last later.extension held]
    rfl

/-- Of an operator that has a result nothing but the operands matters. -/
theorem perform_eq_compute {shape : Shape}
    (computed : result? store instruction operands = some shape) (position : Nat)
    (stack : List Handle) (substitution : Substitution) :
    perform position stack substitution instruction operands =
      compute stack substitution instruction operands := by
  cases instruction <;> first | rfl | simp [result?] at computed

theorem lasts_compute (indexed : store.Indexed) {progress : Progress}
    (ran : compute stack substitution instruction operands store = .ok progress after) :
    store.Later after ∧ Lasts (fun outcome => perform position stack outcome instruction operands)
      after substitution progress := by
  rw [compute, get_bind] at ran
  cases computed : result? store instruction operands with
  | none =>
    rw [computed] at ran
    obtain ⟨rfl, rfl⟩ := EStateM.Result.ok.inj ran
    exact ⟨indexed.later, .stop⟩
  | some shape =>
    rw [computed] at ran
    obtain ⟨later, lasts⟩ := lasts_push (Interning.settles_intern shape indexed) ran
    refine ⟨later, ?_⟩
    cases lasts with
    | next within repeats =>
      refine .next within fun outcome last within' further => ?_
      have again := result?_mono (later.trans further).extension computed
      rw [perform_eq_compute again, compute, get_bind, again]
      exact repeats outcome last within' further
    | _ => cases ran

theorem lasts_perform (indexed : store.Indexed) {progress : Progress}
    (ran : perform position stack substitution instruction operands store = .ok progress after) :
    store.Later after ∧ Lasts (fun outcome => perform position stack outcome instruction operands)
      after substitution progress := by
  revert ran
  fun_cases perform position stack substitution instruction operands with
  | case1 value =>
    intro ran
    exact lasts_push (Pattern.settles_intern value indexed) ran
  | case2 slot _ handle bound =>
    rintro ⟨⟩
    refine ⟨indexed.later, .next (.refl _) fun outcome last within _ => ?_⟩
    rw [perform, within _ _ bound]
    rfl
  | case3 => rintro ⟨⟩
  | case4 slot operand next bound =>
    rintro ⟨⟩
    obtain ⟨within, hslot⟩ := within_of_bind bound
    refine ⟨indexed.later, .next within fun outcome last within' _ => ?_⟩
    rw [perform, bind_of_get? (within' _ _ hslot)]
    rfl
  | case6 | case7 =>
    rintro ⟨⟩
    exact ⟨indexed.later, .next (.refl _) fun _ _ _ _ => rfl⟩
  | case8 | case9 =>
    rintro ⟨⟩
    exact ⟨indexed.later, lasts_guard fun _ _ => id⟩
  | case10 | case11 | case12 | case13 =>
    rintro ⟨⟩
    exact ⟨indexed.later, lasts_guard fun _ extension => related_mono extension⟩
  | case14 parts subject =>
    rw [get_bind]
    cases found : rows? store parts substitution subject with
    | none =>
      rintro ⟨⟩
      exact ⟨indexed.later, .stop⟩
    | some rows =>
      rintro ⟨⟩
      refine ⟨indexed.later, .fork (pairwise_apart_of_rows? found) ?_⟩
      intro row member outcome last reads later
      rw [perform, get_bind, rows?_of_reads found member later.extension reads]
      rfl
  | case5 | case15 =>
    rintro ⟨⟩
    exact ⟨indexed.later, .stop⟩
  | case16 => exact lasts_compute indexed

theorem lasts_step (indexed : store.Indexed) {progress : Progress}
    (ran : step position instruction stack substitution store = .ok progress after) :
    store.Later after ∧ Lasts (fun outcome => step position instruction stack outcome) after
      substitution progress := by
  rw [step] at ran
  split at ran
  · next enough =>
    simp only [step, if_pos enough]
    exact lasts_perform indexed ran
  · cases ran

/-! ### Runs -/

/-- **What is collected comes from some member, and what comes from different members is related.**
The members have their turns one after the other, in stores that those before them have left. -/
theorem leaves_collect {α β : Type} {results : α → Interning (List β)} {members : List α}
    (origin : α → β → Store → Prop) (related : Store → β → β → Prop) {all : List β}
    (indexed : store.Indexed)
    (origin_mono : ∀ {member result before later}, before.Later later →
      origin member result before → origin member result later)
    (related_mono : ∀ {before later : Store}, before.Later later →
      ∀ {first second}, related before first second → related later first second)
    (apart : members.Pairwise fun first second => ∀ result other store,
      origin first result store → origin second other store → related store result other)
    (leaves : ∀ member ∈ members, ∀ before part middle, store.Later before →
      results member before = .ok part middle → before.Later middle ∧
        (∀ result ∈ part, origin member result middle) ∧ part.Pairwise (related middle))
    (collected : collect results members store = .ok all after) :
    store.Later after ∧ (∀ result ∈ all, ∃ member ∈ members, origin member result after) ∧
      all.Pairwise (related after) := by
  induction members generalizing store all with
  | nil =>
    obtain ⟨rfl, rfl⟩ := EStateM.Result.ok.inj collected
    exact ⟨indexed.later, List.forall_mem_nil _, .nil⟩
  | cons first members ih =>
    rw [collect] at collected
    obtain ⟨part, middle, hfirst, collected⟩ := exists_of_bind_eq_ok collected
    obtain ⟨rest, final, hrest, ⟨⟩⟩ := exists_of_bind_eq_ok collected
    rw [List.pairwise_cons] at apart
    obtain ⟨later, comes, pairwise⟩ :=
      leaves first List.mem_cons_self store part middle indexed.later hfirst
    obtain ⟨later', comes', pairwise'⟩ := ih later.indexed apart.2
      (fun member hmember before part last hbefore =>
        leaves member (List.mem_cons_of_mem _ hmember) before part last (later.trans hbefore)) hrest
    refine ⟨later.trans later', fun result member => ?_, List.pairwise_append.2
      ⟨pairwise.imp (related_mono later'), pairwise', fun result hresult other hother => ?_⟩⟩
    · rcases List.mem_append.1 member with member | member
      · exact ⟨first, List.mem_cons_self, origin_mono later' (comes result member)⟩
      · obtain ⟨found, hfound, hcomes⟩ := comes' result member
        exact ⟨found, List.mem_cons_of_mem _ hfound, hcomes⟩
    · obtain ⟨found, hfound, hcomes⟩ := comes' other hother
      exact apart.1 found hfound result other _ (origin_mono later' (comes result hresult)) hcomes

/-- The row that a substitution reads leads on to the substitution itself. -/
theorem collect_of_reads {next : Substitution → Interning (List Substitution)}
    (indexed : last.Indexed) (reads : outcome.Reads last row)
    (again : next outcome last = .ok [outcome] last) :
    collect (fun row => bindRow row outcome >>= fun
      | some branch => next branch
      | none => pure []) [row] last = .ok [outcome] last := by
  have first : (bindRow row outcome >>= fun
      | some branch => next branch
      | none => pure []) last = .ok [outcome] last := by
    rw [bind_of_ok (bindRow_of_reads indexed reads)]
    exact again
  rw [collect, bind_of_ok first]
  rfl

/-- **An answer of the code**: it adds to the bindings that the run started with, and the code,
started with it in any later store, comes back with it alone. -/
structure Confirms (again : Substitution → Interning (List Substitution))
    (substitution outcome : Substitution) (store : Store) : Prop where
  /-- Nothing is bound differently. -/
  within : substitution.Within outcome
  /-- The run is repeated. -/
  repeats : ∀ last, store.Later last → again outcome last = .ok [outcome] last

theorem Confirms.mono {again : Substitution → Interning (List Substitution)}
    (later : store.Later last) (confirms : Confirms again substitution outcome store) :
    Confirms again substitution outcome last :=
  ⟨confirms.within, fun final further => confirms.repeats final (later.trans further)⟩

/-- Behind a row, too, outcomes confirm themselves and contradict each other, if they do behind the
substitution that the row leads to; and all of them read the row. -/
theorem confirms_row {next : Substitution → Interning (List Substitution)}
    (confirms : ∀ branch before results final, before.Indexed →
      next branch before = .ok results final →
        before.Later final ∧ (∀ outcome ∈ results, Confirms next branch outcome final) ∧
          results.Pairwise (Contradicts final))
    (indexed : store.Indexed) {part : List Substitution}
    (ran : (bindRow row substitution >>= fun
      | some branch => next branch
      | none => pure []) store = .ok part last) :
    store.Later last ∧
      (∀ outcome ∈ part, outcome.Reads last row ∧ Confirms next substitution outcome last) ∧
        part.Pairwise (Contradicts last) := by
  obtain ⟨answer, between, bound, ran⟩ := exists_of_bind_eq_ok ran
  obtain ⟨later, binds⟩ := lasts_bindRow indexed bound
  cases answer with
  | none =>
    obtain ⟨rfl, rfl⟩ := EStateM.Result.ok.inj ran
    exact ⟨later, List.forall_mem_nil _, .nil⟩
  | some branch =>
    obtain ⟨within, reads⟩ := binds branch rfl
    obtain ⟨later', confirms, pairwise⟩ := confirms branch between part last later.indexed ran
    refine ⟨later.trans later', fun outcome member => ?_, pairwise⟩
    obtain ⟨within', again⟩ := confirms outcome member
    exact ⟨reads.mono later'.extension within', within.trans within', again⟩

/-- **Outcomes confirm themselves and contradict each other**, from any operands on. -/
theorem confirms_outcomes (code : List Instruction) (indexed : store.Indexed)
    {results : List Substitution}
    (ran : outcomes code position stack substitution store = .ok results after) :
    store.Later after ∧
      (∀ outcome ∈ results, Confirms (outcomes code position stack) substitution outcome after) ∧
      results.Pairwise (Contradicts after) := by
  induction code generalizing store position stack substitution results after with
  | nil =>
    obtain ⟨rfl, rfl⟩ := EStateM.Result.ok.inj ran
    refine ⟨indexed.later, ?_, List.pairwise_singleton _ _⟩
    rintro _ member
    obtain rfl := List.mem_singleton.1 member
    exact ⟨.refl _, fun _ _ => rfl⟩
  | cons instruction code ih =>
    rw [outcomes] at ran
    obtain ⟨progress, middle, stepped, ran⟩ := exists_of_bind_eq_ok ran
    obtain ⟨later, lasts⟩ := lasts_step indexed stepped
    cases lasts with
    | stop =>
      obtain ⟨rfl, rfl⟩ := EStateM.Result.ok.inj ran
      exact ⟨later, List.forall_mem_nil _, .nil⟩
    | @next more next within repeats =>
      obtain ⟨later', confirms, pairwise⟩ := ih later.indexed ran
      refine ⟨later.trans later', fun outcome member => ?_, pairwise⟩
      obtain ⟨within', again⟩ := confirms outcome member
      refine ⟨within.trans within', fun last further => ?_⟩
      rw [outcomes, bind_of_ok (repeats outcome last within' (later'.trans further))]
      exact again last further
    | @fork more rows apart repeats =>
      -- An outcome reads the row that it comes from, so that outcomes of different rows contradict
      -- each other; and by the row that it reads it is led back to itself.
      obtain ⟨later', comes, pairwise⟩ := leaves_collect
        (fun row outcome store => outcome.Reads store row ∧
          Confirms (outcomes code (position + 1) more) substitution outcome store)
        Contradicts later.indexed
        (fun further => And.imp (Reads.mono further.extension (.refl _)) (Confirms.mono further))
        (fun further => Contradicts.mono further.extension)
        (apart.imp fun apart _ _ _ reads reads' => apart.contradicts reads.1 reads'.1)
        (fun _ _ _ _ _ before =>
          confirms_row (fun _ _ _ _ indexed ran => ih indexed ran) before.indexed) ran
      refine ⟨later.trans later', fun outcome member => ?_, pairwise⟩
      obtain ⟨row, hrow, reads, within, again⟩ := comes outcome member
      refine ⟨within, fun last further => ?_⟩
      have hreads : outcome.Reads last row := reads.mono further.extension (.refl _)
      rw [outcomes, bind_of_ok (repeats row hrow outcome last hreads (later'.trans further))]
      exact collect_of_reads further.indexed hreads (again last further)

/-- **Outcomes of the machine.** If a run of the code succeeds, in whatever store and from whatever
bindings, then every outcome extends the bindings that the run started with; any two outcomes bind
some slot to different strings; and the code, run again from an outcome in the store that the run
has left, has this outcome and no other one, and interns nothing. -/
theorem run_outcomes (shapes : List Shape) (code : List Instruction) (substitution : Substitution)
    {results : List Substitution} {after : Store}
    (ran : run code substitution (Store.filled shapes) = .ok results after) :
    (∀ outcome ∈ results, ∀ slot handle, substitution.get? slot = some handle →
        outcome.get? slot = some handle) ∧
      results.Pairwise (fun first second => ∃ slot handle other text text',
        first.get? slot = some handle ∧ second.get? slot = some other ∧ handle ≠ other ∧
          after.shape? handle = some (.string text) ∧ after.shape? other = some (.string text') ∧
            text ≠ text') ∧
      ∀ outcome ∈ results, run code outcome after = .ok [outcome] after := by
  obtain ⟨later, confirms, pairwise⟩ := confirms_outcomes code (Store.indexed_filled shapes) ran
  refine ⟨fun outcome member => (confirms outcome member).within, pairwise.imp ?_,
    fun outcome member => (confirms outcome member).repeats after later.indexed.later⟩
  intro first second contradicts
  obtain ⟨slot, handle, other, text, text', bound, bound', found, found', differ⟩ := contradicts
  rw [Store.string?_eq_some_iff] at found found'
  refine ⟨slot, handle, other, text, text', bound, bound', ?_, found, found', differ⟩
  rintro rfl
  rw [found] at found'
  cases found'
  exact differ rfl

/-- Code that cuts a string in two and then, with the two pieces put together again, in two equal
pieces. -/
def halving : List Instruction :=
  [.const (.string "aa"), .split [.piece 0, .piece 1], .load 0, .load 1, .concat 2,
    .split [.piece 2, .piece 2]]

theorem run_outcomes_halving : ∃ results after,
    run halving (.blank 0) (Store.filled [.string "a"]) = .ok results after ∧ results.length = 3 ∧
      (∃ first ∈ results, ∃ second ∈ results, first ≠ second) ∧
        ∀ outcome ∈ results, run halving outcome after = .ok [outcome] after := by
  obtain ⟨results, after, ran, three, differ⟩ : ∃ results after,
      run halving (.blank 0) (Store.filled [.string "a"]) = .ok results after ∧
        results.length = 3 ∧ ∃ first ∈ results, ∃ second ∈ results, first ≠ second :=
    ⟨_, _, rfl, rfl, by decide⟩
  obtain ⟨-, -, again⟩ := run_outcomes [.string "a"] halving (.blank 0) ran
  exact ⟨results, after, ran, three, differ, again⟩

/-! ### Runs in two stores -/

/-- **Runs do not see the numbers of handles.** Let two stores be filled from the start, each with
what one likes and in any order, and let two substitutions bind the same slots to handles with the
same trees. Then a run of the code fails in both stores with the same fault, or it has equally many
outcomes in both, which bind, one by one, the same slots to handles with the same trees. -/
theorem run_alike {first second : Register} (hfirst : Register.Leads .initial first)
    (hsecond : Register.Leads .initial second) (code : List Instruction)
    {left right : Substitution}
    (alike : ∀ slot, Option.Rel (fun handle other => ∃ term,
      first.store.expand handle = some term ∧ second.store.expand other = some term)
        (left.get? slot) (right.get? slot)) :
    (∃ fault after after', run code left first.store = .error fault after ∧
        run code right second.store = .error fault after') ∨
      ∃ results results' after after', run code left first.store = .ok results after ∧
        run code right second.store = .ok results' after' ∧ results.length = results'.length ∧
          List.Forall₂ (fun outcome outcome' => ∀ slot, Option.Rel (fun handle other => ∃ term,
            after.expand handle = some term ∧ after'.expand other = some term)
              (outcome.get? slot) (outcome'.get? slot)) results results' := by
  have sound : Stores.Sound (first.store, second.store) :=
    ⟨(hfirst.kept Register.kept_initial).1.sound, (hsecond.kept Register.kept_initial).1.sound⟩
  have agree := run_agree code sound alike
  rw [Interning.Agree] at agree
  cases hleft : run code left first.store with
  | error fault after =>
    cases hright : run code right second.store with
    | error fault' after' =>
      rw [hleft, hright] at agree
      obtain rfl := agree.2.2
      exact Or.inl ⟨fault, after, after', rfl, rfl⟩
    | ok results' after' =>
      rw [hleft, hright] at agree
      exact agree.elim
  | ok results after =>
    cases hright : run code right second.store with
    | error fault' after' =>
      rw [hleft, hright] at agree
      exact agree.elim
    | ok results' after' =>
      rw [hleft, hright] at agree
      have same := agree.2.2
      exact Or.inr ⟨results, results', after, after', rfl, rfl, same.length_eq, same⟩

/-- Code that compares the fourth slot with zero first. -/
def comparing : List Instruction := .load 3 :: .const (.const "z" []) :: .equal :: halving

/-- The fourth slot is bound. -/
def fourth (handle : Handle) : Substitution := ⟨[none, none, none, some handle]⟩

/-- Zero has the handle 3 in one store. -/
def unshifted : Register := Register.initial.ask (.const "z" [])

/-- Zero has the handle 4 in the other store. -/
def shifted : Register := (Register.initial.ask (.string "aa")).ask (.const "z" [])

theorem run_alike_shifted :
    Register.Leads .initial unshifted ∧ Register.Leads .initial shifted ∧
      ∃ results results' after after',
        run comparing (fourth 3) unshifted.store = .ok results after ∧
          run comparing (fourth 4) shifted.store = .ok results' after' ∧
            results.length = 3 ∧ results'.length = 3 := by
  have hfirst : Register.Leads .initial unshifted := (Register.Leads.refl _).ask _ (by decide)
  have hsecond : Register.Leads .initial shifted :=
    ((Register.Leads.refl _).ask _ (by decide)).ask _ (by decide)
  have alike : ∀ slot, Option.Rel (fun handle other => ∃ term,
      unshifted.store.expand handle = some term ∧ shifted.store.expand other = some term)
        ((fourth 3).get? slot) ((fourth 4).get? slot) := by
    rintro (_ | _ | _ | _ | slot)
    case succ.succ.succ.zero => exact .some ⟨.const "z" [], rfl, rfl⟩
    all_goals exact .none
  obtain ⟨results, after, ran, three⟩ : ∃ results after,
      run comparing (fourth 3) unshifted.store = .ok results after ∧ results.length = 3 :=
    ⟨_, _, rfl, rfl⟩
  rcases run_alike hfirst hsecond comparing alike with
    ⟨fault, last, -, failed, -⟩ | ⟨_, results', last, after', ran', ran'', length_eq, -⟩
  · rw [ran] at failed
    cases failed
  · rw [ran] at ran'
    obtain ⟨rfl, rfl⟩ := EStateM.Result.ok.inj ran'
    exact ⟨hfirst, hsecond, results, results', after, after', ran, ran'', three,
      length_eq.symm.trans three⟩

end Machine

end StableModels
