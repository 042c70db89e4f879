import Mathlib.Data.List.Forall2
import Mathlib.Data.Set.Card
import StableModels.Segmentation

/-!
# What the segmentations of a string are

A row of texts **segments** a subject by a template if it has one text for each piece, a known piece
its own, and if the literals and these texts, put together in the order of the template, are the
subject (`StableModels.Segment.Segments`). Nothing in this says how such rows are found.

They are found by a recursion over the template that cuts the subject in all ways at each free piece
but the last one of the template, which has to take the rest. The main statement,
`StableModels.segmentations_enumerate`, says that this lists exactly the rows that segment the
subject, each of them once, ascending by the lengths of the free pieces from left to right, and that
a row cuts the encoded subject between characters only.
-/

namespace StableModels

namespace Segment

/-! ### Rows of texts -/

/-- The piece that a segment is: its text, if that is known. None for a literal. -/
def piece? : Segment → Option (Option (List Char))
  | literal _ => none
  | known text => some (some text)
  | free => some none

/-- The row has one text for each piece, and a known piece has its own. -/
def Assigns (template : List Segment) (row : List (List Char)) : Prop :=
  List.Forall₂ (fun piece text => ∀ own, piece = some own → text = own) (template.filterMap piece?)
    row

/-- The texts of all segments, where those of the pieces are taken from the row. -/
def texts : List Segment → List (List Char) → List (List Char)
  | literal text :: template, row => text :: texts template row
  | known _ :: template, text :: row | free :: template, text :: row => text :: texts template row
  | [], _ | known _ :: _, [] | free :: _, [] => []

/-- The lengths of the texts of the free pieces. -/
def freeLengths : List Segment → List (List Char) → List Nat
  | literal _ :: template, row | known _ :: template, _ :: row => freeLengths template row
  | free :: template, text :: row => text.length :: freeLengths template row
  | [], _ | known _ :: _, [] | free :: _, [] => []

/-- **The row segments the subject**: it assigns a text to each piece, and the texts of all segments
make up the subject. -/
def Segments (template : List Segment) (subject : List Char) (row : List (List Char)) : Prop :=
  Assigns template row ∧ (texts template row).flatten = subject

variable {template : List Segment} {text subject : List Char} {row : List (List Char)}

theorem segments_nil : Segments [] subject row ↔ row = [] ∧ subject = [] := by
  simp [Segments, Assigns, texts, eq_comm]

theorem segments_literal : Segments (literal text :: template) subject row ↔
    ∃ rest, text ++ rest = subject ∧ Segments template rest row := by
  simp [Segments, Assigns, texts, List.filterMap_cons, piece?, and_comm]

theorem segments_known : Segments (known text :: template) subject row ↔
    ∃ others rest, row = text :: others ∧ text ++ rest = subject ∧
      Segments template rest others := by
  rcases row with _ | ⟨first, others⟩
  · simp [Segments, Assigns, piece?]
  · simp only [Segments, Assigns, piece?, texts, List.filterMap_cons, List.forall₂_cons,
      Option.some.injEq, forall_eq', List.flatten_cons, List.cons.injEq]
    constructor
    · rintro ⟨⟨rfl, assigns⟩, rfl⟩
      exact ⟨others, _, ⟨rfl, rfl⟩, rfl, assigns, rfl⟩
    · rintro ⟨_, rest, ⟨rfl, rfl⟩, rfl, assigns, rfl⟩
      exact ⟨⟨rfl, assigns⟩, rfl⟩

theorem segments_free : Segments (free :: template) subject row ↔
    ∃ first others rest, row = first :: others ∧ first ++ rest = subject ∧
      Segments template rest others := by
  rcases row with _ | ⟨first, others⟩
  · simp [Segments, Assigns, piece?]
  · simp only [Segments, Assigns, piece?, texts, List.filterMap_cons, List.forall₂_cons,
      reduceCtorEq, false_implies, implies_true, true_and, List.flatten_cons, List.cons.injEq]
    constructor
    · rintro ⟨assigns, rfl⟩
      exact ⟨first, others, _, ⟨rfl, rfl⟩, rfl, assigns, rfl⟩
    · rintro ⟨_, _, rest, ⟨rfl, rfl⟩, rfl, assigns, rfl⟩
      exact ⟨assigns, rfl⟩

end Segment

open Segment

variable {template : List Segment} {text rest subject : List Char} {row : List (List Char)}

/-! ### Cutting a text -/

theorem afterStart?_eq_some_iff :
    afterStart? text subject = some rest ↔ text ++ rest = subject := by
  fun_induction afterStart? text subject with
  | case1 subject => simp [eq_comm]
  | case2 => simp
  | case3 char text rest ih => simp [ih]
  | case4 char text first rest differs => simp [differs]

theorem segmentations_literal (cut : text ++ rest = subject) :
    segmentations (.literal text :: template) subject = segmentations template rest := by
  rw [segmentations, afterStart?_eq_some_iff.2 cut]

theorem segmentations_known (cut : text ++ rest = subject) :
    segmentations (.known text :: template) subject =
      (segmentations template rest).map (text :: ·) := by
  rw [segmentations, afterStart?_eq_some_iff.2 cut]

theorem mem_cuts {cut : List Char × List Char} : cut ∈ cuts text ↔ cut.1 ++ cut.2 = text := by
  obtain ⟨start, rest⟩ := cut
  induction text generalizing start with
  | nil => simp [cuts]
  | cons char text ih =>
    rcases start with _ | ⟨first, start⟩
    · simp [cuts]
    · simp only [cuts, List.mem_cons, List.mem_map, Prod.mk.injEq, List.cons_append,
        List.cons.injEq]
      constructor
      · rintro (⟨⟨⟩, -⟩ | ⟨⟨start', rest'⟩, member, ⟨rfl, rfl⟩, rfl⟩)
        exact ⟨rfl, (ih start').1 member⟩
      · rintro ⟨rfl, cut⟩
        exact Or.inr ⟨(start, rest), (ih start).2 cut, ⟨rfl, rfl⟩, rfl⟩

/-- The first parts of the cuts get longer and longer. -/
theorem pairwise_cuts (text : List Char) :
    (cuts text).Pairwise fun first second => first.1.length < second.1.length := by
  induction text with
  | nil => simp [cuts]
  | cons char text ih =>
    refine List.pairwise_cons.2 ⟨fun cut member => ?_, List.pairwise_map.2 (ih.imp ?_)⟩
    · obtain ⟨shorter, -, rfl⟩ := List.mem_map.1 member
      exact Nat.succ_pos _
    · exact fun below => Nat.succ_lt_succ below

/-! ### All rows, each once and in order -/

/-- **The segmentations are the rows that segment the subject.** -/
theorem mem_segmentations :
    row ∈ segmentations template subject ↔ Segments template subject row := by
  fun_induction segmentations template subject generalizing row with
  | case1 subject empty =>
    rw [List.mem_singleton, segments_nil, and_iff_left (List.isEmpty_iff.1 empty)]
  | case2 subject nonempty =>
    rw [segments_nil]
    exact ⟨nofun, fun ⟨_, empty⟩ => absurd (List.isEmpty_iff.2 empty) nonempty⟩
  | case3 text template subject none =>
    simp [segments_literal, ← afterStart?_eq_some_iff, none]
  | case4 text template subject rest found ih =>
    simp [segments_literal, ← afterStart?_eq_some_iff, found, ih]
  | case5 text template subject none =>
    simp [segments_known, ← afterStart?_eq_some_iff, none]
  | case6 text template subject rest found ih =>
    rw [segments_known]
    simp only [← afterStart?_eq_some_iff, found, List.mem_map, ih, Option.some.injEq]
    constructor
    · rintro ⟨others, segments, rfl⟩
      exact ⟨others, rest, rfl, rfl, segments⟩
    · rintro ⟨others, _, rfl, rfl, segments⟩
      exact ⟨others, segments, rfl⟩
  | case7 subject => simp [segments_free, segments_nil]
  | case8 segment template subject ih =>
    simp only [List.mem_flatMap, mem_cuts, List.mem_map]
    rw [segments_free]
    constructor
    · rintro ⟨⟨first, rest⟩, cut, others, member, rfl⟩
      exact ⟨first, others, rest, rfl, cut, (ih (first, rest)).1 member⟩
    · rintro ⟨first, others, rest, rfl, cut, segments⟩
      exact ⟨(first, rest), cut, others, (ih (first, rest)).2 segments, rfl⟩

/-- **The segmentations ascend** by the lengths of the free pieces, from left to right. -/
theorem pairwise_segmentations (template : List Segment) (subject : List Char) :
    (segmentations template subject).Pairwise fun first second =>
      freeLengths template first < freeLengths template second := by
  fun_induction segmentations template subject with
  | case1 | case2 | case3 | case5 | case7 => simp
  | case4 text template subject rest found ih => simpa only [freeLengths] using ih
  | case6 text template subject rest found ih =>
    simpa only [List.pairwise_map, freeLengths] using ih
  | case8 segment template subject ih =>
    refine List.pairwise_flatMap.2 ⟨fun cut _ => ?_, (pairwise_cuts subject).imp ?_⟩
    · -- Rows that begin alike ascend by what follows.
      refine List.pairwise_map.2 ((ih cut).imp fun below => ?_)
      exact List.cons_lt_cons_iff.2 (Or.inr ⟨rfl, below⟩)
    · intro cut later shorter first hfirst second hsecond
      obtain ⟨others, -, rfl⟩ := List.mem_map.1 hfirst
      obtain ⟨others', -, rfl⟩ := List.mem_map.1 hsecond
      exact List.cons_lt_cons_iff.2 (Or.inl shorter)

theorem nodup_segmentations (template : List Segment) (subject : List Char) :
    (segmentations template subject).Nodup := by
  refine (pairwise_segmentations template subject).imp ?_
  rintro first _ below rfl
  exact lt_irrefl _ below

/-- The place behind the first few texts of a row lies between two characters of the subject. -/
theorem isValid_of_segments {subject : String} (segments : Segments template subject.toList row)
    (count : Nat) :
    (String.ofList ((texts template row).take count).flatten).rawEndPos.IsValid subject := by
  refine String.Pos.Raw.isValid_iff_exists_append.2
    ⟨_, String.ofList ((texts template row).drop count).flatten, ?_, rfl⟩
  rw [← String.ofList_append, ← List.flatten_append, List.take_append_drop, segments.2,
    String.ofList_toList]

/-- **What the segmentations of a string are.** They are exactly the rows that assign a text to each
piece of the template, a known piece its own, such that the texts of all segments make up the
subject. Each such row is listed once, and so the length of the list is their number; the rows
ascend by the lengths of the free pieces from left to right; and each place where a row cuts the
encoded subject lies between two characters. -/
theorem segmentations_enumerate (template : List Segment) (subject : String) :
    (∀ row, row ∈ segmentations template subject.toList ↔
        Assigns template row ∧ (texts template row).flatten = subject.toList) ∧
      (∀ row ∈ segmentations template subject.toList,
        (segmentations template subject.toList).count row = 1) ∧
      (segmentations template subject.toList).length =
        {row | Assigns template row ∧ (texts template row).flatten = subject.toList}.ncard ∧
      ((segmentations template subject.toList).Pairwise fun first second =>
        freeLengths template first < freeLengths template second) ∧
      ∀ row ∈ segmentations template subject.toList, ∀ count,
        (String.ofList ((texts template row).take count).flatten).rawEndPos.IsValid subject := by
  have nodup := nodup_segmentations template subject.toList
  refine ⟨fun row => mem_segmentations, fun row => List.count_eq_one_of_mem nodup, ?_,
    pairwise_segmentations _ _, fun row member => isValid_of_segments (mem_segmentations.1 member)⟩
  rw [← List.toFinset_card_of_nodup nodup, ← Set.ncard_coe_finset]
  congr 1
  ext row
  exact List.mem_toFinset.trans mem_segmentations

/-- Three free pieces, of which the last one takes the rest. -/
example : segmentations [.free, .literal ['-'], .free] "a-b-".toList =
    [[['a'], ['b', '-']], [['a', '-', 'b'], []]] := by decide

end StableModels
