import StableModels.Proofs.Listing
import StableModels.Proofs.Obstruction

/-!
# When a tuple is refused

No key of a trie is a proper beginning of another one (`StableModels.Trie.eq_of_isPrefix`), and that
is all that a trie asks of a key: it refuses just the keys that overlap with a stored one in this
way (`StableModels.Trie.Sound.refuses_iff_overlaps`).

For a database this means that a tuple is refused exactly if a tuple of the same predicate is a
proper beginning of it or goes on behind it. Such a tuple has another number of arguments, but not
every tuple with another number of arguments is one: a predicate is held to one arity only along the
beginnings of its tuples, and may have tuples of several lengths side by side
(`StableModels.Database.not_forall_refuses_iff`).
-/

universe u

namespace StableModels

/-! ### Overlapping keys -/

/-- **One of two different keys is a beginning of the other.** -/
def Overlaps (first second : List Handle) : Prop :=
  first ≠ second ∧ (first <+: second ∨ second <+: first)

theorem Overlaps.length_ne {first second : List Handle} (overlaps : Overlaps first second) :
    first.length ≠ second.length := by
  obtain ⟨differ, start | start⟩ := overlaps
  · exact fun same => differ (start.eq_of_length same)
  · exact fun same => differ (start.eq_of_length same.symm).symm

namespace Trie

variable {α : Type u} {trie : Trie α} {keys first second : List Handle} {payload : α}

theorem Clashes.overlaps {stored : List Handle} {fault : Fault}
    (clashes : Clashes keys stored fault) : Overlaps keys stored := by
  cases clashes with
  | endsInside start proper => exact ⟨proper, Or.inl start⟩
  | passesLeaf start proper => exact ⟨proper.symm, Or.inr start⟩

/-- **The keys of a trie are prefix-free**: below the leaf of one there is no other. -/
theorem eq_of_isPrefix (hfirst : (trie.find? first).isSome = true)
    (hsecond : (trie.find? second).isSome = true) (start : first <+: second) : first = second := by
  obtain ⟨rest, rfl⟩ := start
  obtain ⟨payload, found⟩ := Option.isSome_iff_exists.1 hfirst
  rw [find?, lookup_append, find?_eq_some_iff_lookup.1 found] at hsecond
  cases rest with
  | nil => exact (List.append_nil first).symm
  | cons key rest => cases hsecond

theorem not_overlaps (hfirst : (trie.find? first).isSome = true)
    (hsecond : (trie.find? second).isSome = true) : ¬Overlaps first second := by
  rintro ⟨differ, start | start⟩
  · exact differ (eq_of_isPrefix hfirst hsecond start)
  · exact differ (eq_of_isPrefix hsecond hfirst start).symm

/-- **A sound trie refuses just the keys that overlap with one that it holds.** -/
theorem Sound.refuses_iff_overlaps (sound : trie.Sound) :
    (∃ fault, trie.insert keys payload = .error fault) ↔
      ∃ stored, (trie.find? stored).isSome = true ∧ Overlaps keys stored := by
  constructor
  · rintro ⟨fault, refused⟩
    obtain ⟨stored, held, clashes⟩ := sound.exists_clash refused
    exact ⟨stored, held, clashes.overlaps⟩
  · rintro ⟨stored, held, overlaps⟩
    cases inserted : trie.insert keys payload with
    | error fault => exact ⟨fault, rfl⟩
    | ok result =>
      -- The trie would hold both keys.
      obtain ⟨-, -, -, find⟩ := sound.insert inserted
      have hkeys : (result.1.find? keys).isSome = true := by rw [find, if_pos rfl]; rfl
      have hstored : (result.1.find? stored).isSome = true := by
        rwa [find, if_neg overlaps.1.symm]
      exact absurd overlaps (not_overlaps hkeys hstored)

end Trie

/-! ### Databases -/

namespace Database

variable {database : Database} {settings : List Setting} {name : String} {args : List Handle}
  {constraint : Constraint}

/-- A database refuses a tuple exactly if the relation of its predicate does. -/
theorem set_refused_iff :
    (∃ fault, database.set name args constraint = .error fault) ↔
      ∃ fault, ((database.relation? name).getD {}).tuples.insert args constraint =
        .error fault := by
  rw [Database.set, Relation.set]
  cases ((database.relation? name).getD {}).tuples.insert args constraint <;> simp

/-- **A sound database refuses just the tuples that overlap with one of the same predicate.** -/
theorem Sound.refuses_iff_overlaps (sound : database.Sound) :
    (∃ fault, database.set name args constraint = .error fault) ↔
      ∃ stored, (database.get? name stored).isSome = true ∧ Overlaps args stored := by
  rw [set_refused_iff, (sound.getD_relation? name).tuples.refuses_iff_overlaps]
  simp only [get?_eq_getD, Relation.get?]

/-- **Which tuples are refused.** A database that was filled by settings refuses one more setting
exactly if a tuple of the same predicate has been set that is a proper beginning of the new one or
goes on behind it. The fault is then a broken invariant, which says where the two tuples part, and
they have different numbers of arguments. -/
theorem Filled.refuses_iff (filled : Filled settings database) (name : String)
    (args : List Handle) (constraint : Constraint) :
    ((∃ fault, database.set name args constraint = .error fault) ↔
      ∃ stored, (lastSet? name stored settings).isSome = true ∧ Overlaps args stored) ∧
      ∀ fault, database.set name args constraint = .error fault →
        fault.kind = .invariant ∧ ∃ stored, (lastSet? name stored settings).isSome = true ∧
          Trie.Clashes args stored fault ∧ stored.length ≠ args.length := by
  simp only [← filled.get?_eq]
  refine ⟨filled.sound.refuses_iff_overlaps, fun fault refused => ?_⟩
  obtain ⟨stored, held, clashes⟩ := filled.sound.exists_clash refused
  exact ⟨clashes.kind_eq, stored, held, clashes, clashes.overlaps.length_ne.symm⟩

/-- One tuple of a predicate, with one argument. -/
def single : List Setting := [⟨"p", [3], .just 0⟩]

theorem filled_single : ∃ database, Filled single database := ⟨_, .set .empty rfl⟩

/-- Tuples of two arguments are refused behind the one of one argument, and accepted beside it. -/
theorem Filled.refuses_iff_single : ∃ database, Filled single database ∧
    (∃ fault, database.set "p" [3, 4] (.just 0) = .error fault ∧ fault.kind = .invariant) ∧
      ¬∃ fault, database.set "p" [4, 4] (.just 0) = .error fault := by
  obtain ⟨database, filled⟩ := filled_single
  obtain ⟨refused, kind⟩ := filled.refuses_iff "p" [3, 4] (.just 0)
  obtain ⟨fault, hfault⟩ := refused.2 ⟨[3], rfl, by simp [Overlaps]⟩
  refine ⟨database, filled, ⟨fault, hfault, (kind fault hfault).1⟩, ?_⟩
  rw [(filled.refuses_iff "p" [4, 4] (.just 0)).1]
  rintro ⟨stored, held, overlaps⟩
  -- Only one tuple has been set.
  obtain rfl : stored = [3] := by
    by_contra other
    simp [single, lastSet?, other] at held
  simp [Overlaps] at overlaps

/-- **A predicate is not held to one arity**: a tuple is accepted beside one with another number of
arguments. -/
theorem not_forall_refuses_iff :
    ¬∀ settings database name args constraint, Filled settings database →
      ((∃ fault, database.set name args constraint = .error fault ∧ fault.kind = .invariant) ↔
        ∃ stored, (database.get? name stored).isSome = true ∧ stored.length ≠ args.length) := by
  intro one_arity
  have filled : Filled single _ := .set .empty rfl
  obtain ⟨fault, refused, -⟩ :=
    (one_arity _ _ "p" [4, 4] (.just 0) filled).2 ⟨[3], rfl, by decide⟩
  cases refused

end Database

end StableModels
