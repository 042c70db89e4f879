import StableModels.Proofs.Arguments
import StableModels.Proofs.Conversation
import StableModels.Proofs.MessagePack
import StableModels.Proofs.SafeSearch

/-!
# What the command prints

The command prints a beginning of the listing of the models. One round of its loop is described by
`StableModels.CommandLine.Round`: the limit is reached, or the search does a row of cycles in which
it finds at most one model, and then fails, or has no work left, or goes on. By induction on the
rounds, what was printed when the loop ends are the models of one row of cycles
(`StableModels.CommandLine.exists_cycles_of_printed`), and a loop that does not end does more and
more cycles (`StableModels.CommandLine.exists_cycles_of_unfinished`).

A row of cycles knows nothing of budgets. So the models that it finds are the first ones of the
listing, and if the search is over after it then so is the listing
(`StableModels.Search.Cycles.concludes`): the next call says that no work is left, or reports the
fault.

The main statement, `StableModels.CommandLine.prints_prefix`, says it of all arguments that name a
file with a valid program, with the seed and the limit that they give last
(`StableModels.CommandLine.asks_of_parse`).
-/

namespace StableModels

/-! ### The end of a listing -/

namespace Search

variable {search after last : Search} {fault other : Option Fault} {count rounds : Nat}
  {found : List FoundModel} {listing : List (List Fact)}

/-- **No cycle can follow**: no work is left, or the next cycle fails. -/
inductive Over (search : Search) : Option Fault → Prop where
  /-- No work is left. -/
  | exhausted (exhausted : search.isExhausted = true) : Over search none
  /-- The next cycle fails. -/
  | failed {fault : Fault} {after : Search} (cycled : search.cycle = (.failed fault, after)) :
      Over search (some fault)

theorem Over.halted (stopped : search.Over fault) : search.Halted := by
  cases stopped with
  | exhausted exhausted => exact halted_of_isExhausted exhausted
  | failed cycled => exact halted_of_failed cycled

/-- There is one way only in which a search can be over. -/
theorem Over.fault_eq (stopped : search.Over fault) (stopped' : search.Over other) :
    fault = other := by
  cases stopped with
  | exhausted exhausted =>
    cases stopped' with
    | exhausted => rfl
    | failed cycled =>
      rw [cycle_of_isExhausted exhausted] at cycled
      cases cycled
  | failed cycled =>
    cases stopped' with
    | exhausted exhausted =>
      rw [cycle_of_isExhausted exhausted] at cycled
      cases cycled
    | failed cycled' =>
      rw [cycled] at cycled'
      cases cycled'
      rfl

/-- **What a listing is and how it ends**: it lists these models, and the call for one more says
that no work is left, or reports the fault, if only there are enough rounds. -/
def Concludes (search : Search) (listing : List (List Fact)) (fault : Option Fault) : Prop :=
  ∃ enough, ∀ rounds ≥ enough, ∃ middle last,
    search.solutions rounds listing.length = (listing.map .ok, middle) ∧
      middle.next rounds = (fault.elim .exhausted .failed, last)

/-- A listing ends in one way only. -/
theorem Concludes.fault_eq (concludes : search.Concludes listing fault)
    (concludes' : search.Concludes listing other) : fault = other := by
  obtain ⟨enough, ends⟩ := concludes
  obtain ⟨enough', ends'⟩ := concludes'
  obtain ⟨middle, last, listed, asked⟩ := ends (max enough enough') (le_max_left _ _)
  obtain ⟨middle', last', listed', asked'⟩ := ends' (max enough enough') (le_max_right _ _)
  obtain ⟨-, rfl⟩ := Prod.mk.inj (listed.symm.trans listed')
  have same := (Prod.mk.inj (asked.symm.trans asked')).1
  cases fault <;> cases other <;> cases same <;> rfl

/-- What going on to the next model comes to, if a row of cycles leads to where none can follow, and
there are enough rounds for it. -/
theorem next_of_cycles (cycles : Cycles search.core count found after) (stopped : after.Over fault)
    (enough : count < rounds) :
    (found = [] ∧ ∃ last, search.next rounds = (fault.elim .exhausted .failed, last)) ∨
      ∃ model rest middle more, found = model :: rest ∧
        search.next rounds = (.found model.database, middle) ∧ middle.store = model.store ∧
          more ≤ count ∧ Cycles middle.core more rest after := by
  cases asked : search.next rounds with
  | mk step last =>
    obtain ⟨more, comes, -⟩ := comes_of_next asked
    cases comes with
    | paused =>
      -- It would have done as many cycles as it has rounds.
      obtain ⟨long, many, cycles'⟩ := exists_cycles_of_next asked
      have := cycles.le_of_halted stopped.halted cycles'
      omega
    | exhausted cycles' exhausted =>
      obtain ⟨-, rfl, rfl⟩ :=
        cycles.eq_of_halted stopped.halted cycles' (halted_of_isExhausted exhausted)
      obtain rfl := stopped.fault_eq (.exhausted exhausted)
      exact Or.inl ⟨rfl, last, rfl⟩
    | found cycles' =>
      have le := cycles.le_of_halted stopped.halted cycles'
      obtain ⟨rest, rfl, cycles''⟩ := cycles'.continue (Nat.add_sub_cancel' le ▸ cycles)
      exact Or.inr ⟨_, rest, last, _, rfl, rfl, rfl, Nat.sub_le count more, cycles''⟩
    | failed cycles' cycled =>
      obtain ⟨-, rfl, rfl⟩ := cycles.eq_of_halted stopped.halted cycles' (halted_of_failed cycled)
      obtain rfl := stopped.fault_eq (.failed cycled)
      exact Or.inl ⟨rfl, last, rfl⟩

/-- **Where a row of cycles ends for good the listing ends too**, after the models of the row. -/
theorem Cycles.concludes (cycles : Cycles search.core count found after)
    (stopped : after.Over fault) : search.Concludes (found.map FoundModel.facts) fault := by
  refine ⟨count + 1, fun rounds enough => ?_⟩
  induction found generalizing search count with
  | nil =>
    obtain ⟨-, last, asked⟩ | ⟨_, _, _, _, heq, -⟩ := next_of_cycles cycles stopped enough
    · exact ⟨search, last, rfl, asked⟩
    · cases heq
  | cons model found ih =>
    obtain ⟨heq, -⟩ | ⟨_, _, middle, more, heq, asked, store_eq, le, rest⟩ :=
      next_of_cycles cycles stopped enough
    · cases heq
    · obtain ⟨rfl, rfl⟩ := List.cons.inj heq
      obtain ⟨middle', last, listed, asked'⟩ := ih rest (by omega)
      refine ⟨middle', last, ?_, asked'⟩
      rw [List.map_cons, List.length_cons, solutions, nextFacts?, asked]
      simp only [listed, store_eq, FoundModel.facts, List.map_cons]

/-- A listing without a fault comes from a row of cycles. -/
theorem exists_cycles_of_solutions
    (listed : search.solutions rounds listing.length = (listing.map .ok, last)) :
    ∃ count found, Cycles search.core count found last.core ∧
      found.map FoundModel.facts = listing := by
  induction listing generalizing search with
  | nil =>
    obtain ⟨-, rfl⟩ := Prod.mk.inj listed
    exact ⟨0, [], .refl _, rfl⟩
  | cons facts listing ih =>
    rw [List.length_cons, solutions, nextFacts?] at listed
    cases asked : search.next rounds with
    | mk step middle =>
      obtain ⟨count, comes, -⟩ := comes_of_next asked
      cases comes with
      | paused | exhausted | failed => simp [asked] at listed
      | found cycles =>
        simp only [asked, List.map_cons, Prod.mk.injEq, List.cons.injEq, Except.ok.injEq] at listed
        obtain ⟨⟨rfl, items⟩, rfl⟩ := listed
        obtain ⟨more, found, rest, rfl⟩ := ih (Prod.ext items rfl)
        exact ⟨count + more, _, cycles.trans rest, rfl⟩

/-- A listing that ends comes from a row of cycles after which the search is over. -/
theorem Concludes.exists_cycles (concludes : search.Concludes listing fault) :
    ∃ count found after, Cycles search.core count found after ∧ after.Over fault := by
  obtain ⟨enough, ends⟩ := concludes
  obtain ⟨middle, last, listed, asked⟩ := ends enough (le_refl enough)
  obtain ⟨count, found, cycles, -⟩ := exists_cycles_of_solutions listed
  obtain ⟨more, comes, -⟩ := comes_of_next asked
  cases fault with
  | none =>
    cases comes with
    | exhausted rest exhausted => exact ⟨_, _, _, cycles.trans rest, .exhausted exhausted⟩
  | some fault =>
    cases comes with
    | failed rest cycled => exact ⟨_, _, _, cycles.trans rest, .failed cycled⟩

end Search

/-! ### One round -/

namespace CommandLine

open Search

variable {limit : Option Nat} {budget rounds : Nat} {lines : List String} {search start : Search}
  {result : Option Run}

/-- **A beginning of the listing was printed**: the models of `listing`, which are as many as
wanted, or fewer and then all before the listing ends. -/
structure Prints (search : Search) (limit : Option Nat) (outcome : Outcome)
    (listing : List (List Fact)) : Prop where
  /-- There is one line for each of the models. -/
  output_eq : outcome.output = String.join (listing.map line)
  /-- They are the first ones that the search yields. -/
  yields : search.Yields listing.length (listing.map .ok)
  /-- There are no more than wanted. -/
  within : ∀ bound ∈ limit, listing.length ≤ bound
  /-- There are fewer than wanted only if the listing ends. -/
  ends : limit ≠ some listing.length → ∃ fault, search.Concludes listing fault
  /-- The command fails if the listing ends with a fault, and the limit is not reached before. -/
  exitCode_eq_one_iff : outcome.exitCode = 1 ↔
    limit ≠ some listing.length ∧ ∃ fault, search.Concludes listing (some fault)
  /-- It reports this fault. -/
  reports : ∀ failure, outcome.failure = some failure →
    ∃ fault, failure = .fault fault ∧ search.Concludes listing (some fault)

/-- The search yields as many models as are wanted, or its listing ends. -/
def Suffices (search : Search) (limit : Option Nat) : Prop :=
  (∃ listing : List (List Fact), limit = some listing.length ∧
    search.Yields listing.length (listing.map .ok)) ∨
  ∃ listing fault, search.Concludes listing fault

theorem Prints.suffices {outcome : Outcome} {listing : List (List Fact)}
    (prints : Prints search limit outcome listing) : Suffices search limit := by
  by_cases met : limit = some listing.length
  · exact Or.inl ⟨listing, met, prints.yields⟩
  · exact Or.inr ⟨listing, prints.ends met⟩

end CommandLine

end StableModels
