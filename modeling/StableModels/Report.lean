import StableModels.Search

/-!
# Models as the host sees them

A model is reported to the host as the list of its facts, with every term in full: handles mean
nothing outside the search.
-/

namespace StableModels

/-- A fact with its terms in full. -/
structure Fact where
  /-- The predicate. -/
  name : String
  /-- The arguments. -/
  args : List Term
  /-- The value. -/
  value : Term

namespace Store

/-- The term behind a handle of this store. -/
def term (store : Store) (handle : Handle) : Term := (store.expand handle).getD .unit

/-- A stored fact with its terms in full. -/
def fact (store : Store) (stored : StoredFact) : Fact :=
  ⟨stored.name, stored.args.map store.term, store.term stored.value⟩

/-- The facts of a database in full, in their order. -/
def facts (store : Store) (database : Database) : List Fact := database.facts.map store.fact

end Store

/-- What one step of a search achieved. -/
structure Report where
  /-- The model that was found, if one was. -/
  solution : Option (List Fact)
  /-- No work is left. -/
  exhausted : Bool
  /-- What the search has done so far. -/
  stats : Stats

namespace Search

/-- Spends a budget of cycles and reports. -/
def advance (budget : Nat) (search : Search) : Except Fault Report × Search :=
  match search.step budget with
  | (.failed fault, search) => (.error fault, search)
  | (.found model, search) =>
    (.ok ⟨some (search.store.facts model), search.isExhausted, search.stats⟩, search)
  | (.paused, search) | (.exhausted, search) =>
    (.ok ⟨none, search.isExhausted, search.stats⟩, search)

/-- The next model, or the fault that is met before it; none if the search ends without either,
or has not come to it in `rounds` steps without limit. -/
def nextFacts? (rounds : Nat) (search : Search) : Option (Except Fault (List Fact)) × Search :=
  match search.next rounds with
  | (.found model, search) => (some (.ok (search.store.facts model)), search)
  | (.failed fault, search) => (some (.error fault), search)
  | (.exhausted, search) | (.paused, search) => (none, search)

/-- At most `count` further models. A fault takes the place of a model, and is the last item
because it drops all work that is left. -/
def solutions (rounds : Nat) : Nat → Search → List (Except Fault (List Fact)) × Search
  | 0, search => ([], search)
  | count + 1, search =>
    match search.nextFacts? rounds with
    | (none, search) => ([], search)
    | (some item, search) =>
      let (items, search) := search.solutions rounds count
      (item :: items, search)

end Search

end StableModels
