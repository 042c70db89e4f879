import StableModels.Proofs.Enumeration
import StableModels.Proofs.Slicing
import StableModels.Worker

/-!
# Conversations with a worker

A host sends requests to a worker and polls it, in any order and with any budgets; each exchange
consists of a move of the host and the answer of the worker. What the host can rely on is collected
in `StableModels.Worker.Protocol`, and holds of all conversations
(`StableModels.Worker.protocol_converse`).

The models that the host is told are those that the search for the program yields on its own
(`StableModels.Search.Yields`): each poll goes on with the same run of cycles, however many polls it
takes. What the worker is about is read off the conversation so far
(`StableModels.Worker.Stands`), exchange by exchange. From the program until a poll says that it is
done it has the search that the conversation has come to, and works on it in every poll that comes
after a start with no stop in between (`StableModels.Worker.UnderWay`). Once its search is over or
it has failed, its answers depend on the moves alone.
-/

namespace StableModels

/-! ### What a search yields -/

namespace Search

variable {search before middle after last : Search} {step : Step} {fault : Fault}
  {count rounds : Nat} {models others : List FoundModel} {items : List (Except Fault (List Fact))}

/-- The facts of models as items of a listing. -/
def listed (models : List FoundModel) : List (Except Fault (List Fact)) :=
  models.map fun model => .ok model.facts

@[simp] theorem length_listed (models : List FoundModel) :
    (listed models).length = models.length :=
  List.length_map _

theorem listed_append (models others : List FoundModel) :
    listed (models ++ others) = listed models ++ listed others :=
  List.map_append

/-- Going on to the next model pauses only after as many cycles as it has rounds. -/
theorem exists_cycles_of_next (found : search.next rounds = (.paused, after)) :
    ∃ count ≥ rounds, Cycles search.core count [] after.core := by
  induction rounds generalizing search with
  | zero =>
    obtain ⟨-, rfl⟩ := Prod.mk.inj found
    exact ⟨0, le_refl 0, .refl _⟩
  | succ rounds ih =>
    rw [next] at found
    cases stepped : search.step unlimited with
    | mk first middle =>
      rw [stepped] at found
      cases first with
      | found | exhausted | failed => cases found
      | paused =>
        obtain ⟨count, -, comes, -, active⟩ := comes_of_step stepped
        obtain ⟨more, le, cycles'⟩ := ih found
        cases comes with
        | paused cycles =>
          have positive := active (by simp)
          exact ⟨count + more, by omega, cycles.trans cycles'⟩

theorem next_of_isExhausted (exhausted : search.isExhausted = true) (rounds : Nat) :
    ∃ last, search.nextFacts? rounds = (none, last) := by
  rw [nextFacts?]
  cases found : search.next rounds with
  | mk step after =>
    obtain ⟨count, comes, -⟩ := comes_of_next found
    have core_exhausted : search.core.isExhausted = true := exhausted
    cases comes with
    | paused | exhausted => exact ⟨after, rfl⟩
    | found cycles =>
      have length_le := cycles.length_le
      rw [(cycles.eq_of_isExhausted core_exhausted).2] at length_le
      cases length_le
    | failed cycles cycled =>
      rw [(cycles.eq_of_isExhausted core_exhausted).1] at cycled
      rw [cycle_of_isExhausted core_exhausted] at cycled
      cases cycled

theorem isExhausted_of_next_failed (found : search.next rounds = (.failed fault, after)) :
    after.isExhausted = true := by
  induction rounds generalizing search with
  | zero => cases found
  | succ rounds ih =>
    rw [next] at found
    cases stepped : search.step unlimited with
    | mk first middle =>
      rw [stepped] at found
      cases first with
      | found | exhausted => cases found
      | paused => exact ih found
      | failed =>
        obtain ⟨-, rfl⟩ := Prod.mk.inj found
        rfl

/-- Nothing is listed of a search that has no work left. -/
theorem solutions_of_isExhausted (exhausted : search.isExhausted = true) (rounds count : Nat) :
    (search.solutions rounds count).1 = [] := by
  cases count with
  | zero => rfl
  | succ count =>
    obtain ⟨last, none_left⟩ := next_of_isExhausted exhausted rounds
    rw [solutions, none_left]

/-- **What listing so many models comes to**: a row of cycles that finds them, or fewer if no work
is left, if the rounds do not suffice, or if the next cycle fails. -/
inductive Lists (search : Search) (rounds count : Nat) :
    List (Except Fault (List Fact)) → Prop where
  /-- There are so many. -/
  | full {more : Nat} {models : List FoundModel} {after : Search}
      (cycles : Cycles search more models after) (length_eq : models.length = count) :
      Lists search rounds count (listed models)
  /-- No work is left. -/
  | ended {more : Nat} {models : List FoundModel} {after : Search}
      (cycles : Cycles search more models after) (length_lt : models.length < count)
      (exhausted : after.isExhausted = true) : Lists search rounds count (listed models)
  /-- The rounds do not suffice. -/
  | tired {more : Nat} {models : List FoundModel} {after : Search}
      (cycles : Cycles search more models after) (length_lt : models.length < count)
      (long : rounds ≤ more) : Lists search rounds count (listed models)
  /-- The next cycle fails. -/
  | failed {more : Nat} {models : List FoundModel} {fault : Fault} {before after : Search}
      (cycles : Cycles search more models before) (length_lt : models.length < count)
      (cycled : before.cycle = (.failed fault, after)) :
      Lists search rounds count (listed models ++ [.error fault])

/-- Cycles that find models may come before. -/
theorem Cycles.lists (cycles : Cycles search count models middle) {wanted : Nat}
    (lists : Lists middle rounds wanted items) :
    Lists search rounds (models.length + wanted) (listed models ++ items) := by
  cases lists with
  | full rest length_eq =>
    rw [← listed_append]
    exact .full (cycles.trans rest) (by rw [List.length_append, length_eq])
  | ended rest length_lt exhausted =>
    rw [← listed_append]
    exact .ended (cycles.trans rest) (by rw [List.length_append]; omega) exhausted
  | tired rest length_lt long =>
    rw [← listed_append]
    exact .tired (cycles.trans rest) (by rw [List.length_append]; omega)
      (long.trans (Nat.le_add_left _ _))
  | failed rest length_lt cycled =>
    rw [← List.append_assoc, ← listed_append]
    exact .failed (cycles.trans rest) (by rw [List.length_append]; omega) cycled

theorem lists_of_solutions (search : Search) (rounds count : Nat) :
    Lists search.core rounds count (search.solutions rounds count).1 := by
  induction count generalizing search with
  | zero => exact .full (.refl _) rfl
  | succ count ih =>
    rw [solutions, nextFacts?]
    cases found : search.next rounds with
    | mk step after =>
      obtain ⟨more, comes, -⟩ := comes_of_next found
      cases comes with
      | paused cycles =>
        obtain ⟨more, long, cycles⟩ := exists_cycles_of_next found
        exact .tired cycles (Nat.succ_pos count) long
      | exhausted cycles exhausted => exact .ended cycles (Nat.succ_pos count) exhausted
      | found cycles =>
        rw [Nat.add_comm]
        exact cycles.lists (ih after)
      | failed cycles cycled =>
        -- A fault drops all work that is left.
        have dropped : after.isExhausted = true := isExhausted_of_next_failed found
        simp only [solutions_of_isExhausted dropped rounds count]
        exact .failed cycles (Nat.succ_pos count) cycled

/-- **What a search yields** when it is asked for so many models: its items, if only there are
enough rounds. -/
def Yields (search : Search) (count : Nat) (items : List (Except Fault (List Fact))) : Prop :=
  ∃ enough, ∀ rounds ≥ enough, (search.solutions rounds count).1 = items

/-- The models that a row of cycles finds are the first ones that the search yields. -/
theorem Cycles.yields (cycles : Cycles search.core count models after) :
    search.Yields models.length (listed models) := by
  refine ⟨count + 1, fun rounds enough => ?_⟩
  -- A longer row of cycles finds these models at least.
  have longer {more : Nat} {others : List FoundModel} {last : Search}
      (cycles' : Cycles search.core more others last) (le : count ≤ more) :
      models.length ≤ others.length := (cycles.prefix_of_le cycles' le).length_le
  have lists := search.lists_of_solutions rounds models.length
  generalize (search.solutions rounds models.length).1 = items at lists
  cases lists with
  | full cycles' length_eq =>
    congr 1
    rcases Nat.le_total count _ with le | le
    · exact ((cycles.prefix_of_le cycles' le).eq_of_length length_eq.symm).symm
    · exact (cycles'.prefix_of_le cycles le).eq_of_length length_eq
  | ended cycles' length_lt exhausted =>
    have := longer cycles' (cycles'.le_of_halted (halted_of_isExhausted exhausted) cycles)
    omega
  | tired cycles' length_lt long =>
    have := longer cycles' (by omega)
    omega
  | failed cycles' length_lt cycled =>
    have := longer cycles' (cycles'.le_of_halted (halted_of_failed cycled) cycles)
    omega

/-- If no work is left after a row of cycles, then its models are all that the search yields. -/
theorem Cycles.yields_all (cycles : Cycles search.core count models after)
    (exhausted : after.isExhausted = true) (extra : Nat) :
    search.Yields (models.length + extra) (listed models) := by
  refine ⟨count + 1, fun rounds enough => ?_⟩
  have halted := halted_of_isExhausted exhausted
  have lists := search.lists_of_solutions rounds (models.length + extra)
  generalize (search.solutions rounds (models.length + extra)).1 = items at lists
  cases lists with
  | full cycles' length_eq =>
    have pre := cycles'.prefix_of_le cycles (cycles.le_of_halted halted cycles')
    rw [pre.eq_of_length (by have := pre.length_le; omega)]
  | ended cycles' length_lt exhausted' =>
    rw [(cycles.eq_of_halted halted cycles' (halted_of_isExhausted exhausted')).2.1]
  | tired cycles' length_lt long =>
    have := cycles.le_of_halted halted cycles'
    omega
  | failed cycles' length_lt cycled =>
    obtain ⟨-, -, rfl⟩ := cycles.eq_of_halted halted cycles' (halted_of_failed cycled)
    rw [cycle_of_isExhausted exhausted] at cycled
    cases cycled

end Search

/-! ### Exchanges -/

/-- The facts of the model that a response tells of, if it tells of one. -/
def Response.solution? : Response → Option (List Fact)
  | solution facts => some facts
  | _ => none

/-- The kind of a response. -/
def Response.kind : Response → String
  | error _ => "error"
  | stats _ => "stats"
  | solution _ => "solution"
  | done => "done"

namespace Worker

open Search (FoundModel Cycles)

/-- What a host does. -/
inductive Move where
  /-- It sends a request. -/
  | send (request : Request)
  /-- It lets the worker work for a while. -/
  | poll (budget : Nat)

namespace Move

/-- The request that is sent, if one is. -/
def request? : Move → Option Request
  | send request => some request
  | poll _ => none

/-- A program is sent. -/
def isLoad : Move → Bool
  | send (.load _) => true
  | _ => false

/-- The worker is let work. -/
def isPoll : Move → Bool
  | send _ => false
  | poll _ => true

end Move

/-- A move of the host, and what comes of it. -/
structure Exchange where
  /-- What the worker is about before. -/
  worker : Worker
  /-- The move. -/
  move : Move
  /-- The answer. -/
  answer : List Response

/-- Answers a move. -/
def act : Move → Worker → List Response × Worker
  | .send request, worker => worker.handle request
  | .poll budget, worker => worker.poll budget

/-- Answers one move after the other. -/
def converse : List Move → Worker → List Exchange × Worker
  | [], worker => ([], worker)
  | move :: moves, worker =>
    let (answer, next) := worker.act move
    let (log, last) := next.converse moves
    (⟨worker, move, answer⟩ :: log, last)

variable {worker next last : Worker} {log before after more : List Exchange} {exchange : Exchange}
  {move : Move} {request : Request} {answer : List Response} {search start ahead : Search}
  {models others : List FoundModel} {budget count : Nat} {fault : Fault} {stats : Stats}

/-- **A conversation**: exchange by exchange, the worker goes on from where the last one left it. -/
inductive Conversation : Worker → List Exchange → Worker → Prop where
  /-- No exchange. -/
  | nil (worker : Worker) : Conversation worker [] worker
  /-- One exchange and a conversation. -/
  | cons {worker next last : Worker} {move : Move} {answer : List Response} {log : List Exchange}
      (acted : worker.act move = (answer, next)) (rest : Conversation next log last) :
      Conversation worker (⟨worker, move, answer⟩ :: log) last

theorem conversation_converse (moves : List Move) (worker : Worker) :
    Conversation worker (worker.converse moves).1 (worker.converse moves).2 := by
  induction moves generalizing worker with
  | nil => exact .nil worker
  | cons move moves ih => exact .cons rfl (ih _)

/-- A conversation may be parted anywhere. -/
theorem Conversation.exists_of_append (conversation : Conversation worker (before ++ after) last) :
    ∃ middle, Conversation worker before middle ∧ Conversation middle after last := by
  induction before generalizing worker with
  | nil => exact ⟨worker, .nil worker, conversation⟩
  | cons exchange before ih =>
    cases conversation with
    | cons acted rest =>
      obtain ⟨middle, first, second⟩ := ih rest
      exact ⟨middle, .cons acted first, second⟩

/-- Each exchange of a conversation is one step of the worker. -/
theorem Conversation.exists_of_cons
    (conversation : Conversation worker (before ++ exchange :: after) last) :
    ∃ next, Conversation worker before exchange.worker ∧
      exchange.worker.act exchange.move = (exchange.answer, next) ∧
        Conversation next after last := by
  obtain ⟨middle, first, second⟩ := conversation.exists_of_append
  cases second with
  | cons acted rest => exact ⟨_, first, acted, rest⟩

/-! ### What a poll comes to -/

/-- The responses that tell of models. -/
def tell (models : List FoundModel) : List Response := models.map fun model => .solution model.facts

theorem filterMap_tell (models : List FoundModel) :
    (tell models).filterMap Response.solution? = models.map FoundModel.facts := by
  rw [tell, List.filterMap_map]
  exact congrFun List.filterMap_eq_map models

theorem exists_solution_of_mem_tell {response : Response} (mem : response ∈ tell models) :
    ∃ facts, response = .solution facts := by
  obtain ⟨model, -, rfl⟩ := List.mem_map.1 mem
  exact ⟨model.facts, rfl⟩

/-- **What a poll comes to**: nothing unless the search runs, and otherwise a row of cycles that
finds at most one model, or fails. -/
inductive Polls : Worker → Nat → List Response → Worker → Prop where
  /-- There is no search that runs. -/
  | idle {worker : Worker} {budget : Nat} (still : worker.isRunning = false) :
      Polls worker budget [] worker
  /-- The search fails. -/
  | failing {search last : Search} {budget : Nat} {fault : Fault}
      (stepped : search.step budget = (.failed fault, last)) :
      Polls (loaded search true) budget [.error fault] terminated
  /-- There is work left, and some was done. -/
  | going {search last : Search} {budget count : Nat} {step : Step} {models : List FoundModel}
      (stepped : search.step budget = (step, last)) (fine : ∀ fault, step ≠ .failed fault)
      (cycles : Cycles search.core count models last.core) (length_le : models.length ≤ 1)
      (active : 0 < count) (unfinished : last.isExhausted = false) :
      Polls (loaded search true) budget (tell models) (loaded last true)
  /-- No work is left. -/
  | ending {search last : Search} {budget count : Nat} {step : Step} {models : List FoundModel}
      (stepped : search.step budget = (step, last)) (fine : ∀ fault, step ≠ .failed fault)
      (cycles : Cycles search.core count models last.core) (length_le : models.length ≤ 1)
      (exhausted : last.isExhausted = true) :
      Polls (loaded search true) budget (tell models ++ [.stats last.stats, .done])
        (finished last.stats)

theorem polls_of_cycles {step : Step} (stepped : search.step budget = (step, ahead))
    (fine : ∀ fault, step ≠ .failed fault)
    (cycles : Cycles search.core count models ahead.core) (length_le : models.length ≤ 1)
    (active : ahead.isExhausted = false → 0 < count)
    (answered : (if ahead.isExhausted = true
      then (tell models ++ [.stats ahead.stats, .done], finished ahead.stats)
      else (tell models, loaded ahead true)) = (answer, next)) :
    Polls (loaded search true) budget answer next := by
  split at answered
  · next exhausted =>
    obtain ⟨rfl, rfl⟩ := Prod.mk.inj answered
    exact .ending stepped fine cycles length_le exhausted
  · next unfinished =>
    obtain ⟨rfl, rfl⟩ := Prod.mk.inj answered
    have unfinished : ahead.isExhausted = false := Bool.eq_false_iff.2 unfinished
    exact .going stepped fine cycles length_le (active unfinished) unfinished

theorem polls_of_poll (polled : worker.poll budget = (answer, next)) :
    Polls worker budget answer next := by
  cases worker with
  | awaitingLoad | finished | terminated =>
    obtain ⟨rfl, rfl⟩ := Prod.mk.inj polled
    exact .idle rfl
  | loaded search running =>
    cases running with
    | false =>
      obtain ⟨rfl, rfl⟩ := Prod.mk.inj polled
      exact .idle rfl
    | true =>
      rw [poll, Search.advance] at polled
      cases stepped : search.step budget with
      | mk step ahead =>
        obtain ⟨count, -, comes, -, active⟩ := Search.comes_of_step stepped
        rw [stepped] at polled
        cases comes with
        | paused cycles =>
          have active : 0 < count := active (by simp)
          exact polls_of_cycles stepped (by simp) cycles (Nat.zero_le 1) (fun _ => active) polled
        | exhausted cycles exhausted =>
          refine polls_of_cycles stepped (by simp) cycles (Nat.zero_le 1) ?_ polled
          exact fun unfinished => absurd exhausted (Bool.eq_false_iff.1 unfinished)
        | found cycles =>
          have active : 0 < count := active (by simp)
          exact polls_of_cycles stepped (by simp) cycles (le_refl 1) (fun _ => active) polled
        | failed =>
          obtain ⟨rfl, rfl⟩ := Prod.mk.inj polled
          exact .failing stepped

/-! ### What a conversation says -/

/-- The models that the host is told, in their order. -/
def found (log : List Exchange) : List (List Fact) :=
  log.flatMap fun exchange => exchange.answer.filterMap Response.solution?

/-- **The search that the worker serves**: the one for the program that it is sent, if that is the
first of the requests. -/
def Serves (log : List Exchange) (search : Search) : Prop :=
  ∃ program, (log.filterMap (·.move.request?)).head? = some (.load program) ∧
    Search.start program {} = .ok search

/-- **The search is to run**: after a program was sent there was a start, and no stop since. -/
def Running (log : List Exchange) : Prop :=
  ∃ before start after, log = before ++ start :: after ∧ start.move = .send .start ∧
    (∃ load ∈ before, load.move.isLoad) ∧ ∀ later ∈ after, later.move ≠ .send .stop

/-- **The host is at fault, or the search is.** -/
inductive Faulty (before : List Exchange) (exchange : Exchange) : Prop where
  /-- There is nothing to start or stop. -/
  | early (request : Request) (sent : exchange.move = .send request)
      (no_program : exchange.move.isLoad = false)
      (none_before : ∀ earlier ∈ before, earlier.move.isLoad = false)
  /-- A second program. -/
  | again (program : Program) (sent : exchange.move = .send (.load program))
      (one_before : ∃ earlier ∈ before, earlier.move.isLoad = true)
  /-- There is no search for the program. -/
  | rejected (program : Program) (fault : Fault) (sent : exchange.move = .send (.load program))
      (refused : Search.start program {} = .error fault)
  /-- The search fails while it runs. -/
  | failed (search last : Search) (budget : Nat) (fault : Fault)
      (runs : exchange.worker = .loaded search true) (polled : exchange.move = .poll budget)
      (stepped : search.step budget = (.failed fault, last))

/-- **The search is over**: the exchange is a poll that leaves no work. -/
def Exhausts (exchange : Exchange) (last : Search) : Prop :=
  ∃ search budget step, exchange.worker = .loaded search true ∧ exchange.move = .poll budget ∧
    search.step budget = (step, last) ∧ (∀ fault, step ≠ .failed fault) ∧ last.isExhausted = true

/-- All that is still answered is faults. -/
def Refused (exchange : Exchange) : Prop :=
  if exchange.move.isPoll then exchange.answer = [] else ∃ fault, exchange.answer = [.error fault]

/-- What is answered once the search is over. -/
def Concluded (stats : Stats) (exchange : Exchange) : Prop :=
  (exchange.move = .send .start → exchange.answer = [.done]) ∧
    (exchange.move = .send .stop → exchange.answer = [.stats stats]) ∧
      (exchange.move.isPoll = true → exchange.answer = [])

/-- **The worker has come so far**: cycle by cycle from the search that it serves, telling of all
models on its way. -/
structure Follows (log : List Exchange) (start : Search) (models : List FoundModel)
    (search : Search) : Prop where
  /-- It serves the search. -/
  serves : Serves log start
  /-- It has gone on with it. -/
  cycles : ∃ count, Cycles start.core count models search.core
  /-- It has told of the models. -/
  found_eq : found log = models.map FoundModel.facts

/-- No poll has said that it is done. -/
def Unfinished (log : List Exchange) : Prop :=
  ∀ exchange ∈ log, exchange.move.isPoll = true → .done ∉ exchange.answer

/-- There was a fault. -/
def Faulted (log : List Exchange) : Prop :=
  ∃ earlier faulty later, log = earlier ++ faulty :: later ∧ Faulty earlier faulty

/-- **What is answered while the search is under way**, with `search` for where it has come to. -/
structure UnderWay (before : List Exchange) (exchange : Exchange) (search : Search) : Prop where
  /-- The worker has this search, and it is running just if it is to run. -/
  worker_eq : ∃ running, exchange.worker = .loaded search running ∧
    (running = true ↔ Running before)
  /-- Nothing is said to a start. -/
  start : exchange.move = .send .start → exchange.answer = []
  /-- A stop is answered with what the search has done so far. -/
  stop : exchange.move = .send .stop → exchange.answer = [.stats search.stats]
  /-- A poll goes on with the search, if it is to run. -/
  poll : ∀ budget, exchange.move = .poll budget → Running before →
    ∃ next, Polls (.loaded search true) budget exchange.answer next

/-- **What the host can rely on** in a conversation. -/
structure Protocol (log : List Exchange) : Prop where
  /-- The models that it is told are the first ones that the search for its program yields. -/
  models : found log = [] ∨
    ∃ search, Serves log search ∧ search.Yields (found log).length ((found log).map .ok)
  /-- They are all of them once a poll says that it is done. -/
  complete : (∃ exchange ∈ log, exchange.move.isPoll = true ∧ .done ∈ exchange.answer) →
    ∃ search, Serves log search ∧
      ∀ extra, search.Yields ((found log).length + extra) ((found log).map .ok)
  /-- A poll says nothing unless the search is to run. -/
  quiet : ∀ before exchange after, log = before ++ exchange :: after →
    exchange.move.isPoll = true → exchange.answer ≠ [] → Running before
  /-- Once a program was sent, the search for it is under way until a poll says that it is done, or
  there is a fault. -/
  under_way : ∀ before exchange after, log = before ++ exchange :: after →
    (∃ load ∈ before, load.move.isLoad) → Unfinished before → ¬Faulted before →
      ∃ start models search, Follows before start models search ∧ UnderWay before exchange search
  /-- The poll that leaves no work says so last, and is the only one to do so; then the worker is
  concluded until a second program is sent. -/
  ends : ∀ before exchange after last, log = before ++ exchange :: after → Exhausts exchange last →
    (∃ told : List (List Fact), told.length ≤ 1 ∧
      exchange.answer = told.map .solution ++ [.stats last.stats, .done]) ∧
    (∀ other ∈ before ++ after, other.move.isPoll = true → .done ∉ other.answer) ∧
    ∀ later ∈ after.takeWhile (!·.move.isLoad), Concluded last.stats later
  /-- No other poll says so. -/
  only_ends : ∀ exchange ∈ log, exchange.move.isPoll = true → .done ∈ exchange.answer →
    ∃ last, Exhausts exchange last
  /-- A fault is answered with exactly one error, and after it all is refused. -/
  faults : ∀ before exchange after, log = before ++ exchange :: after → Faulty before exchange →
    (∃ fault, exchange.answer = [.error fault]) ∧ ∀ later ∈ after, Refused later
  /-- No error is answered before there is a fault. -/
  only_faults : ∀ before exchange after fault, log = before ++ exchange :: after →
    .error fault ∈ exchange.answer → ∃ earlier faulty later,
      before ++ [exchange] = earlier ++ faulty :: later ∧ Faulty earlier faulty

/-! ### Once the search is over, or there was a fault -/

/-- Whatever comes, the worker tells of no more models. -/
def IsOver (worker : Worker) : Prop := worker.isFinished = true ∨ worker = terminated

theorem refused_of_act (acted : terminated.act move = (answer, next)) :
    Refused ⟨terminated, move, answer⟩ ∧ next = terminated := by
  cases move with
  | send request =>
    obtain ⟨rfl, rfl⟩ := Prod.mk.inj acted
    exact ⟨⟨_, rfl⟩, rfl⟩
  | poll budget =>
    obtain ⟨rfl, rfl⟩ := Prod.mk.inj acted
    exact ⟨rfl, rfl⟩

theorem refused_of_conversation (conversation : Conversation terminated log last) :
    ∀ exchange ∈ log, Refused exchange := by
  induction log with
  | nil => exact nofun
  | cons exchange log ih =>
    cases conversation with
    | cons acted rest =>
      obtain ⟨refused, rfl⟩ := refused_of_act acted
      exact List.forall_mem_cons.2 ⟨refused, ih rest⟩

theorem concluded_of_act (acted : (finished stats).act move = (answer, next))
    (no_program : move.isLoad = false) :
    Concluded stats ⟨finished stats, move, answer⟩ ∧ next = finished stats := by
  cases move with
  | send request =>
    cases request with
    | load => cases no_program
    | start | stop =>
      obtain ⟨rfl, rfl⟩ := Prod.mk.inj acted
      exact ⟨⟨by simp, by simp, nofun⟩, rfl⟩
  | poll budget =>
    obtain ⟨rfl, rfl⟩ := Prod.mk.inj acted
    exact ⟨⟨nofun, nofun, fun _ => rfl⟩, rfl⟩

/-- Until a second program is sent, the worker keeps answering that its search is over. -/
theorem concluded_of_conversation (conversation : Conversation (finished stats) log last) :
    ∀ later ∈ log.takeWhile (!·.move.isLoad), Concluded stats later := by
  induction log with
  | nil => exact nofun
  | cons exchange log ih =>
    cases conversation with
    | @cons _ _ _ move _ _ acted rest =>
      rw [List.takeWhile_cons]
      split
      · next no_program =>
        obtain ⟨concluded, rfl⟩ := concluded_of_act acted (by simpa using no_program)
        exact List.forall_mem_cons.2 ⟨concluded, ih rest⟩
      · exact nofun

theorem IsOver.act (ended : worker.IsOver) (acted : worker.act move = (answer, next)) :
    next.IsOver ∧ answer.filterMap Response.solution? = [] ∧
      (move.isPoll = true → answer = []) := by
  rcases ended with ended | rfl
  · cases worker with
    | awaitingLoad | loaded | terminated => cases ended
    | finished stats =>
      cases move with
      | send request =>
        cases request with
        | load =>
          obtain ⟨rfl, rfl⟩ := Prod.mk.inj acted
          exact ⟨.inr rfl, rfl, nofun⟩
        | start | stop =>
          obtain ⟨rfl, rfl⟩ := Prod.mk.inj acted
          exact ⟨.inl rfl, rfl, nofun⟩
      | poll budget =>
        obtain ⟨rfl, rfl⟩ := Prod.mk.inj acted
        exact ⟨.inl rfl, rfl, fun _ => rfl⟩
  · cases move with
    | send request =>
      obtain ⟨rfl, rfl⟩ := Prod.mk.inj acted
      exact ⟨.inr rfl, rfl, nofun⟩
    | poll budget =>
      obtain ⟨rfl, rfl⟩ := Prod.mk.inj acted
      exact ⟨.inr rfl, rfl, fun _ => rfl⟩

theorem IsOver.conversation (ended : worker.IsOver)
    (conversation : Conversation worker log last) :
    found log = [] ∧ ∀ later ∈ log, later.move.isPoll = true → later.answer = [] := by
  induction log generalizing worker with
  | nil => exact ⟨rfl, nofun⟩
  | cons exchange log ih =>
    cases conversation with
    | cons acted rest =>
      obtain ⟨still_over, nothing, silent⟩ := ended.act acted
      obtain ⟨nothing_later, silent_later⟩ := ih still_over rest
      refine ⟨?_, List.forall_mem_cons.2 ⟨silent, silent_later⟩⟩
      rw [found, List.flatMap_cons, nothing]
      exact nothing_later

/-! ### What the worker is about -/

theorem found_append (log more : List Exchange) : found (log ++ more) = found log ++ found more :=
  List.flatMap_append

theorem found_singleton (exchange : Exchange) :
    found [exchange] = exchange.answer.filterMap Response.solution? :=
  List.flatMap_singleton _ _

theorem Serves.append (serves : Serves log search) (more : List Exchange) :
    Serves (log ++ more) search := by
  obtain ⟨program, first, started⟩ := serves
  exact ⟨program, by rw [List.filterMap_append, List.head?_append, first]; rfl, started⟩

/-- A worker that serves a search was sent a program. -/
theorem Serves.exists_load (serves : Serves log search) :
    ∃ exchange ∈ log, exchange.move.isLoad = true := by
  obtain ⟨program, first, -⟩ := serves
  obtain ⟨exchange, mem, requested⟩ := List.mem_filterMap.1 (List.mem_of_mem_head? first)
  refine ⟨exchange, mem, ?_⟩
  cases sent : exchange.move with
  | send request =>
    rw [sent] at requested
    obtain rfl := Option.some.inj requested
    rfl
  | poll => rw [sent] at requested; cases requested

/-- A start makes the search run once there is one, and only a stop ends it. -/
theorem running_concat_iff : Running (log ++ [exchange]) ↔
    (exchange.move = .send .start ∧ ∃ load ∈ log, load.move.isLoad) ∨
      (exchange.move ≠ .send .stop ∧ Running log) := by
  constructor
  · rintro ⟨before, start, after, heq, started, loaded, unstopped⟩
    rcases List.eq_nil_or_concat' after with rfl | ⟨after, last, rfl⟩
    · obtain ⟨rfl, same⟩ := List.append_inj' heq rfl
      obtain rfl := List.singleton_inj.1 same
      exact .inl ⟨started, loaded⟩
    · rw [← List.cons_append, ← List.append_assoc] at heq
      obtain ⟨rfl, same⟩ := List.append_inj' heq rfl
      obtain rfl := List.singleton_inj.1 same
      have unstopped := List.forall_mem_append.1 unstopped
      exact .inr ⟨unstopped.2 _ List.mem_cons_self,
        before, start, after, rfl, started, loaded, unstopped.1⟩
  · rintro (⟨started, loaded⟩ | ⟨goes_on, before, start, after, rfl, started, loaded, unstopped⟩)
    · exact ⟨log, exchange, [], rfl, started, loaded, List.forall_mem_nil _⟩
    · refine ⟨before, start, after ++ [exchange], by simp, started, loaded, ?_⟩
      exact List.forall_mem_append.2 ⟨unstopped, List.forall_mem_singleton.2 goes_on⟩

theorem running_concat_of_start (started : exchange.move = .send .start)
    (loaded : ∃ load ∈ log, load.move.isLoad) : Running (log ++ [exchange]) :=
  running_concat_iff.2 (.inl ⟨started, loaded⟩)

theorem not_running_concat_of_stop (stopped : exchange.move = .send .stop) :
    ¬Running (log ++ [exchange]) := by
  rw [running_concat_iff, stopped]
  rintro (⟨started, -⟩ | ⟨goes_on, -⟩)
  · cases started
  · exact goes_on rfl

/-- A poll does not change whether the search is to run. -/
theorem running_concat_iff_of_isPoll (polled : exchange.move.isPoll = true) :
    Running (log ++ [exchange]) ↔ Running log := by
  have not_start : exchange.move ≠ .send .start := fun started => by
    rw [started] at polled
    cases polled
  have not_stop : exchange.move ≠ .send .stop := fun stopped => by
    rw [stopped] at polled
    cases polled
  rw [running_concat_iff]
  simp [not_start, not_stop]

theorem Follows.concat (follows : Follows log start models search)
    (cycles : Cycles search.core count others ahead.core)
    (told : exchange.answer.filterMap Response.solution? = others.map FoundModel.facts) :
    Follows (log ++ [exchange]) start (models ++ others) ahead := by
  obtain ⟨earlier, cycles'⟩ := follows.cycles
  refine ⟨follows.serves.append _, ⟨earlier + count, cycles'.trans cycles⟩, ?_⟩
  rw [found_append, follows.found_eq, found_singleton, told, List.map_append]

theorem Follows.concat_silent (follows : Follows log start models search)
    (silent : exchange.answer.filterMap Response.solution? = []) :
    Follows (log ++ [exchange]) start models search := by
  have followed : Follows (log ++ [exchange]) start (models ++ []) search :=
    follows.concat (.refl _) silent
  rwa [List.append_nil] at followed

/-- The models told so far are those of a search that the worker serves. -/
def Accounted (log : List Exchange) : Prop :=
  found log = [] ∨ ∃ start models search, Follows log start models search

theorem Accounted.concat_silent (accounted : Accounted log)
    (silent : exchange.answer.filterMap Response.solution? = []) :
    Accounted (log ++ [exchange]) := by
  rcases accounted with none_found | ⟨start, models, search, follows⟩
  · left
    rw [found_append, none_found, found_singleton, silent, List.append_nil]
  · exact .inr ⟨start, models, search, follows.concat_silent silent⟩

theorem Unfinished.of_append (unfinished : Unfinished (log ++ more)) : Unfinished log :=
  fun _ mem => unfinished _ (List.mem_append_left _ mem)

theorem Unfinished.concat (unfinished : Unfinished log)
    (goes_on : exchange.move.isPoll = true → .done ∉ exchange.answer) :
    Unfinished (log ++ [exchange]) := by
  intro other mem
  rcases List.mem_append.1 mem with mem | mem
  · exact unfinished other mem
  · rwa [List.mem_singleton.1 mem]

/-- The host has not sent a request yet. -/
def Silent (log : List Exchange) : Prop :=
  ∀ exchange ∈ log, exchange.move.isPoll = true ∧ exchange.answer = []

theorem Silent.found_eq (silent : Silent log) : found log = [] :=
  List.flatMap_eq_nil_iff.2 fun exchange mem => by rw [(silent exchange mem).2, List.filterMap_nil]

theorem Silent.unfinished (silent : Silent log) : Unfinished log := fun exchange mem _ => by
  rw [(silent exchange mem).2]
  exact List.not_mem_nil

theorem Silent.exists_poll (silent : Silent log) (mem : exchange ∈ log) :
    ∃ budget, exchange.move = .poll budget := by
  have polled := (silent exchange mem).1
  cases sent : exchange.move with
  | send =>
    rw [sent] at polled
    cases polled
  | poll budget => exact ⟨budget, rfl⟩

theorem Silent.request?_eq (silent : Silent log) (mem : exchange ∈ log) :
    exchange.move.request? = none := by
  obtain ⟨budget, polled⟩ := silent.exists_poll mem
  rw [polled]
  rfl

theorem Silent.isLoad_eq (silent : Silent log) (mem : exchange ∈ log) :
    exchange.move.isLoad = false := by
  obtain ⟨budget, polled⟩ := silent.exists_poll mem
  rw [polled]
  rfl

/-- Before anything was sent the search is not to run, and only a start changes this. -/
theorem Silent.not_running_concat (silent : Silent log) (other : exchange.move ≠ .send .start) :
    ¬Running (log ++ [exchange]) := by
  rw [running_concat_iff]
  rintro (⟨started, -⟩ | ⟨-, before, start, after, rfl, started, -⟩)
  · exact other started
  · obtain ⟨budget, polled⟩ := silent.exists_poll (List.mem_append_right _ List.mem_cons_self)
    rw [polled] at started
    cases started

/-- The first program that is sent is the one that is served. -/
theorem Silent.serves {program : Program} (silent : Silent log)
    (sent : exchange.move = .send (.load program))
    (started : Search.start program {} = .ok search) :
    Serves (log ++ [exchange]) search := by
  have requested : exchange.move.request? = some (.load program) := by rw [sent]; rfl
  refine ⟨program, ?_, started⟩
  rw [List.filterMap_append, List.filterMap_eq_nil_iff.2 fun _ mem => silent.request?_eq mem,
    List.nil_append, List.filterMap_cons, requested]
  rfl

theorem Faulted.append (faulted : Faulted log) (more : List Exchange) : Faulted (log ++ more) := by
  obtain ⟨earlier, faulty, later, rfl, fault⟩ := faulted
  exact ⟨earlier, faulty, later ++ more, by simp, fault⟩

/-- **What the conversation so far says of the worker.** -/
inductive Stands (log : List Exchange) : Worker → Prop where
  /-- No request was sent. -/
  | awaiting (silent : Silent log) : Stands log awaitingLoad
  /-- It follows a search, which runs just if it is to run. -/
  | loaded {start search : Search} {models : List FoundModel} {running : Bool}
      (follows : Follows log start models search) (runs : running = true ↔ Running log)
      (unfinished : Unfinished log) : Stands log (loaded search running)
  /-- It has followed a search to its end, and a poll has said so. -/
  | finished {start search : Search} {models : List FoundModel} {stats : Stats}
      (follows : Follows log start models search) (exhausted : search.isExhausted = true)
      (ended : ¬Unfinished log) : Stands log (finished stats)
  /-- There was a fault, and it may have followed a search before. -/
  | terminated (faulted : Faulted log) (accounted : Accounted log) : Stands log terminated

theorem Stands.accounted (stands : Stands log worker) : Accounted log := by
  cases stands with
  | awaiting silent => exact .inl silent.found_eq
  | loaded follows | finished follows => exact .inr ⟨_, _, _, follows⟩
  | terminated _ accounted => exact accounted

theorem Accounted.stands_of_faulty (accounted : Accounted log) (faulty : Faulty log exchange)
    (silent : exchange.answer.filterMap Response.solution? = []) :
    Stands (log ++ [exchange]) .terminated :=
  .terminated ⟨log, exchange, [], rfl, faulty⟩ (accounted.concat_silent silent)

theorem Stands.idle (stands : Stands log worker) (polled : exchange.move.isPoll = true)
    (silent : exchange.answer = []) : Stands (log ++ [exchange]) worker := by
  have nothing : exchange.answer.filterMap Response.solution? = [] := by
    rw [silent, List.filterMap_nil]
  cases stands with
  | awaiting silent_before =>
    refine .awaiting fun other mem => ?_
    rcases List.mem_append.1 mem with mem | mem
    · exact silent_before other mem
    · rw [List.mem_singleton.1 mem]
      exact ⟨polled, silent⟩
  | loaded follows runs unfinished =>
    exact .loaded (follows.concat_silent nothing)
      (runs.trans (running_concat_iff_of_isPoll polled).symm)
      (unfinished.concat fun _ => silent ▸ List.not_mem_nil)
  | finished follows exhausted ended =>
    exact .finished (follows.concat_silent nothing) exhausted (mt Unfinished.of_append ended)
  | terminated faulted accounted =>
    exact .terminated (faulted.append _) (accounted.concat_silent nothing)

theorem Stands.send (stands : Stands log worker)
    (handled : worker.handle request = (answer, next)) :
    Stands (log ++ [⟨worker, .send request, answer⟩]) next := by
  have accounted := stands.accounted
  cases stands with
  | awaiting silent =>
    cases request with
    | load program =>
      rw [handle] at handled
      split at handled
      · next search started =>
        obtain ⟨rfl, rfl⟩ := Prod.mk.inj handled
        have found_eq : found (log ++ [⟨awaitingLoad, .send (.load program), []⟩]) = [] := by
          rw [found_append, silent.found_eq]
          rfl
        exact .loaded ⟨silent.serves rfl started, ⟨0, .refl _⟩, found_eq⟩
          (iff_of_false nofun (silent.not_running_concat nofun)) (silent.unfinished.concat nofun)
      · next fault refused =>
        obtain ⟨rfl, rfl⟩ := Prod.mk.inj handled
        exact accounted.stands_of_faulty (.rejected program fault rfl refused) rfl
    | start | stop =>
      obtain ⟨rfl, rfl⟩ := Prod.mk.inj handled
      exact accounted.stands_of_faulty (.early _ rfl rfl fun _ => silent.isLoad_eq) rfl
  | loaded follows runs unfinished =>
    cases request with
    | load program =>
      obtain ⟨rfl, rfl⟩ := Prod.mk.inj handled
      exact accounted.stands_of_faulty (.again program rfl follows.serves.exists_load) rfl
    | start =>
      obtain ⟨rfl, rfl⟩ := Prod.mk.inj handled
      exact .loaded (follows.concat_silent rfl)
        (iff_of_true rfl (running_concat_of_start rfl follows.serves.exists_load))
        (unfinished.concat nofun)
    | stop =>
      obtain ⟨rfl, rfl⟩ := Prod.mk.inj handled
      exact .loaded (follows.concat_silent rfl)
        (iff_of_false nofun (not_running_concat_of_stop rfl)) (unfinished.concat nofun)
  | finished follows exhausted ended =>
    cases request with
    | load program =>
      obtain ⟨rfl, rfl⟩ := Prod.mk.inj handled
      exact accounted.stands_of_faulty (.again program rfl follows.serves.exists_load) rfl
    | start | stop =>
      obtain ⟨rfl, rfl⟩ := Prod.mk.inj handled
      exact .finished (follows.concat_silent rfl) exhausted (mt Unfinished.of_append ended)
  | terminated faulted =>
    obtain ⟨rfl, rfl⟩ := Prod.mk.inj handled
    exact .terminated (faulted.append _) (accounted.concat_silent rfl)

theorem Stands.poll (stands : Stands log worker) (polled : worker.poll budget = (answer, next)) :
    Stands (log ++ [⟨worker, .poll budget, answer⟩]) next := by
  have polls := polls_of_poll polled
  have accounted := stands.accounted
  cases polls with
  | idle => exact stands.idle rfl rfl
  | failing stepped => exact accounted.stands_of_faulty (.failed _ _ _ _ rfl rfl stepped) rfl
  | @going search last _ count step models stepped fine cycles =>
    cases stands with
    | loaded follows runs unfinished =>
      refine .loaded (follows.concat cycles (filterMap_tell models))
        (runs.trans (running_concat_iff_of_isPoll rfl).symm) (unfinished.concat fun _ mem => ?_)
      obtain ⟨facts, heq⟩ := exists_solution_of_mem_tell mem
      cases heq
  | @ending search last _ count step models stepped fine cycles length_le exhausted =>
    cases stands with
    | loaded follows =>
      refine .finished (follows.concat cycles ?_) exhausted fun unfinished => ?_
      · rw [List.filterMap_append, filterMap_tell]
        exact List.append_nil _
      · exact unfinished _ (List.mem_append_right _ List.mem_cons_self) rfl (by simp)

theorem Stands.act (stands : Stands log worker) (acted : worker.act move = (answer, next)) :
    Stands (log ++ [⟨worker, move, answer⟩]) next := by
  cases move with
  | send request => exact stands.send acted
  | poll budget => exact stands.poll acted

/-- **Exchange by exchange, the conversation keeps saying what the worker is about.** -/
theorem Stands.conversation (stands : Stands log worker)
    (conversation : Conversation worker more last) : Stands (log ++ more) last := by
  induction conversation generalizing log with
  | nil => rwa [List.append_nil]
  | cons acted rest ih =>
    rw [List.append_cons]
    exact ih (stands.act acted)

theorem stands_of_conversation (conversation : Conversation new log last) : Stands log last := by
  have silent : Silent [] := List.forall_mem_nil _
  exact (Stands.awaiting silent).conversation conversation

/-! ### The protocol -/

theorem Follows.yields (follows : Follows log start models search) :
    start.Yields (found log).length ((found log).map .ok) := by
  obtain ⟨count, cycles⟩ := follows.cycles
  rw [follows.found_eq, List.length_map, List.map_map]
  exact cycles.yields

theorem Follows.yields_all (follows : Follows log start models search)
    (exhausted : search.isExhausted = true) (extra : Nat) :
    start.Yields ((found log).length + extra) ((found log).map .ok) := by
  obtain ⟨count, cycles⟩ := follows.cycles
  rw [follows.found_eq, List.length_map, List.map_map]
  exact cycles.yields_all exhausted extra

/-- An error is answered only by a worker that fails or has failed. -/
theorem eq_terminated_of_error (acted : worker.act move = (answer, next))
    (mem : .error fault ∈ answer) : next = terminated := by
  cases move with
  | send request =>
    cases worker with
    | awaitingLoad =>
      cases request with
      | load program =>
        rw [act, handle] at acted
        split at acted
        · obtain ⟨rfl, -⟩ := Prod.mk.inj acted
          cases mem
        · exact (Prod.mk.inj acted).2.symm
      | start | stop => exact (Prod.mk.inj acted).2.symm
    | loaded | finished =>
      cases request with
      | load => exact (Prod.mk.inj acted).2.symm
      | start | stop =>
        obtain ⟨rfl, -⟩ := Prod.mk.inj acted
        simp at mem
    | terminated => exact (Prod.mk.inj acted).2.symm
  | poll budget =>
    have polls := polls_of_poll acted
    cases polls with
    | idle => cases mem
    | failing => rfl
    | going =>
      obtain ⟨facts, heq⟩ := exists_solution_of_mem_tell mem
      cases heq
    | ending =>
      rcases List.mem_append.1 mem with mem | mem
      · obtain ⟨facts, heq⟩ := exists_solution_of_mem_tell mem
        cases heq
      · simp at mem

/-- A program that there is no search for, or that is not the first, is answered with an error. -/
theorem handle_load {program : Program} (handled : worker.handle (.load program) = (answer, next))
    (refused : worker ≠ awaitingLoad ∨ ∃ fault, Search.start program {} = .error fault) :
    (∃ fault, answer = [.error fault]) ∧ next = terminated := by
  cases worker with
  | awaitingLoad =>
    obtain ⟨fault, refused⟩ := refused.resolve_left (absurd rfl)
    rw [handle, refused] at handled
    obtain ⟨rfl, rfl⟩ := Prod.mk.inj handled
    exact ⟨⟨_, rfl⟩, rfl⟩
  | loaded | finished | terminated =>
    obtain ⟨rfl, rfl⟩ := Prod.mk.inj handled
    exact ⟨⟨_, rfl⟩, rfl⟩

/-- **A fault is answered with exactly one error**, and terminates the worker. -/
theorem Faulty.answered (faulty : Faulty log exchange) (stands : Stands log exchange.worker)
    (acted : exchange.worker.act exchange.move = (exchange.answer, next)) :
    (∃ fault, exchange.answer = [.error fault]) ∧ next = terminated := by
  cases faulty with
  | early request sent no_program none_before =>
    -- A worker that serves a search was sent a program.
    have unserved {start : Search} (serves : Serves log start) : False := by
      obtain ⟨earlier, mem, sent_before⟩ := serves.exists_load
      rw [none_before earlier mem] at sent_before
      cases sent_before
    rw [sent] at acted no_program
    generalize exchange.worker = worker at stands acted
    cases stands with
    | awaiting =>
      cases request with
      | load => cases no_program
      | start | stop =>
        obtain ⟨heq, rfl⟩ := Prod.mk.inj acted
        exact ⟨⟨_, heq.symm⟩, rfl⟩
    | loaded follows => exact (unserved follows.serves).elim
    | finished follows => exact (unserved follows.serves).elim
    | terminated =>
      obtain ⟨heq, rfl⟩ := Prod.mk.inj acted
      exact ⟨⟨_, heq.symm⟩, rfl⟩
  | again program sent one_before =>
    rw [sent] at acted
    refine handle_load acted (.inl fun waits => ?_)
    rw [waits] at stands
    cases stands with
    | awaiting silent =>
      obtain ⟨earlier, mem, sent_before⟩ := one_before
      rw [silent.isLoad_eq mem] at sent_before
      cases sent_before
  | rejected program fault sent refused =>
    rw [sent] at acted
    exact handle_load acted (.inr ⟨fault, refused⟩)
  | failed search last budget fault runs polled stepped =>
    rw [runs, polled, act, poll, Search.advance, stepped] at acted
    obtain ⟨heq, rfl⟩ := Prod.mk.inj acted
    exact ⟨⟨fault, heq.symm⟩, rfl⟩

/-- **The poll that leaves no work says so last**, and the search of the worker is over. -/
theorem Exhausts.answered (exhausts : Exhausts exchange ahead)
    (acted : exchange.worker.act exchange.move = (exchange.answer, next)) :
    (∃ told : List (List Fact), told.length ≤ 1 ∧
      exchange.answer = told.map .solution ++ [.stats ahead.stats, .done]) ∧
        next = finished ahead.stats := by
  obtain ⟨search, budget, step, runs, polled, stepped, fine, exhausted⟩ := exhausts
  rw [runs, polled] at acted
  have polls : Polls (loaded search true) budget exchange.answer next := polls_of_poll acted
  generalize exchange.answer = answer at polls
  cases polls with
  | idle still => cases still
  | failing stepped' =>
    obtain ⟨rfl, -⟩ := Prod.mk.inj (stepped.symm.trans stepped')
    exact absurd rfl (fine _)
  | going stepped' _ _ _ _ unfinished =>
    obtain ⟨-, rfl⟩ := Prod.mk.inj (stepped.symm.trans stepped')
    rw [exhausted] at unfinished
    cases unfinished
  | @ending _ _ _ _ _ models stepped' _ _ length_le =>
    obtain ⟨-, rfl⟩ := Prod.mk.inj (stepped.symm.trans stepped')
    refine ⟨⟨models.map FoundModel.facts, by rwa [List.length_map], ?_⟩, rfl⟩
    rw [List.map_map]
    rfl

/-- A poll says that it is done only if it leaves no work. -/
theorem exhausts_of_done (acted : exchange.worker.act exchange.move = (exchange.answer, next))
    (polled : exchange.move.isPoll = true) (mem : .done ∈ exchange.answer) :
    ∃ last, Exhausts exchange last := by
  obtain ⟨worker, move, answer⟩ := exchange
  cases move with
  | send => cases polled
  | poll budget =>
    have polls : Polls worker budget answer next := polls_of_poll acted
    cases polls with
    | idle => cases mem
    | failing => simp at mem
    | going =>
      obtain ⟨facts, heq⟩ := exists_solution_of_mem_tell mem
      cases heq
    | ending stepped fine cycles length_le exhausted =>
      exact ⟨_, _, budget, _, rfl, rfl, stepped, fine, exhausted⟩

theorem Polls.isRunning (polls : Polls worker budget answer next) (speaks : answer ≠ []) :
    worker.isRunning = true := by
  cases polls with
  | idle => exact absurd rfl speaks
  | failing | going | ending => rfl

theorem Stands.running (stands : Stands log worker) (running : worker.isRunning = true) :
    Running log := by
  cases stands with
  | awaiting | finished | terminated => cases running
  | loaded _ runs => exact runs.1 running

theorem Stands.unfinished (stands : Stands log worker) (running : worker.isRunning = true) :
    Unfinished log := by
  cases stands with
  | awaiting | finished | terminated => cases running
  | loaded _ _ unfinished => exact unfinished

/-- **The worker has the search while it is under way**, and answers with it. -/
theorem Stands.under_way (stands : Stands log exchange.worker)
    (acted : exchange.worker.act exchange.move = (exchange.answer, next))
    (loaded : ∃ load ∈ log, load.move.isLoad) (unfinished : Unfinished log)
    (faultless : ¬Faulted log) :
    ∃ start models search, Follows log start models search ∧ UnderWay log exchange search := by
  obtain ⟨worker, move, answer⟩ := exchange
  cases stands with
  | awaiting silent =>
    obtain ⟨load, mem, sent⟩ := loaded
    rw [silent.isLoad_eq mem] at sent
    cases sent
  | finished _ _ ended => exact absurd unfinished ended
  | terminated faulted => exact absurd faulted faultless
  | @loaded start search models running follows runs =>
    refine ⟨start, models, search, follows, ⟨running, rfl, runs⟩, ?_, ?_, ?_⟩
    · rintro rfl
      exact (Prod.mk.inj acted).1.symm
    · rintro rfl
      exact (Prod.mk.inj acted).1.symm
    · rintro budget rfl to_run
      obtain rfl := runs.2 to_run
      exact ⟨next, polls_of_poll acted⟩

/-- Once the search is over, the host was told of all its models. -/
theorem Stands.yields_all (stands : Stands log (.finished stats))
    (conversation : Conversation (.finished stats) more last) :
    ∃ search, Serves (log ++ more) search ∧ ∀ extra,
      search.Yields ((found (log ++ more)).length + extra) ((found (log ++ more)).map .ok) := by
  cases stands with
  | finished follows exhausted =>
    have nothing_more : found more = [] := (IsOver.conversation (.inl rfl) conversation).1
    refine ⟨_, follows.serves.append more, ?_⟩
    rw [found_append, nothing_more, List.append_nil]
    exact follows.yields_all exhausted

/-- **Whatever a host sends and however it polls, it can rely on the protocol.** -/
theorem protocol_converse (moves : List Move) : Protocol (new.converse moves).1 := by
  have conversation := conversation_converse moves new
  generalize (new.converse moves).1 = log at conversation
  generalize (new.converse moves).2 = last at conversation
  refine ⟨?models, ?complete, ?quiet, ?under_way, ?ends, ?only_ends, ?faults, ?only_faults⟩
  case models =>
    refine (stands_of_conversation conversation).accounted.imp_right ?_
    rintro ⟨start, models, search, follows⟩
    exact ⟨start, follows.serves, follows.yields⟩
  case complete =>
    rintro ⟨exchange, mem, polled, done⟩
    obtain ⟨before, after, rfl⟩ := List.append_of_mem mem
    obtain ⟨next, earlier, acted, later⟩ := conversation.exists_of_cons
    have stands := (stands_of_conversation earlier).act acted
    obtain ⟨ahead, exhausts⟩ := exhausts_of_done acted polled done
    obtain ⟨-, rfl⟩ := exhausts.answered acted
    rw [List.append_cons]
    exact stands.yields_all later
  case quiet =>
    rintro before ⟨worker, move, answer⟩ after rfl polled speaks
    obtain ⟨next, earlier, acted, -⟩ := conversation.exists_of_cons
    cases move with
    | send => cases polled
    | poll budget =>
      exact (stands_of_conversation earlier).running ((polls_of_poll acted).isRunning speaks)
  case under_way =>
    rintro before exchange after rfl loaded unfinished faultless
    obtain ⟨next, earlier, acted, -⟩ := conversation.exists_of_cons
    exact (stands_of_conversation earlier).under_way acted loaded unfinished faultless
  case ends =>
    rintro before exchange after ahead rfl exhausts
    obtain ⟨next, earlier, acted, later⟩ := conversation.exists_of_cons
    obtain ⟨answered, rfl⟩ := exhausts.answered acted
    refine ⟨answered, fun other mem polled => ?_, concluded_of_conversation later⟩
    rcases List.mem_append.1 mem with mem | mem
    · obtain ⟨search, _, _, runs, -⟩ := exhausts
      have running : exchange.worker.isRunning = true := by rw [runs]; rfl
      exact (stands_of_conversation earlier).unfinished running other mem polled
    · rw [(IsOver.conversation (.inl rfl) later).2 other mem polled]
      exact List.not_mem_nil
  case only_ends =>
    intro exchange mem polled done
    obtain ⟨before, after, rfl⟩ := List.append_of_mem mem
    obtain ⟨next, -, acted, -⟩ := conversation.exists_of_cons
    exact exhausts_of_done acted polled done
  case faults =>
    rintro before exchange after rfl faulty
    obtain ⟨next, earlier, acted, later⟩ := conversation.exists_of_cons
    obtain ⟨answered, rfl⟩ := faulty.answered (stands_of_conversation earlier) acted
    exact ⟨answered, refused_of_conversation later⟩
  case only_faults =>
    rintro before exchange after fault rfl mem
    obtain ⟨next, earlier, acted, -⟩ := conversation.exists_of_cons
    have stands := (stands_of_conversation earlier).act acted
    obtain rfl := eq_terminated_of_error acted mem
    cases stands with
    | terminated faulted => exact faulted

/-- What a host says that stops the search behind its first model, polls in vain, starts it again,
and keeps asking after the end. -/
def tossing : List Move :=
  [.send (.load coin), .send .start, .poll 4, .send .stop, .poll 9, .send .start, .poll 9,
    .send .stop, .send .start, .poll 9]

theorem protocol_converse_coin : ∃ log search, log = (new.converse tossing).1 ∧
    log.map (·.answer.map Response.kind) =
      [[], [], ["solution"], ["stats"], [], [], ["solution", "stats", "done"],
        ["stats"], ["done"], []] ∧
    Serves log search ∧ (found log).length = 2 ∧
      ∀ extra, search.Yields (2 + extra) ((found log).map .ok) := by
  have protocol := protocol_converse tossing
  have kinds : (new.converse tossing).1.map (·.answer.map Response.kind) =
      [[], [], ["solution"], ["stats"], [], [], ["solution", "stats", "done"],
        ["stats"], ["done"], []] := by
    decide +kernel
  have length_eq : (found (new.converse tossing).1).length = 2 := by decide +kernel
  have done_polled : ∃ exchange ∈ (new.converse tossing).1, exchange.move.isPoll = true ∧
      "done" ∈ exchange.answer.map Response.kind := by
    decide +kernel
  obtain ⟨exchange, mem, polled, kind⟩ := done_polled
  have done : .done ∈ exchange.answer := by
    obtain ⟨response, answered, kind_eq⟩ := List.mem_map.1 kind
    cases response with
    | done => exact answered
    | error | stats | solution => simp [Response.kind] at kind_eq
  obtain ⟨search, serves, yields⟩ := protocol.complete ⟨exchange, mem, polled, done⟩
  exact ⟨_, search, rfl, kinds, serves, length_eq, length_eq ▸ yields⟩

/-- A search that finds a model and then fails: the stop in between is answered with how far it has
come, and loses nothing; the fault is answered once, and then all requests are refused. -/
example :
    let log := (new.converse [.poll 1, .send (.load Search.clashing), .send .start, .poll 3,
      .send .stop, .poll 9, .send .start, .poll 30, .poll 30, .poll 30, .send .start]).1
    log.map (·.answer.length) = [0, 0, 0, 0, 1, 0, 0, 1, 1, 0, 1] ∧ (found log).length = 1 := by
  decide +kernel

end Worker

end StableModels
