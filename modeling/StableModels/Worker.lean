import StableModels.Data.Json.Printer
import StableModels.Data.Json.Reader
import StableModels.Program.Format
import StableModels.Report.Format

/-!
# Workers

A worker conducts one search on behalf of a host, which sends it requests and, between them,
lets it work for a while. A program has to be loaded first and only once; after that the search
is started and stopped as often as the host likes.

Any fault terminates the worker. It reports that fault, and answers all later requests with a
fault of their own.
-/

namespace StableModels

/-- A message from the host. -/
inductive Request where
  /-- Here is the program. -/
  | load (program : Program)
  /-- Start or go on searching. -/
  | start
  /-- Stop searching, and say how far the search has come. -/
  | stop

/-- A message to the host. -/
inductive Response where
  /-- The worker failed. -/
  | error (fault : Fault)
  /-- What the search has done so far. -/
  | stats (stats : Stats)
  /-- A model. -/
  | solution (facts : List Fact)
  /-- There are no further models. -/
  | done

/-- What a worker is about. -/
inductive Worker where
  /-- It waits for its program. -/
  | awaitingLoad
  /-- It has a search, which is running or not. -/
  | loaded (search : Search) (running : Bool)
  /-- Its search is over. -/
  | finished (stats : Stats)
  /-- It failed. -/
  | terminated

namespace Worker

/-- A new worker. -/
def new : Worker := awaitingLoad

/-- The worker has a search that is running. -/
def isRunning : Worker → Bool
  | loaded _ running => running
  | _ => false

/-- The search of the worker is over. -/
def isFinished : Worker → Bool
  | finished _ => true
  | _ => false

/-- The worker has failed. -/
def isTerminated : Worker → Bool
  | terminated => true
  | _ => false

/-- Fails for a reason of protocol. -/
def refuse (cause : Cause) : List Response × Worker := ([.error ⟨cause, none⟩], terminated)

/-- Answers a request. -/
def handle : Worker → Request → List Response × Worker
  | terminated, _ => refuse .workerTerminated
  | awaitingLoad, .load program =>
    match Search.start program {} with
    | .ok search => ([], loaded search false)
    | .error fault => ([.error fault], terminated)
  | awaitingLoad, _ => refuse .loadExpected
  | loaded .., .load _ | finished _, .load _ => refuse .alreadyLoaded
  | loaded search _, .start => ([], loaded search true)
  | loaded search _, .stop => ([.stats search.stats], loaded search false)
  | finished stats, .start => ([.done], finished stats)
  | finished stats, .stop => ([.stats stats], finished stats)

/-- Spends a budget of cycles, if the search is running. -/
def poll (budget : Nat) : Worker → List Response × Worker
  | loaded search true =>
    match search.advance budget with
    | (.error fault, _) => ([.error fault], terminated)
    | (.ok report, search) =>
      let found := report.solution.toList.map .solution
      if report.exhausted then
        (found ++ [.stats report.stats, .done], finished report.stats)
      else
        (found, loaded search true)
  | worker => ([], worker)

end Worker

/-! ### Messages as data -/

namespace Request

/-- The kinds of requests. -/
def kinds : List String := ["load", "start", "stop"]

/-- A request as data; a program stands in it with its own members. -/
def toData : Request → Data
  | load program => .tagged "type" "load" program.membersData
  | start => .tagged "type" "start" []
  | stop => .tagged "type" "stop" []

/-- Reads a request from a format that writes names. -/
def ofData? (data : Data) : Option Request := do
  let (kind, struct) ← data.tagged? .byText "type" kinds
  match kind with
  | 0 => (Program.ofData? .byNumber struct).map load
  | 1 => if struct.isBare then some start else none
  | _ => if struct.isBare then some stop else none

/-- Reads a request from a text. -/
def ofText? (text : String) : Option Request := (Json.read? text).bind ofData?

/-- The text of a request in the compact form. -/
def toText (request : Request) : String := Json.print request.toData

/-- The text of a request in the spread form. -/
def toSpreadText (request : Request) : String := Json.printSpread request.toData

end Request

/-- A response as data. -/
def Response.toData : Response → Data
  | error fault => .tagged "type" "error" [("message", .text fault.message)]
  | stats counts => .tagged "type" "stats" [("stats", counts.toData)]
  | solution facts => .tagged "type" "solution" [("facts", Fact.listData facts)]
  | done => .tagged "type" "done" []

end StableModels
