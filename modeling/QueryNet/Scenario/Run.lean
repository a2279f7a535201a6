/-
  QueryNet.Scenario.Run — running a scenario, and what is reported of it.

  All solvers are started, in the order of their names, and then the sources. Routes
  spread for as long as the settings say; then all requests are sent at once, and each
  waits for its answer for as long as the settings say.

  A report is a list with an entry for each request: the requester, its query, how it
  ended, and the bindings or the error that belong to that.
-/

import QueryNet.Json.Printer
import QueryNet.Network.Run
import QueryNet.Scenario.Setup

namespace QueryNet

/-! ## The report -/

inductive Outcome where
  | bound (bindings : Bindings)
  | noMatch
  /-- No answer came in time. -/
  | stalled
  | failed (error : String)
  deriving DecidableEq, Repr

structure RequestOutcome where
  request : NodeId
  /-- The canonical text of the query. -/
  query : String
  outcome : Outcome
  deriving DecidableEq, Repr

/-- How a request ended; one that has not ended is stalled. -/
def Outcome.ofTask (t : Task) : Outcome :=
  match t.phase with
  | .ended (.answered (.bound b)) => .bound b
  | .ended (.answered .noMatch) => .noMatch
  | .ended .closed => .failed (t.endpoint.closedMessage)
  | _ => .stalled

def Outcome.members : Outcome → List (String × Datum)
  | .bound b => [("status", .text "bound"), ("bindings", b.toDatum)]
  | .noMatch => [("status", .text "no_match")]
  | .stalled => [("status", .text "stalled")]
  | .failed error => [("status", .text "failed"), ("error", .text error)]

def RequestOutcome.toDatum (r : RequestOutcome) : Datum :=
  .object ([("request", .text r.request), ("query", .text r.query)] ++ r.outcome.members)

def Scenario.report (pretty : Bool) (outcomes : List RequestOutcome) : String :=
  let d := Datum.list (outcomes.map RequestOutcome.toDatum)
  if pretty then Json.pretty d else Json.compact d

/-! ## The run -/

namespace Scenario

def Wiring.start (w : Wiring) : Network :=
  let n := w.network.names.keys.foldl (fun n id => (n.start id).network) w.network
  w.sources.foldl (fun n s => n.startSource s.1 s.2) n

def Wiring.ask (w : Wiring) (deadline : Nat) (n : Network) : Network :=
  w.requests.foldl (fun n r => n.startRequest r.1 r.2 (some deadline)) n

def hasEnded (t : Task) : Bool :=
  match t.phase with
  | .ended _ => true
  | _ => false

def outcomeOf (n : Network) (request : Request) (task : TaskId) : RequestOutcome :=
  ⟨request.id, request.query.canonical, ((n.tasks[task]?).map Outcome.ofTask).getD .stalled⟩

def Wiring.run (w : Wiring) (s : Settings) : Option (List RequestOutcome) := do
  let (n, _) ← w.start.runUntil s.settle
  let first := n.tasks.length
  let deadline := n.now + s.answerTimeout
  let (n, _) ← Network.runTo Network.depthLimit (fun n => (n.tasks.drop first).all hasEnded) deadline
    Network.moveLimit [] (w.ask deadline n) []
  return w.requests.zipIdx.map fun r => outcomeOf n r.1.1 (first + r.2)

/-- Sets up and runs a scenario: none if the run takes too many moves. -/
def run (s : Scenario) : Except ScenarioError (Option (List RequestOutcome)) := do
  let w ← s.wire
  return w.run s.settings

end Scenario

end QueryNet
