/-
  QueryNet.Scenario.Setup — building the network of a scenario.

  First come the solvers with their rules, then links, sources, routes and requests,
  each in the order in which the scenario lists them. The first thing that cannot be
  done stops the set-up. A fact or a query is read before its solver is looked for.
-/

import QueryNet.Network
import QueryNet.Scenario

namespace QueryNet

inductive ScenarioError where
  | duplicateSolver (id : NodeId)
  | unknownSolver (id : NodeId)
  | badRule (solver : NodeId) (cause : SetupError)
  | badLink (a b : NodeId) (cause : SetupError)
  | badFact (source : NodeId) (cause : ParseError)
  | badSource (source : NodeId) (cause : SetupError)
  | badRoute (solver : NodeId) (cause : SetupError)
  | badQuery (request : NodeId) (cause : ParseError)
  | badRequest (request : NodeId) (cause : SetupError)
  deriving DecidableEq, Repr

def SetupError.chain (e : SetupError) : List String :=
  match e with
  | .invalidRule cause => [e.message, cause.message]
  | _ => [e.message]

namespace ScenarioError

def message : ScenarioError → String
  | .duplicateSolver id => "duplicate solver `" ++ id ++ "`"
  | .unknownSolver id => "unknown solver `" ++ id ++ "`"
  | .badRule solver _ => "rule for solver `" ++ solver ++ "`"
  | .badLink a b _ => "linking `" ++ a ++ "` and `" ++ b ++ "`"
  | .badFact source _ => "fact for source `" ++ source ++ "`"
  | .badSource source _ => "attaching source `" ++ source ++ "`"
  | .badRoute solver _ => "static route on `" ++ solver ++ "`"
  | .badQuery request _ => "query for request `" ++ request ++ "`"
  | .badRequest request _ => "attaching request `" ++ request ++ "`"

def causes : ScenarioError → List String
  | .duplicateSolver _ => []
  | .unknownSolver _ => []
  | .badRule _ cause => cause.chain
  | .badLink _ _ cause => cause.chain
  | .badFact _ cause => [cause.message]
  | .badSource _ cause => cause.chain
  | .badRoute _ cause => cause.chain
  | .badQuery _ cause => [cause.message]
  | .badRequest _ cause => cause.chain

def chain (e : ScenarioError) : List String := e.message :: e.causes

end ScenarioError

namespace Scenario

/-- A network before it is started, with the ends that its sources and requesters hold. -/
structure Wiring where
  network : Network
  sources : List (Source × Endpoint)
  requests : List (Request × Endpoint)
  deriving DecidableEq, Repr

namespace Wiring

def empty : Wiring := ⟨.empty, [], []⟩

def known (w : Wiring) (id : NodeId) : Except ScenarioError Unit :=
  if w.network.names.contains id then .ok () else .error (.unknownSolver id)

/-- The result of a call that changes the network, with the cause of its failure put into an error. -/
def taking {α : Type} (r : Setup α) (wrap : SetupError → ScenarioError) : Except ScenarioError (α × Network) :=
  match r.result with
  | .ok a => .ok (a, r.network)
  | .error e => .error (wrap e)

def addRule (solver : NodeId) (w : Wiring) (rule : String) : Except ScenarioError Wiring := do
  let (_, n) ← taking (w.network.addRule solver rule) (.badRule solver)
  return { w with network := n }

def addSolver (config : SolverConfig) (w : Wiring) (s : SolverSpec) : Except ScenarioError Wiring :=
  if w.network.names.contains s.id then .error (.duplicateSolver s.id)
  else s.rules.foldlM (addRule s.id) { w with network := w.network.addSolver s.id config }

def addLink (w : Wiring) (l : LinkSpec) : Except ScenarioError Wiring := do
  w.known l.a
  w.known l.b
  let (_, n) ← taking (w.network.connect l.a l.b) (.badLink l.a l.b)
  return { w with network := n }

def addSource (w : Wiring) (s : SourceSpec) : Except ScenarioError Wiring := do
  let source ← (Source.parse s.id s.fact).mapError (.badFact s.id)
  w.known s.solver
  let (e, n) ← taking (w.network.attachSource s.solver s.id source.key) (.badSource s.id)
  return { w with network := n, sources := w.sources ++ [(source, e)] }

def addRoute (w : Wiring) (r : RouteSpec) : Except ScenarioError Wiring := do
  w.known r.solver
  let (_, n) ← taking (w.network.addRoute r.solver r.key r.neighbor r.metric) (.badRoute r.solver)
  return { w with network := n }

def addRequest (w : Wiring) (r : RequestSpec) : Except ScenarioError Wiring := do
  let request ← (Request.parse r.id r.query).mapError (.badQuery r.id)
  w.known r.solver
  let (e, n) ← taking (w.network.attachRequest r.solver r.id) (.badRequest r.id)
  return { w with network := n, requests := w.requests ++ [(request, e)] }

end Wiring

def wire (s : Scenario) : Except ScenarioError Wiring := do
  let w ← s.solvers.foldlM (Wiring.addSolver s.settings.solverConfig) .empty
  let w ← s.links.foldlM Wiring.addLink w
  let w ← s.sources.foldlM Wiring.addSource w
  let w ← s.routes.foldlM Wiring.addRoute w
  s.requests.foldlM Wiring.addRequest w

end Scenario

end QueryNet
