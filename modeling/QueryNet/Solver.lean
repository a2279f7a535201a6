/-
  QueryNet.Solver — the state of a query-routing node.

  A solver holds its rules in the order in which they are tried, its routes, the
  queries that wait for answers, and its interfaces, one for each neighbour. It
  starts idle; once started it accepts no more interfaces.
-/

import QueryNet.Link
import QueryNet.Pending
import QueryNet.RoutingTable

namespace QueryNet

structure Interface where
  role : Role
  tx : ChannelId
  deriving DecidableEq, Repr

/-- The receiving side of an interface, until a task takes it over. -/
structure Receiver where
  neighbor : NodeId
  role : Role
  tx : ChannelId
  rx : ChannelId
  deriving DecidableEq, Repr

def Receiver.endpoint (v : Receiver) : Endpoint := ⟨v.neighbor, v.tx, v.rx⟩

structure SolverConfig where
  /-- The idle time in milliseconds after which a peer gets the routes again. -/
  interval : Nat
  /-- The capacity, each way, of the links that the solver makes. -/
  capacity : Nat
  deriving DecidableEq, Repr

def SolverConfig.standard : SolverConfig := ⟨200, 16⟩

structure Solver where
  id : NodeId
  config : SolverConfig
  rules : List Rule
  routes : RoutingTable
  pending : PendingTable
  interfaces : Table NodeId Interface
  receivers : List Receiver
  running : Bool
  deriving DecidableEq, Repr

inductive SetupError where
  | invalidRule (cause : ParseError)
  | unknownNeighbor (neighbor : NodeId)
  | duplicateInterface (neighbor : NodeId)
  | alreadyRunning (solver : NodeId)
  | unknownSolver (solver : NodeId)
  deriving DecidableEq, Repr

def SetupError.message : SetupError → String
  | .invalidRule cause => "invalid rule: " ++ cause.message
  | .unknownNeighbor n => "no interface attached for " ++ n
  | .duplicateInterface n => "interface for " ++ n ++ " is already attached"
  | .alreadyRunning s => "solver " ++ s ++ " is already running"
  | .unknownSolver s => "unknown solver `" ++ s ++ "`"

namespace Solver

def create (id : NodeId) (config : SolverConfig) : Solver := ⟨id, config, [], ∅, ∅, ∅, [], false⟩

def peersExcept (s : Solver) (except : List NodeId) : List NodeId :=
  (s.interfaces.entries.filter fun e => e.2.role = .solverPeer ∧ e.1 ∉ except).map (·.1)

/-- The rules that match a query, each with what its head's variables stand for. -/
def matching (s : Solver) (query : Atom) : List (Rule × Bindings) :=
  s.rules.filterMap fun r => (r.unify query).map (r, ·)

def advertisement (s : Solver) (neighbor : NodeId) : List Outbound :=
  (s.routes.advertisable neighbor).map fun e => ⟨neighbor, .announce e.1 s.id e.2⟩

/-! ## Setting up -/

def attach (s : Solver) (role : Role) (e : Endpoint) : Except SetupError Solver :=
  if s.running then .error (.alreadyRunning s.id)
  else if s.interfaces.contains e.peer then .error (.duplicateInterface e.peer)
  else
    .ok { s with
      interfaces := s.interfaces.insert e.peer ⟨role, e.tx⟩
      receivers := s.receivers ++ [⟨e.peer, role, e.tx, e.rx⟩] }

def addRule (s : Solver) (text : String) : Except SetupError (Rule × Solver) :=
  match Rule.parse text with
  | .ok r => .ok (r, { s with rules := s.rules ++ [r] })
  | .error cause => .error (.invalidRule cause)

def addRoute (s : Solver) (key : String) (neighbor : NodeId) (metric : Nat) : Except SetupError Solver :=
  if s.interfaces.contains neighbor then .ok { s with routes := s.routes.insertStatic key neighbor metric }
  else .error (.unknownNeighbor neighbor)

def start (s : Solver) : Except SetupError (List Receiver × Solver) :=
  if s.running then .error (.alreadyRunning s.id)
  else .ok (s.receivers, { s with receivers := [], running := true })

end Solver

end QueryNet
