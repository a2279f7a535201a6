/-
  QueryNet.Network — solvers, links and tasks together.

  A network has a clock in milliseconds, the channels of its links, its solvers, and
  the tasks that serve link ends. Solvers are numbered, and a name stands for the
  latest solver that was given it: the tasks of an earlier one go on with it. Solvers
  are set up by calls that may fail; what a call leaves behind is given also when it
  fails. Whatever is counted, queued, taken or refused is told as an event.
-/

import QueryNet.Leaf
import QueryNet.Solver.Turn

namespace QueryNet

abbrev SolverId := Nat

inductive Event where
  | note (m : Metric)
  /-- A solver's task handled a packet, and this is what it has to send. -/
  | produced (solver : SolverId) (out : List Outbound)
  | queued (channel : ChannelId) (p : Packet)
  /-- An announcement was offered to a channel without room, and left out. -/
  | refused (channel : ChannelId) (p : Packet)
  | taken (channel : ChannelId) (p : Packet)
  deriving DecidableEq, Repr

inductive Worker where
  /-- A solver's end of a link to another solver, to which it last sent its routes at `lastRefresh`. -/
  | peer (solver : SolverId) (lastRefresh : Nat)
  /-- A solver's end of a link to a leaf. -/
  | leaf (solver : SolverId)
  | source (source : Source)
  /-- A requester that gives up at `deadline`, if it has one. -/
  | request (request : Request) (deadline : Option Nat)
  deriving DecidableEq, Repr

def Worker.solver? : Worker → Option SolverId
  | .peer k _ => some k
  | .leaf k => some k
  | _ => none

inductive Ending where
  /-- Its link was closed. -/
  | closed
  | answered (answer : Answer)
  /-- Its deadline passed. -/
  | late
  deriving DecidableEq, Repr

inductive Phase where
  /-- Waits for a packet since a time. -/
  | listening (since : Nat)
  /-- Has these packets to send, in order, each as soon as there is room. -/
  | sending (rest : List Outbound)
  | ended (how : Ending)
  deriving DecidableEq, Repr

structure Task where
  worker : Worker
  endpoint : Endpoint
  phase : Phase
  deriving DecidableEq, Repr

abbrev TaskId := Nat

structure Network where
  now : Nat
  channels : List Channel
  solvers : List Solver
  /-- The solver that each name stands for. -/
  names : Table NodeId SolverId
  tasks : List Task
  deriving DecidableEq, Repr

structure Setup (α : Type) where
  network : Network
  events : List Event
  result : Except SetupError α

namespace Network

def empty : Network := ⟨0, [], [], ∅, []⟩

/-- A channel by its number; one that was never made is gone. -/
def channel (n : Network) (id : ChannelId) : Channel := n.channels.getD id .gone

def setChannel (n : Network) (id : ChannelId) (c : Channel) : Network := { n with channels := n.channels.set id c }

def lookup (n : Network) (id : NodeId) : Option (SolverId × Solver) :=
  (n.names.get? id).bind fun k => (n.solvers[k]?).map (k, ·)

def solver? (n : Network) (id : NodeId) : Option Solver := (n.lookup id).map (·.2)

def setSolver (n : Network) (k : SolverId) (s : Solver) : Network := { n with solvers := n.solvers.set k s }

def setTask (n : Network) (i : TaskId) (t : Task) : Network := { n with tasks := n.tasks.set i t }

def addTask (n : Network) (worker : Worker) (e : Endpoint) (phase : Phase) : Network :=
  { n with tasks := n.tasks ++ [⟨worker, e, phase⟩] }

def onChannel (n : Network) (id : ChannelId) (f : Channel → Channel) : Network :=
  { n with channels := n.channels.modify id f }

/-- Makes a link and gives out its two ends, the first for `a`. -/
def link (n : Network) (a b : NodeId) (capacity : Nat) : Endpoint × Endpoint × Network :=
  let c := n.channels.length
  (⟨b, c, c + 1⟩, ⟨a, c + 1, c⟩,
    { n with channels := n.channels ++ [Channel.create capacity, Channel.create capacity] })

def dropEnd (n : Network) (e : Endpoint) : Network :=
  (n.onChannel e.tx Channel.dropSender).onChannel e.rx Channel.dropReceiver

/-! ## Offers -/

def offerOne (n : Network) (s : Solver) (o : Outbound) : Network × List Event :=
  match s.interfaces.get? o.recipient with
  | none => (n, [])
  | some i =>
    match (n.channel i.tx).offer o.packet with
    | .queued c => (n.setChannel i.tx c, [.queued i.tx o.packet, .note (.packetSent s.id .routeAnnounce)])
    | .full => (n, [.refused i.tx o.packet])
    | .closed => (n, [])

def offerEach (s : Solver) : List Outbound → Network → Network × List Event
  | [], n => (n, [])
  | o :: os, n =>
    let (n, es) := n.offerOne s o
    let (n, fs) := offerEach s os n
    (n, es ++ fs)

def isRefusal : Event → Bool
  | .refused _ _ => true
  | _ => false

/-- Offers announcements without waiting; those that find no room are counted together. -/
def offer (n : Network) (s : Solver) (out : List Outbound) : Network × List Event :=
  let (n, es) := offerEach s out n
  let dropped := es.countP isRefusal
  (n, if dropped = 0 then es else es ++ [.note (.announceDropped s.id dropped)])

/-! ## Setting up -/

/-- Drops those ends of a solver's links that no task has taken over. -/
def release (n : Network) (s : Solver) : Network := s.receivers.foldl (fun n v => n.dropEnd v.endpoint) n

/-- Adds a solver. If there was one with its name, that one is left to its tasks. -/
def addSolver (n : Network) (id : NodeId) (config : SolverConfig) : Network :=
  let n := ((n.solver? id).map n.release).getD n
  { n with solvers := n.solvers ++ [.create id config], names := n.names.insert id n.solvers.length }

def onSolver {α : Type} (n : Network) (id : NodeId) (f : Solver → Except SetupError (α × Solver)) : Setup α :=
  match n.lookup id with
  | none => ⟨n, [], .error (.unknownSolver id)⟩
  | some (k, s) =>
    match f s with
    | .error e => ⟨n, [], .error e⟩
    | .ok (a, s) => ⟨n.setSolver k s, [], .ok a⟩

def attachEnd (n : Network) (id : NodeId) (role : Role) (e : Endpoint) : Setup Unit :=
  let r := n.onSolver id fun s => (s.attach role e).map ((), ·)
  match r.result with
  | .ok _ => r
  | .error _ => { r with network := r.network.dropEnd e }

def attach (n : Network) (id : NodeId) (peer : NodeId) (role : Role) (capacity : Nat) : Setup Endpoint :=
  let (near, far, n) := n.link id peer capacity
  let r := n.attachEnd id role near
  match r.result with
  | .ok _ => { r with result := .ok far }
  | .error e => ⟨r.network.dropEnd far, r.events, .error e⟩

def capacityOf (n : Network) (id : NodeId) : Nat := ((n.solver? id).map (·.config.capacity)).getD 0

def attachRequest (n : Network) (id : NodeId) (requester : NodeId) : Setup Endpoint :=
  n.attach id requester .leaf (n.capacityOf id)

/-- Links a solver to a source of `key`, and announces the route to the solver's peers. -/
def attachSource (n : Network) (id : NodeId) (source : NodeId) (key : String) : Setup Endpoint :=
  let r := n.attach id source .leaf (n.capacityOf id)
  match r.result, r.network.lookup id with
  | .ok _, some (k, s) =>
    let s := { s with routes := s.routes.insertDirect key source }
    let (n, es) := (r.network.setSolver k s).offer s ((s.peersExcept []).map (Outbound.mk · (.announce key s.id 0)))
    { r with network := n, events := r.events ++ es }
  | _, _ => r

/-- Links two solvers as peers, `a`'s side first; if `b`'s side fails `a`'s stays attached. -/
def connect (n : Network) (a b : NodeId) : Setup Unit :=
  let (forA, forB, n) := n.link a b (max (n.capacityOf a) (n.capacityOf b))
  let r := n.attachEnd a .solverPeer forA
  match r.result with
  | .error e => ⟨r.network.dropEnd forB, r.events, .error e⟩
  | .ok _ => r.network.attachEnd b .solverPeer forB

def addRule (n : Network) (id : NodeId) (text : String) : Setup Rule := n.onSolver id fun s => s.addRule text

def addRoute (n : Network) (id : NodeId) (key : String) (neighbor : NodeId) (metric : Nat) : Setup Unit :=
  n.onSolver id fun s => (s.addRoute key neighbor metric).map ((), ·)

def workerFor (now : Nat) (solver : SolverId) : Role → Worker
  | .solverPeer => .peer solver now
  | .leaf => .leaf solver

def start (n : Network) (id : NodeId) : Setup Nat :=
  match n.lookup id with
  | none => ⟨n, [], .error (.unknownSolver id)⟩
  | some (k, s) =>
    match s.start with
    | .error e => ⟨n, [], .error e⟩
    | .ok (receivers, s) =>
      let tasks := receivers.map fun v => (⟨workerFor n.now k v.role, v.endpoint, .listening n.now⟩ : Task)
      ⟨{ n.setSolver k s with tasks := n.tasks ++ tasks }, [], .ok tasks.length⟩

def startSource (n : Network) (source : Source) (e : Endpoint) : Network :=
  n.addTask (.source source) e (.listening n.now)

/-- Starts a requester on its end of a link: it has its query to send. -/
def startRequest (n : Network) (request : Request) (e : Endpoint) (deadline : Option Nat) : Network :=
  n.addTask (.request request deadline) e (.sending [⟨e.peer, .request request.query⟩])

/-! ## Ends of links held from outside -/

inductive Sent where
  | sent
  | full
  | closed
  deriving DecidableEq, Repr

def send (n : Network) (e : Endpoint) (p : Packet) : Sent × Network × List Event :=
  match (n.channel e.tx).offer p with
  | .queued c => (.sent, n.setChannel e.tx c, [.queued e.tx p])
  | .full => (.full, n, [])
  | .closed => (.closed, n, [])

inductive Received where
  | packet (p : Packet)
  | empty
  | closed
  deriving DecidableEq, Repr

def receive (n : Network) (e : Endpoint) : Received × Network × List Event :=
  match (n.channel e.rx).take with
  | .packet p c => (.packet p, n.setChannel e.rx c, [.taken e.rx p])
  | .empty => (.empty, n, [])
  | .closed => (.closed, n, [])

end Network

end QueryNet
