/-
  QueryNet.Solver.Turn — how a solver handles packets.

  A turn is a solver's work on one packet or call: its state so far, the packets that
  it has to send, and what is noted for the metrics.

  A query that rules match is decomposed: each rule records an entry, over the one of
  the rule before, and its subgoals are solved in turn; a rule without subgoals
  answers at once. A query that no rule matches is forwarded along the route for its
  key, but never back to the node that asked. A query that is its own ancestor, by
  the entries' links to the queries they are needed for, is left alone.

  Those links are overwritten by later entries and go away with answers, so nothing
  bounds the depth of decomposition: it is a parameter, and a query that would be
  decomposed deeper has no outcome.
-/

import QueryNet.Metrics
import QueryNet.Solver

namespace QueryNet

inductive Forwarding where
  /-- As many rules matched. -/
  | decomposed (n : Nat)
  | forwarded (nexthop : NodeId)
  /-- Left to wait for an answer that may never come. -/
  | noRoute
  deriving DecidableEq, Repr

/-- A solver's work on one packet or call so far. -/
structure Turn where
  solver : Solver
  out : List Outbound
  notes : List Metric
  deriving DecidableEq, Repr

namespace Turn

def begin (s : Solver) : Turn := ⟨s, [], []⟩

def send (t : Turn) (o : Outbound) : Turn := { t with out := t.out ++ [o] }

def note (t : Turn) (m : Metric) : Turn := { t with notes := t.notes ++ [m] }

def setPending (t : Turn) (p : PendingTable) : Turn := { t with solver := { t.solver with pending := p } }

def record (t : Turn) (e : PendingRequest) : Turn := t.setPending (t.solver.pending.record e)

def deliver (t : Turn) (query : Atom) (b : Bindings) (sender : Atom) : PendingTable.Consumption × Turn :=
  let d := t.solver.pending.deliver query b sender
  (d.consumption, { t.setPending d.pending with out := t.out ++ d.reply.toList })

def forward (t : Turn) (origin : Option NodeId) (parent : Option Atom) (query : Atom) : Forwarding × Turn :=
  let t' := t.record ⟨query, parent, [], ∅, none, none, origin⟩
  match t.solver.routes.get? query.key with
  | some route =>
    if origin ≠ some route.nexthop ∧ t.solver.interfaces.contains route.nexthop then
      (.forwarded route.nexthop, t'.send ⟨route.nexthop, .request query⟩)
    else (.noRoute, t'.note (.queryUnrouted t.solver.id))
  | none => (.noRoute, t'.note (.queryUnrouted t.solver.id))

/-- Applies one matching rule to a query; `solve` is called on each subgoal. -/
def expand (solve : Atom → Turn → Option Turn) (origin : Option NodeId) (parent : Option Atom) (query : Atom)
    (t : Turn) (m : Rule × Bindings) : Option Turn :=
  let t := t.record ⟨query, parent, m.1.subgoals.eraseDups, ∅, m.1.composition, some m.2, origin⟩
  if m.1.subgoals = [] then some (t.deliver query ∅ query).2
  else m.1.subgoals.foldlM (fun t g => solve g t) t

/-- Solves a query, decomposing it less than `depth` deep. -/
def solve : Nat → Option NodeId → Option Atom → Atom → Turn → Option (Forwarding × Turn)
  | 0, _, _, _, _ => none
  | depth + 1, origin, parent, query, t =>
    if t.solver.pending.isAncestor query parent then some (.noRoute, t)
    else
      match t.solver.matching query with
      | [] => some (t.forward origin parent query)
      | found =>
        let sub g t := (solve depth none (some query) g t).map (·.2)
        (found.foldlM (expand sub origin parent query) t).map (.decomposed found.length, ·)

def respond (t : Turn) (p : Packet) : Turn :=
  match p.result with
  | none => t
  | some b =>
    match t.deliver p.query b p.query with
    | (.consumed, t) => t
    | (.unknownQuery, t) => t.note (.answerUnmatched t.solver.id)

/-- Takes up an announcement from a peer; the first route for a key is announced to the other peers. -/
def announced (t : Turn) (sender : NodeId) (p : Packet) : RouteUpdate × Turn :=
  if (t.solver.interfaces.get? sender).map (·.role) ≠ some .solverPeer then (.unchanged, t)
  else
    match p.announcement with
    | .error _ => (.unchanged, t)
    | .ok a =>
      let s := t.solver
      let u := s.routes.apply a
      let t := { t with solver := { s with routes := u.2 } }
      match u.1 with
      | .installed route =>
        let news := (s.peersExcept [sender, route.nexthop]).map (Outbound.mk · (.announce a.dest s.id route.metric))
        (u.1, { t with out := t.out ++ news }.note (.routeUpdate s.id .installed))
      | .replaced _ _ => (u.1, t.note (.routeUpdate s.id .replaced))
      | .unchanged => (u.1, t)

def take (depth : Nat) (t : Turn) (sender : NodeId) (p : Packet) : Option Turn :=
  match p.kind with
  | .request => (solve depth (some sender) none p.query t).map (·.2)
  | .response => some (t.respond p)
  | .routeAnnounce => some (t.announced sender p).2

end Turn

namespace Solver

/-- A whole turn on one packet: none if its query would be decomposed `depth` deep. -/
def handle (depth : Nat) (s : Solver) (sender : NodeId) (p : Packet) : Option Turn :=
  (((Turn.begin s).note (.packetReceived s.id p.kind)).take depth sender p).map fun t =>
    t.note (.pendingRequests s.id t.solver.pending.size)

/-- A turn on a query that is asked here. -/
def solve (depth : Nat) (s : Solver) (origin : Option NodeId) (query : Atom) (parent : Option Atom) :
    Option (Forwarding × Turn) := (Turn.begin s).solve depth origin parent query

def consume (s : Solver) (query : Atom) (b : Bindings) (sender : Atom) : PendingTable.Consumption × Turn :=
  (Turn.begin s).deliver query b sender

end Solver

end QueryNet
