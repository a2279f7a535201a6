/-
  QueryNet.Network.Step — what a task does next.

  A task moves from one point at which it could be kept waiting to the next. A
  solver's task takes a packet, handles it and offers the announcements that come of
  it; then it sends the other packets one by one, each as soon as there is room, and
  meanwhile takes no further packet. Towards a peer it sends its routes again when no
  packet has come for the solver's interval, and after a packet if the last time was
  that long ago; a packet goes before the timer. A packet without an interface or for
  a closed link is lost.

  A source sends its reply to each request; a requester sends its query and ends with
  the first response. Both end when their link is closed, and drop their end of it.
-/

import QueryNet.Network

namespace QueryNet.Network

def solverOf (n : Network) (t : Task) : Option Solver := t.worker.solver?.bind (n.solvers[·]?)

def channelTo (n : Network) (t : Task) (node : NodeId) : Option ChannelId :=
  match t.worker with
  | .source _ => some t.endpoint.tx
  | .request _ _ => some t.endpoint.tx
  | _ => ((n.solverOf t).bind (·.interfaces.get? node)).map (·.tx)

def deadline (n : Network) (t : Task) : Option Nat :=
  match t.worker, t.phase with
  | _, .ended _ => none
  | .peer _ _, .listening since => (n.solverOf t).map fun s => since + s.config.interval
  | .request _ d, _ => d
  | _, _ => none

/-- Ends a task; a source or a requester drops its end of the link. -/
def finish (n : Network) (i : TaskId) (t : Task) (how : Ending) : Network :=
  let n := n.setTask i { t with phase := .ended how }
  match t.worker with
  | .source _ => n.dropEnd t.endpoint
  | .request _ _ => n.dropEnd t.endpoint
  | _ => n

def refresh (n : Network) (s : Solver) (t : Task) : Network × List Event :=
  n.offer s (s.advertisement t.endpoint.peer)

def refreshed (now : Nat) (solver : SolverId) (t : Task) : Task :=
  { t with worker := .peer solver now, phase := .listening now }

/-- Goes back to listening when everything is sent, and refreshes a peer whose time has come. -/
def relisten (n : Network) (i : TaskId) (t : Task) : Network × List Event :=
  match t.worker, n.solverOf t with
  | .peer k last, some s =>
    if last + s.config.interval ≤ n.now then
      let (n, es) := n.refresh s t
      (n.setTask i (refreshed n.now k t), es)
    else (n.setTask i { t with phase := .listening n.now }, [])
  | _, _ => (n.setTask i { t with phase := .listening n.now }, [])

def sentNote (n : Network) (t : Task) (p : Packet) : List Event :=
  match n.solverOf t with
  | some s => [.note (.packetSent s.id p.kind)]
  | none => []

def loseLink (n : Network) (i : TaskId) (t : Task) (rest : List Outbound) : Network :=
  match t.worker with
  | .peer _ _ => n.setTask i { t with phase := .sending rest }
  | .leaf _ => n.setTask i { t with phase := .sending rest }
  | _ => n.finish i t .closed

def giveUp (n : Network) (i : TaskId) (t : Task) : Option Network :=
  match t.worker with
  | .request _ (some d) => if d ≤ n.now then some (n.finish i t .late) else none
  | _ => none

/-- Sends the first of a task's packets, or finds that it has to wait. -/
def push (n : Network) (i : TaskId) (t : Task) : List Outbound → Option (Network × List Event)
  | [] => some (n.relisten i t)
  | o :: rest =>
    match n.channelTo t o.recipient with
    | none => some (n.setTask i { t with phase := .sending rest }, [])
    | some c =>
      match (n.channel c).attempt i o.packet with
      | .queued ch =>
        some ((n.setChannel c ch).setTask i { t with phase := .sending rest },
          .queued c o.packet :: n.sentNote t o.packet)
      | .enlisted ch => some (n.setChannel c ch, [])
      | .blocked => (n.giveUp i t).map fun m => (m.onChannel c (·.withdraw i), [])
      | .closed => some (n.loseLink i t rest, [])

def isAnnouncement (o : Outbound) : Bool := o.packet.kind == .routeAnnounce

/-- A solver's task takes up a packet: none if handling it does not end. -/
def serve (depth : Nat) (n : Network) (i : TaskId) (t : Task) (p : Packet) : Option (Network × List Event) := do
  let k ← t.worker.solver?
  let s ← n.solvers[k]?
  let turn ← s.handle depth t.endpoint.peer p
  let (m, es) := (n.setSolver k turn.solver).offer turn.solver (turn.out.filter isAnnouncement)
  return (m.setTask i { t with phase := .sending (turn.out.filter (!isAnnouncement ·)) },
    turn.notes.map .note ++ .produced k turn.out :: es)

def takeUp (depth : Nat) (n : Network) (i : TaskId) (t : Task) (p : Packet) : Option (Network × List Event) :=
  match t.worker with
  | .source s =>
    match s.answer p with
    | some reply => some (n.setTask i { t with phase := .sending [⟨t.endpoint.peer, reply⟩] }, [])
    | none => some (n, [])
  | .request _ _ =>
    match Answer.ofPacket p with
    | some a => some (n.finish i t (.answered a), [])
    | none => some (n, [])
  | _ => n.serve depth i t p

/-- A task that finds no packet: a peer's timer may have run out, or a requester's time. -/
def idle (n : Network) (i : TaskId) (t : Task) (since : Nat) : Option (Network × List Event) :=
  match t.worker with
  | .peer k _ => do
    let s ← n.solverOf t
    if since + s.config.interval ≤ n.now then
      let (m, es) := n.refresh s t
      return (m.setTask i (refreshed n.now k t), es)
    else none
  | _ => (n.giveUp i t).map (·, [])

def listen (depth : Nat) (n : Network) (i : TaskId) (t : Task) (since : Nat) : Option (Network × List Event) :=
  let rx := t.endpoint.rx
  match (n.channel rx).take with
  | .packet p c => ((n.setChannel rx c).takeUp depth i t p).map fun r => (r.1, .taken rx p :: r.2)
  | .empty => n.idle i t since
  | .closed => some (n.finish i t .closed, [])

/-- The next move of a task, and what happens in it: none if it has to wait, has ended, or
    would handle a packet whose query is decomposed `depth` deep. -/
def step (depth : Nat) (n : Network) (i : TaskId) : Option (Network × List Event) :=
  match n.tasks[i]? with
  | none => none
  | some t =>
    match t.phase with
    | .listening since => n.listen depth i t since
    | .sending rest => n.push i t rest
    | .ended _ => none

end QueryNet.Network
