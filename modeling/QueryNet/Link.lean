/-
  QueryNet.Link — bounded queues between nodes.

  A link is two channels, one each way. A channel queues packets in the order in
  which they are put in, up to its capacity and never less than one. A sender that
  finds no room may wait: a packet that is taken frees its slot at once and promises
  it to the sender that has waited longest, and a promised slot counts as taken for
  everyone else. A channel is closed for senders once its receiving end is dropped,
  and for the receiver once it is empty and its sending end is dropped.
-/

import QueryNet.Packet

namespace QueryNet

/-- What stands behind an interface. -/
inductive Role where
  /-- Another solver, with which routes are exchanged. -/
  | solverPeer
  /-- A source or a requester. -/
  | leaf
  deriving DecidableEq, Repr

def Role.label : Role → String
  | .solverPeer => "solver_peer"
  | .leaf => "leaf"

abbrev ChannelId := Nat

structure Endpoint where
  peer : NodeId
  tx : ChannelId
  rx : ChannelId
  deriving DecidableEq, Repr

def Endpoint.closedMessage (e : Endpoint) : String := "link to " ++ e.peer ++ " is closed"

/-- One direction of a link. Senders are named by their task's number. -/
structure Channel where
  capacity : Nat
  queue : List Packet
  /-- Senders that wait for room, the first in front. -/
  waiting : List Nat
  /-- Senders to which a freed slot is promised. -/
  promised : List Nat
  senderHeld : Bool
  receiverHeld : Bool
  deriving DecidableEq, Repr

namespace Channel

def create (capacity : Nat) : Channel := ⟨max capacity 1, [], [], [], true, true⟩

/-- A channel whose ends are both dropped. -/
def gone : Channel := ⟨1, [], [], [], false, false⟩

def hasRoom (c : Channel) : Bool := c.queue.length + c.promised.length < c.capacity

def put (c : Channel) (p : Packet) : Channel := { c with queue := c.queue ++ [p] }

/-- What becomes of a packet that is offered and does not wait. -/
inductive Offer where
  | queued (c : Channel)
  | full
  | closed

def offer (c : Channel) (p : Packet) : Offer :=
  if !c.receiverHeld then .closed else if c.hasRoom then .queued (c.put p) else .full

/-- What becomes of a packet that a sender holds until there is room for it. -/
inductive Attempt where
  | queued (c : Channel)
  /-- The sender begins to wait. -/
  | enlisted (c : Channel)
  /-- The sender waits already, and in vain so far. -/
  | blocked
  | closed

def attempt (c : Channel) (sender : Nat) (p : Packet) : Attempt :=
  if !c.receiverHeld then .closed
  else if sender ∈ c.promised then .queued { c.put p with promised := c.promised.erase sender }
  else if sender ∈ c.waiting then .blocked
  else if c.hasRoom then .queued (c.put p)
  else .enlisted { c with waiting := c.waiting ++ [sender] }

def promise (c : Channel) : Channel :=
  match c.waiting with
  | [] => c
  | t :: ts => { c with waiting := ts, promised := c.promised ++ [t] }

inductive Receipt where
  | packet (p : Packet) (c : Channel)
  | empty
  | closed

def take (c : Channel) : Receipt :=
  match c.queue with
  | p :: ps => .packet p { c with queue := ps }.promise
  | [] => if c.senderHeld then .empty else .closed

/-- A sender gives up waiting, and a slot promised to it goes to the next one. -/
def withdraw (c : Channel) (sender : Nat) : Channel :=
  if sender ∈ c.promised then { c with promised := c.promised.erase sender }.promise
  else { c with waiting := c.waiting.erase sender }

def dropSender (c : Channel) : Channel := { c with senderHeld := false }

/-- The receiving end goes, and with it what is queued and who waits. -/
def dropReceiver (c : Channel) : Channel :=
  { c with receiverHeld := false, queue := [], waiting := [], promised := [] }

end Channel

end QueryNet
