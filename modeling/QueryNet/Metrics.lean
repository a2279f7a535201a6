/-
  QueryNet.Metrics — counters and gauges.

  What happens at a solver is noted as a metric; the values are what the notes add
  up to. An entry exists once it has been touched.
-/

import QueryNet.Numeral
import QueryNet.Packet

namespace QueryNet

inductive RouteChange where
  | installed
  | replaced
  deriving DecidableEq, Repr

def RouteChange.label : RouteChange → String
  | .installed => "installed"
  | .replaced => "replaced"

inductive Metric where
  | packetReceived (solver : NodeId) (kind : PacketKind)
  /-- A packet was queued on a link. -/
  | packetSent (solver : NodeId) (kind : PacketKind)
  | routeUpdate (solver : NodeId) (change : RouteChange)
  /-- Announcements were left out because a queue was full. -/
  | announceDropped (solver : NodeId) (n : Nat)
  /-- The size of the pending table. -/
  | pendingRequests (solver : NodeId) (n : Nat)
  | queryUnrouted (solver : NodeId)
  | answerUnmatched (solver : NodeId)
  deriving DecidableEq, Repr

/-- Counters and gauges under their printed names. -/
structure Metrics where
  counters : Table String Nat
  gauges : Table String Nat
  deriving DecidableEq, Repr

namespace Metrics

def empty : Metrics := ⟨∅, ∅⟩

def labelled (name : String) (labels : List (String × String)) : String :=
  name ++ "\x7b" ++ Text.join "," (labels.map fun l => l.1 ++ "=" ++ l.2) ++ "\x7d"

def add (m : Metrics) (key : String) (n : Nat) : Metrics :=
  { m with counters := m.counters.insert key ((m.counters.get? key).getD 0 + n) }

def set (m : Metrics) (key : String) (n : Nat) : Metrics := { m with gauges := m.gauges.insert key n }

def record (m : Metrics) : Metric → Metrics
  | .packetReceived s k => m.add (labelled "dqnet.packets.received" [("kind", k.label), ("solver", s)]) 1
  | .packetSent s k => m.add (labelled "dqnet.packets.sent" [("kind", k.label), ("solver", s)]) 1
  | .routeUpdate s c => m.add (labelled "dqnet.route.updates" [("change", c.label), ("solver", s)]) 1
  | .announceDropped _ 0 => m
  | .announceDropped s n => m.add (labelled "dqnet.route.announce_dropped" [("solver", s)]) n
  | .pendingRequests s n => m.set (labelled "dqnet.prt.depth" [("solver", s)]) n
  | .queryUnrouted s => m.add (labelled "dqnet.query.unrouted" [("solver", s)]) 1
  | .answerUnmatched s => m.add (labelled "dqnet.answer.unmatched" [("solver", s)]) 1

/-! ## Reading -/

def largest : Nat := 0xFFFFFFFFFFFFFFFF

/-- What a counter shows: past the largest number it begins again at zero. -/
def shownCount (n : Nat) : Nat := n % (largest + 1)

/-- What a gauge shows: it measures in floating point, and stops at the largest number. -/
def shownLevel (n : Nat) : Nat := min (Binary64.nearest n) largest

def readings (m : Metrics) : List (String × Nat) :=
  m.counters.entries.map (fun e => (e.1, shownCount e.2)) ++ m.gauges.entries.map fun e => (e.1, shownLevel e.2)

end Metrics

end QueryNet
