/-
  QueryNet.RoutingTable — the best known next hop for each key.

  A route to a source that is attached directly has metric 0. An announcement offers
  a route one hop longer than the announcer's own, and it replaces the present one
  if it is shorter, or as long through a next hop with a smaller name.
-/

import QueryNet.Packet

namespace QueryNet

structure Route where
  nexthop : NodeId
  metric : Nat
  deriving DecidableEq, Repr, Inhabited

/-- Whether `other` should replace `r`. -/
def Route.isWorseThan (r other : Route) : Bool :=
  other.metric < r.metric || (other.metric == r.metric && other.nexthop < r.nexthop)

inductive RouteUpdate where
  /-- The first route for its key. -/
  | installed (route : Route)
  | replaced (previous current : Route)
  | unchanged
  deriving DecidableEq, Repr

abbrev RoutingTable := Table String Route

namespace RoutingTable

def insertDirect (t : RoutingTable) (key : String) (source : NodeId) : RoutingTable := t.insert key ⟨source, 0⟩

/-- A route set up by hand, over any other for its key. -/
def insertStatic (t : RoutingTable) (key : String) (nexthop : NodeId) (metric : Nat) : RoutingTable :=
  t.insert key ⟨nexthop, metric⟩

/-- The distance one hop farther, which never passes the largest one. -/
def farther (metric : Nat) : Nat := min (metric + 1) maxMetric

def candidate (a : Announcement) : Route := ⟨a.advertiser, farther a.metric⟩

def apply (t : RoutingTable) (a : Announcement) : RouteUpdate × RoutingTable :=
  match t.get? a.dest with
  | none => (.installed (candidate a), t.insert a.dest (candidate a))
  | some current =>
    if current.isWorseThan (candidate a) then (.replaced current (candidate a), t.insert a.dest (candidate a))
    else (.unchanged, t)

/-- The keys and metrics that may be announced to a neighbour: all but those routed through it. -/
def advertisable (t : RoutingTable) (neighbor : NodeId) : List (String × Nat) :=
  (t.entries.filter fun e => e.2.nexthop ≠ neighbor).map fun e => (e.1, e.2.metric)

end RoutingTable

end QueryNet
