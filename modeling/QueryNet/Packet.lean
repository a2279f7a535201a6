/-
  QueryNet.Packet — what nodes send each other.

  A packet asks a query, answers one, or announces a route. An answer without
  bindings says that the query has no match. A route announcement travels as an
  atom whose arguments are the destination's key, the node that announces, and that
  node's own distance as a numeral.
-/

import QueryNet.Rule

namespace QueryNet

/-- The name of a node: a solver, a source of facts or a requester. -/
abbrev NodeId := String

inductive PacketKind where
  | request
  | response
  | routeAnnounce
  deriving DecidableEq, Repr, Inhabited

def PacketKind.label : PacketKind → String
  | .request => "request"
  | .response => "response"
  | .routeAnnounce => "route_announce"

structure Packet where
  kind : PacketKind
  query : Atom
  /-- A response's bindings; none in a response says that nothing matches. -/
  result : Option Bindings
  deriving DecidableEq, Repr, Inhabited

/-- The largest distance a route can have. -/
def maxMetric : Nat := 0xFFFFFFFF

structure Announcement where
  dest : String
  advertiser : NodeId
  /-- The advertiser's own distance to `dest`. -/
  metric : Nat
  deriving DecidableEq, Repr

inductive AnnouncementError where
  | wrongKind (kind : PacketKind)
  | wrongArity (n : Nat)
  | badMetric (text : String) (fault : Text.Decimal.Fault)
  deriving DecidableEq, Repr

def PacketKind.name : PacketKind → String
  | .request => "Request"
  | .response => "Response"
  | .routeAnnounce => "RouteAnnounce"

def AnnouncementError.message (e : AnnouncementError) : String :=
  "malformed route announcement: " ++
    match e with
    | .wrongKind k => k.name ++ " packet is not an announcement"
    | .wrongArity n => "expected 3 arguments, got " ++ Text.Decimal.render n
    | .badMetric text fault => "metric `" ++ text ++ "`: " ++ fault.message

namespace Packet

def request (query : Atom) : Packet := ⟨.request, query, none⟩

def response (query : Atom) (result : Bindings) : Packet := ⟨.response, query, some result⟩

def noMatch (query : Atom) : Packet := ⟨.response, query, none⟩

/-- The name of the atom that carries an announcement. -/
def routeMarker : String := "fib"

def announce (dest : String) (advertiser : NodeId) (metric : Nat) : Packet :=
  ⟨.routeAnnounce, ⟨routeMarker, [dest, advertiser, Text.Decimal.render metric]⟩, none⟩

def announcement (p : Packet) : Except AnnouncementError Announcement :=
  if p.kind ≠ .routeAnnounce then .error (.wrongKind p.kind)
  else
    match p.query.args with
    | [dest, advertiser, metric] =>
      match Text.Decimal.read maxMetric metric with
      | .ok m => .ok ⟨dest, advertiser, m⟩
      | .error fault => .error (.badMetric metric fault)
    | args => .error (.wrongArity args.length)

def pairText (pair : String × String) : String := pair.1 ++ " = " ++ pair.2

def text (p : Packet) : String :=
  match p.kind, p.result with
  | .request, _ => "?" ++ p.query.canonical
  | .response, some b => p.query.canonical ++ " --> " ++ Text.join ", " (b.entries.map pairText)
  | .response, none => p.query.canonical ++ " --> no match"
  | .routeAnnounce, _ => "announce " ++ p.query.canonical

end Packet

end QueryNet
