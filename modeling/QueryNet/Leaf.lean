/-
  QueryNet.Leaf — the nodes at the edge: sources of facts and requesters.

  A source holds one fact and answers each request with the bindings that make the
  query the fact, or says that there are none. A requester asks one query; the
  first response ends it.
-/

import QueryNet.Packet

namespace QueryNet

/-- A node that answers from one fact. -/
structure Source where
  id : NodeId
  fact : Atom
  deriving DecidableEq, Repr

namespace Source

def parse (id : NodeId) (fact : String) : Except ParseError Source := (Atom.parse fact).map (⟨id, ·⟩)

def key (s : Source) : String := s.fact.key

/-- The reply to a packet: none unless it is a request. -/
def answer (s : Source) (p : Packet) : Option Packet :=
  if p.kind ≠ .request then none
  else
    match matchFact p.query s.fact with
    | some b => some (.response p.query b)
    | none => some (.noMatch p.query)

end Source

inductive Answer where
  | bound (bindings : Bindings)
  | noMatch
  deriving DecidableEq, Repr

def Answer.ofPacket (p : Packet) : Option Answer :=
  match p.kind, p.result with
  | .response, some b => some (.bound b)
  | .response, none => some .noMatch
  | _, _ => none

structure Request where
  id : NodeId
  query : Atom
  deriving DecidableEq, Repr

def Request.parse (id : NodeId) (query : String) : Except ParseError Request := (Atom.parse query).map (⟨id, ·⟩)

end QueryNet
