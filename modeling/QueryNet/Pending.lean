/-
  QueryNet.Pending — queries that wait for answers.

  Each query in flight has one entry, under its atom. A query that a rule matched
  waits for the answers to the rule's subgoals; one that was forwarded, or found no
  route, waits for its own. Entries of subgoals name the query they are needed for.

  `deliver` brings an answer to an entry. An answer to the query itself takes the
  entry out, and so does the answer to the last subgoal it waited for; the entry's
  own answer then goes to the query it is needed for, and from there on up, or to the
  node that asked. Each step up takes an entry out, so it ends.
-/

import QueryNet.Packet

namespace QueryNet

structure PendingRequest where
  query : Atom
  /-- The query that this one is a subgoal of. -/
  parent : Option Atom
  /-- The subgoals that are not answered yet. -/
  awaited : List Atom
  /-- What the answered subgoals brought. -/
  results : Bindings
  /-- The composition item of the rule that matched. -/
  pattern : Option Atom
  /-- What the rule's head variables stand for; none if no rule matched. -/
  headMap : Option Bindings
  /-- The node that asked, unless it is a subgoal. -/
  origin : Option NodeId
  deriving DecidableEq, Repr

structure Outbound where
  recipient : NodeId
  packet : Packet
  deriving DecidableEq, Repr

/-- The answer to an entry's query that bindings of its rule's variables make. -/
def PendingRequest.answer (e : PendingRequest) (b : Bindings) : Bindings :=
  let composed :=
    match e.pattern with
    | some pattern => compose pattern b
    | none => b
  match e.headMap with
  | some headMap => translate headMap composed
  | none => composed

abbrev PendingTable := Table Atom PendingRequest

namespace PendingTable

def record (p : PendingTable) (e : PendingRequest) : PendingTable := p.insert e.query e

def parentOf (p : PendingTable) (a : Atom) : Option Atom := (p.get? a).bind (·.parent)

/-- Whether `query` is among the first `n` atoms of the chain that starts at `cursor`. -/
def onChain (p : PendingTable) (query : Atom) : Nat → Option Atom → Bool
  | 0, _ => false
  | _ + 1, none => false
  | n + 1, some a => a == query || onChain p query n (p.parentOf a)

/-- Whether `query` is `parent` or above it. A chain that is longer than the table has come round. -/
def isAncestor (p : PendingTable) (query : Atom) (parent : Option Atom) : Bool := p.onChain query (p.size + 1) parent

inductive Consumption where
  | consumed
  | unknownQuery
  deriving DecidableEq, Repr

structure Delivery where
  consumption : Consumption
  pending : PendingTable
  /-- The answer to a query that another node asked. -/
  reply : Option Outbound
  deriving DecidableEq, Repr

/-- Brings `b`, the answer to `sender`, to the entry for `query`: to the query's own
    answer if `sender` is `query`, else to that of one of its subgoals. -/
def deliver (p : PendingTable) (query : Atom) (b : Bindings) (sender : Atom) : Delivery :=
  match h : p.get? query with
  | none => ⟨.unknownQuery, p, none⟩
  | some e =>
    let results := e.results.merge b
    let awaited := e.awaited.filter (· ≠ sender)
    if sender ≠ query ∧ awaited ≠ [] then
      ⟨.consumed, p.insert query { e with results, awaited }, none⟩
    else
      let answer := e.answer (if sender = query then b else results)
      have := Table.size_erase_lt h
      match e.parent with
      | some parent => { deliver (p.erase query) parent answer query with consumption := .consumed }
      | none => ⟨.consumed, p.erase query, e.origin.map (⟨·, .response query answer⟩)⟩
termination_by p.size

end PendingTable

end QueryNet
