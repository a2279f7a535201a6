/-
  QueryNet.Shape — values as untyped data.

  A structure is a record of its fields, and is also read from a list of all its
  fields in order. Fields that it does not have are passed over, fields that are
  repeated or missing are refused. One of several names is a string, and is also read
  from a record with that name alone, over null. Bindings are a record from texts to
  texts; of a repeated key the last value stays.
-/

import QueryNet.Datum
import QueryNet.Leaf
import QueryNet.Link
import QueryNet.RoutingTable

namespace QueryNet

open Text (Points points)

namespace Datum

/-- The value of a field that occurs once; none inside if it does not occur. -/
def field? (members : List (Points × Datum)) (name : String) : Option (Option Datum) :=
  match members.filter (·.1 = points name) with
  | [] => some none
  | [m] => some (some m.2)
  | _ => none

/-- The fields of a structure by their names, in order; those missing from a record are none. -/
def fields? (names : List String) : Datum → Option (List (Option Datum))
  | .record members => if members.all fun m => (Text.text? m.1).isSome then names.mapM (field? members) else none
  | .list items => if items.length = names.length then some (items.map some) else none
  | _ => none

def texts? (d : Datum) : Option (List String) := d.list?.bind fun items => items.mapM text?

def ofTexts (ss : List String) : Datum := .list (ss.map text)

/-- A name written as a string, or as a record of that name over null. -/
def name? : Datum → Option String
  | .string ps => Text.text? ps
  | .record [(ps, .null)] => Text.text? ps
  | _ => none

end Datum

def Atom.toDatum (a : Atom) : Datum := .object [("name", .text a.name), ("args", .ofTexts a.args)]

def Atom.ofDatum? (d : Datum) : Option Atom :=
  match d.fields? ["name", "args"] with
  | some [some name, some args] => do return ⟨← name.text?, ← args.texts?⟩
  | _ => none

def Rule.toDatum (r : Rule) : Datum := .object [("head", r.head.toDatum), ("body", .list (r.body.map Atom.toDatum))]

def Rule.ofDatum? (d : Datum) : Option Rule :=
  match d.fields? ["head", "body"] with
  | some [some head, some body] => do return ⟨← Atom.ofDatum? head, ← (← body.list?).mapM Atom.ofDatum?⟩
  | _ => none

def Bindings.toDatum (b : Bindings) : Datum := .object (b.entries.map fun e => (e.1, .text e.2))

def Bindings.pair? (m : Points × Datum) : Option (String × String) := do return (← Text.text? m.1, ← m.2.text?)

def Bindings.ofDatum? (d : Datum) : Option Bindings := d.record?.bind fun members =>
  (members.mapM Bindings.pair?).map Table.ofList

def PacketKind.toDatum (k : PacketKind) : Datum := .text k.label

def PacketKind.ofName? (s : String) : Option PacketKind :=
  [.request, .response, .routeAnnounce].find? fun k => k.label = s

def PacketKind.ofDatum? (d : Datum) : Option PacketKind := d.name?.bind PacketKind.ofName?

def Role.toDatum (r : Role) : Datum := .text r.label

def Role.ofName? (s : String) : Option Role := [.solverPeer, .leaf].find? fun r => r.label = s

def Role.ofDatum? (d : Datum) : Option Role := d.name?.bind Role.ofName?

def Packet.resultToDatum : Option Bindings → Datum
  | none => .null
  | some b => b.toDatum

def Packet.resultOfDatum? : Datum → Option (Option Bindings)
  | .null => some none
  | d => (Bindings.ofDatum? d).map some

def Packet.toDatum (p : Packet) : Datum :=
  .object [("kind", p.kind.toDatum), ("query", p.query.toDatum), ("result", resultToDatum p.result)]

def Packet.ofDatum? (d : Datum) : Option Packet :=
  match d.fields? ["kind", "query", "result"] with
  | some [some kind, some query, result] => do
    return ⟨← PacketKind.ofDatum? kind, ← Atom.ofDatum? query, ← resultOfDatum? (result.getD .null)⟩
  | _ => none

def Route.toDatum (r : Route) : Datum := .object [("nexthop", .text r.nexthop), ("metric", .nat r.metric)]

def Route.ofDatum? (d : Datum) : Option Route :=
  match d.fields? ["nexthop", "metric"] with
  | some [some nexthop, some metric] => do return ⟨← nexthop.text?, ← metric.nat? maxMetric⟩
  | _ => none

def Answer.toDatum : Answer → Datum
  | .bound b => .object [("status", .text "bound"), ("bindings", b.toDatum)]
  | .noMatch => .object [("status", .text "no_match")]

/-- The name of an answer's status; in a list it is a string. -/
def Answer.status? (d status : Datum) : Option String :=
  match d with
  | .list _ => status.text?
  | _ => status.name?

/-- Reads an answer: one that is bound needs its bindings, the other has none or null. -/
def Answer.ofDatum? (d : Datum) : Option Answer :=
  match d.fields? ["status", "bindings"] with
  | some [some status, bindings] =>
    match Answer.status? d status, bindings with
    | some "bound", some b => (Bindings.ofDatum? b).map .bound
    | some "no_match", none => some .noMatch
    | some "no_match", some .null => some .noMatch
    | _, _ => none
  | _ => none

end QueryNet
