/-
  QueryNet.Scenario — descriptions of networks and of what is asked in them.

  A scenario lists solvers with their rules, links between solvers, sources, routes
  set by hand and requests, with the times and sizes that hold for all of them. It is
  read from a datum: each of its structures is a record, or a list of its fields in
  order. Fields with a default may be missing, unknown ones are passed over, and of a
  repeated one the last counts. Whether a list may be longer than the structure has
  fields depends on where the datum comes from: in TOML it may.
-/

import QueryNet.Shape
import QueryNet.Solver

namespace QueryNet

namespace Scenario

/-- Times in milliseconds, and the capacity of links. -/
structure Settings where
  announceInterval : Nat
  linkCapacity : Nat
  /-- How long routes may spread before anything is asked. -/
  settle : Nat
  /-- How long each request waits. -/
  answerTimeout : Nat
  deriving DecidableEq, Repr

def Settings.standard : Settings := ⟨SolverConfig.standard.interval, SolverConfig.standard.capacity, 1000, 5000⟩

/-- What the solvers work with: neither number is less than one. -/
def Settings.solverConfig (s : Settings) : SolverConfig := ⟨max s.announceInterval 1, max s.linkCapacity 1⟩

structure SolverSpec where
  id : NodeId
  rules : List String
  deriving DecidableEq, Repr

structure LinkSpec where
  a : NodeId
  b : NodeId
  deriving DecidableEq, Repr

structure SourceSpec where
  id : NodeId
  solver : NodeId
  fact : String
  deriving DecidableEq, Repr

structure RouteSpec where
  solver : NodeId
  key : String
  neighbor : NodeId
  metric : Nat
  deriving DecidableEq, Repr

structure RequestSpec where
  id : NodeId
  solver : NodeId
  query : String
  deriving DecidableEq, Repr

end Scenario

structure Scenario where
  settings : Scenario.Settings
  solvers : List Scenario.SolverSpec
  links : List Scenario.LinkSpec
  sources : List Scenario.SourceSpec
  routes : List Scenario.RouteSpec
  requests : List Scenario.RequestSpec
  deriving DecidableEq, Repr

/-! ## From data -/

/-- The last value under a name. -/
def Datum.lastUnder? (members : List (Text.Points × Datum)) (name : String) : Option Datum :=
  (members.reverse.find? (·.1 = Text.points name)).map (·.2)

/-- The fields of a structure by their names, in order; those that are missing are none.
    With `surplus`, a list may have more items than there are fields. -/
def Datum.slots? (surplus : Bool) (names : List String) : Datum → Option (List (Option Datum))
  | .record members => some (names.map (lastUnder? members))
  | .list items =>
    if surplus || items.length ≤ names.length then
      some ((items.take names.length).map some ++ List.replicate (names.length - items.length) none)
    else none
  | _ => none

def Datum.orDefault {α : Type} (default : α) (read : Datum → Option α) : Option Datum → Option α
  | none => some default
  | some d => read d

def Datum.each? {α : Type} (read : Datum → Option α) (d : Datum) : Option (List α) :=
  d.list?.bind fun items => items.mapM read

namespace Scenario

open Datum (orDefault each?)

def maxSetting : Nat := 0xFFFFFFFFFFFFFFFF

def Settings.ofDatum? (surplus : Bool) (d : Datum) : Option Settings :=
  match d.slots? surplus ["announce_interval_ms", "link_capacity", "settle_ms", "answer_timeout_ms"] with
  | some [interval, capacity, settle, timeout] => do
    let read (default : Nat) (f : Option Datum) := orDefault default (·.nat? maxSetting) f
    return ⟨← read standard.announceInterval interval, ← read standard.linkCapacity capacity,
      ← read standard.settle settle, ← read standard.answerTimeout timeout⟩
  | _ => none

def SolverSpec.ofDatum? (surplus : Bool) (d : Datum) : Option SolverSpec :=
  match d.slots? surplus ["id", "rules"] with
  | some [some id, rules] => do return ⟨← id.text?, ← orDefault [] Datum.texts? rules⟩
  | _ => none

def LinkSpec.ofDatum? (surplus : Bool) (d : Datum) : Option LinkSpec :=
  match d.slots? surplus ["a", "b"] with
  | some [some a, some b] => do return ⟨← a.text?, ← b.text?⟩
  | _ => none

def SourceSpec.ofDatum? (surplus : Bool) (d : Datum) : Option SourceSpec :=
  match d.slots? surplus ["id", "solver", "fact"] with
  | some [some id, some solver, some fact] => do return ⟨← id.text?, ← solver.text?, ← fact.text?⟩
  | _ => none

def RouteSpec.ofDatum? (surplus : Bool) (d : Datum) : Option RouteSpec :=
  match d.slots? surplus ["solver", "key", "neighbor", "metric"] with
  | some [some solver, some key, some neighbor, metric] => do
    return ⟨← solver.text?, ← key.text?, ← neighbor.text?, ← orDefault 1 (·.nat? maxMetric) metric⟩
  | _ => none

def RequestSpec.ofDatum? (surplus : Bool) (d : Datum) : Option RequestSpec :=
  match d.slots? surplus ["id", "solver", "query"] with
  | some [some id, some solver, some query] => do return ⟨← id.text?, ← solver.text?, ← query.text?⟩
  | _ => none

def ofDatum? (surplus : Bool) (d : Datum) : Option Scenario :=
  match d.slots? surplus ["solver", "solvers", "links", "sources", "routes", "requests"] with
  | some [settings, solvers, links, sources, routes, requests] => do
    return ⟨← orDefault .standard (Settings.ofDatum? surplus) settings,
      ← orDefault [] (each? (SolverSpec.ofDatum? surplus)) solvers,
      ← orDefault [] (each? (LinkSpec.ofDatum? surplus)) links,
      ← orDefault [] (each? (SourceSpec.ofDatum? surplus)) sources,
      ← orDefault [] (each? (RouteSpec.ofDatum? surplus)) routes,
      ← orDefault [] (each? (RequestSpec.ofDatum? surplus)) requests⟩
  | _ => none

end Scenario

end QueryNet
