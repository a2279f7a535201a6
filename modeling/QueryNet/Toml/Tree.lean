/-
  QueryNet.Toml.Tree — TOML documents while they are read.

  In the tree of a document every table knows how it came about: a table may be opened
  by a header of its own only once, and a key may be set only once. A key of several
  parts goes through tables to the one that it is set in.
-/

import QueryNet.Datum

namespace QueryNet.Toml

open Text (Points points)

inductive Origin where
  /-- By a header that goes through it to a table inside it. -/
  | implied
  /-- By a header of its own. -/
  | header
  /-- By a dotted key that goes through it. -/
  | dotted
  deriving DecidableEq, Repr

/-- A document so far. Values are complete; tables and arrays of tables may still grow. -/
inductive Tree where
  | value (d : Datum)
  | table (origin : Origin) (members : List (String × Tree))
  /-- Tables made by one header each, the latest first. -/
  | tables (items : List (List (String × Tree)))
  deriving Inhabited

mutual

def Tree.datum : Tree → Datum
  | .value d => d
  | .table _ members => .record (membersData members)
  | .tables items => .list (itemsData items).reverse

def membersData : List (String × Tree) → List (Points × Datum)
  | [] => []
  | (k, t) :: ms => (points k, t.datum) :: membersData ms

def itemsData : List (List (String × Tree)) → List Datum
  | [] => []
  | ms :: r => .record (membersData ms) :: itemsData r

end

def setMember (k : String) (t : Tree) : List (String × Tree) → List (String × Tree)
  | [] => [(k, t)]
  | m :: ms => if m.1 = k then (k, t) :: ms else m :: setMember k t ms

/-- Whether a table may be gone through. A header may go through any; a dotted key only
    through those without a header of their own, and it has to end in one that dotted
    keys made. `path` is what is left of the way. -/
def passes (via o : Origin) (path : List String) : Bool :=
  via = .implied || o = .dotted || (o = .implied && !path.isEmpty)

/-- Changes the members of the table under a path; `via` says how a table that is
    missing on the way comes about. Of an array of tables the latest is taken. -/
def within (via : Origin) (f : List (String × Tree) → Option (List (String × Tree))) :
    List String → List (String × Tree) → Option (List (String × Tree))
  | [], ms => f ms
  | k :: path, ms =>
    match ms.lookup k with
    | none => (within via f path []).map fun inner => setMember k (.table via inner) ms
    | some (.table o inner) =>
      if passes via o path then (within via f path inner).map fun inner => setMember k (.table o inner) ms else none
    | some (.tables (last :: others)) =>
      if passes via .implied path then
        (within via f path last).map fun last => setMember k (.tables (last :: others)) ms
      else none
    | some _ => none

def atHeader (f : List (String × Tree) → Option (List (String × Tree))) (path : List String)
    (ms : List (String × Tree)) : Option (List (String × Tree)) := within .implied f path ms

def openTable (key : String) (ms : List (String × Tree)) : Option (List (String × Tree)) :=
  match ms.lookup key with
  | none => some (setMember key (.table .header []) ms)
  | some (.table .implied inner) => some (setMember key (.table .header inner) ms)
  | some _ => none

def openNext (key : String) (ms : List (String × Tree)) : Option (List (String × Tree)) :=
  match ms.lookup key with
  | none => some (setMember key (.tables [[]]) ms)
  | some (.tables items) => some (setMember key (.tables ([] :: items)) ms)
  | some _ => none

def setKey (key : String) (d : Datum) (ms : List (String × Tree)) : Option (List (String × Tree)) :=
  match ms.lookup key with
  | none => some (ms ++ [(key, .value d)])
  | some _ => none

def setPath (path : List String) (key : String) (d : Datum) (ms : List (String × Tree)) :
    Option (List (String × Tree)) := within .dotted (setKey key d) path ms

end QueryNet.Toml
