/-
  QueryNet.Rule — rules that reduce a query to subgoals, and the values of variables.

  A rule `head <- b1, b2.` answers queries that match its head by the answers to its
  body's subgoals. A body item named `@` is no subgoal: the first such item composes
  the subgoals' values.

  `unify` matches a rule's head with a query: a constant of the head must stand at
  its place in the query, a variable of the head is bound to what stands there.
  `matchFact` matches a query with a fact: a variable of the query is bound to the
  fact's value, each time the same. `compose` joins the values of some variables
  into one, and `translate` passes values found for a head's variables on to the
  variables of the query that the head was matched with.
-/

import QueryNet.Atom
import QueryNet.Table

namespace QueryNet

structure Rule where
  head : Atom
  body : List Atom
  deriving DecidableEq, Repr, Inhabited

namespace Rule

def subgoals (r : Rule) : List Atom := r.body.filter fun a => !a.isComposition

/-- The first composition item of the body. -/
def composition (r : Rule) : Option Atom := r.body.find? Atom.isComposition

def text (r : Rule) : String :=
  r.head.canonical ++ " <- " ++ Text.join ", " (r.body.map Atom.canonical) ++ "."

open Text

/-- Reads `head <- b1, b2.`: the head ends at the first arrow, the items at top-level commas. -/
def parse (text : String) : Except ParseError Rule :=
  match cutAtArrow (trim text.toList) with
  | none => .error (.missingImplication text)
  | some (front, rest) => do
    let head ← Atom.parse (String.ofList front)
    let body := trim (dropStop (trim rest))
    if body = [] then throw (.emptyBody text)
    match splitTop body with
    | none => throw (.unbalanced text)
    | some pieces => return ⟨head, ← pieces.mapM fun p => Atom.parse (String.ofList p)⟩

end Rule

/-! ## Values of variables -/

abbrev Bindings := Table String String

def unifyArgs : List String → List String → Bindings → Option Bindings
  | h :: hs, q :: qs, b =>
    if isVariable h then unifyArgs hs qs (b.insert h q) else if h = q then unifyArgs hs qs b else none
  | _, _, b => some b

def unify (head query : Atom) : Option Bindings :=
  if head.name = query.name ∧ head.arity = query.arity then unifyArgs head.args query.args ∅ else none

def Rule.unify (r : Rule) (query : Atom) : Option Bindings := QueryNet.unify r.head query

/-- Binds the variables among `qs` to the values that face them, each to one value only. -/
def matchArgs : List String → List String → Bindings → Option Bindings
  | q :: qs, v :: vs, b =>
    if isVariable q then
      match b.get? q with
      | none => matchArgs qs vs (b.insert q v)
      | some w => if w = v then matchArgs qs vs b else none
    else if q = v then matchArgs qs vs b
    else none
  | _, _, b => some b

def matchFact (query fact : Atom) : Option Bindings :=
  if query.name = fact.name ∧ query.arity = fact.arity then matchArgs query.args fact.args ∅ else none

/-- Joins the values of a pattern's later arguments under its first one, in their place. -/
def compose (pattern : Atom) (b : Bindings) : Bindings :=
  match pattern.args with
  | [] => b
  | target :: sources =>
    (sources.foldl Table.erase b).insert target ("\x7b" ++ Text.join " | " (sources.filterMap b.get?) ++ "\x7d")

/-- What the caller learns of a pair of a head's variable and the argument it was bound to. -/
def surface (b : Bindings) (pair : String × String) : Option (String × String) :=
  if isVariable pair.2 then (b.get? pair.1).map fun v => (pair.2, v) else none

/-- Renames bindings of a head's variables to the caller's variables; of several values the last stays. -/
def translate (headMap b : Bindings) : Bindings := .ofList (headMap.entries.filterMap (surface b))

end QueryNet
