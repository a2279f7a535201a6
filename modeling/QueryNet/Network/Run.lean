/-
  QueryNet.Network.Run — running a network on its clock.

  Tasks take turns in the order in which they became able to move, and in its turn a
  task moves until it has to wait. When none can move the clock goes on to the
  earliest time that a task waits for. Nothing bounds how long packets go round at
  one instant, so a run has a number of moves that it may take, and no outcome if
  they do not suffice.
-/

import QueryNet.Network.Step

namespace QueryNet.Network

def awake (depth : Nat) (n : Network) (except : List TaskId) : List TaskId :=
  (List.range n.tasks.length).filter fun i => i ∉ except ∧ (n.step depth i).isSome

def nextDeadline (n : Network) : Option Nat := (n.tasks.filterMap n.deadline).min?

/-- Runs a network until `stop` holds of it at rest, or else until nothing is left to do
    up to the time `target`. The tasks of `turns` are next. What happened is put before
    `log`, the latest first. -/
def runTo (depth : Nat) (stop : Network → Bool) (target : Nat) :
    Nat → List TaskId → Network → List Event → Option (Network × List Event)
  | 0, _, _, _ => none
  | moves + 1, i :: turns, n, log =>
    match n.step depth i with
    | some (m, es) => runTo depth stop target moves (i :: turns) m (es.reverse ++ log)
    | none => runTo depth stop target moves (turns ++ n.awake depth turns) n log
  | moves + 1, [], n, log =>
    match n.awake depth [] with
    | i :: turns => runTo depth stop target moves (i :: turns) n log
    | [] =>
      if stop n then some (n, log)
      else
        match n.nextDeadline with
        | some d =>
          if d ≤ target then runTo depth stop target moves [] { n with now := max n.now d } log
          else some ({ n with now := max n.now target }, log)
        | none => some ({ n with now := max n.now target }, log)

/-- How deep queries may be decomposed in a run. -/
def depthLimit : Nat := 10000

def moveLimit : Nat := 1000000000

/-- Runs a network up to a time; events come in the order in which they happened. -/
def runUntil (n : Network) (target : Nat) : Option (Network × List Event) :=
  (runTo depthLimit (fun _ => false) target moveLimit [] n []).map fun r => (r.1, r.2.reverse)

def settle (n : Network) : Option (Network × List Event) := n.runUntil n.now

end QueryNet.Network
