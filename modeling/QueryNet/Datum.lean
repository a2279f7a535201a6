/-
  QueryNet.Datum — trees of untyped data.

  A datum is what a JSON or TOML text holds before anything is known of its meaning.
  An integer keeps its minus sign apart from its magnitude, since a reader of
  unsigned numbers refuses even minus zero. The members of a record stay in the
  order in which they were written, repeated names included: what a repetition
  means is for the reader of the record to say.
-/

import QueryNet.Text.Unicode

namespace QueryNet

open Text (Points points text?)

inductive Datum where
  | null
  | bool (b : Bool)
  | int (minus : Bool) (magnitude : Nat)
  /-- A number with a fraction or an exponent, as it was written. -/
  | real (literal : String)
  | string (ps : Points)
  | list (items : List Datum)
  | record (members : List (Points × Datum))
  deriving Inhabited, Repr

namespace Datum

def nat (n : Nat) : Datum := .int false n

def text (s : String) : Datum := .string (points s)

def object (members : List (String × Datum)) : Datum := .record (members.map fun m => (points m.1, m.2))

def text? : Datum → Option String
  | .string ps => Text.text? ps
  | _ => none

/-- A natural number up to `largest`, written without a sign. -/
def nat? (largest : Nat) : Datum → Option Nat
  | .int false n => if n ≤ largest then some n else none
  | _ => none

def bool? : Datum → Option Bool
  | .bool b => some b
  | _ => none

def list? : Datum → Option (List Datum)
  | .list items => some items
  | _ => none

def record? : Datum → Option (List (Points × Datum))
  | .record members => some members
  | _ => none

end Datum

end QueryNet
