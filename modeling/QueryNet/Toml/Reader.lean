/-
  QueryNet.Toml.Reader — data from TOML texts.

  A value is a string, a number, a truth value, a date or a time, a list or a table in
  braces. A list may go over several lines, a table in braces may not.

  A document is a list of lines: headers of tables, headers of arrays of tables, and
  keys with values, each of which ends its line. Keys are set in the table that the
  header before them opened.
-/

import QueryNet.Toml.Moment
import QueryNet.Toml.Number
import QueryNet.Toml.Text
import QueryNet.Toml.Tree

namespace QueryNet.Toml

/-! ## Values -/

def isWordChar (c : Char) : Bool := isBare c || c == '+' || c == '.'

/-- A date or a time: a record, so that only a structure can be read from it, and under
    a name that no structure has. -/
def moment (literal : List Char) : Datum := .object [("moment", .text (String.ofList literal))]

def readScalar (cs : List Char) : Option (Datum × List Char) :=
  match readText cs, afterMoment cs with
  | some (s, r), _ => some (.string (s.map Char.toNat), r)
  | none, some r => some (moment (cs.take (cs.length - r.length)), r)
  | none, none => (readWord (cs.takeWhile isWordChar)).map (·, cs.dropWhile isWordChar)

mutual

/-- A value that nests at most `depth` deep, and the rest of the text. `fuel` exceeds
    the text's length. -/
def readValue : Nat → Nat → List Char → Option (Datum × List Char)
  | 0, _, _ => none
  | fuel + 1, depth, '[' :: r => if depth = 0 then none else (readItems fuel (depth - 1) r).map fun p => (.list p.1, p.2)
  | fuel + 1, depth, '\x7b' :: r =>
    if depth = 0 then none
    else
      match skipSpace r with
      | '\x7d' :: r => some (.record [], r)
      | r => (readPairs fuel (depth - 1) r []).map fun p => ((Tree.table .dotted p.1).datum, p.2)
  | _ + 1, _, cs => readScalar cs

def readItems : Nat → Nat → List Char → Option (List Datum × List Char)
  | 0, _, _ => none
  | fuel + 1, depth, cs =>
    match skipLines cs.length cs with
    | ']' :: r => some ([], r)
    | r =>
      match readValue fuel depth r with
      | none => none
      | some (d, r) =>
        match skipLines r.length r with
        | ',' :: r => (readItems fuel depth r).map fun p => (d :: p.1, p.2)
        | ']' :: r => some ([d], r)
        | _ => none

def readPairs : Nat → Nat → List Char → List (String × Tree) → Option (List (String × Tree) × List Char)
  | 0, _, _, _ => none
  | fuel + 1, depth, cs, ms =>
    match readKey cs with
    | some (path, key, '=' :: r) =>
      match readValue fuel depth (skipSpace r) with
      | none => none
      | some (d, r) =>
        match setPath path key d ms with
        | none => none
        | some ms =>
          match skipSpace r with
          | ',' :: r => readPairs fuel depth r ms
          | '\x7d' :: r => some (ms, r)
          | _ => none
    | _ => none

end

/-! ## Documents -/

/-- A document so far: the path of the present header and the root's members. -/
structure Document where
  path : List String
  root : List (String × Tree)

def readLine (doc : Document) (cs : List Char) : Option (Document × List Char) :=
  match cs with
  | '[' :: '[' :: r =>
    match readKey r with
    | some (path, key, ']' :: ']' :: rest) => do
      let root ← atHeader (openNext key) path doc.root
      return (⟨path ++ [key], root⟩, ← endLine rest)
    | _ => none
  | '[' :: r =>
    match readKey r with
    | some (path, key, ']' :: rest) => do
      let root ← atHeader (openTable key) path doc.root
      return (⟨path ++ [key], root⟩, ← endLine rest)
    | _ => none
  | _ =>
    match readKey cs with
    | some (path, key, '=' :: rest) => do
      let (d, rest) ← readValue (rest.length + 1) depthLimit (skipSpace rest)
      let root ← atHeader (setPath path key d) doc.path doc.root
      return (⟨doc.path, root⟩, ← endLine rest)
    | _ => none

def readDocument : Nat → Document → List Char → Option Document
  | 0, _, _ => none
  | n + 1, doc, cs =>
    match skipLines cs.length cs with
    | [] => some doc
    | r =>
      match readLine doc r with
      | some (doc, rest) => readDocument n doc rest
      | none => none

/-- The mark that may stand before a text to tell its encoding. -/
def byteOrderMark : Char := '\uFEFF'

def parse (s : String) : Option Datum :=
  let cs := if s.toList.head? = some byteOrderMark then s.toList.tail else s.toList
  (readDocument (cs.length + 1) ⟨[], []⟩ cs).map fun doc => .record (membersData doc.root)

end QueryNet.Toml
