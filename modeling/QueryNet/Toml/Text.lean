/-
  QueryNet.Toml.Text — the blanks, comments, strings and keys of TOML texts.

  A string stands between quotes, single or double, on one line or between three of
  them on several; only double quotes have escapes. A key has one or more parts with
  points between them, each a bare word or a string on one line.
-/

import QueryNet.Numeral
import QueryNet.Text.Unicode

namespace QueryNet.Toml

open Text.Hexadecimal (value?)

/-! ## Characters -/

def isSpace (c : Char) : Bool := c == ' ' || c == '\t'

def skipSpace (cs : List Char) : List Char := cs.dropWhile isSpace

def isControl (c : Char) : Bool := (c.toNat < 0x20 && c != '\t') || c.toNat == 0x7f

def endLine (cs : List Char) : Option (List Char) :=
  let rest :=
    match skipSpace cs with
    | '#' :: r => r.dropWhile (!isControl ·)
    | r => r
  match rest with
  | [] => some []
  | '\n' :: r => some r
  | '\r' :: '\n' :: r => some r
  | _ => none

def skipLines : Nat → List Char → List Char
  | 0, cs => cs
  | n + 1, cs =>
    match skipSpace cs with
    | [] => []
    | c :: r =>
      if c = '#' ∨ c = '\n' ∨ c = '\r' then
        match endLine (c :: r) with
        | some rest => skipLines n rest
        | none => c :: r
      else c :: r

/-! ## Strings and keys -/

def readHex : Nat → Nat → List Char → Option (Char × List Char)
  | 0, n, cs => (Text.char? n).map (·, cs)
  | _ + 1, _, [] => none
  | k + 1, n, c :: cs => (value? c).bind fun d => readHex k (n * 16 + d) cs

def letterEscape? (c : Char) : Option Char :=
  if c = '\x22' ∨ c = '\x5c' then some c
  else if c = 'b' then some '\x08'
  else if c = 't' then some '\t'
  else if c = 'n' then some '\n'
  else if c = 'f' then some '\x0c'
  else if c = 'r' then some '\r'
  else none

def readEscape : List Char → Option (Char × List Char)
  | 'u' :: cs => readHex 4 0 cs
  | 'U' :: cs => readHex 8 0 cs
  | c :: cs => (letterEscape? c).map (·, cs)
  | [] => none

/-- A string in double quotes, after the first of them. `fuel` exceeds its length. -/
def readBasic : Nat → List Char → Option (List Char × List Char)
  | 0, _ => none
  | _ + 1, [] => none
  | n + 1, c :: cs =>
    if c = '\x22' then some ([], cs)
    else if c = '\x5c' then
      (readEscape cs).bind fun e => (readBasic n e.2).map fun r => (e.1 :: r.1, r.2)
    else if isControl c then none
    else (readBasic n cs).map fun r => (c :: r.1, r.2)

def readLiteral : List Char → Option (List Char × List Char)
  | [] => none
  | c :: cs =>
    if c = '\x27' then some ([], cs)
    else if isControl c then none
    else (readLiteral cs).map fun r => (c :: r.1, r.2)

def skipBreaks : List Char → List Char
  | '\r' :: '\n' :: cs => skipBreaks cs
  | c :: cs => if isSpace c || c == '\n' then skipBreaks cs else c :: cs
  | [] => []

/-- A backslash at the end of a line: the blanks and line ends after it are left out. -/
def foldLine (cs : List Char) : Option (List Char) :=
  match skipSpace cs with
  | '\n' :: r => some (skipBreaks r)
  | '\r' :: '\n' :: r => some (skipBreaks r)
  | _ => none

def newline? : List Char → Option (List Char)
  | '\n' :: cs => some cs
  | '\r' :: '\n' :: cs => some cs
  | _ => none

/-- A string of several lines between three quotes each, after the first three; up to
    two more quotes before the last three belong to it. -/
def readLong (quote : Char) : Nat → List Char → Option (List Char × List Char)
  | 0, _ => none
  | n + 1, cs =>
    let run := cs.takeWhile (· = quote)
    if run.length ≥ 3 then
      if run.length ≤ 5 then some (run.drop 3, cs.drop run.length) else none
    else if run ≠ [] then (readLong quote n (cs.drop run.length)).map fun r => (run ++ r.1, r.2)
    else
      match newline? cs with
      | some rest => (readLong quote n rest).map fun r => ('\n' :: r.1, r.2)
      | none =>
        match cs with
        | [] => none
        | c :: rest =>
          if c = '\x5c' ∧ quote = '\x22' then
            match foldLine rest with
            | some rest => readLong quote n rest
            | none => (readEscape rest).bind fun e => (readLong quote n e.2).map fun r => (e.1 :: r.1, r.2)
          else if isControl c then none
          else (readLong quote n rest).map fun r => (c :: r.1, r.2)

def readLongBody (quote : Char) (cs : List Char) : Option (List Char × List Char) :=
  let body := (newline? cs).getD cs
  readLong quote (body.length + 1) body

def readText (cs : List Char) : Option (List Char × List Char) :=
  match cs with
  | '\x22' :: '\x22' :: '\x22' :: r => readLongBody '\x22' r
  | '\x27' :: '\x27' :: '\x27' :: r => readLongBody '\x27' r
  | '\x22' :: r => readBasic (r.length + 1) r
  | '\x27' :: r => readLiteral r
  | _ => none

def isBare (c : Char) : Bool := c.isAlphanum || c == '_' || c == '-'

def readPart (cs : List Char) : Option (String × List Char) :=
  match cs with
  | '\x22' :: r => (readBasic (r.length + 1) r).map fun p => (String.ofList p.1, p.2)
  | '\x27' :: r => (readLiteral r).map fun p => (String.ofList p.1, p.2)
  | _ =>
    let bare := cs.takeWhile isBare
    if bare = [] then none else some (String.ofList bare, cs.dropWhile isBare)

/-- How deep values may nest, and how many parts a key may have. -/
def depthLimit : Nat := 79

def readParts : Nat → List Char → Option (List String × String × List Char)
  | 0, _ => none
  | n + 1, cs =>
    match readPart (skipSpace cs) with
    | none => none
    | some (part, rest) =>
      match skipSpace rest with
      | '.' :: r => (readParts n r).map fun k => (part :: k.1, k.2)
      | r => some ([], part, r)

def readKey (cs : List Char) : Option (List String × String × List Char) := readParts depthLimit cs

end QueryNet.Toml
