/-
  QueryNet.Json.Printer — JSON texts of data.

  A string escapes the double quote, the backslash and the control characters below
  U+0020, five of them by a letter, and nothing else that is a character. The
  compact form has no blanks; the pretty form puts each item of a list and each
  member of a record on a line of its own, indented by two blanks a level.
-/

import QueryNet.Datum
import QueryNet.Numeral
import QueryNet.Text.Scanning

namespace QueryNet.Json

open Text (Points)
open Text.Hexadecimal (digit)

/-- The four hexadecimal digits of a code point below U+10000. -/
def hex4 (p : Nat) : List Char :=
  [digit (p / 4096 % 16), digit (p / 256 % 16), digit (p / 16 % 16), digit (p % 16)]

def backslash : Char := '\x5c'

def escape (p : Nat) : List Char :=
  if p = 0x22 then [backslash, '\x22']
  else if p = 0x5c then [backslash, backslash]
  else if p = 0x08 then [backslash, 'b']
  else if p = 0x0c then [backslash, 'f']
  else if p = 0x0a then [backslash, 'n']
  else if p = 0x0d then [backslash, 'r']
  else if p = 0x09 then [backslash, 't']
  else if p < 0x20 then backslash :: 'u' :: hex4 p
  else
    match Text.char? p with
    | some c => [c]
    | none => backslash :: 'u' :: hex4 p

def quoted (ps : Points) : String := String.ofList ('\x22' :: ps.flatMap escape ++ ['\x22'])

def number (minus : Bool) (n : Nat) : String := (if minus then "-" else "") ++ Text.Decimal.render n

mutual

def compact : Datum → String
  | .null => "null"
  | .bool b => if b then "true" else "false"
  | .int minus n => number minus n
  | .real literal => literal
  | .string ps => quoted ps
  | .list items => "[" ++ Text.join "," (compactItems items) ++ "]"
  | .record members => "\x7b" ++ Text.join "," (compactMembers members) ++ "\x7d"

def compactItems : List Datum → List String
  | [] => []
  | d :: ds => compact d :: compactItems ds

def compactMembers : List (Points × Datum) → List String
  | [] => []
  | (name, d) :: ms => (quoted name ++ ":" ++ compact d) :: compactMembers ms

end

def newline (level : Nat) : String := String.ofList ('\n' :: List.replicate (2 * level) ' ')

def block (level : Nat) (opening closing : String) : List String → String
  | [] => opening ++ closing
  | items =>
    opening ++ newline (level + 1) ++ Text.join ("," ++ newline (level + 1)) items ++ newline level ++ closing

mutual

/-- The text of a datum at a level of indentation, one item to a line. -/
def prettyAt (level : Nat) : Datum → String
  | .list items => block level "[" "]" (prettyItems (level + 1) items)
  | .record members => block level "\x7b" "\x7d" (prettyMembers (level + 1) members)
  | .null => "null"
  | .bool b => if b then "true" else "false"
  | .int minus n => number minus n
  | .real literal => literal
  | .string ps => quoted ps

def prettyItems (level : Nat) : List Datum → List String
  | [] => []
  | d :: ds => prettyAt level d :: prettyItems level ds

def prettyMembers (level : Nat) : List (Points × Datum) → List String
  | [] => []
  | (name, d) :: ms => (quoted name ++ ": " ++ prettyAt level d) :: prettyMembers level ms

end

def pretty (d : Datum) : String := prettyAt 0 d

end QueryNet.Json
