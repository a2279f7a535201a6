/-
  QueryNet.Toml.Number — TOML's numbers and truth values.

  Single underscores may stand between digits. A whole number lies within the bounds
  of 64-bit integers, and a number with a fraction or an exponent may be anything but
  too large for 64-bit floating point; below zero there is no such bound.
-/

import QueryNet.Datum
import QueryNet.Numeral

namespace QueryNet.Toml

open Text.Decimal (isDigit)
open Text.Hexadecimal (value?)

/-- The digits of a number in which single underscores stand between digits; `ok` tells digits. -/
def plainDigits (ok : Char → Bool) : List Char → Option (List Char)
  | [] => none
  | [c] => if ok c then some [c] else none
  | c :: '_' :: d :: cs => if ok c then (plainDigits ok (d :: cs)).map (c :: ·) else none
  | c :: d :: cs => if ok c then (plainDigits ok (d :: cs)).map (c :: ·) else none

def wholeDigits (cs : List Char) : Option (List Char) :=
  (plainDigits isDigit cs).filter fun ds => ds.head? != some '0' || ds.length == 1

def valueIn (base : Nat) (cs : List Char) : Nat := cs.foldl (fun n c => n * base + (value? c).getD 0) 0

def bounded (minus : Bool) (n : Nat) : Option Datum :=
  if n ≤ (if minus then 0x8000000000000000 else 0x7FFFFFFFFFFFFFFF) then some (.int (minus && n != 0) n) else none

def readInBase (base : Nat) (cs : List Char) : Option Datum :=
  (plainDigits (fun c => decide ((value? c).getD base < base)) cs).bind fun ds => bounded false (valueIn base ds)

def isExponentLetter (c : Char) : Bool := c == 'e' || c == 'E'

def readExponent (cs : List Char) : Option Int :=
  let value (ds : List Char) : Int := (valueIn 10 ds : Nat)
  match cs with
  | '+' :: r => (plainDigits isDigit r).map value
  | '-' :: r => (plainDigits isDigit r).map fun ds => -value ds
  | r => (plainDigits isDigit r).map value

def inNumber (c : Char) : Bool := isDigit c || c == '_'

def readTail : List Char → Option (List Char × Int)
  | '.' :: r =>
    (plainDigits isDigit (r.takeWhile inNumber)).bind fun fraction =>
      match r.dropWhile inNumber with
      | [] => some (fraction, 0)
      | e :: r => if isExponentLetter e then (readExponent r).map (fraction, ·) else none
  | e :: r => if isExponentLetter e then (readExponent r).map ([], ·) else none
  | [] => none

/-- Reads a number with a fraction or an exponent, after its sign: all its digits as one
    number, and the power of ten that they count. -/
def readReal (cs : List Char) : Option (Nat × Int) := do
  let whole ← wholeDigits (cs.takeWhile inNumber)
  let (fraction, exponent) ← readTail (cs.dropWhile inNumber)
  return (valueIn 10 (whole ++ fraction), exponent - fraction.length)

def readWord (cs : List Char) : Option Datum :=
  let minus := cs.head? == some '-'
  let body := if minus ∨ cs.head? = some '+' then cs.tail else cs
  if cs = "true".toList then some (.bool true)
  else if cs = "false".toList then some (.bool false)
  else if body = "inf".toList ∨ body = "nan".toList then some (.real (String.ofList cs))
  else
    match cs with
    | '0' :: 'x' :: r => readInBase 16 r
    | '0' :: 'o' :: r => readInBase 8 r
    | '0' :: 'b' :: r => readInBase 2 r
    | _ =>
      match wholeDigits body with
      | some ds => bounded minus (valueIn 10 ds)
      | none =>
        match readReal body with
        | some (m, e) => if !minus && Binary64.isInfinite m e then none else some (.real (String.ofList cs))
        | none => none

end QueryNet.Toml
