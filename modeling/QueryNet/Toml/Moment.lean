/-
  QueryNet.Toml.Moment — TOML's dates and times.

  A date is written `1979-05-27`, a time `07:32:00` with a fraction of the second or
  without. A date may have a time after it, behind a `T` or one blank, and then also
  an offset, `Z` or `+07:00`. Days are those of the calendar; the last second of a
  minute may be number 60.
-/

import QueryNet.Numeral

namespace QueryNet.Toml

open Text.Decimal (isDigit digit?)

/-- The number that the first `n` characters spell, all of them digits, and the rest. -/
def readFixed : Nat → Nat → List Char → Option (Nat × List Char)
  | 0, value, cs => some (value, cs)
  | _ + 1, _, [] => none
  | n + 1, value, c :: cs => (digit? c).bind fun d => readFixed n (value * 10 + d) cs

def readWithin (least most : Nat) (cs : List Char) : Option (Nat × List Char) :=
  (readFixed 2 0 cs).filter fun p => least ≤ p.1 && p.1 ≤ most

def afterChar (c : Char) : List Char → Option (List Char)
  | [] => none
  | d :: cs => if d = c then some cs else none

def isLeapYear (year : Nat) : Bool := year % 4 == 0 && (year % 100 != 0 || year % 400 == 0)

def daysIn (year month : Nat) : Nat :=
  if month = 2 then if isLeapYear year then 29 else 28
  else if month = 4 ∨ month = 6 ∨ month = 9 ∨ month = 11 then 30
  else 31

def afterDate (cs : List Char) : Option (List Char) := do
  let (year, cs) ← readFixed 4 0 cs
  let (month, cs) ← readWithin 1 12 (← afterChar '-' cs)
  let (_, cs) ← readWithin 1 (daysIn year month) (← afterChar '-' cs)
  return cs

def afterMinute (cs : List Char) : Option (List Char) := do
  let (_, cs) ← readWithin 0 23 cs
  let (_, cs) ← readWithin 0 59 (← afterChar ':' cs)
  return cs

def afterFraction : List Char → List Char
  | '.' :: c :: cs => if isDigit c then cs.dropWhile isDigit else '.' :: c :: cs
  | cs => cs

def afterTime (cs : List Char) : Option (List Char) := do
  let cs ← afterMinute cs
  let (_, cs) ← readWithin 0 60 (← afterChar ':' cs)
  return afterFraction cs

def afterOffset : List Char → List Char
  | [] => []
  | c :: cs =>
    if c = 'Z' ∨ c = 'z' then cs
    else if c = '+' ∨ c = '-' then (afterMinute cs).getD (c :: cs)
    else c :: cs

/-- What stands after a date, a time, or both. -/
def afterMoment (cs : List Char) : Option (List Char) :=
  match afterDate cs with
  | none => afterTime cs
  | some [] => some []
  | some (c :: rest) =>
    if c = 'T' ∨ c = 't' ∨ c = ' ' then some (((afterTime rest).map afterOffset).getD (c :: rest))
    else some (c :: rest)

end QueryNet.Toml
