/-
  QueryNet.Text.Unicode — texts as code points and as bytes.

  A JSON string can spell any list of code points, surrogates that stand alone
  included, and such a string is no text. It is read as its code points first and
  becomes a text only where one is asked for.

  Bytes that are no UTF-8 have a first fault: the index at which the valid part
  ends, and the length of the longest start of a sequence there, or no length if
  the bytes end within a sequence that was valid so far.

  Proved: `text?_points` (a text comes back from its code points).
-/

namespace QueryNet.Text

/-- Code points, unpaired surrogates among them. -/
abbrev Points := List Nat

def points (s : String) : Points := s.toList.map Char.toNat

def char? (p : Nat) : Option Char := if p.isValidChar then some (Char.ofNat p) else none

def text? (ps : Points) : Option String := (ps.mapM char?).map String.ofList

def isHighSurrogate (p : Nat) : Bool := 0xD800 ≤ p && p < 0xDC00

def isLowSurrogate (p : Nat) : Bool := 0xDC00 ≤ p && p < 0xE000

/-- Joins each high surrogate and the low one after it into the code point they stand for. -/
def pairSurrogates : Points → Points
  | [] => []
  | [p] => [p]
  | p :: q :: ps =>
    if isHighSurrogate p ∧ isLowSurrogate q then (0x10000 + (p - 0xD800) * 0x400 + (q - 0xDC00)) :: pairSurrogates ps
    else p :: pairSurrogates (q :: ps)

theorem char?_toNat (c : Char) : char? c.toNat = some c := by
  have h : c.toNat.isValidChar := c.valid
  simp [char?, h]

theorem text?_points (s : String) : text? (points s) = some s := by
  have h : ∀ cs : List Char, (cs.map Char.toNat).mapM char? = some cs := by
    intro cs
    induction cs with
    | nil => rfl
    | cons c cs ih => simp [char?_toNat, ih]
  simp [text?, points, h]

namespace Utf8

/-- Where bytes stop being a text; `length` is none if they only end too early. -/
structure Fault where
  index : Nat
  length : Option Nat
  deriving DecidableEq, Repr

/-- How many more bytes follow the first one of a sequence, and the range the next one must be in. -/
def lead? (b : Nat) : Option (Nat × Nat × Nat) :=
  if 0xC2 ≤ b ∧ b ≤ 0xDF then some (1, 0x80, 0xBF)
  else if b = 0xE0 then some (2, 0xA0, 0xBF)
  else if b = 0xED then some (2, 0x80, 0x9F)
  else if 0xE1 ≤ b ∧ b ≤ 0xEF then some (2, 0x80, 0xBF)
  else if b = 0xF0 then some (3, 0x90, 0xBF)
  else if 0xF1 ≤ b ∧ b ≤ 0xF3 then some (3, 0x80, 0xBF)
  else if b = 0xF4 then some (3, 0x80, 0x8F)
  else none

inductive Stand where
  | between
  /-- `read` bytes of a sequence are read, `more + 1` are owed, the next in a range. -/
  | within (read more low high : Nat)

/-- The first fault of bytes from index `i` on. `i` is the start of the sequence at which the walk stands. -/
def faultFrom (i : Nat) : Stand → List UInt8 → Option Fault
  | .between, [] => none
  | .within _ _ _ _, [] => some ⟨i, none⟩
  | .between, b :: bs =>
    if b.toNat < 0x80 then faultFrom (i + 1) .between bs
    else
      match lead? b.toNat with
      | none => some ⟨i, some 1⟩
      | some (n, low, high) => faultFrom i (.within 1 (n - 1) low high) bs
  | .within read more low high, b :: bs =>
    if low ≤ b.toNat ∧ b.toNat ≤ high then
      match more with
      | 0 => faultFrom (i + read + 1) .between bs
      | m + 1 => faultFrom i (.within (read + 1) m 0x80 0xBF) bs
    else some ⟨i, some read⟩

def fault? (bs : List UInt8) : Option Fault := faultFrom 0 .between bs

def Fault.message (f : Fault) : String :=
  match f.length with
  | some n => "invalid utf-8 sequence of " ++ Nat.repr n ++ " bytes from index " ++ Nat.repr f.index
  | none => "incomplete utf-8 byte sequence from index " ++ Nat.repr f.index

def encode (s : String) : List UInt8 := s.toUTF8.toList

def decode? (bs : List UInt8) : Option String := String.fromUTF8? bs.toByteArray

end Utf8

end QueryNet.Text
