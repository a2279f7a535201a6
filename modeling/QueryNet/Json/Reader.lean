/-
  QueryNet.Json.Reader — data from JSON texts.

  A text is cut into tokens first, blanks left out. The tokens are then fed one by
  one to a machine that keeps the lists and records still open on a stack; a text
  is a datum if the machine ends with one and nothing open.
-/

import QueryNet.Datum
import QueryNet.Numeral

namespace QueryNet.Json

open Text (Points)
open Text.Decimal (isDigit)
open Text.Hexadecimal (value?)

inductive Token where
  | openList
  | closeList
  | openRecord
  | closeRecord
  | comma
  | colon
  | string (ps : Points)
  /-- Null, a truth value or a number. -/
  | scalar (d : Datum)
  deriving Repr

/-! ## Strings -/

def hexPoint? (a b c d : Char) : Option Nat := do
  return (← value? a) * 4096 + (← value? b) * 256 + (← value? c) * 16 + (← value? d)

def letterEscape? (c : Char) : Option Nat :=
  if c = '\x22' then some 0x22
  else if c = '\x5c' then some 0x5c
  else if c = '/' then some 0x2f
  else if c = 'b' then some 0x08
  else if c = 'f' then some 0x0c
  else if c = 'n' then some 0x0a
  else if c = 'r' then some 0x0d
  else if c = 't' then some 0x09
  else none

/-- Reads a string up to its closing quote: its code points, surrogates not yet
    paired, and the rest of the text. -/
def readString : List Char → Option (Points × List Char)
  | [] => none
  | '\x22' :: cs => some ([], cs)
  | '\x5c' :: 'u' :: a :: b :: c :: d :: cs =>
    match hexPoint? a b c d with
    | none => none
    | some p => (readString cs).map fun r => (p :: r.1, r.2)
  | '\x5c' :: c :: cs =>
    match letterEscape? c with
    | none => none
    | some p => (readString cs).map fun r => (p :: r.1, r.2)
  | c :: cs => if c.toNat < 0x20 then none else (readString cs).map fun r => (c.toNat :: r.1, r.2)

theorem readString_shorter {cs : List Char} {r : Points × List Char} (h : readString cs = some r) :
    r.2.length < cs.length := by
  fun_induction readString cs generalizing r with
  | case1 => simp at h
  | case2 => simp at h; subst h; simp
  | case3 => simp at h
  | case4 _ _ _ _ _ _ _ ih =>
    obtain ⟨r', hr, rfl⟩ := Option.map_eq_some_iff.mp h
    have := ih hr
    simp only [List.length_cons]; omega
  | case5 => simp at h
  | case6 _ _ _ _ _ ih =>
    obtain ⟨r', hr, rfl⟩ := Option.map_eq_some_iff.mp h
    have := ih hr
    simp only [List.length_cons]; omega
  | case7 => simp at h
  | case8 _ _ _ _ _ _ ih =>
    obtain ⟨r', hr, rfl⟩ := Option.map_eq_some_iff.mp h
    have := ih hr
    simp only [List.length_cons]; omega

/-! ## Numbers -/

def isNumeric (c : Char) : Bool := isDigit c || c == '-' || c == '+' || c == '.' || c == 'e' || c == 'E'

def allDigits (cs : List Char) : Bool := !cs.isEmpty && cs.all isDigit

/-- The digits of a whole number: no zero before others. -/
def isWhole : List Char → Bool
  | ['0'] => true
  | '0' :: _ => false
  | cs => allDigits cs

def isExponent : List Char → Bool
  | '+' :: cs => allDigits cs
  | '-' :: cs => allDigits cs
  | cs => allDigits cs

def isExponentLetter (c : Char) : Bool := c == 'e' || c == 'E'

/-- What may follow the digits before the point of a number that is not whole. -/
def isTail : List Char → Bool
  | '.' :: cs =>
    allDigits (cs.takeWhile isDigit) &&
      match cs.dropWhile isDigit with
      | [] => true
      | e :: r => isExponentLetter e && isExponent r
  | e :: cs => isExponentLetter e && isExponent cs
  | [] => false

def digitsValue (cs : List Char) : Nat := cs.foldl (fun n c => n * 10 + (c.toNat - 48)) 0

def readNumber (cs : List Char) : Option Datum :=
  let minus := cs.head? == some '-'
  let magnitude := if minus then cs.tail else cs
  let whole := magnitude.takeWhile isDigit
  let tail := magnitude.dropWhile isDigit
  if !isWhole whole then none
  else if tail = [] then some (.int minus (digitsValue whole))
  else if isTail tail then some (.real (String.ofList cs))
  else none

/-! ## Tokens -/

def isBlank (c : Char) : Bool := c == ' ' || c == '\n' || c == '\t' || c == '\r'

def readWord : List Char → Option (Datum × List Char)
  | 'n' :: 'u' :: 'l' :: 'l' :: cs => some (.null, cs)
  | 't' :: 'r' :: 'u' :: 'e' :: cs => some (.bool true, cs)
  | 'f' :: 'a' :: 'l' :: 's' :: 'e' :: cs => some (.bool false, cs)
  | _ => none

theorem readWord_shorter {cs : List Char} {r : Datum × List Char} (h : readWord cs = some r) :
    r.2.length < cs.length := by
  unfold readWord at h
  split at h <;> first | (cases h; simp only [List.length_cons]; omega) | cases h

def punctuation? (c : Char) : Option Token :=
  if c = '[' then some .openList
  else if c = ']' then some .closeList
  else if c = '\x7b' then some .openRecord
  else if c = '\x7d' then some .closeRecord
  else if c = ',' then some .comma
  else if c = ':' then some .colon
  else none

def tokens (cs : List Char) : Option (List Token) :=
  match cs with
  | [] => some []
  | c :: rest =>
    if isBlank c then tokens rest
    else
      match punctuation? c with
      | some t => (tokens rest).map (t :: ·)
      | none =>
        if c = '\x22' then
          match h : readString rest with
          | none => none
          | some (ps, after) =>
            have := readString_shorter h
            (tokens after).map (.string (Text.pairSurrogates ps) :: ·)
        else if isNumeric c then
          match readNumber (c :: rest.takeWhile isNumeric) with
          | none => none
          | some d =>
            have := (rest.dropWhile_sublist isNumeric).length_le
            (tokens (rest.dropWhile isNumeric)).map (.scalar d :: ·)
        else
          match h : readWord (c :: rest) with
          | none => none
          | some (d, after) =>
            have := readWord_shorter h
            (tokens after).map (.scalar d :: ·)
termination_by cs.length
decreasing_by all_goals (simp only [List.length_cons] at *; omega)

/-! ## Data -/

/-- A list or a record that is still open, its parts latest first. -/
inductive Frame where
  | list (items : List Datum)
  /-- A record that waits for the value under a name. -/
  | record (members : List (Points × Datum)) (name : Points)

/-- What a machine that reads tokens expects next. `first`: the bracket just opened
    may also close. -/
inductive Expect where
  | value (first : Bool) (stack : List Frame)
  | name (first : Bool) (members : List (Points × Datum)) (stack : List Frame)
  | colon (members : List (Points × Datum)) (name : Points) (stack : List Frame)
  | after (d : Datum) (stack : List Frame)

def feed : Expect → Token → Option Expect
  | .value _ stack, .scalar d => some (.after d stack)
  | .value _ stack, .string ps => some (.after (.string ps) stack)
  | .value _ stack, .openList => some (.value true (.list [] :: stack))
  | .value _ stack, .openRecord => some (.name true [] stack)
  | .value true (.list [] :: stack), .closeList => some (.after (.list []) stack)
  | .name _ members stack, .string ps => some (.colon members ps stack)
  | .name true _ stack, .closeRecord => some (.after (.record []) stack)
  | .colon members name stack, .colon => some (.value false (.record members name :: stack))
  | .after d (.list items :: stack), .comma => some (.value false (.list (d :: items) :: stack))
  | .after d (.list items :: stack), .closeList => some (.after (.list (d :: items).reverse) stack)
  | .after d (.record members name :: stack), .comma => some (.name false ((name, d) :: members) stack)
  | .after d (.record members name :: stack), .closeRecord =>
    some (.after (.record ((name, d) :: members).reverse) stack)
  | _, _ => none

def assemble (ts : List Token) : Option Datum :=
  match ts.foldlM feed (.value false []) with
  | some (.after d []) => some d
  | _ => none

def parse (s : String) : Option Datum := (tokens s.toList).bind assemble

end QueryNet.Json
