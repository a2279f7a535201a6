/-
  QueryNet.Numeral — numbers as texts, and what floating point keeps of them.

  A number is written with its decimal digits, the first of which is 0 only for the
  number 0. A numeral that is read may start with one plus sign and with any number
  of zeros; its digits are taken from the left, and the first that is no digit or
  takes the value past the largest one allowed decides the fault. The hexadecimal
  digits above nine are letters: small ones when written, of either case when read.

  In 64-bit floating point a number keeps 53 significant binary digits: what is between
  two such numbers goes to the nearer one, and from the middle to the one whose last
  digit is 0. Numbers from half a step past the largest finite one on are infinite.
-/

namespace QueryNet

namespace Text

namespace Decimal

def digitChar (n : Nat) : Char := Char.ofNat (48 + n)

def digits (n : Nat) : List Char :=
  if n < 10 then [digitChar n] else digits (n / 10) ++ [digitChar (n % 10)]

def render (n : Nat) : String := String.ofList (digits n)

def isDigit (c : Char) : Bool := '0' ≤ c && c ≤ '9'

def digit? (c : Char) : Option Nat := if isDigit c then some (c.toNat - 48) else none

/-- Why a text is no numeral of a number that is allowed. -/
inductive Fault where
  | empty
  | notADigit
  | tooLarge
  deriving DecidableEq, Repr

def Fault.message : Fault → String
  | .empty => "cannot parse integer from empty string"
  | .notADigit => "invalid digit found in string"
  | .tooLarge => "number too large to fit in target type"

def readDigits (largest : Nat) : Nat → List Char → Except Fault Nat
  | n, [] => .ok n
  | n, c :: cs =>
    match digit? c with
    | none => .error .notADigit
    | some d => if n * 10 + d ≤ largest then readDigits largest (n * 10 + d) cs else .error .tooLarge

def readChars (largest : Nat) : List Char → Except Fault Nat
  | [] => .error .empty
  | ['+'] => .error .notADigit
  | '+' :: cs => readDigits largest 0 cs
  | cs => readDigits largest 0 cs

def read (largest : Nat) (s : String) : Except Fault Nat := readChars largest s.toList

end Decimal

namespace Hexadecimal

def digit (n : Nat) : Char := if n < 10 then Char.ofNat (48 + n) else Char.ofNat (87 + n)

def value? (c : Char) : Option Nat :=
  if '0' ≤ c ∧ c ≤ '9' then some (c.toNat - 48)
  else if 'a' ≤ c ∧ c ≤ 'f' then some (c.toNat - 87)
  else if 'A' ≤ c ∧ c ≤ 'F' then some (c.toNat - 55)
  else none

end Hexadecimal

end Text

namespace Binary64

def precision : Nat := 53

/-- The multiple of the power of two with exponent `k` that is nearest to `n`; from the
    middle, the one that is an even multiple. -/
def nearestMultiple (k n : Nat) : Nat :=
  let step := 1 <<< k
  let quotient := n / step
  let past := 2 * (n % step)
  (if past < step ∨ (past = step ∧ quotient % 2 = 0) then quotient else quotient + 1) * step

def nearest (n : Nat) : Nat := if n < 1 <<< precision then n else nearestMultiple (n.log2 + 1 - precision) n

def infinite : Nat := (1 <<< 1024) - (1 <<< 970)

def infiniteDigits : Nat := 309

/-- Whether `m` times the power of ten with exponent `e` is infinite. Only a number with
    as many digits as the least infinite one has to be compared with it. -/
def isInfinite (m : Nat) (e : Int) : Bool :=
  if m = 0 then false
  else
    let digits := (Text.Decimal.digits m).length + e
    if digits < infiniteDigits then false
    else if digits > infiniteDigits then true
    else infinite * Nat.pow 10 (-e).toNat ≤ m * Nat.pow 10 e.toNat

end Binary64

end QueryNet
