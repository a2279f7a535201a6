/-
  QueryNet.Text.Scanning — blanks, and commas outside parentheses and quotes.

  Texts are handled as lists of characters while they are read. A blank is a character
  with Unicode's White_Space property.

  A scan of a text stands inside a quote, or outside quotes at a depth of open
  parentheses. Inside a quote only the same quote character counts; outside, a
  closing parenthesis without an open one is a fault. A text splits at the commas
  that stand at the top, and only if the scan ends at the top again.
-/

namespace QueryNet.Text

/-- The first and last code points of each run of characters with the White_Space property. -/
def blankRanges : List (Nat × Nat) :=
  [(0x9, 0xD), (0x20, 0x20), (0x85, 0x85), (0xA0, 0xA0), (0x1680, 0x1680), (0x2000, 0x200A), (0x2028, 0x2029),
    (0x202F, 0x202F), (0x205F, 0x205F), (0x3000, 0x3000)]

def isBlank (c : Char) : Bool := blankRanges.any fun r => r.1 ≤ c.toNat && c.toNat ≤ r.2

def trimStart (cs : List Char) : List Char := cs.dropWhile isBlank

def trimEnd (cs : List Char) : List Char := (cs.reverse.dropWhile isBlank).reverse

def trim (cs : List Char) : List Char := trimEnd (trimStart cs)

/-- Takes off one final full stop, if there is one. -/
def dropStop (cs : List Char) : List Char := if cs.getLast? = some '.' then cs.dropLast else cs

def isQuote (c : Char) : Bool := c == '\x22' || c == '\x27'

/-- Where a scan of a text stands. -/
structure Nesting where
  quote : Option Char
  depth : Nat
  deriving DecidableEq, Repr

namespace Nesting

def top : Nesting := ⟨none, 0⟩

/-- Past one more character, or none if it closes a parenthesis that is not open. -/
def step (n : Nesting) (c : Char) : Option Nesting :=
  match n.quote with
  | some q => some { n with quote := if c = q then none else some q }
  | none =>
    if isQuote c then some { n with quote := some c }
    else if c = '(' then some { n with depth := n.depth + 1 }
    else if c = ')' then if n.depth = 0 then none else some { n with depth := n.depth - 1 }
    else some n

end Nesting

def consFirst (c : Char) : List (List Char) → List (List Char)
  | [] => [[c]]
  | p :: ps => (c :: p) :: ps

def splitFrom (n : Nesting) : List Char → Option (List (List Char))
  | [] => if n = .top then some [[]] else none
  | c :: cs =>
    if n = .top ∧ c = ',' then (splitFrom .top cs).map ([] :: ·)
    else
      match n.step c with
      | none => none
      | some m => (splitFrom m cs).map (consFirst c)

/-- The pieces between the commas at the top, or none if parentheses or quotes are unbalanced. -/
def splitTop (cs : List Char) : Option (List (List Char)) := splitFrom .top cs

def unquote : List Char → List Char
  | [] => []
  | q :: cs => if isQuote q ∧ cs.getLast? = some q then cs.dropLast else q :: cs

def cutAt (c : Char) : List Char → Option (List Char × List Char)
  | [] => none
  | d :: cs => if d = c then some ([], cs) else (cutAt c cs).map fun p => (d :: p.1, p.2)

def cutAtLast (c : Char) : List Char → Option (List Char × List Char)
  | [] => none
  | d :: cs =>
    match cutAtLast c cs with
    | some p => some (d :: p.1, p.2)
    | none => if d = c then some ([], cs) else none

def cutAtArrow : List Char → Option (List Char × List Char)
  | '<' :: '-' :: cs => some ([], cs)
  | [] => none
  | d :: cs => (cutAtArrow cs).map fun p => (d :: p.1, p.2)

def join (sep : String) : List String → String
  | [] => ""
  | [s] => s
  | s :: r => s ++ sep ++ join sep r

end QueryNet.Text
