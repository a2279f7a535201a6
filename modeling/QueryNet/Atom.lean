/-
  QueryNet.Atom — predicates applied to arguments, and how they are read from text.

  An argument that starts with `?` is a variable, every other one a constant. The
  canonical text of an atom, `name("a", "b")`, puts each argument between double
  quotes as it is. Atoms are ordered by name, then by argument list.

  A text that is read is `name(arg, ...)` or a bare name, with blanks anywhere around
  its parts and an optional full stop at the end. Arguments stand between top-level
  commas and lose one pair of quotes around them. The text is trimmed, freed of one
  final full stop and trimmed at its end; its name ends at the first opening
  parenthesis, its arguments at the last closing one.
-/

import QueryNet.Numeral
import QueryNet.Text.Scanning

namespace QueryNet

structure Atom where
  name : String
  args : List String
  deriving DecidableEq, Repr, Inhabited

def isVariable (arg : String) : Bool := arg.toList.head? == some '?'

namespace Atom

/-- The name of the body item that composes values instead of asking a query. -/
def composeMarker : String := "@"

def arity (a : Atom) : Nat := a.args.length

/-- The signature `name/arity`, under which routes are kept. -/
def key (a : Atom) : String := a.name ++ "/" ++ Text.Decimal.render a.arity

def quoted (arg : String) : String := "\x22" ++ arg ++ "\x22"

def canonical (a : Atom) : String := a.name ++ "(" ++ Text.join ", " (a.args.map quoted) ++ ")"

def isComposition (a : Atom) : Bool := a.name == composeMarker

def variableArgs (a : Atom) : List String := a.args.filter isVariable

instance : Ord Atom := ⟨compareLex (compareOn Atom.name) (compareOn Atom.args)⟩

instance : Std.TransOrd Atom :=
  inferInstanceAs (Std.TransCmp (compareLex (compareOn Atom.name) (compareOn Atom.args)))

instance : Std.LawfulEqOrd Atom where
  compare_self := Std.ReflOrd.compare_self
  eq_of_compare {a b} h := by
    obtain ⟨hn, ha⟩ := compareLex_eq_eq.mp h
    cases a; cases b
    exact congr (congrArg _ (Std.LawfulEqOrd.eq_of_compare hn)) (Std.LawfulEqOrd.eq_of_compare ha)

def sort (atoms : List Atom) : List Atom := atoms.mergeSort fun a b => (compare a b).isLE

end Atom

/-! ## Reading -/

/-- Why a text is no atom or no rule; each holds the text that was given. -/
inductive ParseError where
  | empty
  | missingName (text : String)
  | unbalanced (text : String)
  | trailingInput (text : String)
  | emptyArgument (text : String)
  | missingImplication (text : String)
  | emptyBody (text : String)
  deriving DecidableEq, Repr

def ParseError.message : ParseError → String
  | .empty => "empty atom text"
  | .missingName t => "missing predicate name in `" ++ t ++ "`"
  | .unbalanced t => "unbalanced parentheses or quotes in `" ++ t ++ "`"
  | .trailingInput t => "unexpected text after `)` in `" ++ t ++ "`"
  | .emptyArgument t => "empty argument in `" ++ t ++ "`"
  | .missingImplication t => "rule `" ++ t ++ "` has no `<-` separator"
  | .emptyBody t => "rule `" ++ t ++ "` has an empty body"

namespace Atom

open Text

/-- The argument that stands between two commas, or none if nothing does. -/
def readArg (piece : List Char) : Option String :=
  let arg := trim piece
  if arg = [] then none else some (String.ofList (unquote arg))

def readArgs (text : String) (inner : List Char) : Except ParseError (List String) :=
  if trim inner = [] then .ok []
  else
    match splitTop inner with
    | none => .error (.unbalanced text)
    | some pieces =>
      match pieces.mapM readArg with
      | none => .error (.emptyArgument text)
      | some args => .ok args

def parseChars (text : String) (cs : List Char) : Except ParseError Atom :=
  let body := trimEnd (dropStop (trim cs))
  if body = [] then .error .empty
  else
    match cutAt '(' body with
    | none => if ')' ∈ body then .error (.unbalanced text) else .ok ⟨String.ofList body, []⟩
    | some (front, rest) =>
      let name := trim front
      if name = [] then .error (.missingName text)
      else
        match cutAtLast ')' rest with
        | none => .error (.unbalanced text)
        | some (inner, after) =>
          if trim after ≠ [] then .error (.trailingInput text)
          else (readArgs text inner).map fun args => ⟨String.ofList name, args⟩

def parse (text : String) : Except ParseError Atom := parseChars text text.toList

end Atom

end QueryNet
