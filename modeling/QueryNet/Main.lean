/-
  QueryNet.Main — the command line.

  `--config FILE` names the scenario, a TOML text, and `--pretty` asks for a report of
  several lines. The report goes to standard output; what went wrong goes to standard
  error, with its causes.
-/

import QueryNet.Scenario.Run
import QueryNet.Toml.Reader

namespace QueryNet.CommandLine

structure Options where
  config : String
  pretty : Bool
  deriving DecidableEq, Repr

def Options.standard : Options := ⟨"scenario.toml", false⟩

def Options.read (o : Options) : List String → Option Options
  | [] => some o
  | "--pretty" :: args => Options.read { o with pretty := true } args
  | "--config" :: file :: args => Options.read { o with config := file } args
  | _ => none

def numbered (cause : String × Nat) : String := "    " ++ Text.Decimal.render cause.2 ++ ": " ++ cause.1

def failureText : List String → String
  | [] => "Error"
  | [message] => "Error: " ++ message
  | [message, cause] => "Error: " ++ message ++ "\n\nCaused by:\n    " ++ cause
  | message :: causes =>
    "Error: " ++ message ++ "\n\nCaused by:\n" ++ Text.join "\n" (causes.zipIdx.map numbered)

/-- The report on the scenario that a text holds, or the messages of what went wrong. -/
def reportOn (o : Options) (text : String) : Except (List String) String :=
  match (Toml.parse text).bind (Scenario.ofDatum? true) with
  | none => .error ["parsing scenario " ++ o.config]
  | some scenario =>
    match scenario.run with
    | .error e => .error e.chain
    | .ok none => .error ["the network does not come to rest"]
    | .ok (some outcomes) => .ok (Scenario.report o.pretty outcomes)

def usage : String := "usage: querynet [--config FILE] [--pretty]"

def readText (file : String) : IO (Option String) :=
  try
    return some (← IO.FS.readFile file)
  catch _ => return none

def fail (code : UInt32) (message : String) : IO UInt32 := do
  IO.eprintln message
  return code

end QueryNet.CommandLine

open QueryNet.CommandLine in
def main (args : List String) : IO UInt32 := do
  match Options.standard.read args with
  | none => fail 2 usage
  | some o =>
    match ← readText o.config with
    | none => fail 1 (failureText ["reading scenario " ++ o.config])
    | some text =>
      match reportOn o text with
      | .error chain => fail 1 (failureText chain)
      | .ok report =>
        IO.println report
        return 0
