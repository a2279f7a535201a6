/-
  QueryNet.Packet.Wire — packets as bytes.

  A packet is written as the number of its kind in four bytes, its query's name, the
  count of its arguments and the arguments, one byte that says whether there is a
  result, and then the count of its pairs and each key and value in key order. Counts
  and the lengths of texts take eight bytes; numbers start with their lowest byte.

  Reading takes the parts in that order and stops at the first fault. Bytes after
  the last part are left over, and of a repeated key the last value stays.
-/

import QueryNet.Packet
import QueryNet.Text.Unicode

namespace QueryNet.Packet.Wire

inductive DecodeError where
  /-- Too few bytes for a number. -/
  | endOfInput
  /-- Too few bytes for the contents of a text. -/
  | shortText
  | unknownKind (n : Nat)
  | badOption (n : Nat)
  | badText (fault : Text.Utf8.Fault)
  deriving DecidableEq, Repr

def DecodeError.message (e : DecodeError) : String :=
  "decode error: " ++
    match e with
    | .endOfInput => "io error: unexpected end of file"
    | .shortText => "io error: "
    | .unknownKind n =>
      "invalid value: integer `" ++ Text.Decimal.render n ++ "`, expected variant index 0 <= i < 3"
    | .badOption n => "tag for enum is not valid, found " ++ Text.Decimal.render n
    | .badText fault => "string is not valid utf8: " ++ fault.message

/-! ## Writing -/

/-- A number in `width` bytes, the lowest first. -/
def putNat : Nat → Nat → List UInt8
  | 0, _ => []
  | width + 1, n => UInt8.ofNat n :: putNat width (n / 256)

def putText (s : String) : List UInt8 :=
  let bs := Text.Utf8.encode s
  putNat 8 bs.length ++ bs

def kindNumber : PacketKind → Nat
  | .request => 0
  | .response => 1
  | .routeAnnounce => 2

def putPair (pair : String × String) : List UInt8 := putText pair.1 ++ putText pair.2

def putResult : Option Bindings → List UInt8
  | none => [0]
  | some b => 1 :: (putNat 8 b.size ++ b.entries.flatMap putPair)

def encode (p : Packet) : List UInt8 :=
  putNat 4 (kindNumber p.kind) ++ putText p.query.name ++ putNat 8 p.query.arity ++
    p.query.args.flatMap putText ++ putResult p.result

/-! ## Reading -/

abbrev Read (α : Type) := Except DecodeError (α × List UInt8)

def getNat : Nat → List UInt8 → Read Nat
  | 0, bs => .ok (0, bs)
  | _ + 1, [] => .error .endOfInput
  | width + 1, b :: bs =>
    match getNat width bs with
    | .error e => .error e
    | .ok (n, rest) => .ok (b.toNat + 256 * n, rest)

def getText (bs : List UInt8) : Read String :=
  match getNat 8 bs with
  | .error e => .error e
  | .ok (n, rest) =>
    if rest.length < n then .error .shortText
    else
      match Text.Utf8.decode? (rest.take n) with
      | some s => .ok (s, rest.drop n)
      | none => .error (.badText ((Text.Utf8.fault? (rest.take n)).getD ⟨0, none⟩))

def getMany {α : Type} (get : List UInt8 → Read α) : Nat → List UInt8 → Read (List α)
  | 0, bs => .ok ([], bs)
  | n + 1, bs =>
    match get bs with
    | .error e => .error e
    | .ok (a, rest) =>
      match getMany get n rest with
      | .error e => .error e
      | .ok (as, rest) => .ok (a :: as, rest)

def getKind (bs : List UInt8) : Read PacketKind :=
  match getNat 4 bs with
  | .error e => .error e
  | .ok (0, rest) => .ok (.request, rest)
  | .ok (1, rest) => .ok (.response, rest)
  | .ok (2, rest) => .ok (.routeAnnounce, rest)
  | .ok (n, _) => .error (.unknownKind n)

def getPair (bs : List UInt8) : Read (String × String) :=
  match getText bs with
  | .error e => .error e
  | .ok (k, rest) =>
    match getText rest with
    | .error e => .error e
    | .ok (v, rest) => .ok ((k, v), rest)

def getList {α : Type} (get : List UInt8 → Read α) (bs : List UInt8) : Read (List α) :=
  match getNat 8 bs with
  | .error e => .error e
  | .ok (n, rest) => getMany get n rest

def getResult (bs : List UInt8) : Read (Option Bindings) :=
  match getNat 1 bs with
  | .error e => .error e
  | .ok (0, rest) => .ok (none, rest)
  | .ok (1, rest) =>
    match getList getPair rest with
    | .error e => .error e
    | .ok (pairs, rest) => .ok (some (.ofList pairs), rest)
  | .ok (n, _) => .error (.badOption n)

def getPacket (bs : List UInt8) : Read Packet :=
  match getKind bs with
  | .error e => .error e
  | .ok (kind, rest) =>
    match getText rest with
    | .error e => .error e
    | .ok (name, rest) =>
      match getList getText rest with
      | .error e => .error e
      | .ok (args, rest) =>
        match getResult rest with
        | .error e => .error e
        | .ok (result, rest) => .ok (⟨kind, ⟨name, args⟩, result⟩, rest)

/-- The packet that bytes start with. -/
def decode (bs : List UInt8) : Except DecodeError Packet := (getPacket bs).map (·.1)

end QueryNet.Packet.Wire
