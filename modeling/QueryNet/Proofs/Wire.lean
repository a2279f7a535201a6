/-
  QueryNet.Proofs.Wire — which bytes are a packet.

  The layout of a packet is said apart from reading and writing: the number of its
  kind, its query's name, its counted arguments, one byte for whether there is a
  result, and a counted list of pairs of which the last one of each key is the
  result's. What is written is one such layout, the one in key order (`layout_encode`).

  Proved: a reader takes a packet off the front of bytes exactly if they are a layout
  of it and the rest (`reads_packet`), and no layout of a packet is shorter than what
  is written for it (`length_encode_le`). So reading undoes writing whatever follows,
  and bytes that end too early are refused (`wire_exact`).
-/

import QueryNet.Packet.Wire
import QueryNet.Proofs.Table

namespace QueryNet

namespace Text.Utf8

theorem toList_loop (b : ByteArray) (i : Nat) (r : List UInt8) :
    ByteArray.toList.loop b i r = r.reverse ++ b.data.toList.drop i := by
  induction hn : b.size - i generalizing i r with
  | zero =>
    have hi : b.data.toList.length ≤ i := by
      rw [Array.length_toList]
      exact Nat.le_of_sub_eq_zero hn
    rw [ByteArray.toList.loop, if_neg (by omega), List.drop_eq_nil_of_le hi, List.append_nil]
  | succ n ih =>
    have hi : i < b.data.toList.length := by
      rw [Array.length_toList]
      exact Nat.lt_of_sub_eq_succ hn
    have hget : b.get! i = b.data.toList[i] := by
      show b.data[i]! = _
      rw [getElem!_pos b.data i (by simpa using hi), Array.getElem_toList]
    rw [ByteArray.toList.loop, if_pos (by omega), ih _ _ (by omega), List.drop_eq_getElem_cons hi, hget, List.reverse_cons,
      List.append_assoc]
    rfl

theorem encode_eq (s : String) : encode s = s.toByteArray.data.toList := by
  rw [encode, String.toUTF8_eq_toByteArray, ByteArray.toList, toList_loop]
  rfl

/-- Bytes are read as the text that they are the UTF-8 form of. -/
theorem decode?_eq_some_iff {bs : List UInt8} {s : String} : decode? bs = some s ↔ bs = encode s := by
  have harray : s.toByteArray = (encode s).toByteArray := by
    apply ByteArray.ext
    rw [List.data_toByteArray, encode_eq, Array.toArray_toList]
  unfold decode? String.fromUTF8?
  constructor
  · intro h
    split at h
    · cases h
      exact List.toByteArray_inj.mp harray
    · cases h
  · rintro rfl
    rw [dif_pos (harray ▸ s.isValidUTF8)]
    exact congrArg some (String.toByteArray_inj.mp harray.symm)

end Text.Utf8

namespace Packet.Wire

/-! ## Layouts -/

def value : List UInt8 → Nat
  | [] => 0
  | b :: bs => b.toNat + 256 * value bs

def Number (width n : Nat) (l : List UInt8) : Prop := l.length = width ∧ value l = n

def TextLayout (s : String) (l : List UInt8) : Prop :=
  ∃ len, Number 8 (Text.Utf8.encode s).length len ∧ l = len ++ Text.Utf8.encode s

inductive Parts {α : Type} (Layout : α → List UInt8 → Prop) : List α → List UInt8 → Prop
  | nil : Parts Layout [] []
  | cons {a : α} {as : List α} {l m : List UInt8} : Layout a l → Parts Layout as m → Parts Layout (a :: as) (l ++ m)

def Counted {α : Type} (Layout : α → List UInt8 → Prop) (as : List α) (l : List UInt8) : Prop :=
  ∃ count parts, Number 8 as.length count ∧ Parts Layout as parts ∧ l = count ++ parts

def PairLayout (pair : String × String) (l : List UInt8) : Prop :=
  ∃ k v, TextLayout pair.1 k ∧ TextLayout pair.2 v ∧ l = k ++ v

/-- Each key has the last value that the pairs give it. -/
def LastWins (pairs : List (String × String)) (b : Bindings) : Prop :=
  ∀ k, b.get? k = (pairs.reverse.find? (·.1 = k)).map (·.2)

inductive ResultLayout : Option Bindings → List UInt8 → Prop
  | none : ResultLayout none [0]
  | some {pairs : List (String × String)} {b : Bindings} {l : List UInt8} : Counted PairLayout pairs l →
      LastWins pairs b → ResultLayout (some b) (1 :: l)

/-- The bytes of a packet: several may do, since the pairs of a result stand in any order and may repeat keys. -/
def Layout (p : Packet) (l : List UInt8) : Prop :=
  ∃ kind name args result, Number 4 (kindNumber p.kind) kind ∧ TextLayout p.query.name name ∧
    Counted TextLayout p.query.args args ∧ ResultLayout p.result result ∧ l = kind ++ name ++ args ++ result

/-! ## Reading takes a layout off the front -/

/-- A reader that takes off exactly the layouts of what it gives. -/
def Reads {α : Type} (get : List UInt8 → Read α) (Layout : α → List UInt8 → Prop) : Prop :=
  ∀ ⦃bs a rest⦄, get bs = .ok (a, rest) ↔ ∃ l, Layout a l ∧ bs = l ++ rest

theorem reads_number (width : Nat) : Reads (getNat width) (Number width) := by
  induction width with
  | zero =>
    intro bs n rest
    constructor
    · intro h
      cases h
      exact ⟨[], ⟨rfl, rfl⟩, rfl⟩
    · rintro ⟨l, ⟨hlen, rfl⟩, rfl⟩
      rw [List.eq_nil_of_length_eq_zero hlen]
      rfl
  | succ width ih =>
    intro bs n rest
    cases bs with
    | nil =>
      constructor
      · intro h
        cases h
      · rintro ⟨l, ⟨hlen, -⟩, hl⟩
        rw [List.nil_eq_append_iff.mp hl |>.1] at hlen
        cases hlen
    | cons b bs =>
      constructor
      · intro h
        rw [getNat] at h
        split at h
        · cases h
        · rename_i m rest' hm
          cases h
          obtain ⟨l, ⟨hlen, hval⟩, rfl⟩ := ih.mp hm
          exact ⟨b :: l, ⟨congrArg (· + 1) hlen, by rw [value, hval]⟩, rfl⟩
      · rintro ⟨l, ⟨hlen, rfl⟩, hl⟩
        cases l with
        | nil => cases hlen
        | cons c l =>
          obtain ⟨rfl, rfl⟩ : b = c ∧ bs = l ++ rest := List.cons.inj hl
          rw [getNat, ih.mpr ⟨l, ⟨Nat.succ.inj hlen, rfl⟩, rfl⟩]
          rfl

theorem reads_text : Reads getText TextLayout := by
  intro bs s rest
  constructor
  · intro h
    unfold getText at h
    split at h
    · cases h
    · rename_i n after hn
      obtain ⟨len, hlen, rfl⟩ := (reads_number 8).mp hn
      split at h
      · cases h
      · rename_i hshort
        split at h
        · rename_i hs
          cases h
          have htake := Text.Utf8.decode?_eq_some_iff.mp hs
          -- the count was of bytes, and all of them were there
          have hcount : (Text.Utf8.encode s).length = n := by
            rw [← htake, List.length_take]
            omega
          refine ⟨len ++ Text.Utf8.encode s, ⟨len, hcount ▸ hlen, rfl⟩, ?_⟩
          rw [← htake, List.append_assoc, List.take_append_drop]
        · cases h
  · rintro ⟨l, ⟨len, hlen, rfl⟩, rfl⟩
    have hn := (reads_number 8).mpr ⟨len, hlen, List.append_assoc len (Text.Utf8.encode s) rest⟩
    have hs := Text.Utf8.decode?_eq_some_iff.mpr (rfl : Text.Utf8.encode s = _)
    have hlong : ¬ (Text.Utf8.encode s ++ rest).length < (Text.Utf8.encode s).length := by
      rw [List.length_append]
      omega
    simp only [getText, hn, if_neg hlong, List.take_left, List.drop_left, hs]

theorem reads_many {α : Type} {get : List UInt8 → Read α} {Layout : α → List UInt8 → Prop} (hget : Reads get Layout)
    (n : Nat) : Reads (getMany get n) fun as l => as.length = n ∧ Parts Layout as l := by
  induction n with
  | zero =>
    intro bs as rest
    constructor
    · intro h
      cases h
      exact ⟨[], ⟨rfl, .nil⟩, rfl⟩
    · rintro ⟨l, ⟨hlen, hl⟩, rfl⟩
      cases hl with
      | nil => rfl
      | cons => cases hlen
  | succ n ih =>
    intro bs as rest
    constructor
    · intro h
      rw [getMany] at h
      split at h
      · cases h
      · rename_i a after ha
        split at h
        · cases h
        · rename_i as' rest' has
          cases h
          obtain ⟨l, hl, rfl⟩ := hget.mp ha
          obtain ⟨m, ⟨hlen, hm⟩, rfl⟩ := ih.mp has
          exact ⟨l ++ m, ⟨congrArg (· + 1) hlen, .cons hl hm⟩, (List.append_assoc ..).symm⟩
    · rintro ⟨l, ⟨hlen, hl⟩, rfl⟩
      cases hl with
      | nil => cases hlen
      | @cons a as l m ha has =>
        rw [getMany, hget.mpr ⟨l, ha, List.append_assoc l m rest⟩]
        dsimp only
        rw [ih.mpr ⟨m, ⟨Nat.succ.inj hlen, has⟩, rfl⟩]

theorem reads_counted {α : Type} {get : List UInt8 → Read α} {Layout : α → List UInt8 → Prop}
    (hget : Reads get Layout) : Reads (getList get) (Counted Layout) := by
  intro bs as rest
  constructor
  · intro h
    unfold getList at h
    split at h
    · cases h
    · rename_i n after hn
      obtain ⟨count, hcount, rfl⟩ := (reads_number 8).mp hn
      obtain ⟨parts, ⟨hlen, hparts⟩, rfl⟩ := (reads_many hget n).mp h
      exact ⟨count ++ parts, ⟨count, parts, hlen ▸ hcount, hparts, rfl⟩, (List.append_assoc ..).symm⟩
  · rintro ⟨l, ⟨count, parts, hcount, hparts, rfl⟩, rfl⟩
    rw [getList, (reads_number 8).mpr ⟨count, hcount, List.append_assoc count parts rest⟩]
    exact (reads_many hget _).mpr ⟨parts, ⟨rfl, hparts⟩, rfl⟩

theorem reads_pair : Reads getPair PairLayout := by
  intro bs pair rest
  constructor
  · intro h
    unfold getPair at h
    split at h
    · cases h
    · rename_i k after hk
      split at h
      · cases h
      · rename_i v rest' hv
        cases h
        obtain ⟨l, hl, rfl⟩ := reads_text.mp hk
        obtain ⟨m, hm, rfl⟩ := reads_text.mp hv
        exact ⟨l ++ m, ⟨l, m, hl, hm, rfl⟩, (List.append_assoc ..).symm⟩
  · rintro ⟨_, ⟨l, m, hl, hm, rfl⟩, rfl⟩
    rw [getPair, reads_text.mpr ⟨l, hl, List.append_assoc l m rest⟩]
    dsimp only
    rw [reads_text.mpr ⟨m, hm, rfl⟩]

theorem lastWins_iff {pairs : List (String × String)} {b : Bindings} : LastWins pairs b ↔ b = .ofList pairs := by
  have hlast : ∀ k, (Table.ofList pairs).get? k = (pairs.reverse.find? (·.1 = k)).map (·.2) := by
    intro k
    rw [Table.ofList, Table.get?_insertAll]
    exact Option.or_none
  constructor
  · intro h
    exact Table.ext fun k => (h k).trans (hlast k).symm
  · rintro rfl
    exact hlast

theorem Number.eq_singleton {n : Nat} {l : List UInt8} (h : Number 1 n l) : l = [UInt8.ofNat n] := by
  obtain ⟨hlen, rfl⟩ := h
  obtain ⟨b, rfl⟩ := List.length_eq_one_iff.mp hlen
  rw [value, value, Nat.mul_zero, Nat.add_zero, UInt8.ofNat_toNat]

theorem reads_result : Reads getResult ResultLayout := by
  intro bs result rest
  constructor
  · intro h
    unfold getResult at h
    split at h
    · cases h
    · rename_i after hopt
      cases h
      obtain ⟨l, hl, rfl⟩ := (reads_number 1).mp hopt
      exact ⟨l, hl.eq_singleton ▸ .none, rfl⟩
    · rename_i after hopt
      obtain ⟨l, hl, rfl⟩ := (reads_number 1).mp hopt
      split at h
      · cases h
      · rename_i pairs rest' hpairs
        cases h
        obtain ⟨m, hm, rfl⟩ := (reads_counted reads_pair).mp hpairs
        refine ⟨1 :: m, .some hm (lastWins_iff.mpr rfl), ?_⟩
        rw [hl.eq_singleton]
        rfl
    · cases h
  · rintro ⟨l, hl, rfl⟩
    cases hl with
    | none => rfl
    | @some pairs b m hm hlast =>
      have hopt : getNat 1 (1 :: m ++ rest) = .ok (1, m ++ rest) := rfl
      simp only [getResult, hopt, (reads_counted reads_pair).mpr ⟨m, hm, rfl⟩, lastWins_iff.mp hlast]

theorem reads_kind : Reads getKind fun kind l => Number 4 (kindNumber kind) l := by
  intro bs kind rest
  constructor
  · intro h
    unfold getKind at h
    split at h
    · cases h
    · rename_i hn
      cases h
      exact (reads_number 4).mp hn
    · rename_i hn
      cases h
      exact (reads_number 4).mp hn
    · rename_i hn
      cases h
      exact (reads_number 4).mp hn
    · cases h
  · intro h
    have hn := (reads_number 4).mpr h
    cases kind with
    | request => rw [getKind, hn]; rfl
    | response => rw [getKind, hn]; rfl
    | routeAnnounce => rw [getKind, hn]; rfl

/-- A packet is taken off the front of bytes exactly if they start with a layout of it. -/
theorem reads_packet : Reads getPacket Layout := by
  intro bs p rest
  constructor
  · intro h
    unfold getPacket at h
    split at h
    · cases h
    · rename_i kind after₁ hkind
      split at h
      · cases h
      · rename_i name after₂ hname
        split at h
        · cases h
        · rename_i args after₃ hargs
          split at h
          · cases h
          · rename_i result after₄ hresult
            cases h
            obtain ⟨l₁, h₁, rfl⟩ := reads_kind.mp hkind
            obtain ⟨l₂, h₂, rfl⟩ := reads_text.mp hname
            obtain ⟨l₃, h₃, rfl⟩ := (reads_counted reads_text).mp hargs
            obtain ⟨l₄, h₄, rfl⟩ := reads_result.mp hresult
            refine ⟨l₁ ++ l₂ ++ l₃ ++ l₄, ⟨l₁, l₂, l₃, l₄, h₁, h₂, h₃, h₄, rfl⟩, ?_⟩
            simp only [List.append_assoc]
  · rintro ⟨_, ⟨l₁, l₂, l₃, l₄, h₁, h₂, h₃, h₄, rfl⟩, rfl⟩
    simp only [List.append_assoc]
    rw [getPacket, reads_kind.mpr ⟨l₁, h₁, rfl⟩]
    dsimp only
    rw [reads_text.mpr ⟨l₂, h₂, rfl⟩]
    dsimp only
    rw [(reads_counted reads_text).mpr ⟨l₃, h₃, rfl⟩]
    dsimp only
    rw [reads_result.mpr ⟨l₄, h₄, rfl⟩]

/-! ## What is written -/

def span : Nat → Nat
  | 0 => 1
  | width + 1 => 256 * span width

theorem length_putNat (width n : Nat) : (putNat width n).length = width := by
  induction width generalizing n with
  | zero => rfl
  | succ width ih => rw [putNat, List.length_cons, ih]

theorem number_putNat {width n : Nat} (h : n < span width) : Number width n (putNat width n) := by
  refine ⟨length_putNat width n, ?_⟩
  induction width generalizing n with
  | zero => exact (Nat.lt_one_iff.mp h).symm
  | succ width ih =>
    have hrest : n / 256 < span width := Nat.div_lt_of_lt_mul h
    rw [putNat, value, ih hrest, UInt8.toNat_ofNat']
    omega

/-- Every text and every list of the packet can be counted in eight bytes. -/
structure Countable (p : Packet) : Prop where
  name : (Text.Utf8.encode p.query.name).length < span 8
  arity : p.query.arity < span 8
  arg : ∀ a ∈ p.query.args, (Text.Utf8.encode a).length < span 8
  size : ∀ b, p.result = some b → b.size < span 8
  pair : ∀ b, p.result = some b → ∀ e ∈ b.entries,
    (Text.Utf8.encode e.1).length < span 8 ∧ (Text.Utf8.encode e.2).length < span 8

theorem layout_putText {s : String} (h : (Text.Utf8.encode s).length < span 8) : TextLayout s (putText s) :=
  ⟨_, number_putNat h, rfl⟩

theorem parts_flatMap {α : Type} {put : α → List UInt8} {Layout : α → List UInt8 → Prop} {as : List α}
    (h : ∀ a ∈ as, Layout a (put a)) : Parts Layout as (as.flatMap put) := by
  induction as with
  | nil => exact .nil
  | cons a as ih =>
    exact .cons (h a (List.mem_cons_self ..)) (ih fun b hb => h b (List.mem_cons_of_mem _ hb))

theorem layout_putResult {result : Option Bindings} (hsize : ∀ b, result = some b → b.size < span 8)
    (hpair : ∀ b, result = some b → ∀ e ∈ b.entries,
      (Text.Utf8.encode e.1).length < span 8 ∧ (Text.Utf8.encode e.2).length < span 8) :
    ResultLayout result (putResult result) := by
  cases result with
  | none => exact .none
  | some b =>
    have hparts : Parts PairLayout b.entries (b.entries.flatMap putPair) := parts_flatMap fun e he =>
      ⟨_, _, layout_putText (hpair b rfl e he).1, layout_putText (hpair b rfl e he).2, rfl⟩
    exact .some ⟨_, _, number_putNat (hsize b rfl), hparts, rfl⟩ fun k => (b.find?_reverse_entries k).symm

/-- What is written for a packet is a layout of it. -/
theorem layout_encode {p : Packet} (h : Countable p) : Layout p (encode p) := by
  have hkind : kindNumber p.kind < span 4 := by cases p.kind <;> decide
  have hargs : Parts TextLayout p.query.args (p.query.args.flatMap putText) :=
    parts_flatMap fun a ha => layout_putText (h.arg a ha)
  refine ⟨_, _, putNat 8 p.query.arity ++ p.query.args.flatMap putText, _, number_putNat hkind, layout_putText h.name,
    ⟨_, _, number_putNat h.arity, hargs, rfl⟩, layout_putResult h.size h.pair, ?_⟩
  simp only [encode, List.append_assoc]

/-! ## No layout is shorter -/

theorem length_putText {s : String} {l : List UInt8} (h : TextLayout s l) : (putText s).length = l.length := by
  obtain ⟨len, ⟨hlen, -⟩, rfl⟩ := h
  rw [putText, List.length_append, List.length_append, length_putNat, hlen]

theorem length_putPair {pair : String × String} {l : List UInt8} (h : PairLayout pair l) :
    (putPair pair).length = l.length := by
  obtain ⟨k, v, hk, hv, rfl⟩ := h
  rw [putPair, List.length_append, List.length_append, length_putText hk, length_putText hv]

theorem length_flatMap {α : Type} {put : α → List UInt8} {Layout : α → List UInt8 → Prop} {as : List α} {l : List UInt8}
    (h : Parts Layout as l) (hput : ∀ a l, Layout a l → (put a).length = l.length) :
    (as.flatMap put).length = l.length := by
  induction h with
  | nil => rfl
  | cons ha _ ih => rw [List.flatMap_cons, List.length_append, List.length_append, hput _ _ ha, ih]

theorem length_putResult_le {result : Option Bindings} {l : List UInt8} (h : ResultLayout result l) :
    (putResult result).length ≤ l.length := by
  cases h with
  | none => exact Nat.le_refl _
  | @some pairs b l hl hlast =>
    obtain ⟨count, parts, ⟨hcount, -⟩, hparts, rfl⟩ := hl
    have hle : (b.entries.flatMap putPair).length ≤ (pairs.flatMap putPair).length := by
      rw [lastWins_iff.mp hlast]
      exact Nat.le_trans (Table.length_flatMap_insertAll_le putPair .empty pairs) (Nat.le_of_eq (Nat.zero_add _))
    rw [length_flatMap hparts fun _ _ => length_putPair] at hle
    simp only [putResult, List.length_cons, List.length_append, length_putNat, hcount]
    omega

/-- No layout of a packet is shorter than what is written for it. -/
theorem length_encode_le {p : Packet} {l : List UInt8} (h : Layout p l) : (encode p).length ≤ l.length := by
  obtain ⟨kind, name, args, result, ⟨hkind, -⟩, hname, ⟨count, parts, ⟨hcount, -⟩, hparts, rfl⟩, hresult, rfl⟩ := h
  have hle := length_putResult_le hresult
  have hargs := length_flatMap hparts fun _ _ => length_putText
  simp only [encode, List.length_append, length_putNat, length_putText hname, hargs, hkind, hcount]
  omega

/-! ## Packets as bytes -/

theorem decode_eq_ok_iff {bs : List UInt8} {p : Packet} : decode bs = .ok p ↔ ∃ l t, Layout p l ∧ bs = l ++ t := by
  constructor
  · intro h
    cases hget : getPacket bs with
    | error e =>
      rw [decode, hget] at h
      cases h
    | ok r =>
      rw [decode, hget] at h
      cases h
      obtain ⟨l, hl, rfl⟩ := reads_packet.mp hget
      exact ⟨l, r.2, hl, rfl⟩
  · rintro ⟨l, t, hl, rfl⟩
    rw [decode, reads_packet.mpr ⟨l, hl, rfl⟩]
    rfl

/-- No layout of a packet starts a layout of another, or of the same. -/
theorem Layout.eq_nil {p q : Packet} {l m t : List UInt8} (hp : Layout p l) (hq : Layout q m) (h : l = m ++ t) :
    t = [] := by
  have hl : getPacket l = .ok (p, []) := reads_packet.mpr ⟨l, hp, (List.append_nil l).symm⟩
  have hm : getPacket l = .ok (q, t) := reads_packet.mpr ⟨m, hq, h⟩
  rw [hl] at hm
  cases hm
  rfl

/-- Writing loses nothing and says where it ends; reading accepts the layouts of packets and nothing else, and
    what it accepts is never shorter than what is written for the packet. -/
theorem wire_exact :
    (∀ p t, Countable p → decode (encode p ++ t) = .ok p) ∧
      (∀ p l, Countable p → l <+: encode p → l ≠ encode p → ∃ e, decode l = .error e) ∧
      (∀ bs p, decode bs = .ok p ↔ ∃ l t, Layout p l ∧ bs = l ++ t) ∧
      (∀ p l, Layout p l → (encode p).length ≤ l.length) := by
  refine ⟨?_, ?_, ?_, ?_⟩
  · intro p t hp
    exact decode_eq_ok_iff.mpr ⟨_, t, layout_encode hp, rfl⟩
  · rintro p l hp ⟨t, ht⟩ hne
    cases hl : decode l with
    | error e => exact ⟨e, rfl⟩
    | ok q =>
      -- a layout would stand at the front of what is written, so it would be all of it
      obtain ⟨m, u, hm, rfl⟩ := decode_eq_ok_iff.mp hl
      rw [List.append_assoc] at ht
      obtain ⟨rfl, rfl⟩ := List.append_eq_nil_iff.mp ((layout_encode hp).eq_nil hm ht.symm)
      exact absurd ht hne
  · exact fun bs p => decode_eq_ok_iff
  · exact fun p l => length_encode_le

def greeting : Packet := .response ⟨"says", ["?Who", "é"]⟩ (.ofList [("?Who", "Zoë")])

theorem greeting_wire :
    Countable greeting ∧ decode (encode greeting ++ [0xFF]) = .ok greeting ∧
      (∃ e, decode (encode greeting).dropLast = .error e) ∧
      (∃ l t, Layout greeting l ∧ encode greeting ++ [0xFF] = l ++ t) ∧
      ∀ l, Layout greeting l → (encode greeting).length ≤ l.length := by
  have hc : Countable greeting := by
    constructor
    · rw [Text.Utf8.encode_eq]
      decide +kernel
    · decide +kernel
    · simp only [Text.Utf8.encode_eq]
      decide +kernel
    · rintro b h
      cases h
      decide +kernel
    · rintro b h
      cases h
      simp only [Text.Utf8.encode_eq]
      decide +kernel
  obtain ⟨undo, truncated, exact, shortest⟩ := wire_exact
  have hne : (encode greeting).dropLast ≠ encode greeting := by
    intro h
    have hlen := congrArg List.length h
    rw [List.length_dropLast] at hlen
    simp only [encode, List.length_append, length_putNat] at hlen
    omega
  exact ⟨hc, undo _ _ hc, truncated _ _ hc (List.dropLast_prefix _) hne, (exact _ _).mp (undo _ _ hc),
    shortest _⟩

end Packet.Wire

end QueryNet
