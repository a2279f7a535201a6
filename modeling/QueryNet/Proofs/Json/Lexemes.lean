/-
  QueryNet.Proofs.Json.Lexemes — strings, numbers and words as they are printed and read.

  A string is read code point by code point, each from what was written for it: a letter
  or four digits behind a backslash, or the character itself (`readString_escape`). What
  was read is then joined, a high surrogate with a low one after it, so it comes back as
  it was if it has no such two (`Joined`); texts have no surrogates at all. A number goes
  on as long as its characters do, so the text behind it must break it off (`Breaks`).

  Proved: what is written for a string, a number or a word is one token
  (`tokens_quoted`, `tokens_numeric`, `tokens_word`), and no string that was read has such
  two surrogates (`readString_lt`, `joined_pairSurrogates`).
-/

import Mathlib.Data.List.Chain
import Mathlib.Data.List.TakeWhile
import QueryNet.Json.Printer
import QueryNet.Json.Reader
import QueryNet.Proofs.Announcement

namespace QueryNet

namespace Text

/-! ## Code points -/

/-- Code points that stay as they are when surrogates are joined: none is past the last one, and no high surrogate
    stands before a low one. -/
structure Joined (ps : Points) : Prop where
  lt : ∀ p ∈ ps, p < 0x110000
  apart : ps.IsChain fun p q => ¬ (isHighSurrogate p ∧ isLowSurrogate q)

variable {p : Nat} {ps : Points}

theorem Joined.pairSurrogates_eq (h : Joined ps) : pairSurrogates ps = ps := by
  obtain ⟨-, h⟩ := h
  fun_induction pairSurrogates ps with
  | case1 => rfl
  | case2 => rfl
  | case3 p q ps hpair => exact absurd hpair (List.isChain_cons_cons.mp h).1
  | case4 p q ps hpair ih => rw [ih (List.isChain_cons_cons.mp h).2]

/-- Joining leaves the first code point alone or makes one of it that is no surrogate. -/
theorem head?_pairSurrogates (ps : Points) :
    ∀ q ∈ (pairSurrogates ps).head?, q ∈ ps.head? ∨ isLowSurrogate q = false := by
  intro q hq
  fun_induction pairSurrogates ps with
  | case1 => cases hq
  | case2 => exact .inl hq
  | case3 p r ps hpair ih =>
    rw [List.head?_cons, Option.mem_some_iff] at hq
    subst hq
    right
    simp only [isLowSurrogate, Bool.and_eq_false_iff, decide_eq_false_iff_not]
    omega
  | case4 => exact .inl hq

/-- After joining there is nothing more to join. -/
theorem joined_pairSurrogates (h : ∀ p ∈ ps, p < 0x110000) : Joined (pairSurrogates ps) := by
  fun_induction pairSurrogates ps with
  | case1 => exact ⟨h, .nil⟩
  | case2 p => exact ⟨h, .singleton p⟩
  | case3 p q ps hpair ih =>
    obtain ⟨hlt, hapart⟩ := ih fun r hr => h r (by simp [hr])
    simp only [isHighSurrogate, isLowSurrogate, Bool.and_eq_true, decide_eq_true_eq] at hpair
    refine ⟨List.forall_mem_cons.mpr ⟨by omega, hlt⟩, hapart.cons fun r _ hboth => ?_⟩
    simp only [isHighSurrogate, Bool.and_eq_true, decide_eq_true_eq] at hboth
    omega
  | case4 p q ps hpair ih =>
    obtain ⟨hp, hrest⟩ := List.forall_mem_cons.mp h
    obtain ⟨hlt, hapart⟩ := ih hrest
    refine ⟨List.forall_mem_cons.mpr ⟨hp, hlt⟩, hapart.cons fun r hr hboth => ?_⟩
    rcases head?_pairSurrogates _ r hr with hq | hlow
    · cases hq
      exact hpair hboth
    · rw [hlow] at hboth
      exact Bool.false_ne_true hboth.2

/-- No character is a surrogate. -/
theorem joined_points (s : String) : Joined (points s) := by
  have hvalid : ∀ p ∈ points s, p.isValidChar := by
    intro p hp
    obtain ⟨c, -, rfl⟩ := List.mem_map.mp hp
    exact c.valid
  constructor
  · intro p hp
    have := hvalid p hp
    unfold Nat.isValidChar at this
    omega
  · refine (List.pairwise_of_forall_mem_list fun p hp q _ hboth => ?_).isChain
    have := hvalid p hp
    simp only [isHighSurrogate, Bool.and_eq_true, decide_eq_true_eq] at hboth
    unfold Nat.isValidChar at this
    omega

end Text

namespace Json

open Text (Points Joined)
open Text.Hexadecimal (digit value?)

/-! ## Strings -/

theorem value?_digit {n : Nat} (h : n < 16) : value? (digit n) = some n := by
  have hall : ∀ n < 16, value? (digit n) = some n := by decide
  exact hall n h

variable {p : Nat} {ps : Points} {cs rest : List Char}

theorem readString_hex4 (h : p < 0x10000) (cs : List Char) :
    readString (backslash :: 'u' :: hex4 p ++ cs) = (readString cs).map fun r => (p :: r.1, r.2) := by
  have hpoint : hexPoint? (digit (p / 4096 % 16)) (digit (p / 256 % 16)) (digit (p / 16 % 16)) (digit (p % 16)) =
      some p := by
    simp only [hexPoint?, value?_digit (Nat.mod_lt _ (by decide : 0 < 16)), Option.pure_def, Option.bind_eq_bind,
      Option.bind_some, Option.some.injEq]
    omega
  simp only [backslash, hex4, List.cons_append, List.nil_append]
  rw [readString, hpoint]

theorem readString_letter {c : Char} (h : letterEscape? c = some p) (cs : List Char) :
    readString (backslash :: c :: cs) = (readString cs).map fun r => (p :: r.1, r.2) := by
  have hu : c ≠ 'u' := by
    rintro rfl
    cases h
  simp [backslash, readString, h, hu]

theorem readString_plain {c : Char} (hquote : c ≠ '\x22') (hback : c ≠ backslash) (hlow : 0x20 ≤ c.toNat)
    (cs : List Char) : readString (c :: cs) = (readString cs).map fun r => (c.toNat :: r.1, r.2) := by
  have hlow : ¬ c.toNat < 0x20 := Nat.not_lt.mpr hlow
  unfold backslash at hback
  rw [readString.eq_def]
  split <;> simp_all

def lettered : Points := [0x22, 0x5c, 0x08, 0x0c, 0x0a, 0x0d, 0x09]

theorem escape_of_mem_lettered (h : p ∈ lettered) : ∃ c, escape p = [backslash, c] ∧ letterEscape? c = some p := by
  simp only [lettered, List.mem_cons, List.not_mem_nil, or_false] at h
  rcases h with rfl | rfl | rfl | rfl | rfl | rfl | rfl <;> exact ⟨_, rfl, rfl⟩

theorem escape_of_notMem_lettered (h : p ∉ lettered) :
    escape p = if p < 0x20 then backslash :: 'u' :: hex4 p
      else ((Text.char? p).map fun c => [c]).getD (backslash :: 'u' :: hex4 p) := by
  simp only [lettered, List.mem_cons, List.not_mem_nil, or_false, not_or] at h
  simp only [escape, h, if_false]
  cases Text.char? p <;> rfl

/-- A code point is read from what is written for it. -/
theorem readString_escape (h : p < 0x110000) (cs : List Char) :
    readString (escape p ++ cs) = (readString cs).map fun r => (p :: r.1, r.2) := by
  by_cases hletter : p ∈ lettered
  · obtain ⟨c, he, hc⟩ := escape_of_mem_lettered hletter
    rw [he]
    exact readString_letter hc cs
  rw [escape_of_notMem_lettered hletter]
  by_cases hlow : p < 0x20
  · rw [if_pos hlow]
    exact readString_hex4 (by omega) cs
  rw [if_neg hlow]
  by_cases hvalid : p.isValidChar
  · obtain ⟨c, rfl⟩ : ∃ c : Char, c.toNat = p := ⟨Char.ofNatAux p hvalid, rfl⟩
    rw [Text.char?_toNat, Option.map_some, Option.getD_some]
    refine readString_plain ?_ ?_ (Nat.le_of_not_lt hlow) cs
    · rintro rfl
      exact hletter (by decide)
    · rintro rfl
      exact hletter (by decide)
  · have hshort : p < 0x10000 := by
      unfold Nat.isValidChar at hvalid
      omega
    rw [Text.char?, if_neg hvalid, Option.map_none, Option.getD_none]
    exact readString_hex4 hshort cs

/-- A string is read up to its closing quote. -/
theorem readString_string (h : ∀ p ∈ ps, p < 0x110000) (cs : List Char) :
    readString (ps.flatMap escape ++ '\x22' :: cs) = some (ps, cs) := by
  induction ps with
  | nil => rfl
  | cons p ps ih =>
    obtain ⟨hp, hps⟩ := List.forall_mem_cons.mp h
    rw [List.flatMap_cons, List.append_assoc, readString_escape hp, ih hps, Option.map_some]

theorem value?_lt {c : Char} {n : Nat} (h : value? c = some n) : n < 16 := by
  have hle : ∀ {d : Char}, c ≤ d → c.toNat ≤ d.toNat := fun h => UInt32.le_iff_toNat_le.mp h
  unfold value? at h
  split at h
  · rename_i hc
    have hnine : c.toNat ≤ 57 := hle hc.2
    cases h
    omega
  split at h
  · rename_i hc
    have hlast : c.toNat ≤ 102 := hle hc.2
    cases h
    omega
  split at h
  · rename_i hc
    have hlast : c.toNat ≤ 70 := hle hc.2
    cases h
    omega
  · cases h

theorem hexPoint?_lt {a b c d : Char} (h : hexPoint? a b c d = some p) : p < 0x110000 := by
  obtain ⟨u, hu, h⟩ := Option.bind_eq_some_iff.mp h
  obtain ⟨v, hv, h⟩ := Option.bind_eq_some_iff.mp h
  obtain ⟨w, hw, h⟩ := Option.bind_eq_some_iff.mp h
  obtain ⟨x, hx, h⟩ := Option.bind_eq_some_iff.mp h
  have := value?_lt hu
  have := value?_lt hv
  have := value?_lt hw
  have := value?_lt hx
  cases h
  omega

theorem letterEscape?_lt {c : Char} (h : letterEscape? c = some p) : p < 0x110000 := by
  unfold letterEscape? at h
  repeat' split at h
  all_goals cases h
  all_goals decide

/-- Whatever is read as a string is made of code points. -/
theorem readString_lt {r : Points × List Char} (h : readString cs = some r) : ∀ p ∈ r.1, p < 0x110000 := by
  have hcons : ∀ {p : Nat} {cs : List Char} {r : Points × List Char}, p < 0x110000 →
      (∀ {s : Points × List Char}, readString cs = some s → ∀ q ∈ s.1, q < 0x110000) →
      (readString cs).map (fun s => (p :: s.1, s.2)) = some r → ∀ q ∈ r.1, q < 0x110000 := by
    intro p cs r hp hcs h
    obtain ⟨s, hs, rfl⟩ := Option.map_eq_some_iff.mp h
    exact List.forall_mem_cons.mpr ⟨hp, hcs hs⟩
  fun_induction readString cs generalizing r with
  | case1 => cases h
  | case2 =>
    cases h
    simp
  | case3 => cases h
  | case4 _ _ _ _ _ _ hpoint ih => exact hcons (hexPoint?_lt hpoint) ih h
  | case5 => cases h
  | case6 _ _ _ _ hpoint ih => exact hcons (letterEscape?_lt hpoint) ih h
  | case7 => cases h
  | case8 c _ _ _ _ _ ih =>
    have hvalid : c.toNat.isValidChar := c.valid
    unfold Nat.isValidChar at hvalid
    exact hcons (by omega) ih h

/-! ## Numbers -/

open Text.Decimal (isDigit digits digitChar readDigits)

theorem of_readDigits {largest n m : Nat} (h : readDigits largest n cs = .ok m) :
    (∀ c ∈ cs, isDigit c = true) ∧ cs.foldl (fun n c => n * 10 + (c.toNat - 48)) n = m := by
  induction cs generalizing n with
  | nil =>
    cases h
    exact ⟨by simp, rfl⟩
  | cons c cs ih =>
    rw [readDigits, Text.Decimal.digit?] at h
    by_cases hc : isDigit c
    · simp only [if_pos hc] at h
      split at h
      · obtain ⟨hcs, hvalue⟩ := ih h
        exact ⟨List.forall_mem_cons.mpr ⟨hc, hcs⟩, hvalue⟩
      · cases h
    · simp only [if_neg hc] at h
      cases h

theorem isDigit_of_mem_digits (n : Nat) : ∀ c ∈ digits n, isDigit c = true :=
  (of_readDigits (Text.Decimal.readDigits_digits n.le_refl)).1

theorem digitsValue_digits (n : Nat) : digitsValue (digits n) = n :=
  (of_readDigits (Text.Decimal.readDigits_digits n.le_refl)).2

/-- Only the numeral of 0 starts with a zero. -/
theorem head?_digits {n : Nat} (h : 0 < n) : '0' ∉ (digits n).head? := by
  fun_induction digits n with
  | case1 n hn =>
    have hall : ∀ n < 10, 0 < n → digitChar n ≠ '0' := by decide
    simpa using hall n hn h
  | case2 n hn ih =>
    obtain ⟨d, cs, -, he⟩ := Text.Decimal.digits_eq_cons (n / 10)
    have hfirst := ih (by omega)
    rw [he] at hfirst ⊢
    exact hfirst

theorem isWhole_digits (n : Nat) : isWhole (digits n) = true := by
  obtain ⟨d, cs, -, he⟩ := Text.Decimal.digits_eq_cons n
  rcases n.eq_zero_or_pos with rfl | hn
  · decide +kernel
  · have hfirst := head?_digits hn
    have hall := isDigit_of_mem_digits n
    rw [isWhole.eq_def]
    split
    · rfl
    · simp_all
    · simp_all [allDigits]

theorem toList_number (minus : Bool) (n : Nat) :
    (number minus n).toList = (if minus then ['-'] else []) ++ digits n := by
  cases minus <;> simp [number, Text.Decimal.render]

/-- A whole number is read from what is written for it. -/
theorem readNumber_number (minus : Bool) (n : Nat) : readNumber (number minus n).toList = some (.int minus n) := by
  have hall := isDigit_of_mem_digits n
  have htake : (digits n).takeWhile isDigit = digits n := List.takeWhile_eq_self_iff.mpr hall
  have hdrop : (digits n).dropWhile isDigit = [] := List.dropWhile_eq_nil_iff.mpr hall
  have hsign : ((digits n).head? == some '-') = false := by
    obtain ⟨d, cs, -, he⟩ := Text.Decimal.digits_eq_cons n
    have hd := hall (digitChar d) (he ▸ List.mem_cons_self ..)
    rw [he, List.head?_cons, beq_eq_false_iff_ne]
    rintro hminus
    rw [Option.some.inj hminus] at hd
    cases hd
  rw [toList_number]
  cases minus with
  | true => simp [readNumber, htake, hdrop, isWhole_digits, digitsValue_digits]
  | false => simp [readNumber, hsign, htake, hdrop, isWhole_digits, digitsValue_digits]

theorem isNumeric_number (minus : Bool) (n : Nat) : ∀ c ∈ (number minus n).toList, isNumeric c = true := by
  intro c hc
  rw [toList_number] at hc
  rcases List.mem_append.mp hc with hc | hc
  · cases minus with
    | false => cases hc
    | true => exact List.mem_singleton.mp hc ▸ rfl
  · rw [isNumeric, isDigit_of_mem_digits n c hc]
    rfl

/-! ## Tokens -/

def Breaks (rest : List Char) : Prop := ∀ c ∈ rest.head?, isNumeric c = false

theorem punctuation?_apart {c : Char} {t : Token} (h : punctuation? c = some t) :
    isBlank c = false ∧ isNumeric c = false := by
  have hmem : c ∈ ['[', ']', '\x7b', '\x7d', ',', ':'] := by
    by_contra hc
    simp only [List.mem_cons, List.not_mem_nil, or_false, not_or] at hc
    simp [punctuation?, hc] at h
  simp only [List.mem_cons, List.not_mem_nil, or_false] at hmem
  rcases hmem with rfl | rfl | rfl | rfl | rfl | rfl <;> exact ⟨rfl, rfl⟩

theorem isNumeric_apart {c : Char} (h : isNumeric c = true) :
    isBlank c = false ∧ punctuation? c = none ∧ c ≠ '\x22' := by
  refine ⟨?_, ?_, ?_⟩
  · rw [isBlank, Bool.or_eq_false_iff, Bool.or_eq_false_iff, Bool.or_eq_false_iff]
    simp only [beq_eq_false_iff_ne]
    refine ⟨⟨⟨?_, ?_⟩, ?_⟩, ?_⟩ <;> (rintro rfl; cases h)
  · cases hp : punctuation? c with
    | none => rfl
    | some t =>
      rw [(punctuation?_apart hp).2] at h
      cases h
  · rintro rfl
    cases h

/-- Punctuation is a token, whatever follows. -/
theorem tokens_punctuation {c : Char} {t : Token} (h : punctuation? c = some t) (rest : List Char) :
    tokens (c :: rest) = (tokens rest).map (t :: ·) := by
  rw [tokens, (punctuation?_apart h).1, h]
  rfl

/-- So is what is written for a string. -/
theorem tokens_quoted (h : Joined ps) (rest : List Char) :
    tokens ((quoted ps).toList ++ rest) = (tokens rest).map (.string ps :: ·) := by
  have hread := readString_string h.lt rest
  have htext : (quoted ps).toList ++ rest = '\x22' :: (ps.flatMap escape ++ '\x22' :: rest) := by
    simp [quoted]
  have hblank : isBlank '\x22' = false := by decide
  have hpunct : punctuation? '\x22' = none := by decide
  rw [htext, tokens, hblank, hpunct]
  simp only [Bool.false_eq_true, if_false, if_true]
  split
  · rename_i hnone
    rw [hread] at hnone
    cases hnone
  · rename_i qs after hsome
    rw [hread] at hsome
    cases hsome
    rw [h.pairSurrogates_eq]

/-- A number is a token if what follows is no part of it. -/
theorem tokens_numeric {d : Datum} (hcs : ∀ c ∈ cs, isNumeric c = true) (hread : readNumber cs = some d)
    (hrest : Breaks rest) : tokens (cs ++ rest) = (tokens rest).map (.scalar d :: ·) := by
  have hne : cs ≠ [] := by
    rintro rfl
    cases hread
  obtain ⟨c, cs, rfl⟩ := List.exists_cons_of_ne_nil hne
  obtain ⟨hc, hcs⟩ := List.forall_mem_cons.mp hcs
  obtain ⟨hblank, hpunct, hquote⟩ := isNumeric_apart hc
  have htake : rest.takeWhile isNumeric = [] := by
    cases rest with
    | nil => rfl
    | cons e rest => rw [List.takeWhile_cons_of_neg (by simp [hrest e rfl])]
  have hdrop : rest.dropWhile isNumeric = rest := by
    cases rest with
    | nil => rfl
    | cons e rest => rw [List.dropWhile_cons_of_neg (by simp [hrest e rfl])]
  rw [List.cons_append, tokens, hblank, hpunct]
  simp only [Bool.false_eq_true, if_false, if_neg hquote, if_pos hc, List.takeWhile_append_of_pos hcs, htake,
    List.dropWhile_append_of_pos hcs, hdrop, List.append_nil, hread]

/-- So is a word. -/
theorem tokens_word {c : Char} {d : Datum}
    (hc : isBlank c = false ∧ punctuation? c = none ∧ c ≠ '\x22' ∧ isNumeric c = false)
    (hread : readWord (c :: cs) = some (d, rest)) : tokens (c :: cs) = (tokens rest).map (.scalar d :: ·) := by
  obtain ⟨hblank, hpunct, hquote, hnumeric⟩ := hc
  rw [tokens, hblank, hpunct]
  simp only [Bool.false_eq_true, if_false, if_neg hquote, hnumeric]
  split
  · rename_i hnone
    rw [hread] at hnone
    cases hnone
  · rename_i e after hsome
    rw [hread] at hsome
    cases hsome
    rfl

end Json

end QueryNet
