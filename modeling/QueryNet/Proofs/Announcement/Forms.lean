/-
  QueryNet.Proofs.Announcement.Forms — which packets announce a route.

  A numeral is one decimal digit or more, perhaps after a plus sign, and zeros may lead
  it; its value is that of its digits, the last of which counts ones (`Spells`). Reading
  gives up as soon as the value of the digits so far is too large. Digits that follow
  never make it smaller, so this is no other condition than that the whole value is not
  too large (`readDigits_eq_ok_iff`).

  Proved: an announcement is read exactly from the packets of its kind with three
  arguments of which the last spells its metric, and written as bytes it comes through
  as it was made (`announced_exactly`).
-/

import Mathlib.Data.Nat.Digits.Defs
import QueryNet.Proofs.Announcement
import QueryNet.Proofs.Wire

namespace QueryNet

namespace Text.Decimal

/-! ## Reading numerals -/

def value (ds : List Char) : Nat := Nat.ofDigits 10 (ds.reverse.map fun c => c.toNat - '0'.toNat)

/-- Decimal digits, at least one, and before them at most one plus sign. -/
def Spells (s : String) (n : Nat) : Prop :=
  ∃ ds, ds ≠ [] ∧ (∀ c ∈ ds, '0' ≤ c ∧ c ≤ '9') ∧ (s.toList = ds ∨ s.toList = '+' :: ds) ∧ value ds = n

theorem value_cons (c : Char) (ds : List Char) :
    value (c :: ds) = (c.toNat - '0'.toNat) * 10 ^ ds.length + value ds := by
  rw [value, List.reverse_cons, List.map_append, Nat.ofDigits_append, ← value]
  simp only [List.map_cons, List.map_nil, Nat.ofDigits_singleton, List.length_map, List.length_reverse]
  rw [Nat.mul_comm, Nat.add_comm]

theorem isDigit_iff {c : Char} : isDigit c = true ↔ '0' ≤ c ∧ c ≤ '9' := by simp [isDigit]

/-- Digits are read as what they add to those before them. -/
theorem readDigits_eq_ok_iff {largest n m : Nat} {ds : List Char} (h : n ≤ largest) :
    readDigits largest n ds = .ok m ↔
      (∀ c ∈ ds, '0' ≤ c ∧ c ≤ '9') ∧ n * 10 ^ ds.length + value ds = m ∧ m ≤ largest := by
  induction ds generalizing n with
  | nil =>
    simp only [readDigits, Except.ok.injEq, List.length_nil, pow_zero, mul_one]
    constructor
    · rintro rfl
      exact ⟨fun c hc => absurd hc List.not_mem_nil, rfl, h⟩
    · rintro ⟨-, rfl, -⟩
      rfl
  | cons c ds ih =>
    rw [List.forall_mem_cons, List.length_cons, value_cons]
    by_cases hc : isDigit c
    · have hsum : n * 10 ^ (ds.length + 1) + ((c.toNat - '0'.toNat) * 10 ^ ds.length + value ds) =
          (n * 10 + (c.toNat - 48)) * 10 ^ ds.length + value ds := by
        show n * 10 ^ (ds.length + 1) + ((c.toNat - 48) * 10 ^ ds.length + value ds) = _
        ring
      rw [hsum]
      simp only [readDigits, digit?, if_pos hc, isDigit_iff.mp hc, true_and]
      split
      · rename_i hle
        exact ih hle
      · rename_i hlarge
        -- what follows does not make the value any smaller
        have hgrow : n * 10 + (c.toNat - 48) ≤ (n * 10 + (c.toNat - 48)) * 10 ^ ds.length + value ds :=
          Nat.le_add_right_of_le (Nat.le_mul_of_pos_right _ (Nat.pow_pos (by decide)))
        constructor
        · intro herr
          cases herr
        · rintro ⟨-, rfl, hm⟩
          exact absurd (Nat.le_trans hgrow hm) hlarge
    · simp only [readDigits, digit?, if_neg hc]
      constructor
      · intro herr
        cases herr
      · rintro ⟨⟨hdigit, -⟩, -⟩
        exact absurd (isDigit_iff.mpr hdigit) hc

theorem not_digit_plus : ¬ ('0' ≤ '+' ∧ '+' ≤ '9') := by decide

/-- Only numerals are read, each as the number that it spells, if that is not too large. -/
theorem read_eq_ok_iff {largest n : Nat} {s : String} : read largest s = .ok n ↔ Spells s n ∧ n ≤ largest := by
  have hread : ∀ {ds : List Char}, readDigits largest 0 ds = .ok n ↔
      (∀ c ∈ ds, '0' ≤ c ∧ c ≤ '9') ∧ value ds = n ∧ n ≤ largest := by
    intro ds
    rw [readDigits_eq_ok_iff (Nat.zero_le _), Nat.zero_mul, Nat.zero_add]
  have hplus : ∀ {cs : List Char}, ¬ ∀ c ∈ '+' :: cs, '0' ≤ c ∧ c ≤ '9' :=
    fun h => not_digit_plus (h _ (List.mem_cons_self ..))
  unfold read readChars Spells
  split
  · rename_i hnil
    rw [hnil]
    simp
  · rename_i hlone
    rw [hlone]
    constructor
    · intro herr
      cases herr
    · rintro ⟨⟨ds, hne, hdigits, hds | hds, -⟩, -⟩
      · exact absurd (hds ▸ hdigits) hplus
      · exact absurd (List.cons.inj hds).2.symm hne
  · rename_i cs hcs hsign
    rw [hsign, hread]
    constructor
    · rintro ⟨hdigits, hvalue, hle⟩
      exact ⟨⟨cs, hcs, hdigits, .inr rfl, hvalue⟩, hle⟩
    · rintro ⟨⟨ds, -, hdigits, hds | hds, hvalue⟩, hle⟩
      · exact absurd (hds ▸ hdigits) hplus
      · obtain rfl := (List.cons.inj hds).2
        exact ⟨hdigits, hvalue, hle⟩
  · rename_i hnil _ hsign
    rw [hread]
    constructor
    · rintro ⟨hdigits, hvalue, hle⟩
      exact ⟨⟨_, hnil, hdigits, .inl rfl, hvalue⟩, hle⟩
    · rintro ⟨⟨ds, -, hdigits, hds | hds, hvalue⟩, hle⟩
      · obtain rfl := hds
        exact ⟨hdigits, hvalue, hle⟩
      · exact absurd hds (hsign ds)

/-! ## The size of numerals -/

theorem length_digits_le {n k : Nat} (hk : 0 < k) (h : n < 10 ^ k) : (digits n).length ≤ k := by
  induction k generalizing n with
  | zero => exact absurd hk (Nat.lt_irrefl 0)
  | succ k ih =>
    rw [digits]
    split
    · exact Nat.succ_le_succ (Nat.zero_le k)
    · rename_i hn
      have hdiv : n / 10 < 10 ^ k := Nat.div_lt_of_lt_mul (by rwa [← Nat.pow_succ'])
      have hpos : 0 < k := by
        rcases Nat.eq_zero_or_pos k with rfl | hpos
        · exact absurd h hn
        · exact hpos
      rw [List.length_append, List.length_singleton]
      exact Nat.succ_le_succ (ih hpos hdiv)

end Text.Decimal

/-- A text has at most four bytes for each character. -/
theorem Text.Utf8.length_encode_ofList_le (cs : List Char) : (encode (String.ofList cs)).length ≤ 4 * cs.length := by
  rw [encode_eq, String.toByteArray_ofList, List.utf8Encode, List.data_toByteArray]
  induction cs with
  | nil => exact Nat.le_refl 0
  | cons c cs ih =>
    have hc := c.utf8Size_le_four
    simp only [List.flatMap_cons, List.length_append, String.length_utf8EncodeChar, List.length_cons] at ih ⊢
    omega

namespace Packet

/-! ## Announcements -/

/-- The metric of an announcement is what the last of its three arguments spells. -/
theorem announcement_eq_ok_iff {p : Packet} {a : Announcement} :
    p.announcement = .ok a ↔ p.kind = .routeAnnounce ∧
      ∃ metric, p.query.args = [a.dest, a.advertiser, metric] ∧ Text.Decimal.Spells metric a.metric ∧
        a.metric ≤ maxMetric := by
  simp only [← Text.Decimal.read_eq_ok_iff]
  unfold announcement
  by_cases hkind : p.kind = .routeAnnounce
  · rw [if_neg (not_not.mpr hkind)]
    simp only [hkind, true_and]
    split
    · rename_i dest advertiser metric hargs
      constructor
      · intro h
        split at h
        · rename_i m hm
          cases h
          exact ⟨metric, hargs, hm⟩
        · cases h
      · rintro ⟨metric', hsame, hread⟩
        obtain ⟨rfl, rfl, rfl⟩ : dest = a.dest ∧ advertiser = a.advertiser ∧ metric = metric' := by
          simpa [hargs] using hsame
        rw [hread]
    · rename_i args hargs
      constructor
      · intro h
        cases h
      · rintro ⟨metric, hsame, -⟩
        exact absurd hsame (hargs _ _ _)
  · rw [if_pos hkind]
    constructor
    · intro h
      cases h
    · rintro ⟨hk, -⟩
      exact absurd hk hkind

/-- The texts of an announcement can be counted if those that are given can. -/
theorem countable_announce {key : String} {advertiser : NodeId} {metric : Nat}
    (hkey : (Text.Utf8.encode key).length < Wire.span 8) (hid : (Text.Utf8.encode advertiser).length < Wire.span 8)
    (h : metric ≤ maxMetric) : Wire.Countable (announce key advertiser metric) where
  name := by
    show (Text.Utf8.encode (String.ofList ['f', 'i', 'b'])).length < Wire.span 8
    exact Nat.lt_of_le_of_lt (Text.Utf8.length_encode_ofList_le _) (by decide)
  arity := by
    show 3 < Wire.span 8
    decide
  arg := by
    have hdigits : (Text.Decimal.digits metric).length ≤ 10 :=
      Text.Decimal.length_digits_le (by decide) (Nat.lt_of_le_of_lt h (by decide))
    have hmetric : (Text.Utf8.encode (Text.Decimal.render metric)).length < Wire.span 8 := by
      refine Nat.lt_of_le_of_lt (Text.Utf8.length_encode_ofList_le _) ?_
      exact Nat.lt_of_le_of_lt (Nat.mul_le_mul_left 4 hdigits) (by decide)
    intro a ha
    simp only [announce, List.mem_cons, List.not_mem_nil, or_false] at ha
    rcases ha with rfl | rfl | rfl
    · exact hkey
    · exact hid
    · exact hmetric
  size := fun b hb => by cases hb
  pair := fun b hb => by cases hb

/-- An announcement survives its numeral and the wire; and a packet is read as one exactly if it is of that kind and
    has three arguments of which the last is a numeral of at most the largest metric, whatever else it holds. -/
theorem announced_exactly :
    (∀ key advertiser metric, (Text.Utf8.encode key).length < Wire.span 8 →
      (Text.Utf8.encode advertiser).length < Wire.span 8 → metric < 0x100000000 →
        ∃ p, Wire.decode (Wire.encode (announce key advertiser metric)) = .ok p ∧
          p.announcement = .ok ⟨key, advertiser, metric⟩) ∧
      ∀ (p : Packet) (a : Announcement), p.announcement = .ok a ↔ p.kind = .routeAnnounce ∧
        ∃ text, p.query.args = [a.dest, a.advertiser, text] ∧ Text.Decimal.Spells text a.metric ∧
          a.metric < 0x100000000 := by
  constructor
  · intro key advertiser metric hkey hid hmetric
    have hlayout := Wire.layout_encode (countable_announce hkey hid (Nat.le_of_lt_succ hmetric))
    refine ⟨_, Wire.decode_eq_ok_iff.mpr ⟨_, [], hlayout, (List.append_nil _).symm⟩, ?_⟩
    exact announcement_announce (Nat.le_of_lt_succ hmetric) key advertiser
  · intro p a
    rw [announcement_eq_ok_iff, maxMetric, Nat.lt_succ_iff]

/-- A key of more bytes than characters comes through with the largest metric. A sign and zeros may stand before a
    metric, whatever the atom is called and whatever the result; one that is larger is refused. -/
theorem tavern_announced :
    (Text.Utf8.encode "café/1").length < Wire.span 8 ∧ (Text.Utf8.encode "s1").length < Wire.span 8 ∧
      (∃ p, Wire.decode (Wire.encode (announce "café/1" "s1" 0xFFFFFFFF)) = .ok p ∧
        p.announcement = .ok ⟨"café/1", "s1", 0xFFFFFFFF⟩) ∧
      announcement ⟨.routeAnnounce, ⟨"any", ["café/1", "s1", "+0042"]⟩, some ∅⟩ = .ok ⟨"café/1", "s1", 42⟩ ∧
      ∀ a, announcement ⟨.routeAnnounce, ⟨"fib", ["café/1", "s1", "4294967296"]⟩, none⟩ ≠ .ok a := by
  have hkey : (Text.Utf8.encode "café/1").length < Wire.span 8 := by
    rw [Text.Utf8.encode_eq]
    decide +kernel
  have hid : (Text.Utf8.encode "s1").length < Wire.span 8 := by
    rw [Text.Utf8.encode_eq]
    decide +kernel
  obtain ⟨hsurvives, hreads⟩ := announced_exactly
  refine ⟨hkey, hid, hsurvives _ _ _ hkey hid (by decide), ?_, fun a => ?_⟩
  · refine (hreads _ _).mpr ⟨rfl, "+0042", rfl, ⟨['0', '0', '4', '2'], ?_⟩, by decide⟩
    have hdigits : ['0', '0', '4', '2'].all Text.Decimal.isDigit = true := by decide
    refine ⟨by decide, fun c hc => ?_, .inr (by decide +kernel), by decide +kernel⟩
    exact Text.Decimal.isDigit_iff.mp (List.all_eq_true.mp hdigits c hc)
  · intro h
    have hlarge : announcement ⟨.routeAnnounce, ⟨"fib", ["café/1", "s1", "4294967296"]⟩, none⟩ =
        .error (.badMetric "4294967296" .tooLarge) := by rfl
    rw [hlarge] at h
    cases h

end Packet

end QueryNet
