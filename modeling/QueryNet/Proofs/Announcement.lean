/-
  QueryNet.Proofs.Announcement — announcements are read as they were made.

  A metric travels as a numeral. Reading a numeral takes its digits from the left, and
  writing it puts the last one behind the others, so the proof goes along the digits
  (`readDigits_digits`).

  Proved: an announcement whose metric is not past the largest one carries it
  (`announcement_announce`).
-/

import QueryNet.Packet

namespace QueryNet

namespace Text.Decimal

theorem digit?_digitChar {d : Nat} (h : d < 10) : digit? (digitChar d) = some d := by
  have hall : ∀ d < 10, digit? (digitChar d) = some d := by decide
  exact hall d h

theorem digitChar_ne_plus {d : Nat} (h : d < 10) : digitChar d ≠ '+' := by
  have hall : ∀ d < 10, digitChar d ≠ '+' := by decide
  exact hall d h

theorem readDigits_append (largest n : Nat) (cs ds : List Char) :
    readDigits largest n (cs ++ ds) = (readDigits largest n cs).bind (readDigits largest · ds) := by
  induction cs generalizing n with
  | nil => rfl
  | cons c cs ih =>
    simp only [List.cons_append, readDigits]
    split
    · rfl
    · split
      · exact ih _
      · rfl

theorem readDigits_single {largest n d : Nat} (hd : d < 10) (h : n * 10 + d ≤ largest) :
    readDigits largest n [digitChar d] = .ok (n * 10 + d) := by
  simp only [readDigits, digit?_digitChar hd, if_pos h]

theorem readDigits_digits {largest n : Nat} (h : n ≤ largest) : readDigits largest 0 (digits n) = .ok n := by
  induction n using digits.induct with
  | case1 n hn =>
    rw [digits, if_pos hn, readDigits_single hn (by omega)]
    simp
  | case2 n hn ih =>
    have hdiv : n / 10 ≤ largest := by omega
    have hsum : n / 10 * 10 + n % 10 = n := by omega
    rw [digits, if_neg hn, readDigits_append, ih hdiv]
    show readDigits largest (n / 10) [digitChar (n % 10)] = .ok n
    rw [readDigits_single (by omega) (by omega), hsum]

/-- A numeral starts with a digit. -/
theorem digits_eq_cons (n : Nat) : ∃ d cs, d < 10 ∧ digits n = digitChar d :: cs := by
  induction n using digits.induct with
  | case1 n hn => exact ⟨n, [], hn, by rw [digits, if_pos hn]⟩
  | case2 n hn ih =>
    obtain ⟨d, cs, hd, he⟩ := ih
    refine ⟨d, cs ++ [digitChar (n % 10)], hd, ?_⟩
    rw [digits, if_neg hn, he, List.cons_append]

theorem read_render {largest n : Nat} (h : n ≤ largest) : read largest (render n) = .ok n := by
  obtain ⟨d, cs, hd, he⟩ := digits_eq_cons n
  have hplus := digitChar_ne_plus hd
  have hread := readDigits_digits h
  rw [read, render, String.toList_ofList, he]
  rw [he] at hread
  unfold readChars
  split
  · rename_i hnil; cases hnil
  · rename_i hone; exact absurd (List.cons.inj hone).1 hplus
  · rename_i hcons; exact absurd (List.cons.inj hcons).1 hplus
  · exact hread

end Text.Decimal

/-- Only packets of their kind can be read as announcements. -/
theorem Packet.kind_of_announcement {p : Packet} {a : Announcement} (h : p.announcement = .ok a) :
    p.kind = .routeAnnounce := by
  unfold announcement at h
  split at h
  · cases h
  · rename_i hkind
    exact Decidable.not_not.mp hkind

theorem Packet.announcement_announce {metric : Nat} (h : metric ≤ maxMetric) (key : String) (id : NodeId) :
    (announce key id metric).announcement = .ok ⟨key, id, metric⟩ := by
  simp only [announcement, announce, Text.Decimal.read_render h, ne_eq, not_true_eq_false, if_false]

end QueryNet
