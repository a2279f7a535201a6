/-
  QueryNet.Proofs.Table — how the operations on tables combine.

  Tables with the same view are equal, so an insertion is undone by taking its key
  out again (`erase_insert`), insertions under different keys commute (`insert_comm`),
  and so the entries of a list with distinct keys may be inserted in any order
  (`insertAll_perm`). The last entry of some kind has the greatest key
  (`find?_reverse_eq_some_iff`). The last value that a list has for a key is the one
  that is found (`get?_insertAll`), and one table's bindings over another's hide the
  other's (`get?_merge`). Distinct keys of a table are no more than its size
  (`length_le_size`).
-/

import Mathlib.Data.List.Perm.Subperm
import QueryNet.Table

namespace QueryNet.Table

variable {κ ν : Type} [Ord κ] [Std.TransOrd κ] [Std.LawfulEqOrd κ] [DecidableEq κ]

/-! ## Two operations -/

theorem get?_insert_self (t : Table κ ν) (k : κ) (v : ν) : (t.insert k v).get? k = some v := by simp

@[simp] theorem insert_insert (t : Table κ ν) (k : κ) (v w : ν) : (t.insert k v).insert k w = t.insert k w := by
  refine ext fun q => ?_
  by_cases h : q = k <;> simp [h]

theorem insert_comm (t : Table κ ν) {k l : κ} (h : k ≠ l) (v w : ν) :
    (t.insert k v).insert l w = (t.insert l w).insert k v := by
  refine ext fun q => ?_
  by_cases hk : q = k
  · simp [hk, h]
  · simp [hk]

/-- An entry that was not there before leaves no trace. -/
theorem erase_insert {t : Table κ ν} {k : κ} (h : t.get? k = none) (v : ν) : (t.insert k v).erase k = t := by
  refine ext fun q => ?_
  by_cases hq : q = k
  · simp [hq, h]
  · simp [hq]

/-! ## The last entry -/

omit [Std.TransOrd κ] [Std.LawfulEqOrd κ] [DecidableEq κ] in
/-- The keys before an entry are smaller, those behind it greater. -/
theorem compare_of_entries {t : Table κ ν} {e : κ × ν} {l m : List (κ × ν)} (h : t.entries = l ++ e :: m) :
    (∀ x ∈ l, compare x.1 e.1 = .lt) ∧ ∀ x ∈ m, compare e.1 x.1 = .lt := by
  obtain ⟨-, hm, hl⟩ := List.pairwise_append.mp (h ▸ t.sorted)
  exact ⟨fun x hx => hl x hx e (List.mem_cons_self ..), (List.pairwise_cons.mp hm).1⟩

omit [DecidableEq κ] in
/-- Of the entries with some property, the last one is the one with the greatest key. -/
theorem find?_reverse_eq_some_iff {t : Table κ ν} {p : κ × ν → Bool} {e : κ × ν} :
    t.entries.reverse.find? p = some e ↔ e ∈ t.entries ∧ p e ∧ ∀ x ∈ t.entries, p x → compare x.1 e.1 ≠ .gt := by
  constructor
  · intro h
    obtain ⟨he, m, l, hsplit, hm⟩ := List.find?_eq_some_iff_append.mp h
    have hentries : t.entries = l.reverse ++ e :: m.reverse := by
      rw [← List.reverse_reverse t.entries, hsplit]
      simp
    refine ⟨List.mem_reverse.mp (List.mem_of_find?_eq_some h), he, fun x hx hp => ?_⟩
    rcases List.mem_append.mp (hentries ▸ hx) with hbefore | hfrom
    · simp [(compare_of_entries hentries).1 x hbefore]
    · rcases List.mem_cons.mp hfrom with rfl | hafter
      · simp
      · have hnot := hm x (List.mem_reverse.mp hafter)
        simp [hp] at hnot
  · rintro ⟨hmem, he, hgreatest⟩
    obtain ⟨l, m, hentries⟩ := List.append_of_mem hmem
    refine List.find?_eq_some_iff_append.mpr ⟨he, m.reverse, l.reverse, by simp [hentries], fun x hx => ?_⟩
    have hx := List.mem_reverse.mp hx
    have hin : x ∈ t.entries := hentries ▸ List.mem_append_right _ (List.mem_cons_of_mem _ hx)
    have hgt := Std.OrientedCmp.gt_iff_lt.mpr ((compare_of_entries hentries).2 x hx)
    simpa using fun hp => hgreatest x hin hp hgt

/-- A key's value is also found from behind. -/
theorem find?_reverse_entries (t : Table κ ν) (q : κ) : (t.entries.reverse.find? (·.1 = q)).map (·.2) = t.get? q := by
  refine Option.ext fun v => ?_
  rw [Option.map_eq_some_iff, ← mem_entries_iff]
  simp only [find?_reverse_eq_some_iff, decide_eq_true_eq]
  constructor
  · rintro ⟨⟨k, w⟩, ⟨hmem, rfl, -⟩, rfl⟩
    exact hmem
  · intro hmem
    refine ⟨(q, v), ⟨hmem, rfl, fun x _ hx => ?_⟩, rfl⟩
    simp [hx]

/-! ## Many insertions -/

omit [DecidableEq κ] in
@[simp] theorem insertAll_nil (t : Table κ ν) : t.insertAll [] = t := rfl

omit [DecidableEq κ] in
@[simp] theorem insertAll_cons (t : Table κ ν) (e : κ × ν) (l : List (κ × ν)) :
    t.insertAll (e :: l) = (t.insert e.1 e.2).insertAll l := rfl

omit [DecidableEq κ] in
theorem insertAll_append (t : Table κ ν) (l m : List (κ × ν)) :
    t.insertAll (l ++ m) = (t.insertAll l).insertAll m := List.foldl_append ..

theorem get?_insertAll_of_notMem {t : Table κ ν} {l : List (κ × ν)} {q : κ} (h : q ∉ l.map (·.1)) :
    (t.insertAll l).get? q = t.get? q := by
  induction l generalizing t with
  | nil => rfl
  | cons e l ih =>
    simp only [List.map_cons, List.mem_cons, not_or] at h
    rw [insertAll_cons, ih h.2, get?_insert, if_neg h.1]

theorem insertAll_insert {t : Table κ ν} {l : List (κ × ν)} {k : κ} (h : k ∉ l.map (·.1)) (v : ν) :
    (t.insert k v).insertAll l = (t.insertAll l).insert k v := by
  induction l generalizing t with
  | nil => rfl
  | cons e l ih =>
    simp only [List.map_cons, List.mem_cons, not_or] at h
    rw [insertAll_cons, insertAll_cons, insert_comm _ h.1, ih h.2]

/-- Entries with distinct keys may be inserted in any order. -/
theorem insertAll_perm {l m : List (κ × ν)} (hp : l.Perm m) (hd : (l.map (·.1)).Nodup) (t : Table κ ν) :
    t.insertAll l = t.insertAll m := by
  induction hp generalizing t with
  | nil => rfl
  | cons e _ ih => exact ih (List.nodup_cons.mp hd).2 _
  | swap a b l =>
    have hab : b.1 ≠ a.1 := fun h => (List.nodup_cons.mp hd).1 (by simp [h])
    simp only [insertAll_cons, insert_comm t hab]
  | trans h₁ _ ih₁ ih₂ => rw [ih₁ hd, ih₂ ((h₁.map _).nodup_iff.mp hd)]

theorem get?_insertAll (t : Table κ ν) (l : List (κ × ν)) (q : κ) :
    (t.insertAll l).get? q = ((l.reverse.find? (·.1 = q)).map (·.2)).or (t.get? q) := by
  induction l generalizing t with
  | nil => rfl
  | cons e l ih =>
    rw [insertAll_cons, ih, get?_insert, List.reverse_cons, List.find?_append, Option.map_or, Option.or_assoc]
    by_cases h : q = e.1
    · simp [h]
    · simp [h, Ne.symm h]

/-- Inserted once more, entries change nothing. -/
theorem insertAll_insertAll (t : Table κ ν) (l : List (κ × ν)) : (t.insertAll l).insertAll l = t.insertAll l := by
  refine ext fun q => ?_
  rw [get?_insertAll, get?_insertAll, ← Option.or_assoc, Option.or_self]

theorem mem_or_of_get?_insertAll {t : Table κ ν} {l : List (κ × ν)} {q : κ} {v : ν}
    (h : (t.insertAll l).get? q = some v) : (q, v) ∈ l ∨ t.get? q = some v := by
  rw [get?_insertAll] at h
  rcases Option.or_eq_some_iff.mp h with h | ⟨-, h⟩
  · obtain ⟨e, he, rfl⟩ := Option.map_eq_some_iff.mp h
    obtain rfl : e.1 = q := by simpa using List.find?_some he
    exact .inl (List.mem_reverse.mp (List.mem_of_find?_eq_some he))
  · exact .inr h

theorem get?_insertAll_ne_none {l : List (κ × ν)} {q : κ} (h : q ∈ l.map (·.1)) (t : Table κ ν) :
    (t.insertAll l).get? q ≠ none := by
  obtain ⟨e, he, rfl⟩ := List.mem_map.mp h
  rw [get?_insertAll, ne_eq, Option.or_eq_none_iff, Option.map_eq_none_iff, List.find?_eq_none]
  exact fun hnone => hnone.1 e (List.mem_reverse.mpr he) (decide_eq_true rfl)

/-- Bindings over others hide them. -/
@[simp] theorem get?_merge (t u : Table κ ν) (q : κ) : (t.merge u).get? q = (u.get? q).or (t.get? q) := by
  rw [merge, get?_insertAll, find?_reverse_entries]

theorem empty_merge (u : Table κ ν) : merge ∅ u = u :=
  ext fun q => by rw [get?_merge, get?_empty, Option.or_none]

/-! ## Many erasures -/

omit [Std.TransOrd κ] in
theorem get?_foldl_erase (l : List κ) (t : Table κ ν) (q : κ) :
    (l.foldl erase t).get? q = if q ∈ l then none else t.get? q := by
  induction l generalizing t with
  | nil => simp
  | cons k l ih =>
    rw [List.foldl_cons, ih, get?_erase]
    by_cases hl : q ∈ l <;> by_cases hk : q = k <;> simp [hl, hk]

/-- Keys that are inserted afterwards need not be erased. -/
theorem insertAll_foldl_erase {ks : List κ} {l : List (κ × ν)} (h : ks ⊆ l.map (·.1)) (t : Table κ ν) :
    (ks.foldl erase t).insertAll l = t.insertAll l := by
  refine ext fun q => ?_
  by_cases hq : q ∈ l.map (·.1)
  · obtain ⟨v, hv⟩ := Option.ne_none_iff_exists'.mp (get?_insertAll_ne_none hq ∅)
    rw [get?_insertAll, get?_empty, Option.or_none] at hv
    rw [get?_insertAll, get?_insertAll, hv, Option.some_or, Option.some_or]
  · rw [get?_insertAll_of_notMem hq, get?_insertAll_of_notMem hq, get?_foldl_erase, if_neg fun hk => hq (h hk)]

/-! ## Keys -/

omit [Std.TransOrd κ] [DecidableEq κ] in
theorem mem_keys {t : Table κ ν} {k : κ} : k ∈ t.keys ↔ ∃ v, t.get? k = some v := by
  simp [keys, mem_entries_iff]

omit [Std.TransOrd κ] [DecidableEq κ] in
/-- Each key is met once. -/
theorem nodup_keys (t : Table κ ν) : t.keys.Nodup := by
  refine List.pairwise_map.mpr (t.sorted.imp fun {a b} hlt he => ?_)
  simp [he] at hlt

/-! ## Size -/

omit [Std.TransOrd κ] [DecidableEq κ] in
/-- Distinct keys of a table are no more than its size. -/
theorem length_le_size {t : Table κ ν} {l : List κ} (hd : l.Nodup) (h : ∀ k ∈ l, t.get? k ≠ none) :
    l.length ≤ t.size := by
  have hsub : l ⊆ t.keys := fun k hk => by
    obtain ⟨v, hv⟩ := Option.ne_none_iff_exists'.mp (h k hk)
    exact List.mem_map.mpr ⟨(k, v), mem_entries_iff.mpr hv, rfl⟩
  have := (List.subperm_of_subset hd hsub).length_le
  simpa [keys, size] using this

omit [Std.TransOrd κ] [Std.LawfulEqOrd κ] [DecidableEq κ] in
theorem length_flatMap_place_le {α : Type} (f : κ × ν → List α) (k : κ) (v : ν) (l : List (κ × ν)) :
    ((place k v l).flatMap f).length ≤ (f (k, v)).length + (l.flatMap f).length := by
  induction l with
  | nil => simp [place]
  | cons e l ih =>
    rw [place]
    split
    · simp only [List.flatMap_cons, List.length_append]
      omega
    · simp only [List.flatMap_cons, List.length_append]
      omega
    · simp only [List.flatMap_cons, List.length_append]
      omega

omit [DecidableEq κ] in
/-- What is written out for a table made of pairs is no longer than for the pairs themselves. -/
theorem length_flatMap_insertAll_le {α : Type} (f : κ × ν → List α) (t : Table κ ν) (l : List (κ × ν)) :
    ((t.insertAll l).entries.flatMap f).length ≤ (t.entries.flatMap f).length + (l.flatMap f).length := by
  induction l generalizing t with
  | nil => exact Nat.le_refl _
  | cons e l ih =>
    obtain ⟨k, v⟩ := e
    have hone := length_flatMap_place_le f k v t.entries
    have hrest := ih (t.insert k v)
    simp only [insert, insertAll_cons, List.flatMap_cons, List.length_append] at hrest ⊢
    omega

end QueryNet.Table
