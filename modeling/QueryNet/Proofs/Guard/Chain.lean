/-
  QueryNet.Proofs.Guard.Chain — what the walk along the links sees.

  The chain above a query goes on as long as there are links (`above`): it ends at a
  query without an entry or that nobody here needs, and where it comes to an entry once
  more it goes round for ever. A walk of some steps sees the first atoms of the chain and
  no others (`onChain_iff`).

  Proved: the guard finds exactly the atoms of the whole chain, since all of them are
  among the first, one more than the table has entries; and entries for atoms that are
  not on the chain make no difference (`isAncestor_exact`).
-/

import QueryNet.Proofs.Course

namespace QueryNet.PendingTable

variable {p : PendingTable} {query : Atom} {cursor : Option Atom}

def above (p : PendingTable) (cursor : Option Atom) : Nat → Option Atom
  | 0 => cursor
  | n + 1 => (above p cursor n).bind p.parentOf

theorem above_succ (a : Atom) (n : Nat) : p.above (some a) (n + 1) = p.above (p.parentOf a) n := by
  induction n with
  | zero => rfl
  | succ n ih => rw [above, ih, above]

theorem above_none (n : Nat) : p.above none n = none := by
  induction n with
  | zero => rfl
  | succ n ih => rw [above, ih, Option.bind_none]

/-- A walk of `n` steps sees the first `n` atoms. -/
theorem onChain_iff {n : Nat} : p.onChain query n cursor = true ↔ ∃ m < n, p.above cursor m = some query := by
  induction n generalizing cursor with
  | zero => simp [onChain]
  | succ n ih =>
    cases cursor with
    | none => simp [onChain, above_none]
    | some a =>
      rw [onChain, Bool.or_eq_true, beq_iff_eq, ih]
      constructor
      · rintro (rfl | ⟨m, hm, h⟩)
        · exact ⟨0, n.succ_pos, rfl⟩
        · exact ⟨m + 1, Nat.succ_lt_succ hm, (above_succ a m).trans h⟩
      · rintro ⟨_ | m, hm, h⟩
        · exact .inl (Option.some.inj h)
        · exact .inr ⟨m, Nat.lt_of_succ_lt_succ hm, (above_succ a m).symm.trans h⟩

/-- The whole chain is seen. -/
theorem isAncestor_iff_above : p.isAncestor query cursor = true ↔ ∃ n, p.above cursor n = some query := by
  rw [isAncestor_iff]
  constructor
  · rintro ⟨n, h⟩
    obtain ⟨m, -, hm⟩ := onChain_iff.mp h
    exact ⟨m, hm⟩
  · rintro ⟨n, h⟩
    exact ⟨n + 1, onChain_iff.mpr ⟨n, n.lt_succ_self, h⟩⟩

/-- Entries for other atoms leave a chain as it is. -/
theorem above_insertAll {l : List (Atom × PendingRequest)} (h : ∀ e ∈ l, ∀ n, p.above cursor n ≠ some e.1) (n : Nat) :
    above (p.insertAll l) cursor n = p.above cursor n := by
  induction n with
  | zero => rfl
  | succ n ih =>
    rw [above, ih, above]
    refine Option.bind_congr fun a ha => ?_
    have hother : a ∉ l.map (·.1) := by
      intro hmem
      obtain ⟨e, he, rfl⟩ := List.mem_map.mp hmem
      exact h e he n ha
    rw [parentOf, Table.get?_insertAll_of_notMem hother, parentOf]

/-- The guard finds exactly the atoms of the chain. Each of them is already among the first, one more than there are
    entries, and entries for atoms off the chain change nothing. -/
theorem isAncestor_exact (p : PendingTable) (query : Atom) (parent : Option Atom) :
    (p.isAncestor query parent = true ↔ ∃ n, p.above parent n = some query) ∧
      (∀ n a, p.above parent n = some a → ∃ m < p.size + 1, p.above parent m = some a) ∧
      ∀ l : List (Atom × PendingRequest), (∀ e ∈ l, ∀ n, p.above parent n ≠ some e.1) →
        isAncestor (p.insertAll l) query parent = p.isAncestor query parent := by
  refine ⟨isAncestor_iff_above, fun n a h => ?_, fun l hl => ?_⟩
  · have hfound : p.isAncestor a parent = true := isAncestor_iff_above.mpr ⟨n, h⟩
    exact onChain_iff.mp hfound
  · rw [Bool.eq_iff_iff, isAncestor_iff_above, isAncestor_iff_above]
    simp only [above_insertAll hl]

/-- `a` is needed for `b`, and `b` and `c` are needed for each other; `e` is needed for an atom without an entry. -/
def eddy : PendingTable :=
  .ofList [(⟨"a", []⟩, .unmatched ⟨"a", []⟩ (some ⟨"b", []⟩) none),
    (⟨"b", []⟩, .unmatched ⟨"b", []⟩ (some ⟨"c", []⟩) none),
    (⟨"c", []⟩, .unmatched ⟨"c", []⟩ (some ⟨"b", []⟩) none), (⟨"e", []⟩, .unmatched ⟨"e", []⟩ (some ⟨"f", []⟩) none)]

def bystanders : List (Atom × PendingRequest) :=
  [(⟨"d", []⟩, .unmatched ⟨"d", []⟩ (some ⟨"a", []⟩) none), (⟨"f", []⟩, .unmatched ⟨"f", []⟩ (some ⟨"a", []⟩) none)]

/-- The chain goes round for ever and is seen in five steps; neither `d` nor `f` is on it, and their entries leave the
    guard as it was. -/
theorem eddy_exact :
    (∃ n, eddy.above (some ⟨"a", []⟩) n = some ⟨"c", []⟩) ∧
      eddy.above (some ⟨"a", []⟩) 100 = some ⟨"c", []⟩ ∧
      (∃ m < 5, eddy.above (some ⟨"a", []⟩) m = some ⟨"c", []⟩) ∧
      (∀ e ∈ bystanders, ∀ n, eddy.above (some ⟨"a", []⟩) n ≠ some e.1) ∧
      isAncestor (eddy.insertAll bystanders) ⟨"c", []⟩ (some ⟨"a", []⟩) = true := by
  obtain ⟨hfound, hseen, hbeside⟩ := isAncestor_exact eddy ⟨"c", []⟩ (some ⟨"a", []⟩)
  have hguard : eddy.isAncestor ⟨"c", []⟩ (some ⟨"a", []⟩) = true := by decide +kernel
  have hlate : eddy.above (some ⟨"a", []⟩) 100 = some ⟨"c", []⟩ := by decide +kernel
  have hoff : ∀ e ∈ bystanders, ∀ n, eddy.above (some ⟨"a", []⟩) n ≠ some e.1 := by
    intro e he n hn
    have hnone : ∀ e ∈ bystanders, eddy.isAncestor e.1 (some ⟨"a", []⟩) = false := by decide +kernel
    have hsome := isAncestor_iff_above.mpr ⟨n, hn⟩
    rw [hnone e he] at hsome
    cases hsome
  have hsize : eddy.size + 1 = 5 := by decide +kernel
  exact ⟨hfound.mp hguard, hlate, hsize ▸ hseen 100 _ hlate, hoff, (hbeside _ hoff).trans hguard⟩

/-- With one step fewer, the walk through all of a table would not come to the atom after it. -/
example :
    let p : PendingTable := .ofList [(⟨"a", []⟩, .unmatched ⟨"a", []⟩ (some ⟨"b", []⟩) none)]
    p.onChain ⟨"b", []⟩ p.size (some ⟨"a", []⟩) = false ∧ p.isAncestor ⟨"b", []⟩ (some ⟨"a", []⟩) = true := by
  decide +kernel

end QueryNet.PendingTable
