/-
  QueryNet.Proofs.Expansion — the tree of queries that a query is decomposed into.

  A query that no rule matches is a leaf; one that a single rule matches has the
  rule's subgoals below it (`Expands`). Answers to the leaves come in some order. A
  query is answered once all leaves below it are, so `turn` is the number of answers
  that it takes, and `value` is the answer that it then has: a leaf's own, and above
  it the subgoals' values, merged in the order in which the subgoals are answered,
  composed and translated by the rule.

  Proved: a query is answered exactly when the answers cover its leaves
  (`answered_iff`); later answers change neither its turn nor its value
  (`turn_append`, `value_append`); and what one more answer adds to the merged values
  of subgoals are the values of those that it completes (`merged_append`).
-/

import Mathlib.Data.List.Flatten
import QueryNet.Solver

namespace QueryNet

def Rule.conclude (r : Rule) (headMap b : Bindings) : Bindings :=
  match r.composition with
  | some pattern => translate headMap (compose pattern b)
  | none => translate headMap b

inductive Expansion where
  | leaf (query : Atom)
  /-- A query that a rule matches, what the head's variables stand for, and the rule's subgoals. -/
  | node (query : Atom) (rule : Rule) (headMap : Bindings) (subs : List Expansion)

namespace Expansion

abbrev Answers := List (Atom × Bindings)

def root : Expansion → Atom
  | leaf q => q
  | node q _ _ _ => q

mutual

def atoms : Expansion → List Atom
  | leaf q => [q]
  | node q _ _ subs => q :: atomsOf subs

def atomsOf : List Expansion → List Atom
  | [] => []
  | x :: xs => atoms x ++ atomsOf xs

end

mutual

def leaves : Expansion → List Atom
  | leaf q => [q]
  | node _ _ _ subs => leavesOf subs

def leavesOf : List Expansion → List Atom
  | [] => []
  | x :: xs => leaves x ++ leavesOf xs

end

mutual

def height : Expansion → Nat
  | leaf _ => 1
  | node _ _ _ subs => heightOf subs + 1

def heightOf : List Expansion → Nat
  | [] => 0
  | x :: xs => max (height x) (heightOf xs)

end

mutual

/-- How many of the answers it takes to answer the query; more than there are if they do not suffice. -/
def turn (as : Answers) : Expansion → Nat
  | leaf q => as.findIdx (·.1 = q) + 1
  | node _ _ _ subs => turnOf as subs

def turnOf (as : Answers) : List Expansion → Nat
  | [] => 0
  | x :: xs => max (turn as x) (turnOf as xs)

end

def Answered (as : Answers) (x : Expansion) : Prop := x.turn as ≤ as.length

instance (as : Answers) (x : Expansion) : Decidable (x.Answered as) := inferInstanceAs (Decidable (_ ≤ _))

/-- Merges values in the order of their turns, up to the `n`-th, the later over the earlier. -/
def merged (n : Nat) (values : List (Nat × Bindings)) : Bindings :=
  ((List.range (n + 1)).flatMap fun i => values.filter (·.1 = i)).foldl (fun b v => b.merge v.2) ∅

mutual

def value (as : Answers) : Expansion → Bindings
  | leaf q => (as.lookup q).getD ∅
  | node _ r m subs => r.conclude m (merged as.length (valuesOf as subs))

def valuesOf (as : Answers) : List Expansion → List (Nat × Bindings)
  | [] => []
  | x :: xs => (turn as x, value as x) :: valuesOf as xs

end

/-- The tree is how a solver's rules decompose its queries, no two rules matching the same. -/
inductive Expands (s : Solver) : Expansion → Prop
  | leaf {q : Atom} : s.matching q = [] → Expands s (leaf q)
  | node {q : Atom} {r : Rule} {m : Bindings} {subs : List Expansion} : s.matching q = [(r, m)] →
      subs.map root = r.subgoals → (∀ x ∈ subs, Expands s x) → Expands s (node q r m subs)

/-! ## Lists of subgoals -/

@[elab_as_elim, induction_eliminator]
theorem induct {P : Expansion → Prop} (leaf : ∀ q, P (leaf q))
    (node : ∀ q r m subs, (∀ x ∈ subs, P x) → P (node q r m subs)) (x : Expansion) : P x :=
  Expansion.rec (motive_1 := P) (motive_2 := fun xs => ∀ x ∈ xs, P x) leaf node
    (fun _ h => absurd h List.not_mem_nil)
    (fun _ _ hx hxs _ h => (List.mem_cons.mp h).elim (fun e => e ▸ hx) (hxs _)) x

theorem atomsOf_eq (xs : List Expansion) : atomsOf xs = xs.flatMap atoms := by
  induction xs with
  | nil => rfl
  | cons x xs ih => rw [atomsOf, ih, List.flatMap_cons]

theorem leavesOf_eq (xs : List Expansion) : leavesOf xs = xs.flatMap leaves := by
  induction xs with
  | nil => rfl
  | cons x xs ih => rw [leavesOf, ih, List.flatMap_cons]

theorem valuesOf_eq (as : Answers) (xs : List Expansion) :
    valuesOf as xs = xs.map fun x => (x.turn as, x.value as) := by
  induction xs with
  | nil => rfl
  | cons x xs ih => rw [valuesOf, ih, List.map_cons]

theorem heightOf_le {xs : List Expansion} {n : Nat} : heightOf xs ≤ n ↔ ∀ x ∈ xs, x.height ≤ n := by
  induction xs with
  | nil => simp [heightOf]
  | cons x xs ih => simp only [heightOf, Nat.max_le, ih, List.forall_mem_cons]

theorem turnOf_le {as : Answers} {xs : List Expansion} {n : Nat} : turnOf as xs ≤ n ↔ ∀ x ∈ xs, x.turn as ≤ n := by
  induction xs with
  | nil => simp [turnOf]
  | cons x xs ih => simp only [turnOf, Nat.max_le, ih, List.forall_mem_cons]

@[simp] theorem atoms_leaf (q : Atom) : (leaf q).atoms = [q] := rfl
@[simp] theorem atoms_node (q : Atom) (r : Rule) (m : Bindings) (subs : List Expansion) :
    (node q r m subs).atoms = q :: subs.flatMap atoms := by rw [atoms, atomsOf_eq]

@[simp] theorem leaves_leaf (q : Atom) : (leaf q).leaves = [q] := rfl
@[simp] theorem leaves_node (q : Atom) (r : Rule) (m : Bindings) (subs : List Expansion) :
    (node q r m subs).leaves = subs.flatMap leaves := by rw [leaves, leavesOf_eq]

theorem answered_node {as : Answers} {q : Atom} {r : Rule} {m : Bindings} {subs : List Expansion} :
    (node q r m subs).Answered as ↔ ∀ x ∈ subs, x.Answered as := by
  rw [Answered, turn, turnOf_le]
  exact Iff.rfl

theorem root_mem_atoms (x : Expansion) : x.root ∈ x.atoms := by
  cases x <;> simp [root]

theorem leaves_sublist_atoms (x : Expansion) : x.leaves.Sublist x.atoms := by
  induction x with
  | leaf q => exact List.Sublist.refl _
  | node q r m subs ih =>
    rw [leaves_node, atoms_node]
    exact (List.Sublist.flatMap_right subs ih).cons _

/-! ## Turns -/

/-- A query is answered when the answers cover its leaves. -/
theorem answered_iff {as : Answers} {x : Expansion} : x.Answered as ↔ ∀ l ∈ x.leaves, l ∈ as.map (·.1) := by
  induction x with
  | leaf q =>
    have : as.findIdx (·.1 = q) < as.length ↔ ∃ a ∈ as, a.1 = q := by simp [List.findIdx_lt_length]
    simp only [Answered, turn, leaves_leaf, List.mem_singleton, forall_eq, List.mem_map]
    exact this
  | node q r m subs ih =>
    rw [answered_node]
    simp only [leaves_node, List.mem_flatMap]
    constructor
    · rintro h l ⟨x, hx, hl⟩; exact (ih x hx).mp (h x hx) l hl
    · intro h x hx; exact (ih x hx).mpr fun l hl => h l ⟨x, hx, hl⟩

theorem leaf_open (q : Atom) : ¬ (leaf q).Answered [] := fun h =>
  absurd (answered_iff.mp h q (List.mem_singleton_self q)) List.not_mem_nil

theorem Answered.append {as : Answers} {x : Expansion} (h : x.Answered as) (bs : Answers) : x.Answered (as ++ bs) := by
  refine answered_iff.mpr fun l hl => ?_
  rw [List.map_append]
  exact List.mem_append_left _ (answered_iff.mp h l hl)

/-- Later answers do not change whose turn has come. -/
theorem turn_append_le {as bs : Answers} {x : Expansion} {n : Nat} (hn : n ≤ as.length) :
    x.turn (as ++ bs) ≤ n ↔ x.turn as ≤ n := by
  induction x with
  | leaf q =>
    simp only [turn, List.findIdx_append]
    split
    · exact Iff.rfl
    · rename_i h
      have : as.findIdx (fun a => decide (a.1 = q)) ≤ as.length := List.findIdx_le_length
      omega
  | node q r m subs ih =>
    simp only [turn, turnOf_le]
    exact forall₂_congr ih

theorem turn_append {as : Answers} {x : Expansion} (h : x.Answered as) (bs : Answers) : x.turn (as ++ bs) = x.turn as :=
  Nat.le_antisymm ((turn_append_le h).mpr (Nat.le_refl _))
    ((turn_append_le ((turn_append_le (Nat.le_refl _)).mpr h)).mp (Nat.le_refl _))

/-- The queries whose turn is a further answer's are those that it completes. -/
theorem turn_append_eq {as : Answers} {a : Atom × Bindings} {x : Expansion} :
    x.turn (as ++ [a]) = as.length + 1 ↔ ¬ x.Answered as ∧ x.Answered (as ++ [a]) := by
  have : x.turn (as ++ [a]) ≤ as.length ↔ x.turn as ≤ as.length := turn_append_le (Nat.le_refl _)
  simp only [Answered, List.length_append, List.length_singleton] at this ⊢
  omega

/-! ## Values -/

theorem merged_succ (n : Nat) (values : List (Nat × Bindings)) :
    merged (n + 1) values = (values.filter (·.1 = n + 1)).foldl (fun b v => b.merge v.2) (merged n values) := by
  simp only [merged, List.range_succ (n := n + 1), List.flatMap_append, List.flatMap_singleton, List.foldl_append]

theorem merged_congr {n : Nat} {values values' : List (Nat × Bindings)}
    (h : ∀ i ≤ n, values.filter (·.1 = i) = values'.filter (·.1 = i)) : merged n values = merged n values' := by
  have hm : (List.range (n + 1)).map (fun i => values.filter (·.1 = i)) =
      (List.range (n + 1)).map fun i => values'.filter (·.1 = i) :=
    List.map_congr_left fun i hi => h i (by simp only [List.mem_range] at hi; omega)
  rw [merged, merged, List.flatMap_def, List.flatMap_def, hm]

theorem merged_of_le {n : Nat} {values : List (Nat × Bindings)} (h : ∀ v ∈ values, v.1 ≤ n) (k : Nat) :
    merged (n + k) values = merged n values := by
  induction k with
  | zero => rfl
  | succ k ih =>
    have hnone : values.filter (·.1 = n + k + 1) = [] := by
      refine List.filter_eq_nil_iff.mpr fun v hv => ?_
      have := h v hv
      simp only [decide_eq_true_eq]; omega
    rw [← Nat.add_assoc, merged_succ, hnone, List.foldl_nil, ih]

/-- Later answers do not change the answer to a query. -/
theorem value_append {as : Answers} {x : Expansion} (h : x.Answered as) (bs : Answers) :
    x.value (as ++ bs) = x.value as := by
  induction x with
  | leaf q =>
    have hq : q ∈ as.map (·.1) := answered_iff.mp h q (List.mem_singleton_self q)
    obtain ⟨a, ha, rfl⟩ := List.mem_map.mp hq
    have : (as.lookup a.1).isSome := by
      rw [List.lookup_isSome_iff]
      exact ⟨a, ha, by simp⟩
    obtain ⟨b, hb⟩ := Option.isSome_iff_exists.mp this
    simp only [value, List.lookup_append, hb, Option.some_or]
  | node q r m subs ih =>
    have hs := answered_node.mp h
    have hv : valuesOf (as ++ bs) subs = valuesOf as subs := by
      simp only [valuesOf_eq]
      exact List.map_congr_left fun x hx => by rw [turn_append (hs x hx), ih x hx (hs x hx)]
    rw [value, value, hv, List.length_append, merged_of_le]
    intro v hv
    obtain ⟨x, hx, rfl⟩ := List.mem_map.mp (valuesOf_eq as subs ▸ hv)
    exact hs x hx

/-- The values that had their turn keep it when an answer comes. -/
theorem filter_valuesOf_append (as : Answers) (a : Atom × Bindings) {i : Nat} (hi : i ≤ as.length) (xs : List Expansion) :
    (valuesOf (as ++ [a]) xs).filter (·.1 = i) = (valuesOf as xs).filter (·.1 = i) := by
  induction xs with
  | nil => rfl
  | cons x xs ih =>
    simp only [valuesOf, List.filter_cons, ih]
    by_cases h : x.Answered as
    · rw [turn_append h, value_append h]
    · unfold Answered at h
      have : x.turn (as ++ [a]) ≤ as.length ↔ x.turn as ≤ as.length := turn_append_le (Nat.le_refl _)
      have h₁ : ¬ x.turn as = i := by omega
      have h₂ : ¬ x.turn (as ++ [a]) = i := by omega
      simp only [h₁, h₂, decide_false, Bool.false_eq_true, if_false]

/-- One more answer adds the values of the subgoals that it completes. -/
theorem merged_append (as : Answers) (a : Atom × Bindings) (xs : List Expansion) :
    merged (as ++ [a]).length (valuesOf (as ++ [a]) xs) =
      (xs.filter fun x => ¬ x.Answered as ∧ x.Answered (as ++ [a])).foldl (fun b x => b.merge (x.value (as ++ [a])))
        (merged as.length (valuesOf as xs)) := by
  have hnew : (valuesOf (as ++ [a]) xs).filter (·.1 = as.length + 1) =
      (xs.filter fun x => ¬ x.Answered as ∧ x.Answered (as ++ [a])).map fun x => (x.turn (as ++ [a]), x.value (as ++ [a])) := by
    rw [valuesOf_eq, List.filter_map]
    congr 1
    exact List.filter_congr fun x _ => by simp only [Function.comp, turn_append_eq]
  rw [List.length_append, List.length_singleton, merged_succ, hnew, List.foldl_map,
    merged_congr fun i hi => filter_valuesOf_append as a hi xs]

end Expansion

end QueryNet
