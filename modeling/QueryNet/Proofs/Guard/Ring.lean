/-
  QueryNet.Proofs.Guard.Ring — rings of queries that the guard does not stop.

  On a ring each query has a rule that answers it at once and one that asks the next
  query. The answer to a query closes the one before, whose link goes away. When the
  ring comes round, the chain of links ends two queries up.

  Proved: a ring of three or more queries is decomposed for ever, whatever the tables
  hold (`solve_diverges`); a ring ends exactly if it has at most two
  (`ring_finishes_iff`).
-/

import Mathlib.Data.Nat.ModEq
import QueryNet.Proofs.Guard

namespace QueryNet

/-- Each query of the sequence has a rule that answers it at once, then one that asks the next. -/
def SelfAnswering (s : Solver) (a : Nat → Atom) : Prop :=
  ∀ i, ∃ answer next : Rule × Bindings, s.matching (a i) = [answer, next] ∧ answer.1.subgoals = [] ∧
    next.1.subgoals = [a (i + 1)]

variable {s : Solver} {a : Nat → Atom}

structure Below (s : Solver) (a : Nat → Atom) (i : Nat) (t : Turn) : Prop where
  rules : t.solver.rules = s.rules
  waits : ∃ e, t.solver.pending.get? (a i) = some e ∧ e.awaited = [a (i + 1)] ∧
    ∀ z, e.parent = some z → z ≠ a (i + 1) ∧ t.solver.pending.get? z = none

/-- The guard sees the query above and the dead link. -/
theorem Below.not_isAncestor {i : Nat} {t : Turn} (h : Below s a i t) (h₁ : a i ≠ a (i + 1)) :
    t.solver.pending.isAncestor (a (i + 1)) (some (a i)) = false := by
  obtain ⟨e, he, -, hz⟩ := h.waits
  have hclosed : t.solver.pending.Closed fun b => b = a i ∨ e.parent = some b := by
    intro b hb c hc
    rcases hb with rfl | hb
    · rw [PendingTable.parentOf, he] at hc
      exact .inr hc
    · rw [PendingTable.parentOf, (hz b hb).2] at hc
      cases hc
  refine PendingTable.onChain_eq_false hclosed ?_ _ fun b hb => .inl (Option.some.inj hb).symm
  rintro (hb | hb)
  · exact h₁ hb.symm
  · exact (hz _ hb).1 rfl

/-- The query's own answer closes the one above. -/
theorem Below.get?_deliver {i : Nat} {t : Turn} (h : Below s a i t) (h₁ : a i ≠ a (i + 1)) (e : PendingRequest)
    (hparent : e.parent = some (a i)) (b : Bindings) :
    (PendingTable.deliver (t.solver.pending.insert (a (i + 1)) e) (a (i + 1)) b (a (i + 1))).pending.get? (a i) = none := by
  obtain ⟨e', he', hawaited, -⟩ := h.waits
  have hget : ((t.solver.pending.insert (a (i + 1)) e).erase (a (i + 1))).get? (a i) = some e' := by
    rw [Table.get?_erase, if_neg h₁, Table.get?_insert, if_neg h₁, he']
  have hlast : e'.awaited.filter (· ≠ a (i + 1)) = [] := by rw [hawaited]; simp
  rw [PendingTable.deliver_self (Table.get?_insert_self _ _ e), hparent]
  show (PendingTable.deliver _ (a i) _ (a (i + 1))).pending.get? (a i) = none
  rw [PendingTable.deliver_last hget h₁.symm hlast]
  exact get?_pass_eq_none (by rw [Table.get?_erase, if_pos rfl]) _ _ _ _

/-- So the next query is about to be solved below it in the same way. -/
theorem Below.succ {i : Nat} {t : Turn} (hrules : t.solver.rules = s.rules) (hgone : t.solver.pending.get? (a i) = none)
    (h₁ : a i ≠ a (i + 1)) (h₂ : a i ≠ a (i + 2)) {e : PendingRequest} (hquery : e.query = a (i + 1))
    (hparent : e.parent = some (a i)) (hawaited : e.awaited = [a (i + 2)]) : Below s a (i + 1) (t.record e) := by
  refine ⟨hrules, e, ?_, hawaited, fun z hz => ?_⟩
  · rw [Turn.record, Turn.setPending, PendingTable.record, hquery, Table.get?_insert_self]
  · rw [hparent] at hz
    obtain rfl := Option.some.inj hz
    refine ⟨h₂, ?_⟩
    rw [Turn.record, Turn.setPending, PendingTable.record, hquery, Table.get?_insert, if_neg h₁, hgone]

/-- If the queries below never end, a query that has been answered at once does not end either. -/
theorem solve_eq_none (hs : SelfAnswering s a) {depth i : Nat} {origin : Option NodeId} {parent : Option Atom} {t : Turn}
    (hrules : t.solver.rules = s.rules) (hguard : t.solver.pending.isAncestor (a i) parent = false)
    (hbelow : ∀ e next, e.query = a i → e.parent = parent → next.query = a i → next.parent = parent →
      next.awaited = [a (i + 1)] → Below s a i (Turn.record ((t.record e).deliver (a i) ∅ (a i)).2 next))
    (ih : ∀ u, Below s a i u → Turn.solve depth none (some (a i)) (a (i + 1)) u = none) :
    Turn.solve (depth + 1) origin parent (a i) t = none := by
  obtain ⟨answer, next, hm, hanswer, hnext⟩ := hs i
  have hmatching : t.solver.matching (a i) = [answer, next] := by rw [← hm, Solver.matching, hrules, Solver.matching]
  rw [Turn.solve, hguard, hmatching]
  simp only [Bool.false_eq_true, if_false, List.foldlM_cons, Turn.expand, hanswer, hnext, if_true, List.cons_ne_nil]
  rw [Option.bind_eq_bind, Option.bind_some, ih _ (hbelow _ _ rfl rfl rfl rfl (by simp [List.eraseDups_cons]))]
  rfl

theorem solve_below (hs : SelfAnswering s a) (h₁ : ∀ i, a i ≠ a (i + 1)) (h₂ : ∀ i, a i ≠ a (i + 2)) (depth : Nat) :
    ∀ {i : Nat} {t : Turn}, Below s a i t → Turn.solve depth none (some (a i)) (a (i + 1)) t = none := by
  induction depth with
  | zero => intro _ _ _; rfl
  | succ depth ih =>
    intro i t h
    refine solve_eq_none hs h.rules (h.not_isAncestor (h₁ i)) (fun e next he hparent hq hp ha => ?_) fun u hu => ih hu
    have hrules : ((t.record e).deliver (a (i + 1)) ∅ (a (i + 1))).2.solver.rules = s.rules := h.rules
    refine Below.succ hrules ?_ (h₁ i) (h₂ i) hq hp ha
    simp only [Turn.deliver, Turn.record, Turn.setPending, PendingTable.record, he]
    exact h.get?_deliver (h₁ i) e hparent ∅

/-- A ring of three or more queries is decomposed for ever, whatever the tables hold. -/
theorem solve_diverges (hs : SelfAnswering s a) (h₁ : ∀ i, a i ≠ a (i + 1)) (h₂ : ∀ i, a i ≠ a (i + 2)) (depth : Nat)
    (origin : Option NodeId) : s.solve depth origin (a 0) none = none := by
  cases depth with
  | zero => rfl
  | succ depth =>
    refine solve_eq_none hs rfl rfl (fun e next he hparent hq hp ha => ⟨rfl, next, ?_, ha, fun z hz => ?_⟩)
      fun u hu => solve_below hs h₁ h₂ depth hu
    · rw [Turn.record, Turn.setPending, PendingTable.record, hq, Table.get?_insert_self]
    · rw [hp] at hz
      cases hz

/-! ## Rings of any length -/

def Round (n : Nat) (a : Nat → Atom) : Prop := ∀ i j, a i = a j ↔ i % n = j % n

theorem Round.ne {n : Nat} (hr : Round n a) {i k : Nat} (hpos : 0 < k) (hk : k < n) : a i ≠ a (i + k) := by
  intro he
  have hmod : 0 % n = k % n := Nat.ModEq.add_left_cancel' i ((hr i (i + k)).mp he)
  rw [Nat.mod_eq_of_lt hk, Nat.zero_mod] at hmod
  omega

theorem SelfAnswering.askedBy (hs : SelfAnswering s a) {i : Nat} {b : Atom} (h : s.AskedBy b (a i)) : b = a (i + 1) := by
  obtain ⟨answer, next, hm, hanswer, hnext⟩ := hs i
  obtain ⟨m, hmem, hb⟩ := h
  rw [hm] at hmem
  rcases List.mem_pair.mp hmem with rfl | rfl
  · rw [hanswer] at hb
    cases hb
  · rw [hnext] at hb
    exact List.mem_singleton.mp hb

theorem SelfAnswering.reaches (hs : SelfAnswering s a) {b : Atom}
    (h : Relation.ReflTransGen (fun x y => s.AskedBy y x) (a 0) b) : ∃ i, b = a i := by
  induction h with
  | refl => exact ⟨0, rfl⟩
  | tail _ hb ih =>
    obtain ⟨i, rfl⟩ := ih
    exact ⟨i + 1, hs.askedBy hb⟩

/-- With one or two queries there is no ring of three. -/
theorem SelfAnswering.guarded (hs : SelfAnswering s a) {n : Nat} (hr : Round n a) (hpos : 0 < n) (hn : n ≤ 2) :
    s.Guarded (a 0) := by
  intro b c l hl hnodup hchain hreaches _
  obtain ⟨i, rfl⟩ := hs.reaches hreaches
  obtain ⟨l', y, rfl⟩ := (List.eq_nil_or_concat l).resolve_left hl
  have hb : b = a (i + 1) := hs.askedBy (List.isChain_cons_cons.mp hchain).1
  have hlist : b :: a i :: (l'.concat y ++ [b]) = (b :: a i :: l') ++ y :: b :: [] := by simp
  have hy : y = a (i + 2) := hs.askedBy (hb ▸ (List.isChain_append_cons_cons.mp (hlist ▸ hchain)).2.1)
  simp only [List.concat_eq_append, List.nodup_cons, List.mem_cons, List.mem_append, not_or] at hnodup
  rcases Nat.lt_or_ge n 2 with h1 | h2
  · -- one query: it is the one above
    exact hnodup.1.1 (hb.trans ((hr _ _).mpr (by simp [show n = 1 by omega, Nat.mod_one])))
  · -- two of them: the third is the first
    refine hnodup.2.1.2.1 ((hr _ _).mpr ?_ |>.trans hy.symm)
    rw [show n = 2 by omega]
    omega

/-- The guard stops the ring exactly if it has at most two queries. -/
theorem ring_finishes_iff (hs : SelfAnswering s a) {n : Nat} (hr : Round n a) (hpos : 0 < n)
    (origin : Option NodeId) : (∃ depth r, s.solve depth origin (a 0) none = some r) ↔ n ≤ 2 := by
  constructor
  · rintro ⟨depth, r, h⟩
    by_contra hlarge
    rw [solve_diverges hs (fun _ => hr.ne (by omega) (by omega)) fun _ => hr.ne (by omega) (by omega)] at h
    cases h
  · intro hsmall
    obtain ⟨r, h⟩ := solve_finishes (hs.guarded hr hpos hsmall) origin none
    exact ⟨_, r, h⟩

/-! ## Three queries -/

/-- The rules `b <- @(?X). b <- c. c <- @(?X). c <- d. d <- @(?X). d <- b.` -/
def carousel : Solver :=
  { Solver.create "s" .standard with
    rules := [("b", "c"), ("c", "d"), ("d", "b")].flatMap fun e =>
      [⟨⟨e.1, []⟩, [⟨"@", ["?X"]⟩]⟩, ⟨⟨e.1, []⟩, [⟨e.2, []⟩]⟩] }

def carouselQuery (i : Nat) : Atom := ⟨if i % 3 = 0 then "b" else if i % 3 = 1 then "c" else "d", []⟩

theorem carousel_selfAnswering : SelfAnswering carousel carouselQuery := by
  intro i
  have hi : i % 3 = 0 ∨ i % 3 = 1 ∨ i % 3 = 2 := by omega
  rcases hi with h | h | h
  · have hn : (i + 1) % 3 = 1 := by omega
    simp only [carouselQuery, h, hn]
    exact ⟨(⟨⟨"b", []⟩, [⟨"@", ["?X"]⟩]⟩, ∅), (⟨⟨"b", []⟩, [⟨"c", []⟩]⟩, ∅), by decide +kernel⟩
  · have hn : (i + 1) % 3 = 2 := by omega
    simp only [carouselQuery, h, hn]
    exact ⟨(⟨⟨"c", []⟩, [⟨"@", ["?X"]⟩]⟩, ∅), (⟨⟨"c", []⟩, [⟨"d", []⟩]⟩, ∅), by decide +kernel⟩
  · have hn : (i + 1) % 3 = 0 := by omega
    simp only [carouselQuery, h, hn]
    exact ⟨(⟨⟨"d", []⟩, [⟨"@", ["?X"]⟩]⟩, ∅), (⟨⟨"d", []⟩, [⟨"b", []⟩]⟩, ∅), by decide +kernel⟩

theorem carousel_round : Round 3 carouselQuery := by
  intro i j
  simp only [carouselQuery, Atom.mk.injEq]
  grind

theorem carousel_never_finishes : ¬ ∃ depth r, carousel.solve depth none ⟨"b", []⟩ none = some r := fun h =>
  absurd ((ring_finishes_iff carousel_selfAnswering carousel_round (by decide) none).mp h) (by decide)

end QueryNet
