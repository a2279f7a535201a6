/-
  QueryNet.Proofs.Expansion.Solving — what solving a query does, by its expansion.

  Solving goes through the tree from left to right, over the entries that it records.
  A rule without subgoals answers at once, and with it whatever it was the last
  subgoal of, so the entry of a query that is being decomposed may be filled in
  (`absorb`), or answered, before its other subgoals have been solved.

  Proved: solving a query sends one request for each leaf, along the leaf's route,
  and comes to what the expansion stands at without answers (`solve_expands`, by
  induction on the tree). The guard against cycles never holds: the links lead from
  a query of the tree to those above it, then into a set `C` without any of them.
-/

import Mathlib.Data.List.Nodup
import QueryNet.Proofs.Expansion.Answering
import QueryNet.Proofs.Handling

namespace QueryNet

namespace PendingTable

variable {p : PendingTable} {C : Atom → Prop}

/-- Queries that are not pending and that no chain from the set leads to. -/
structure Clear (p : PendingTable) (C : Atom → Prop) (l : List Atom) : Prop where
  closed : p.Closed C
  absent : ∀ b ∈ l, p.get? b = none
  outside : ∀ b ∈ l, ¬ C b

namespace Clear

variable {l l' : List Atom} {q : Atom}

theorem subset (h : p.Clear C l) (hl : l' ⊆ l) : p.Clear C l' :=
  ⟨h.closed, fun b hb => h.absent b (hl hb), fun b hb => h.outside b (hl hb)⟩

/-- A new entry adds its query to the set, if it links into it. -/
theorem insert (h : p.Clear C (q :: l)) (hq : q ∉ l) {e : PendingRequest} (he : ∀ a, e.parent = some a → C a) :
    PendingTable.Clear (p.insert q e) (fun a => a = q ∨ C a) l := by
  have hne : ∀ b ∈ l, b ≠ q := fun b hb hbq => hq (hbq ▸ hb)
  refine ⟨fun a ha b hb => ?_, fun b hb => ?_, fun b hb hC => ?_⟩
  · rw [parentOf, Table.get?_insert] at hb
    by_cases haq : a = q
    · rw [if_pos haq] at hb
      exact .inr (he b hb)
    · rw [if_neg haq] at hb
      exact .inr (h.closed a (ha.resolve_left haq) b hb)
  · rw [Table.get?_insert, if_neg (hne b hb)]
    exact h.absent b (List.mem_cons_of_mem _ hb)
  · exact hC.elim (hne b hb) (h.outside b (List.mem_cons_of_mem _ hb))

/-- Entries of some of the queries leave the others clear. -/
theorem insertAll (h : p.Clear C (l' ++ l)) (hd : (l' ++ l).Nodup) {es : List (Atom × PendingRequest)}
    (hes : es.map (·.1) ⊆ l') : PendingTable.Clear (p.insertAll es) C l := by
  refine ⟨fun a ha b hb => ?_, fun b hb => ?_, fun b hb => h.outside b (List.mem_append_right _ hb)⟩
  · rw [parentOf, Table.get?_insertAll_of_notMem fun hm => h.outside a (List.mem_append_left _ (hes hm)) ha] at hb
    exact h.closed a ha b hb
  · rw [Table.get?_insertAll_of_notMem fun hm => (List.nodup_append.mp hd).2.2 b (hes hm) b hb rfl]
    exact h.absent b (List.mem_append_right _ hb)

end Clear

end PendingTable

namespace Expansion

variable {s : Solver} {hop : Atom → NodeId} {depth : Nat}

def Routed (s : Solver) (hop : Atom → NodeId) (x : Expansion) : Prop :=
  ∀ l ∈ x.leaves, ∃ metric, s.routes.get? l.key = some ⟨hop l, metric⟩ ∧ s.interfaces.contains (hop l)

def requests (hop : Atom → NodeId) (x : Expansion) : List Outbound := x.leaves.map fun l => ⟨hop l, .request l⟩

def delivered (s : Solver) (out : List Outbound) (notes : List Metric) (d : PendingTable.Delivery) : Turn :=
  ⟨s.withPending d.pending, out ++ d.reply.toList, notes⟩

/-- Where the tree's queries are clear, solving the query comes to where its expansion stands. -/
def Solves (s : Solver) (hop : Atom → NodeId) (depth : Nat) (parent : Option Atom) (origin : Option NodeId)
    (x : Expansion) : Prop :=
  ∀ (p : PendingTable) (C : Atom → Prop), p.Clear C x.atoms → (∀ a, parent = some a → C a) → ∀ out notes,
    (Turn.solve depth origin parent x.root ⟨s.withPending p, out, notes⟩).map (·.2) =
      some (delivered s (out ++ x.requests hop) notes (x.standing [] parent origin p))

/-! ## Answers at once -/

def absorb (e : PendingRequest) (k : Expansion) : PendingRequest :=
  if k.Answered [] then
    { e with results := e.results.merge (k.value []), awaited := e.awaited.filter (· ≠ k.root) }
  else e

theorem mem_awaited_absorb {e : PendingRequest} {b : Atom} (hb : b ∈ e.awaited) {ks : List Expansion}
    (hne : ∀ k ∈ ks, b ≠ k.root) : b ∈ (ks.foldl absorb e).awaited := by
  induction ks generalizing e with
  | nil => exact hb
  | cons k ks ih =>
    refine ih ?_ fun x hx => hne x (List.mem_cons_of_mem _ hx)
    unfold absorb
    split
    · exact List.mem_filter.mpr ⟨hb, decide_eq_true (hne k (List.mem_cons_self ..))⟩
    · exact hb

theorem foldl_absorb (ks : List Expansion) (e : PendingRequest) :
    ks.foldl absorb e =
      { e with
        results := (ks.filter (·.Answered [])).foldl (fun b k => b.merge (k.value [])) e.results
        awaited := e.awaited.filter (· ∉ (ks.filter (·.Answered [])).map root) } := by
  induction ks generalizing e with
  | nil => simp
  | cons k ks ih =>
    rw [List.foldl_cons, ih, absorb]
    by_cases h : k.Answered []
    · simp only [h, if_true, decide_true, List.filter_cons, List.map_cons, List.foldl_cons, List.filter_filter,
        List.mem_cons, not_or]
      congr 1
      exact List.filter_congr fun b _ => by rw [Bool.and_comm, ← Bool.decide_and]
    · simp only [h, if_false, decide_false, List.filter_cons, Bool.false_eq_true]

theorem merged_zero (xs : List Expansion) :
    merged 0 (valuesOf [] xs) = (xs.filter (·.Answered [])).foldl (fun b k => b.merge (k.value [])) ∅ := by
  have hf : (valuesOf [] xs).filter (·.1 = 0) = (xs.filter (·.Answered [])).map fun x => (x.turn [], x.value []) := by
    rw [valuesOf_eq, List.filter_map]
    congr 1
    refine List.filter_congr fun x _ => ?_
    simp only [Function.comp, Answered, List.length_nil, Nat.le_zero]
  rw [merged, List.range_one, List.flatMap_singleton, hf, List.foldl_map]

/-- Once all subgoals have been solved, a query's entry has the values of those that were answered. -/
theorem foldl_absorb_eq_waiting {parent : Option Atom} {origin : Option NodeId} {q : Atom} {r : Rule} {m : Bindings}
    {subs : List Expansion} (hd : (subs.map root).Nodup) :
    subs.foldl absorb ⟨q, parent, subs.map root, ∅, r.composition, some m, origin⟩ =
      waiting [] parent origin q r m subs := by
  have hroots : (subs.map root).filter (· ∉ (subs.filter (·.Answered [])).map root) =
      (subs.filter fun x => ¬ x.Answered []).map root := by
    rw [List.filter_map]
    congr 1
    refine List.filter_congr fun x hx => decide_eq_decide.mpr ?_
    refine not_congr ⟨fun h => ?_, fun h => List.mem_map.mpr ⟨x, List.mem_filter.mpr ⟨hx, decide_eq_true h⟩, rfl⟩⟩
    obtain ⟨y, hy, he⟩ := List.mem_map.mp h
    obtain ⟨hy, hya⟩ := List.mem_filter.mp hy
    exact List.inj_on_of_nodup_map hd hy hx he ▸ of_decide_eq_true hya
  rw [foldl_absorb, hroots, waiting, List.length_nil, merged_zero]

/-! ## Solving -/

/-- A query without a match is recorded and sent on. -/
theorem solves_leaf {q : Atom} (hm : s.matching q = []) (hr : (leaf q).Routed s hop) {parent : Option Atom}
    {origin : Option NodeId} (ho : origin ≠ some (hop q)) : Solves s hop (depth + 1) parent origin (leaf q) := by
  intro p C hclear hparent out notes
  obtain ⟨metric, hroute, hif⟩ := hr q (List.mem_singleton_self q)
  have hguard : p.isAncestor q parent = false :=
    PendingTable.onChain_eq_false hclear.closed (hclear.outside q (List.mem_singleton_self q)) _ hparent
  rw [standing, if_neg (leaf_open q), entries_leaf (leaf_open q), Turn.solve]
  simp only [root, Solver.withPending_pending, hguard, Solver.matching_withPending, hm, Turn.forward,
    Solver.withPending_routes, hroute, Solver.withPending_interfaces, hif, ho, ne_eq, not_false_eq_true, and_self,
    if_true, Bool.false_eq_true, if_false, Option.map_some]
  simp only [Turn.send, Turn.record, Turn.setPending, delivered, requests, leaves_leaf, List.map_cons, List.map_nil,
    Option.toList_none, List.append_nil]
  rfl

section Subgoals

variable {p : PendingTable} {C : Atom → Prop} {q : Atom} {e : PendingRequest}

/-- A subgoal that is not the last one to be answered leaves the entry of its query in place. -/
theorem standing_wait {k : Expansion} (hq : q ∉ k.atoms) (hw : (absorb e k).awaited ≠ []) :
    k.standing [] (some q) none (p.insert q e) =
      ⟨.consumed, (p.insertAll (k.entries [] (some q) none)).insert q (absorb e k), none⟩ := by
  have hkq : k.root ≠ q := fun h => hq (h ▸ k.root_mem_atoms)
  unfold standing absorb at *
  by_cases hk : k.Answered []
  · rw [if_pos hk] at hw ⊢
    rw [PendingTable.pass, PendingTable.deliver_insert_wait hkq hw, entries_of_answered hk, Table.insertAll_nil, if_pos hk]
  · rw [if_neg hk, if_neg hk,
      Table.insertAll_insert fun h => hq ((keys_entries_sublist k).subset h)]

/-- The last one makes the query's own answer. -/
theorem standing_last {k : Expansion} (hp : p.get? q = none) (hq : q ∉ k.atoms) (he : e.awaited ≠ [])
    (hw : (absorb e k).awaited = []) :
    k.standing [] (some q) none (p.insert q e) =
      p.pass e.parent e.origin q ((absorb e k).answer (absorb e k).results) := by
  have hkq : k.root ≠ q := fun h => hq (h ▸ k.root_mem_atoms)
  unfold standing absorb at *
  by_cases hk : k.Answered []
  · rw [if_pos hk] at hw
    rw [if_pos hk, if_pos hk, PendingTable.pass, PendingTable.deliver_insert_last hp hkq hw]
    unfold PendingTable.pass
    cases e.parent <;> rfl
  · rw [if_neg hk] at hw
    exact absurd hw he

def subsStanding (p : PendingTable) (q : Atom) (e : PendingRequest) (ks : List Expansion) : PendingTable.Delivery :=
  let e' := ks.foldl absorb e
  if e'.awaited = [] then p.pass e.parent e.origin q (e'.answer e'.results)
  else ⟨.consumed, (p.insert q e').insertAll (ks.flatMap (entries [] (some q) none)), none⟩

theorem absorb_links (e : PendingRequest) (k : Expansion) :
    (absorb e k).parent = e.parent ∧ (absorb e k).origin = e.origin := by
  unfold absorb
  split <;> exact ⟨rfl, rfl⟩

theorem subsStanding_cons {k : Expansion} {ks : List Expansion} (hd : (q :: (k :: ks).flatMap atoms).Nodup)
    (hk : k.root ∈ e.awaited) :
    subsStanding (p.insertAll (k.entries [] (some q) none)) q (absorb e k) ks = subsStanding p q e (k :: ks) := by
  rw [List.flatMap_cons] at hd
  obtain ⟨hq, hkd⟩ := List.nodup_cons.mp hd
  unfold subsStanding
  simp only [List.foldl_cons, List.flatMap_cons, Table.insertAll_append, absorb_links]
  by_cases hlast : (ks.foldl absorb (absorb e k)).awaited = []
  · -- all are answered, `k` too
    have hka : k.Answered [] := by
      by_contra h
      have hmem : k.root ∈ (absorb e k).awaited := by rw [absorb, if_neg h]; exact hk
      have := mem_awaited_absorb hmem fun x hx heq =>
        (List.nodup_append.mp hkd).2.2 _ k.root_mem_atoms _ (List.mem_flatMap.mpr ⟨x, hx, x.root_mem_atoms⟩) heq
      rw [hlast] at this
      cases this
    simp only [hlast, if_true, entries_of_answered hka, Table.insertAll_nil]
  · simp only [hlast, if_false]
    rw [Table.insertAll_insert fun h => hq (List.mem_append_left _ ((keys_entries_sublist k).subset h))]

/-- The subgoals of a query are solved one after another, over its entry. -/
theorem solve_subs {ks : List Expansion} (hs : ∀ k ∈ ks, Solves s hop depth (some q) none k)
    (hd : (q :: ks.flatMap atoms).Nodup) (hclear : p.Clear C (q :: ks.flatMap atoms))
    (hparent : ∀ a, e.parent = some a → C a) (haw : ∀ k ∈ ks, k.root ∈ e.awaited) (hne : e.awaited ≠ [])
    (out : List Outbound) (notes : List Metric) :
    (ks.map root).foldlM (fun t g => (Turn.solve depth none (some q) g t).map (·.2))
        ⟨s.withPending (p.insert q e), out, notes⟩ =
      some (delivered s (out ++ ks.flatMap (requests hop)) notes (subsStanding p q e ks)) := by
  induction ks generalizing p e out with
  | nil =>
    simp only [subsStanding, List.foldl_nil, if_neg hne, List.flatMap_nil, Table.insertAll_nil, delivered,
      Option.toList_none, List.append_nil]
    rfl
  | cons k ks ih =>
    have hcons := subsStanding_cons (p := p) hd (haw k (List.mem_cons_self ..))
    rw [List.flatMap_cons] at hd hclear
    obtain ⟨hq, hkd⟩ := List.nodup_cons.mp hd
    have hqk : q ∉ k.atoms := fun h => hq (List.mem_append_left _ h)
    have hqks : q ∉ ks.flatMap atoms := fun h => hq (List.mem_append_right _ h)
    have hclear' : p.Clear C (k.atoms ++ q :: ks.flatMap atoms) :=
      hclear.subset fun b hb => List.perm_middle.mem_iff.mp hb
    have hsolve := hs k (List.mem_cons_self ..) (p.insert q e) _
      ((hclear.subset (List.cons_subset_cons _ (List.subset_append_left ..))).insert hqk hparent)
      (fun a h => .inl (Option.some.inj h).symm) out notes
    have haw' : ∀ x ∈ ks, x.root ∈ (absorb e k).awaited := fun x hx =>
      show x.root ∈ ([k].foldl absorb e).awaited from
        mem_awaited_absorb (haw x (List.mem_cons_of_mem _ hx)) fun y hy h => by
          rw [List.mem_singleton.mp hy] at h
          exact (List.nodup_append.mp hkd).2.2 _ k.root_mem_atoms _
            (List.mem_flatMap.mpr ⟨x, hx, x.root_mem_atoms⟩) h.symm
    rw [List.map_cons, List.foldlM_cons, hsolve, List.flatMap_cons]
    by_cases hlast : (absorb e k).awaited = []
    · have hnil : ks = [] := List.eq_nil_iff_forall_not_mem.mpr fun x hx => absurd (hlast ▸ haw' x hx) List.not_mem_nil
      rw [hnil, standing_last (hclear.absent q (List.mem_cons_self ..)) hqk hne hlast, subsStanding, List.foldl_cons,
        List.foldl_nil, if_pos hlast, List.flatMap_nil, List.append_nil]
      rfl
    · have hclear'' : PendingTable.Clear (p.insertAll (k.entries [] (some q) none)) C (q :: ks.flatMap atoms) :=
        hclear'.insertAll (List.perm_middle.nodup_iff.mpr hd) (keys_entries_sublist k).subset
      have hnext := ih (fun x hx => hs x (List.mem_cons_of_mem _ hx))
        (List.nodup_cons.mpr ⟨hqks, (List.nodup_append.mp hkd).2.1⟩) hclear'' ((absorb_links e k).1 ▸ hparent) haw' hlast
        (out ++ k.requests hop)
      rw [standing_wait hqk hlast, ← hcons, ← List.append_assoc, ← hnext]
      simp only [delivered, Option.toList_none, List.append_nil]
      rfl

end Subgoals

/-- Once all subgoals have been solved, their query stands where its expansion does. -/
theorem subsStanding_eq {p : PendingTable} {parent : Option Atom} {origin : Option NodeId} {q : Atom} {r : Rule}
    {m : Bindings} {subs : List Expansion} (hd : (subs.map root).Nodup) :
    subsStanding p q ⟨q, parent, subs.map root, ∅, r.composition, some m, origin⟩ subs =
      (node q r m subs).standing [] parent origin p := by
  rw [subsStanding, foldl_absorb_eq_waiting hd, standing]
  by_cases h : (node q r m subs).Answered []
  · rw [if_pos (awaited_waiting_eq_nil.mpr h), if_pos h, answer_waiting, ← value_node]
    rfl
  · rw [if_neg (mt awaited_waiting_eq_nil.mp h), if_neg h, entries_node h, Table.insertAll_cons]

theorem nodup_roots {xs : List Expansion} (h : (xs.flatMap atoms).Nodup) : (xs.map root).Nodup := by
  induction xs with
  | nil => exact List.nodup_nil
  | cons x xs ih =>
    obtain ⟨-, hxs, hd⟩ := List.nodup_append.mp (List.flatMap_cons ▸ h)
    refine List.nodup_cons.mpr ⟨fun hm => ?_, ih hxs⟩
    obtain ⟨y, hy, he⟩ := List.mem_map.mp hm
    exact hd _ x.root_mem_atoms _ (List.mem_flatMap.mpr ⟨y, hy, y.root_mem_atoms⟩) he.symm

theorem eraseDups_eq_self {l : List Atom} (h : l.Nodup) : l.eraseDups = l := by
  induction l with
  | nil => rfl
  | cons a l ih =>
    obtain ⟨ha, hl⟩ := List.nodup_cons.mp h
    have hf : l.filter (fun b => !b == a) = l := List.filter_eq_self.mpr fun b hb => by
      have : b ≠ a := fun he => ha (he ▸ hb)
      simpa using this
    rw [List.eraseDups_cons, hf, ih hl]

/-- A query that one rule matches is recorded, and its subgoals are solved. -/
theorem solves_node {q : Atom} {r : Rule} {m : Bindings} {subs : List Expansion} (hm : s.matching q = [(r, m)])
    (hroots : subs.map root = r.subgoals) (hd : (node q r m subs).atoms.Nodup)
    (hs : ∀ x ∈ subs, Solves s hop depth (some q) none x) {parent : Option Atom} {origin : Option NodeId} :
    Solves s hop (depth + 1) parent origin (node q r m subs) := by
  intro p C hclear hparent out notes
  rw [atoms_node] at hd hclear
  have hguard : p.isAncestor q parent = false :=
    PendingTable.onChain_eq_false hclear.closed (hclear.outside q (List.mem_cons_self ..)) _ hparent
  have hroots' := nodup_roots (List.nodup_cons.mp hd).2
  have hreq : (node q r m subs).requests hop = subs.flatMap (requests hop) := by
    rw [requests, leaves_node, List.map_flatMap]
    rfl
  have hexpand : Turn.expand (fun g t => (Turn.solve depth none (some q) g t).map (·.2)) origin parent q
      ⟨s.withPending p, out, notes⟩ (r, m) =
        some (delivered s (out ++ subs.flatMap (requests hop)) notes
          (subsStanding p q ⟨q, parent, subs.map root, ∅, r.composition, some m, origin⟩ subs)) := by
    simp only [Turn.expand, ← hroots, eraseDups_eq_self hroots']
    by_cases hnil : subs = []
    · subst hnil
      simp only [List.map_nil, if_true, Turn.deliver, Turn.record, Turn.setPending, PendingTable.record,
        Solver.withPending_pending, PendingTable.deliver_insert_self (hclear.absent q (List.mem_cons_self ..))]
      simp only [subsStanding, List.foldl_nil, if_true, List.flatMap_nil, List.append_nil]
      rfl
    · rw [if_neg (mt List.map_eq_nil_iff.mp hnil)]
      exact solve_subs hs hd hclear hparent (fun k hk => List.mem_map_of_mem hk) (mt List.map_eq_nil_iff.mp hnil) out notes
  rw [hreq, ← subsStanding_eq hroots', Turn.solve]
  simp only [root, Solver.withPending_pending, hguard, Solver.matching_withPending, hm, Bool.false_eq_true, if_false,
    List.foldlM_cons, List.foldlM_nil, hexpand]
  rfl

/-- Solving a query sends a request for each leaf and comes to what its expansion stands at. -/
theorem solve_expands {x : Expansion} (h : Expands s x) (hr : x.Routed s hop) (hd : x.atoms.Nodup)
    (hdepth : x.height ≤ depth) {parent : Option Atom} {origin : Option NodeId}
    (ho : ∀ q, x = leaf q → origin ≠ some (hop q)) : Solves s hop depth parent origin x := by
  induction x generalizing depth parent origin with
  | leaf q =>
    cases h with
    | leaf hm =>
      obtain ⟨depth, rfl⟩ := Nat.exists_eq_succ_of_ne_zero (Nat.one_le_iff_ne_zero.mp hdepth)
      exact solves_leaf hm hr (ho q rfl)
  | node q r m subs ih =>
    cases h with
    | node hm hroots hs =>
      obtain ⟨depth, rfl⟩ := Nat.exists_eq_succ_of_ne_zero
        (Nat.one_le_iff_ne_zero.mp (Nat.le_trans (Nat.le_add_left 1 _) hdepth))
      refine solves_node hm hroots hd fun x hx => ih x hx (hs x hx) (fun l hl => hr l ?_) ?_ ?_ fun _ _ h => by cases h
      · rw [leaves_node]
        exact List.mem_flatMap.mpr ⟨x, hx, hl⟩
      · rw [atoms_node] at hd
        exact (List.nodup_flatMap.mp (List.nodup_cons.mp hd).2).1 x hx
      · exact heightOf_le.mp (Nat.le_of_succ_le_succ hdepth) x hx

end Expansion

end QueryNet
