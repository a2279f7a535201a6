/-
  QueryNet.Proofs.Gathering — a query whose rule needs answers from other nodes.

  A rule gathers answers if it alone matches the query and none matches its subgoals
  (`Gathers`). A request for the query makes it pending, and the subgoals with it, in
  the place of whatever was pending for them (`handles_request`); each answer to a
  subgoal is then merged over those before it (`merged_leaves`).

  Proved: in any order of the answers, all but the last are taken in silently, and the
  last makes the one reply. Its bindings do not depend on the order as long as no two
  answers differ in a variable that the rule uses (`gathers_once`). Where they do, the
  value that came last stays (`later_answer_stays`).
-/

import QueryNet.Proofs.Course
import QueryNet.Proofs.Expansion.Replies
import QueryNet.Proofs.Matching

namespace QueryNet

/-! ## Answers to leaves -/

namespace Expansion

theorem leaves_open {x : Expansion} {gs : List Atom} (hx : x ∈ gs.map leaf) : ¬ x.Answered [] := by
  obtain ⟨g, -, rfl⟩ := List.mem_map.mp hx
  exact leaf_open g

theorem filter_answered (gs : List Atom) : (gs.map leaf).filter (·.Answered []) = [] :=
  List.filter_eq_nil_iff.mpr fun _ hx ha => leaves_open hx (of_decide_eq_true ha)

def gathered (as : Answers) : Bindings := as.foldl (fun b a => b.merge a.2) ∅

/-- What the subgoals have brought after some answers. -/
theorem merged_leaves {gs : List Atom} (hgs : gs.Nodup) {as : Answers} (hd : (as.map (·.1)).Nodup)
    (hsub : as.map (·.1) ⊆ gs) :
    merged as.length (valuesOf as (gs.map .leaf)) = gathered as := by
  induction as using List.reverseRecOn with
  | nil => rw [List.length_nil, merged_zero, filter_answered]; rfl
  | append_singleton as a ih =>
    rw [List.map_append] at hd hsub
    obtain ⟨has, -, hapart⟩ := List.nodup_append.mp hd
    have hnew : a.1 ∉ as.map (·.1) := fun hm => hapart _ hm _ (List.mem_singleton_self _) rfl
    have hclosed : ¬ (leaf a.1).Answered as := fun ha =>
      hnew (answered_iff.mp ha _ (List.mem_singleton_self _))
    have hdone : (leaf a.1).Answered (as ++ [a]) := answered_iff.mpr fun l hl => by
      rw [List.mem_singleton.mp hl, List.map_append]
      exact List.mem_append_right _ (List.mem_singleton_self _)
    have hmem : a.1 ∈ gs := hsub (List.mem_append_right _ (List.mem_singleton_self _))
    obtain ⟨pre, post, rfl⟩ := List.append_of_mem hmem
    have hother : ∀ g ∈ pre ++ post, a.1 ≠ g := fun g hg he =>
      (List.nodup_cons.mp (List.perm_middle.nodup_iff.mp hgs)).1 (he ▸ hg)
    have hleaf : ∀ l ⊆ pre ++ post, ∀ x ∈ l.map leaf, a.1 ∉ x.leaves := fun l hl x hx hm => by
      obtain ⟨g, hg, rfl⟩ := List.mem_map.mp hx
      exact hother g (hl hg) (List.mem_singleton.mp hm)
    have hprev := ih has fun g hg => hsub (List.mem_append_left _ hg)
    rw [List.map_append, List.map_cons] at hprev ⊢
    rw [merged_append_of_mem (hleaf pre (List.subset_append_left ..)) (hleaf post (List.subset_append_right ..))
      hclosed, if_pos hdone, hprev, value_leaf_append hnew, gathered, gathered, List.foldl_append]
    rfl

/-- The last answer that has a value for a variable gives it. -/
theorem get?_gathered (as : Answers) (v : String) :
    (gathered as).get? v = as.foldl (fun w a => (a.2.get? v).or w) none := by
  induction as using List.reverseRecOn with
  | nil => rfl
  | append_singleton as a ih =>
    rw [gathered, List.foldl_append, List.foldl_append, ← ih]
    exact Table.get?_merge ..

/-- No two answers give the variable different values. -/
def AgreeOn (v : String) (as : Answers) : Prop :=
  ∀ a ∈ as, ∀ a' ∈ as, ∀ w w', a.2.get? v = some w → a'.2.get? v = some w' → w = w'

theorem get?_gathered_perm {as as' : Answers} (hperm : as'.Perm as) {v : String} (hagree : AgreeOn v as) :
    (gathered as').get? v = (gathered as).get? v := by
  rw [get?_gathered, get?_gathered]
  refine (hperm.symm.foldl_eq' (fun a ha a' ha' w => ?_) none).symm
  cases hv : a.2.get? v with
  | none => rfl
  | some x =>
    cases hv' : a'.2.get? v with
    | none => rfl
    | some x' => rw [hagree a ha a' ha' x x' hv hv']

end Expansion

/-! ## A rule and its query -/

/-- A rule that alone matches a query, and whose subgoals are left to other nodes. -/
structure Solver.Gathers (s : Solver) (query : Atom) (r : Rule) (m : Bindings) : Prop where
  mem : r ∈ s.rules
  unify : r.unify query = some m
  only : ∀ r' ∈ s.rules, r'.unify query ≠ none → r' = r
  subgoals : r.subgoals ≠ []
  nodup : r.subgoals.Nodup
  leaves : ∀ g ∈ r.subgoals, ∀ r' ∈ s.rules, r'.unify g = none

namespace Solver.Gathers

variable {s : Solver} {query : Atom} {r : Rule} {m : Bindings}

/-- The rule may have been added more than once. -/
theorem matching (h : s.Gathers query r m) : s.matching query ≠ [] ∧ ∀ x ∈ s.matching query, x = (r, m) := by
  refine ⟨List.ne_nil_of_mem (mem_matching.mpr (⟨h.mem, h.unify⟩ : (r, m).1 ∈ s.rules ∧ _)), fun x hx => ?_⟩
  obtain ⟨hr, hm⟩ := mem_matching.mp hx
  obtain rfl : x.1 = r := h.only x.1 hr (by rw [hm]; exact Option.some_ne_none _)
  exact Prod.ext rfl (Option.some.inj (hm.symm.trans h.unify))

theorem matching_subgoal (h : s.Gathers query r m) {g : Atom} (hg : g ∈ r.subgoals) : s.matching g = [] := by
  refine List.eq_nil_iff_forall_not_mem.mpr fun x hx => ?_
  obtain ⟨hr, hm⟩ := mem_matching.mp hx
  rw [h.leaves g hg x.1 hr] at hm
  cases hm

theorem notMem_subgoals (h : s.Gathers query r m) : query ∉ r.subgoals := fun hq => by
  have := h.leaves query hq r h.mem
  rw [h.unify] at this
  cases this

end Solver.Gathers

def Rule.entries (r : Rule) (m : Bindings) (query : Atom) (requester : NodeId) : List (Atom × PendingRequest) :=
  (query, .matched (r, m) query none (some requester)) :: r.subgoals.map fun g => (g, .unmatched g (some query) none)

namespace Turn

/-! ## The request -/

def Asks (gs : List Atom) (t u : Turn) : Prop := ∃ out, u.out = t.out ++ out ∧ ∀ o ∈ out, ∃ g ∈ gs, o.packet = .request g

variable {gs : List Atom} {query : Atom} {t u v : Turn}

theorem Asks.refl (gs : List Atom) (t : Turn) : Asks gs t t :=
  ⟨[], (List.append_nil _).symm, fun _ ho => absurd ho List.not_mem_nil⟩

theorem Asks.trans (h : Asks gs t u) (h' : Asks gs u v) : Asks gs t v := by
  obtain ⟨out, hout, hreq⟩ := h
  obtain ⟨out', hout', hreq'⟩ := h'
  exact ⟨out ++ out', by rw [hout', hout, List.append_assoc], fun o ho => (List.mem_append.mp ho).elim (hreq o) (hreq' o)⟩

/-- A subgoal that no rule matches is forwarded: the guard sees only the query above. -/
theorem solve_subgoal {g : Atom} (hm : t.solver.matching g = []) (hparent : t.solver.pending.parentOf query = none)
    (hne : query ≠ g) (depth : Nat) :
    solve (depth + 1) none (some query) g t = some (t.forward none (some query) g) := by
  have hclosed : t.solver.pending.Closed (· = query) := fun a ha b hb => by
    rw [ha, hparent] at hb
    cases hb
  have hguard : t.solver.pending.isAncestor g (some query) = false :=
    PendingTable.onChain_eq_false hclosed hne.symm _ fun a ha => (Option.some.inj ha).symm
  rw [solve, hguard, if_neg Bool.false_ne_true, hm]

theorem solve_subgoals (gs : List Atom) {s : Solver} {l : List Atom} (hl : ∀ g ∈ l, g ∈ gs ∧ s.matching g = [])
    (hquery : query ∉ l) (depth : Nat) :
    ∀ {t : Turn}, t.solver.rules = s.rules → t.solver.pending.parentOf query = none →
      ∃ u, l.foldlM (fun t g => (solve (depth + 1) none (some query) g t).map (·.2)) t = some u ∧
        u.solver = t.solver.withPending
          (t.solver.pending.insertAll (l.map fun g => (g, .unmatched g (some query) none))) ∧ Asks gs t u := by
  induction l with
  | nil => exact fun {t} _ _ => ⟨t, rfl, rfl, .refl gs t⟩
  | cons g l ih =>
    intro t hrules hparent
    obtain ⟨hg, hgm⟩ := hl g (List.mem_cons_self ..)
    have hne : query ≠ g := fun he => hquery (he ▸ List.mem_cons_self ..)
    have hsolve := solve_subgoal ((Solver.matching_congr hrules g).trans hgm) hparent hne depth
    obtain ⟨hsolver, out, hout, hreq⟩ := forward_eq t none (some query) g
    obtain ⟨u, hu, hus, hasks⟩ := ih (fun x hx => hl x (List.mem_cons_of_mem _ hx))
      (fun hq => hquery (List.mem_cons_of_mem _ hq)) (t := (t.forward none (some query) g).2)
      (by rw [hsolver]; exact hrules) (by
        rw [hsolver, PendingTable.parentOf]
        refine (congrArg (Option.bind · _) ?_).trans hparent
        exact (Table.get?_insert ..).trans (if_neg hne))
    refine ⟨u, ?_, ?_, Asks.trans ⟨out, hout, fun o ho => ⟨g, hg, hreq o ho⟩⟩ hasks⟩
    · rw [List.foldlM_cons, hsolve]
      exact hu
    · rw [hus, hsolver]
      rfl

variable {s : Solver} {r : Rule} {m : Bindings} (requester : NodeId)

/-- The rule is applied once, over whatever is pending. -/
theorem expand_gathers (h : s.Gathers query r m) (hrules : t.solver.rules = s.rules) :
    ∃ u, t.expand (fun g t => (solve 1 none (some query) g t).map (·.2)) (some requester) none query (r, m) = some u ∧
      u.solver = t.solver.withPending (t.solver.pending.insertAll (r.entries m query requester)) ∧ Asks r.subgoals t u := by
  obtain ⟨u, hu, hus, hasks⟩ := solve_subgoals r.subgoals (s := s) (fun g hg => ⟨hg, h.matching_subgoal hg⟩)
    h.notMem_subgoals 0 (t := t.record (.matched (r, m) query none (some requester))) hrules (by
      rw [PendingTable.parentOf]
      exact congrArg (Option.bind · _) (Table.get?_insert_self ..))
  refine ⟨u, ?_, hus, hasks⟩
  rw [expand, if_neg h.subgoals]
  exact hu

/-- It is applied again if it was added again, with the same outcome. -/
theorem expand_gathers_all (h : s.Gathers query r m) {l : List (Rule × Bindings)} (hl : ∀ x ∈ l, x = (r, m)) :
    ∀ {t : Turn}, t.solver.rules = s.rules →
      ∃ u, l.foldlM (expand (fun g t => (solve 1 none (some query) g t).map (·.2)) (some requester) none query) t = some u ∧
        (l ≠ [] → u.solver = t.solver.withPending (t.solver.pending.insertAll (r.entries m query requester))) ∧
          Asks r.subgoals t u := by
  induction l with
  | nil => exact fun {t} _ => ⟨t, rfl, fun hnil => absurd rfl hnil, .refl _ t⟩
  | cons x l ih =>
    intro t hrules
    obtain rfl := hl x (List.mem_cons_self ..)
    obtain ⟨u, hu, hus, hasks⟩ := expand_gathers requester h hrules
    obtain ⟨v, hv, hvs, hasks'⟩ := ih (fun x hx => hl x (List.mem_cons_of_mem _ hx)) (t := u) (by rw [hus]; exact hrules)
    refine ⟨v, ?_, fun _ => ?_, hasks.trans hasks'⟩
    · rw [List.foldlM_cons, hu]
      exact hv
    · by_cases hnil : l = []
      · subst hnil
        cases hv
        exact hus
      · rw [hvs hnil, hus]
        exact congrArg t.solver.withPending (Table.insertAll_insertAll ..)

end Turn

namespace Solver.Gathers

variable {s : Solver} {query : Atom} {r : Rule} {m : Bindings}

/-- A request leaves the query and the rule's subgoals pending; the subgoals may be asked of neighbours. -/
theorem handles_request (h : s.Gathers query r m) (requester : NodeId) :
    ∃ t, s.Handles requester (.request query) t ∧
      t.solver = s.withPending (s.pending.insertAll (r.entries m query requester)) ∧
        ∀ o ∈ t.out, ∃ g ∈ r.subgoals, o.packet = .request g := by
  obtain ⟨hne, hall⟩ := h.matching
  obtain ⟨u, hu, hus, out, hout, hreq⟩ :=
    Turn.expand_gathers_all requester h hall (t := (Turn.begin s).note (.packetReceived s.id .request)) rfl
  have hguard : ¬ ((Turn.begin s).note (.packetReceived s.id .request)).solver.pending.isAncestor query none :=
    Bool.false_ne_true
  have hsolve : ((Turn.begin s).note (.packetReceived s.id .request)).solve 2 (some requester) none query =
      some (.decomposed (s.matching query).length, u) := by
    rw [Turn.solve, if_neg hguard]
    split
    · rename_i hnil
      exact absurd hnil hne
    · exact congrArg (Option.map _) hu
  refine ⟨u.note (.pendingRequests s.id u.solver.pending.size), ⟨2, ?_⟩, hus hne, fun o ho => hreq o ?_⟩
  · exact congrArg (Option.map _) (congrArg (Option.map _) hsolve)
  · rwa [← List.nil_append out, ← show _ = [] ++ out from hout]

/-! ## The answers -/

def expansion (query : Atom) (r : Rule) (m : Bindings) : Expansion := .node query r m (r.subgoals.map .leaf)

theorem atoms_expansion : (expansion query r m).atoms = query :: r.subgoals := by
  rw [expansion, Expansion.atoms_node, List.flatMap_map]
  exact congrArg (query :: ·) (List.flatMap_singleton' _)

theorem leaves_expansion : (expansion query r m).leaves = r.subgoals := by
  rw [expansion, Expansion.leaves_node, List.flatMap_map]
  exact List.flatMap_singleton' _

theorem nodup_expansion (h : s.Gathers query r m) : (expansion query r m).atoms.Nodup :=
  atoms_expansion ▸ List.nodup_cons.mpr ⟨h.notMem_subgoals, h.nodup⟩

/-- Nothing is answered yet when the request has been taken in. -/
theorem entries_expansion (h : s.Gathers query r m) (requester : NodeId) :
    (expansion query r m).entries [] none (some requester) = r.entries m query requester := by
  have hnode : ¬ (expansion query r m).Answered [] := fun ha => by
    obtain ⟨g, hg⟩ := List.exists_mem_of_ne_nil _ h.subgoals
    exact Expansion.leaf_open g (Expansion.answered_node.mp ha _ (List.mem_map_of_mem hg))
  have hall : (r.subgoals.map Expansion.leaf).filter (fun x => ¬ x.Answered []) = r.subgoals.map Expansion.leaf :=
    List.filter_eq_self.mpr fun _ hx => decide_eq_true (Expansion.leaves_open hx)
  have hleaf : (fun g => (Expansion.leaf g).entries [] (some query) none) =
      fun g => [(g, PendingRequest.unmatched g (some query) none)] :=
    funext fun g => Expansion.entries_leaf (Expansion.leaf_open g)
  rw [expansion, Expansion.entries_node hnode, Rule.entries, List.flatMap_map]
  congr 1
  · rw [Expansion.waiting, hall, List.length_nil, Expansion.merged_zero, Expansion.filter_answered,
      List.map_map, PendingRequest.matched, Expansion.eraseDups_eq_self h.nodup]
    congr 2
    exact List.map_id _
  · exact (congrArg r.subgoals.flatMap hleaf).trans List.map_eq_flatMap.symm

/-- Answers to all subgoals, one after another, make one reply at the last of them. -/
theorem handles_responses (h : s.Gathers query r m) (requester : NodeId)
    (packets : List (NodeId × (Atom × Bindings))) (hperm : (packets.map (·.2.1)).Perm r.subgoals) :
    ∃ outs, (s.withPending (s.pending.insertAll (r.entries m query requester))).HandlesAll
        (packets.map fun p => (p.1, .response p.2.1 p.2.2)) outs
        (s.withPending ((query :: r.subgoals).foldl Table.erase s.pending)) ∧
      outs = List.replicate (r.subgoals.length - 1) [] ++
        [[⟨requester, .response query (r.conclude m (Expansion.gathered (packets.map (·.2))))⟩]] := by
  -- the entries hide whatever was pending for these queries
  have hclear : Expansion.pendingAfter (s.withPending ((query :: r.subgoals).foldl Table.erase s.pending)) requester []
      (expansion query r m) = s.withPending (s.pending.insertAll (r.entries m query requester)) := by
    have hkeys : (r.entries m query requester).map (·.1) = query :: r.subgoals := by
      rw [Rule.entries, List.map_cons, List.map_map]
      exact congrArg (query :: ·) (List.map_id _)
    rw [Expansion.pendingAfter, h.entries_expansion]
    exact congrArg s.withPending (Table.insertAll_foldl_erase (fun _ hq => hkeys ▸ hq) s.pending)
  have hne : packets ≠ [] := fun hnil => h.subgoals (by
    rw [hnil] at hperm
    exact hperm.symm.eq_nil)
  have hdistinct : ((packets.map (·.2)).map (·.1)).Nodup := by
    rw [List.map_map]
    exact hperm.nodup_iff.mpr h.nodup
  have habsent : ∀ b ∈ (expansion query r m).atoms, ((query :: r.subgoals).foldl Table.erase s.pending).get? b = none :=
    fun b hb => by rw [Table.get?_foldl_erase, if_pos (atoms_expansion ▸ hb)]
  obtain ⟨outs, houts, he⟩ := @Expansion.handlesAll_responses
    (s.withPending ((query :: r.subgoals).foldl Table.erase s.pending)) (expansion query r m) requester [] h.nodup_expansion
    habsent packets hne (leaves_expansion.symm ▸ hperm)
  refine ⟨outs, hclear ▸ houts, he.trans ?_⟩
  have hlen : packets.length = r.subgoals.length := by rw [← hperm.length_eq, List.length_map]
  have hvalue : (expansion query r m).value (packets.map (·.2)) = r.conclude m (Expansion.gathered (packets.map (·.2))) := by
    rw [expansion, Expansion.value, Expansion.merged_leaves h.nodup hdistinct]
    rw [List.map_map]
    exact hperm.subset
  rw [hlen, List.nil_append, hvalue]
  rfl

/-- However the answers to a rule's subgoals come in, the requester gets one reply, when the last of them does.
    Its bindings depend on the order only if two answers give a variable that the rule uses different values. -/
theorem gathers_once (h : s.Gathers query r m) (requester : NodeId) :
    ∃ t, s.Handles requester (.request query) t ∧ (∀ o ∈ t.out, ∃ g ∈ r.subgoals, o.packet = .request g) ∧
      ∀ packets : List (NodeId × (Atom × Bindings)), (packets.map (·.2.1)).Perm r.subgoals →
        ∃ outs s', t.solver.HandlesAll (packets.map fun p => (p.1, .response p.2.1 p.2.2)) outs s' ∧
          outs = List.replicate (r.subgoals.length - 1) [] ++
            [[⟨requester, .response query (r.conclude m (Expansion.gathered (packets.map (·.2))))⟩]] ∧
          ((∀ v, r.Uses m v → Expansion.AgreeOn v (packets.map (·.2))) →
            ∀ packets' : List (NodeId × (Atom × Bindings)), (packets'.map (·.2)).Perm (packets.map (·.2)) →
              t.solver.HandlesAll (packets'.map fun p => (p.1, .response p.2.1 p.2.2)) outs s') := by
  obtain ⟨t, ht, hsolver, hreq⟩ := h.handles_request requester
  refine ⟨t, ht, hreq, fun packets hperm => ?_⟩
  obtain ⟨outs, houts, he⟩ := h.handles_responses requester packets hperm
  refine ⟨outs, _, hsolver ▸ houts, he, fun hagree packets' hperm' => ?_⟩
  have hkeys : (packets'.map (·.2.1)).Perm r.subgoals := by
    have := hperm'.map (·.1)
    rw [List.map_map, List.map_map] at this
    exact this.trans hperm
  obtain ⟨outs', houts', he'⟩ := h.handles_responses requester packets' hkeys
  have hsame : r.conclude m (Expansion.gathered (packets'.map (·.2))) =
      r.conclude m (Expansion.gathered (packets.map (·.2))) :=
    Rule.conclude_congr fun v hv => Expansion.get?_gathered_perm hperm' (hagree v hv)
  rw [hsame, ← he] at he'
  rw [hsolver, ← he']
  exact houts'

end Solver.Gathers

namespace Solver

def tripRule : Rule := ⟨⟨"trip", ["?X"]⟩, [⟨"flight", ["?X"]⟩, ⟨"hotel", ["?X"]⟩]⟩

def planner : Solver := { Solver.create "planner" .standard with rules := [tripRule] }

theorem planner_gathers : planner.Gathers ⟨"trip", ["?w"]⟩ tripRule (.ofList [("?X", "?w")]) where
  mem := List.mem_singleton_self _
  unify := by decide +kernel
  only r hr _ := List.mem_singleton.mp hr
  subgoals := by decide
  nodup := by decide
  leaves g hg r hr := by
    obtain rfl := List.mem_singleton.mp hr
    rcases List.mem_pair.mp hg with rfl | rfl <;> decide +kernel

/-- A flight and a hotel in the same place: the trip goes there, whichever answer comes first. -/
theorem planner_gathers_once :
    ∃ t, planner.Handles "user" (.request ⟨"trip", ["?w"]⟩) t ∧
      ∀ packets : List (NodeId × (Atom × Bindings)),
        (packets.map (·.2)).Perm [(⟨"flight", ["?X"]⟩, .ofList [("?X", "rome"), ("?at", "noon")]),
          (⟨"hotel", ["?X"]⟩, .ofList [("?X", "rome"), ("?at", "centre")])] →
        ∃ s', t.solver.HandlesAll (packets.map fun p => (p.1, .response p.2.1 p.2.2))
          [[], [⟨"user", .response ⟨"trip", ["?w"]⟩ (.ofList [("?w", "rome")])⟩]] s' := by
  obtain ⟨t, ht, -, hall⟩ := planner_gathers.gathers_once "user"
  obtain ⟨outs, s', -, he, horder⟩ := hall
    [("air", ⟨"flight", ["?X"]⟩, .ofList [("?X", "rome"), ("?at", "noon")]),
      ("inn", ⟨"hotel", ["?X"]⟩, .ofList [("?X", "rome"), ("?at", "centre")])] (by decide)
  obtain rfl : outs = [[], [⟨"user", .response ⟨"trip", ["?w"]⟩ (.ofList [("?w", "rome")])⟩]] :=
    he.trans (by decide +kernel)
  refine ⟨t, ht, fun packets hperm => ⟨s', horder (fun v hv a ha a' ha' w w' hw hw' => ?_) packets hperm⟩⟩
  -- the trip's place is the one variable that the rule uses
  obtain ⟨c, hc, -⟩ := hv.resolve_right fun ⟨pattern, hp, _⟩ => by cases hp
  obtain rfl : v = "?X" := by
    rcases Table.mem_or_of_get?_insertAll hc with hmem | hmem
    · exact (Prod.mk.inj (List.mem_singleton.mp hmem)).1
    · cases hmem
  have hrome : ∀ a ∈ [((⟨"flight", ["?X"]⟩ : Atom), (Table.ofList [("?X", "rome"), ("?at", "noon")] : Bindings)),
      (⟨"hotel", ["?X"]⟩, .ofList [("?X", "rome"), ("?at", "centre")])], a.2.get? "?X" = some "rome" := by decide +kernel
  exact Option.some.inj ((hw.symm.trans (hrome a ha)).trans ((hrome a' ha').symm.trans hw'))

/-- A flight and a hotel in different places: the trip goes where the last answer says. -/
theorem later_answer_stays :
    planner.Gathers ⟨"trip", ["?w"]⟩ tripRule (.ofList [("?X", "?w")]) ∧
      ∃ t, planner.Handles "user" (.request ⟨"trip", ["?w"]⟩) t ∧
        (∃ s', t.solver.HandlesAll [("air", .response ⟨"flight", ["?X"]⟩ (.ofList [("?X", "rome")])),
            ("inn", .response ⟨"hotel", ["?X"]⟩ (.ofList [("?X", "oslo")]))]
          [[], [⟨"user", .response ⟨"trip", ["?w"]⟩ (.ofList [("?w", "oslo")])⟩]] s') ∧
        ∃ s', t.solver.HandlesAll [("inn", .response ⟨"hotel", ["?X"]⟩ (.ofList [("?X", "oslo")])),
            ("air", .response ⟨"flight", ["?X"]⟩ (.ofList [("?X", "rome")]))]
          [[], [⟨"user", .response ⟨"trip", ["?w"]⟩ (.ofList [("?w", "rome")])⟩]] s' := by
  obtain ⟨t, ht, hsolver, -⟩ := planner_gathers.handles_request "user"
  obtain ⟨outs, houts, he⟩ := planner_gathers.handles_responses "user"
    [("air", ⟨"flight", ["?X"]⟩, .ofList [("?X", "rome")]), ("inn", ⟨"hotel", ["?X"]⟩, .ofList [("?X", "oslo")])] (by decide)
  obtain ⟨outs', houts', he'⟩ := planner_gathers.handles_responses "user"
    [("inn", ⟨"hotel", ["?X"]⟩, .ofList [("?X", "oslo")]), ("air", ⟨"flight", ["?X"]⟩, .ofList [("?X", "rome")])] (by decide)
  obtain rfl : outs = [[], [⟨"user", .response ⟨"trip", ["?w"]⟩ (.ofList [("?w", "oslo")])⟩]] :=
    he.trans (by decide +kernel)
  obtain rfl : outs' = [[], [⟨"user", .response ⟨"trip", ["?w"]⟩ (.ofList [("?w", "rome")])⟩]] :=
    he'.trans (by decide +kernel)
  rw [hsolver.symm] at houts houts'
  exact ⟨planner_gathers, t, ht, ⟨_, houts⟩, _, houts'⟩

end Solver

end QueryNet
