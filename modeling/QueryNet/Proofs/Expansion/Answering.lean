/-
  QueryNet.Proofs.Expansion.Answering — how the answers to the leaves of a query's
  expansion make the answer to the query.

  `entries` are the pending entries of an expansion after some answers: one for each
  query that is not answered yet, waiting for those of its subgoals that are not, and
  holding the values of the others. `standing` is what the expansion has come to:
  these entries, or, once its query is answered, an answer passed on.

  Proved: one more answer takes an expansion from its standing to the next
  (`deliver_entries`, by induction on the tree).
-/

import QueryNet.Proofs.Delivery
import QueryNet.Proofs.Expansion

namespace QueryNet.Expansion

def waiting (as : Answers) (parent : Option Atom) (origin : Option NodeId) (q : Atom) (r : Rule) (m : Bindings)
    (subs : List Expansion) : PendingRequest :=
  ⟨q, parent, (subs.filter fun x => ¬ x.Answered as).map root, merged as.length (valuesOf as subs), r.composition,
    some m, origin⟩

mutual

def entries (as : Answers) (parent : Option Atom) (origin : Option NodeId) : Expansion → List (Atom × PendingRequest)
  | leaf q => if (leaf q).Answered as then [] else [(q, ⟨q, parent, [], ∅, none, none, origin⟩)]
  | node q r m subs =>
    if (node q r m subs).Answered as then []
    else (q, waiting as parent origin q r m subs) :: entriesOf as q subs

def entriesOf (as : Answers) (parent : Atom) : List Expansion → List (Atom × PendingRequest)
  | [] => []
  | x :: xs => entries as (some parent) none x ++ entriesOf as parent xs

end

/-- What an expansion has come to in a table without its queries. -/
def standing (as : Answers) (parent : Option Atom) (origin : Option NodeId) (p : PendingTable) (x : Expansion) :
    PendingTable.Delivery :=
  if x.Answered as then p.pass parent origin x.root (x.value as)
  else ⟨.consumed, p.insertAll (x.entries as parent origin), none⟩

variable {as : Answers} {parent : Option Atom} {origin : Option NodeId}

theorem answer_waiting (q : Atom) (r : Rule) (m : Bindings) (subs : List Expansion) (b : Bindings) :
    (waiting as parent origin q r m subs).answer b = r.conclude m b := by
  unfold PendingRequest.answer Rule.conclude waiting
  cases r.composition <;> rfl

/-! ## The entries -/

theorem entriesOf_eq (as : Answers) (q : Atom) (xs : List Expansion) :
    entriesOf as q xs = xs.flatMap (entries as (some q) none) := by
  induction xs with
  | nil => rfl
  | cons x xs ih => rw [entriesOf, ih, List.flatMap_cons]

theorem entries_of_answered {x : Expansion} (h : x.Answered as) : x.entries as parent origin = [] := by
  cases x with
  | leaf q => rw [entries, if_pos h]
  | node q r m subs => rw [entries, if_pos h]

theorem entries_leaf {q : Atom} (h : ¬ (leaf q).Answered as) :
    (leaf q).entries as parent origin = [(q, ⟨q, parent, [], ∅, none, none, origin⟩)] := by rw [entries, if_neg h]

theorem entries_node {q : Atom} {r : Rule} {m : Bindings} {subs : List Expansion} (h : ¬ (node q r m subs).Answered as) :
    (node q r m subs).entries as parent origin =
      (q, waiting as parent origin q r m subs) :: subs.flatMap (entries as (some q) none) := by
  rw [entries, if_neg h, entriesOf_eq]

/-- The entries' queries are queries of the tree, in the tree's order. -/
theorem keys_entries_sublist (x : Expansion) : ((x.entries as parent origin).map (·.1)).Sublist x.atoms := by
  induction x generalizing parent origin with
  | leaf q =>
    by_cases h : (leaf q).Answered as
    · rw [entries_of_answered h]; exact List.nil_sublist _
    · rw [entries_leaf h]; exact List.Sublist.refl _
  | node q r m subs ih =>
    by_cases h : (node q r m subs).Answered as
    · rw [entries_of_answered h]; exact List.nil_sublist _
    · rw [entries_node h, atoms_node, List.map_cons, List.map_flatMap]
      exact (List.Sublist.flatMap_right subs fun x hx => ih x hx).cons_cons _

theorem keys_flatMap_entries_sublist (q : Atom) (xs : List Expansion) :
    ((xs.flatMap (entries as (some q) none)).map (·.1)).Sublist (xs.flatMap atoms) := by
  rw [List.map_flatMap]
  exact List.Sublist.flatMap_right xs fun x _ => keys_entries_sublist x

/-! ## Answers to other queries -/

variable {a : Atom × Bindings}

theorem answered_append_iff {x : Expansion} (h : a.1 ∉ x.leaves) : x.Answered (as ++ [a]) ↔ x.Answered as := by
  refine ⟨fun hx => answered_iff.mpr fun l hl => ?_, fun hx => hx.append [a]⟩
  rcases List.mem_append.mp (List.map_append ▸ answered_iff.mp hx l hl) with h' | h'
  · exact h'
  · obtain rfl : l = a.1 := by simpa using h'
    exact absurd hl h

theorem filter_completed_eq_nil {xs : List Expansion} (h : ∀ x ∈ xs, a.1 ∉ x.leaves) :
    (xs.filter fun x => ¬ x.Answered as ∧ x.Answered (as ++ [a])) = [] := by
  refine List.filter_eq_nil_iff.mpr fun x hx hd => ?_
  obtain ⟨h₁, h₂⟩ := of_decide_eq_true hd
  exact h₁ ((answered_append_iff (h x hx)).mp h₂)

theorem filter_unanswered_append {xs : List Expansion} (h : ∀ x ∈ xs, a.1 ∉ x.leaves) :
    (xs.filter fun x => ¬ x.Answered (as ++ [a])) = xs.filter fun x => ¬ x.Answered as :=
  List.filter_congr fun x hx => by simp only [answered_append_iff (h x hx)]

/-- An answer to a query elsewhere leaves an expansion's entries as they are. -/
theorem entries_append {x : Expansion} (h : a.1 ∉ x.leaves) :
    x.entries (as ++ [a]) parent origin = x.entries as parent origin := by
  induction x generalizing parent origin with
  | leaf q =>
    by_cases hx : (leaf q).Answered as
    · rw [entries_of_answered hx, entries_of_answered (hx.append _)]
    · rw [entries_leaf hx, entries_leaf (mt (answered_append_iff h).mp hx)]
  | node q r m subs ih =>
    have hs : ∀ x ∈ subs, a.1 ∉ x.leaves := fun x hx hl => h (by
      rw [leaves_node]; exact List.mem_flatMap.mpr ⟨x, hx, hl⟩)
    by_cases hx : (node q r m subs).Answered as
    · rw [entries_of_answered hx, entries_of_answered (hx.append _)]
    · rw [entries_node hx, entries_node (mt (answered_append_iff h).mp hx)]
      have hw : waiting (as ++ [a]) parent origin q r m subs = waiting as parent origin q r m subs := by
        unfold waiting
        rw [merged_append, filter_completed_eq_nil hs, List.foldl_nil, filter_unanswered_append hs]
      have he : subs.flatMap (entries (as ++ [a]) (some q) none) = subs.flatMap (entries as (some q) none) := by
        rw [List.flatMap_def, List.flatMap_def, List.map_congr_left fun x hx => ih x hx (hs x hx)]
      rw [hw, he]

/-! ## One more answer -/

/-- An answer to the one subgoal that it concerns adds that subgoal's value, if it completes it. -/
theorem merged_append_of_mem {pre post : List Expansion} {k : Expansion} (hpre : ∀ x ∈ pre, a.1 ∉ x.leaves)
    (hpost : ∀ x ∈ post, a.1 ∉ x.leaves) (hk : ¬ k.Answered as) :
    merged (as ++ [a]).length (valuesOf (as ++ [a]) (pre ++ k :: post)) =
      if k.Answered (as ++ [a]) then (merged as.length (valuesOf as (pre ++ k :: post))).merge (k.value (as ++ [a]))
      else merged as.length (valuesOf as (pre ++ k :: post)) := by
  rw [merged_append, List.filter_append, List.filter_cons, filter_completed_eq_nil hpre, filter_completed_eq_nil hpost]
  by_cases h : k.Answered (as ++ [a])
  · simp [hk, h]
  · simp [h]

theorem flatMap_middle_perm {β : Type} (f : Expansion → List β) (pre post : List Expansion) (k : Expansion) :
    ((pre ++ k :: post).flatMap f).Perm (f k ++ (pre ++ post).flatMap f) :=
  List.Perm.flatMap_right f List.perm_middle

/-- Expansions without a common query. -/
theorem apart {pre post : List Expansion} {k : Expansion} (h : ((pre ++ k :: post).flatMap atoms).Nodup) :
    k.atoms.Nodup ∧ ∀ x ∈ pre ++ post, ∀ b ∈ x.atoms, b ∉ k.atoms := by
  obtain ⟨hk, -, hd⟩ := List.nodup_append.mp ((flatMap_middle_perm atoms pre post k).nodup_iff.mp h)
  exact ⟨hk, fun x hx b hb hbk => hd b hbk b (List.mem_flatMap.mpr ⟨x, hx, hb⟩) rfl⟩

theorem awaited_waiting_eq_nil {q : Atom} {r : Rule} {m : Bindings} {subs : List Expansion} :
    (waiting as parent origin q r m subs).awaited = [] ↔ (node q r m subs).Answered as := by
  rw [answered_node, waiting, List.map_eq_nil_iff, List.filter_eq_nil_iff]
  exact forall₂_congr fun x _ => by simp

theorem value_node {q : Atom} {r : Rule} {m : Bindings} {subs : List Expansion} :
    (node q r m subs).value as = r.conclude m (waiting as parent origin q r m subs).results := rfl

section Node

/-! ### One subgoal among others -/

variable {q : Atom} {r : Rule} {m : Bindings} {pre post : List Expansion} {k : Expansion}
  (hd : (node q r m (pre ++ k :: post)).atoms.Nodup)

def others (as : Answers) (q : Atom) (pre post : List Expansion) : List (Atom × PendingRequest) :=
  (pre ++ post).flatMap (entries as (some q) none)

include hd in
theorem nodup_subs : ((pre ++ k :: post).flatMap atoms).Nodup := (List.nodup_cons.mp (atoms_node q r m _ ▸ hd)).2

include hd in
theorem root_notMem_others : q ∉ (others as q pre post).map (·.1) := by
  intro h
  have hq := (List.nodup_cons.mp (atoms_node q r m _ ▸ hd)).1
  have hsub := (keys_flatMap_entries_sublist q (pre ++ post)).subset h
  exact hq ((flatMap_middle_perm atoms pre post k).mem_iff.mpr (List.mem_append_right _ hsub))

include hd in
/-- The entries of an expansion, those of one subgoal put in last. -/
theorem insertAll_entries_node (h : ¬ (node q r m (pre ++ k :: post)).Answered as) (p : PendingTable) :
    p.insertAll ((node q r m (pre ++ k :: post)).entries as parent origin) =
      ((p.insertAll (others as q pre post)).insert q (waiting as parent origin q r m (pre ++ k :: post))).insertAll
        (k.entries as (some q) none) := by
  have hperm : ((node q r m (pre ++ k :: post)).entries as parent origin).Perm
      ((q, waiting as parent origin q r m (pre ++ k :: post)) :: others as q pre post ++ k.entries as (some q) none) := by
    rw [entries_node h]
    exact ((flatMap_middle_perm _ pre post k).trans List.perm_append_comm).cons _
  rw [Table.insertAll_perm hperm ((keys_entries_sublist _).nodup hd), Table.insertAll_append, Table.insertAll_cons,
    Table.insertAll_insert (root_notMem_others hd)]

include hd in
theorem get?_others_eq_none {p : PendingTable} (hp : ∀ b ∈ (node q r m (pre ++ k :: post)).atoms, p.get? b = none)
    (e : PendingRequest) : ∀ b ∈ k.atoms, ((p.insertAll (others as q pre post)).insert q e).get? b = none := by
  intro b hb
  have hmem : b ∈ (pre ++ k :: post).flatMap atoms := List.mem_flatMap.mpr ⟨k, by simp, hb⟩
  have hbq : b ≠ q := fun h => (List.nodup_cons.mp (atoms_node q r m _ ▸ hd)).1 (h ▸ hmem)
  have hbo : b ∉ (others as q pre post).map (·.1) := fun h => by
    obtain ⟨x, hx, h⟩ := List.mem_flatMap.mp ((keys_flatMap_entries_sublist q (pre ++ post)).subset h)
    exact (apart (nodup_subs hd)).2 x hx b h hb
  rw [Table.get?_insert, if_neg hbq, Table.get?_insertAll_of_notMem hbo]
  exact hp b (atoms_node q r m _ ▸ List.mem_cons_of_mem _ hmem)

include hd in
/-- Without the subgoal that was answered, a query waits for the other ones. -/
theorem filter_awaited (hk : ¬ k.Answered as) :
    (waiting as parent origin q r m (pre ++ k :: post)).awaited.filter (· ≠ k.root) =
      ((pre ++ post).filter fun x => ¬ x.Answered as).map root := by
  have hne : ∀ b ∈ ((pre ++ post).filter fun x => ¬ x.Answered as).map root, decide (b ≠ k.root) = true := by
    intro b hb
    obtain ⟨x, hx, rfl⟩ := List.mem_map.mp hb
    exact decide_eq_true fun he =>
      (apart (nodup_subs hd)).2 x (List.mem_filter.mp hx).1 _ x.root_mem_atoms (he ▸ k.root_mem_atoms)
  simp only [waiting, List.filter_append, List.map_append, List.filter_cons, hk, not_false_eq_true, decide_true, if_true,
    List.map_cons, ne_eq, not_true_eq_false, decide_false, Bool.false_eq_true, if_false] at hne ⊢
  rw [← List.filter_append, List.filter_eq_self.mpr hne]

section Answer

variable (hother : ∀ x ∈ pre ++ post, a.1 ∉ x.leaves) (hk : ¬ k.Answered as)
include hother hk

/-- An answer that does not complete its subgoal leaves the entry above as it is. -/
theorem waiting_append_of_not (h : ¬ k.Answered (as ++ [a])) :
    waiting (as ++ [a]) parent origin q r m (pre ++ k :: post) = waiting as parent origin q r m (pre ++ k :: post) := by
  have hpre : ∀ x ∈ pre, a.1 ∉ x.leaves := fun x hx => hother x (List.mem_append_left _ hx)
  have hpost : ∀ x ∈ post, a.1 ∉ x.leaves := fun x hx => hother x (List.mem_append_right _ hx)
  unfold waiting
  rw [merged_append_of_mem hpre hpost hk, if_neg h]
  simp only [List.filter_append, List.filter_cons, filter_unanswered_append hpre, filter_unanswered_append hpost, h, hk]

include hd in
/-- One that does adds the subgoal's value, and there is one subgoal less to wait for. -/
theorem waiting_append_of (h : k.Answered (as ++ [a])) :
    waiting (as ++ [a]) parent origin q r m (pre ++ k :: post) =
      { waiting as parent origin q r m (pre ++ k :: post) with
        results := (waiting as parent origin q r m (pre ++ k :: post)).results.merge (k.value (as ++ [a]))
        awaited := (waiting as parent origin q r m (pre ++ k :: post)).awaited.filter (· ≠ k.root) } := by
  have hpre : ∀ x ∈ pre, a.1 ∉ x.leaves := fun x hx => hother x (List.mem_append_left _ hx)
  have hpost : ∀ x ∈ post, a.1 ∉ x.leaves := fun x hx => hother x (List.mem_append_right _ hx)
  rw [filter_awaited hd hk]
  unfold waiting
  rw [merged_append_of_mem hpre hpost hk, if_pos h]
  simp only [List.filter_append, List.filter_cons, filter_unanswered_append hpre, filter_unanswered_append hpost, h]
  simp

omit hk in
theorem others_append : others (as ++ [a]) q pre post = others as q pre post := by
  simp only [others, List.flatMap_def, List.map_congr_left fun x hx => entries_append (hother x hx)]

include hd in
/-- What a subgoal comes to, over the entries of the others, is what the query comes to. -/
theorem standing_node {p : PendingTable} (hp : p.get? q = none) :
    k.standing (as ++ [a]) (some q) none
        ((p.insertAll (others as q pre post)).insert q (waiting as parent origin q r m (pre ++ k :: post))) =
      (node q r m (pre ++ k :: post)).standing (as ++ [a]) parent origin p := by
  have hsub : k.root ≠ q := fun h =>
    (List.nodup_cons.mp (atoms_node q r m _ ▸ hd)).1 (List.mem_flatMap.mpr ⟨k, by simp, h ▸ k.root_mem_atoms⟩)
  have hq : (p.insertAll (others as q pre post)).get? q = none := by
    rw [Table.get?_insertAll_of_notMem (root_notMem_others hd)]; exact hp
  unfold standing
  by_cases hka : k.Answered (as ++ [a])
  · rw [if_pos hka]
    have hw := @waiting_append_of as parent origin a q r m pre post k hd hother hk hka
    by_cases hnode : (node q r m (pre ++ k :: post)).Answered (as ++ [a])
    · have hlast := congrArg PendingRequest.awaited hw
      rw [awaited_waiting_eq_nil.mpr hnode] at hlast
      have hnil : others as q pre post = [] := by
        rw [← others_append hother]
        refine List.flatMap_eq_nil_iff.mpr fun x hx => entries_of_answered (answered_node.mp hnode x ?_)
        simp only [List.mem_append, List.mem_cons] at hx ⊢
        exact hx.imp id Or.inr
      rw [if_pos hnode, PendingTable.pass, PendingTable.deliver_insert_last hq hsub hlast.symm, answer_waiting, hnil,
        @value_node _ parent origin, hw]
      unfold PendingTable.pass waiting
      cases parent <;> rfl
    · have hne : (waiting (as ++ [a]) parent origin q r m (pre ++ k :: post)).awaited ≠ [] :=
        mt awaited_waiting_eq_nil.mp hnode
      rw [hw] at hne
      rw [if_neg hnode, PendingTable.pass, PendingTable.deliver_insert_wait hsub hne,
        insertAll_entries_node hd hnode, entries_of_answered hka, Table.insertAll_nil, hw, others_append hother]
  · have hnode : ¬ (node q r m (pre ++ k :: post)).Answered (as ++ [a]) := fun h =>
      hka (answered_node.mp h k (by simp))
    rw [if_neg hka, if_neg hnode, insertAll_entries_node hd hnode, waiting_append_of_not hother hk hka,
      others_append hother]

end Answer

end Node

theorem value_leaf_append (hn : a.1 ∉ as.map (·.1)) : (leaf a.1).value (as ++ [a]) = a.2 := by
  have : as.lookup a.1 = none := List.lookup_eq_none_iff.mpr fun b hb => by
    simp only [bne_iff_ne, ne_eq]
    exact fun he => hn (List.mem_map.mpr ⟨b, hb, he.symm⟩)
  simp only [value, List.lookup_append, this, Option.none_or]
  rw [List.lookup_cons_self, Option.getD_some]

/-- One more answer to a leaf takes an expansion from its entries to what it comes to with that answer. -/
theorem deliver_entries {x : Expansion} (hd : x.atoms.Nodup) (ha : a.1 ∈ x.leaves) (hn : a.1 ∉ as.map (·.1))
    {p : PendingTable} (hp : ∀ b ∈ x.atoms, p.get? b = none) :
    PendingTable.deliver (p.insertAll (x.entries as parent origin)) a.1 a.2 a.1 =
      x.standing (as ++ [a]) parent origin p := by
  induction x generalizing parent origin p with
  | leaf q =>
    obtain rfl : a.1 = q := List.mem_singleton.mp ha
    have h₀ : ¬ (leaf a.1).Answered as := fun h => hn (answered_iff.mp h _ ha)
    have h₁ : (leaf a.1).Answered (as ++ [a]) := answered_iff.mpr fun l hl => by
      obtain rfl := List.mem_singleton.mp hl
      simp
    have hq : p.get? a.1 = none := hp _ (root_mem_atoms (leaf a.1))
    rw [entries_leaf h₀, Table.insertAll_cons, Table.insertAll_nil, PendingTable.deliver_insert_self hq, standing,
      if_pos h₁, value_leaf_append hn]
    rfl
  | node q r m subs ih =>
    have hnode : ¬ (node q r m subs).Answered as := fun h => hn (answered_iff.mp h _ ha)
    obtain ⟨k, hmem, hak⟩ := List.mem_flatMap.mp (leaves_node q r m subs ▸ ha)
    have hk : ¬ k.Answered as := fun h => hn (answered_iff.mp h _ hak)
    obtain ⟨pre, post, rfl⟩ := List.append_of_mem hmem
    obtain ⟨hkd, hapart⟩ := apart (nodup_subs hd)
    have hother : ∀ x ∈ pre ++ post, a.1 ∉ x.leaves := fun x hx hl =>
      hapart x hx _ (x.leaves_sublist_atoms.subset hl) (k.leaves_sublist_atoms.subset hak)
    rw [insertAll_entries_node hd hnode, ih k hmem hkd hak (get?_others_eq_none hd hp _),
      standing_node hd hother hk (hp q (root_mem_atoms (node q r m _)))]

end QueryNet.Expansion
