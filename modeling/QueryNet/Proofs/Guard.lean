/-
  QueryNet.Proofs.Guard — what the guard against cyclic queries achieves.

  A query that equals one of those it is needed for is not decomposed again, as far as
  the links of the pending table still lead there. Answers that rules give at once
  take entries out, and their links with them, while the queries they belong to are
  still being decomposed. The entry of a query goes only when all subgoals of the rule
  that is tried are answered (`Held`), so a link goes missing only where a subgoal
  closes a query (`Closes`): the rule for it needs no other node.

  Proved: if no ring of three or more queries has such a place (`Guarded`), the guard
  finds every repeated query (`isAncestor_of_mem`), and decomposition ends, in any
  state of the tables, no deeper than there are different subgoals (`solve_finishes`).
-/

import Mathlib.Data.List.Chain
import Mathlib.Logic.Relation
import QueryNet.Proofs.Delivery
import QueryNet.Proofs.Handling

namespace QueryNet

namespace Solver

def AskedBy (s : Solver) (b a : Atom) : Prop := ∃ m ∈ s.matching a, b ∈ m.1.subgoals

inductive Instant (s : Solver) : Atom → Prop
  | intro {a : Atom} {m : Rule × Bindings} : m ∈ s.matching a → (∀ g ∈ m.1.subgoals, Instant s g) → Instant s a

/-- The answer to `b` can be the last one of those that a rule needs to answer `a` at once. -/
def Closes (s : Solver) (b a : Atom) : Prop := ∃ m ∈ s.matching a, b ∈ m.1.subgoals ∧ ∀ g ∈ m.1.subgoals, s.Instant g

/-- Among what `query` leads to, no ring of three or more queries has one that closes another. -/
def Guarded (s : Solver) (query : Atom) : Prop :=
  ∀ b a l, l ≠ [] → (b :: a :: l).Nodup → (b :: a :: (l ++ [b])).IsChain s.AskedBy →
    Relation.ReflTransGen (fun x y => s.AskedBy y x) query a → ¬ s.Closes b a

def bodyAtoms (s : Solver) : List Atom := (s.rules.flatMap Rule.subgoals).eraseDups

theorem AskedBy.mem_bodyAtoms {s : Solver} {a b : Atom} (h : s.AskedBy b a) : b ∈ s.bodyAtoms := by
  obtain ⟨m, hm, hb⟩ := h
  exact List.mem_eraseDups.mpr (List.mem_flatMap.mpr ⟨m.1, (mem_matching.mp hm).1, hb⟩)

end Solver

/-! ## The queries being decomposed -/

structure Frame where
  query : Atom
  subgoals : List Atom

abbrev Path := List Frame

namespace Path

def queries (path : Path) : List Atom := path.map (·.query)

def parent (top : Option Atom) : Path → Option Atom
  | [] => top
  | f :: _ => some f.query

inductive Leads (s : Solver) (query : Atom) : Path → Atom → Prop
  | start : Leads s query [] query
  | down {path : Path} {f : Frame} {a : Atom} : Leads s query path f.query → f.query ∉ path.queries →
      (∃ m ∈ s.matching f.query, m.1.subgoals = f.subgoals) → a ∈ f.subgoals → Leads s query (f :: path) a

variable {s : Solver} {query a : Atom} {path : Path} {f : Frame}

theorem Leads.asked (h : Leads s query (f :: path) a) : s.AskedBy a f.query := by
  cases h with
  | down _ _ hm ha =>
    obtain ⟨m, hm, he⟩ := hm
    exact ⟨m, hm, he ▸ ha⟩

theorem Leads.up (h : Leads s query (f :: path) a) : Leads s query path f.query := by
  cases h with
  | down h _ _ _ => exact h

theorem Leads.nodup (h : Leads s query path a) : path.queries.Nodup := by
  induction h with
  | start => exact List.nodup_nil
  | down _ hf _ _ ih => exact List.nodup_cons.mpr ⟨hf, ih⟩

theorem Leads.isChain (h : Leads s query path a) : (a :: path.queries).IsChain s.AskedBy := by
  induction h with
  | start => exact List.IsChain.singleton _
  | down hl hf hm ha ih => exact List.IsChain.cons_cons (Leads.down hl hf hm ha).asked ih

theorem Leads.reaches (h : Leads s query path a) : Relation.ReflTransGen (fun x y => s.AskedBy y x) query a := by
  induction h with
  | start => exact .refl
  | down hl hf hm ha ih => exact ih.tail (Leads.down hl hf hm ha).asked

theorem Leads.subset (h : Leads s query path a) : (a :: path.queries).dropLast ⊆ s.bodyAtoms := by
  induction h with
  | start => exact fun _ h => by cases h
  | @down path f a hl hf hm ha ih =>
    rw [queries, List.map_cons, List.dropLast_cons_cons]
    exact List.cons_subset.mpr ⟨(Leads.down hl hf hm ha).asked.mem_bodyAtoms, ih⟩

/-- A path without repetition has no more queries than there are subgoals, but for the first. -/
theorem Leads.length_le (h : Leads s query path a) (ha : a ∉ path.queries) : path.length ≤ s.bodyAtoms.length := by
  have hd : (a :: path.queries).Nodup := List.nodup_cons.mpr ⟨ha, h.nodup⟩
  have := (List.subperm_of_subset ((List.dropLast_sublist _).nodup hd) h.subset).length_le
  simpa [queries] using this

end Path

/-! ## Their entries -/

open QueryNet.Path

/-- A subgoal that was answered at once, unless it is one of the queries of the path. -/
def Settled (s : Solver) (path : Path) (g : Atom) : Prop := s.Instant g ∧ g ∉ path.queries

/-- The entries of a path: each is linked to the next and waits for the subgoals that are not
    settled, or it is gone, and then all of them are. -/
def Held (s : Solver) (p : PendingTable) (top : Option Atom) : Path → Prop
  | [] => True
  | f :: path =>
    (∀ e, p.get? f.query = some e →
      e.parent = Path.parent top path ∧ ∀ g ∈ f.subgoals, g ∈ e.awaited ∨ Settled s (f :: path) g) ∧
    (p.get? f.query = none → ∀ g ∈ f.subgoals, Settled s (f :: path) g) ∧ Held s p top path

variable {s : Solver} {p p' : PendingTable} {top : Option Atom} {query a : Atom} {path : Path} {f : Frame}

theorem Held.congr (h : Held s p top path) (hp : ∀ b ∈ path.queries, p'.get? b = p.get? b) : Held s p' top path := by
  induction path with
  | nil => trivial
  | cons f path ih =>
    obtain ⟨hpresent, habsent, hrest⟩ := h
    have hf : p'.get? f.query = p.get? f.query := hp f.query (List.mem_cons_self ..)
    exact ⟨hf ▸ hpresent, hf ▸ habsent, ih hrest fun b hb => hp b (List.mem_cons_of_mem _ hb)⟩

theorem Held.insert (h : Held s p top path) (ha : a ∉ path.queries) (e : PendingRequest) :
    Held s (p.insert a e) top path :=
  h.congr fun b hb => by
    have hne : b ≠ a := fun he => ha (he ▸ hb)
    rw [Table.get?_insert, if_neg hne]

theorem Held.erase (h : Held s p top path) (ha : a ∉ path.queries) : Held s (p.erase a) top path :=
  h.congr fun b hb => by
    have hne : b ≠ a := fun he => ha (he ▸ hb)
    rw [Table.get?_erase, if_neg hne]

theorem get?_pass_eq_none {b : Atom} (h : p.get? b = none) (parent : Option Atom) (origin : Option NodeId) (a : Atom)
    (v : Bindings) : (p.pass parent origin a v).pending.get? b = none := by
  unfold PendingTable.pass
  cases parent with
  | none => exact h
  | some c => exact PendingTable.get?_deliver_eq_none h c v a

/-- A query whose rule's subgoals are all settled can be answered at once. -/
theorem instant_of_settled (hm : ∃ m ∈ s.matching f.query, m.1.subgoals = f.subgoals)
    (h : ∀ g ∈ f.subgoals, Settled s (f :: path) g) : s.Instant f.query := by
  obtain ⟨m, hm, he⟩ := hm
  exact .intro hm fun g hg => (h g (he ▸ hg)).1

/-- An answer given at once goes up along the path, as far as it makes further answers. -/
theorem Held.pass (h : Held s p top path) (hl : Leads s query path a) (ha : s.Instant a) (hn : a ∉ path.queries)
    (origin : Option NodeId) (b : Bindings) : Held s (p.pass (path.parent top) origin a b).pending top path := by
  -- on the path: an answer that takes the innermost entry out goes to the next one
  induction path generalizing p a origin b with
  | nil => trivial
  | cons f path ih =>
    obtain ⟨hpresent, habsent, hrest⟩ := h
    have hfn : f.query ∉ Path.queries path := (List.nodup_cons.mp hl.nodup).1
    have hsettled : Settled s (f :: path) a := ⟨ha, hn⟩
    show Held s (p.deliver f.query b a).pending top (f :: path)
    rcases PendingTable.deliver_cases p f.query b a with ⟨-, hd⟩ | ⟨e, he, ⟨-, -, hd⟩ | ⟨hlast, c, hd⟩⟩
    · rw [hd]
      exact ⟨hpresent, habsent, hrest⟩
    · obtain ⟨hparent, hwait⟩ := hpresent e he
      rw [hd]
      refine ⟨fun e' he' => ?_, fun hnone => ?_, hrest.insert hfn _⟩
      · rw [Table.get?_insert_self] at he'
        cases he'
        refine ⟨hparent, fun g hg => ?_⟩
        by_cases hga : g = a
        · exact .inr (hga ▸ hsettled)
        · exact (hwait g hg).imp (fun hm => List.mem_filter.mpr ⟨hm, decide_eq_true hga⟩) id
      · rw [Table.get?_insert_self] at hnone
        cases hnone
    · obtain ⟨hparent, hwait⟩ := hpresent e he
      have hempty : e.awaited.filter (· ≠ a) = [] :=
        hlast.resolve_left fun haf => hn (haf ▸ List.mem_cons_self ..)
      have hall : ∀ g ∈ f.subgoals, Settled s (f :: path) g := fun g hg => by
        by_cases hga : g = a
        · exact hga ▸ hsettled
        · exact (hwait g hg).resolve_left fun hm =>
            absurd (hempty ▸ List.mem_filter.mpr ⟨hm, decide_eq_true hga⟩) List.not_mem_nil
      have hgone : (p.erase f.query).get? f.query = none := by rw [Table.get?_erase, if_pos rfl]
      rw [hd, hparent]
      refine ⟨fun e' he' => ?_, fun _ => hall, ?_⟩
      · rw [get?_pass_eq_none hgone] at he'
        cases he'
      · cases hl with
        | down hl hfn hm _ => exact ih (hrest.erase hfn) hl (instant_of_settled hm hall) hfn _ _

/-! ## The guard -/

/-- Links that are all in place lead to a query of the path. -/
theorem onChain_of_present {l rest : Path} (h : Held s p top (l ++ f :: rest))
    (hl : ∀ b ∈ l.queries, p.get? b ≠ none) {n : Nat} (hn : l.length < n) :
    p.onChain f.query n (Path.parent top (l ++ f :: rest)) = true := by
  induction l generalizing n with
  | nil =>
    obtain ⟨n, rfl⟩ := Nat.exists_eq_succ_of_ne_zero (Nat.ne_of_gt hn)
    rw [List.nil_append, Path.parent, PendingTable.onChain, beq_self_eq_true, Bool.true_or]
  | cons g l ih =>
    obtain ⟨n, rfl⟩ := Nat.exists_eq_succ_of_ne_zero (Nat.ne_of_gt (Nat.zero_lt_of_lt hn))
    obtain ⟨hpresent, -, hrest⟩ := h
    obtain ⟨e, he⟩ := Option.ne_none_iff_exists'.mp (hl g.query (List.mem_cons_self ..))
    have hlink : p.parentOf g.query = Path.parent top (l ++ f :: rest) := by
      rw [PendingTable.parentOf, he]
      exact (hpresent e he).1
    rw [List.cons_append, Path.parent, PendingTable.onChain, hlink,
      ih hrest (fun b hb => hl b (List.mem_cons_of_mem _ hb)) (Nat.lt_of_succ_lt_succ hn), Bool.or_true]

theorem Held.of_append {l : Path} (h : Held s p top (l ++ path)) : Held s p top path := by
  induction l with
  | nil => exact h
  | cons f l ih => exact ih h.2.2

/-- What the end of a path leads to is the query before it. -/
theorem Leads.of_append {l : Path} (h : Leads s query (l ++ path) a) :
    ∃ b, Leads s query path b ∧ ((l = [] ∧ b = a) ∨ ∃ l' f, l = l' ++ [f] ∧ b = Frame.query f) := by
  induction l generalizing a with
  | nil => exact ⟨a, h, .inl ⟨rfl, rfl⟩⟩
  | cons f l ih =>
    obtain ⟨b, hb, ⟨rfl, rfl⟩ | ⟨l', f', rfl, rfl⟩⟩ := ih h.up
    · exact ⟨_, hb, .inr ⟨[], f, rfl, rfl⟩⟩
    · exact ⟨_, hb, .inr ⟨f :: l', f', rfl, rfl⟩⟩

/-- A chain that comes back to its start is a ring, from any of its links on. -/
theorem ring_of_isChain {R : Atom → Atom → Prop} {x b a : Atom} {l₁ l₂ rest : List Atom}
    (h : (x :: (l₁ ++ b :: a :: (l₂ ++ x :: rest))).IsChain R) : (b :: a :: (l₂ ++ x :: l₁ ++ [b])).IsChain R := by
  obtain ⟨hfront, hback⟩ := List.isChain_cons_split.mp h
  have hback : (b :: a :: l₂ ++ x :: rest).IsChain R := hback
  have hfront : ([x] ++ (l₁ ++ [b])).IsChain R := hfront
  have hring := (List.isChain_split.mp hback).1.append_overlap hfront (List.cons_ne_nil _ _)
  simpa using hring

theorem nodup_ring {x b a : Atom} {l₁ l₂ rest : List Atom} (h : (l₁ ++ b :: a :: (l₂ ++ x :: rest)).Nodup) :
    (b :: a :: (l₂ ++ x :: l₁)).Nodup := by
  have hperm : (l₁ ++ (b :: a :: (l₂ ++ [x]))).Perm (b :: a :: (l₂ ++ x :: l₁)) := by
    refine List.perm_append_comm.trans ?_
    simp
  refine hperm.nodup_iff.mp (List.Sublist.nodup ?_ h)
  refine (List.Sublist.refl _).append (((List.Sublist.refl _).append ?_).cons_cons _ |>.cons_cons _)
  exact List.singleton_sublist.mpr (List.mem_cons_self ..)

/-- The guard finds every query that is being decomposed. -/
theorem isAncestor_of_mem (hg : s.Guarded query) (hl : Leads s query path a) (h : Held s p top path)
    (ha : a ∈ path.queries) : p.isAncestor a (Path.parent top path) = true := by
  obtain ⟨f, hf, rfl⟩ := List.mem_map.mp ha
  obtain ⟨l, rest, rfl⟩ := List.append_of_mem hf
  have hpresent : ∀ b ∈ queries l, p.get? b ≠ none := by
    -- the query just above still waits; one farther up is on a ring, and the query below it closed it
    intro b hb hnone
    obtain ⟨g, hgl, rfl⟩ := List.mem_map.mp hb
    obtain ⟨l₁, l₂, rfl⟩ := List.append_of_mem hgl
    have hlist : (l₁ ++ g :: l₂) ++ f :: rest = l₁ ++ (g :: (l₂ ++ f :: rest)) := by simp
    rw [hlist] at hl h
    have hsettled := h.of_append.2.1 hnone
    obtain ⟨b, hb, hcase⟩ := Leads.of_append hl
    have hreaches := hb.up.reaches
    cases hb with
    | down _ _ hm hbg =>
      rcases hcase with ⟨-, rfl⟩ | ⟨l', f', rfl, rfl⟩
      · exact (hsettled f.query hbg).2 (by simp [queries])
      · obtain ⟨m, hm, he⟩ := hm
        refine hg f'.query g.query (queries l₂ ++ f.query :: queries l') (by simp) ?_ ?_ hreaches
          ⟨m, hm, he ▸ hbg, fun c hc => (hsettled c (he ▸ hc)).1⟩
        · have := hl.nodup
          simp only [queries, List.map_append, List.map_cons, List.append_assoc, List.singleton_append] at this
          exact nodup_ring this
        · have := hl.isChain
          simp only [queries, List.map_append, List.map_cons, List.append_assoc, List.singleton_append] at this
          exact ring_of_isChain this
  have hlen : l.length ≤ p.size := by
    have := Table.length_le_size (List.Sublist.nodup ((List.sublist_append_left l _).map _) hl.nodup) hpresent
    simpa using this
  exact onChain_of_present h hpresent (Nat.lt_succ_of_le hlen)

/-! ## Decomposition -/

def Keeps (s : Solver) (top : Option Atom) (path : Path) (t : Turn) : Prop :=
  t.solver.rules = s.rules ∧ Held s t.solver.pending top path

theorem Keeps.matching {t : Turn} (h : Keeps s top path t) (a : Atom) : t.solver.matching a = s.matching a := by
  rw [Solver.matching, h.1, Solver.matching]

theorem Keeps.forward {t : Turn} (h : Keeps s top path t) (ha : a ∉ path.queries) (origin : Option NodeId)
    (parent : Option Atom) : Keeps s top path (t.forward origin parent a).2 := by
  have hrecord : ∀ e : PendingRequest, e.query = a → Keeps s top path (t.record e) := fun e he =>
    ⟨h.1, h.2.insert (he ▸ ha) e⟩
  unfold Turn.forward
  split
  · split
    · exact hrecord _ rfl
    · exact hrecord _ rfl
  · exact hrecord _ rfl

/-- The entry that a rule makes for the next query puts that query on the path. -/
theorem Keeps.record {t : Turn} (h : Keeps s top path t) (ha : a ∉ path.queries) (m : Rule × Bindings)
    (origin : Option NodeId) : Keeps s top (⟨a, m.1.subgoals⟩ :: path)
      (t.record ⟨a, Path.parent top path, m.1.subgoals.eraseDups, ∅, m.1.composition, some m.2, origin⟩) := by
  refine ⟨h.1, fun e he => ?_, fun hnone => ?_, h.2.insert ha _⟩
  · rw [Turn.record, Turn.setPending, PendingTable.record, Table.get?_insert_self] at he
    cases he
    exact ⟨rfl, fun g hg => .inl (List.mem_eraseDups.mpr hg)⟩
  · rw [Turn.record, Turn.setPending, PendingTable.record, Table.get?_insert_self] at hnone
    cases hnone

/-- A rule without subgoals answers at once; the subgoals of any other one are solved below its query. -/
theorem expand_keeps {solve : Atom → Turn → Option Turn} {m : Rule × Bindings} (hm : m ∈ s.matching a)
    (hl : Leads s query path a) (ha : a ∉ path.queries)
    (hsub : ∀ g ∈ m.1.subgoals, ∀ t, Keeps s top (⟨a, m.1.subgoals⟩ :: path) t →
      ∃ t', solve g t = some t' ∧ Keeps s top (⟨a, m.1.subgoals⟩ :: path) t')
    (origin : Option NodeId) {t : Turn} (h : Keeps s top path t) :
    ∃ t', t.expand solve origin (Path.parent top path) a m = some t' ∧ Keeps s top path t' := by
  unfold Turn.expand
  by_cases hnil : m.1.subgoals = []
  · have hinstant : s.Instant a := .intro hm fun g hg => absurd (hnil ▸ hg) List.not_mem_nil
    rw [if_pos hnil]
    refine ⟨_, rfl, h.1, ?_⟩
    show Held s (PendingTable.deliver (t.solver.pending.insert a _) a ∅ a).pending top path
    rw [PendingTable.deliver_self (Table.get?_insert_self _ a _)]
    exact ((h.2.insert ha _).erase ha).pass hl hinstant ha _ _
  · rw [if_neg hnil]
    obtain ⟨t', ht', hk⟩ := Turn.foldlM_some hsub (h.record ha m origin)
    exact ⟨t', ht', hk.1, hk.2.2.2⟩

/-- Below a path, a query is solved within the depth that the path leaves. -/
theorem solve_keeps_path (hg : s.Guarded query) (depth : Nat) : ∀ {path : Path} {a : Atom}, Leads s query path a →
    s.bodyAtoms.length + 2 ≤ depth + path.length → ∀ (origin : Option NodeId) {t : Turn}, Keeps s top path t →
      ∃ r, Turn.solve depth origin (Path.parent top path) a t = some r ∧ Keeps s top path r.2 := by
  induction depth with
  | zero =>
    intro path a hl hdepth
    cases hl with
    | start => simp at hdepth
    | down hl hn _ _ =>
      have := hl.length_le hn
      simp only [List.length_cons] at hdepth
      omega
  | succ depth ih =>
    intro path a hl hdepth origin t h
    rw [Turn.solve]
    by_cases hguard : t.solver.pending.isAncestor a (Path.parent top path)
    · rw [if_pos hguard]
      exact ⟨_, rfl, h⟩
    · have ha : a ∉ path.queries := fun ha => hguard (isAncestor_of_mem hg hl h.2 ha)
      rw [if_neg hguard]
      split
      · exact ⟨_, rfl, h.forward ha origin _⟩
      · have hfold : ∃ t', (t.solver.matching a).foldlM (Turn.expand (fun g t =>
            (Turn.solve depth none (some a) g t).map (·.2)) origin (Path.parent top path) a) t = some t' ∧
              Keeps s top path t' := by
          refine Turn.foldlM_some (fun m hm u hu => ?_) h
          rw [h.matching a] at hm
          refine expand_keeps hm hl ha (fun g hgm v hv => ?_) origin hu
          have hlen : s.bodyAtoms.length + 2 ≤ depth + (⟨a, m.1.subgoals⟩ :: path : Path).length := by
            rw [List.length_cons]
            omega
          obtain ⟨r, hr, hk⟩ := ih (.down hl ha ⟨m, hm, rfl⟩ hgm) hlen none hv
          exact ⟨r.2, congrArg (Option.map _) hr, hk⟩
        obtain ⟨t', ht', hk⟩ := hfold
        exact ⟨_, congrArg (Option.map _) ht', hk⟩

/-- Decomposition ends, whatever the tables hold. -/
theorem solve_finishes (hg : s.Guarded query) (origin : Option NodeId) (parent : Option Atom) :
    ∃ r, s.solve (s.bodyAtoms.length + 2) origin query parent = some r := by
  have hkeeps : Keeps s parent [] (Turn.begin s) := ⟨rfl, trivial⟩
  obtain ⟨r, hr, -⟩ := solve_keeps_path hg _ .start (Nat.le_refl _) origin hkeeps
  exact ⟨r, hr⟩

/-- A ring of three, `b`, `c` and `d`, of which only `b` is answered at once; it closes `f` alone. -/
def shelter : Solver :=
  { Solver.create "s" .standard with
    rules := [⟨⟨"f", []⟩, [⟨"b", []⟩]⟩, ⟨⟨"b", []⟩, [⟨"@", ["?X"]⟩]⟩, ⟨⟨"b", []⟩, [⟨"c", []⟩]⟩,
      ⟨⟨"c", []⟩, [⟨"d", []⟩, ⟨"e", []⟩]⟩, ⟨⟨"d", []⟩, [⟨"b", []⟩, ⟨"e", []⟩]⟩] }

theorem shelter_matching {a : Atom} {m : Rule × Bindings} (h : m ∈ shelter.matching a) :
    m.1.head.name = a.name ∧ (m.1.head.name = "f" ∧ m.1.subgoals = [⟨"b", []⟩] ∨
      m.1.head.name = "b" ∧ (m.1.subgoals = [] ∨ m.1.subgoals = [⟨"c", []⟩]) ∨
      (m.1.subgoals = [⟨"d", []⟩, ⟨"e", []⟩] ∨ m.1.subgoals = [⟨"b", []⟩, ⟨"e", []⟩])) := by
  obtain ⟨hr, hu⟩ := Solver.mem_matching.mp h
  refine ⟨?_, ?_⟩
  · unfold Rule.unify unify at hu
    split at hu
    · rename_i hn
      exact hn.1
    · cases hu
  · simp only [shelter, List.mem_cons, List.not_mem_nil, or_false] at hr
    rcases hr with hr | hr | hr | hr | hr <;> rw [hr] <;> decide +kernel

theorem shelter_instant {a : Atom} (h : shelter.Instant a) : a.name = "b" ∨ a.name = "f" := by
  induction h with
  | intro hm _ ih =>
    obtain ⟨hname, hcase⟩ := shelter_matching hm
    rw [← hname]
    rcases hcase with ⟨hf, -⟩ | ⟨hb, -⟩ | hs | hs
    · exact .inr hf
    · exact .inl hb
    · have := ih ⟨"e", []⟩ (by simp [hs])
      simp at this
    · have := ih ⟨"e", []⟩ (by simp [hs])
      simp at this

theorem shelter_guarded (query : Atom) : shelter.Guarded query := by
  intro b a l hl _ hchain _ hcloses
  obtain ⟨m, hm, hb, hall⟩ := hcloses
  obtain ⟨hname, hcase⟩ := shelter_matching hm
  have hno : ∀ x : Atom, x.name ≠ "b" → x.name ≠ "f" → x ∉ m.1.subgoals := fun x h₁ h₂ hx =>
    (shelter_instant (hall x hx)).elim h₁ h₂
  rcases hcase with ⟨hf, hs⟩ | ⟨-, hs | hs⟩ | hs | hs
  · -- `f` is on no ring: no rule asks it
    obtain ⟨z, l, rfl⟩ := List.exists_cons_of_ne_nil hl
    obtain ⟨m', hm', ha⟩ := (List.isChain_cons_cons.mp (List.isChain_cons_cons.mp hchain).2).1
    have hfa : a.name = "f" := hname ▸ hf
    rcases (shelter_matching hm').2 with ⟨-, h⟩ | ⟨-, h | h⟩ | h | h <;> rw [h] at ha <;>
      simp only [List.mem_cons, List.not_mem_nil, or_false] at ha
    · simp [ha] at hfa
    · simp [ha] at hfa
    · rcases ha with rfl | rfl <;> simp at hfa
    · rcases ha with rfl | rfl <;> simp at hfa
  · exact absurd (hs ▸ hb) List.not_mem_nil
  · exact hno ⟨"c", []⟩ (by decide) (by decide) (by simp [hs])
  · exact hno ⟨"e", []⟩ (by decide) (by decide) (by simp [hs])
  · exact hno ⟨"e", []⟩ (by decide) (by decide) (by simp [hs])

theorem shelter_finishes : shelter.Guarded ⟨"f", []⟩ ∧
    ∃ r, shelter.solve (shelter.bodyAtoms.length + 2) (some "user") ⟨"f", []⟩ none = some r :=
  ⟨shelter_guarded _, solve_finishes (shelter_guarded _) (some "user") none⟩

end QueryNet
