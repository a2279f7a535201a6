/-
  QueryNet.Proofs.Course.Entries — the pending entries of a solver.

  An entry is `Proper` if its query was asked or is a subgoal of a rule; if either a
  node or another query needs it, the latter by a rule that matches; and if it was
  made by a rule that matches and still waits for some of that rule's subgoals, or by
  no rule and then waits for nothing but its own answer.

  Proved: in every state that a solver may come to, all entries are proper, and no
  answer that is delivered in a turn, also on the way, ends at a query that nobody
  needs (`entries_proper`). One step keeps entries proper (`Step.proper`), although
  it may put an entry in the place of another, and although a rule without subgoals
  makes an improper one for a moment.
-/

import QueryNet.Proofs.Course

namespace QueryNet

structure PendingRequest.Proper (s : Solver) (asked : Atom → Prop) (a : Atom) (e : PendingRequest) : Prop where
  query : e.query = a
  known : asked a ∨ ∃ r ∈ s.rules, a ∈ r.subgoals
  /-- A node asked, or another query needs it, and never both. -/
  needed : (e.parent = none ∧ ∃ n, e.origin = some n) ∨
    (e.origin = none ∧ ∃ p, e.parent = some p ∧ p ≠ a ∧ ∃ r ∈ s.rules, (∃ m, r.unify p = some m) ∧ a ∈ r.subgoals)
  unmatched : e.headMap = none → e.awaited = [] ∧ e.results = ∅ ∧ e.pattern = none
  matched : ∀ m, e.headMap = some m → ∃ r ∈ s.rules,
    r.unify a = some m ∧ e.pattern = r.composition ∧ e.awaited ≠ [] ∧ e.awaited ⊆ r.subgoals

namespace PendingRequest.Proper

variable {s s' : Solver} {asked asked' : Atom → Prop} {a : Atom} {e : PendingRequest}

theorem mono (h : e.Proper s asked a) (hr : s.rules ⊆ s'.rules) (ha : ∀ b, asked b → asked' b) : e.Proper s' asked' a where
  query := h.query
  known := h.known.imp (ha a) fun ⟨r, hm, hb⟩ => ⟨r, hr hm, hb⟩
  needed := h.needed.imp id fun ⟨ho, p, hp, hne, r, hm, hb⟩ => ⟨ho, p, hp, hne, r, hr hm, hb⟩
  unmatched := h.unmatched
  matched m hm := (h.matched m hm).imp fun _ ⟨hmem, hrest⟩ => ⟨hr hmem, hrest⟩

/-- An entry that still waits after an answer to a subgoal was made by a rule. -/
theorem wait (h : e.Proper s asked a) {x : Atom} (hne : e.awaited.filter (· ≠ x) ≠ []) (b : Bindings) :
    PendingRequest.Proper s asked a { e with results := e.results.merge b, awaited := e.awaited.filter (· ≠ x) } where
  query := h.query
  known := h.known
  needed := h.needed
  unmatched hnone := by
    rw [(h.unmatched hnone).1] at hne
    exact absurd rfl hne
  matched m hm := by
    obtain ⟨r, hr, hu, hp, -, hsub⟩ := h.matched m hm
    exact ⟨r, hr, hu, hp, hne, fun g hg => hsub (List.mem_filter.mp hg).1⟩

end PendingRequest.Proper

namespace PendingTable

variable {p : PendingTable} {query sender : Atom}

/-- An answer to `sender` that is brought to `query` leads to the answer of a query that nobody needs. -/
inductive Strands : PendingTable → Atom → Atom → Prop
  | here {p : PendingTable} {query sender : Atom} {e : PendingRequest} : p.get? query = some e →
      (sender = query ∨ e.awaited.filter (· ≠ sender) = []) → e.parent = none → e.origin = none → Strands p query sender
  | up {p : PendingTable} {query sender a : Atom} {e : PendingRequest} : p.get? query = some e →
      (sender = query ∨ e.awaited.filter (· ≠ sender) = []) → e.parent = some a → Strands (p.erase query) a query →
      Strands p query sender

theorem not_strands (h : ∀ a e, p.get? a = some e → e.parent ≠ none ∨ e.origin ≠ none) : ¬ p.Strands query sender := by
  intro hs
  induction hs with
  | here he _ hp ho => exact (h _ _ he).elim (· hp) (· ho)
  | up _ _ _ _ ih =>
    refine ih fun a e he => h a e ?_
    rw [Table.get?_erase] at he
    split at he
    · cases he
    · exact he

end PendingTable

namespace Turn

/-! ## Steps -/

structure Proper (s : Solver) (asked : Atom → Prop) (t : Turn) : Prop where
  rules : t.solver.rules = s.rules
  entries : ∀ a e, t.solver.pending.get? a = some e → e.Proper s asked a

variable {s : Solver} {asked : Atom → Prop} {sender : NodeId} {top : Atom} {origin : Option NodeId} {parent : Option Atom}
  {query : Atom} {t u : Turn}

theorem Proper.insert (h : Proper s asked t) {e : PendingRequest} (he : e.Proper s asked query) :
    ∀ a e', Table.get? (t.solver.pending.insert query e) a = some e' → e'.Proper s asked a := by
  intro a e' he'
  rw [Table.get?_insert] at he'
  split at he'
  · rename_i ha
    cases he'
    exact ha ▸ he
  · exact h.entries a e' he'

theorem Due.known (h : Due sender top t origin parent query) (ht : t.solver.rules = s.rules) (htop : asked top) :
    asked query ∨ ∃ r ∈ s.rules, query ∈ r.subgoals := by
  rcases h with ⟨-, -, rfl⟩ | ⟨-, p, -, -, m, hm, hq⟩
  · exact .inl htop
  · exact .inr ⟨m.1, ht ▸ (Solver.mem_matching.mp hm).1, hq⟩

theorem Due.needed (h : Due sender top t origin parent query) (ht : t.solver.rules = s.rules) :
    (parent = none ∧ ∃ n, origin = some n) ∨
      (origin = none ∧ ∃ p, parent = some p ∧ p ≠ query ∧ ∃ r ∈ s.rules, (∃ m, r.unify p = some m) ∧ query ∈ r.subgoals) := by
  rcases h with ⟨ho, hp, -⟩ | ⟨ho, p, hp, hne, m, hm, hq⟩
  · exact .inl ⟨hp, sender, ho⟩
  · obtain ⟨hr, hu⟩ := Solver.mem_matching.mp hm
    exact .inr ⟨ho, p, hp, hne, m.1, ht ▸ hr, ⟨m.2, hu⟩, hq⟩

/-- The entry that a rule with subgoals makes. -/
theorem Due.proper_matched (h : Due sender top t origin parent query) (ht : t.solver.rules = s.rules) (htop : asked top)
    {m : Rule × Bindings} (hm : m ∈ t.solver.matching query) (hne : m.1.subgoals ≠ []) :
    (PendingRequest.matched m query parent origin).Proper s asked query where
  query := rfl
  known := h.known ht htop
  needed := h.needed ht
  unmatched hnone := by cases hnone
  matched b hb := by
    obtain ⟨hr, hu⟩ := Solver.mem_matching.mp hm
    obtain ⟨g, hg⟩ := List.exists_mem_of_ne_nil _ hne
    refine ⟨m.1, ht ▸ hr, hu.trans hb, rfl, ?_, fun g hg => List.mem_eraseDups.mp hg⟩
    exact List.ne_nil_of_mem (List.mem_eraseDups.mpr hg)

theorem Due.proper_unmatched (h : Due sender top t origin parent query) (ht : t.solver.rules = s.rules) (htop : asked top) :
    (PendingRequest.unmatched query parent origin).Proper s asked query where
  query := rfl
  known := h.known ht htop
  needed := h.needed ht
  unmatched _ := ⟨rfl, rfl, rfl⟩
  matched _ hm := by cases hm

theorem Step.proper (hs : Step origin parent query t u) (hd : Due sender top t origin parent query) (htop : asked top)
    (h : Proper s asked t) : Proper s asked u := by
  refine ⟨hs.rules.trans h.rules, ?_⟩
  cases hs with
  | forward _ =>
    rw [(forward_eq t origin parent query).1]
    exact h.insert (hd.proper_unmatched h.rules htop)
  | expand hm hne => exact h.insert (hd.proper_matched h.rules htop hm hne)
  | @answer m hm hnil =>
    -- its entry, which waits for nothing, is out again before the answer goes up
    show ∀ a e, (PendingTable.deliver (t.solver.pending.insert query _) query ∅ query).pending.get? a = some e → _
    rw [PendingTable.deliver_self (Table.get?_insert_self _ query _)]
    refine PendingTable.pass_keeps (fun a e b x he _ hne => he.wait hne b) (fun a e he => h.entries a e ?_) _ _ _ _
    rw [Table.get?_erase, Table.get?_insert] at he
    split at he
    · cases he
    · exact he

theorem Course.proper (hc : Course sender top t u) (htop : asked top) (h : Proper s asked t) : Proper s asked u := by
  induction hc with
  | refl => exact h
  | tail _ hs ih =>
    obtain ⟨_, _, _, hd, hs⟩ := hs
    exact hs.proper hd htop ih

end Turn

namespace Solver

/-! ## Deliveries -/

/-- In a turn on a packet, the answer to a query may be delivered to a table: a response's to the solver's own, or,
    anywhere along the course that a request's turn takes (`Handles.course`), that of a rule without subgoals, whose
    entry was just recorded. -/
inductive Delivers (s : Solver) (sender : NodeId) (p : Packet) : PendingTable → Atom → Prop
  | response {b : Bindings} : p.kind = .response → p.result = some b → Delivers s sender p s.pending p.query
  | answer {u : Turn} {origin : Option NodeId} {parent : Option Atom} {query : Atom} {m : Rule × Bindings} :
      p.kind = .request → Turn.Course sender p.query ((Turn.begin s).note (.packetReceived s.id p.kind)) u →
      Turn.Due sender p.query u origin parent query → m ∈ u.solver.matching query → m.1.subgoals = [] →
      Delivers s sender p (u.solver.pending.record (.matched m query parent origin)) query

def Asked (log : List Handled) (a : Atom) : Prop := ∃ h ∈ log, h.packet.kind = .request ∧ h.packet.query = a

variable {s : Solver} {log : List Handled}

theorem Asked.append {a : Atom} (h : Asked log a) (h' : Handled) : Asked (log ++ [h']) a :=
  h.imp fun _ ⟨hm, hr⟩ => ⟨List.mem_append_left _ hm, hr⟩

theorem Handles.proper {sender : NodeId} {p : Packet} {t : Turn} {asked : Atom → Prop} (h : s.Handles sender p t)
    (htop : p.kind = .request → asked p.query) (hs : ∀ a e, s.pending.get? a = some e → e.Proper s asked a) :
    ∀ a e, t.solver.pending.get? a = some e → e.Proper s asked a := by
  rcases h.cases with ⟨hk, -⟩ | ⟨-, b, -, ht, -⟩ | ⟨-, -, ht, -⟩
  · obtain ⟨u, hcourse, ht, -⟩ := h.course hk
    rw [ht]
    exact (hcourse.proper (htop hk) ⟨rfl, hs⟩).entries
  · rw [ht]
    exact PendingTable.deliver_keeps (fun a e b x he _ hne => he.wait hne b) hs _ _ _
  · rw [ht]
    exact hs

theorem History.proper (h : History log s) : ∀ a e, s.pending.get? a = some e → e.Proper s (Asked log) a := by
  induction h with
  | fresh hp =>
    intro a e he
    rw [hp] at he
    cases he
  | @packet log s sender p t hh ht ih =>
    have hasked : p.kind = .request → Asked (log ++ [⟨s, sender, p, t⟩]) p.query := fun hk =>
      ⟨_, List.mem_append_right _ (List.mem_singleton_self _), hk, rfl⟩
    intro a e he
    refine (ht.proper hasked (fun a e he => (ih a e he).mono (List.Subset.refl _) fun b hb => hb.append _) a e he).mono ?_
      fun _ hb => hb
    rw [ht.rules]
    exact List.Subset.refl _
  | rule _ hr ih =>
    intro a e he
    rw [addRule_eq hr] at he ⊢
    exact (ih a e he).mono (List.subset_append_left ..) fun _ hb => hb
  | other _ hrules hpending ih =>
    intro a e he
    refine (ih a e (hpending ▸ he)).mono ?_ fun _ hb => hb
    rw [hrules]
    exact List.Subset.refl _

theorem History.not_strands (h : History log s) {sender : NodeId} {p : Packet} {table : PendingTable} {query : Atom}
    (hd : s.Delivers sender p table query) : ¬ table.Strands query query := by
  have hneeded : ∀ {s : Solver} {asked : Atom → Prop} {a : Atom} {e : PendingRequest}, e.Proper s asked a →
      e.parent ≠ none ∨ e.origin ≠ none := fun he => by
    rcases he.needed with ⟨-, n, hn⟩ | ⟨-, p, hp, -⟩
    · exact .inr fun h => by rw [hn] at h; cases h
    · exact .inl fun h => by rw [hp] at h; cases h
  refine PendingTable.not_strands ?_
  cases hd with
  | response _ _ => exact fun a e he => hneeded (h.proper a e he)
  | @answer u origin parent query m hk hc hdue hm hnil =>
    have hu : Turn.Proper s (fun a => Asked log a ∨ a = p.query) u := hc.proper (.inr rfl)
      ⟨rfl, fun a e he => (h.proper a e he).mono (List.Subset.refl _) fun _ hb => .inl hb⟩
    intro a e he
    rw [PendingTable.record, Table.get?_insert] at he
    split at he
    · cases he
      rcases hdue.needed hu.rules with ⟨-, n, hn⟩ | ⟨-, p, hp, -⟩
      · exact .inr fun h => by rw [PendingRequest.matched, hn] at h; cases h
      · exact .inl fun h => by rw [PendingRequest.matched, hp] at h; cases h
    · exact hneeded (hu.entries a e he)

/-- Every pending entry is proper, whatever a solver went through, and every answer finds whoever needs it. -/
theorem entries_proper (h : History log s) :
    (∀ a e, s.pending.get? a = some e → e.Proper s (Asked log) a) ∧
      ∀ sender p table query, s.Delivers sender p table query → ¬ table.Strands query query :=
  ⟨h.proper, fun _ _ _ _ hd => h.not_strands hd⟩

def novice : Solver := .create "agency" .standard

def agency : Solver :=
  { novice with rules := [⟨⟨"trip", ["?X"]⟩, [⟨"flight", ["?X"]⟩, ⟨"hotel", ["?X"]⟩]⟩] }

/-- A rule is added and a request comes in: its query and the subgoals are pending. -/
theorem trip_entries_proper :
    ∃ log s, History log s ∧ s.pending.keys = [⟨"flight", ["?X"]⟩, ⟨"hotel", ["?X"]⟩, ⟨"trip", ["?w"]⟩] ∧
      (∀ a e, s.pending.get? a = some e → e.Proper s (Asked log) a) ∧
        ∀ sender p table query, s.Delivers sender p table query → ¬ table.Strands query query := by
  have hrule : novice.addRule "trip(?X) <- flight(?X), hotel(?X)." =
      .ok (⟨⟨"trip", ["?X"]⟩, [⟨"flight", ["?X"]⟩, ⟨"hotel", ["?X"]⟩]⟩, agency) := rfl
  obtain ⟨t, ht, hkeys⟩ : ∃ t, agency.Handles "user" (.request ⟨"trip", ["?w"]⟩) t ∧
      t.solver.pending.keys = [⟨"flight", ["?X"]⟩, ⟨"hotel", ["?X"]⟩, ⟨"trip", ["?w"]⟩] := ⟨_, ⟨2, rfl⟩, rfl⟩
  have h := (History.fresh (s := novice) rfl).rule hrule |>.packet ht
  exact ⟨_, _, h, hkeys, entries_proper h⟩

end Solver

end QueryNet
