/-
  QueryNet.Proofs.Scope — answers bind variables of their query only.

  An entry that a rule made passes its answer on in the variables of its query; one
  that was forwarded passes on the answer as it came. So a forwarded entry must get
  nothing but the answer to its own query, and never one to a subgoal: the query that
  an entry is needed for matches a rule, and its entry, if it has one, was made by a
  rule (`PendingTable.Scoped`).

  A rule may be added after a query was forwarded. The first time the query is
  decomposed its entry is put in the old one's place, before the first link to it is
  made, and from then on rules match it.

  Proved: handling a packet keeps the table like this if a response brings variables of
  its own query, and then so does every response that is sent, none of which says that
  there is no match (`Solver.Handles.scoped`).
-/

import QueryNet.Proofs.Course
import QueryNet.Proofs.Matching

namespace QueryNet

/-- Values of some of the query's variables. -/
def Atom.Covers (query : Atom) (b : Bindings) : Prop := ∀ v w, b.get? v = some w → v ∈ query.variableArgs

namespace Packet

/-- A response that brings bindings brings them for its own query. -/
def InScope (p : Packet) : Prop := p.kind = .response → ∀ b, p.result = some b → p.query.Covers b

def Binds (p : Packet) : Prop := p.kind = .response → p.result ≠ none

theorem inScope_of_kind {p : Packet} (h : p.kind ≠ .response) : p.InScope := fun hk => absurd hk h

theorem binds_of_kind {p : Packet} (h : p.kind ≠ .response) : p.Binds := fun hk => absurd hk h

theorem inScope_response {query : Atom} {b : Bindings} (h : query.Covers b) : (Packet.response query b).InScope := by
  intro _ b' hb
  cases hb
  exact h

theorem binds_response (query : Atom) (b : Bindings) : (Packet.response query b).Binds := fun _ h => by cases h

end Packet

/-- What a query is matched with binds the query's variables. -/
theorem covers_of_matchFact {query fact : Atom} {b : Bindings} (h : matchFact query fact = some b) : query.Covers b := by
  intro v w hv
  obtain ⟨hmem, hvar⟩ := (matched_of_matchFact h).faces v w hv
  exact List.mem_filter.mpr ⟨(List.of_mem_zip hmem).1, hvar⟩

/-! ## Entries -/

namespace PendingRequest

structure Scoped (query : Atom) (e : PendingRequest) : Prop where
  forwarded : e.headMap = none → e.pattern = none
  decomposed : ∀ m, e.headMap = some m → ∀ k v, m.get? k = some v → isVariable v = true → v ∈ query.variableArgs

theorem scoped_unmatched (query : Atom) (parent : Option Atom) (origin : Option NodeId) :
    (unmatched query parent origin).Scoped query := ⟨fun _ => rfl, fun _ h => by cases h⟩

theorem scoped_matched {m : Rule × Bindings} {query : Atom} (h : m.1.unify query = some m.2) (parent : Option Atom)
    (origin : Option NodeId) : (matched m query parent origin).Scoped query := by
  constructor
  · intro hnone
    cases hnone
  · intro b hb k v hk hv
    cases hb
    have hmem := ((unified_of_unify h).faces k v hk).1
    exact List.mem_filter.mpr ⟨(List.of_mem_zip hmem).2, hv⟩

theorem Scoped.covers {query : Atom} {e : PendingRequest} (h : e.Scoped query) {b : Bindings}
    (hb : e.headMap = none → query.Covers b) : query.Covers (e.answer b) := by
  intro v w hv
  unfold answer at hv
  cases hm : e.headMap with
  | none =>
    rw [hm, h.forwarded hm] at hv
    exact hb hm v w hv
  | some m =>
    rw [hm] at hv
    obtain ⟨hvar, k, hk, -⟩ := mem_of_get?_translate hv
    exact h.decomposed m hm k v hk hvar

end PendingRequest

/-! ## Tables -/

namespace PendingTable

variable {p : PendingTable} {R : Atom → Prop} {a query sender : Atom}

def Kept (p : PendingTable) (a : Atom) : Prop := ∀ e, p.get? a = some e → e.headMap ≠ none

/-- All entries are for their queries, and those that others are needed for match a rule (`R`) and were made by one. -/
structure Scoped (R : Atom → Prop) (p : PendingTable) : Prop where
  entry : ∀ a e, p.get? a = some e → e.Scoped a
  link : ∀ a b, p.parentOf a = some b → R b ∧ p.Kept b

theorem Kept.erase (h : p.Kept a) (b : Atom) : Kept (p.erase b) a := by
  intro e he
  rw [Table.get?_erase] at he
  split at he
  · cases he
  · exact h e he

theorem Kept.insert (h : p.Kept a) {b : Atom} {e : PendingRequest} (he : b = a → e.headMap ≠ none) :
    Kept (p.insert b e) a := by
  intro e' he'
  rw [Table.get?_insert] at he'
  split at he'
  · rename_i hab
    cases he'
    exact he hab.symm
  · exact h e' he'

theorem Scoped.erase (h : p.Scoped R) (b : Atom) : Scoped R (p.erase b) := by
  constructor
  · intro a e he
    rw [Table.get?_erase] at he
    split at he
    · cases he
    · exact h.entry a e he
  · intro a c hc
    rw [parentOf, Table.get?_erase] at hc
    split at hc
    · cases hc
    · obtain ⟨hR, hkept⟩ := h.link a c hc
      exact ⟨hR, hkept.erase b⟩

/-- A new entry is needed for a query that is kept, and leaves what rules match to them. -/
theorem Scoped.insert (h : p.Scoped R) {e : PendingRequest} (he : e.Scoped a)
    (hparent : ∀ b, e.parent = some b → R b ∧ p.Kept b) (hforwarded : e.headMap = none → ¬ (R a ∧ p.Kept a)) :
    Scoped R (p.insert a e) ∧ ∀ b, R b → p.Kept b → Kept (p.insert a e) b := by
  have hkept : ∀ b, R b → p.Kept b → Kept (p.insert a e) b := fun b hR hb =>
    hb.insert fun hab hnone => hforwarded hnone (hab ▸ ⟨hR, hb⟩)
  refine ⟨⟨fun b e' he' => ?_, fun b c hc => ?_⟩, hkept⟩
  · rw [Table.get?_insert] at he'
    split at he'
    · rename_i hb
      cases he'
      exact hb ▸ he
    · exact h.entry b e' he'
  · rw [parentOf, Table.get?_insert] at hc
    split at hc
    · obtain ⟨hR, hb⟩ := hparent c hc
      exact ⟨hR, hkept c hR hb⟩
    · obtain ⟨hR, hb⟩ := h.link b c hc
      exact ⟨hR, hkept c hR hb⟩

structure Delivery.Scoped (R : Atom → Prop) (p : PendingTable) (d : Delivery) : Prop where
  pending : d.pending.Scoped R
  kept : ∀ a, R a → p.Kept a → d.pending.Kept a
  reply : ∀ o, d.reply = some o → o.packet.InScope ∧ o.packet.Binds

/-- An answer to the query itself must be in its variables; one to a subgoal may be anything if the query is kept. -/
theorem deliver_scoped (h : p.Scoped R) {b : Bindings} (hb : (sender = query ∧ query.Covers b) ∨ p.Kept query) :
    (p.deliver query b sender).Scoped R p := by
  -- on the size of the table: an answer is passed on from a table without the entry it took out
  induction hn : p.size using Nat.strongRecOn generalizing p query b sender with
  | ind n ih =>
    cases he : p.get? query with
    | none =>
      rw [deliver_unknown he]
      exact ⟨h, fun _ _ hk => hk, fun o ho => by cases ho⟩
    | some e =>
      have hentry := h.entry query e he
      have hlink : ∀ a, e.parent = some a → R a ∧ p.Kept a := fun a ha =>
        h.link query a (by rw [parentOf, he]; exact ha)
      have hpass : ∀ c, (e.headMap = none → query.Covers c) →
          (pass (p.erase query) e.parent e.origin query (e.answer c)).Scoped R p := by
        intro c hc
        unfold pass
        cases hparent : e.parent with
        | some a =>
          obtain ⟨hR, hkept⟩ := hlink a hparent
          have hrest : (PendingTable.deliver (p.erase query) a (e.answer c) query).Scoped R (p.erase query) :=
            ih _ (hn ▸ Table.size_erase_lt he) (h.erase query) (.inr (hkept.erase query)) rfl
          exact ⟨hrest.pending, fun x hx hk => hrest.kept x hx (hk.erase query), hrest.reply⟩
        | none =>
          refine ⟨h.erase query, fun x _ hk => hk.erase query, fun o ho => ?_⟩
          obtain ⟨m, -, rfl⟩ := Option.map_eq_some_iff.mp ho
          exact ⟨Packet.inScope_response (hentry.covers hc), Packet.binds_response _ _⟩
      by_cases hs : sender = query
      · subst hs
        rw [deliver_self he]
        exact hpass b fun hnone => (hb.resolve_right fun hk => hk e he hnone).2
      · have hkept : p.Kept query := hb.resolve_left fun hself => hs hself.1
        by_cases ha : e.awaited.filter (· ≠ sender) = []
        · rw [deliver_last he hs ha]
          exact hpass _ fun hnone => absurd hnone (hkept e he)
        · rw [deliver_wait he hs ha]
          obtain ⟨hscoped, hall⟩ := h.insert
            (e := { e with results := e.results.merge b, awaited := e.awaited.filter (· ≠ sender) })
            ⟨hentry.forwarded, hentry.decomposed⟩ hlink fun hnone => absurd hnone (hkept e he)
          exact ⟨hscoped, hall, fun o ho => by cases ho⟩

end PendingTable

def Solver.Scoped (s : Solver) : Prop := s.pending.Scoped fun a => s.matching a ≠ []

namespace Turn

variable {t u v : Turn} {origin : Option NodeId} {parent : Option Atom} {query : Atom}

/-! ## Turns -/

structure Scoped (t : Turn) : Prop where
  solver : t.solver.Scoped
  sent : ∀ o ∈ t.out, o.packet.InScope ∧ o.packet.Binds

/-- A rule matches the query, and if it is pending, a rule made its entry. -/
def Kept (t : Turn) (a : Atom) : Prop := t.solver.matching a ≠ [] ∧ t.solver.pending.Kept a

structure Onward (t u : Turn) : Prop where
  entries : u.Scoped
  rules : u.solver.rules = t.solver.rules
  kept : ∀ a, t.Kept a → u.Kept a

theorem Scoped.stays (h : t.Scoped) : Onward t t := ⟨h, rfl, fun _ ha => ha⟩

theorem Onward.trans (h : Onward t u) (h' : Onward u v) : Onward t v :=
  ⟨h'.entries, h'.rules.trans h.rules, fun a ha => h'.kept a (h.kept a ha)⟩

theorem Scoped.note (h : t.Scoped) (m : Metric) : Onward t (t.note m) := ⟨⟨h.solver, h.sent⟩, rfl, fun _ ha => ha⟩

theorem Scoped.send (h : t.Scoped) {o : Outbound} (ho : o.packet.kind ≠ .response) : Onward t (t.send o) := by
  refine ⟨⟨h.solver, fun x hx => ?_⟩, rfl, fun _ ha => ha⟩
  rcases List.mem_append.mp hx with hx | hx
  · exact h.sent x hx
  · rw [List.mem_singleton.mp hx]
    exact ⟨Packet.inScope_of_kind ho, Packet.binds_of_kind ho⟩

theorem Scoped.record (h : t.Scoped) {e : PendingRequest} (he : e.Scoped e.query)
    (hparent : ∀ a, e.parent = some a → t.Kept a) (hforwarded : e.headMap = none → t.solver.matching e.query = []) :
    Onward t (t.record e) := by
  obtain ⟨hscoped, hkept⟩ := h.solver.insert he hparent fun hnone hR => hR.1 (hforwarded hnone)
  exact ⟨⟨hscoped, h.sent⟩, rfl, fun a ha => ⟨ha.1, hkept a ha.1 ha.2⟩⟩

theorem Scoped.deliver (h : t.Scoped) {b : Bindings} {sender : Atom}
    (hb : (sender = query ∧ query.Covers b) ∨ t.Kept query) : Onward t (t.deliver query b sender).2 := by
  have hd := PendingTable.deliver_scoped h.solver (hb.imp_right And.right)
  refine ⟨⟨hd.pending, fun o ho => ?_⟩, rfl, fun a ha => ⟨ha.1, hd.kept a ha.1 ha.2⟩⟩
  rcases List.mem_append.mp ho with ho | ho
  · exact h.sent o ho
  · exact hd.reply o (Option.mem_toList.mp ho)

theorem Scoped.forward (h : t.Scoped) (hm : t.solver.matching query = []) (origin : Option NodeId)
    (hparent : ∀ a, parent = some a → t.Kept a) : Onward t (t.forward origin parent query).2 := by
  have hrecord : Onward t (t.record (.unmatched query parent origin)) :=
    h.record (PendingRequest.scoped_unmatched query parent origin) hparent fun _ => hm
  unfold Turn.forward
  split
  · split
    · exact hrecord.trans (hrecord.entries.send fun h => by cases h)
    · exact hrecord.trans (hrecord.entries.note _)
  · exact hrecord.trans (hrecord.entries.note _)

/-- The entry that a rule makes is there, or gone, when the rule's subgoals are solved. -/
theorem Scoped.expand {sub : Atom → Turn → Option Turn} {m : Rule × Bindings}
    (hsub : ∀ g v w, v.Scoped → v.Kept query → sub g v = some w → Onward v w) (h : t.Scoped)
    (hm : m ∈ t.solver.matching query) (hparent : ∀ a, parent = some a → t.Kept a)
    (hu : t.expand sub origin parent query m = some u) : Onward t u := by
  have hunify := (Solver.mem_matching.mp hm).2
  have hrecord : Onward t (t.record (.matched m query parent origin)) :=
    h.record (PendingRequest.scoped_matched hunify parent origin) hparent fun hnone => by cases hnone
  have hquery : (t.record (.matched m query parent origin)).Kept query := by
    refine ⟨List.ne_nil_of_mem hm, fun e he hnone => ?_⟩
    have he : (t.solver.pending.insert query _).get? query = some e := he
    rw [Table.get?_insert_self] at he
    cases he
    cases hnone
  unfold Turn.expand at hu
  split at hu
  · cases hu
    exact hrecord.trans (hrecord.entries.deliver (.inr hquery))
  · refine hrecord.trans (foldlM_keeps (I := Onward _) (fun g _ v w hw hv => ?_) hu hrecord.entries.stays)
    exact hv.trans (hsub g v w hv.entries (hv.kept query hquery) hw)

/-- The query that a subgoal is needed for must be kept, and each rule keeps it for the rules after it. -/
theorem Scoped.solve (depth : Nat) : ∀ {origin : Option NodeId} {parent : Option Atom} {query : Atom} {t u : Turn}
    {f : Forwarding}, t.Scoped → (∀ a, parent = some a → t.Kept a) →
      Turn.solve depth origin parent query t = some (f, u) → Onward t u := by
  induction depth with
  | zero => intro _ _ _ _ _ _ _ _ hu; cases hu
  | succ depth ih =>
    intro origin parent query t u f h hparent hu
    rw [Turn.solve] at hu
    split at hu
    · cases hu
      exact h.stays
    · split at hu
      · rename_i hm
        have hu : (t.forward origin parent query).2 = u := congrArg Prod.snd (Option.some.inj hu)
        exact hu ▸ h.forward hm origin hparent
      · obtain ⟨w, hw, he⟩ := Option.map_eq_some_iff.mp hu
        cases he
        refine foldlM_keeps (I := Onward t) (fun m hm v x hx hv => ?_) hw h.stays
        have hm : m ∈ v.solver.matching query := by rwa [Solver.matching_congr hv.rules]
        refine hv.trans (hv.entries.expand (fun g y z hy hquery hz => ?_) hm (fun a ha => hv.kept a (hparent a ha)) hx)
        obtain ⟨r, hr, rfl⟩ := Option.map_eq_some_iff.mp hz
        exact ih hy (fun a ha => Option.some.inj ha ▸ hquery) hr

end Turn

namespace Solver

variable {s s' : Solver}

theorem Scoped.congr (h : s.Scoped) (hrules : s'.rules = s.rules) (hpending : s'.pending = s.pending) : s'.Scoped := by
  have hmatching : s'.matching = s.matching := funext (matching_congr hrules)
  rw [Scoped, hpending, hmatching]
  exact h

theorem scoped_of_idle (h : s.pending = ∅) : s.Scoped := by
  rw [Scoped, h]
  constructor
  · intro a e he
    cases he
  · intro a b hb
    cases hb

/-- What matched a rule matches it still when there is one more. -/
theorem Scoped.addRule (h : s.Scoped) {text : String} {r : Rule} (hs : s.addRule text = .ok (r, s')) : s'.Scoped := by
  obtain rfl := addRule_eq hs
  refine ⟨h.entry, fun a b hb => ⟨fun hnil => ?_, (h.link a b hb).2⟩⟩
  refine (h.link a b hb).1 (List.eq_nil_iff_forall_not_mem.mpr fun m hm => ?_)
  rw [mem_matching] at hm
  exact List.eq_nil_iff_forall_not_mem.mp hnil m (mem_matching.mpr ⟨List.mem_append_left _ hm.1, hm.2⟩)

/-- A turn keeps entries for their queries, and what it sends brings bindings of the query that they answer. -/
theorem Handles.scoped {sender : NodeId} {p : Packet} {t : Turn} (h : s.Handles sender p t) (hs : s.Scoped)
    (hp : p.InScope) : t.Scoped := by
  rcases h.cases with ⟨hk, -⟩ | ⟨hk, b, hb, ht, hout⟩ | ⟨-, hrules, hpending, hout⟩
  · obtain ⟨depth, h⟩ := h
    obtain ⟨⟨f, v⟩, hv, rfl⟩ := (handle_request_iff hk).mp h
    have hbegin : ((Turn.begin s).note (.packetReceived s.id .request)).Scoped :=
      ⟨hs, fun o ho => absurd ho List.not_mem_nil⟩
    have hsolved := (hbegin.solve depth (fun _ ha => by cases ha) hv).entries
    exact (hsolved.note _).entries
  · have hd := PendingTable.deliver_scoped hs (.inl ⟨rfl, hp hk b hb⟩)
    refine ⟨ht ▸ hd.pending, fun o ho => hd.reply o (Option.mem_toList.mp (hout ▸ ho))⟩
  · refine ⟨hs.congr hrules hpending, fun o ho => ?_⟩
    have hne : o.packet.kind ≠ .response := fun hk => by cases (hout o ho).symm.trans hk
    exact ⟨Packet.inScope_of_kind hne, Packet.binds_of_kind hne⟩

end Solver

end QueryNet
