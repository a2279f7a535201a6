/-
  QueryNet.Proofs.Separation — queries that have nothing to do with each other.

  A set of queries is apart from all others if rules decompose its queries only into
  its queries, and other queries only into others. Links between entries then never
  lead into the set or out of it.

  Work on a query stays on the query's side (`Confined`): the other side's entries are
  as before, and nothing about it is sent. And such work goes the same in two tables
  that have the same entries on its side (`Alike`), although the guard against cycles
  follows a chain only as far as the size of the table allows: that is always far
  enough (`PendingTable.isAncestor_iff`).

  Proved: what a solver has pending and sends on one side, given any packets, is what
  it has and sends if only that side's packets and announcements come (`project`). So
  two sequences of packets that agree on them agree there (`unrelated_apart`).
-/

import QueryNet.Proofs.Course

namespace QueryNet

namespace PendingTable

variable {C : Atom → Prop} {p q : PendingTable}

def Agree (C : Atom → Prop) (p q : PendingTable) : Prop := ∀ a, C a → q.get? a = p.get? a

theorem Agree.insert (h : Agree C p q) (a : Atom) (e : PendingRequest) :
    Agree C (Table.insert p a e) (Table.insert q a e) := fun b hb => by
  rw [Table.get?_insert, Table.get?_insert, h b hb]

theorem Agree.erase (h : Agree C p q) (a : Atom) : Agree C (Table.erase p a) (Table.erase q a) := fun b hb => by
  rw [Table.get?_erase, Table.get?_erase, h b hb]

theorem agree_insert {a : Atom} (ha : ¬ C a) (p : PendingTable) (e : PendingRequest) : Agree C p (p.insert a e) :=
  fun b hb => by
    rw [Table.get?_insert, if_neg]
    rintro rfl
    exact ha hb

theorem agree_erase {a : Atom} (ha : ¬ C a) (p : PendingTable) : Agree C p (p.erase a) := fun b hb => by
  rw [Table.get?_erase, if_neg]
  rintro rfl
  exact ha hb

theorem Agree.parentOf (h : Agree C p q) {a : Atom} (ha : C a) : q.parentOf a = p.parentOf a := by
  rw [PendingTable.parentOf, h a ha, PendingTable.parentOf]

theorem Agree.closed (h : Agree C p q) (hp : p.Closed C) : q.Closed C := fun a ha b hb =>
  hp a ha b (h.parentOf ha ▸ hb)

theorem Closed.insert {a : Atom} {e : PendingRequest} (hp : p.Closed C) (he : ∀ b, e.parent = some b → C b) :
    Closed (p.insert a e) C := by
  intro b hb c hc
  rw [parentOf, Table.get?_insert] at hc
  split at hc
  · exact he c hc
  · exact hp b hb c hc

theorem Closed.erase (a : Atom) (hp : p.Closed C) : Closed (p.erase a) C := by
  intro b hb c hc
  rw [parentOf, Table.get?_erase] at hc
  split at hc
  · cases hc
  · exact hp b hb c hc

theorem Closed.parent {a : Atom} {e : PendingRequest} (hp : p.Closed C) (ha : C a) (he : p.get? a = some e) {b : Atom}
    (hb : e.parent = some b) : C b := hp a ha b (by rw [parentOf, he]; exact hb)

/-! ## The guard -/

theorem Agree.onChain (h : Agree C p q) (hp : p.Closed C) {query : Atom} {n : Nat} {cursor : Option Atom}
    (hc : ∀ a, cursor = some a → C a) : q.onChain query n cursor = p.onChain query n cursor := by
  induction n generalizing cursor with
  | zero => rfl
  | succ n ih =>
    cases cursor with
    | none => rfl
    | some a =>
      have ha : C a := hc a rfl
      rw [PendingTable.onChain, PendingTable.onChain, h.parentOf ha, ih (hp a ha)]

/-- How large a table is makes no difference to the guard. -/
theorem Agree.isAncestor (h : Agree C p q) (hp : p.Closed C) {query : Atom} {parent : Option Atom}
    (hparent : ∀ a, parent = some a → C a) : q.isAncestor query parent = p.isAncestor query parent := by
  rw [Bool.eq_iff_iff, isAncestor_iff, isAncestor_iff]
  simp only [h.onChain hp hparent]

/-! ## Answers -/

structure Delivery.Confined (C : Atom → Prop) (p : PendingTable) (d : Delivery) : Prop where
  closed : d.pending.Closed C
  others : Agree (fun a => ¬ C a) p d.pending
  reply : ∀ o, d.reply = some o → o.packet.kind = .response ∧ C o.packet.query

theorem deliver_confined (hp : p.Closed C) {query : Atom} (hq : C query) (b : Bindings) (sender : Atom) :
    (p.deliver query b sender).Confined C p := by
  -- on the size of the table: an answer is passed on from a table without the entry it took out
  induction hn : p.size using Nat.strongRecOn generalizing p query b sender with
  | ind n ih =>
    rcases deliver_cases p query b sender with ⟨-, hd⟩ | ⟨e, he, ⟨-, -, hd⟩ | ⟨-, c, hd⟩⟩
    · rw [hd]
      exact ⟨hp, fun _ _ => rfl, fun o ho => by cases ho⟩
    · rw [hd]
      exact ⟨hp.insert fun b hb => hp.parent hq he hb, agree_insert (not_not.mpr hq) p _, fun o ho => by cases ho⟩
    · have hothers : Agree (fun a => ¬ C a) p (p.erase query) := agree_erase (not_not.mpr hq) p
      rw [hd]
      unfold pass
      cases hparent : e.parent with
      | some a =>
        have hrest := ih _ (hn ▸ Table.size_erase_lt he) (hp.erase query) (hp.parent hq he hparent) c query rfl
        exact ⟨hrest.closed, fun a ha => (hrest.others a ha).trans (hothers a ha), hrest.reply⟩
      | none =>
        refine ⟨hp.erase query, hothers, fun o ho => ?_⟩
        obtain ⟨m, -, rfl⟩ := Option.map_eq_some_iff.mp ho
        exact ⟨rfl, hq⟩

structure Delivery.Alike (C : Atom → Prop) (d d' : Delivery) : Prop where
  consumption : d'.consumption = d.consumption
  reply : d'.reply = d.reply
  entries : Agree C d.pending d'.pending

theorem deliver_alike (h : Agree C p q) (hp : p.Closed C) {query : Atom} (hq : C query) (b : Bindings) (sender : Atom) :
    (p.deliver query b sender).Alike C (q.deliver query b sender) := by
  induction hn : p.size using Nat.strongRecOn generalizing p q query b sender with
  | ind n ih =>
    have hsame := h query hq
    cases he : p.get? query with
    | none => rw [deliver_unknown he, deliver_unknown (hsame.trans he)]; exact ⟨rfl, rfl, h⟩
    | some e =>
      have hpass : ∀ c, (pass (p.erase query) e.parent e.origin query c).Alike C
          (pass (q.erase query) e.parent e.origin query c) := by
        intro c
        unfold pass
        cases hparent : e.parent with
        | none => exact ⟨rfl, rfl, h.erase query⟩
        | some a =>
          have hrest := ih _ (hn ▸ Table.size_erase_lt he) (h.erase query) (hp.erase query) (hp.parent hq he hparent)
            c query rfl
          exact ⟨rfl, hrest.reply, hrest.entries⟩
      have he' := hsame.trans he
      by_cases hs : sender = query
      · subst hs
        rw [deliver_self he, deliver_self he']
        exact hpass _
      · by_cases ha : e.awaited.filter (· ≠ sender) = []
        · rw [deliver_last he hs ha, deliver_last he' hs ha]
          exact hpass _
        · rw [deliver_wait he hs ha, deliver_wait he' hs ha]
          exact ⟨rfl, rfl, h.insert query _⟩

end PendingTable

def Packet.Concerns (C : Atom → Prop) (p : Packet) : Prop := p.kind = .routeAnnounce ∨ C p.query

instance (C : Atom → Prop) [DecidablePred C] (p : Packet) : Decidable (p.Concerns C) :=
  inferInstanceAs (Decidable (_ ∨ _))

def about (C : Atom → Prop) [DecidablePred C] (out : List Outbound) : List Outbound :=
  out.filter fun o => o.packet.Concerns C

theorem about_append (C : Atom → Prop) [DecidablePred C] (out out' : List Outbound) :
    about C (out ++ out') = about C out ++ about C out' := List.filter_append ..

namespace Solver

/-- Rules decompose the queries of a set into its queries. -/
def Within (s : Solver) (C : Atom → Prop) : Prop := ∀ a, C a → ∀ b, s.AskedBy b a → C b

/-- The same solver, but for what is pending outside a set of queries; in the set links do not lead out of it. -/
structure Alike (C : Atom → Prop) (s s' : Solver) : Prop where
  frame : s' = s.withPending s'.pending
  within : s.Within C
  closed : s.pending.Closed C
  entries : PendingTable.Agree C s.pending s'.pending

end Solver

namespace Turn

variable {C : Atom → Prop} {t u : Turn}

/-! ## Work on one side -/

structure Confined (C : Atom → Prop) (t u : Turn) : Prop where
  frame : u.solver = t.solver.withPending u.solver.pending
  closed : u.solver.pending.Closed C
  others : PendingTable.Agree (fun a => ¬ C a) t.solver.pending u.solver.pending
  sent : ∃ out, u.out = t.out ++ out ∧ ∀ o ∈ out, o.packet.kind ≠ .routeAnnounce ∧ C o.packet.query

theorem Confined.refl (ht : t.solver.pending.Closed C) : Confined C t t :=
  ⟨rfl, ht, fun _ _ => rfl, [], (List.append_nil _).symm, List.forall_mem_nil _⟩

theorem Confined.note (h : Confined C t u) (m : Metric) : Confined C t (u.note m) := ⟨h.frame, h.closed, h.others, h.sent⟩

theorem Confined.record (h : Confined C t u) {e : PendingRequest} (he : C e.query)
    (hparent : ∀ a, e.parent = some a → C a) : Confined C t (u.record e) where
  frame := by
    have hframe := h.frame
    rw [Turn.record, setPending, hframe]
    rfl
  closed := h.closed.insert hparent
  others := fun a ha => (PendingTable.agree_insert (C := fun a => ¬ C a) (not_not.mpr he) _ e a ha).trans (h.others a ha)
  sent := h.sent

theorem Confined.send (h : Confined C t u) {o : Outbound} (ho : o.packet.kind ≠ .routeAnnounce ∧ C o.packet.query) :
    Confined C t (u.send o) := by
  obtain ⟨out, hout, hall⟩ := h.sent
  refine ⟨h.frame, h.closed, h.others, out ++ [o], ?_, ?_⟩
  · rw [Turn.send, hout, List.append_assoc]
  · exact List.forall_mem_append.mpr ⟨hall, (List.forall_mem_singleton).mpr ho⟩

theorem Confined.deliver (h : Confined C t u) {query : Atom} (hq : C query) (b : Bindings) (sender : Atom) :
    Confined C t (u.deliver query b sender).2 := by
  have hd := PendingTable.deliver_confined h.closed hq b sender
  obtain ⟨out, hout, hall⟩ := h.sent
  refine ⟨?_, hd.closed, fun a ha => (hd.others a ha).trans (h.others a ha),
    out ++ (u.solver.pending.deliver query b sender).reply.toList, ?_, ?_⟩
  · rw [Turn.deliver, setPending, h.frame]
    rfl
  · rw [Turn.deliver, hout, List.append_assoc]
  · refine List.forall_mem_append.mpr ⟨hall, fun o ho => ?_⟩
    obtain ⟨hkind, hquery⟩ := hd.reply o (Option.mem_toList.mp ho)
    exact ⟨by rw [hkind]; decide, hquery⟩

theorem solve_confined (hC : t.solver.Within C) (ht : t.solver.pending.Closed C) {depth : Nat} {origin : Option NodeId}
    {parent : Option Atom} {query : Atom} {f : Forwarding} (h : solve depth origin parent query t = some (f, u))
    (hq : C query) (hparent : ∀ a, parent = some a → C a) : Confined C t u := by
  refine solve_keeps_within (I := Confined C t) (C := C) (fun _ _ hI he hp => hI.record he hp)
    (fun _ _ _ hI hq => hI.deliver hq _ _) (fun _ _ _ hI hq => hI.send ⟨PacketKind.noConfusion, hq⟩) (fun _ _ hI => hI.note _)
    (fun v a hI ha m hm g hg => ?_) depth h hq hparent (.refl ht)
  rw [hI.frame, Solver.matching_withPending] at hm
  exact hC a ha g ⟨m, hm, hg⟩

theorem take_confined (hC : t.solver.Within C) (ht : t.solver.pending.Closed C) {depth : Nat} {sender : NodeId} {p : Packet}
    (h : take depth t sender p = some u) (hkind : p.kind ≠ .routeAnnounce) (hq : C p.query) : Confined C t u := by
  unfold take at h
  split at h
  · obtain ⟨⟨f, v⟩, hv, rfl⟩ := Option.map_eq_some_iff.mp h
    exact solve_confined hC ht hv hq fun a ha => by cases ha
  · obtain rfl := Option.some.inj h
    unfold respond
    split
    · exact .refl ht
    · rename_i b _
      have hd := (Confined.refl ht).deliver hq b p.query
      split
      · rename_i v hv
        rwa [hv] at hd
      · rename_i v hv
        rw [hv] at hd
        exact hd.note _
  · rename_i hannounce
    exact absurd hannounce hkind

/-! ## The same work beside different entries -/

variable [DecidablePred C]

structure Alike (C : Atom → Prop) [DecidablePred C] (t u : Turn) : Prop where
  solver : t.solver.Alike C u.solver
  sent : about C u.out = about C t.out

theorem Alike.note (h : Alike C t u) (m m' : Metric) : Alike C (t.note m) (u.note m') := ⟨h.solver, h.sent⟩

theorem Alike.send (h : Alike C t u) (out : List Outbound) :
    Alike C { t with out := t.out ++ out } { u with out := u.out ++ out } :=
  ⟨h.solver, by rw [about_append, about_append, h.sent]⟩

theorem Alike.record (h : Alike C t u) {e : PendingRequest} (hparent : ∀ a, e.parent = some a → C a) :
    Alike C (t.record e) (u.record e) where
  solver := {
    frame := by rw [Turn.record, setPending, h.solver.frame]; rfl
    within := h.solver.within
    closed := h.solver.closed.insert hparent
    entries := h.solver.entries.insert e.query e }
  sent := h.sent

theorem Alike.deliver (h : Alike C t u) {query : Atom} (hq : C query) (b : Bindings) (sender : Atom) :
    (u.deliver query b sender).1 = (t.deliver query b sender).1 ∧
      Alike C (t.deliver query b sender).2 (u.deliver query b sender).2 := by
  have hd := PendingTable.deliver_alike h.solver.entries h.solver.closed hq b sender
  refine ⟨hd.consumption, ⟨?_, h.solver.within, ?_, hd.entries⟩, ?_⟩
  · rw [Turn.deliver, setPending, h.solver.frame]
    rfl
  · exact (PendingTable.deliver_confined h.solver.closed hq b sender).closed
  · rw [Turn.deliver, Turn.deliver, about_append, about_append, h.sent, hd.reply]

theorem Alike.forward (h : Alike C t u) (origin : Option NodeId) {parent : Option Atom} (query : Atom)
    (hparent : ∀ a, parent = some a → C a) :
    (u.forward origin parent query).1 = (t.forward origin parent query).1 ∧
      Alike C (t.forward origin parent query).2 (u.forward origin parent query).2 := by
  have hroutes : u.solver.routes = t.solver.routes := by rw [h.solver.frame]; rfl
  have hinterfaces : u.solver.interfaces = t.solver.interfaces := by rw [h.solver.frame]; rfl
  have hrecord : Alike C (t.record ⟨query, parent, [], ∅, none, none, origin⟩)
      (u.record ⟨query, parent, [], ∅, none, none, origin⟩) := h.record hparent
  unfold Turn.forward
  rw [hroutes, hinterfaces]
  split
  · split
    · exact ⟨rfl, hrecord.send _⟩
    · exact ⟨rfl, hrecord.note _ _⟩
  · exact ⟨rfl, hrecord.note _ _⟩

omit [DecidablePred C] in
theorem foldlM_both {α β γ : Type} {R : β → γ → Prop} {f : β → α → Option β} {g : γ → α → Option γ} {l : List α}
    (hfg : ∀ a ∈ l, ∀ b c b', R b c → f b a = some b' → ∃ c', g c a = some c' ∧ R b' c') {b b' : β} {c : γ} (hR : R b c)
    (h : l.foldlM f b = some b') : ∃ c', l.foldlM g c = some c' ∧ R b' c' := by
  induction l generalizing b c with
  | nil =>
    cases h
    exact ⟨c, rfl, hR⟩
  | cons a l ih =>
    rw [List.foldlM_cons] at h
    obtain ⟨b₁, hb₁, h⟩ := Option.bind_eq_some_iff.mp h
    obtain ⟨c₁, hc₁, hR₁⟩ := hfg a (List.mem_cons_self ..) b c b₁ hR hb₁
    rw [List.foldlM_cons, hc₁]
    exact ih (fun x hx => hfg x (List.mem_cons_of_mem _ hx)) hR₁ h

theorem Alike.expand {sub : Atom → Turn → Option Turn} {m : Rule × Bindings} {query : Atom} {parent : Option Atom}
    (hsub : ∀ g ∈ m.1.subgoals, ∀ v w v', Alike C v w → sub g v = some v' → ∃ w', sub g w = some w' ∧ Alike C v' w')
    (h : Alike C t u) (origin : Option NodeId) (hq : C query) (hparent : ∀ a, parent = some a → C a) {t' : Turn}
    (ht : t.expand sub origin parent query m = some t') :
    ∃ u', u.expand sub origin parent query m = some u' ∧ Alike C t' u' := by
  have hrecord := h.record (e := ⟨query, parent, m.1.subgoals.eraseDups, ∅, m.1.composition, some m.2, origin⟩) hparent
  unfold Turn.expand at ht ⊢
  split at ht
  · rename_i hnone
    rw [if_pos hnone]
    cases ht
    exact ⟨_, rfl, (hrecord.deliver hq ∅ query).2⟩
  · rename_i hsome
    rw [if_neg hsome]
    exact foldlM_both hsub hrecord ht

/-- A query of one side is solved in the same way whatever the entries of the other. -/
theorem Alike.solve (depth : Nat) : ∀ {origin : Option NodeId} {parent : Option Atom} {query : Atom} {t t' u : Turn}
    {f : Forwarding}, Alike C t u → C query → (∀ a, parent = some a → C a) →
      solve depth origin parent query t = some (f, t') →
        ∃ u', Turn.solve depth origin parent query u = some (f, u') ∧ Alike C t' u' := by
  induction depth with
  | zero => intro _ _ _ _ _ _ _ _ _ _ h; cases h
  | succ depth ih =>
    intro origin parent query t t' u f hR hq hparent h
    have hguard : u.solver.pending.isAncestor query parent = t.solver.pending.isAncestor query parent :=
      hR.solver.entries.isAncestor hR.solver.closed hparent
    have hmatching : u.solver.matching query = t.solver.matching query := by rw [hR.solver.frame]; rfl
    rw [Turn.solve] at h ⊢
    rw [hguard, hmatching]
    split at h
    · rename_i hcyclic
      rw [if_pos hcyclic]
      cases h
      exact ⟨u, rfl, hR⟩
    · rename_i hcyclic
      rw [if_neg hcyclic]
      split at h
      · obtain ⟨hsame, hforward⟩ := hR.forward origin query hparent
        have hf := Option.some.inj h
        have hf₁ : (t.forward origin parent query).1 = f := congrArg Prod.fst hf
        have hf₂ : (t.forward origin parent query).2 = t' := congrArg Prod.snd hf
        exact ⟨_, congrArg some (Prod.ext (hsame.trans hf₁) rfl), hf₂ ▸ hforward⟩
      · obtain ⟨w, hw, he⟩ := Option.map_eq_some_iff.mp h
        cases he
        refine (foldlM_both (fun m hm x y x' hxy hx => hxy.expand (fun g hg v v' z hv hz => ?_) origin hq hparent hx)
          hR hw).imp fun w' hw' => ⟨Option.map_eq_some_iff.mpr ⟨w', hw'.1, rfl⟩, hw'.2⟩
        obtain ⟨⟨f', z'⟩, hz', rfl⟩ := Option.map_eq_some_iff.mp hz
        obtain ⟨y, hy, hR'⟩ := ih hv (hR.solver.within query hq g ⟨m, hm, hg⟩) (fun a ha => Option.some.inj ha ▸ hq) hz'
        exact ⟨y, Option.map_eq_some_iff.mpr ⟨_, hy, rfl⟩, hR'⟩

theorem Alike.respond (h : Alike C t u) {p : Packet} (hq : C p.query) : Alike C (t.respond p) (u.respond p) := by
  unfold Turn.respond
  split
  · exact h
  · rename_i b _
    obtain ⟨hsame, hd⟩ := h.deliver hq b p.query
    split
    · rename_i v hv
      rw [hv] at hsame hd
      split
      · rename_i w hw
        rwa [hw] at hd
      · rename_i w hw
        rw [hw] at hsame
        cases hsame
    · rename_i v hv
      rw [hv] at hsame hd
      split
      · rename_i w hw
        rw [hw] at hsame
        cases hsame
      · rename_i w hw
        rw [hw] at hd
        exact hd.note _ _

theorem Alike.announced (h : Alike C t u) (sender : NodeId) (p : Packet) :
    Alike C (t.announced sender p).2 (u.announced sender p).2 := by
  obtain ⟨s', out', notes'⟩ := u
  obtain ⟨⟨hframe, hwithin, hclosed, hentries⟩, hsent⟩ := h
  obtain ⟨q, rfl⟩ : ∃ q, s' = t.solver.withPending q := ⟨_, hframe⟩
  have hsame : Alike C t ⟨t.solver.withPending q, out', notes'⟩ := ⟨⟨rfl, hwithin, hclosed, hentries⟩, hsent⟩
  unfold Turn.announced
  by_cases hrole : (t.solver.interfaces.get? sender).map (·.role) ≠ some .solverPeer
  · have hrole' : ((t.solver.withPending q).interfaces.get? sender).map (·.role) ≠ some .solverPeer := hrole
    rw [if_pos hrole, if_pos hrole']
    exact hsame
  · have hrole' : ¬ ((t.solver.withPending q).interfaces.get? sender).map (·.role) ≠ some .solverPeer := hrole
    rw [if_neg hrole, if_neg hrole']
    cases p.announcement with
    | error _ => exact hsame
    | ok a =>
      have hrouted : Alike C { t with solver := { t.solver with routes := (t.solver.routes.apply a).2 } }
          ⟨{ t.solver.withPending q with routes := (t.solver.routes.apply a).2 }, out', notes'⟩ :=
        ⟨⟨rfl, hwithin, hclosed, hentries⟩, hsent⟩
      dsimp only
      rw [Solver.withPending_routes]
      cases (t.solver.routes.apply a).1 with
      | installed r => exact (hrouted.send _).note _ _
      | replaced _ _ => exact hrouted.note _ _
      | unchanged => exact hrouted

theorem Alike.take (h : Alike C t u) {depth : Nat} {sender : NodeId} {p : Packet} (hp : p.Concerns C) {t' : Turn}
    (ht : t.take depth sender p = some t') : ∃ u', u.take depth sender p = some u' ∧ Alike C t' u' := by
  unfold Turn.take at ht ⊢
  cases hkind : p.kind with
  | request =>
    have hq : C p.query := hp.resolve_left (by rw [hkind]; decide)
    simp only [hkind] at ht ⊢
    obtain ⟨⟨f, v⟩, hv, rfl⟩ := Option.map_eq_some_iff.mp ht
    obtain ⟨w, hw, hR⟩ := Alike.solve depth h hq (fun a ha => by cases ha) hv
    exact ⟨w, Option.map_eq_some_iff.mpr ⟨_, hw, rfl⟩, hR⟩
  | response =>
    have hq : C p.query := hp.resolve_left (by rw [hkind]; decide)
    simp only [hkind, Option.some.injEq] at ht ⊢
    exact ⟨_, rfl, ht ▸ h.respond hq⟩
  | routeAnnounce =>
    simp only [hkind, Option.some.injEq] at ht ⊢
    exact ⟨_, rfl, ht ▸ h.announced sender p⟩

end Turn

namespace Solver

variable {C : Atom → Prop} {s s' : Solver} {sender : NodeId} {p : Packet} {t : Turn}

/-- Neither rules nor links lead into a set of queries or out of it. -/
structure Apart (C : Atom → Prop) (s : Solver) : Prop where
  within : s.Within C
  without : s.Within fun a => ¬ C a
  closed : s.pending.Closed C
  closed_without : s.pending.Closed fun a => ¬ C a

theorem Apart.symm (h : s.Apart C) : s.Apart fun a => ¬ C a :=
  ⟨h.without, by simpa only [not_not] using h.within, h.closed_without, by simpa only [not_not] using h.closed⟩

theorem Within.congr (h : s.Within C) (hr : s'.rules = s.rules) : s'.Within C := fun a ha b hb => h a ha b (hb.congr hr.symm)

theorem Handles.confined (h : s.Handles sender p t) (hs : s.Apart C) (hkind : p.kind ≠ .routeAnnounce) (hq : C p.query) :
    Turn.Confined C (Turn.begin s) t := by
  obtain ⟨depth, h⟩ := h
  obtain ⟨u, hu, rfl⟩ := Option.map_eq_some_iff.mp h
  have hc := Turn.take_confined (t := (Turn.begin s).note (.packetReceived s.id p.kind)) hs.within hs.closed hu hkind hq
  exact ⟨hc.frame, hc.closed, hc.others, hc.sent⟩

theorem Apart.confined (hs : s.Apart C) (hc : Turn.Confined C (Turn.begin s) t) : t.solver.Apart C := by
  have hrules : t.solver.rules = s.rules := by rw [hc.frame]; rfl
  exact ⟨hs.within.congr hrules, hs.without.congr hrules, hc.closed, hc.others.closed hs.closed_without⟩

/-- Packets lead to no links across. -/
theorem Apart.handles (hs : s.Apart C) (h : s.Handles sender p t) : t.solver.Apart C := by
  by_cases hkind : p.kind = .routeAnnounce
  · have hpending : t.solver.pending = s.pending := by
      rcases h.cases with ⟨hk, -⟩ | ⟨hk, -⟩ | ⟨-, -, hpending, -⟩
      · rw [hkind] at hk; cases hk
      · rw [hkind] at hk; cases hk
      · exact hpending
    exact ⟨hs.within.congr h.rules, hs.without.congr h.rules, hpending ▸ hs.closed, hpending ▸ hs.closed_without⟩
  · by_cases hq : C p.query
    · exact hs.confined (h.confined hs hkind hq)
    · have hother := (hs.symm.confined (h.confined hs.symm hkind hq)).symm
      simpa only [not_not] using hother

variable [DecidablePred C]

/-- A packet about a set of queries does the same there whatever else is pending. -/
theorem Alike.handles (h : s.Alike C s') (hp : p.Concerns C) (ht : s.Handles sender p t) :
    ∃ u, s'.Handles sender p u ∧ t.solver.Alike C u.solver ∧ about C u.out = about C t.out := by
  obtain ⟨depth, ht⟩ := ht
  obtain ⟨v, hv, rfl⟩ := Option.map_eq_some_iff.mp ht
  have hbegin : Turn.Alike C ((Turn.begin s).note (.packetReceived s.id p.kind))
      ((Turn.begin s').note (.packetReceived s'.id p.kind)) := ⟨h, rfl⟩
  obtain ⟨w, hw, hR⟩ := hbegin.take hp hv
  exact ⟨_, ⟨depth, Option.map_eq_some_iff.mpr ⟨w, hw, rfl⟩⟩, hR.solver, hR.sent⟩

/-- Any other packet makes no difference there. -/
theorem Alike.handles_other (h : s.Alike C s') (hs : s.Apart C) (hp : ¬ p.Concerns C) (ht : s.Handles sender p t) :
    t.solver.Alike C s' ∧ about C t.out = [] := by
  obtain ⟨hkind, hq⟩ := not_or.mp hp
  have hc := ht.confined hs.symm hkind hq
  have hsame : PendingTable.Agree C s.pending t.solver.pending := fun a ha => hc.others a (not_not.mpr ha)
  constructor
  · refine ⟨?_, h.within.congr ht.rules, hsame.closed h.closed, fun a ha => (h.entries a ha).trans (hsame a ha).symm⟩
    rw [hc.frame, h.frame]
    rfl
  · obtain ⟨out, hout, hall⟩ := hc.sent
    rw [hout]
    refine List.filter_eq_nil_iff.mpr fun o ho hconcerns => ?_
    obtain ⟨hk, hnot⟩ := hall o ho
    exact (of_decide_eq_true hconcerns).elim hk hnot

/-- Without the packets about other queries, the same happens in a set of queries. -/
theorem HandlesAll.project {ps : List (NodeId × Packet)} {outs : List (List Outbound)} {s₁ : Solver}
    (h : s.HandlesAll ps outs s₁) (hs : s.Apart C) (hR : s.Alike C s') :
    ∃ outs' s₁', s'.HandlesAll (ps.filter fun p => p.2.Concerns C) outs' s₁' ∧ s₁.Alike C s₁' ∧
      about C outs'.flatten = about C outs.flatten := by
  induction h generalizing s' with
  | nil => exact ⟨[], s', .nil s', hR, rfl⟩
  | @cons s _ p ps t outs ht _ ih =>
    by_cases hp : p.2.Concerns C
    · obtain ⟨u, hu, hR', hout⟩ := hR.handles hp ht
      obtain ⟨outs', s₁', hrest, hend, hsent⟩ := ih (hs.handles ht) hR'
      refine ⟨u.out :: outs', s₁', ?_, hend, ?_⟩
      · rw [List.filter_cons_of_pos (by simpa using hp)]
        exact .cons hu hrest
      · rw [List.flatten_cons, List.flatten_cons, about_append, about_append, hout, hsent]
    · obtain ⟨hR', hout⟩ := hR.handles_other hs hp ht
      obtain ⟨outs', s₁', hrest, hend, hsent⟩ := ih (hs.handles ht) hR'
      refine ⟨outs', s₁', ?_, hend, ?_⟩
      · rwa [List.filter_cons_of_neg (by simpa using hp)]
      · rw [List.flatten_cons, about_append, hout, hsent, List.nil_append]

/-- Queries that rules do not connect do not interfere: what is pending and sent for a set of them depends only on
    its own packets and the announcements. -/
theorem unrelated_apart {S : Atom → Prop} [DecidablePred S] {s t t' : Solver} {ps qs : List (NodeId × Packet)}
    {outs outs' : List (List Outbound)} (hfresh : s.pending = ∅) (hS : ∀ a b, s.AskedBy b a → (S b ↔ S a))
    (hp : s.HandlesAll ps outs t) (hq : s.HandlesAll qs outs' t')
    (hsame : (ps.filter fun p => p.2.Concerns S) = qs.filter fun p => p.2.Concerns S) :
    (∀ a, S a → t.pending.get? a = t'.pending.get? a) ∧ about S outs.flatten = about S outs'.flatten := by
  have hclosed : ∀ C : Atom → Prop, s.pending.Closed C := by
    intro C a _ b hb
    rw [hfresh] at hb
    cases hb
  have hwithin : s.Within S := fun a ha b hb => (hS a b hb).mpr ha
  have hapart : s.Apart S := ⟨hwithin, fun a ha b hb => mt (hS a b hb).mp ha, hclosed _, hclosed _⟩
  have halike : s.Alike S s := ⟨rfl, hwithin, hclosed S, fun _ _ => rfl⟩
  obtain ⟨os, u, hu, hR, hsent⟩ := hp.project hapart halike
  obtain ⟨os', u', hu', hR', hsent'⟩ := hq.project hapart halike
  rw [hsame] at hu
  obtain ⟨rfl, rfl⟩ := hu.unique hu'
  exact ⟨fun a ha => (hR.entries a ha).symm.trans (hR'.entries a ha), hsent.symm.trans hsent'⟩

def desk : Solver :=
  { Solver.create "desk" .standard with
    rules := [⟨⟨"trip", ["?X"]⟩, [⟨"flight", ["?X"]⟩]⟩, ⟨⟨"stay", ["?X"]⟩, [⟨"room", ["?X"]⟩]⟩] }

def Travel (a : Atom) : Prop := a.name = "trip" ∨ a.name = "flight"

instance : DecidablePred Travel := fun _ => inferInstanceAs (Decidable (_ ∨ _))

theorem desk_travel (a b : Atom) (h : desk.AskedBy b a) : Travel b ↔ Travel a := by
  obtain ⟨⟨r, m⟩, hm, hb⟩ := h
  obtain ⟨hr, hu⟩ := mem_matching.mp hm
  have hname : r.head.name = a.name := by
    unfold Rule.unify unify at hu
    split at hu
    · rename_i hn
      exact hn.1
    · cases hu
  rw [Travel, Travel, ← hname]
  simp only [desk, List.mem_cons, List.not_mem_nil, or_false] at hr
  rcases hr with rfl | rfl
  · obtain rfl : b = ⟨"flight", ["?X"]⟩ := List.mem_singleton.mp hb
    decide
  · obtain rfl : b = ⟨"room", ["?X"]⟩ := List.mem_singleton.mp hb
    decide

def trip : Atom := ⟨"trip", ["?w"]⟩

def noon : Packet := .response ⟨"flight", ["?X"]⟩ (.ofList [("?X", "noon")])

/-- The trip is answered in the same way if somebody asks for a stay meanwhile, which waits on. -/
theorem desk_apart :
    ∃ outs outs' t t', desk.HandlesAll [("ann", .request trip), ("bob", .request ⟨"stay", ["?v"]⟩), ("air", noon)] outs t ∧
      desk.HandlesAll [("ann", .request trip), ("air", noon)] outs' t' ∧ t.pending ≠ ∅ ∧ t'.pending = ∅ ∧
      about Travel outs.flatten = [⟨"ann", .response trip (.ofList [("?w", "noon")])⟩] ∧
      (∀ a, Travel a → t.pending.get? a = t'.pending.get? a) ∧ about Travel outs.flatten = about Travel outs'.flatten := by
  obtain ⟨outs, t, hbusy, ht, hanswer⟩ :
      ∃ outs t, desk.HandlesAll [("ann", .request trip), ("bob", .request ⟨"stay", ["?v"]⟩), ("air", noon)] outs t ∧
        t.pending ≠ ∅ ∧ about Travel outs.flatten = [⟨"ann", .response trip (.ofList [("?w", "noon")])⟩] :=
    ⟨_, _, .cons ⟨2, rfl⟩ (.cons ⟨2, rfl⟩ (.cons ⟨0, rfl⟩ (.nil _))), by decide +kernel, by decide +kernel⟩
  obtain ⟨outs', t', hquiet, ht'⟩ :
      ∃ outs t, desk.HandlesAll [("ann", .request trip), ("air", noon)] outs t ∧ t.pending = ∅ :=
    ⟨_, _, .cons ⟨2, rfl⟩ (.cons ⟨0, rfl⟩ (.nil _)), by decide +kernel⟩
  exact ⟨outs, outs', t, t', hbusy, hquiet, ht, ht', hanswer, unrelated_apart rfl desk_travel hbusy hquiet (by decide)⟩

end Solver

end QueryNet
