/-
  QueryNet.Proofs.Delivery.Climb — how far an answer reaches.

  An answer that is brought to a pending query climbs along the links: it takes out the
  query's entry, then that of the query it is needed for, and so on, and each entry that
  goes hands on an answer of its own (`handedOn`). It stops at a query that still waits
  for others, that has no entry, any more or at all, or that nobody here needs. Each step
  takes an entry out, so it stops in every state of the table, however the links lead.

  `Climb` says which entries go, what becomes of the next one, and what is sent; nothing
  else changes. Proved: every answer climbs in this way (`deliver_climbs`), whatever the
  state of the solver, and the same response once more does nothing
  (`answer_reaches`).
-/

import QueryNet.Proofs.Guard

namespace QueryNet

namespace PendingTable

/-- Whose answer an entry hands on when it goes, and what that answer is; `a` is the one that takes it out. -/
def handOn (a : Atom × Bindings) (x : Atom × PendingRequest) : Atom × Bindings :=
  (x.1, x.2.answer (if a.1 = x.1 then a.2 else x.2.results.merge a.2))

def handedOn (sender : Atom) (b : Bindings) (gone : List (Atom × PendingRequest)) : Atom × Bindings :=
  gone.foldl handOn (sender, b)

def nextUp (query : Atom) (gone : List (Atom × PendingRequest)) : Option Atom :=
  gone.foldl (fun _ x => x.2.parent) (some query)

/-- The answer `b` to `sender`, brought to `query`, takes the entries `gone` out of the table `p`; it leaves the table
    `q` and sends `reply`. -/
structure Climb (p : PendingTable) (query sender : Atom) (b : Bindings) (gone : List (Atom × PendingRequest))
    (q : PendingTable) (reply : Option Outbound) : Prop where
  /-- Each is the entry of the query that the one before was needed for. -/
  first : ∀ x ∈ gone.head?, x.1 = query
  links : gone.IsChain fun x y => x.2.parent = some y.1
  distinct : (gone.map (·.1)).Nodup
  /-- It was answered itself, or waited for nothing but the answer that comes in. -/
  done : ∀ l x r, gone = l ++ x :: r →
    (handedOn sender b l).1 = x.1 ∨ x.2.awaited.filter (· ≠ (handedOn sender b l).1) = []
  removed : ∀ x ∈ gone, p.get? x.1 = some x.2 ∧ q.get? x.1 = none
  /-- The next one up, if it has an entry, gets the answer and waits for others. -/
  changed : ∀ a, a ∉ gone.map (·.1) → nextUp query gone = some a → ∀ e, p.get? a = some e →
    q.get? a = some { e with
      results := e.results.merge (handedOn sender b gone).2
      awaited := e.awaited.filter (· ≠ (handedOn sender b gone).1) } ∧
    e.awaited.filter (· ≠ (handedOn sender b gone).1) ≠ []
  kept : ∀ a, a ∉ gone.map (·.1) → nextUp query gone ≠ some a → q.get? a = p.get? a
  absent : ∀ a, p.get? a = none → q.get? a = none
  /-- If nobody here needs the last of them, the node that asked it gets the answer. -/
  reply : reply = if nextUp query gone = none then
    (gone.getLast?.bind (·.2.origin)).map (⟨·, .response (handedOn sender b gone).1 (handedOn sender b gone).2⟩)
  else none

variable {p : PendingTable} {query sender : Atom} {e : PendingRequest}

/-! ## Climbing -/

/-- A query whose own answer comes in, or the last that it waits for, hands on its answer. -/
theorem deliver_handOn (h : p.get? query = some e) (hdone : sender = query ∨ e.awaited.filter (· ≠ sender) = [])
    (b : Bindings) :
    p.deliver query b sender = pass (p.erase query) e.parent e.origin query (handOn (sender, b) (query, e)).2 := by
  by_cases hs : sender = query
  · subst hs
    rw [deliver_self h, handOn, if_pos rfl]
  · rw [deliver_last h hs (hdone.resolve_left hs), handOn, if_neg hs]

/-- An answer that finds no entry stops. -/
theorem climb_absent (h : p.get? query = none) (b : Bindings) : Climb p query sender b [] p none where
  first := fun x hx => by cases hx
  links := .nil
  distinct := .nil
  done := fun l x r he => absurd he.symm (List.append_ne_nil_of_right_ne_nil l (List.cons_ne_nil x r))
  removed := fun x hx => absurd hx List.not_mem_nil
  changed := fun a _ hnext e he => by
    obtain rfl := Option.some.inj hnext
    rw [h] at he
    cases he
  kept := fun _ _ _ => rfl
  absent := fun _ ha => ha
  reply := rfl

/-- So does one that is not the last that the query waits for. -/
theorem climb_waits (h : p.get? query = some e) (ha : e.awaited.filter (· ≠ sender) ≠ []) (b : Bindings) :
    Climb p query sender b []
      (p.insert query { e with results := e.results.merge b, awaited := e.awaited.filter (· ≠ sender) }) none where
  first := fun x hx => by cases hx
  links := .nil
  distinct := .nil
  done := fun l x r he => absurd he.symm (List.append_ne_nil_of_right_ne_nil l (List.cons_ne_nil x r))
  removed := fun x hx => absurd hx List.not_mem_nil
  changed := fun a _ hnext e' he' => by
    obtain rfl := Option.some.inj hnext
    obtain rfl := Option.some.inj (h.symm.trans he')
    exact ⟨Table.get?_insert_self .., ha⟩
  kept := fun a _ hnext => by
    have hne : a ≠ query := fun he => hnext (congrArg some he.symm)
    rw [Table.get?_insert, if_neg hne]
  absent := fun a hnone => by
    have hne : a ≠ query := fun he => by rw [he, h] at hnone; cases hnone
    rw [Table.get?_insert, if_neg hne, hnone]
  reply := rfl

/-- An answer to a query that nobody here needs goes to the node that asked. -/
theorem climb_top (h : p.get? query = some e) (hdone : sender = query ∨ e.awaited.filter (· ≠ sender) = [])
    (hparent : e.parent = none) (b : Bindings) :
    Climb p query sender b [(query, e)] (p.erase query)
      (e.origin.map (⟨·, .response query (handOn (sender, b) (query, e)).2⟩)) where
  first := fun x hx => by
    obtain rfl := Option.some.inj hx
    rfl
  links := .singleton _
  distinct := List.pairwise_singleton _ _
  done := fun l x r he => by
    obtain ⟨rfl, rfl, -⟩ := List.append_eq_singleton_iff.mp he.symm |>.resolve_right fun h => by simp at h
    exact hdone
  removed := fun x hx => by
    obtain rfl := List.mem_singleton.mp hx
    exact ⟨h, by rw [Table.get?_erase, if_pos rfl]⟩
  changed := fun a _ hnext => by
    rw [nextUp, List.foldl_cons, List.foldl_nil, hparent] at hnext
    cases hnext
  kept := fun a ha _ => by
    have hne : a ≠ query := fun he => ha (List.mem_singleton.mpr he)
    rw [Table.get?_erase, if_neg hne]
  absent := fun a hnone => by rw [Table.get?_erase, hnone, ite_self]
  reply := by
    rw [nextUp, List.foldl_cons, List.foldl_nil, if_pos hparent]
    rfl

/-- Otherwise it climbs on from the query that needs it, over the table without its entry. -/
theorem Climb.up {a : Atom} {b : Bindings} {gone : List (Atom × PendingRequest)} {q : PendingTable}
    {reply : Option Outbound} (h : p.get? query = some e)
    (hdone : sender = query ∨ e.awaited.filter (· ≠ sender) = []) (hparent : e.parent = some a)
    (hc : Climb (p.erase query) a query (handOn (sender, b) (query, e)).2 gone q reply) :
    Climb p query sender b ((query, e) :: gone) q reply := by
  have hgone : ∀ x ∈ gone, x.1 ≠ query ∧ p.get? x.1 = some x.2 := fun x hx => by
    have hget := (hc.removed x hx).1
    rw [Table.get?_erase] at hget
    split at hget
    · cases hget
    · rename_i hne
      exact ⟨hne, hget⟩
  have hnext : nextUp query ((query, e) :: gone) = nextUp a gone := by
    rw [nextUp, List.foldl_cons, hparent, nextUp]
  have hother : ∀ b ≠ query, (p.erase query).get? b = p.get? b := fun b hb => by rw [Table.get?_erase, if_neg hb]
  refine ⟨fun x hx => ?_, ?_, ?_, fun l x r he => ?_, ?_, fun b hb hup => ?_, fun b hb hup => ?_, fun b hb => ?_, ?_⟩
  · obtain rfl := Option.some.inj hx
    rfl
  · exact List.isChain_cons.mpr ⟨fun y hy => by rw [hparent, hc.first y hy], hc.links⟩
  · refine List.nodup_cons.mpr ⟨fun hmem => ?_, hc.distinct⟩
    obtain ⟨x, hx, he⟩ := List.mem_map.mp hmem
    exact (hgone x hx).1 he
  · cases l with
    | nil =>
      obtain ⟨rfl, -⟩ := List.cons.inj he
      exact hdone
    | cons y l =>
      obtain ⟨rfl, hrest⟩ := List.cons.inj he
      exact hc.done l x r hrest
  · refine List.forall_mem_cons.mpr ⟨⟨h, ?_⟩, fun x hx => ⟨(hgone x hx).2, (hc.removed x hx).2⟩⟩
    exact hc.absent query (by rw [Table.get?_erase, if_pos rfl])
  · rw [List.map_cons, List.mem_cons, not_or] at hb
    rw [← hother b hb.1]
    exact hc.changed b hb.2 (hnext ▸ hup)
  · rw [List.map_cons, List.mem_cons, not_or] at hb
    rw [← hother b hb.1]
    exact hc.kept b hb.2 (hnext ▸ hup)
  · exact hc.absent b (by rw [Table.get?_erase, hb, ite_self])
  · rw [hc.reply, hnext]
    cases gone with
    | nil => rfl
    | cons x gone => rw [List.getLast?_cons_cons]; rfl

/-- Every answer climbs. -/
theorem deliver_climbs (p : PendingTable) (query : Atom) (b : Bindings) (sender : Atom) :
    ∃ gone, Climb p query sender b gone (p.deliver query b sender).pending (p.deliver query b sender).reply := by
  -- on the size of the table: an answer climbs on over a table without the entry that it took out
  induction hn : p.size using Nat.strongRecOn generalizing p query b sender with
  | ind n ih =>
    cases h : p.get? query with
    | none =>
      rw [deliver_unknown h]
      exact ⟨[], climb_absent h b⟩
    | some e =>
      by_cases hdone : sender = query ∨ e.awaited.filter (· ≠ sender) = []
      · rw [deliver_handOn h hdone]
        unfold pass
        cases hparent : e.parent with
        | none => exact ⟨_, climb_top h hdone hparent b⟩
        | some a =>
          obtain ⟨gone, hc⟩ :=
            ih _ (hn ▸ Table.size_erase_lt h) (p.erase query) a (handOn (sender, b) (query, e)).2 query rfl
          exact ⟨_, hc.up h hdone hparent⟩
      · obtain ⟨hs, ha⟩ := not_or.mp hdone
        rw [deliver_wait h hs ha]
        exact ⟨[], climb_waits h ha b⟩

theorem consumption_eq_unknown_iff (p : PendingTable) (query : Atom) (b : Bindings) (sender : Atom) :
    (p.deliver query b sender).consumption = .unknownQuery ↔ p.get? query = none := by
  rcases deliver_cases p query b sender with ⟨hnone, hd⟩ | ⟨e, he, ⟨-, -, hd⟩ | ⟨-, c, hd⟩⟩
  · rw [hd]
    exact iff_of_true rfl hnone
  · rw [hd, he]
    simp
  · rw [hd, he]
    unfold pass
    cases e.parent <;> simp

/-- A query that was answered is pending no longer. -/
theorem get?_deliver_self (p : PendingTable) (query : Atom) (b : Bindings) :
    (p.deliver query b query).pending.get? query = none := by
  cases h : p.get? query with
  | none => exact get?_deliver_eq_none h query b query
  | some e =>
    rw [deliver_self h]
    exact get?_pass_eq_none (by rw [Table.get?_erase, if_pos rfl]) _ _ _ _

end PendingTable

namespace Solver

/-! ## At a solver -/

variable {s : Solver} {sender : NodeId} {p : Packet}

/-- The same response once more does nothing. -/
theorem handles_again (s : Solver) (sender sender' : NodeId) (hk : p.kind = .response) :
    ∃ t u, s.Handles sender p t ∧ t.solver.Handles sender' p u ∧ u.solver = t.solver ∧ u.out = [] := by
  obtain ⟨t, ht, hcase⟩ := s.handles_response sender hk
  obtain ⟨u, hu, ⟨-, hsolver, hout⟩ | ⟨b, hb, hsolver, hout⟩⟩ := t.solver.handles_response sender' hk
  · exact ⟨t, u, ht, hu, hsolver, hout⟩
  · rcases hcase with ⟨hnone, -⟩ | ⟨b', -, ht', -⟩
    · rw [hnone] at hb
      cases hb
    · have hgone : t.solver.pending.get? p.query = none := by
        rw [ht']
        exact PendingTable.get?_deliver_self s.pending p.query b'
      rw [PendingTable.deliver_unknown hgone] at hsolver hout
      exact ⟨t, u, ht, hu, hsolver, hout⟩

/-- Whatever a solver has pending, an answer that is brought to a query comes to an end: it does nothing if the query
    is not pending, and otherwise climbs and changes nothing else. A response that comes once more does nothing. -/
theorem answer_reaches (s : Solver) :
    (∀ query b sender, ∃ c t, s.consume query b sender = (c, t) ∧
      (c = .unknownQuery ↔ s.pending.get? query = none) ∧
      (c = .unknownQuery → t.solver = s ∧ t.out = []) ∧
      t.solver = s.withPending t.solver.pending ∧
      ∃ gone reply, t.out = reply.toList ∧ PendingTable.Climb s.pending query sender b gone t.solver.pending reply) ∧
    ∀ p sender sender', p.kind = .response →
      ∃ t u, s.Handles sender p t ∧ t.solver.Handles sender' p u ∧ u.solver = t.solver ∧ u.out = [] := by
  refine ⟨fun query b sender => ?_, fun p sender sender' hk => s.handles_again sender sender' hk⟩
  have hunknown := PendingTable.consumption_eq_unknown_iff s.pending query b sender
  obtain ⟨gone, hc⟩ := PendingTable.deliver_climbs s.pending query b sender
  refine ⟨_, _, rfl, hunknown, fun hu => ?_, rfl, gone, _, rfl, hc⟩
  have hd : s.pending.deliver query b sender = ⟨.unknownQuery, s.pending, none⟩ :=
    PendingTable.deliver_unknown (hunknown.mp hu) b
  show s.withPending (s.pending.deliver query b sender).pending = s ∧
    (s.pending.deliver query b sender).reply.toList = []
  rw [hd]
  exact ⟨rfl, rfl⟩

/-- Three queries that wait for each other in a ring, as no solver comes to have them. -/
def circle : Solver :=
  let entry (a b c : String) : Atom × PendingRequest :=
    (⟨a, []⟩, ⟨⟨a, []⟩, some ⟨b, []⟩, [⟨c, []⟩], ∅, none, some ∅, none⟩)
  { Solver.create "s" .standard with pending := .ofList [entry "a" "b" "c", entry "b" "c" "a", entry "c" "a" "b"] }

/-- The answer to one goes all the way round and takes out all three, once; there is nobody to tell. -/
theorem circle_answer_reaches :
    (Packet.response ⟨"a", []⟩ ∅).kind = .response ∧ circle.pending.size = 3 ∧
      (∃ t u, circle.Handles "x" (.response ⟨"a", []⟩ ∅) t ∧ t.solver.Handles "y" (.response ⟨"a", []⟩ ∅) u ∧
        t.solver.pending = ∅ ∧ u.solver = t.solver ∧ u.out = []) ∧
      ∃ c t, circle.consume ⟨"d", []⟩ ∅ ⟨"a", []⟩ = (c, t) ∧ c = .unknownQuery ∧ t.solver = circle ∧ t.out = [] := by
  obtain ⟨hconsume, hagain⟩ := answer_reaches circle
  obtain ⟨t, u, ht, hu, hsame, hout⟩ := hagain (.response ⟨"a", []⟩ ∅) "x" "y" rfl
  obtain ⟨c, v, hv, hiff, hnothing, -⟩ := hconsume ⟨"d", []⟩ ∅ ⟨"a", []⟩
  have hempty : t.solver.pending = ∅ := by
    obtain ⟨t', ht', hnone⟩ : ∃ t', circle.Handles "x" (.response ⟨"a", []⟩ ∅) t' ∧ t'.solver.pending = ∅ :=
      ⟨_, ⟨0, rfl⟩, by decide +kernel⟩
    rw [ht.unique ht', hnone]
  have hunknown : c = .unknownQuery := hiff.mpr (by decide +kernel)
  exact ⟨rfl, by decide +kernel, ⟨t, u, ht, hu, hempty, hsame, hout⟩, c, v, hv, hunknown, hnothing hunknown⟩

end Solver

end QueryNet
