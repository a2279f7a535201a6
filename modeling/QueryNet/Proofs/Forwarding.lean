/-
  QueryNet.Proofs.Forwarding — what requests a solver sends, and why.

  A solver passes on a query that no rule of its own matches, along the route for the
  query's key. While it works on a request, rules may answer other queries at once, and
  their answers take entries out. They climb along links, and the links from a query
  that was decomposed in the turn lead only to such queries, whatever the table held
  before: to queries that rules match (`Rooted`). So no answer comes to an entry that
  waits for another node, and what justified a request when it was sent holds to the end
  of the turn (`Advances`).

  Proved: every request that a turn sends is justified, and its own query never goes
  back to the node that asked (`requests_justified`).
-/

import QueryNet.Proofs.Separation

namespace QueryNet

namespace Turn

variable {t u v : Turn} {known : Atom → Prop}

def Waits (t : Turn) (q : Atom) : Prop := ∃ e, t.solver.pending.get? q = some e ∧ e.awaited = [] ∧ e.headMap = none

/-- What a solver that asks `n` for `q` goes by. -/
structure Justified (t : Turn) (n : NodeId) (q : Atom) : Prop where
  unmatched : t.solver.matching q = []
  routed : ∃ route, t.solver.routes.get? q.key = some route ∧ route.nexthop = n
  attached : t.solver.interfaces.contains n = true
  waits : Waits t q

def Rooted (t : Turn) (a : Atom) : Prop :=
  ∃ C : Atom → Prop, t.solver.pending.Closed C ∧ (∀ b, C b → t.solver.matching b ≠ []) ∧ C a

/-- From `t` to `u` there was work on known queries that leaves alone who waits for another node. -/
structure Advances (known : Atom → Prop) (t u : Turn) : Prop where
  frame : u.solver = t.solver.withPending u.solver.pending
  rooted : ∀ a, Rooted t a → Rooted u a
  waits : ∀ q, t.solver.matching q = [] → Waits t q → Waits u q
  sent : ∃ out, u.out = t.out ++ out ∧ ∀ o ∈ out, o.packet.kind = .request →
    ∃ q, o.packet = .request q ∧ Justified u o.recipient q ∧ known q

/-! ## Links -/

theorem rooted_closed (t : Turn) : t.solver.pending.Closed (Rooted t) := by
  rintro a ⟨C, hC, hm, ha⟩ b hb
  exact ⟨C, hC, hm, hC a ha b hb⟩

theorem Rooted.matched {a : Atom} (h : Rooted t a) : t.solver.matching a ≠ [] := by
  obtain ⟨C, -, hm, ha⟩ := h
  exact hm a ha

/-- A query that rules match is rooted once its entry links to a rooted one or to none. -/
theorem rooted_record {e : PendingRequest} (hm : t.solver.matching e.query ≠ [])
    (hparent : ∀ a, e.parent = some a → Rooted t a) :
    Rooted (t.record e) e.query ∧ ∀ a, Rooted t a → Rooted (t.record e) a := by
  have hclosed : (t.record e).solver.pending.Closed fun a => a = e.query ∨ Rooted t a := by
    intro a ha b hb
    change (Table.get? (t.solver.pending.insert e.query e) a).bind (·.parent) = some b at hb
    rw [Table.get?_insert] at hb
    split at hb
    · exact .inr (hparent b hb)
    · rename_i hne
      exact .inr (rooted_closed t a (ha.resolve_left hne) b hb)
  have hmatched : ∀ a, a = e.query ∨ Rooted t a → (t.record e).solver.matching a ≠ [] := by
    rintro a (rfl | ha)
    · exact hm
    · exact ha.matched
  exact ⟨⟨_, hclosed, hmatched, .inl rfl⟩, fun a ha => ⟨_, hclosed, hmatched, .inr ha⟩⟩

/-- The entry of a query that no rule matches is on no link from a rooted one. -/
theorem rooted_record_unmatched {e : PendingRequest} (hm : t.solver.matching e.query = []) {a : Atom}
    (ha : Rooted t a) : Rooted (t.record e) a := by
  have hne : ¬ Rooted t e.query := fun h => h.matched hm
  have hagree : PendingTable.Agree (Rooted t) t.solver.pending (t.record e).solver.pending :=
    PendingTable.agree_insert hne t.solver.pending e
  exact ⟨Rooted t, hagree.closed (rooted_closed t), fun _ hb => hb.matched, ha⟩

/-! ## Steps -/

theorem Advances.refl (known : Atom → Prop) (t : Turn) : Advances known t t :=
  ⟨rfl, fun _ h => h, fun _ _ h => h, [], (List.append_nil _).symm, fun _ ho => absurd ho List.not_mem_nil⟩

theorem Advances.matching (h : Advances known t u) (q : Atom) : u.solver.matching q = t.solver.matching q := by
  rw [h.frame, Solver.matching_withPending]

theorem Justified.advance {n : NodeId} {q : Atom} (hj : Justified t n q) (h : Advances known t u) :
    Justified u n q where
  unmatched := (h.matching q).trans hj.unmatched
  routed := by
    rw [h.frame]
    exact hj.routed
  attached := by
    rw [h.frame]
    exact hj.attached
  waits := h.waits q hj.unmatched hj.waits

theorem Advances.trans (h : Advances known t u) (h' : Advances known u v) : Advances known t v := by
  refine ⟨?_, fun a ha => h'.rooted a (h.rooted a ha),
    fun q hq hw => h'.waits q ((h.matching q).trans hq) (h.waits q hq hw), ?_⟩
  · rw [h'.frame, h.frame]
    rfl
  · obtain ⟨out, hout, hsent⟩ := h.sent
    obtain ⟨out', hout', hsent'⟩ := h'.sent
    refine ⟨out ++ out', by rw [hout', hout, List.append_assoc], fun o ho hk => ?_⟩
    rcases List.mem_append.mp ho with ho | ho
    · obtain ⟨q, hq, hj, hknown⟩ := hsent o ho hk
      exact ⟨q, hq, hj.advance h', hknown⟩
    · exact hsent' o ho hk

/-- An entry that a rule makes takes the place of no entry that waits for another node. -/
theorem advances_record {e : PendingRequest} (hm : t.solver.matching e.query ≠ [])
    (hparent : ∀ a, e.parent = some a → Rooted t a) : Advances known t (t.record e) := by
  refine ⟨rfl, (rooted_record hm hparent).2, fun q hq ⟨e', he', hw⟩ => ⟨e', ?_, hw⟩, [], (List.append_nil _).symm,
    fun o ho => absurd ho List.not_mem_nil⟩
  have hne : q ≠ e.query := fun he => hm (he ▸ hq)
  exact (Table.get?_insert ..).trans ((if_neg hne).trans he')

/-- An answer to a rooted query climbs along queries that rules match. -/
theorem advances_deliver {query : Atom} (h : Rooted t query) (b : Bindings) (sender : Atom) :
    Advances known t (t.deliver query b sender).2 := by
  have hd := PendingTable.deliver_confined (rooted_closed t) h b sender
  refine ⟨rfl, fun a ha => ⟨Rooted t, hd.closed, fun _ hb => hb.matched, ha⟩, fun q hq ⟨e, he, hw⟩ => ⟨e, ?_, hw⟩,
    _, rfl, fun o ho hk => ?_⟩
  · exact (hd.others q fun hr => hr.matched hq).trans he
  · rw [(hd.reply o (Option.mem_toList.mp ho)).1] at hk
    cases hk

/-- What is sent for a query that no rule matches. -/
theorem forward_sent (t : Turn) (origin : Option NodeId) (parent : Option Atom) (query : Atom) :
    ∃ out, (t.forward origin parent query).2.out = t.out ++ out ∧ ∀ o ∈ out, o.packet = .request query ∧
      origin ≠ some o.recipient ∧ t.solver.interfaces.contains o.recipient = true ∧
        ∃ route, t.solver.routes.get? query.key = some route ∧ route.nexthop = o.recipient := by
  unfold forward
  split
  · rename_i route hroute
    split
    · rename_i hsend
      refine ⟨[⟨route.nexthop, .request query⟩], rfl, fun o ho => ?_⟩
      rw [List.mem_singleton.mp ho]
      exact ⟨rfl, hsend.1, hsend.2, route, hroute, rfl⟩
    · exact ⟨[], (List.append_nil _).symm, fun o ho => absurd ho List.not_mem_nil⟩
  · exact ⟨[], (List.append_nil _).symm, fun o ho => absurd ho List.not_mem_nil⟩

theorem advances_forward {query : Atom} (hm : t.solver.matching query = []) (hknown : known query)
    (origin : Option NodeId) (parent : Option Atom) : Advances known t (t.forward origin parent query).2 := by
  obtain ⟨hsolver, -⟩ := forward_eq t origin parent query
  obtain ⟨out, hout, hsent⟩ := forward_sent t origin parent query
  have hwaits : Waits (t.forward origin parent query).2 query := by
    refine ⟨.unmatched query parent origin, ?_, rfl, rfl⟩
    rw [hsolver]
    exact Table.get?_insert_self ..
  refine ⟨by rw [hsolver]; rfl, fun a ha => ?_, fun q _ hq => ?_, out, hout, fun o ho _ => ?_⟩
  · have := rooted_record_unmatched (e := .unmatched query parent origin) hm ha
    rwa [Rooted, ← hsolver] at this
  · by_cases he : q = query
    · rw [he]
      exact hwaits
    · obtain ⟨e, hget, hw⟩ := hq
      refine ⟨e, ?_, hw⟩
      rw [hsolver]
      exact (Table.get?_insert ..).trans ((if_neg he).trans hget)
  · obtain ⟨hpacket, -, hattached, hroute⟩ := hsent o ho
    refine ⟨query, hpacket, ⟨?_, ?_, ?_, hwaits⟩, hknown⟩
    · rw [hsolver]
      exact hm
    · rw [hsolver]
      exact hroute
    · rw [hsolver]
      exact hattached

/-! ## Solving -/

/-- One rule is tried for a query whose parent is rooted. -/
theorem advances_expand {sub : Atom → Turn → Option Turn} {m : Rule × Bindings} {query : Atom} {origin : Option NodeId}
    {parent : Option Atom} (hm : m ∈ t.solver.matching query) (hparent : ∀ a, parent = some a → Rooted t a)
    (hsub : ∀ g ∈ m.1.subgoals, ∀ v w, Advances known t v → Rooted v query → sub g v = some w → Advances known v w)
    (h : t.expand sub origin parent query m = some u) : Advances known t u := by
  have hne : t.solver.matching query ≠ [] := List.ne_nil_of_mem hm
  have hrecord : Advances known t (t.record (.matched m query parent origin)) := advances_record hne hparent
  have hrooted : Rooted (t.record (.matched m query parent origin)) query :=
    (rooted_record (e := .matched m query parent origin) hne hparent).1
  unfold expand at h
  split at h
  · cases h
    exact hrecord.trans (advances_deliver hrooted ∅ query)
  · refine (foldlM_keeps (I := fun v => Advances known t v ∧ Rooted v query) (fun g hg b c hc hb => ?_) h
      ⟨hrecord, hrooted⟩).1
    have := hsub g hg b c hb.1 hb.2 hc
    exact ⟨hb.1.trans this, this.rooted query hb.2⟩

theorem solve_advances (depth : Nat) : ∀ {origin : Option NodeId} {parent : Option Atom} {query : Atom} {t u : Turn}
    {f : Forwarding}, solve depth origin parent query t = some (f, u) → (∀ a, parent = some a → Rooted t a) →
      known query → (∀ r ∈ t.solver.rules, ∀ g ∈ r.subgoals, known g) → Advances known t u := by
  induction depth with
  | zero => intro _ _ _ _ _ _ h; cases h
  | succ depth ih =>
    intro origin parent query t u f h hparent hknown hrules
    rw [solve] at h
    split at h
    · cases h
      exact .refl known t
    · split at h
      · rename_i hm
        have hu : (t.forward origin parent query).2 = u := congrArg Prod.snd (Option.some.inj h)
        exact hu ▸ advances_forward hm hknown origin parent
      · obtain ⟨w, hw, he⟩ := Option.map_eq_some_iff.mp h
        cases he
        refine foldlM_keeps (I := Advances known t) (fun m hm b c hc hb => hb.trans ?_) hw (.refl known t)
        have hmb : m ∈ b.solver.matching query := (hb.matching query).symm ▸ hm
        refine advances_expand hmb (fun a ha => hb.rooted a (hparent a ha)) (fun g hg v x hv hquery hx => ?_) hc
        obtain ⟨⟨f, y⟩, hy, rfl⟩ := Option.map_eq_some_iff.mp hx
        have hsame : v.solver.rules = t.solver.rules := by
          rw [hv.frame, hb.frame]
          rfl
        refine ih hy (fun a ha => Option.some.inj ha ▸ hquery) ?_ (hsame ▸ hrules)
        exact hrules m.1 (Solver.mem_matching.mp hm).1 g hg

end Turn

namespace Solver

variable {s : Solver} {sender : NodeId} {p : Packet} {t : Turn}

/-- A request's own query never goes back to the node that asked. -/
theorem handles_unmatched (h : s.Handles sender p t) (hk : p.kind = .request) (hm : s.matching p.query = []) :
    ∀ o ∈ t.out, o.recipient ≠ sender := by
  obtain ⟨depth, h⟩ := h
  obtain ⟨⟨f, v⟩, hv, rfl⟩ := (handle_request_iff hk).mp h
  cases depth with
  | zero => cases hv
  | succ depth =>
    have hmatching : ((Turn.begin s).note (.packetReceived s.id .request)).solver.matching p.query = [] := hm
    rw [Turn.solve, hmatching] at hv
    obtain rfl : (Turn.forward _ (some sender) none p.query).2 = v := congrArg Prod.snd (Option.some.inj hv)
    obtain ⟨out, hout, hsent⟩ :=
      ((Turn.begin s).note (.packetReceived s.id .request)).forward_sent (some sender) none p.query
    intro o ho hback
    have ho : o ∈ [] ++ out := hout ▸ ho
    exact (hsent o ho).2.1 (congrArg some hback.symm)

/-- The turn of a request advances on the request's query and the subgoals of rules. -/
theorem handles_advances (h : s.Handles sender p t) (hk : p.kind = .request) :
    ∃ v, Turn.Advances (fun q => q = p.query ∨ ∃ r ∈ s.rules, q ∈ r.subgoals)
        ((Turn.begin s).note (.packetReceived s.id .request)) v ∧ t.solver = v.solver ∧ t.out = v.out := by
  obtain ⟨depth, h⟩ := h
  obtain ⟨⟨f, v⟩, hv, rfl⟩ := (handle_request_iff hk).mp h
  refine ⟨v, ?_, rfl, rfl⟩
  exact Turn.solve_advances depth hv (fun a ha => by cases ha) (.inl rfl) fun r hr g hg => .inr ⟨r, hr, hg⟩

/-- Whatever a solver has pending, each request that it sends while it handles one is for a query that none of its
    rules matches, goes along the route for the query's key to an attached neighbour, is for the query that was asked
    or a subgoal of a rule, and waits for its answer in the end; and what was asked is not asked back. -/
theorem requests_justified (h : s.Handles sender p t) (hk : p.kind = .request) :
    t.solver = s.withPending t.solver.pending ∧ ∀ o ∈ t.out, o.packet.kind = .request →
      ∃ q, o.packet = .request q ∧ (∀ r ∈ s.rules, r.unify q = none) ∧
        (∃ route, s.routes.get? q.key = some route ∧ route.nexthop = o.recipient) ∧
        (∃ i, s.interfaces.get? o.recipient = some i) ∧
        (q = p.query ∨ ∃ r ∈ s.rules, q ∈ r.subgoals) ∧
        (∃ e, t.solver.pending.get? q = some e ∧ e.awaited = [] ∧ e.headMap = none) ∧
        (q = p.query → o.recipient ≠ sender) := by
  obtain ⟨v, hadvances, hsolver, hout⟩ := handles_advances h hk
  rw [hsolver, hout]
  refine ⟨hadvances.frame, fun o ho hkind => ?_⟩
  obtain ⟨out, hnew, hsent⟩ := hadvances.sent
  have ho' : o ∈ [] ++ out := hnew ▸ ho
  obtain ⟨q, hq, hj, hknown⟩ := hsent o ho' hkind
  have hunmatched : s.matching q = [] := (hadvances.matching q).symm.trans hj.unmatched
  refine ⟨q, hq, fun r hr => ?_, ?_, ?_, hknown, hj.waits,
    fun he => handles_unmatched h hk (he ▸ hunmatched) o (hout ▸ ho)⟩
  · cases hu : r.unify q with
    | none => rfl
    | some b =>
      have : (r, b) ∈ s.matching q := mem_matching.mpr ⟨hr, hu⟩
      rw [hunmatched] at this
      cases this
  · have hrouted := hj.routed
    rw [hadvances.frame] at hrouted
    exact hrouted
  · have hattached := hj.attached
    rw [hadvances.frame] at hattached
    exact Option.isSome_iff_exists.mp hattached

def bureau : Solver :=
  { Solver.create "bureau" .standard with
    rules := [⟨⟨"trip", ["?X"]⟩, [⟨"hotel", ["?X"]⟩, ⟨"flight", ["?X"]⟩, ⟨"train", ["?X"]⟩]⟩,
      ⟨⟨"hotel", ["?X"]⟩, [⟨"@", ["?X"]⟩]⟩]
    routes := .ofList [("flight/1", ⟨"airline", 0⟩)]
    interfaces := .ofList [("airline", ⟨.leaf, 0⟩), ("user", ⟨.leaf, 1⟩)] }

/-- Of a trip, only the flight is asked for; a hotel is answered in between. -/
theorem bureau_justified :
    ∃ t, bureau.Handles "user" (.request ⟨"trip", ["?w"]⟩) t ∧ (Packet.request ⟨"trip", ["?w"]⟩).kind = .request ∧
      t.out = [⟨"airline", .request ⟨"flight", ["?X"]⟩⟩] ∧ (Packet.request ⟨"flight", ["?X"]⟩).kind = .request ∧
      ∃ e, t.solver.pending.get? ⟨"flight", ["?X"]⟩ = some e ∧ e.awaited = [] ∧ e.headMap = none := by
  have hrun : (bureau.handle 2 "user" (.request ⟨"trip", ["?w"]⟩)).map (·.out) =
      some [⟨"airline", .request ⟨"flight", ["?X"]⟩⟩] := by decide +kernel
  obtain ⟨t, hhandle, hout⟩ := Option.map_eq_some_iff.mp hrun
  have ht : bureau.Handles "user" (.request ⟨"trip", ["?w"]⟩) t := ⟨2, hhandle⟩
  obtain ⟨q, hq, -, -, -, -, hwaits, -⟩ :=
    (requests_justified ht rfl).2 ⟨"airline", .request ⟨"flight", ["?X"]⟩⟩ (hout ▸ List.mem_singleton_self _) rfl
  obtain rfl : ⟨"flight", ["?X"]⟩ = q := congrArg Packet.query hq
  exact ⟨t, ht, rfl, hout, rfl, hwaits⟩

end Solver

end QueryNet
