/-
  QueryNet.Proofs.Relay — a query goes over any number of hops, and its answer back.

  Packets are in flight, each in the channel that it was sent into. Any one of them may
  be delivered next: a solver handles it and sends what comes of it to its neighbours, a
  source replies, a requester keeps it (`Mail.Delivers`). A chain of solvers leads from a
  requester to a source, each routing the query's key to the next; no rule of theirs
  matches the query, and none of them waits for it (`Chain`).

  A delivery to a solver is what a task of a running network does with the packet that it
  takes (`Network.Move.delivers`). The room of channels and the clock are left out.

  A request goes down the chain and leaves an entry at each solver. If the fact matches,
  the answer takes them out again on its way up. If it does not, the last solver lets it
  go at that and all entries stay. At each moment one packet is in flight, so there is
  only one order of deliveries (`Forced`).

  Proved: whichever deliveries are made, they come to an end; then the requester has got
  one answer and the solvers are as before, or it has got nothing and every solver waits
  (`relayed`).
-/

import QueryNet.Proofs.Course
import QueryNet.Proofs.Traffic.Keeps

namespace QueryNet

inductive Reader where
  /-- A solver, at its link to a neighbour. -/
  | solver (k : SolverId) (neighbor : NodeId)
  /-- A source, which replies into another channel. -/
  | source (source : Source) (reply : ChannelId)
  | requester

/-- Solvers, the packets on their way between nodes, and what the requester has got. -/
structure Mail where
  solvers : List Solver
  flight : List (ChannelId × Packet)
  received : List Packet

namespace Mail

variable {w : ChannelId → Reader} {st st' st'' : Mail} {m j : Nat}

inductive Taken (w : ChannelId → Reader) (solvers : List Solver) (c : ChannelId) (p : Packet) :
    List Solver → List (ChannelId × Packet) → List Packet → Prop
  | solver {k : SolverId} {b : NodeId} {s : Solver} {t : Turn} : w c = .solver k b → solvers[k]? = some s →
      s.Handles b p t → Taken w solvers c p (solvers.set k t.solver) (t.solver.addressed t.out) []
  | source {d : Source} {reply : ChannelId} : w c = .source d reply →
      Taken w solvers c p solvers ((d.answer p).toList.map (reply, ·)) []
  | requester : w c = .requester → Taken w solvers c p solvers [] [p]

inductive Delivers (w : ChannelId → Reader) (st : Mail) : Mail → Prop
  | deliver {x : ChannelId × Packet} {solvers : List Solver} {sent : List (ChannelId × Packet)} {kept : List Packet} :
      x ∈ st.flight → Taken w st.solvers x.1 x.2 solvers sent kept →
      Delivers w st ⟨solvers, st.flight.erase x ++ sent, st.received ++ kept⟩

inductive Deliveries (w : ChannelId → Reader) : Nat → Mail → Mail → Prop
  | none (st : Mail) : Deliveries w 0 st st
  | more {m : Nat} {st st' st'' : Mail} : Delivers w st st' → Deliveries w m st' st'' → Deliveries w (m + 1) st st''

/-- Deliveries of which each is of the only packet on its way. -/
inductive Forced (w : ChannelId → Reader) : Nat → Mail → Mail → Prop
  | none (st : Mail) : Forced w 0 st st
  | more {m : Nat} {st st' st'' : Mail} {x : ChannelId × Packet} : st.flight = [x] → Delivers w st st' →
      Forced w m st' st'' → Forced w (m + 1) st st''

/-! ## One packet at a time -/

theorem not_delivers (h : st.flight = []) : ¬ Delivers w st st' := by
  rintro ⟨hmem, -⟩
  rw [h] at hmem
  cases hmem

theorem Taken.unique {solvers solvers' solvers'' : List Solver} {c : ChannelId} {p : Packet}
    {sent sent' : List (ChannelId × Packet)} {kept kept' : List Packet} (h : Taken w solvers c p solvers' sent kept)
    (h' : Taken w solvers c p solvers'' sent' kept') : solvers' = solvers'' ∧ sent = sent' ∧ kept = kept' := by
  cases h with
  | solver hw hk ht =>
    cases h' with
    | solver hw' hk' ht' =>
      cases hw.symm.trans hw'
      cases hk.symm.trans hk'
      rw [ht.unique ht']
      exact ⟨rfl, rfl, rfl⟩
    | source hw' => cases hw.symm.trans hw'
    | requester hw' => cases hw.symm.trans hw'
  | source hw =>
    cases h' with
    | solver hw' => cases hw.symm.trans hw'
    | source hw' =>
      cases hw.symm.trans hw'
      exact ⟨rfl, rfl, rfl⟩
    | requester hw' => cases hw.symm.trans hw'
  | requester hw =>
    cases h' with
    | solver hw' => cases hw.symm.trans hw'
    | source hw' => cases hw.symm.trans hw'
    | requester => exact ⟨rfl, rfl, rfl⟩

/-- Delivering the only packet has one outcome. -/
theorem Delivers.unique {x : ChannelId × Packet} (hx : st.flight = [x]) (h : Delivers w st st')
    (h' : Delivers w st st'') : st' = st'' := by
  obtain ⟨hmem, ht⟩ := h
  obtain ⟨hmem', ht'⟩ := h'
  obtain rfl := List.mem_singleton.mp (hx ▸ hmem)
  obtain rfl := List.mem_singleton.mp (hx ▸ hmem')
  obtain ⟨rfl, rfl, rfl⟩ := ht.unique ht'
  rfl

theorem Forced.trans (h : Forced w m st st') (h' : Forced w j st' st'') : Forced w (m + j) st st'' := by
  induction h with
  | none => rwa [Nat.zero_add]
  | more hx hd _ ih =>
    rw [Nat.succ_add]
    exact .more hx hd (ih h')

theorem Forced.deliveries (h : Forced w m st st') : Deliveries w m st st' := by
  induction h with
  | none => exact .none _
  | more _ hd _ ih => exact .more hd ih

/-- Whatever is delivered is on the forced way to its end. -/
theorem Forced.rest (h : Forced w m st st') (hend : st'.flight = []) (hrun : Deliveries w j st st'') :
    j ≤ m ∧ Forced w (m - j) st'' st' := by
  induction hrun generalizing m with
  | none => exact ⟨Nat.zero_le _, h⟩
  | more hd _ ih =>
    cases h with
    | none => exact absurd hd (not_delivers hend)
    | more hx hd' hrest =>
      -- both ways begin with the same delivery, so they share the state after it
      obtain rfl := hd.unique hx hd'
      obtain ⟨hle, hforced⟩ := ih hrest
      exact ⟨Nat.succ_le_succ hle, by rwa [Nat.succ_sub_succ]⟩

/-- A forced way goes on while there is a packet. -/
theorem Forced.delivers (h : Forced w m st st') (hflight : st.flight ≠ []) (hend : st'.flight = []) :
    ∃ st'', Delivers w st st'' := by
  cases h with
  | none => exact absurd hend hflight
  | more _ hd _ => exact ⟨_, hd⟩

theorem Forced.eq_of_done (h : Forced w m st st') (hflight : st.flight = []) : st' = st := by
  cases h with
  | none => rfl
  | more _ hd _ => exact absurd hd (not_delivers hflight)

end Mail

/-- A solver's task in a running network delivers the packet that it takes: what it offers at once, and what it has left
    to send then, is what the delivery sends. -/
theorem Network.Move.delivers {w : ChannelId → Reader} {depth since : Nat} {n m : Network} {i : TaskId} {t : Task}
    {offered : List Outbound} {es : List Event} {k : SolverId} {p : Packet} {ch : Channel}
    (h : Network.Move depth n i t offered es m) (hk : t.worker.solver? = some k)
    (hphase : t.phase = .listening since) (htake : (n.channel t.endpoint.rx).take = .packet p ch)
    (hw : w t.endpoint.rx = .solver k t.endpoint.peer) :
    ∃ s t' sent, m.solvers = n.solvers.set k s ∧ m.tasks = n.tasks.set i t' ∧
      Mail.Taken w n.solvers t.endpoint.rx p m.solvers sent [] ∧ sent.Perm (s.addressed (offered ++ t'.toSend)) := by
  have hleaf : t.worker.solver? ≠ none := by simp [hk]
  cases h with
  | @serve _ p' ch' k' s turn _ htake' hk' hs hturn =>
    cases hk.symm.trans hk'
    cases htake.symm.trans htake'
    have hsolvers := (same_offer (n.handled t ch k turn) turn.solver (turn.out.filter isAnnouncement)).solvers
    have htasks := tasks_offer (n.handled t ch k turn) turn.solver (turn.out.filter isAnnouncement)
    refine ⟨turn.solver, _, turn.solver.addressed turn.out, hsolvers, congrArg (List.set · i _) htasks, ?_, ?_⟩
    · have htaken := Mail.Taken.solver hw hs ⟨depth, hturn⟩
      exact hsolvers ▸ htaken
    · exact (List.filter_append_perm isAnnouncement turn.out).symm.filterMap _
  | reply _ _ hworker =>
    rw [hworker] at hk
    cases hk
  | ignore _ _ hnone => exact absurd hnone hleaf
  | answered _ _ hnone => exact absurd hnone hleaf
  | idle _ hempty => cases htake.symm.trans hempty
  | close _ hclosed => cases htake.symm.trans hclosed
  | late _ hworker =>
    rw [hworker] at hk
    cases hk
  | rest hsending => cases hphase.symm.trans hsending
  | renew hsending => cases hphase.symm.trans hsending
  | send hsending => cases hphase.symm.trans hsending
  | skip hsending => cases hphase.symm.trans hsending
  | enlist hsending => cases hphase.symm.trans hsending
  | withdraw hsending => cases hphase.symm.trans hsending
  | lose hsending => cases hphase.symm.trans hsending
  | hangUp hsending => cases hphase.symm.trans hsending

/-! ## Hops -/

namespace Turn

variable {t : Turn} {q : Atom} {origin : Option NodeId} {parent : Option Atom}

theorem forward_along {route : Route} {i : Interface} (hroute : t.solver.routes.get? q.key = some route)
    (hi : t.solver.interfaces.get? route.nexthop = some i) (hne : origin ≠ some route.nexthop) :
    t.forward origin parent q =
      (.forwarded route.nexthop, (t.record (.unmatched q parent origin)).send ⟨route.nexthop, .request q⟩) := by
  have hcontains : t.solver.interfaces.contains route.nexthop = true := by
    rw [Table.contains, hi]
    rfl
  simp only [forward, hroute]
  exact if_pos ⟨hne, hcontains⟩

/-- A query that another node asks is its own ancestor never. -/
theorem solve_unmatched (h : t.solver.matching q = []) : t.solve 1 origin none q = some (t.forward origin none q) := by
  rw [solve, h]
  exact if_neg Bool.false_ne_true

theorem respond_consumed {b : Bindings} {pending : PendingTable} {reply : Option Outbound}
    (h : t.solver.pending.deliver q b q = ⟨.consumed, pending, reply⟩) :
    t.respond (.response q b) = { t.setPending pending with out := t.out ++ reply.toList } := by
  have hd : t.deliver q b q = (.consumed, { t.setPending pending with out := t.out ++ reply.toList }) := by
    rw [deliver, h]
  simp only [respond, Packet.response, hd]

end Turn

namespace Solver

def waiting (s : Solver) (q : Atom) (asker : NodeId) : Solver :=
  s.withPending (s.pending.insert q (.unmatched q none (some asker)))

/-- The solver takes the query from one node and sends it to another. -/
structure Relays (s : Solver) (q : Atom) (prev next : NodeId) (back out : ChannelId) : Prop where
  unmatched : s.matching q = []
  idle : s.pending.get? q = none
  route : ∃ route, s.routes.get? q.key = some route ∧ route.nexthop = next
  asker : (s.interfaces.get? prev).map (·.tx) = some back
  nexthop : (s.interfaces.get? next).map (·.tx) = some out

variable {s : Solver} {q : Atom} {prev next : NodeId} {back out : ChannelId}

theorem handles_of_take {d : Nat} {b : NodeId} {p : Packet} {t : Turn}
    (h : ((Turn.begin s).note (.packetReceived s.id p.kind)).take d b p = some t) :
    s.Handles b p (t.note (.pendingRequests s.id t.solver.pending.size)) :=
  ⟨d, by rw [handle, h]; rfl⟩

theorem addressed_singleton {b : NodeId} {i : Interface} (h : s.interfaces.get? b = some i) (p : Packet) :
    s.addressed [⟨b, p⟩] = [(i.tx, p)] := by
  simp [addressed, h]

/-- The query leaves an entry and goes on along its route, unless that leads back. -/
theorem Relays.request (h : s.Relays q prev next back out) (hne : prev ≠ next) :
    ∃ t, s.Handles prev (.request q) t ∧ t.solver = s.waiting q prev ∧
      t.solver.addressed t.out = [(out, .request q)] := by
  obtain ⟨route, hroute, rfl⟩ := h.route
  obtain ⟨i, hi, rfl⟩ := Option.map_eq_some_iff.mp h.nexthop
  have hsolve := (Turn.solve_unmatched (t := (Turn.begin s).note (.packetReceived s.id .request)) h.unmatched).trans
    (congrArg some (Turn.forward_along hroute hi fun he => hne (Option.some.inj he)))
  have haddressed := addressed_singleton (s := s.waiting q prev) hi (.request q)
  exact ⟨_, handles_of_take (congrArg (Option.map Prod.snd) hsolve), rfl, haddressed⟩

/-- The answer takes the entry out and goes back to who asked. -/
theorem Relays.response (h : s.Relays q prev next back out) (b : Bindings) :
    ∃ t, (s.waiting q prev).Handles next (.response q b) t ∧ t.solver = s ∧
      t.solver.addressed t.out = [(back, .response q b)] := by
  obtain ⟨i, hi, rfl⟩ := Option.map_eq_some_iff.mp h.asker
  have hdeliver : (s.waiting q prev).pending.deliver q b q = ⟨.consumed, s.pending, some ⟨prev, .response q b⟩⟩ :=
    PendingTable.deliver_insert_self h.idle _ b
  have hrespond :=
    Turn.respond_consumed (t := (Turn.begin (s.waiting q prev)).note (.packetReceived s.id .response)) hdeliver
  exact ⟨_, handles_of_take (d := 0) (congrArg some hrespond), rfl, addressed_singleton hi _⟩

/-- That nothing matches is not passed on. -/
theorem handles_noMatch (s : Solver) (q : Atom) (b : NodeId) :
    ∃ t, s.Handles b (.noMatch q) t ∧ t.solver = s ∧ t.out = [] :=
  ⟨_, ⟨0, rfl⟩, rfl, rfl⟩

/-- Two links have channels of their own, so who asked is not who is asked next. -/
theorem Relays.ne (h : s.Relays q prev next back out) (hne : back ≠ out) : prev ≠ next := by
  rintro rfl
  exact hne (Option.some.inj (h.asker.symm.trans h.nexthop))

end Solver

/-- Solvers that relay a query in a row, from a node `prev` on, which sends it into one channel and gets the answer out
    of another; the last one sends it into `out` to a node `dest`, whose replies come out of `ret`. -/
inductive Chain (w : ChannelId → Reader) (q : Atom) (dest : NodeId) (out ret : ChannelId) :
    NodeId → ChannelId → ChannelId → List (SolverId × Solver) → Prop
  | last {prev : NodeId} {into back : ChannelId} {k : SolverId} {s : Solver} : s.Relays q prev dest back out →
      w into = .solver k prev → w ret = .solver k dest → Chain w q dest out ret prev into back [(k, s)]
  | cons {prev : NodeId} {into back onto from' : ChannelId} {k k' : SolverId} {s s' : Solver}
      {rest : List (SolverId × Solver)} : s.Relays q prev s'.id back onto → w into = .solver k prev →
      w from' = .solver k s'.id → Chain w q dest out ret s.id onto from' ((k', s') :: rest) →
      Chain w q dest out ret prev into back ((k, s) :: (k', s') :: rest)

def previous : NodeId → List (SolverId × Solver) → Nat → NodeId
  | _, x :: row, i + 1 => previous x.2.id row i
  | prev, _, _ => prev

def allWaiting (q : Atom) : NodeId → List (SolverId × Solver) → List Solver → List Solver
  | _, [], solvers => solvers
  | prev, (k, s) :: row, solvers => allWaiting q s.id row (solvers.set k (s.waiting q prev))

structure InRow (row : List (SolverId × Solver)) (solvers : List Solver) : Prop where
  distinct : (row.map (·.1)).Nodup
  solver : ∀ x ∈ row, solvers[x.1]? = some x.2

variable {w : ChannelId → Reader} {q : Atom} {dest prev : NodeId} {out ret into back c : ChannelId}
  {row : List (SolverId × Solver)} {solvers : List Solver} {k : SolverId} {s s' : Solver} {p : Packet} {b : Bindings}
  {received : List Packet}

/-- What one solver of the chain becomes is nothing to the others. -/
theorem InRow.tail {x : SolverId × Solver} (h : InRow (x :: row) solvers) (s' : Solver) :
    InRow row (solvers.set x.1 s') := by
  obtain ⟨hx, hdistinct⟩ := List.nodup_cons.mp h.distinct
  refine ⟨hdistinct, fun y hy => ?_⟩
  have hne : x.1 ≠ y.1 := fun he => hx (List.mem_map.mpr ⟨y, hy, he.symm⟩)
  rw [List.getElem?_set_ne hne]
  exact h.solver y (List.mem_cons_of_mem _ hy)

theorem InRow.set_head (h : InRow ((k, s) :: row) solvers) (s' : Solver) : (solvers.set k s')[k]? = some s' :=
  List.getElem?_set_self (List.getElem?_eq_some_iff.mp (h.solver (k, s) (List.mem_cons_self ..))).1

theorem InRow.restore (h : InRow ((k, s) :: row) solvers) (s' : Solver) : (solvers.set k s').set k s = solvers := by
  rw [List.set_set]
  exact set_of_getElem? (h.solver (k, s) (List.mem_cons_self ..))

/-! ## Single deliveries -/

theorem Mail.Taken.forced {solvers' : List Solver} {sent : List (ChannelId × Packet)} {kept : List Packet}
    (h : Taken w solvers c p solvers' sent kept) :
    Forced w 1 ⟨solvers, [(c, p)], received⟩ ⟨solvers', sent, received ++ kept⟩ := by
  have hd : Delivers w ⟨solvers, [(c, p)], received⟩ ⟨solvers', [(c, p)].erase (c, p) ++ sent, received ++ kept⟩ :=
    .deliver (List.mem_singleton_self _) h
  rw [List.erase_cons_head, List.nil_append] at hd
  exact .more rfl hd (.none _)

theorem forced_solver {node : NodeId} {t : Turn} {sent : List (ChannelId × Packet)} (hw : w c = .solver k node)
    (hk : solvers[k]? = some s) (ht : s.Handles node p t) (hs : t.solver = s') (ha : t.solver.addressed t.out = sent) :
    Mail.Forced w 1 ⟨solvers, [(c, p)], received⟩ ⟨solvers.set k s', sent, received⟩ := by
  have h : Mail.Forced w 1 ⟨solvers, [(c, p)], received⟩ _ := (Mail.Taken.solver hw hk ht).forced
  rwa [List.append_nil, ha, hs] at h

theorem forced_source {d : Source} {reply : Packet} (hw : w out = .source d ret) (hp : d.answer p = some reply) :
    Mail.Forced w 1 ⟨solvers, [(out, p)], received⟩ ⟨solvers, [(ret, reply)], received⟩ := by
  have h : Mail.Forced w 1 ⟨solvers, [(out, p)], received⟩ _ := (Mail.Taken.source hw).forced
  rwa [List.append_nil, hp] at h

/-! ## Down and up -/

theorem Chain.into_eq (h : Chain w q dest out ret prev into back ((k, s) :: row)) : w into = .solver k prev := by
  cases h with
  | last _ hinto => exact hinto
  | cons _ hinto => exact hinto

structure Outward (w : ChannelId → Reader) (back : ChannelId) (row : List (SolverId × Solver)) : Prop where
  solver : ∀ k node, w back = .solver k node → k ∉ row.map (·.1)
  source : ∀ d reply, w back ≠ .source d reply

theorem Outward.ne_of_solver (h : Outward w back row) {node : NodeId} (hk : k ∈ row.map (·.1))
    (hw : w c = .solver k node) : back ≠ c := by
  rintro rfl
  exact h.solver k node hw hk

theorem outward_tail {x : SolverId × Solver} {node : NodeId} (hrow : InRow (x :: row) solvers)
    (hw : w back = .solver x.1 node) : Outward w back row := by
  refine ⟨fun k node' hk => ?_, fun d reply hd => ?_⟩
  · cases hw.symm.trans hk
    exact (List.nodup_cons.mp hrow.distinct).1
  · cases hw.symm.trans hd

theorem outward_requester (hw : w back = .requester) : Outward w back row := by
  refine ⟨fun k node hk => ?_, fun d reply hd => ?_⟩
  · cases hw.symm.trans hk
  · cases hw.symm.trans hd

/-- The request goes down and leaves an entry at each solver. -/
theorem Chain.down (h : Chain w q dest out ret prev into back row) {d : Source} (hout : w out = .source d ret)
    (hrow : InRow row solvers) (hback : Outward w back row) :
    Mail.Forced w row.length ⟨solvers, [(into, .request q)], received⟩
      ⟨allWaiting q prev row solvers, [(out, .request q)], received⟩ := by
  induction h generalizing solvers with
  | @last prev into back k s hr hinto hret =>
    have hne : back ≠ out := by
      rintro rfl
      exact hback.source d ret hout
    obtain ⟨t, ht, hs, haddressed⟩ := hr.request (hr.ne hne)
    exact forced_solver hinto (hrow.solver (k, s) (List.mem_cons_self ..)) ht hs haddressed
  | @cons prev into back onto from' k k' s s' rest hr hinto hfrom hrest ih =>
    -- the query goes on and not back: the way on leads to a solver of the chain, the way back to none of the rest
    have hne : back ≠ onto := hback.ne_of_solver (k := k') (by simp) hrest.into_eq
    obtain ⟨t, ht, hs, haddressed⟩ := hr.request (hr.ne hne)
    have hhop : Mail.Forced w 1 ⟨solvers, [(into, .request q)], received⟩ _ :=
      forced_solver hinto (hrow.solver (k, s) (List.mem_cons_self ..)) ht hs haddressed
    have hdown := ih (hrow.tail (s.waiting q prev)) (outward_tail hrow hfrom)
    have hall := hhop.trans hdown
    rwa [Nat.add_comm] at hall

/-- The answer goes up and takes the entries out. -/
theorem Chain.up (h : Chain w q dest out ret prev into back row) (hrow : InRow row solvers) (b : Bindings) :
    Mail.Forced w row.length ⟨allWaiting q prev row solvers, [(ret, .response q b)], received⟩
      ⟨solvers, [(back, .response q b)], received⟩ := by
  induction h generalizing solvers with
  | @last prev into back k s hr hinto hret =>
    obtain ⟨t, ht, hs, haddressed⟩ := hr.response b
    have hhop : Mail.Forced w 1 ⟨_, [(ret, .response q b)], received⟩ _ :=
      forced_solver hret (hrow.set_head (s.waiting q prev)) ht hs haddressed
    rwa [hrow.restore] at hhop
  | @cons prev into back onto from' k k' s s' rest hr hinto hfrom hrest ih =>
    obtain ⟨t, ht, hs, haddressed⟩ := hr.response b
    -- the rest of the chain is gone through first, while this solver waits
    have hup := ih (hrow.tail (s.waiting q prev))
    have hhop : Mail.Forced w 1 ⟨_, [(from', .response q b)], received⟩ _ :=
      forced_solver hfrom (hrow.set_head (s.waiting q prev)) ht hs haddressed
    rw [hrow.restore] at hhop
    exact hup.trans hhop

/-! ## What is left -/

theorem length_allWaiting (q : Atom) (row : List (SolverId × Solver)) (prev : NodeId) (solvers : List Solver) :
    (allWaiting q prev row solvers).length = solvers.length := by
  induction row generalizing prev solvers with
  | nil => rfl
  | cons x row ih => exact (ih x.2.id _).trans List.length_set

/-- Solvers outside of the chain are as before. -/
theorem getElem?_allWaiting_of_notMem (q : Atom) (prev : NodeId) (hk : k ∉ row.map (·.1)) :
    (allWaiting q prev row solvers)[k]? = solvers[k]? := by
  induction row generalizing prev solvers with
  | nil => rfl
  | cons x row ih =>
    obtain ⟨hne, hrest⟩ := not_or.mp (fun h => hk (List.mem_cons.mpr h))
    exact (ih x.2.id hrest).trans (List.getElem?_set_ne (Ne.symm hne))

/-- Each solver of the chain waits for what the one before asked. -/
theorem getElem?_allWaiting (hrow : InRow row solvers) {i : Nat} (hi : row[i]? = some (k, s)) :
    (allWaiting q prev row solvers)[k]? = some (s.waiting q (previous prev row i)) := by
  induction row generalizing prev solvers i with
  | nil => cases hi
  | cons x row ih =>
    cases i with
    | zero =>
      cases hi
      exact (getElem?_allWaiting_of_notMem q s.id (List.nodup_cons.mp hrow.distinct).1).trans (hrow.set_head _)
    | succ i => exact ih (hrow.tail (x.2.waiting q prev)) hi

/-- The last solver is the one that gets the replies. -/
theorem Chain.exists_last (h : Chain w q dest out ret prev into back row) :
    ∃ k ∈ row.map (·.1), w ret = .solver k dest := by
  induction h with
  | @last prev into back k s _ _ hret => exact ⟨k, List.mem_singleton_self k, hret⟩
  | cons _ _ _ _ ih =>
    obtain ⟨k, hk, hret⟩ := ih
    exact ⟨k, List.mem_cons_of_mem _ hk, hret⟩

/-- The last solver lets it go at a reply that nothing matches. -/
theorem Chain.stay (h : Chain w q dest out ret prev into back row) (hrow : InRow row solvers) :
    Mail.Forced w 1 ⟨allWaiting q prev row solvers, [(ret, .noMatch q)], received⟩
      ⟨allWaiting q prev row solvers, [], received⟩ := by
  obtain ⟨k, hk, hret⟩ := h.exists_last
  obtain ⟨x, hx, rfl⟩ := List.mem_map.mp hk
  have hlt : x.1 < (allWaiting q prev row solvers).length := by
    rw [length_allWaiting]
    exact (List.getElem?_eq_some_iff.mp (hrow.solver x hx)).1
  have hget := List.getElem?_eq_getElem hlt
  obtain ⟨t, ht, hs, hout⟩ := Solver.handles_noMatch (allWaiting q prev row solvers)[x.1] q dest
  have hstay : Mail.Forced w 1 ⟨_, [(ret, .noMatch q)], received⟩ _ :=
    forced_solver hret hget ht hs (congrArg t.solver.addressed hout)
  rwa [set_of_getElem? hget] at hstay

theorem Source.answer_matched {d : Source} (hb : matchFact q d.fact = some b) :
    d.answer (.request q) = some (.response q b) := by
  simp [Source.answer, Packet.request, hb]

theorem Source.answer_unmatched {d : Source} (hb : matchFact q d.fact = none) :
    d.answer (.request q) = some (.noMatch q) := by
  simp [Source.answer, Packet.request, hb]

/-! ## There and back -/

/-- All that the request leads to, if the fact matches: each solver is gone through twice. -/
theorem Chain.answered (h : Chain w q dest out ret prev into back row) {d : Source} (hout : w out = .source d ret)
    (hend : w back = .requester) (hrow : InRow row solvers) {b : Bindings} (hb : matchFact q d.fact = some b) :
    Mail.Forced w (2 * row.length + 2) ⟨solvers, [(into, .request q)], []⟩ ⟨solvers, [], [.response q b]⟩ := by
  have hreturned : Mail.Forced w (row.length + 1 + row.length) ⟨solvers, [(into, .request q)], []⟩
      ⟨solvers, [(back, .response q b)], []⟩ :=
    ((h.down hout hrow (outward_requester hend)).trans (forced_source hout (Source.answer_matched hb))).trans
      (h.up hrow b)
  have hall := hreturned.trans (Mail.Taken.requester hend).forced
  have hcount : row.length + 1 + row.length + 1 = 2 * row.length + 2 := by omega
  rwa [hcount] at hall

/-- And if it does not match. -/
theorem Chain.unanswered (h : Chain w q dest out ret prev into back row) {d : Source} (hout : w out = .source d ret)
    (hend : w back = .requester) (hrow : InRow row solvers) (hb : matchFact q d.fact = none) :
    Mail.Forced w (row.length + 2) ⟨solvers, [(into, .request q)], []⟩ ⟨allWaiting q prev row solvers, [], []⟩ := by
  have hreplied : Mail.Forced w (row.length + 1) ⟨solvers, [(into, .request q)], []⟩
      ⟨allWaiting q prev row solvers, [(ret, .noMatch q)], []⟩ :=
    (h.down hout hrow (outward_requester hend)).trans (forced_source hout (Source.answer_unmatched hb))
  exact hreplied.trans (h.stay hrow)

/-- In whatever order packets are delivered, they come to an end, and the requester at the head of the chain has the one
    answer if the fact matches, with all solvers as before. If it does not, the requester has nothing and each solver of
    the chain has one more entry, for the query as the node before it asked. -/
theorem relayed (h : Chain w q dest out ret prev into back row) {d : Source} (hout : w out = .source d ret)
    (hend : w back = .requester) (hrow : InRow row solvers) {m : Nat} {st : Mail}
    (hrun : Mail.Deliveries w m ⟨solvers, [(into, .request q)], []⟩ st) :
    m ≤ 2 * row.length + 2 ∧ (st.flight ≠ [] → ∃ st', Mail.Delivers w st st') ∧
      (st.flight = [] →
        (∀ b, matchFact q d.fact = some b → st.received = [.response q b] ∧ st.solvers = solvers) ∧
        (matchFact q d.fact = none → st.received = [] ∧ st.solvers.length = solvers.length ∧
          (∀ (i : Nat) (k : SolverId) (s : Solver), row[i]? = some (k, s) →
            st.solvers[k]? = some (s.waiting q (previous prev row i))) ∧
          ∀ k, k ∉ row.map (·.1) → st.solvers[k]? = solvers[k]?)) := by
  cases hb : matchFact q d.fact with
  | some b =>
    obtain ⟨hle, hrest⟩ := (h.answered hout hend hrow hb).rest rfl hrun
    refine ⟨hle, (hrest.delivers · rfl), fun hdone => ⟨fun b' hb' => ?_, fun hnone => ?_⟩⟩
    · obtain rfl := hrest.eq_of_done hdone
      cases hb'
      exact ⟨rfl, rfl⟩
    · cases hnone
  | none =>
    obtain ⟨hle, hrest⟩ := (h.unanswered hout hend hrow hb).rest rfl hrun
    refine ⟨by omega, (hrest.delivers · rfl), fun hdone => ⟨fun b' hb' => ?_, fun _ => ?_⟩⟩
    · cases hb'
    · obtain rfl := hrest.eq_of_done hdone
      exact ⟨rfl, length_allWaiting q row prev solvers, fun i k s hi => getElem?_allWaiting hrow hi,
        fun k hk => getElem?_allWaiting_of_notMem q prev hk⟩

/-! ## A hat in the attic -/

def upstairs : Network :=
  let rooms := ((Network.empty.addSolver "hall" .standard).addSolver "attic" .standard).connect "hall" "attic"
  let ends := (rooms.network.attachRequest "hall" "caller").network.attachSource "attic" "trunk" "hat/1"
  (ends.network.addRoute "hall" "hat/1" "attic" 1).network

def trunk : Source := ⟨"trunk", ⟨"hat", ["bowler"]⟩⟩

def stairs : ChannelId → Reader
  | 0 => .solver 1 "hall"
  | 1 => .solver 0 "attic"
  | 3 => .solver 0 "caller"
  | 4 => .source trunk 5
  | 5 => .solver 1 "trunk"
  | _ => .requester

def upstairsRow : List (SolverId × Solver) := upstairs.solvers.zipIdx.map Prod.swap

theorem upstairs_chain {q : Atom} (hkey : q.key = "hat/1") : Chain stairs q "trunk" 4 5 "caller" 3 2 upstairsRow := by
  have hlast : Chain stairs q "trunk" 4 5 "hall" 0 1 upstairsRow.tail := by
    refine .last ⟨rfl, rfl, ⟨⟨"trunk", 0⟩, ?_, rfl⟩, rfl, rfl⟩ rfl rfl
    rw [hkey]
    rfl
  refine .cons ⟨rfl, rfl, ⟨⟨"attic", 1⟩, ?_, rfl⟩, rfl, rfl⟩ rfl rfl hlast
  rw [hkey]
  rfl

theorem upstairs_inRow : InRow upstairsRow upstairs.solvers := ⟨by decide +kernel, by decide +kernel⟩

/-- A query for any hat is answered, and one for another hat is waited for by both. -/
theorem upstairs_relayed :
    (∃ st, Mail.Deliveries stairs 6 ⟨upstairs.solvers, [(3, .request ⟨"hat", ["?X"]⟩)], []⟩ st ∧
      st.received = [.response ⟨"hat", ["?X"]⟩ (.ofList [("?X", "bowler")])] ∧ st.solvers = upstairs.solvers) ∧
    ∃ st, Mail.Deliveries stairs 4 ⟨upstairs.solvers, [(3, .request ⟨"hat", ["top"]⟩)], []⟩ st ∧ st.received = [] ∧
      st.solvers.map (fun s => (s.pending.get? ⟨"hat", ["top"]⟩).map (·.origin)) =
        [some (some "caller"), some (some "hall")] := by
  constructor
  · have h := upstairs_chain (q := ⟨"hat", ["?X"]⟩) (by decide +kernel)
    have hrun := (h.answered rfl rfl upstairs_inRow rfl).deliveries
    obtain ⟨hreceived, hsolvers⟩ := ((relayed h rfl rfl upstairs_inRow hrun).2.2 rfl).1 _ rfl
    exact ⟨_, hrun, hreceived, hsolvers⟩
  · have h := upstairs_chain (q := ⟨"hat", ["top"]⟩) (by decide +kernel)
    have hrun := (h.unanswered rfl rfl upstairs_inRow rfl).deliveries
    obtain ⟨hreceived, -⟩ := ((relayed h rfl rfl upstairs_inRow hrun).2.2 rfl).2 rfl
    exact ⟨_, hrun, hreceived, by decide +kernel⟩

end QueryNet
