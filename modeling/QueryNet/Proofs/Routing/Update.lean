/-
  QueryNet.Proofs.Routing.Update — how routes change.

  Of a route and the one that an announcement offers, the table keeps the better
  (`Route.pick`). It is the only change that handling a packet makes to a solver's
  routes (`handle_cases`), and only announcements from peers make it: questions and
  answers leave the routes alone and send no announcements.
-/

import QueryNet.Proofs.Announcement
import QueryNet.Proofs.Delivery
import QueryNet.Proofs.Handling
import QueryNet.Proofs.Network

namespace QueryNet

/-! ## Tables -/

def Route.pick (old : Option Route) (offered : Route) : Route :=
  match old with
  | none => offered
  | some r => if r.isWorseThan offered then offered else r

theorem Route.isWorseThan_iff {r other : Route} :
    r.isWorseThan other = true ↔ other.metric < r.metric ∨ other.metric = r.metric ∧ other.nexthop < r.nexthop := by
  simp [isWorseThan]

theorem Route.pick_metric_le (old : Option Route) (offered : Route) : (pick old offered).metric ≤ offered.metric := by
  unfold pick
  split
  · exact Nat.le_refl _
  · rename_i r
    split
    · exact Nat.le_refl _
    · rename_i hw
      rw [isWorseThan_iff] at hw
      omega

theorem Route.pick_metric_le_old {r : Route} (offered : Route) : (pick (some r) offered).metric ≤ r.metric := by
  unfold pick
  dsimp only
  split
  · rename_i hw
    rw [isWorseThan_iff] at hw
    omega
  · exact Nat.le_refl _

theorem Route.pick_eq (old : Option Route) (offered : Route) : pick old offered = offered ∨ old = some (pick old offered) := by
  unfold pick
  split
  · exact .inl rfl
  · split
    · exact .inl rfl
    · exact .inr rfl

/-- Of routes as long as the one that is offered, the one with the smaller next hop is kept. -/
theorem Route.pick_nexthop_le {old : Option Route} {offered : Route} (h : (pick old offered).metric = offered.metric) :
    (pick old offered).nexthop ≤ offered.nexthop := by
  unfold pick at h ⊢
  split
  · exact Std.le_refl _
  · rename_i r
    split
    · exact Std.le_refl _
    · rename_i hw
      simp only [if_neg hw] at h
      rw [isWorseThan_iff] at hw
      exact Std.not_lt.mp fun hlt => hw (.inr ⟨h.symm, hlt⟩)

namespace RoutingTable

theorem get?_apply (t : RoutingTable) (a : Announcement) (key : String) :
    (t.apply a).2.get? key = if key = a.dest then some (Route.pick (t.get? key) (candidate a)) else t.get? key := by
  by_cases hk : key = a.dest
  · subst hk
    rw [if_pos rfl]
    unfold apply Route.pick
    cases hg : t.get? a.dest with
    | none => simp
    | some r =>
      by_cases hw : r.isWorseThan (candidate a)
      · simp [hw]
      · simp [hw, hg]
  · rw [if_neg hk]
    unfold apply
    split
    · simp [hk]
    · split
      · simp [hk]
      · rfl

/-- Only the first route for a key is installed. -/
theorem apply_installed {t : RoutingTable} {a : Announcement} {r : Route} (h : (t.apply a).1 = .installed r) :
    t.get? a.dest = none ∧ r = candidate a := by
  unfold apply at h
  split at h
  · rename_i hg
    cases h
    exact ⟨hg, rfl⟩
  · split at h
    · cases h
    · cases h

theorem farther_eq {m : Nat} (h : m < maxMetric) : farther m = m + 1 := Nat.min_eq_left h

end RoutingTable

/-- What is announced to a neighbour: every route that does not lead through it. -/
theorem Solver.mem_advertisement {s : Solver} {b : NodeId} {o : Outbound} :
    o ∈ s.advertisement b ↔
      ∃ key r, s.routes.get? key = some r ∧ r.nexthop ≠ b ∧ o = ⟨b, .announce key s.id r.metric⟩ := by
  simp only [advertisement, RoutingTable.advertisable, List.map_map, List.mem_map, List.mem_filter, decide_eq_true_eq]
  constructor
  · rintro ⟨⟨key, r⟩, ⟨hmem, hne⟩, rfl⟩; exact ⟨key, r, Table.mem_entries_iff.mp hmem, hne, rfl⟩
  · rintro ⟨key, r, hr, hne, rfl⟩; exact ⟨(key, r), ⟨Table.mem_entries_iff.mpr hr, hne⟩, rfl⟩

/-! ## Turns -/

namespace Turn

structure Local (t t' : Turn) : Prop where
  solver : t'.solver = t.solver.withPending t'.solver.pending
  out : (∀ o ∈ t.out, o.packet.kind ≠ .routeAnnounce) → ∀ o ∈ t'.out, o.packet.kind ≠ .routeAnnounce

theorem deliver_local (t : Turn) (query : Atom) (b : Bindings) (sender : Atom) : Local t (t.deliver query b sender).2 := by
  refine ⟨rfl, fun h o ho => ?_⟩
  rcases List.mem_append.mp ho with ho | ho
  · exact h o ho
  · obtain ⟨n, q, c, rfl⟩ := PendingTable.reply_deliver query b sender (Option.mem_toList.mp ho)
    intro hkind
    cases hkind

theorem respond_local (t : Turn) (p : Packet) : Local t (t.respond p) := by
  unfold respond
  cases p.result with
  | none => exact ⟨rfl, fun h => h⟩
  | some b =>
    have hlocal := deliver_local t p.query b p.query
    dsimp only
    split
    · rename_i u hd
      rw [hd] at hlocal
      exact hlocal
    · rename_i u hd
      rw [hd] at hlocal
      exact ⟨hlocal.solver, hlocal.out⟩

theorem solve_local {depth : Nat} {origin : Option NodeId} {parent : Option Atom} {query : Atom} {t t' : Turn}
    {f : Forwarding} (h : solve depth origin parent query t = some (f, t')) : Local t t' := by
  refine ⟨solve_solver h, fun hout => ?_⟩
  refine solve_keeps (I := fun u => ∀ o ∈ u.out, o.packet.kind ≠ .routeAnnounce) (fun _ _ hu => hu)
    (fun u q b x hu => (deliver_local u q b x).out hu) (fun u n q hu o ho => ?_) (fun _ _ hu => hu) depth h hout
  rcases List.mem_append.mp ho with ho | ho
  · exact hu o ho
  · rw [List.mem_singleton.mp ho]
    intro hkind
    cases hkind

/-- An announcement that a peer makes is put into the table, and passed on if it is the first for its key. -/
theorem announced_eq {t : Turn} {sender : NodeId} {p : Packet} {a : Announcement}
    (hrole : t.solver.roleOf sender = some .solverPeer) (ha : p.announcement = .ok a) :
    (t.announced sender p).2.solver = { t.solver with routes := (t.solver.routes.apply a).2 } ∧
      ∀ o ∈ (t.announced sender p).2.out, o ∈ t.out ∨ t.solver.roleOf o.recipient = some .solverPeer ∧
        t.solver.routes.get? a.dest = none ∧
          o.packet = .announce a.dest t.solver.id (RoutingTable.candidate a).metric := by
  have hpeer : ¬ (t.solver.interfaces.get? sender).map (·.role) ≠ some .solverPeer := fun h => h hrole
  simp only [announced, if_neg hpeer, ha]
  cases hu : (t.solver.routes.apply a).1 with
  | installed r =>
    obtain ⟨hnone, rfl⟩ := RoutingTable.apply_installed hu
    refine ⟨rfl, fun o ho => ?_⟩
    rcases List.mem_append.mp ho with ho | ho
    · exact .inl ho
    · obtain ⟨n, hn, rfl⟩ := List.mem_map.mp ho
      exact .inr ⟨Solver.mem_peersExcept hn, hnone, rfl⟩
  | replaced _ _ => exact ⟨rfl, fun o ho => .inl ho⟩
  | unchanged => exact ⟨rfl, fun o ho => .inl ho⟩

/-- Any other packet that claims to be one is left alone. -/
theorem announced_eq_self {t : Turn} {sender : NodeId} {p : Packet}
    (h : t.solver.roleOf sender ≠ some .solverPeer ∨ ∃ e, p.announcement = .error e) : (t.announced sender p).2 = t := by
  unfold announced
  split
  · rfl
  · rename_i hrole
    rcases h with h | ⟨e, he⟩
    · exact absurd (not_not.mp hrole) h
    · simp only [he]

end Turn

namespace Solver

variable {s : Solver} {sender : NodeId} {p : Packet} {t : Turn}

/-- A turn on an announcement is taking it up. -/
theorem handle_announced (h : s.Handles sender p t) (hkind : p.kind = .routeAnnounce) :
    t.solver = (((Turn.begin s).note (.packetReceived s.id .routeAnnounce)).announced sender p).2.solver ∧
      t.out = (((Turn.begin s).note (.packetReceived s.id .routeAnnounce)).announced sender p).2.out := by
  obtain ⟨depth, h⟩ := h
  obtain ⟨u, hu, rfl⟩ := Option.map_eq_some_iff.mp h
  simp only [Turn.take, hkind, Option.some.injEq] at hu
  subst hu
  exact ⟨rfl, rfl⟩

/-- An announcement from a peer changes the routes, and nothing else of the solver. -/
theorem handle_announcement {a : Announcement} (h : s.Handles sender p t) (hrole : s.roleOf sender = some .solverPeer)
    (ha : p.announcement = .ok a) :
    t.solver = { s with routes := (s.routes.apply a).2 } ∧
      ∀ o ∈ t.out, s.roleOf o.recipient = some .solverPeer ∧ s.routes.get? a.dest = none ∧
        o.packet = .announce a.dest s.id (RoutingTable.candidate a).metric := by
  obtain ⟨hsolver', hout'⟩ := handle_announced h (Packet.kind_of_announcement ha)
  rw [hsolver', hout']
  obtain ⟨hsolver, hout⟩ := @Turn.announced_eq ((Turn.begin s).note (.packetReceived s.id .routeAnnounce)) _ _ _ hrole ha
  exact ⟨hsolver, fun o ho => (hout o ho).resolve_left List.not_mem_nil⟩

/-- A solver was offered a route through a peer that is `m` hops from a source. -/
structure Learns (s : Solver) (peer : NodeId) (key : String) (m : Nat) (t : Turn) : Prop where
  id : t.solver.id = s.id
  interfaces : t.solver.interfaces = s.interfaces
  routes : ∀ key', t.solver.routes.get? key' =
    if key' = key then some (Route.pick (s.routes.get? key') ⟨peer, m + 1⟩) else s.routes.get? key'
  out : ∀ o ∈ t.out, s.roleOf o.recipient = some .solverPeer ∧ s.routes.get? key = none ∧
    o.packet = .announce key s.id (m + 1)

theorem Learns.roleOf {peer : NodeId} {key : String} {m : Nat} (h : s.Learns peer key m t) (b : NodeId) :
    t.solver.roleOf b = s.roleOf b := by rw [Solver.roleOf, h.interfaces, Solver.roleOf]

theorem Learns.route {peer : NodeId} {key : String} {m : Nat} (h : s.Learns peer key m t) :
    t.solver.routes.get? key = some (Route.pick (s.routes.get? key) ⟨peer, m + 1⟩) := (h.routes key).trans (if_pos rfl)

theorem learns {key : String} {m : Nat} (h : s.Handles sender p t) (hrole : s.roleOf sender = some .solverPeer)
    (hm : m < maxMetric) (ha : p.announcement = .ok ⟨key, sender, m⟩) : s.Learns sender key m t := by
  have hcandidate : RoutingTable.candidate ⟨key, sender, m⟩ = ⟨sender, m + 1⟩ := by
    rw [RoutingTable.candidate, RoutingTable.farther_eq hm]
  obtain ⟨hsolver, hout⟩ := handle_announcement h hrole ha
  rw [hcandidate] at hout
  refine ⟨by rw [hsolver], by rw [hsolver], fun key' => ?_, hout⟩
  rw [hsolver, RoutingTable.get?_apply, hcandidate]

/-- Any other packet leaves the routes alone and leads to no announcements. -/
theorem handle_other (h : s.Handles sender p t)
    (ha : s.roleOf sender ≠ some .solverPeer ∨ ∃ e, p.announcement = .error e) :
    t.solver = s.withPending t.solver.pending ∧ ∀ o ∈ t.out, o.packet.kind ≠ .routeAnnounce := by
  obtain ⟨depth, h⟩ := h
  obtain ⟨u, hu, rfl⟩ := Option.map_eq_some_iff.mp h
  have hlocal : Turn.Local ((Turn.begin s).note (.packetReceived s.id p.kind)) u := by
    unfold Turn.take at hu
    split at hu
    · obtain ⟨r, hr, rfl⟩ := Option.map_eq_some_iff.mp hu
      exact Turn.solve_local hr
    · obtain rfl := Option.some.inj hu
      exact Turn.respond_local _ p
    · obtain rfl := Option.some.inj hu
      rw [Turn.announced_eq_self ha]
      exact ⟨rfl, fun h => h⟩
  exact ⟨hlocal.solver, hlocal.out fun _ h => absurd h List.not_mem_nil⟩

/-- A packet changes nothing of a solver but its pending queries and its routes. -/
theorem handle_frame (h : s.Handles sender p t) :
    ∃ pending routes, t.solver = { s with pending := pending, routes := routes } := by
  by_cases hrole : s.roleOf sender = some .solverPeer
  · cases ha : p.announcement with
    | error e => exact ⟨_, _, (handle_other h (.inr ⟨e, ha⟩)).1⟩
    | ok a => exact ⟨_, _, (handle_announcement h hrole ha).1⟩
  · exact ⟨_, _, (handle_other h (.inl hrole)).1⟩

end Solver

end QueryNet
