/-
  QueryNet.Proofs.Routing.Truth — what a solver announces.

  An announcement tells a route as the solver has it, in the solver's own name, and is
  not for the route's next hop (`Truthful`). Announcements are made in three places:
  a packet may bring the first route for a key, a neighbour may be due for all routes,
  and a source may be attached. Each reads what it tells from the table as it is then.

  A metric is read back as it was written if it is not past the largest one, and no
  route of a solver that was set up by calls and handled packets has a larger one
  (`Reached.metric_le`): a route that is learned is one hop longer than what was
  announced, unless that is the largest metric already.

  Proved: every announcement of such a solver is truthful; a packet leads to some only
  if it brings the first route for a key, and then every peer is told once but the
  sender and the next hop; and a neighbour is told every other route once, in the
  order of the keys (`announcements_truthful`).
-/

import QueryNet.Proofs.Network.Refusals
import QueryNet.Proofs.Routing.Influence
import QueryNet.Proofs.Traffic.Record

namespace QueryNet

namespace Solver

variable {s s' : Solver} {sender b : NodeId} {p : Packet} {t : Turn} {key : String} {r : Route} {o : Outbound}

/-! ## Peers -/

theorem mem_peersExcept_iff {except : List NodeId} :
    b ∈ s.peersExcept except ↔ s.roleOf b = some .solverPeer ∧ b ∉ except := by
  constructor
  · intro hb
    refine ⟨mem_peersExcept hb, ?_⟩
    obtain ⟨e, he, rfl⟩ := List.mem_map.mp hb
    exact (of_decide_eq_true (List.mem_filter.mp he).2).2
  · rintro ⟨hrole, hnot⟩
    obtain ⟨i, hi, hpeer⟩ := Option.map_eq_some_iff.mp hrole
    exact List.mem_map.mpr ⟨(b, i), List.mem_filter.mpr ⟨Table.mem_entries_iff.mpr hi, decide_eq_true ⟨hpeer, hnot⟩⟩, rfl⟩

theorem nodup_peersExcept (s : Solver) (except : List NodeId) : (s.peersExcept except).Nodup :=
  (Table.nodup_keys s.interfaces).sublist (List.filter_sublist.map _)

/-- What is sent to the peers is for each of them once. -/
theorem countP_peersExcept (s : Solver) (except : List NodeId) (p : Packet) (b : NodeId) :
    ((s.peersExcept except).map (Outbound.mk · p)).countP (·.recipient = b) =
      if s.roleOf b = some .solverPeer ∧ b ∉ except then 1 else 0 := by
  have hcount : ((s.peersExcept except).map (Outbound.mk · p)).countP (·.recipient = b) =
      (s.peersExcept except).count b := by
    rw [List.countP_map, List.count]
    rfl
  rw [hcount, (nodup_peersExcept s except).count]
  simp only [mem_peersExcept_iff]

/-! ## Metrics -/

/-- The states of a solver: it is set up by calls, with metrics that a route can have, and handles packets. -/
inductive Reached : Solver → Prop
  | create {id : NodeId} {config : SolverConfig} : Reached (.create id config)
  | attach {s s' : Solver} {role : Role} {e : Endpoint} : Reached s → s.attach role e = .ok s' → Reached s'
  | attachSource {s s' : Solver} {e : Endpoint} {key : String} : Reached s → s.attach .leaf e = .ok s' →
      Reached (Network.withSource s' key e.peer)
  | addRule {s s' : Solver} {text : String} {rule : Rule} : Reached s → s.addRule text = .ok (rule, s') → Reached s'
  | addRoute {s s' : Solver} {key : String} {neighbor : NodeId} {metric : Nat} : Reached s → metric ≤ maxMetric →
      s.addRoute key neighbor metric = .ok s' → Reached s'
  | start {s s' : Solver} {receivers : List Receiver} : Reached s → s.start = .ok (receivers, s') → Reached s'
  | packet {s : Solver} {sender : NodeId} {p : Packet} {t : Turn} : Reached s → s.Handles sender p t → Reached t.solver

theorem candidate_metric_le (a : Announcement) : (RoutingTable.candidate a).metric ≤ maxMetric := Nat.min_le_right _ _

/-- A packet brings no route that is too long. -/
theorem Handles.metric_le (h : s.Handles sender p t) (hs : ∀ key r, s.routes.get? key = some r → r.metric ≤ maxMetric)
    (hr : t.solver.routes.get? key = some r) : r.metric ≤ maxMetric := by
  by_cases hheard : s.Heard (sender, p)
  · obtain ⟨hrole, a, ha⟩ := hheard
    rw [(handle_announcement h hrole ha).1, RoutingTable.get?_apply] at hr
    split at hr
    · cases hr
      rcases Route.pick_eq (s.routes.get? key) (RoutingTable.candidate a) with hnew | hold
      · rw [hnew]
        exact candidate_metric_le a
      · exact hs key _ hold
    · exact hs key r hr
  · rw [(handle_other h (not_heard hheard)).1, withPending_routes] at hr
    exact hs key r hr

theorem Reached.metric_le (h : s.Reached) : ∀ key r, s.routes.get? key = some r → r.metric ≤ maxMetric := by
  induction h with
  | create =>
    intro key r hr
    cases hr
  | attach _ hok ih => rwa [(attach_ok hok).1.routes]
  | attachSource _ hok ih =>
    intro key r hr
    rw [Network.withSource, RoutingTable.insertDirect, Table.get?_insert, (attach_ok hok).1.routes] at hr
    split at hr
    · cases hr
      exact Nat.zero_le _
    · exact ih key r hr
  | addRule _ hok ih =>
    rw [addRule_eq hok]
    exact ih
  | addRoute _ hm hok ih =>
    unfold Solver.addRoute at hok
    split at hok
    · cases hok
      intro key r hr
      rw [RoutingTable.insertStatic, Table.get?_insert] at hr
      split at hr
      · cases hr
        exact hm
      · exact ih key r hr
    · cases hok
  | start _ hok ih =>
    unfold Solver.start at hok
    split at hok
    · cases hok
    · cases hok
      exact ih
  | packet _ hhandles ih => exact fun key r hr => hhandles.metric_le ih hr

/-! ## Announcements -/

/-- An announcement of a route as the solver has it, in its own name, and not for the route's next hop. -/
structure Truthful (s : Solver) (key : String) (r : Route) (o : Outbound) : Prop where
  route : s.routes.get? key = some r
  announced : o.packet.announcement = .ok ⟨key, s.id, r.metric⟩
  horizon : o.recipient ≠ r.nexthop

theorem truthful_announce (hs : s.Reached) (hr : s.routes.get? key = some r) (hb : b ≠ r.nexthop) :
    s.Truthful key r ⟨b, .announce key s.id r.metric⟩ :=
  ⟨hr, Packet.announcement_announce (hs.metric_le key r hr) key s.id, hb⟩

/-- What an announcement from a peer leads to. -/
theorem handle_announcement_out {a : Announcement} (h : s.Handles sender p t)
    (hrole : s.roleOf sender = some .solverPeer) (ha : p.announcement = .ok a) :
    t.out = if s.routes.get? a.dest = none then (s.peersExcept [sender, a.advertiser]).map
      (Outbound.mk · (.announce a.dest s.id (RoutingTable.candidate a).metric)) else [] := by
  have hpeer : ¬ (s.interfaces.get? sender).map (·.role) ≠ some .solverPeer := fun hn => hn hrole
  rw [(handle_announced h (Packet.kind_of_announcement ha)).2]
  simp only [Turn.announced, Turn.note, Turn.begin, if_neg hpeer, ha]
  cases hu : (s.routes.apply a).1 with
  | installed r =>
    obtain ⟨hnone, rfl⟩ := RoutingTable.apply_installed hu
    rw [if_pos hnone]
    rfl
  | _ =>
    have hold : s.routes.get? a.dest ≠ none := fun hnone => by
      rw [RoutingTable.apply, hnone] at hu
      cases hu
    rw [if_neg hold]

theorem announcements_map (l : List NodeId) (key : String) (id : NodeId) (metric : Nat) :
    announcements (l.map (Outbound.mk · (.announce key id metric))) = l.map (Outbound.mk · (.announce key id metric)) := by
  refine List.filter_eq_self.mpr fun o ho => ?_
  obtain ⟨b, -, rfl⟩ := List.mem_map.mp ho
  rfl

/-- A packet leads to announcements only if it brings the first route for a key: then the peers are told of it, but
    not the sender and not the next hop. -/
theorem Handles.announcements_eq (h : s.Handles sender p t) :
    (announcements t.out = [] ∧ ∀ key, s.routes.get? key = none → t.solver.routes.get? key = none) ∨
      ∃ dest route, s.routes.get? dest = none ∧ t.solver.routes = s.routes.insert dest route ∧
        announcements t.out = (s.peersExcept [sender, route.nexthop]).map
          (Outbound.mk · (.announce dest s.id route.metric)) := by
  by_cases hheard : s.Heard (sender, p)
  · obtain ⟨hrole, a, ha⟩ := hheard
    have hroutes : t.solver.routes = (s.routes.apply a).2 := by rw [(handle_announcement h hrole ha).1]
    rw [handle_announcement_out h hrole ha, hroutes]
    by_cases hnone : s.routes.get? a.dest = none
    · right
      refine ⟨a.dest, RoutingTable.candidate a, hnone, ?_, ?_⟩
      · rw [RoutingTable.apply, hnone]
      · rw [if_pos hnone]
        exact announcements_map _ _ _ _
    · left
      rw [if_neg hnone]
      refine ⟨rfl, fun key hkey => ?_⟩
      have hdest : key ≠ a.dest := fun hdest => hnone (hdest ▸ hkey)
      rw [RoutingTable.get?_apply, if_neg hdest, hkey]
  · left
    obtain ⟨hframe, hout⟩ := handle_other h (not_heard hheard)
    refine ⟨List.filter_eq_nil_iff.mpr fun o ho hk => hout o ho (eq_of_beq hk), fun key hkey => ?_⟩
    rw [hframe]
    exact hkey

/-- The announcements that a packet leads to are truthful once it has been handled. -/
theorem Handles.truthful (h : s.Handles sender p t) (hs : s.Reached) :
    ∀ o ∈ announcements t.out, ∃ key r, t.solver.Truthful key r o ∧ s.routes.get? key = none := by
  have hid : t.solver.id = s.id := by
    obtain ⟨pending, routes, hframe⟩ := handle_frame h
    rw [hframe]
  intro o ho
  rcases h.announcements_eq with ⟨hout, -⟩ | ⟨dest, route, hnone, hroutes, hout⟩
  · rw [hout] at ho
    cases ho
  · rw [hout] at ho
    obtain ⟨b, hb, rfl⟩ := List.mem_map.mp ho
    have hroute : t.solver.routes.get? dest = some route := by rw [hroutes, Table.get?_insert_self]
    have hhop : b ≠ route.nexthop := fun hb' => (mem_peersExcept_iff.mp hb).2 (by simp [hb'])
    refine ⟨dest, route, ?_, hnone⟩
    rw [← hid]
    exact truthful_announce (hs.packet h) hroute hhop

/-- Of the first route for a key each peer is told once, but the sender and the next hop, and nobody else is. -/
theorem Handles.countP_announcements (h : s.Handles sender p t) (hkey : s.routes.get? key = none)
    (hr : t.solver.routes.get? key = some r) (b : NodeId) :
    (announcements t.out).countP (·.recipient = b) =
      if s.roleOf b = some .solverPeer ∧ b ≠ sender ∧ b ≠ r.nexthop then 1 else 0 := by
  rcases h.announcements_eq with ⟨-, hold⟩ | ⟨dest, route, -, hroutes, hout⟩
  · rw [hold key hkey] at hr
    cases hr
  · have hsame : route = r := by
      rw [hroutes, Table.get?_insert] at hr
      split at hr
      · exact Option.some.inj hr
      · rw [hkey] at hr
        cases hr
    rw [hout, countP_peersExcept, hsame]
    simp only [List.mem_cons, List.not_mem_nil, or_false, not_or]

/-- A packet that asks nothing is always handled. -/
theorem handles_unasked (s : Solver) (sender : NodeId) (h : p.kind ≠ .request) : ∃ t, s.Handles sender p t := by
  obtain ⟨u, hu⟩ : ∃ u, ((Turn.begin s).note (.packetReceived s.id p.kind)).take 0 sender p = some u := by
    unfold Turn.take
    cases hk : p.kind with
    | request => exact absurd hk h
    | response => exact ⟨_, rfl⟩
    | routeAnnounce => exact ⟨_, rfl⟩
  exact ⟨_, 0, congrArg (Option.map _) hu⟩

/-- A neighbour is told the routes that do not lead through it, in the order of the keys. -/
theorem advertisement_eq (s : Solver) (b : NodeId) :
    ∃ rows : List (String × Route), rows.Pairwise (·.1 < ·.1) ∧
      (∀ key r, (key, r) ∈ rows ↔ s.routes.get? key = some r ∧ r.nexthop ≠ b) ∧
      s.advertisement b = rows.map fun e => ⟨b, .announce e.1 s.id e.2.metric⟩ := by
  refine ⟨s.routes.entries.filter fun e => e.2.nexthop ≠ b, ?_, fun key r => ?_, ?_⟩
  · exact (s.routes.sorted.imp fun h => compareOfLessAndEq_eq_lt.mp h).filter _
  · rw [List.mem_filter, Table.mem_entries_iff, decide_eq_true_eq]
  · rw [advertisement, RoutingTable.advertisable, List.map_map]
    rfl

end Solver

namespace Network

variable {n : Network} {a source : NodeId} {k : SolverId} {s : Solver} {key : String}

theorem setSolver_setSolver (n : Network) (k : SolverId) (s s' : Solver) :
    (n.setSolver k s).setSolver k s' = n.setSolver k s' := by
  simp only [setSolver, List.set_set]

/-- The route to a source is offered to the peers once it is attached; if it cannot be attached nothing is offered. -/
theorem attachSource_cases (hs : n.lookup a = some (k, s)) (source : NodeId) (key : String) :
    (∃ err, (n.attachSource a source key).result = .error err ∧ (n.attachSource a source key).events = []) ∨
      ∃ e s', e.peer = source ∧ s.attach .leaf e = .ok s' ∧
        (((n.link a source (n.capacityOf a)).2.2.setSolver k (withSource s' key source)).offer (withSource s' key source)
          (sourceNews (withSource s' key source) key)) =
            ((n.attachSource a source key).network, (n.attachSource a source key).events) := by
  obtain ⟨near, far, l, hlink, hsame, hpeer⟩ : ∃ near far l, n.link a source (n.capacityOf a) = (near, far, l) ∧
      Same n l ∧ near.peer = source := ⟨_, _, _, rfl, ⟨rfl, rfl⟩, rfl⟩
  rcases attachEnd_cases l a .leaf near with ⟨err, hfailed, -, -⟩ | ⟨k', s', hs', hidle, hnew, hok⟩
  · left
    have hattach : (n.attach a source .leaf (n.capacityOf a)).result = .error err := by
      simp only [attach, hlink, hfailed]
    refine ⟨err, ?_⟩
    simp only [attachSource, hattach, true_and]
    simp only [attach, hlink, hfailed]
    exact events_attachEnd ..
  · right
    rw [hsame.lookup, hs] at hs'
    cases hs'
    refine ⟨near, s.attached .leaf near, hpeer, Solver.attach_eq_ok_iff.mpr ⟨hidle, hnew, rfl⟩, ?_⟩
    have hattach : n.attach a source .leaf (n.capacityOf a) = ⟨l.setSolver k (s.attached .leaf near), [], .ok far⟩ := by
      simp only [attach, hlink, hok]
    have hfound := lookup_setSolver ((hsame.lookup a).trans hs) (s.attached .leaf near)
    simp only [attachSource, hattach, hfound, hlink, List.nil_append, setSolver_setSolver, withSource, sourceNews]

/-- Each peer is offered the route to a source that was attached, and the source is none of them. -/
theorem attachSource_news (hs : s.Reached) (hlookup : n.lookup a = some (k, s)) (source : NodeId) (key : String) :
    (∃ err, (n.attachSource a source key).result = .error err ∧ (n.attachSource a source key).events = []) ∨
      ∃ (s' : Solver) (out : List Outbound), (n.attachSource a source key).network.lookup a = some (k, s') ∧
        ((n.link a source (n.capacityOf a)).2.2.setSolver k s').offer s' out =
          ((n.attachSource a source key).network, (n.attachSource a source key).events) ∧
        (∀ o ∈ out, s'.Truthful key ⟨source, 0⟩ o) ∧
        ∀ b, out.countP (·.recipient = b) = if s'.roleOf b = some .solverPeer then 1 else 0 := by
  rcases attachSource_cases hlookup source key with hfailed | ⟨e, s', rfl, hattach, hoffer⟩
  · exact .inl hfailed
  · right
    have hreached : (withSource s' key e.peer).Reached := hs.attachSource hattach
    have hleaf : (withSource s' key e.peer).roleOf e.peer = some .leaf := (Solver.attach_ok hattach).2
    refine ⟨_, _, ?_, hoffer, fun o ho => ?_, fun b => ?_⟩
    · have hlink : (n.link a e.peer (n.capacityOf a)).2.2.lookup a = some (k, s) := hlookup
      have hsame := same_offer ((n.link a e.peer (n.capacityOf a)).2.2.setSolver k (withSource s' key e.peer))
        (withSource s' key e.peer) (sourceNews (withSource s' key e.peer) key)
      rw [hoffer] at hsame
      rw [hsame.lookup, lookup_setSolver hlink]
    · obtain ⟨b, hb, rfl⟩ := List.mem_map.mp ho
      refine Solver.truthful_announce hreached (Table.get?_insert_self ..) fun hsource => ?_
      have hpeer := Solver.mem_peersExcept hb
      rw [hsource, hleaf] at hpeer
      cases hpeer
    · rw [sourceNews, Solver.countP_peersExcept]
      simp only [List.not_mem_nil, not_false_eq_true, and_true]

end Network

namespace Solver

/-- What a solver that was set up by calls and handled packets announces is as its routes say, and nobody is told of
    a route that leads through it: when a packet comes, when a neighbour is due for the routes, and when a source is
    attached. A packet leads to announcements only if it brings the first route for a key; then each peer is told
    once but the sender and the next hop, and nobody else is. A neighbour is told each other route once, in the
    order of the keys. -/
theorem announcements_truthful (hs : s.Reached) :
    (∀ sender p, p.kind ≠ .request → ∃ t, s.Handles sender p t) ∧
    (∀ sender p t, s.Handles sender p t →
      (∀ o ∈ announcements t.out, ∃ key r, t.solver.Truthful key r o ∧ s.routes.get? key = none) ∧
      ∀ key r, s.routes.get? key = none → t.solver.routes.get? key = some r → ∀ b,
        (announcements t.out).countP (·.recipient = b) =
          if s.roleOf b = some .solverPeer ∧ b ≠ sender ∧ b ≠ r.nexthop then 1 else 0) ∧
    (∀ b, ∃ rows : List (String × Route), rows.Pairwise (·.1 < ·.1) ∧
      (∀ key r, (key, r) ∈ rows ↔ s.routes.get? key = some r ∧ r.nexthop ≠ b) ∧
      s.advertisement b = rows.map (fun e => ⟨b, .announce e.1 s.id e.2.metric⟩) ∧
      ∀ e ∈ rows, s.Truthful e.1 e.2 ⟨b, .announce e.1 s.id e.2.metric⟩) ∧
    ∀ (n : Network) a k source key, n.lookup a = some (k, s) →
      (∃ err, (n.attachSource a source key).result = .error err ∧ (n.attachSource a source key).events = []) ∨
      ∃ (s' : Solver) (out : List Outbound), (n.attachSource a source key).network.lookup a = some (k, s') ∧
        ((n.link a source (n.capacityOf a)).2.2.setSolver k s').offer s' out =
          ((n.attachSource a source key).network, (n.attachSource a source key).events) ∧
        (∀ o ∈ out, s'.Truthful key ⟨source, 0⟩ o) ∧
        ∀ b, out.countP (·.recipient = b) = if s'.roleOf b = some .solverPeer then 1 else 0 := by
  refine ⟨fun sender p h => handles_unasked s sender h, fun sender p t h => ?_, fun b => ?_, ?_⟩
  · exact ⟨h.truthful hs, fun key r hkey hr b => h.countP_announcements hkey hr b⟩
  · obtain ⟨rows, hsorted, hrows, hout⟩ := advertisement_eq s b
    refine ⟨rows, hsorted, hrows, hout, fun e he => ?_⟩
    obtain ⟨hroute, hne⟩ := (hrows e.1 e.2).mp he
    exact truthful_announce hs hroute hne.symm
  · intro n a k source key hlookup
    exact Network.attachSource_news hs hlookup source key

def hub : Solver :=
  (((Solver.create "hub" .standard).attached .solverPeer ⟨"east", 0, 1⟩).attached .solverPeer ⟨"north", 2, 3⟩).attached
    .leaf ⟨"ann", 4, 5⟩

theorem reached_hub : hub.Reached := by
  have heast : ((Solver.create "hub" .standard).attached .solverPeer ⟨"east", 0, 1⟩).Reached :=
    Reached.create.attach (attach_eq_ok_iff.mpr ⟨rfl, rfl, rfl⟩)
  exact (heast.attach (attach_eq_ok_iff.mpr ⟨rfl, rfl, rfl⟩)).attach (attach_eq_ok_iff.mpr ⟨rfl, rfl, rfl⟩)

/-- A peer announces a route in the name of a node that is not attached: the other peer is told of it in the solver's
    own name, and neither the peer that announced it nor the leaf is. -/
theorem hub_truthful :
    hub.Reached ∧ ∃ t, hub.Handles "east" (.announce "k/1" "ghost" 7) t ∧
      t.solver.routes.get? "k/1" = some ⟨"ghost", 8⟩ ∧
      (∀ o ∈ announcements t.out, ∃ key r, t.solver.Truthful key r o ∧ hub.routes.get? key = none) ∧
      (announcements t.out).countP (·.recipient = "north") = 1 ∧
      (announcements t.out).countP (·.recipient = "east") = 0 ∧
      (announcements t.out).countP (·.recipient = "ann") = 0 := by
  obtain ⟨t, ht, hroute⟩ : ∃ t, hub.Handles "east" (.announce "k/1" "ghost" 7) t ∧
      t.solver.routes.get? "k/1" = some ⟨"ghost", 8⟩ := ⟨_, ⟨0, rfl⟩, by decide +kernel⟩
  obtain ⟨htrue, hcount⟩ := (announcements_truthful reached_hub).2.1 _ _ _ ht
  have hnew : hub.routes.get? "k/1" = none := rfl
  refine ⟨reached_hub, t, ht, hroute, htrue, ?_, ?_, ?_⟩
  · exact (hcount _ _ hnew hroute "north").trans (if_pos (by decide +kernel))
  · exact (hcount _ _ hnew hroute "east").trans (if_neg (by decide +kernel))
  · exact (hcount _ _ hnew hroute "ann").trans (if_neg (by decide +kernel))

end Solver

end QueryNet
