/-
  QueryNet.Proofs.Routing.Soundness — every route leads to a source.

  The invariant is about all tables and everything ever sent (`Sound`). A solver's
  metrics only fall and its routes never go away (`Improves`), so an announcement
  remains true however late it comes: the sender is at most as far away as it said.
  No metric reaches the number of solvers that have a route for its key, for each
  solver that comes to have one adds itself to them; so with no more solvers than the
  largest metric says, no metric ever stops there.

  Proved, in every fabric that comes about: a route has metric 0 and leads to an
  attached source, or it leads to a peer that is nearer; so its metric is at least
  the distance, and going from next hop to next hop ends at a solver with a source,
  without coming back to any (`routes_sound`).
-/

import QueryNet.Proofs.Routing.Fabric

namespace QueryNet

/-! ## Counting solvers -/

def Network.holders (n : Network) (key : String) : Nat := n.solvers.countP fun s => s.routes.contains key

namespace Network

variable {n n' : Network} {a : NodeId} {k : SolverId} {s s' : Solver} {key : String}

theorem holders_le_length (n : Network) (key : String) : n.holders key ≤ n.solvers.length := List.countP_le_length

theorem Same.holders (h : Same n n') (key : String) : n'.holders key = n.holders key := by
  unfold Network.holders
  rw [h.solvers]

theorem holders_pos (hs : n.lookup a = some (k, s)) {r : Route} (hr : s.routes.get? key = some r) : 0 < n.holders key := by
  refine List.countP_pos_iff.mpr ⟨s, List.mem_of_getElem? (lookup_eq_some.mp hs).2, ?_⟩
  rw [Table.contains, hr]
  rfl

theorem holders_setSolver (hs : n.lookup a = some (k, s)) (s' : Solver) (key : String) :
    (n.setSolver k s').holders key =
      n.holders key - (if s.routes.contains key then 1 else 0) + (if s'.routes.contains key then 1 else 0) := by
  have hlt := Named.lt_length hs
  have hget : n.solvers[k] = s := (List.getElem?_eq_some_iff.mp (lookup_eq_some.mp hs).2).2
  unfold holders setSolver
  rw [List.countP_set hlt, hget]

/-- A solver that keeps its keys leaves no fewer solvers with a route. -/
theorem holders_le_setSolver (hs : n.lookup a = some (k, s))
    (h : s.routes.contains key = true → s'.routes.contains key = true) :
    n.holders key ≤ (n.setSolver k s').holders key := by
  rw [holders_setSolver hs]
  cases hc : s.routes.contains key with
  | false => simp
  | true =>
    rw [h hc]
    simp only [if_true]
    omega

/-- One that gets its first route for a key is one more. -/
theorem holders_lt_setSolver (hs : n.lookup a = some (k, s)) (h : s.routes.get? key = none) {r : Route}
    (h' : s'.routes.get? key = some r) : n.holders key < (n.setSolver k s').holders key := by
  have hc : s.routes.contains key = false := by rw [Table.contains, h]; rfl
  have hc' : s'.routes.contains key = true := by rw [Table.contains, h']; rfl
  rw [holders_setSolver hs, hc, hc']
  simp

end Network

/-! ## What only gets better -/

structure Improves (f g : Fabric) : Prop where
  solver : ∀ {a s}, f.network.solver? a = some s → ∃ s', g.network.solver? a = some s' ∧
    (∀ {b role}, s.roleOf b = some role → s'.roleOf b = some role) ∧
    ∀ {key r}, s.routes.get? key = some r → ∃ r', s'.routes.get? key = some r' ∧ r'.metric ≤ r.metric
  holders : ∀ key, f.network.holders key ≤ g.network.holders key
  sources : f.sources ⊆ g.sources

namespace Fabric

/-- A solver has a route that is no longer than it told a peer. -/
def Offers (f : Fabric) (a b : NodeId) (key : String) (m : Nat) : Prop :=
  ∃ s r, f.network.solver? a = some s ∧ s.roleOf b = some .solverPeer ∧ s.routes.get? key = some r ∧ r.metric ≤ m

/-- A route leads to an attached source, or to a peer that is nearer. -/
def Supported (f : Fabric) (a : NodeId) (s : Solver) (key : String) (r : Route) : Prop :=
  (r.metric = 0 ∧ ⟨a, r.nexthop, key⟩ ∈ f.sources) ∨
  (s.roleOf r.nexthop = some .solverPeer ∧ ∃ m, f.Offers r.nexthop a key m ∧ m + 1 ≤ r.metric)

def Genuine (f : Fabric) (q : Parcel) : Prop :=
  q.out.packet.kind = .routeAnnounce → ∃ key m, q.out.packet = .announce key q.sender m ∧
    f.Offers q.sender q.out.recipient key m ∧ m < f.network.holders key

variable {f g : Fabric} {a b : NodeId} {key : String} {m : Nat} {s s' : Solver} {r : Route}

theorem Offers.improve (h : f.Offers a b key m) (hi : Improves f g) : g.Offers a b key m := by
  obtain ⟨s, r, hs, hrole, hr, hle⟩ := h
  obtain ⟨s', hs', hroles, hroutes⟩ := hi.solver hs
  obtain ⟨r', hr', hle'⟩ := hroutes hr
  exact ⟨s', r', hs', hroles hrole, hr', Nat.le_trans hle' hle⟩

theorem Supported.improve (h : f.Supported a s key r) (hi : Improves f g)
    (hroles : ∀ {b role}, s.roleOf b = some role → s'.roleOf b = some role) : g.Supported a s' key r := by
  rcases h with ⟨hzero, hsource⟩ | ⟨hrole, m, hoffers, hlt⟩
  · exact .inl ⟨hzero, hi.sources hsource⟩
  · exact .inr ⟨hroles hrole, m, hoffers.improve hi, hlt⟩

theorem Genuine.improve {q : Parcel} (h : f.Genuine q) (hi : Improves f g) : g.Genuine q := by
  intro hkind
  obtain ⟨key, m, hp, hoffers, hlt⟩ := h hkind
  exact ⟨key, m, hp, hoffers.improve hi, Nat.lt_of_lt_of_le hlt (hi.holders key)⟩

end Fabric

/-! ## The invariant -/

structure Sound (f : Fabric) : Prop where
  named : f.network.Named
  sent : ∀ q ∈ f.sent, f.Genuine q
  route : ∀ {a s key r}, f.network.solver? a = some s → s.routes.get? key = some r →
    f.Supported a s key r ∧ r.metric < f.network.holders key
  source : ∀ x ∈ f.sources, ∃ s r, f.network.solver? x.solver = some s ∧ s.roleOf x.source = some .leaf ∧
    s.routes.get? x.key = some r ∧ r.metric = 0

theorem sound_empty : Sound .empty := by
  refine ⟨Network.named_empty, ?_, ?_, ?_⟩
  · intro q hq
    cases hq
  · intro a s key r hs
    cases hs
  · intro x hx
    cases hx

variable {f g : Fabric}

/-- What gets better stays sound if the new routes, parcels and sources are. -/
theorem Sound.improve (h : Sound f) (hi : Improves f g) (hnamed : g.network.Named)
    (hsent : ∀ q ∈ g.sent, q ∈ f.sent ∨ g.Genuine q)
    (hroute : ∀ {a s' key r}, g.network.solver? a = some s' → s'.routes.get? key = some r →
      (∃ s, f.network.solver? a = some s ∧ s.routes.get? key = some r) ∨
        g.Supported a s' key r ∧ r.metric < g.network.holders key)
    (hsource : ∀ x ∈ g.sources, x ∈ f.sources ∨ ∃ s r, g.network.solver? x.solver = some s ∧
      s.roleOf x.source = some .leaf ∧ s.routes.get? x.key = some r ∧ r.metric = 0) : Sound g := by
  refine ⟨hnamed, fun q hq => ?_, fun {a s' key r} hs' hr => ?_, fun x hx => ?_⟩
  · rcases hsent q hq with hold | hnew
    · exact (h.sent q hold).improve hi
    · exact hnew
  · rcases hroute hs' hr with ⟨s, hs, hold⟩ | hnew
    · obtain ⟨hsup, hlt⟩ := h.route hs hold
      obtain ⟨s'', hs'', hroles, -⟩ := hi.solver hs
      rw [hs'] at hs''
      cases hs''
      exact ⟨hsup.improve hi hroles, Nat.lt_of_lt_of_le hlt (hi.holders key)⟩
    · exact hnew
  · rcases hsource x hx with hold | hnew
    · obtain ⟨s, r, hs, hrole, hr, hzero⟩ := h.source x hold
      obtain ⟨s', hs', hroles, hroutes⟩ := hi.solver hs
      obtain ⟨r', hr', hle⟩ := hroutes hr
      exact ⟨s', r', hs', hroles hrole, hr', Nat.le_zero.mp (hzero ▸ hle)⟩
    · exact hnew

/-! ## Changes of one solver -/

section OneSolver

variable {a : NodeId} {k : SolverId} {s s' : Solver} {sent : List Parcel} {sources : List Attachment}

theorem improves_setSolver (hn : f.network.Named) (hs : f.network.lookup a = some (k, s))
    (hroles : ∀ {b role}, s.roleOf b = some role → s'.roleOf b = some role)
    (hroutes : ∀ {key r}, s.routes.get? key = some r → ∃ r', s'.routes.get? key = some r' ∧ r'.metric ≤ r.metric)
    (hsources : f.sources ⊆ sources) : Improves f ⟨f.network.setSolver k s', sent, sources⟩ := by
  refine ⟨fun {b t} ht => ?_, fun key => ?_, hsources⟩
  · show ∃ t', (f.network.setSolver k s').solver? b = some t' ∧ _
    rw [hn.solver?_setSolver hs]
    by_cases hb : b = a
    · subst hb
      rw [Network.solver?_eq_some.mpr ⟨k, hs⟩] at ht
      cases ht
      exact ⟨s', if_pos rfl, hroles, hroutes⟩
    · exact ⟨t, (if_neg hb).trans ht, fun h => h, fun hr => ⟨_, hr, Nat.le_refl _⟩⟩
  · refine Network.holders_le_setSolver hs fun hc => ?_
    obtain ⟨r, hr⟩ := Option.isSome_iff_exists.mp hc
    obtain ⟨r', hr', -⟩ := hroutes hr
    rw [Table.contains, hr']
    rfl

/-- A route in a network after one solver changed is an old one or one of the changed solver's. -/
theorem route_setSolver (hn : f.network.Named) (hs : f.network.lookup a = some (k, s)) {b : NodeId} {t : Solver}
    (ht : (f.network.setSolver k s').solver? b = some t) :
    f.network.solver? b = some t ∨ b = a ∧ t = s' := by
  rw [hn.solver?_setSolver hs] at ht
  by_cases hb : b = a
  · rw [if_pos hb] at ht
    exact .inr ⟨hb, (Option.some.inj ht).symm⟩
  · rw [if_neg hb] at ht
    exact .inl ht

end OneSolver

/-! ## Setting up -/

theorem Sound.same (h : Sound f) {n : Network} (hn : f.network.Same n) : Sound (f.withNetwork n) := by
  have hi : Improves f (f.withNetwork n) :=
    ⟨fun {b t} ht => ⟨t, (hn.solver? b).trans ht, fun h => h, fun hr => ⟨_, hr, Nat.le_refl _⟩⟩,
      fun key => Nat.le_of_eq (hn.holders key).symm, fun _ hx => hx⟩
  refine h.improve hi (hn.named h.named) (fun q hq => .inl hq) (fun {b t key r} ht hr => .inl ⟨t, ?_, hr⟩) fun x hx => .inl hx
  exact (hn.solver? b).symm.trans ht

theorem Sound.grow (h : Sound f) {a : NodeId} {k : SolverId} {s s' : Solver} (hs : f.network.lookup a = some (k, s))
    (hg : s.Grown s') : Sound (f.withNetwork (f.network.setSolver k s')) := by
  have hi : Improves f (f.withNetwork (f.network.setSolver k s')) :=
    improves_setSolver h.named hs hg.roleOf (fun {key r} hr => ⟨r, hg.routes ▸ hr, Nat.le_refl _⟩) fun _ hx => hx
  refine h.improve hi (h.named.setSolver hs hg.id) (fun q hq => .inl hq) (fun {b t key r} ht hr => .inl ?_) fun x hx => .inl hx
  rcases route_setSolver h.named hs ht with hold | ⟨rfl, rfl⟩
  · exact ⟨t, hold, hr⟩
  · exact ⟨s, Network.solver?_eq_some.mpr ⟨k, hs⟩, hg.routes ▸ hr⟩

theorem Sound.alters (h : Sound f) {n : Network} (hn : f.network.Alters n) : Sound (f.withNetwork n) := by
  induction hn with
  | refl => exact h
  | tail _ htouch ih =>
    cases htouch with
    | same hsame => exact ih.same hsame
    | grow hs hg => exact ih.grow hs hg

theorem Sound.addSolver (h : Sound f) {a : NodeId} (ha : f.network.lookup a = none) (config : SolverConfig) :
    Sound (f.withNetwork (f.network.addSolver a config)) := by
  have hnone : f.network.solver? a = none := by rw [Network.solver?, ha]; rfl
  have hget := h.named.solver?_addSolver ha config
  have hi : Improves f (f.withNetwork (f.network.addSolver a config)) := by
    refine ⟨fun {b t} ht => ⟨t, (hget b).trans ?_, fun h => h, fun hr => ⟨_, hr, Nat.le_refl _⟩⟩, fun key => ?_, fun _ hx => hx⟩
    · have hb : b ≠ a := fun hb => by rw [hb, hnone] at ht; cases ht
      rw [if_neg hb, ht]
    · show f.network.holders key ≤ (f.network.addSolver a config).holders key
      rw [Network.addSolver_eq ha]
      unfold Network.holders
      rw [List.countP_append]
      omega
  refine h.improve hi (h.named.addSolver ha config) (fun q hq => .inl hq) (fun {b t key r} ht hr => .inl ?_) fun x hx => .inl hx
  have ht : (f.network.addSolver a config).solver? b = some t := ht
  rw [hget] at ht
  by_cases hb : b = a
  · rw [if_pos hb] at ht
    cases ht
    cases hr
  · rw [if_neg hb] at ht
    exact ⟨t, ht, hr⟩

/-! ## Sources -/

/-- A direct route is set and announced. -/
theorem Sound.direct (h : Sound f) {a source : NodeId} {key : String} {k : SolverId} {s : Solver}
    (hs : f.network.lookup a = some (k, s)) (hrole : s.roleOf source = some .leaf) :
    Sound (f.withSource (f.network.setSolver k { s with routes := s.routes.insertDirect key source }) a source key) := by
  have hsolver := h.named.solver?_setSolver hs { s with routes := s.routes.insertDirect key source }
  have hself := (hsolver a).trans (if_pos rfl)
  have hroute : (s.routes.insertDirect key source).get? key = some ⟨source, 0⟩ := Table.get?_insert_self ..
  have hpos : 0 < (f.network.setSolver k { s with routes := s.routes.insertDirect key source }).holders key :=
    Network.holders_pos (Network.lookup_setSolver hs _) hroute
  have hi : Improves f
      (f.withSource (f.network.setSolver k { s with routes := s.routes.insertDirect key source }) a source key) := by
    refine improves_setSolver h.named hs (fun h => h) (fun {key' r} hr => ?_) (List.subset_append_left ..)
    by_cases hk : key' = key
    · subst hk
      exact ⟨_, hroute, Nat.zero_le _⟩
    · refine ⟨r, ?_, Nat.le_refl _⟩
      show (s.routes.insert key ⟨source, 0⟩).get? key' = some r
      rw [Table.get?_insert, if_neg hk, hr]
  refine h.improve hi (h.named.setSolver hs rfl) (fun q hq => ?_) (fun {b t key' r} ht hr => ?_) fun x hx => ?_
  · rcases List.mem_append.mp hq with hold | hnew
    · exact .inl hold
    · rw [hself] at hnew
      obtain ⟨b, hb, rfl⟩ := List.mem_map.mp hnew
      exact .inr fun _ => ⟨key, 0, rfl, ⟨_, _, hself, Solver.mem_peersExcept hb, hroute, Nat.le_refl _⟩, hpos⟩
  · rcases route_setSolver h.named hs ht with hold | ⟨rfl, rfl⟩
    · exact .inl ⟨t, hold, hr⟩
    · have hr : (s.routes.insert key ⟨source, 0⟩).get? key' = some r := hr
      rw [Table.get?_insert] at hr
      by_cases hk : key' = key
      · subst hk
        rw [if_pos rfl] at hr
        cases hr
        exact .inr ⟨.inl ⟨rfl, List.mem_append_right _ (List.mem_singleton_self _)⟩, hpos⟩
      · rw [if_neg hk] at hr
        exact .inl ⟨s, Network.solver?_eq_some.mpr ⟨k, hs⟩, hr⟩
  · rcases List.mem_append.mp hx with hold | hnew
    · exact .inl hold
    · rw [List.mem_singleton.mp hnew]
      exact .inr ⟨_, _, hself, hrole, hroute, rfl⟩

theorem Sound.attachSource (h : Sound f) {a source : NodeId} {key : String} {far : Endpoint}
    (hok : (f.network.attachSource a source key).result = .ok far) :
    Sound (f.withSource (f.network.attachSource a source key).network a source key) := by
  obtain ⟨n, k, s, halters, hs, hrole, hsame⟩ := Network.attachSource_ok hok
  have hdirect := ((h.alters halters).direct hs hrole).same hsame
  have heq : f.withSource (f.network.attachSource a source key).network a source key =
      ((f.withNetwork n).withSource (n.setSolver k { s with routes := s.routes.insertDirect key source }) a source
        key).withNetwork (f.network.attachSource a source key).network := by
    unfold Fabric.withSource Fabric.withNetwork
    rw [hsame.solver?]
  rw [heq]
  exact hdirect

/-! ## Exchanges -/

theorem Improves.more_sent (f : Fabric) (sent : List Parcel) : Improves f { f with sent := sent } :=
  ⟨fun {_ s} hs => ⟨s, hs, fun h => h, fun hr => ⟨_, hr, Nat.le_refl _⟩⟩, fun _ => Nat.le_refl _, fun _ hx => hx⟩

theorem Sound.refresh (h : Sound f) {a b : NodeId} {k : SolverId} {s : Solver}
    (hs : f.network.lookup a = some (k, s)) (hrole : s.roleOf b = some .solverPeer) :
    Sound { f with sent := f.sent ++ (s.advertisement b).map (Parcel.mk a) } := by
  have hget := Network.solver?_eq_some.mpr ⟨k, hs⟩
  refine h.improve (.more_sent f _) h.named (fun q hq => ?_) (fun {b t key r} ht hr => .inl ⟨t, ht, hr⟩) fun x hx => .inl hx
  rcases List.mem_append.mp hq with hold | hnew
  · exact .inl hold
  · obtain ⟨o, ho, rfl⟩ := List.mem_map.mp hnew
    obtain ⟨key, r, hr, -, rfl⟩ := Solver.mem_advertisement.mp ho
    refine .inr fun _ => ⟨key, r.metric, ?_, ⟨s, r, hget, hrole, hr, Nat.le_refl _⟩, (h.route hget hr).2⟩
    rw [h.named.id_eq hget]

/-- A packet that is no announcement from a peer changes no routes. -/
theorem Sound.handle_other (h : Sound f) {a b : NodeId} {k : SolverId} {s : Solver} {p : Packet} {t : Turn}
    (hs : f.network.lookup b = some (k, s)) (ht : s.Handles a p t)
    (hp : s.roleOf a ≠ some .solverPeer ∨ ∃ e, p.announcement = .error e) :
    Sound { f with network := f.network.setSolver k t.solver, sent := f.sent ++ t.out.map (Parcel.mk b) } := by
  obtain ⟨hsolver, hout⟩ := Solver.handle_other ht hp
  have hgrown : s.Grown t.solver := by
    rw [hsolver]
    exact ⟨rfl, rfl, fun h => h⟩
  have hgrow := h.grow hs hgrown
  refine hgrow.improve (.more_sent _ _) hgrow.named (fun q hq => ?_) (fun {b t key r} ht hr => .inl ⟨t, ht, hr⟩)
    fun x hx => .inl hx
  rcases List.mem_append.mp hq with hold | hnew
  · exact .inl hold
  · obtain ⟨o, ho, rfl⟩ := List.mem_map.mp hnew
    exact .inr fun hkind => absurd hkind (hout o ho)

/-- What a peer announced is true, and its metric is not the largest one. -/
theorem Sound.announced (h : Sound f) (hsmall : f.network.solvers.length ≤ maxMetric) {a b : NodeId} {p : Packet}
    (hsent : ⟨a, b, p⟩ ∈ f.sent) (hkind : p.kind = .routeAnnounce) :
    ∃ key m, p.announcement = .ok ⟨key, a, m⟩ ∧ f.Offers a b key m ∧ m < f.network.holders key ∧ m < maxMetric := by
  obtain ⟨key, m, hp, hoffers, hm⟩ := h.sent _ hsent hkind
  have hp : p = .announce key a m := hp
  have hmax : m < maxMetric := by
    have := f.network.holders_le_length key
    omega
  exact ⟨key, m, hp ▸ Packet.announcement_announce (Nat.le_of_lt hmax) key a, hoffers, hm, hmax⟩

section Learned

variable {a b : NodeId} {k : SolverId} {s : Solver} {key : String} {m : Nat} {t : Turn}

theorem Sound.improves_learns (h : Sound f) (hs : f.network.lookup b = some (k, s)) (hl : s.Learns a key m t)
    (sent : List Parcel) : Improves f ⟨f.network.setSolver k t.solver, sent, f.sources⟩ := by
  refine improves_setSolver h.named hs (fun {c role} hc => (hl.roleOf c).trans hc) (fun {key' r} hr => ?_) fun _ hx => hx
  rw [hl.routes]
  by_cases hk : key' = key
  · rw [if_pos hk, hr]
    exact ⟨_, rfl, Route.pick_metric_le_old _⟩
  · exact ⟨r, (if_neg hk).trans hr, Nat.le_refl _⟩

/-- The solver is then one of those with a route, so its metric stays below their number. -/
theorem Sound.learns_metric_lt (h : Sound f) (hs : f.network.lookup b = some (k, s)) (hl : s.Learns a key m t)
    (hm : m < f.network.holders key) :
    (Route.pick (s.routes.get? key) ⟨a, m + 1⟩).metric < (f.network.setSolver k t.solver).holders key := by
  have hnew := hl.route
  cases hold : s.routes.get? key with
  | none =>
    rw [hold] at hnew
    have hlt := Network.holders_lt_setSolver hs hold hnew
    show m + 1 < _
    omega
  | some r =>
    have hle := Route.pick_metric_le_old (r := r) ⟨a, m + 1⟩
    have hr := (h.route (Network.solver?_eq_some.mpr ⟨k, hs⟩) hold).2
    have hgrow : f.network.holders key ≤ (f.network.setSolver k t.solver).holders key := (h.improves_learns hs hl []).holders key
    omega

/-- A route that is learned from a peer is supported by what the peer has. -/
theorem Sound.learn (h : Sound f) (hs : f.network.lookup b = some (k, s)) (hrole : s.roleOf a = some .solverPeer)
    (hoffers : f.Offers a b key m) (hm : m < f.network.holders key) (hl : s.Learns a key m t) :
    Sound ⟨f.network.setSolver k t.solver, f.sent ++ t.out.map (Parcel.mk b), f.sources⟩ := by
  have hget := Network.solver?_eq_some.mpr ⟨k, hs⟩
  have hself : (f.network.setSolver k t.solver).solver? b = some t.solver :=
    (h.named.solver?_setSolver hs _ b).trans (if_pos rfl)
  have hi := h.improves_learns hs hl (f.sent ++ t.out.map (Parcel.mk b))
  have hmetric := h.learns_metric_lt hs hl hm
  refine h.improve hi (h.named.setSolver hs hl.id) (fun q hq => ?_) (fun {c u key' r} hu hr => ?_) fun x hx => .inl hx
  · rcases List.mem_append.mp hq with hold | hq
    · exact .inl hold
    · obtain ⟨o, ho, rfl⟩ := List.mem_map.mp hq
      obtain ⟨hpeer, hnone, hpacket⟩ := hl.out o ho
      have hroute := hl.route
      rw [hnone] at hroute hmetric
      refine .inr fun _ => ⟨key, m + 1, ?_, ⟨t.solver, _, hself, (hl.roleOf _).trans hpeer, hroute, Nat.le_refl _⟩, hmetric⟩
      rw [hpacket, h.named.id_eq hget]
  · rcases route_setSolver h.named hs hu with hold | ⟨rfl, rfl⟩
    · exact .inl ⟨u, hold, hr⟩
    · rw [hl.routes] at hr
      by_cases hk : key' = key
      · subst hk
        rw [if_pos rfl] at hr
        obtain rfl := Option.some.inj hr
        rcases Route.pick_eq (s.routes.get? key') ⟨a, m + 1⟩ with he | hold
        · refine .inr ⟨.inr ?_, hmetric⟩
          rw [he]
          exact ⟨(hl.roleOf a).trans hrole, m, hoffers.improve hi, Nat.le_refl _⟩
        · exact .inl ⟨s, hget, hold⟩
      · rw [if_neg hk] at hr
        exact .inl ⟨s, hget, hr⟩

/-- An announcement from a peer is true however late it comes, so the route it offers is supported. -/
theorem Sound.handle_announcement (h : Sound f) (hsmall : f.network.solvers.length ≤ maxMetric) {p : Packet}
    (hs : f.network.lookup b = some (k, s)) (ht : s.Handles a p t) (hrole : s.roleOf a = some .solverPeer)
    (hkind : p.kind = .routeAnnounce) (hsent : ⟨a, b, p⟩ ∈ f.sent) :
    Sound ⟨f.network.setSolver k t.solver, f.sent ++ t.out.map (Parcel.mk b), f.sources⟩ := by
  obtain ⟨key, m, hann, hoffers, hm, hmax⟩ := h.announced hsmall hsent hkind
  exact h.learn hs hrole hoffers hm (Solver.learns ht hrole hmax hann)

end Learned

theorem Sound.exchange (h : Sound f) (hsmall : f.network.solvers.length ≤ maxMetric) {d : Deed} (hd : Exchange f d g) :
    Sound g := by
  cases hd with
  | refresh hs hrole => exact h.refresh hs hrole
  | other hsame => exact h.same hsame
  | @handle b a k s p t hs ht hp =>
    by_cases hrole : s.roleOf a = some .solverPeer
    · by_cases hkind : p.kind = .routeAnnounce
      · exact h.handle_announcement hsmall hs ht hrole hkind (hp hrole hkind)
      · exact h.handle_other hs ht (.inr ⟨.wrongKind p.kind, if_pos hkind⟩)
    · exact h.handle_other hs ht (.inl hrole)

/-! ## Fabrics that come about -/

theorem Exchange.length_eq {d : Deed} (hd : Exchange f d g) : g.network.solvers.length = f.network.solvers.length := by
  cases hd with
  | refresh => rfl
  | handle => exact List.length_set
  | other hsame => exact congrArg List.length hsame.solvers

theorem Step.length_le (h : Step f g) : f.network.solvers.length ≤ g.network.solvers.length := by
  cases h with
  | addSolver ha =>
    show _ ≤ (f.network.addSolver _ _).solvers.length
    rw [Network.addSolver_eq ha, List.length_append]
    omega
  | connect => exact Nat.le_of_eq (Network.Alters.length_eq (Network.alters_connect _ _ _)).symm
  | attachSource hok =>
    obtain ⟨n, k, s, halters, hs, -, hsame⟩ := Network.attachSource_ok hok
    show _ ≤ (f.network.attachSource _ _ _).network.solvers.length
    rw [hsame.solvers]
    exact Nat.le_of_eq (halters.length_eq.symm.trans List.length_set.symm)
  | refuseSource herr => exact Nat.le_of_eq (Network.Alters.length_eq (Network.attachSource_error herr)).symm
  | attachRequest => exact Nat.le_of_eq (Network.Alters.length_eq (Network.alters_attachRequest _ _ _)).symm
  | addRule => exact Nat.le_of_eq (Network.Alters.length_eq (Network.alters_addRule _ _ _)).symm
  | start => exact Nat.le_of_eq (Network.Alters.length_eq (Network.alters_start _ _)).symm
  | exchange hd => exact Nat.le_of_eq hd.length_eq.symm

theorem Sound.step (h : Sound f) (hs : Step f g) (hsmall : f.network.solvers.length ≤ maxMetric) : Sound g := by
  cases hs with
  | addSolver ha => exact h.addSolver ha _
  | connect => exact h.alters (Network.alters_connect _ _ _)
  | attachSource hok => exact h.attachSource hok
  | refuseSource herr => exact h.alters (Network.attachSource_error herr)
  | attachRequest => exact h.alters (Network.alters_attachRequest _ _ _)
  | addRule => exact h.alters (Network.alters_addRule _ _ _)
  | start => exact h.alters (Network.alters_start _ _)
  | exchange hd => exact h.exchange hsmall hd

theorem Reach.sound (h : Reach f) (hsmall : f.network.solvers.length ≤ maxMetric) : Sound f := by
  induction h with
  | init => exact sound_empty
  | step _ hs ih =>
    have hf := Nat.le_trans hs.length_le hsmall
    exact (ih hf).step hs hf

/-! ## What routes lead to -/

namespace Sound

variable {a : NodeId} {key : String} {r : Route}

theorem route?_eq {s : Solver} (hs : f.network.solver? a = some s) : f.route? a key = s.routes.get? key := by
  rw [Fabric.route?, hs, Option.bind_some]

/-- A route of metric 0 leads to a source, every other one to a peer that is nearer. -/
theorem nearer (h : Sound f) (hr : f.route? a key = some r) :
    (r.metric = 0 ∧ ⟨a, r.nexthop, key⟩ ∈ f.sources) ∨
    (f.Linked a r.nexthop ∧ ∃ r', f.route? r.nexthop key = some r' ∧ r'.metric + 1 ≤ r.metric) := by
  obtain ⟨s, hs, hr⟩ := Option.bind_eq_some_iff.mp hr
  rcases (h.route hs hr).1 with hzero | ⟨hrole, m, ⟨t, r', ht, hback, hr', hle⟩, hm⟩
  · exact .inl hzero
  · exact .inr ⟨⟨s, t, hs, ht, hrole, hback⟩, r', (route?_eq ht).trans hr', by omega⟩

theorem within (h : Sound f) {n : Nat} (hr : f.route? a key = some r) (hn : r.metric ≤ n) :
    ∃ d ≤ r.metric, f.Within key a d := by
  induction n generalizing a r with
  | zero =>
    rcases h.nearer hr with ⟨hzero, hsource⟩ | ⟨-, r', -, hlt⟩
    · exact ⟨0, Nat.zero_le _, .here ⟨_, hsource⟩⟩
    · omega
  | succ n ih =>
    rcases h.nearer hr with ⟨hzero, hsource⟩ | ⟨hlink, r', hr', hlt⟩
    · exact ⟨0, Nat.zero_le _, .here ⟨_, hsource⟩⟩
    · obtain ⟨d, hd, hwithin⟩ := ih hr' (by omega)
      exact ⟨d + 1, by omega, .hop hlink hwithin⟩

/-- The metric of a route is at least the distance. -/
theorem distance (h : Sound f) (hr : f.route? a key = some r) : ∃ d, f.Distance key a d ∧ d ≤ r.metric := by
  obtain ⟨n, hn, hwithin⟩ := h.within hr (Nat.le_refl _)
  obtain ⟨d, hd, hle⟩ := hwithin.exists_distance
  exact ⟨d, hd, Nat.le_trans hle hn⟩

/-- Metrics fall along the trail, so it comes back to no solver. -/
theorem trail_metric_le (h : Sound f) (n : Nat) : ∀ {a : NodeId} {r : Route}, f.route? a key = some r →
    ∀ b ∈ f.trail key n a, ∃ r', f.route? b key = some r' ∧ r'.metric ≤ r.metric := by
  induction n with
  | zero =>
    intro a r hr b hb
    rw [List.mem_singleton.mp hb]
    exact ⟨r, hr, Nat.le_refl _⟩
  | succ n ih =>
    intro a r hr b hb
    rw [Fabric.trail, hr] at hb
    dsimp only at hb
    rcases h.nearer hr with ⟨hzero, -⟩ | ⟨-, r', hr', hlt⟩
    · rw [if_pos hzero, List.mem_singleton] at hb
      exact ⟨r, hb ▸ hr, Nat.le_refl _⟩
    · rw [if_neg (by omega)] at hb
      rcases List.mem_cons.mp hb with rfl | hb
      · exact ⟨r, hr, Nat.le_refl _⟩
      · obtain ⟨r'', hr'', hle⟩ := ih hr' b hb
        exact ⟨r'', hr'', by omega⟩

theorem head?_trail (n : Nat) (a : NodeId) : (f.trail key n a).head? = some a := by
  cases n with
  | zero => rfl
  | succ n =>
    rw [Fabric.trail]
    split
    · split <;> rfl
    · rfl

theorem arrives (h : Sound f) (n : Nat) : ∀ {a : NodeId} {r : Route}, f.route? a key = some r → r.metric ≤ n →
    f.Arrives key a r.metric (f.trail key n a) := by
  have hstop : ∀ {a : NodeId} {m : Nat}, f.HasSource key a → f.Arrives key a m [a] := fun {a m} hsource =>
    ⟨rfl, .singleton a, List.nodup_singleton a, Nat.le_add_left 1 m, a, rfl, hsource⟩
  induction n with
  | zero =>
    intro a r hr hn
    rcases h.nearer hr with ⟨-, hsource⟩ | ⟨-, r', -, hlt⟩
    · exact hstop ⟨_, hsource⟩
    · omega
  | succ n ih =>
    intro a r hr hn
    rw [Fabric.trail, hr]
    dsimp only
    rcases h.nearer hr with ⟨hzero, hsource⟩ | ⟨hlink, r', hr', hlt⟩
    · rw [if_pos hzero]
      exact hstop ⟨_, hsource⟩
    · rw [if_neg (by omega)]
      obtain ⟨hstart, hhops, hnodup, hlen, b, hlast, hsource⟩ := ih hr' (by omega)
      refine ⟨rfl, hhops.cons fun c hc => ?_, List.nodup_cons.mpr ⟨fun hmem => ?_, hnodup⟩, ?_, b, ?_, hsource⟩
      · rw [head?_trail] at hc
        obtain rfl := Option.some.inj hc
        exact ⟨hlink, r, hr, rfl⟩
      · -- the solvers further on are nearer than `a`
        obtain ⟨r'', hr'', hle⟩ := h.trail_metric_le n hr' a hmem
        rw [hr] at hr''
        cases hr''
        omega
      · rw [List.length_cons]
        omega
      · obtain ⟨c, l, he⟩ := List.exists_cons_of_ne_nil (l := f.trail key n r.nexthop) fun hnil => by
          rw [hnil] at hstart
          cases hstart
        rw [he, List.getLast?_cons_cons, ← he, hlast]

end Sound

/-- Every route is direct or leads to a nearer peer; its metric is no less than the distance, and the
    next hops lead to a source within as many hops, without a loop. -/
theorem routes_sound (h : Reach f) (hsmall : f.network.solvers.length ≤ maxMetric) {a : NodeId} {s : Solver} {key : String}
    {r : Route} (hs : f.network.solver? a = some s) (hr : s.routes.get? key = some r) :
    ((r.metric = 0 ∧ s.roleOf r.nexthop = some .leaf ∧ ⟨a, r.nexthop, key⟩ ∈ f.sources) ∨
      (1 ≤ r.metric ∧ s.roleOf r.nexthop = some .solverPeer ∧
        ∃ r', f.route? r.nexthop key = some r' ∧ r'.metric ≤ r.metric - 1)) ∧
    (∃ d, f.Distance key a d ∧ d ≤ r.metric) ∧ f.Arrives key a r.metric (f.trail key r.metric a) := by
  have hsound := h.sound hsmall
  have hroute : f.route? a key = some r := (Sound.route?_eq hs).trans hr
  refine ⟨?_, hsound.distance hroute, hsound.arrives _ hroute (Nat.le_refl _)⟩
  rcases (hsound.route hs hr).1 with ⟨hzero, hsource⟩ | ⟨hrole, m, ⟨t, r', ht, -, hr', hle⟩, hm⟩
  · obtain ⟨s', -, hs', hleaf, -⟩ := hsound.source _ hsource
    have hs' : f.network.solver? a = some s' := hs'
    rw [hs] at hs'
    cases hs'
    exact .inl ⟨hzero, hleaf, hsource⟩
  · exact .inr ⟨by omega, hrole, r', (Sound.route?_eq ht).trans hr', by omega⟩

theorem pair_routes_sound : ∃ f s, Reach f ∧ f.network.solvers.length ≤ maxMetric ∧ f.network.solver? "b" = some s ∧
    s.routes.get? "key" = some ⟨"a", 1⟩ ∧ s.roleOf "a" = some .solverPeer ∧
    (∃ r, f.route? "a" "key" = some r ∧ r.metric = 0) ∧ (∃ d, f.Distance "key" "b" d ∧ d ≤ 1) ∧
    f.Arrives "key" "b" 1 (f.trail "key" 1 "b") := by
  obtain ⟨f, s, hd, hlen, hs, hr⟩ := @pair_learns Fabric.pair.sent (by decide +kernel)
  have hreach := reach_pair.step (.exchange hd)
  have hsmall : f.network.solvers.length ≤ maxMetric := by rw [hlen]; decide
  obtain ⟨hnext, hdistance, harrives⟩ := routes_sound hreach hsmall hs hr
  rcases hnext with ⟨hzero, -⟩ | ⟨-, hrole, r, hr', hle⟩
  · cases hzero
  · exact ⟨f, s, hreach, hsmall, hs, hr, hrole, ⟨r, hr', Nat.le_zero.mp hle⟩, hdistance, harrives⟩

end QueryNet
