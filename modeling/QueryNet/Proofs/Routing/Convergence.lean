/-
  QueryNet.Proofs.Routing.Convergence — rounds of announcements lead to shortest routes.

  In a round every solver draws up its routes for every peer, and the peer handles
  them all; whatever else is sent or handled meanwhile, late, twice or out of order,
  makes no difference. No metric is below the distance, so a route that is as long as
  the distance, through the nearest peer with the smallest name, is better than any
  that is ever offered (`Settled.exchange`). Once the nearest peers are settled, a
  round settles the solvers behind them: no route to a source leads back, so none is
  withheld from a solver that needs it (`Settled.nexthop_ne`).

  Proved: after as many rounds as the distance a solver's route is that one, solvers
  that no source can reach have none, and all of these stay (`rounds_converge`).
-/

import QueryNet.Proofs.Routing.Soundness

namespace QueryNet

namespace Fabric

/-! ## Rounds -/

inductive Run : Fabric → List (Fabric × Deed) → Fabric → Prop
  | nil {f : Fabric} : Run f [] f
  | cons {f g h : Fabric} {d : Deed} {es : List (Fabric × Deed)} : Exchange f d g → Run g es h → Run f ((f, d) :: es) h

/-- Among the deeds, `a` draws up its routes for `b`, which then handles all of them. -/
def Refreshed (a b : NodeId) (es : List (Fabric × Deed)) : Prop :=
  ∃ before f after, es = before ++ (f, .refresh a b) :: after ∧
    ∀ s, f.network.solver? a = some s → ∀ o ∈ s.advertisement b, ∃ g, (g, .handle b a o.packet) ∈ after

/-- Deeds by which every solver brings its routes to every peer. -/
def Round (f g : Fabric) : Prop := ∃ es, f.Run es g ∧ ∀ a b, f.Linked a b → Refreshed a b es

inductive Rounds : Fabric → Nat → Fabric → Prop
  | zero {f : Fabric} : Rounds f 0 f
  | succ {f g h : Fabric} {n : Nat} : Rounds f n g → g.Round h → Rounds f (n + 1) h

/-- A round in which the second solver learns the route of the first. -/
theorem pair_round : ∃ g, pair.Round g := by
  have ha : ∃ e ∈ (Fabric.pair.network.lookup "a").toList, e.2.roleOf "b" = some .solverPeer ∧
      e.2.advertisement "b" = [⟨"b", .announce "key" "a" 0⟩] := by decide +kernel
  have hb : ∃ e ∈ (Fabric.pair.network.lookup "b").toList, e.2.roleOf "a" = some .solverPeer ∧
      e.2.advertisement "a" = [] := by decide +kernel
  obtain ⟨⟨i, s⟩, hs, hsrole, hsadv⟩ := ha
  obtain ⟨⟨j, t⟩, ht, htrole, htadv⟩ := hb
  have hs := Option.mem_toList.mp hs
  have ht := Option.mem_toList.mp ht
  have hsent : ⟨"a", "b", .announce "key" "a" 0⟩ ∈
      (Fabric.pair.sent ++ (s.advertisement "b").map (Parcel.mk "a")) ++ (t.advertisement "a").map (Parcel.mk "b") := by
    rw [hsadv, htadv]
    decide +kernel
  have hfirst : Exchange .pair (.refresh "a" "b") _ := .refresh hs hsrole
  have hsecond : Exchange ⟨Fabric.pair.network, Fabric.pair.sent ++ (s.advertisement "b").map (Parcel.mk "a"),
      Fabric.pair.sources⟩ (.refresh "b" "a") _ := .refresh ht htrole
  obtain ⟨g, u, hthird, -⟩ := pair_learns hsent
  refine ⟨g, _, .cons hfirst (.cons hsecond (.cons hthird .nil)), fun a b hlink => ?_⟩
  rcases pair_linked hlink with ⟨rfl, rfl⟩ | ⟨rfl, rfl⟩
  · refine ⟨[], _, _, rfl, fun s' hs' o ho => ?_⟩
    obtain rfl : s' = s := Option.some.inj (hs'.symm.trans (Network.solver?_eq_some.mpr ⟨i, hs⟩))
    rw [hsadv, List.mem_singleton] at ho
    subst ho
    exact ⟨_, .tail _ (.head _)⟩
  · refine ⟨[_], _, _, rfl, fun t' ht' o ho => ?_⟩
    obtain rfl : t' = t := Option.some.inj (ht'.symm.trans (Network.solver?_eq_some.mpr ⟨j, ht⟩))
    rw [htadv] at ho
    cases ho

/-! ## Shortest routes -/

structure LeastPeer (f : Fabric) (key : String) (a : NodeId) (n : Nat) (b : NodeId) : Prop where
  linked : f.Linked a b
  distance : f.Distance key b n
  least : ∀ c, f.Linked a c → f.Distance key c n → b ≤ c

/-- A route as long as the distance, through the nearest peer with the smallest name. -/
structure Settled (f : Fabric) (key : String) (a : NodeId) (r : Route) : Prop where
  route : f.route? a key = some r
  distance : f.Distance key a r.metric
  nexthop : 1 ≤ r.metric → f.LeastPeer key a (r.metric - 1) r.nexthop

/-! ## Fabrics with the same links -/

structure Alike (f g : Fabric) : Prop where
  role : ∀ a b, g.role? a b = f.role? a b
  sources : g.sources = f.sources

variable {f g k : Fabric} {key : String} {a b : NodeId} {n : Nat}

theorem Alike.refl (f : Fabric) : Alike f f := ⟨fun _ _ => rfl, rfl⟩

theorem Alike.symm (h : Alike f g) : Alike g f := ⟨fun a b => (h.role a b).symm, h.sources.symm⟩

theorem Alike.trans (h : Alike f g) (h' : Alike g k) : Alike f k :=
  ⟨fun a b => (h'.role a b).trans (h.role a b), h'.sources.trans h.sources⟩

theorem Alike.linked (h : Alike f g) : g.Linked a b ↔ f.Linked a b := by
  rw [linked_iff, linked_iff, h.role, h.role]

theorem Alike.within_of (h : Alike f g) (hw : f.Within key a n) : g.Within key a n := by
  induction hw with
  | here hs =>
    obtain ⟨source, hs⟩ := hs
    exact .here ⟨source, h.sources ▸ hs⟩
  | hop hlink _ ih => exact .hop (h.linked.mpr hlink) ih

theorem Alike.within (h : Alike f g) : g.Within key a n ↔ f.Within key a n := ⟨h.symm.within_of, h.within_of⟩

theorem Alike.distance (h : Alike f g) : g.Distance key a n ↔ f.Distance key a n := by
  simp only [Fabric.Distance, h.within]

theorem Alike.leastPeer (h : Alike f g) (hp : f.LeastPeer key a n b) : g.LeastPeer key a n b :=
  ⟨h.linked.mpr hp.linked, h.distance.mpr hp.distance,
    fun c hc hd => hp.least c (h.linked.mp hc) (h.distance.mp hd)⟩

end Fabric

variable {f g : Fabric} {key : String} {a b : NodeId} {d : Deed} {r : Route}

structure Steady (f : Fabric) : Prop where
  sound : Sound f
  small : f.network.solvers.length ≤ maxMetric

theorem Steady.exchange (h : Steady f) (hd : Exchange f d g) : Steady g :=
  ⟨h.sound.exchange h.small hd, hd.length_eq ▸ h.small⟩

theorem Steady.metric_le (h : Steady f) (hr : f.route? a key = some r) : r.metric ≤ maxMetric := by
  obtain ⟨s, hs, hr⟩ := Option.bind_eq_some_iff.mp hr
  have hlt := (h.sound.route hs hr).2
  have hle := f.network.holders_le_length key
  have hsmall := h.small
  omega

/-! ## What a deed does to the routes -/

section OneSolver

variable {k : SolverId} {s s' : Solver} {sent : List Parcel} {sources : List Attachment}

theorem route?_setSolver (hn : f.network.Named) (hs : f.network.lookup b = some (k, s)) (c : NodeId) :
    Fabric.route? ⟨f.network.setSolver k s', sent, sources⟩ c key =
      if c = b then s'.routes.get? key else f.route? c key := by
  unfold Fabric.route?
  dsimp only
  rw [hn.solver?_setSolver hs]
  split
  · rfl
  · rfl

theorem alike_setSolver (hn : f.network.Named) (hs : f.network.lookup b = some (k, s))
    (hi : s'.interfaces = s.interfaces) : f.Alike ⟨f.network.setSolver k s', sent, f.sources⟩ := by
  refine ⟨fun c e => ?_, rfl⟩
  unfold Fabric.role?
  dsimp only
  rw [hn.solver?_setSolver hs]
  by_cases hc : c = b
  · rw [if_pos hc, hc, Network.solver?_eq_some.mpr ⟨k, hs⟩]
    show s'.roleOf e = s.roleOf e
    rw [Solver.roleOf, hi, Solver.roleOf]
  · rw [if_neg hc]

end OneSolver

theorem Exchange.alike (hn : f.network.Named) (hd : Exchange f d g) : f.Alike g := by
  cases hd with
  | refresh => exact ⟨fun _ _ => rfl, rfl⟩
  | other hsame => exact ⟨fun c e => by unfold Fabric.role?; rw [hsame.solver?], rfl⟩
  | handle hs ht =>
    obtain ⟨pending, routes, he⟩ := Solver.handle_frame ht
    exact alike_setSolver hn hs (by rw [he])

/-- Handling an announcement of a peer offers a route through it, and no other route changes. -/
theorem Exchange.learned (h : Steady f) {p : Packet} (hd : Exchange f (.handle b a p) g)
    (hrole : f.role? b a = some .solverPeer) (hkind : p.kind = .routeAnnounce) :
    ∃ key m, p.announcement = .ok ⟨key, a, m⟩ ∧ f.Offers a b key m ∧
      ∀ c key', g.route? c key' =
        if c = b ∧ key' = key then some (Route.pick (f.route? b key) ⟨a, m + 1⟩) else f.route? c key' := by
  cases hd with
  | @handle _ _ k s _ t hs ht hsent =>
    have hget : f.network.solver? b = some s := Network.solver?_eq_some.mpr ⟨k, hs⟩
    have hrole : s.roleOf a = some .solverPeer := by rwa [Fabric.role?, hget] at hrole
    obtain ⟨key, m, hann, hoffers, -, hmax⟩ := h.sound.announced h.small (hsent hrole hkind) hkind
    have hroutes := (Solver.learns ht hrole hmax hann).routes
    refine ⟨key, m, hann, hoffers, fun c key' => ?_⟩
    rw [route?_setSolver h.sound.named hs, hroutes, Sound.route?_eq hget]
    by_cases hc : c = b
    · subst hc
      by_cases hk : key' = key
      · rw [if_pos rfl, if_pos hk, if_pos ⟨rfl, hk⟩, hk]
      · rw [if_pos rfl, if_neg hk, if_neg fun he => hk he.2, Sound.route?_eq hget]
    · rw [if_neg hc, if_neg fun he => hc he.1]

/-- Nothing else changes routes. -/
theorem Exchange.route?_eq (hn : f.network.Named) (hd : Exchange f d g)
    (h : ∀ b a p, d = .handle b a p → f.role? b a = some .solverPeer → p.kind ≠ .routeAnnounce) (c : NodeId) (key : String) :
    g.route? c key = f.route? c key := by
  cases hd with
  | refresh => rfl
  | other hsame => unfold Fabric.route?; rw [hsame.solver?]
  | @handle b a k s p t hs ht =>
    have hget : f.network.solver? b = some s := Network.solver?_eq_some.mpr ⟨k, hs⟩
    have hother : s.roleOf a ≠ some .solverPeer ∨ ∃ e, p.announcement = .error e := by
      by_cases hrole : s.roleOf a = some .solverPeer
      · have hkind := h b a p rfl (by rw [Fabric.role?, hget]; exact hrole)
        exact .inr ⟨_, if_pos hkind⟩
      · exact .inl hrole
    rw [route?_setSolver hn hs, (Solver.handle_other ht hother).1]
    split
    · rename_i hc
      rw [hc, Sound.route?_eq hget]
      rfl
    · rfl

/-! ## Settled routes stay -/

/-- No solver announces a metric below its distance. -/
theorem Sound.offers_distance (h : Sound f) {m : Nat} (ho : f.Offers a b key m) : ∃ e, f.Distance key a e ∧ e ≤ m := by
  obtain ⟨s, r, hs, -, hr, hle⟩ := ho
  obtain ⟨e, he, her⟩ := h.distance ((Sound.route?_eq hs).trans hr)
  exact ⟨e, he, by omega⟩

theorem Sound.offers_linked {m : Nat} (ho : f.Offers a b key m) (hrole : f.role? b a = some .solverPeer) :
    f.Linked b a := by
  obtain ⟨s, -, hs, hback, -, -⟩ := ho
  refine Fabric.linked_iff.mpr ⟨hrole, ?_⟩
  rw [Fabric.role?, hs]
  exact hback

namespace Fabric.Settled

/-- A settled route is better than any that a peer may offer. -/
theorem pick_eq (hf : Sound f) (h : f.Settled key a r) (hlink : f.Linked a b) {m : Nat} (ho : f.Offers b a key m) :
    Route.pick (some r) ⟨b, m + 1⟩ = r := by
  obtain ⟨e, he, hem⟩ := hf.offers_distance ho
  have hle : r.metric ≤ e + 1 := h.distance.2 (e + 1) (.hop hlink he.1)
  refine if_neg fun hw => ?_
  rcases Route.isWorseThan_iff.mp hw with hlt | ⟨hm, hlt⟩
  · have hlt : m + 1 < r.metric := hlt
    omega
  · -- as long, so `b` is one of the nearest peers, and its name is not smaller
    have hm : m + 1 = r.metric := hm
    obtain rfl : e = r.metric - 1 := by omega
    exact (h.nexthop (by omega)).least b hlink he hlt

theorem exchange (hf : Steady f) (h : f.Settled key a r) (hd : Exchange f d g) : g.Settled key a r := by
  have halike := hd.alike hf.sound.named
  have hroute : g.route? a key = f.route? a key := by
    by_cases hl : ∃ b c p, d = .handle b c p ∧ f.role? b c = some .solverPeer ∧ p.kind = .routeAnnounce
    · obtain ⟨b, c, p, rfl, hrole, hkind⟩ := hl
      obtain ⟨key', m, -, ho, hroutes⟩ := hd.learned hf hrole hkind
      rw [hroutes]
      split
      · rename_i he
        obtain ⟨rfl, rfl⟩ := he
        rw [h.route, h.pick_eq hf.sound (Sound.offers_linked ho hrole) ho]
      · rfl
    · exact hd.route?_eq hf.sound.named (fun b c p he hrole hkind => hl ⟨b, c, p, he, hrole, hkind⟩) a key
  exact ⟨hroute.trans h.route, halike.distance.mpr h.distance, fun hm => halike.leastPeer (h.nexthop hm)⟩

/-- A settled route does not lead to a solver that is farther away; so it is announced to it. -/
theorem nexthop_ne (hf : Sound f) (h : f.Settled key a r) (hlink : f.Linked a b) (hb : f.Distance key b (r.metric + 1)) :
    r.nexthop ≠ b := by
  rintro rfl
  rcases hf.nearer h.route with ⟨-, hsource⟩ | ⟨-, r', hr', hlt⟩
  · -- a source is no peer
    obtain ⟨s, -, hs, hleaf, -⟩ := hf.source _ hsource
    have hs : f.network.solver? a = some s := hs
    have hrole := (linked_iff.mp hlink).1
    rw [role?, hs] at hrole
    have hleaf : s.roleOf r.nexthop = some .leaf := hleaf
    rw [Option.bind_some, hleaf] at hrole
    cases hrole
  · obtain ⟨e, he, hle⟩ := hf.distance hr'
    have := he.unique hb
    omega

theorem mem_advertisement (hf : Sound f) (h : f.Settled key a r) (hlink : f.Linked a b)
    (hb : f.Distance key b (r.metric + 1)) {s : Solver} (hs : f.network.solver? a = some s) :
    ⟨b, .announce key a r.metric⟩ ∈ s.advertisement b := by
  have hroute := h.route
  rw [Sound.route?_eq hs] at hroute
  refine Solver.mem_advertisement.mpr ⟨key, r, hroute, h.nexthop_ne hf hlink hb, ?_⟩
  rw [hf.named.id_eq hs]

/-- The routes of solvers with a source are settled. -/
theorem of_source (hf : Sound f) (h : f.HasSource key a) : ∃ r, f.Settled key a r := by
  obtain ⟨source, hsource⟩ := h
  obtain ⟨s, r, hs, -, hr, hzero⟩ := hf.source _ hsource
  refine ⟨r, (Sound.route?_eq hs).trans hr, ?_, fun hm => ?_⟩
  · rw [hzero]
    exact ⟨.here ⟨source, hsource⟩, fun n _ => Nat.zero_le n⟩
  · omega

end Fabric.Settled

/-! ## Runs -/

namespace Fabric.Run

variable {h : Fabric} {ds es : List (Fabric × Deed)}

theorem steady (hr : f.Run es g) (hf : Steady f) : Steady g := by
  induction hr with
  | nil => exact hf
  | cons hd _ ih => exact ih (hf.exchange hd)

theorem alike (hr : f.Run es g) (hf : Steady f) : f.Alike g := by
  induction hr with
  | nil => exact .refl _
  | cons hd _ ih => exact (hd.alike hf.sound.named).trans (ih (hf.exchange hd))

theorem settled (hr : f.Run es g) (hf : Steady f) (hs : f.Settled key a r) : g.Settled key a r := by
  induction hr with
  | nil => exact hs
  | cons hd _ ih => exact ih (hf.exchange hd) (hs.exchange hf hd)

theorem split (hr : f.Run (ds ++ es) h) : ∃ g, f.Run ds g ∧ g.Run es h := by
  induction ds generalizing f with
  | nil => exact ⟨f, .nil, hr⟩
  | cons e ds ih =>
    cases hr with
    | cons hd hr =>
      obtain ⟨g, hds, hes⟩ := ih hr
      exact ⟨g, .cons hd hds, hes⟩

/-- A deed in its place. -/
theorem split_cons (hr : f.Run (ds ++ (g, d) :: es) h) : ∃ g', f.Run ds g ∧ Exchange g d g' ∧ g'.Run es h := by
  obtain ⟨e, hds, hes⟩ := hr.split
  cases hes with
  | cons hd hes => exact ⟨_, hds, hd, hes⟩

end Fabric.Run

/-! ## A round settles the next solvers -/

theorem exists_least {p : NodeId → Prop} {l : List NodeId} (h : ∃ b ∈ l, p b) : ∃ b, p b ∧ ∀ c ∈ l, p c → b ≤ c := by
  induction l with
  | nil =>
    obtain ⟨b, hb, -⟩ := h
    cases hb
  | cons b l ih =>
    by_cases hl : ∃ c ∈ l, p c
    · obtain ⟨c, hc, hleast⟩ := ih hl
      by_cases hb : p b ∧ b ≤ c
      · refine ⟨b, hb.1, fun e he hpe => ?_⟩
        rcases List.mem_cons.mp he with rfl | he
        · exact Std.le_refl _
        · exact Std.le_trans hb.2 (hleast e he hpe)
      · refine ⟨c, hc, fun e he hpe => ?_⟩
        rcases List.mem_cons.mp he with rfl | he
        · exact Std.le_of_not_ge fun hle => hb ⟨hpe, hle⟩
        · exact hleast e he hpe
    · obtain ⟨c, hc, hpc⟩ := h
      refine ⟨c, hpc, fun e he hpe => ?_⟩
      rcases List.mem_cons.mp hc with rfl | hc
      · rcases List.mem_cons.mp he with rfl | he
        · exact Std.le_refl _
        · exact absurd ⟨e, he, hpe⟩ hl
      · exact absurd ⟨c, hc, hpc⟩ hl

namespace Fabric

variable {n : Nat}

theorem Distance.exists_leastPeer (h : f.Distance key b (n + 1)) : ∃ a, f.LeastPeer key b n a := by
  obtain ⟨c, hlink, hc⟩ : ∃ c, f.Linked b c ∧ f.Distance key c n := by
    cases h.1 with
    | @hop _ c _ hlink hwithin =>
      obtain ⟨e, he, hle⟩ := hwithin.exists_distance
      have := h.2 (e + 1) (.hop hlink he.1)
      obtain rfl : e = n := by omega
      exact ⟨c, hlink, he⟩
  -- peers are among the interfaces, so there are finitely many
  have hmem : ∃ l : List NodeId, ∀ c, f.Linked b c → c ∈ l := by
    obtain ⟨s, -, hs, -, -, -⟩ := hlink
    refine ⟨s.interfaces.entries.map (·.1), fun c hc => ?_⟩
    obtain ⟨s', -, hs', -, hrole, -⟩ := hc
    rw [hs] at hs'
    cases hs'
    obtain ⟨i, hi, -⟩ := Option.map_eq_some_iff.mp hrole
    exact List.mem_map.mpr ⟨(c, i), Table.mem_entries_iff.mpr hi, rfl⟩
  obtain ⟨l, hl⟩ := hmem
  obtain ⟨a, ⟨hlink, ha⟩, hleast⟩ := exists_least (p := fun c => f.Linked b c ∧ f.Distance key c n) ⟨c, hl c hlink, hlink, hc⟩
  exact ⟨a, hlink, ha, fun c hc hd => hleast c (hl c hc) ⟨hc, hd⟩⟩

/-- A route that is no longer than the one through the least of the nearest peers is that one. -/
theorem LeastPeer.settled (hf : Sound f) (ha : f.LeastPeer key b n a) (hb : f.Distance key b (n + 1))
    (hr : f.route? b key = some r) (hm : r.metric ≤ n + 1) (hn : r.metric = n + 1 → r.nexthop ≤ a) :
    f.Settled key b r := by
  have hmetric : r.metric = n + 1 := by
    obtain ⟨e, he, hle⟩ := hf.distance hr
    have := he.unique hb
    omega
  refine ⟨hr, hmetric ▸ hb, fun _ => ?_⟩
  rcases hf.nearer hr with ⟨hzero, -⟩ | ⟨hlink, r', hr', hlt⟩
  · omega
  · obtain ⟨e, he, hle⟩ := hf.distance hr'
    have := hb.2 (e + 1) (.hop hlink he.1)
    obtain rfl : e = r.metric - 1 := by omega
    obtain rfl : n = r.metric - 1 := by omega
    exact ⟨hlink, he, fun c hc hd => Std.le_trans (hn hmetric) (ha.least c hc hd)⟩

/-- What the least of the nearest peers announces settles the route. -/
theorem LeastPeer.learned (hf : Steady f) (ha : f.LeastPeer key b n a) (hb : f.Distance key b (n + 1))
    (hmax : n ≤ maxMetric) (hd : Exchange f (.handle b a (.announce key a n)) g) : ∃ r, g.Settled key b r := by
  have halike := hd.alike hf.sound.named
  obtain ⟨key', m, hann, -, hroutes⟩ := hd.learned hf (linked_iff.mp ha.linked).1 rfl
  rw [Packet.announcement_announce hmax] at hann
  cases hann
  have hroute := (hroutes b key).trans (if_pos ⟨rfl, rfl⟩)
  refine ⟨_, (halike.leastPeer ha).settled (hf.exchange hd).sound (halike.distance.mpr hb) hroute ?_ ?_⟩
  · exact Route.pick_metric_le _ _
  · intro hm
    exact Route.pick_nexthop_le hm

/-- Once the solvers at some distance are settled, a round settles those one hop farther. -/
theorem Round.settled (hf : Steady f) (hr : f.Round g) (hall : ∀ a, f.Distance key a n → ∃ r, f.Settled key a r)
    (hb : f.Distance key b (n + 1)) : ∃ r, g.Settled key b r := by
  obtain ⟨es, hrun, hround⟩ := hr
  obtain ⟨a, ha⟩ := hb.exists_leastPeer
  obtain ⟨r, hs⟩ := hall a ha.distance
  obtain rfl : r.metric = n := hs.distance.unique ha.distance
  obtain ⟨before, f₁, after, rfl, hafter⟩ := hround a b ha.linked.symm
  -- the settled route is among those that `a` draws up
  obtain ⟨f₂, hbefore, hrefresh, hrest⟩ := hrun.split_cons
  have hf₁ := hbefore.steady hf
  have halike₁ := hbefore.alike hf
  have hs₁ := hbefore.settled hf hs
  obtain ⟨s, hget, -⟩ := Option.bind_eq_some_iff.mp hs₁.route
  have hmem := hs₁.mem_advertisement hf₁.sound (halike₁.linked.mpr ha.linked.symm) (halike₁.distance.mpr hb) hget
  -- and `b` handles it later on
  obtain ⟨f₃, hhandle⟩ := hafter s hget _ hmem
  obtain ⟨mid, last, rfl⟩ := List.append_of_mem hhandle
  obtain ⟨f₄, hmid, hd, hlast⟩ := hrest.split_cons
  have hf₂ := hf₁.exchange hrefresh
  have hf₃ := hmid.steady hf₂
  have halike₃ := (halike₁.trans (hrefresh.alike hf₁.sound.named)).trans (hmid.alike hf₂)
  obtain ⟨r', hr'⟩ := LeastPeer.learned hf₃ (halike₃.leastPeer ha) (halike₃.distance.mpr hb) (hf.metric_le hs.route) hd
  exact ⟨r', hlast.settled (hf₃.exchange hd) hr'⟩

namespace Rounds

theorem steady (hr : f.Rounds n g) (hf : Steady f) : Steady g := by
  induction hr with
  | zero => exact hf
  | succ _ hround ih =>
    obtain ⟨es, hrun, -⟩ := hround
    exact hrun.steady ih

theorem alike (hr : f.Rounds n g) (hf : Steady f) : f.Alike g := by
  induction hr with
  | zero => exact .refl _
  | succ hr hround ih =>
    obtain ⟨es, hrun, -⟩ := hround
    exact ih.trans (hrun.alike (hr.steady hf))

theorem settled (hr : f.Rounds n g) (hf : Steady f) {m : Nat} (ha : f.Distance key a m) (hle : m ≤ n) :
    ∃ r, g.Settled key a r := by
  induction hr generalizing a m with
  | zero =>
    obtain rfl : m = 0 := by omega
    cases ha.1 with
    | here hsource => exact Settled.of_source hf.sound hsource
  | @succ g h n hr hround ih =>
    have hg := hr.steady hf
    by_cases hm : m ≤ n
    · obtain ⟨r, hs⟩ := ih ha hm
      obtain ⟨es, hrun, -⟩ := hround
      exact ⟨r, hrun.settled hg hs⟩
    · obtain rfl : m = n + 1 := by omega
      have halike := hr.alike hf
      exact hround.settled hg (fun c hc => ih (halike.distance.mp hc) (Nat.le_refl _)) (halike.distance.mpr ha)

end Rounds

end Fabric

/-- No solver that is out of reach of all sources has a route. -/
theorem Sound.route?_eq_none (h : Sound f) (ha : ∀ n, ¬ f.Within key a n) : f.route? a key = none := by
  cases hr : f.route? a key with
  | none => rfl
  | some r =>
    obtain ⟨n, -, hwithin⟩ := h.within hr (Nat.le_refl _)
    exact absurd hwithin (ha n)

/-- After as many rounds as its distance, a solver's route is as short as any and leads through the nearest peer
    with the smallest name; solvers out of reach have none; and no later announcement changes these routes. -/
theorem rounds_converge (hf : Reach f) (hsmall : f.network.solvers.length ≤ maxMetric) {rounds : Nat}
    (hr : f.Rounds rounds g) (key : String) :
    (∀ a d, f.Distance key a d → d ≤ rounds → ∃ r, g.route? a key = some r ∧ r.metric = d ∧
      (1 ≤ d → f.LeastPeer key a (d - 1) r.nexthop)) ∧
    (∀ a, (∀ n, ¬ f.Within key a n) → g.route? a key = none) ∧
    ∀ es h, g.Run es h → ∀ a, ((∃ d, f.Distance key a d ∧ d ≤ rounds) ∨ ∀ n, ¬ f.Within key a n) →
      h.route? a key = g.route? a key := by
  have hsteady : Steady f := ⟨hf.sound hsmall, hsmall⟩
  have hg := hr.steady hsteady
  have halike := hr.alike hsteady
  refine ⟨fun a d ha hle => ?_, fun a ha => ?_, fun es h hrun a ha => ?_⟩
  · obtain ⟨r, hs⟩ := hr.settled hsteady ha hle
    obtain rfl : r.metric = d := hs.distance.unique (halike.distance.mpr ha)
    exact ⟨r, hs.route, rfl, fun hd => halike.symm.leastPeer (hs.nexthop hd)⟩
  · exact hg.sound.route?_eq_none fun n hn => ha n (halike.within.mp hn)
  · rcases ha with ⟨d, ha, hle⟩ | ha
    · obtain ⟨r, hs⟩ := hr.settled hsteady ha hle
      rw [hs.route, (hrun.settled hg hs).route]
    · have halike' := halike.trans (hrun.alike hg)
      rw [hg.sound.route?_eq_none fun n hn => ha n (halike.within.mp hn),
        (hrun.steady hg).sound.route?_eq_none fun n hn => ha n (halike'.within.mp hn)]

theorem pair_converges : Reach .pair ∧ Fabric.pair.network.solvers.length ≤ maxMetric ∧ ∃ g, Fabric.pair.Rounds 1 g ∧
    (∃ r, g.route? "b" "key" = some r ∧ r.metric = 1 ∧ Fabric.pair.LeastPeer "key" "b" 0 r.nexthop) ∧
    g.route? "c" "key" = none ∧ ∀ es h, g.Run es h → h.route? "b" "key" = g.route? "b" "key" := by
  obtain ⟨g, hround⟩ := Fabric.pair_round
  have hsmall : Fabric.pair.network.solvers.length ≤ maxMetric := by decide +kernel
  have hrounds : Fabric.pair.Rounds 1 g := .succ .zero hround
  obtain ⟨hnear, hfar, hstay⟩ := rounds_converge reach_pair hsmall hrounds "key"
  refine ⟨reach_pair, hsmall, g, hrounds, ?_, hfar "c" fun n hn => ?_, fun es h hrun => ?_⟩
  · obtain ⟨r, hr, hm, hleast⟩ := hnear "b" 1 pair_distance (Nat.le_refl _)
    exact ⟨r, hr, hm, hleast (Nat.le_refl _)⟩
  · cases hn with
    | here hsource =>
      obtain ⟨source, hsource⟩ := hsource
      have hall : ∀ x ∈ Fabric.pair.sources, x.solver ≠ "c" := by decide +kernel
      exact absurd rfl (hall _ hsource)
    | hop hlink =>
      rcases pair_linked hlink with ⟨hc, -⟩ | ⟨hc, -⟩
      · exact absurd hc (by decide)
      · exact absurd hc (by decide)
  · exact hstay es h hrun "b" (.inl ⟨1, pair_distance, Nat.le_refl _⟩)

end QueryNet
