/-
  QueryNet.Proofs.Routing.Influence — who can change a solver's routes.

  A solver learns routes only from what its peers announce (`Heard`). All else that it
  handles, whoever sends it, leaves its routes alone and leads to no announcements; an
  announcement that it does not hear does nothing at all.

  So a run can be compared with the one in which only the heard announcements come:
  the two solvers differ in nothing but what is pending, and announce the same
  (`HandlesAll.heard`). Proved: two runs with the same heard announcements end with the
  same routes and announce the same (`routes_from_peers`).
-/

import QueryNet.Network.Step
import QueryNet.Proofs.Routing.Update
import QueryNet.Proofs.Separation

namespace QueryNet

def announcements (out : List Outbound) : List Outbound := out.filter Network.isAnnouncement

/-- Without any queries, what concerns a set of them is the announcements. -/
theorem about_nothing (out : List Outbound) : about (fun _ => False) out = announcements out := by
  refine List.filter_congr fun o _ => ?_
  simp [Packet.Concerns, Network.isAnnouncement, Bool.beq_eq_decide_eq]

namespace Solver

variable {s s' t : Solver} {sender : NodeId} {p : Packet} {ps : List (NodeId × Packet)} {outs : List (List Outbound)}

/-- A packet that a solver learns from: an announcement that can be read, from an attached peer. -/
def Heard (s : Solver) (p : NodeId × Packet) : Prop := s.roleOf p.1 = some .solverPeer ∧ ∃ a, p.2.announcement = .ok a

instance (s : Solver) (p : NodeId × Packet) : Decidable (s.Heard p) :=
  match h : p.2.announcement with
  | .ok a => decidable_of_iff (s.roleOf p.1 = some .solverPeer) ⟨fun hr => ⟨hr, a, h⟩, fun hp => hp.1⟩
  | .error e => isFalse fun hp => hp.2.elim fun a ha => by rw [h] at ha; cases ha

theorem not_heard (h : ¬ s.Heard (sender, p)) :
    s.roleOf sender ≠ some .solverPeer ∨ ∃ e, p.announcement = .error e := by
  by_cases hrole : s.roleOf sender = some .solverPeer
  · right
    cases ha : p.announcement with
    | ok a => exact absurd ⟨hrole, a, ha⟩ h
    | error e => exact ⟨e, rfl⟩
  · exact .inl hrole

theorem Heard.concerns {p : NodeId × Packet} (h : s.Heard p) : p.2.Concerns fun _ => False := by
  obtain ⟨-, a, ha⟩ := h
  exact .inl (Packet.kind_of_announcement ha)

/-- No packet attaches or detaches a neighbour. -/
theorem Handles.heard_iff {u : Turn} (h : s.Handles sender p u) (q : NodeId × Packet) :
    u.solver.Heard q ↔ s.Heard q := by
  obtain ⟨pending, routes, hframe⟩ := handle_frame h
  rw [hframe]
  rfl

/-- Other announcements do nothing, and always come to an end. -/
theorem handles_unheard (hk : p.kind = .routeAnnounce) (h : ¬ s.Heard (sender, p)) :
    ∃ u, s.Handles sender p u ∧ u.solver = s ∧ u.out = [] := by
  let u := (Turn.begin s).note (.packetReceived s.id p.kind)
  have hself : (u.announced sender p).2 = u := Turn.announced_eq_self (not_heard h)
  have htake : u.take 0 sender p = some u := by rw [Turn.take, hk]; exact congrArg some hself
  exact ⟨_, ⟨0, Option.map_eq_some_iff.mpr ⟨u, htake, rfl⟩⟩, rfl, rfl⟩

/-- Without the packets that it does not learn from, a solver has the same routes and announces the same. -/
theorem HandlesAll.heard (h : s.HandlesAll ps outs t) (hR : s.Alike (fun _ => False) s') :
    ∃ outs' t', s'.HandlesAll (ps.filter fun p => s.Heard p) outs' t' ∧ t.Alike (fun _ => False) t' ∧
      announcements outs'.flatten = announcements outs.flatten := by
  induction h generalizing s' with
  | nil => exact ⟨[], s', .nil s', hR, rfl⟩
  | @cons s _ p ps u outs hu _ ih =>
    have hfilter : (ps.filter fun p => u.solver.Heard p) = ps.filter fun p => s.Heard p :=
      List.filter_congr fun q _ => decide_eq_decide.mpr (hu.heard_iff q)
    rw [hfilter] at ih
    by_cases hp : s.Heard p
    · obtain ⟨v, hv, hR', hout⟩ := hR.handles hp.concerns hu
      obtain ⟨outs', t', hrest, hend, hsent⟩ := ih hR'
      rw [about_nothing, about_nothing] at hout
      refine ⟨v.out :: outs', t', ?_, hend, ?_⟩
      · rw [List.filter_cons_of_pos (by simpa using hp)]
        exact .cons hv hrest
      · unfold announcements at hout hsent ⊢
        rw [List.flatten_cons, List.flatten_cons, List.filter_append, List.filter_append, hout, hsent]
    · obtain ⟨hframe, hout⟩ := handle_other hu (not_heard hp)
      have hR' : u.solver.Alike (fun _ => False) s' := by
        refine ⟨?_, fun a ha => ha.elim, fun a ha => ha.elim, fun a ha => ha.elim⟩
        rw [hframe, hR.frame]
        rfl
      obtain ⟨outs', t', hrest, hend, hsent⟩ := ih hR'
      have hnone : announcements u.out = [] :=
        List.filter_eq_nil_iff.mpr fun o ho hk => hout o ho (eq_of_beq hk)
      refine ⟨outs', t', ?_, hend, ?_⟩
      · rwa [List.filter_cons_of_neg (by simpa using hp)]
      · unfold announcements at hnone hsent ⊢
        rw [List.flatten_cons, List.filter_append, hnone, hsent, List.nil_append]

/-- Only what its peers announce has a part in a solver's routes and in what it announces, whatever else it is
    sent; and an announcement from anybody else, or one that cannot be read, does nothing. -/
theorem routes_from_peers (s : Solver) :
    (∀ ps qs outs outs' t t', s.HandlesAll ps outs t → s.HandlesAll qs outs' t' →
      ((ps.filter fun p => s.Heard p) = qs.filter fun p => s.Heard p) →
        t.routes = t'.routes ∧ announcements outs.flatten = announcements outs'.flatten) ∧
      ∀ sender p, p.kind = .routeAnnounce → ¬ s.Heard (sender, p) →
        ∃ u, s.Handles sender p u ∧ u.solver = s ∧ u.out = [] := by
  have halike : s.Alike (fun _ => False) s := ⟨rfl, fun a ha => ha.elim, fun a ha => ha.elim, fun a ha => ha.elim⟩
  constructor
  · intro ps qs outs outs' t t' hp hq hsame
    obtain ⟨os, u, hu, hR, hsent⟩ := hp.heard halike
    obtain ⟨os', u', hu', hR', hsent'⟩ := hq.heard halike
    rw [hsame] at hu
    obtain ⟨rfl, rfl⟩ := hu.unique hu'
    have hroutes : u.routes = t.routes := by rw [hR.frame]; rfl
    have hroutes' : u.routes = t'.routes := by rw [hR'.frame]; rfl
    exact ⟨hroutes.symm.trans hroutes', hsent.symm.trans hsent'⟩
  · intro sender p hk hp
    exact handles_unheard hk hp

def relay : Solver :=
  { Solver.create "relay" .standard with
    interfaces := Table.ofList [("east", ⟨.solverPeer, 0⟩), ("west", ⟨.solverPeer, 1⟩), ("ann", ⟨.leaf, 2⟩)] }

def good : NodeId × Packet := ("east", .announce "k/1" "east" 3)

def mixed : List (NodeId × Packet) :=
  [("ann", .request ⟨"k", ["a"]⟩), ("ann", .announce "k/1" "ann" 0), ("nobody", .announce "k/2" "nobody" 0), good,
    ("west", ⟨.routeAnnounce, ⟨"fib", ["k/1", "west", "near"]⟩, none⟩)]

/-- The leaf, a stranger and a peer with a metric that is no number make no difference. -/
theorem relay_hears_peers :
    ∃ outs outs' t t', relay.HandlesAll mixed outs t ∧ relay.HandlesAll [good] outs' t' ∧ t.pending ≠ t'.pending ∧
      announcements outs.flatten = [⟨"west", .announce "k/1" "relay" 4⟩] ∧
      t.routes = t'.routes ∧ announcements outs.flatten = announcements outs'.flatten := by
  obtain ⟨outs, t, hbusy, ht, hsent⟩ :
      ∃ outs t, relay.HandlesAll mixed outs t ∧ t.pending ≠ ∅ ∧
        announcements outs.flatten = [⟨"west", .announce "k/1" "relay" 4⟩] :=
    ⟨_, _, .cons ⟨1, rfl⟩ (.cons ⟨0, rfl⟩ (.cons ⟨0, rfl⟩ (.cons ⟨0, rfl⟩ (.cons ⟨0, rfl⟩ (.nil _))))),
      by decide +kernel, by decide +kernel⟩
  obtain ⟨outs', t', hquiet, ht'⟩ : ∃ outs t, relay.HandlesAll [good] outs t ∧ t.pending = ∅ :=
    ⟨_, _, .cons ⟨0, rfl⟩ (.nil _), by decide +kernel⟩
  refine ⟨outs, outs', t, t', hbusy, hquiet, ht' ▸ ht, hsent, ?_⟩
  exact (routes_from_peers relay).1 _ _ _ _ _ _ hbusy hquiet (by decide +kernel)

end Solver

end QueryNet
