/-
  QueryNet.Proofs.Routing.Fabric — solvers that exchange announcements.

  A fabric is a network together with everything that was sent in it. What was sent
  stays: it may arrive later, again and again, in any order, or never. A solver may
  refresh a peer at any time, and handle a packet at any time; an announcement that
  comes from a peer is one that the peer sent to it (`Exchange`). Solvers with new
  names, links and sources are added as long as the calls for it accept them, and no
  route is set by hand (`Step`).
-/

import Mathlib.Data.List.Chain
import Mathlib.Data.List.Nodup
import Mathlib.Data.Nat.Find
import QueryNet.Proofs.Routing.Update

namespace QueryNet

structure Parcel where
  sender : NodeId
  out : Outbound
  deriving DecidableEq, Repr

structure Attachment where
  solver : NodeId
  source : NodeId
  key : String
  deriving DecidableEq, Repr

structure Fabric where
  network : Network
  sent : List Parcel
  sources : List Attachment
  deriving DecidableEq, Repr

inductive Deed where
  | refresh (a b : NodeId)
  | handle (b a : NodeId) (p : Packet)
  /-- Something that concerns no solver: queues, tasks and the clock. -/
  | other
  deriving DecidableEq, Repr

inductive Exchange : Fabric → Deed → Fabric → Prop
  /-- A solver announces its routes to a peer. -/
  | refresh {f : Fabric} {a b : NodeId} {k : SolverId} {s : Solver} : f.network.lookup a = some (k, s) →
      s.roleOf b = some .solverPeer →
      Exchange f (.refresh a b) { f with sent := f.sent ++ (s.advertisement b).map (Parcel.mk a) }
  /-- A solver handles a packet. -/
  | handle {f : Fabric} {b a : NodeId} {k : SolverId} {s : Solver} {p : Packet} {t : Turn} :
      f.network.lookup b = some (k, s) → s.Handles a p t →
      (s.roleOf a = some .solverPeer → p.kind = .routeAnnounce → ⟨a, b, p⟩ ∈ f.sent) →
      Exchange f (.handle b a p)
        { f with network := f.network.setSolver k t.solver, sent := f.sent ++ t.out.map (Parcel.mk b) }
  | other {f : Fabric} {n : Network} : f.network.Same n → Exchange f .other { f with network := n }

namespace Fabric

def empty : Fabric := ⟨.empty, [], []⟩

def withNetwork (f : Fabric) (n : Network) : Fabric := { f with network := n }

def withSource (f : Fabric) (n : Network) (a source : NodeId) (key : String) : Fabric where
  network := n
  sent := f.sent ++ (((n.solver? a).map (·.peersExcept [])).getD []).map fun b => ⟨a, b, .announce key a 0⟩
  sources := f.sources ++ [⟨a, source, key⟩]

end Fabric

inductive Step : Fabric → Fabric → Prop
  | addSolver {f : Fabric} {a : NodeId} {config : SolverConfig} : f.network.lookup a = none →
      Step f (f.withNetwork (f.network.addSolver a config))
  | connect {f : Fabric} {a b : NodeId} : Step f (f.withNetwork (f.network.connect a b).network)
  | attachSource {f : Fabric} {a source : NodeId} {key : String} {far : Endpoint} :
      (f.network.attachSource a source key).result = .ok far →
      Step f (f.withSource (f.network.attachSource a source key).network a source key)
  | refuseSource {f : Fabric} {a source : NodeId} {key : String} {err : SetupError} :
      (f.network.attachSource a source key).result = .error err →
      Step f (f.withNetwork (f.network.attachSource a source key).network)
  | attachRequest {f : Fabric} {a requester : NodeId} :
      Step f (f.withNetwork (f.network.attachRequest a requester).network)
  | addRule {f : Fabric} {a : NodeId} {text : String} : Step f (f.withNetwork (f.network.addRule a text).network)
  | start {f : Fabric} {a : NodeId} : Step f (f.withNetwork (f.network.start a).network)
  | exchange {f g : Fabric} {d : Deed} : Exchange f d g → Step f g

inductive Reach : Fabric → Prop
  | init : Reach .empty
  | step {f g : Fabric} : Reach f → Step f g → Reach g

variable {f g : Fabric}

theorem Exchange.named {d : Deed} (hd : Exchange f d g) (h : f.network.Named) : g.network.Named := by
  cases hd with
  | refresh => exact h
  | other hsame => exact hsame.named h
  | handle hs ht =>
    obtain ⟨pending, routes, he⟩ := Solver.handle_frame ht
    exact h.setSolver hs (by rw [he])

theorem Step.named (hs : Step f g) (h : f.network.Named) : g.network.Named := by
  cases hs with
  | addSolver ha => exact h.addSolver ha _
  | connect => exact (Network.alters_connect _ _ _).named h
  | attachSource hok =>
    obtain ⟨n, k, s, halters, hs, -, hsame⟩ := Network.attachSource_ok hok
    exact hsame.named ((halters.named h).setSolver hs rfl)
  | refuseSource herr => exact (Network.attachSource_error herr).named h
  | attachRequest => exact (Network.alters_attachRequest _ _ _).named h
  | addRule => exact (Network.alters_addRule _ _ _).named h
  | start => exact (Network.alters_start _ _).named h
  | exchange hd => exact hd.named h

theorem Network.named_empty : Network.empty.Named := by
  refine ⟨?_, ?_⟩
  · intro a k hk
    cases hk
  · intro k s hs
    cases hs

theorem Reach.named (h : Reach f) : f.network.Named := by
  induction h with
  | init => exact Network.named_empty
  | step _ hs ih => exact hs.named ih

/-! ## Distances -/

namespace Fabric

def route? (f : Fabric) (a : NodeId) (key : String) : Option Route := (f.network.solver? a).bind (·.routes.get? key)

def role? (f : Fabric) (a b : NodeId) : Option Role := (f.network.solver? a).bind (·.roleOf b)

def Linked (f : Fabric) (a b : NodeId) : Prop :=
  ∃ s t, f.network.solver? a = some s ∧ f.network.solver? b = some t ∧ s.roleOf b = some .solverPeer ∧
    t.roleOf a = some .solverPeer

def HasSource (f : Fabric) (key : String) (a : NodeId) : Prop := ∃ source, ⟨a, source, key⟩ ∈ f.sources

/-- A solver with a source of the key can be reached in so many hops. -/
inductive Within (f : Fabric) (key : String) : NodeId → Nat → Prop
  | here {a : NodeId} : f.HasSource key a → Within f key a 0
  | hop {a b : NodeId} {n : Nat} : f.Linked a b → Within f key b n → Within f key a (n + 1)

/-- The number of hops to the nearest solver with a source of the key. -/
def Distance (f : Fabric) (key : String) (a : NodeId) (d : Nat) : Prop :=
  f.Within key a d ∧ ∀ n, f.Within key a n → d ≤ n

/-- The solvers on the way from `a` along next hops, up to `n` of them further. -/
def trail (f : Fabric) (key : String) : Nat → NodeId → List NodeId
  | 0, a => [a]
  | n + 1, a =>
    match f.route? a key with
    | some r => if r.metric = 0 then [a] else a :: trail f key n r.nexthop
    | none => [a]

/-- Next hops that lead from `a` to a solver with a source in at most `m` hops, to each solver once. -/
structure Arrives (f : Fabric) (key : String) (a : NodeId) (m : Nat) (l : List NodeId) : Prop where
  start : l.head? = some a
  hops : l.IsChain fun b c => f.Linked b c ∧ ∃ r, f.route? b key = some r ∧ r.nexthop = c
  nodup : l.Nodup
  length_le : l.length ≤ m + 1
  source : ∃ b, l.getLast? = some b ∧ f.HasSource key b

variable {a b : NodeId} {key : String}

theorem linked_iff : f.Linked a b ↔ f.role? a b = some .solverPeer ∧ f.role? b a = some .solverPeer := by
  simp only [role?, Option.bind_eq_some_iff]
  constructor
  · rintro ⟨s, t, hs, ht, hab, hba⟩; exact ⟨⟨s, hs, hab⟩, t, ht, hba⟩
  · rintro ⟨⟨s, hs, hab⟩, t, ht, hba⟩; exact ⟨s, t, hs, ht, hab, hba⟩

theorem Linked.symm (h : f.Linked a b) : f.Linked b a := linked_iff.mpr (linked_iff.mp h).symm

theorem Within.exists_distance {n : Nat} (h : f.Within key a n) : ∃ d, f.Distance key a d ∧ d ≤ n := by
  classical
  have hex : ∃ d, f.Within key a d := ⟨n, h⟩
  exact ⟨Nat.find hex, ⟨Nat.find_spec hex, fun m hm => Nat.find_min' hex hm⟩, Nat.find_min' hex h⟩

theorem Distance.unique {d e : Nat} (hd : f.Distance key a d) (he : f.Distance key a e) : d = e :=
  Nat.le_antisymm (hd.2 e he.1) (he.2 d hd.1)

end Fabric

/-! ## Two solvers -/

def Fabric.pair : Fabric :=
  let n := (((Network.empty.addSolver "a" .standard).addSolver "b" .standard).connect "a" "b").network
  (empty.withNetwork n).withSource (n.attachSource "a" "store" "key").network "a" "store" "key"

theorem reach_pair : Reach .pair := by
  have ha := Reach.init.step (@Step.addSolver _ "a" .standard (by decide +kernel))
  have hb := ha.step (@Step.addSolver _ "b" .standard (by decide +kernel))
  have hlink := hb.step (@Step.connect _ "a" "b")
  exact hlink.step (@Step.attachSource _ "a" "store" "key" ⟨"a", 3, 2⟩ rfl)

theorem pair_linked {a b : NodeId} (h : Fabric.pair.Linked a b) : a = "a" ∧ b = "b" ∨ a = "b" ∧ b = "a" := by
  have hall : ∀ e ∈ Fabric.pair.network.names.entries, ∀ s ∈ Fabric.pair.network.solvers[e.2]?.toList,
      ∀ i ∈ s.interfaces.entries, i.2.role = .solverPeer → e.1 = "a" ∧ i.1 = "b" ∨ e.1 = "b" ∧ i.1 = "a" := by
    decide +kernel
  obtain ⟨s, -, hs, -, hrole, -⟩ := h
  obtain ⟨k, hk⟩ := Network.solver?_eq_some.mp hs
  obtain ⟨hname, hget⟩ := Network.lookup_eq_some.mp hk
  obtain ⟨i, hi, hpeer⟩ := Option.map_eq_some_iff.mp hrole
  exact hall (a, k) (Table.mem_entries_iff.mpr hname) s (Option.mem_toList.mpr hget) (b, i) (Table.mem_entries_iff.mpr hi) hpeer

theorem pair_distance : Fabric.pair.Distance "key" "b" 1 := by
  have hlink : Fabric.pair.Linked "b" "a" := Fabric.linked_iff.mpr ⟨by decide +kernel, by decide +kernel⟩
  refine ⟨.hop hlink (.here ⟨"store", by decide +kernel⟩), fun n hn => ?_⟩
  cases hn with
  | here hsource =>
    obtain ⟨source, hsource⟩ := hsource
    have hall : ∀ x ∈ Fabric.pair.sources, x.solver ≠ "b" := by decide +kernel
    exact absurd rfl (hall _ hsource)
  | hop => omega

/-- The second solver learns the route of the first. -/
theorem pair_learns {sent : List Parcel} (hsent : ⟨"a", "b", .announce "key" "a" 0⟩ ∈ sent) :
    ∃ g s, Exchange ⟨Fabric.pair.network, sent, Fabric.pair.sources⟩ (.handle "b" "a" (.announce "key" "a" 0)) g ∧
      g.network.solvers.length = 2 ∧ g.network.solver? "b" = some s ∧ s.routes.get? "key" = some ⟨"a", 1⟩ := by
  have hb : ∃ e ∈ (Fabric.pair.network.lookup "b").toList, e.2.roleOf "a" = some .solverPeer ∧
      e.2.routes.get? "key" = none ∧ (e.2.handle 0 "a" (.announce "key" "a" 0)).isSome := by decide +kernel
  obtain ⟨⟨k, s⟩, hs, hrole, hnone, hsome⟩ := hb
  have hs := Option.mem_toList.mp hs
  obtain ⟨t, ht⟩ := Option.isSome_iff_exists.mp hsome
  have ht : s.Handles "a" (.announce "key" "a" 0) t := ⟨0, ht⟩
  have hann := Packet.announcement_announce (Nat.zero_le maxMetric) "key" "a"
  refine ⟨_, t.solver, .handle hs ht fun _ _ => hsent, ?_, ?_, ?_⟩
  · show (Fabric.pair.network.solvers.set k t.solver).length = 2
    rw [List.length_set]
    rfl
  · exact Network.solver?_eq_some.mpr ⟨k, Network.lookup_setSolver hs t.solver⟩
  · have hnone : s.routes.get? "key" = none := hnone
    rw [(Solver.learns ht hrole (by decide) hann).routes, hnone]
    rfl

end QueryNet
