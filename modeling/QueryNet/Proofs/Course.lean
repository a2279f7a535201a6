/-
  QueryNet.Proofs.Course — what a turn does, entry by entry.

  Solving a query records an entry for each query that it meets: one without subgoals
  where no rule matches, and one for each rule that does. A rule without subgoals
  answers its query at once (`Step`). Below a query come subgoals of rules that match
  (`Below`). The query itself has one round for each rule that matches it, or a single
  one if none does (`Rounds`). In a turn on a request, every step is for the request's
  query or for a subgoal of another one (`Due`), and the turn is a course of such
  steps (`Course`).

  Proved: whatever its depth, solving goes this way (`solve_rounds`). So a turn on a
  packet is rounds for the packet's query, one delivery, or an announcement taken up
  (`Handles.cases`), and what each step of it keeps holds throughout a solver's
  `History`: the packets that it handled and the rules that it was given meanwhile.
-/

import Mathlib.Logic.Relation
import QueryNet.Proofs.Guard

namespace QueryNet

namespace PendingRequest

def unmatched (query : Atom) (parent : Option Atom) (origin : Option NodeId) : PendingRequest :=
  ⟨query, parent, [], ∅, none, none, origin⟩

def matched (m : Rule × Bindings) (query : Atom) (parent : Option Atom) (origin : Option NodeId) : PendingRequest :=
  ⟨query, parent, m.1.subgoals.eraseDups, ∅, m.1.composition, some m.2, origin⟩

end PendingRequest

theorem Solver.matching_congr {s s' : Solver} (h : s'.rules = s.rules) (q : Atom) : s'.matching q = s.matching q := by
  rw [matching, h, matching]

theorem Solver.AskedBy.congr {s s' : Solver} (h : s'.rules = s.rules) {a b : Atom} (hb : s.AskedBy b a) :
    s'.AskedBy b a := by
  rw [AskedBy, matching_congr h]
  exact hb

namespace Turn

/-! ## Steps -/

/-- One entry is recorded for `query`; if a rule without subgoals matched, its answer is delivered. -/
inductive Step (origin : Option NodeId) (parent : Option Atom) (query : Atom) (t : Turn) : Turn → Prop
  | forward : t.solver.matching query = [] → Step origin parent query t (t.forward origin parent query).2
  | expand {m : Rule × Bindings} : m ∈ t.solver.matching query → m.1.subgoals ≠ [] →
      Step origin parent query t (t.record (.matched m query parent origin))
  | answer {m : Rule × Bindings} : m ∈ t.solver.matching query → m.1.subgoals = [] →
      Step origin parent query t ((t.record (.matched m query parent origin)).deliver query ∅ query).2

def SubStep (t u : Turn) : Prop := ∃ g p, t.solver.AskedBy g p ∧ p ≠ g ∧ Step none (some p) g t u

def Below : Turn → Turn → Prop := Relation.ReflTransGen SubStep

inductive Rounds (origin : Option NodeId) (parent : Option Atom) (query : Atom) : Nat → Turn → Turn → Prop
  | zero (t : Turn) : Rounds origin parent query 0 t t
  | round {n : Nat} {t u v w : Turn} : Rounds origin parent query n t u → Step origin parent query u v → Below v w →
      Rounds origin parent query (n + 1) t w

variable {origin : Option NodeId} {parent : Option Atom} {query : Atom} {t u : Turn}

/-! ## Rules stay -/

theorem forward_eq (t : Turn) (origin : Option NodeId) (parent : Option Atom) (query : Atom) :
    (t.forward origin parent query).2.solver = (t.record (.unmatched query parent origin)).solver ∧
      ∃ out, (t.forward origin parent query).2.out = t.out ++ out ∧ ∀ o ∈ out, o.packet = .request query := by
  unfold forward
  split
  · split
    · exact ⟨rfl, _, rfl, fun o ho => by rw [List.mem_singleton.mp ho]⟩
    · exact ⟨rfl, [], (List.append_nil _).symm, fun o ho => absurd ho List.not_mem_nil⟩
  · exact ⟨rfl, [], (List.append_nil _).symm, fun o ho => absurd ho List.not_mem_nil⟩

theorem Step.rules (h : Step origin parent query t u) : u.solver.rules = t.solver.rules := by
  cases h with
  | forward _ => rw [(forward_eq t origin parent query).1]; rfl
  | expand _ _ => rfl
  | answer _ _ => rfl

theorem Below.rules (h : Below t u) : u.solver.rules = t.solver.rules := by
  induction h with
  | refl => rfl
  | tail _ hs ih =>
    obtain ⟨g, p, -, -, hs⟩ := hs
    rw [hs.rules, ih]

theorem Rounds.rules {n : Nat} (h : Rounds origin parent query n t u) : u.solver.rules = t.solver.rules := by
  induction h with
  | zero => rfl
  | round _ hs hb ih => rw [hb.rules, hs.rules, ih]

/-! ## Solving -/

/-- What is done for a subgoal is done below. -/
theorem Rounds.toBelow {n : Nat} {g p : Atom} (h : Rounds none (some p) g n t u) (ha : t.solver.AskedBy g p) (hne : p ≠ g) :
    Below t u := by
  induction h with
  | zero => exact .refl
  | round hr hs hb ih => exact ((ih ha).tail ⟨g, p, ha.congr hr.rules, hne, hs⟩).trans hb

/-- The guard sees at least the query above. -/
theorem isAncestor_self (p : PendingTable) (query : Atom) : p.isAncestor query (some query) = true := by
  rw [PendingTable.isAncestor, PendingTable.onChain, beq_self_eq_true, Bool.true_or]

/-- The subgoals of one rule are solved below its query. -/
theorem expand_rounds {sub : Atom → Turn → Option Turn} {m : Rule × Bindings} {n : Nat} {v : Turn}
    (hsub : ∀ g v w, u.solver.AskedBy g query → v.solver.rules = u.solver.rules → sub g v = some w → Below v w)
    (hm : m ∈ u.solver.matching query) (hr : Rounds origin parent query n t u)
    (h : u.expand sub origin parent query m = some v) : Rounds origin parent query (n + 1) t v := by
  unfold expand at h
  split at h
  · rename_i hnil
    cases h
    exact .round hr (.answer hm hnil) .refl
  · rename_i hne
    refine .round hr (.expand hm hne) ?_
    refine foldlM_keeps (I := fun w => Below (u.record (.matched m query parent origin)) w) (fun g hg b c hc hb => ?_) h .refl
    exact hb.trans (hsub g b c ⟨m, hm, hg⟩ hb.rules hc)

/-- One more rule, one more round. -/
theorem foldlM_rounds {sub : Atom → Turn → Option Turn} {w : Turn}
    (hsub : ∀ g v w, t.solver.AskedBy g query → v.solver.rules = t.solver.rules → sub g v = some w → Below v w)
    {l : List (Rule × Bindings)} (hl : l ⊆ t.solver.matching query) :
    ∀ {n : Nat} {u : Turn}, Rounds origin parent query n t u → l.foldlM (expand sub origin parent query) u = some w →
      Rounds origin parent query (n + l.length) t w := by
  induction l with
  | nil =>
    intro n u hu h
    cases h
    exact hu
  | cons m l ih =>
    intro n u hu h
    rw [List.foldlM_cons] at h
    obtain ⟨v, hv, h⟩ := Option.bind_eq_some_iff.mp h
    have hm : m ∈ u.solver.matching query := by
      rw [Solver.matching_congr hu.rules]
      exact hl (List.mem_cons_self ..)
    have hround : Rounds origin parent query (n + 1) t v :=
      expand_rounds (fun g x y ha hx hy => hsub g x y (ha.congr hu.rules.symm) (hx.trans hu.rules) hy) hm hu hv
    have := ih (fun x hx => hl (List.mem_cons_of_mem _ hx)) hround h
    rwa [List.length_cons, Nat.add_comm l.length, ← Nat.add_assoc]

/-- Solving a query takes as many rounds as rules match it, or one if none does; none if it is left alone. -/
theorem solve_rounds (depth : Nat) : ∀ {origin : Option NodeId} {parent : Option Atom} {query : Atom} {t u : Turn}
    {f : Forwarding}, solve depth origin parent query t = some (f, u) →
      ∃ n ≤ max 1 (t.solver.matching query).length,
        Rounds origin parent query n t u ∧ (n = 0 ∨ parent ≠ some query) := by
  induction depth with
  | zero => intro _ _ _ _ _ _ h; cases h
  | succ depth ih =>
    intro origin parent query t u f h
    rw [solve] at h
    split at h
    · cases h
      exact ⟨0, Nat.zero_le _, .zero _, .inl rfl⟩
    · rename_i hguard
      have hparent : parent ≠ some query := fun he => hguard (he ▸ isAncestor_self _ _)
      split at h
      · rename_i hm
        have hu : (t.forward origin parent query).2 = u := congrArg Prod.snd (Option.some.inj h)
        exact ⟨1, Nat.le_max_left .., hu ▸ .round (.zero t) (.forward hm) .refl, .inr hparent⟩
      · obtain ⟨w, hw, he⟩ := Option.map_eq_some_iff.mp h
        cases he
        refine ⟨_, Nat.le_max_right .., ?_, .inr hparent⟩
        have := foldlM_rounds (fun g x y ha hx hy => ?_) (List.Subset.refl _) (.zero t) hw
        · rwa [Nat.zero_add] at this
        · -- a subgoal is solved below its query, unless the guard leaves it alone
          obtain ⟨r, hr, rfl⟩ := Option.map_eq_some_iff.mp hy
          obtain ⟨k, -, hk, hzero | hne⟩ := ih hr
          · subst hzero
            cases hk
            exact .refl
          · exact hk.toBelow (ha.congr hx) fun he => hne (congrArg some he)

/-! ## Requests -/

/-- What a step may be for in a turn on `sender`'s request for `top`: the request, or a subgoal of another query. -/
def Due (sender : NodeId) (top : Atom) (t : Turn) (origin : Option NodeId) (parent : Option Atom) (query : Atom) : Prop :=
  (origin = some sender ∧ parent = none ∧ query = top) ∨
    (origin = none ∧ ∃ p, parent = some p ∧ p ≠ query ∧ t.solver.AskedBy query p)

def Course (sender : NodeId) (top : Atom) : Turn → Turn → Prop :=
  Relation.ReflTransGen fun t u => ∃ origin parent query, Due sender top t origin parent query ∧ Step origin parent query t u

theorem Below.course {sender : NodeId} {top : Atom} (h : Below t u) : Course sender top t u := by
  induction h with
  | refl => exact .refl
  | tail _ hs ih =>
    obtain ⟨g, p, ha, hne, hs⟩ := hs
    exact ih.tail ⟨none, some p, g, .inr ⟨rfl, p, rfl, hne, ha⟩, hs⟩

theorem Rounds.course {sender : NodeId} {top : Atom} {n : Nat} (h : Rounds (some sender) none top n t u) :
    Course sender top t u := by
  induction h with
  | zero => exact .refl
  | round _ hs hb ih => exact (ih.tail ⟨some sender, none, top, .inl ⟨rfl, rfl, rfl⟩, hs⟩).trans hb.course

/-! ## Announcements -/

/-- An announcement changes routes and leads to announcements only. -/
theorem announced_frame (t : Turn) (sender : NodeId) (p : Packet) :
    (t.announced sender p).2.solver.rules = t.solver.rules ∧ (t.announced sender p).2.solver.pending = t.solver.pending ∧
      ∃ news, (t.announced sender p).2.out = t.out ++ news ∧ ∀ o ∈ news, o.packet.kind = .routeAnnounce := by
  have hnone : ∃ news, t.out = t.out ++ news ∧ ∀ o ∈ news, o.packet.kind = .routeAnnounce :=
    ⟨[], (List.append_nil _).symm, fun o ho => absurd ho List.not_mem_nil⟩
  unfold announced
  split
  · exact ⟨rfl, rfl, hnone⟩
  · cases p.announcement with
    | error _ => exact ⟨rfl, rfl, hnone⟩
    | ok a =>
      dsimp only
      cases hu : (t.solver.routes.apply a).1 with
      | installed r =>
        refine ⟨rfl, rfl, _, rfl, fun o ho => ?_⟩
        obtain ⟨n, -, rfl⟩ := List.mem_map.mp ho
        rfl
      | replaced _ _ => exact ⟨rfl, rfl, hnone⟩
      | unchanged => exact ⟨rfl, rfl, hnone⟩

end Turn

namespace Solver

/-! ## Packets -/

/-- How a turn on a packet goes. -/
theorem Handles.cases {s : Solver} {sender : NodeId} {p : Packet} {t : Turn} (h : s.Handles sender p t) :
    (p.kind = .request ∧ ∃ n ≤ max 1 (s.matching p.query).length, ∃ u,
        Turn.Rounds (some sender) none p.query n ((Turn.begin s).note (.packetReceived s.id p.kind)) u ∧
          t.solver = u.solver ∧ t.out = u.out) ∨
      (p.kind = .response ∧ ∃ b, p.result = some b ∧
        t.solver = s.withPending (s.pending.deliver p.query b p.query).pending ∧
          t.out = (s.pending.deliver p.query b p.query).reply.toList) ∨
      (p.kind ≠ .request ∧ t.solver.rules = s.rules ∧ t.solver.pending = s.pending ∧
        ∀ o ∈ t.out, o.packet.kind = .routeAnnounce) := by
  obtain ⟨depth, h⟩ := h
  obtain ⟨u, hu, rfl⟩ := Option.map_eq_some_iff.mp h
  cases hkind : p.kind with
  | request =>
    simp only [Turn.take, hkind] at hu
    obtain ⟨⟨f, v⟩, hv, rfl⟩ := Option.map_eq_some_iff.mp hu
    obtain ⟨n, hn, hr, -⟩ := Turn.solve_rounds depth hv
    exact .inl ⟨rfl, n, hn, v, hr, rfl, rfl⟩
  | response =>
    simp only [Turn.take, hkind, Option.some.injEq] at hu
    subst hu
    rcases Turn.respond_cases ((Turn.begin s).note (.packetReceived s.id .response)) p with
      ⟨-, hsame⟩ | ⟨b, hb, hsolver, hout⟩
    · rw [hsame]
      exact .inr (.inr ⟨by decide, rfl, rfl, fun o ho => absurd ho List.not_mem_nil⟩)
    · exact .inr (.inl ⟨rfl, b, hb, hsolver, hout⟩)
  | routeAnnounce =>
    simp only [Turn.take, hkind, Option.some.injEq] at hu
    subst hu
    obtain ⟨hrules, hpending, news, hout, hnews⟩ :=
      Turn.announced_frame ((Turn.begin s).note (.packetReceived s.id .routeAnnounce)) sender p
    refine .inr (.inr ⟨by decide, hrules, hpending, fun o ho => hnews o ?_⟩)
    have ho : o ∈ (Turn.announced ((Turn.begin s).note (.packetReceived s.id .routeAnnounce)) sender p).2.out := ho
    rw [hout] at ho
    exact ho

theorem Handles.course {s : Solver} {sender : NodeId} {p : Packet} {t : Turn} (h : s.Handles sender p t)
    (hk : p.kind = .request) :
    ∃ u, Turn.Course sender p.query ((Turn.begin s).note (.packetReceived s.id p.kind)) u ∧
      t.solver = u.solver ∧ t.out = u.out := by
  rcases h.cases with ⟨-, n, -, u, hr, ht, hout⟩ | ⟨hk', -⟩ | ⟨hk', -⟩
  · exact ⟨u, hr.course, ht, hout⟩
  · rw [hk] at hk'; cases hk'
  · exact absurd hk hk'

/-- A packet leaves the rules as they are. -/
theorem Handles.rules {s : Solver} {sender : NodeId} {p : Packet} {t : Turn} (h : s.Handles sender p t) :
    t.solver.rules = s.rules := by
  rcases h.cases with ⟨-, n, -, u, hr, ht, -⟩ | ⟨-, b, -, ht, -⟩ | ⟨-, ht, -, -⟩
  · rw [ht, hr.rules]
    rfl
  · rw [ht]
    rfl
  · exact ht

end Solver

/-! ## Histories -/

structure Handled where
  before : Solver
  sender : NodeId
  packet : Packet
  turn : Turn

namespace Solver

/-- A solver without pending queries went through this: it handled packets, was given rules, and was
    changed in ways that leave rules and pending queries alone. -/
inductive History : List Handled → Solver → Prop
  | fresh {s : Solver} : s.pending = ∅ → History [] s
  | packet {log : List Handled} {s : Solver} {sender : NodeId} {p : Packet} {t : Turn} : History log s →
      s.Handles sender p t → History (log ++ [⟨s, sender, p, t⟩]) t.solver
  | rule {log : List Handled} {s s' : Solver} {text : String} {r : Rule} : History log s →
      s.addRule text = .ok (r, s') → History log s'
  | other {log : List Handled} {s s' : Solver} : History log s → s'.rules = s.rules → s'.pending = s.pending →
      History log s'

theorem addRule_eq {s s' : Solver} {text : String} {r : Rule} (h : s.addRule text = .ok (r, s')) :
    s' = { s with rules := s.rules ++ [r] } := by
  unfold addRule at h
  split at h
  · cases h; rfl
  · cases h

end Solver

end QueryNet
