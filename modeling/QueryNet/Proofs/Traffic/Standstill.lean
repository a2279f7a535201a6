/-
  QueryNet.Proofs.Traffic.Standstill — when two peers can wait for each other.

  A task that has packets to send takes none meanwhile, and it waits for room as long as
  it must. So once the tasks at both ends of a link wait for room in it, neither of its
  queues is drained any more: the peers stand still (`Standstill`).

  Proved:
  - it takes two to get there, and both must turn something back (`standstill_turned_back`):
    what each waits with came of the last packet that it took from the link, a request or
    a response, and goes back into the link. Of a request that is so only if rules match
    it, for a query that is passed on never goes back, and of a response only if the
    answer that it completes is for the very node that brought it. Announcements are not
    waited with and lead to nothing that is.
  - peers can get there, with links of one packet, and then neither moves (`crossing_stands`).
-/

import QueryNet.Proofs.Forwarding
import QueryNet.Proofs.Traffic.Conservation

namespace QueryNet

/-! ## What a turn sends -/

namespace Solver

variable {s : Solver} {sender : NodeId} {p : Packet} {turn : Turn} {o : Outbound}

theorem handle_announce_out (h : s.Handles sender p turn) (hp : p.kind = .routeAnnounce) (ho : o ∈ turn.out) :
    o.packet.kind = .routeAnnounce := by
  rcases h.cases with ⟨hk, -⟩ | ⟨hk, -⟩ | ⟨-, -, -, hout⟩
  · cases hp.symm.trans hk
  · cases hp.symm.trans hk
  · exact hout o ho

/-- At most one answer comes of a response. -/
theorem handle_response_out (h : s.Handles sender p turn) (hp : p.kind = .response) (ho : o ∈ turn.out) :
    turn.out = [o] ∧ o.packet.kind = .response := by
  obtain ⟨t, ht, hcase⟩ := s.handles_response sender hp
  obtain rfl := h.unique ht
  rcases hcase with ⟨-, -, hout⟩ | ⟨b, -, -, hout⟩
  · rw [hout] at ho
    cases ho
  · rw [hout, Option.mem_toList] at ho
    obtain ⟨n, q, c, rfl⟩ := PendingTable.reply_deliver p.query b p.query ho
    rw [hout, ho]
    exact ⟨rfl, rfl⟩

end Solver

namespace Network

open Event

variable {n m : Network} {log : List Act} {depth : Nat} {i j : TaskId} {t u : Task} {k : SolverId} {s : Solver}
  {es : List Event} {offered out : List Outbound} {o q : Outbound} {c : ChannelId} {p : Packet}

/-! ## What a task has to send came of what it took -/

/-- Nothing is taken in an offer. -/
theorem takes_offer (n : Network) (s : Solver) (out : List Outbound) (c : ChannelId) :
    (n.offer s out).2.filterMap (takenFrom c) = [] := by
  refine List.filterMap_eq_nil_iff.mpr fun e he => ?_
  obtain ⟨o, -, d, rfl | rfl⟩ | ⟨x, rfl⟩ := mem_offer he
  · rfl
  · rfl
  · rfl

/-- After a move a solver's task has less to send than before, or what its turn made of the packet that it took. -/
theorem Move.toSend (h : Move depth n i t offered es m) (ht : n.tasks[i]? = some t) (hk : t.worker.solver? = some k) :
    ∃ t', m.tasks = n.tasks.set i t' ∧ t'.endpoint = t.endpoint ∧
      ((t'.toSend <:+ t.toSend ∧ es.filterMap (takenFrom t.endpoint.rx) = []) ∨
        ∃ s p turn, n.solvers[k]? = some s ∧ s.Handles t.endpoint.peer p turn ∧
          es.filterMap (takenFrom t.endpoint.rx) = [p] ∧ t'.toSend = turn.out.filter (!isAnnouncement ·)) := by
  have hleaf : t.worker.solver? ≠ none := by simp [hk]
  have hsame : n.tasks = n.tasks.set i t := (set_of_getElem? ht).symm
  cases h with
  | @serve since p ch k' s turn hphase htake hk' hs hturn =>
    cases hk.symm.trans hk'
    refine ⟨_, congrArg (List.set · i _) (tasks_offer _ _ _), rfl, .inr ⟨s, p, turn, hs, ⟨depth, hturn⟩, ?_, rfl⟩⟩
    rw [List.filterMap_cons, List.filterMap_append, List.filterMap_cons, filterMap_notes fun _ => rfl, takes_offer]
    simp [takenFrom]
  | reply _ _ hworker =>
    rw [hworker] at hk
    cases hk
  | ignore _ _ hnone => exact absurd hnone hleaf
  | answered _ _ hnone => exact absurd hnone hleaf
  | idle =>
    exact ⟨_, congrArg (List.set · i _) (tasks_offer _ _ _), rfl, .inl ⟨List.nil_suffix, takes_offer _ _ _ _⟩⟩
  | close => exact ⟨_, finish_tasks _ _ _ _, rfl, .inl ⟨List.nil_suffix, rfl⟩⟩
  | late _ hworker =>
    rw [hworker] at hk
    cases hk
  | rest => exact ⟨_, rfl, rfl, .inl ⟨List.nil_suffix, rfl⟩⟩
  | renew =>
    exact ⟨_, congrArg (List.set · i _) (tasks_offer _ _ _), rfl, .inl ⟨List.nil_suffix, takes_offer _ _ _ _⟩⟩
  | @send o out c ch hphase =>
    obtain ⟨notes, hnotes⟩ := sentNote_eq n t o.packet
    refine ⟨_, rfl, rfl, .inl ⟨?_, ?_⟩⟩
    · rw [toSend_sending hphase]
      exact List.suffix_cons o out
    · rw [hnotes]
      exact filterMap_notes (fun _ => rfl) notes
  | @skip o out hphase =>
    refine ⟨_, rfl, rfl, .inl ⟨?_, rfl⟩⟩
    rw [toSend_sending hphase]
    exact List.suffix_cons o out
  | enlist => exact ⟨t, hsame, rfl, .inl ⟨List.suffix_refl _, rfl⟩⟩
  | withdraw _ _ _ hworker =>
    rw [hworker] at hk
    cases hk
  | @lose o out c k' hphase =>
    refine ⟨_, rfl, rfl, .inl ⟨?_, rfl⟩⟩
    rw [toSend_sending hphase]
    exact List.suffix_cons o out
  | hangUp _ _ _ hnone => exact absurd hnone hleaf

/-- What a task has to send is left over of the turn on the last packet that it took, at an earlier state of its solver. -/
structure LeftOver (log : List Act) (i : TaskId) (t : Task) (k : SolverId) (s : Solver) (p : Packet) (turn : Turn) :
    Prop where
  solver : ∃ n₀ log₀, Recorded n₀ log₀ ∧ log₀ <+: log ∧ n₀.solvers[k]? = some s
  taken : ∃ before, (eventsBy i log).filterMap (takenFrom t.endpoint.rx) = before ++ [p]
  handled : s.Handles t.endpoint.peer p turn
  rest : t.toSend <:+ turn.out.filter (!isAnnouncement ·)

def Busy (n : Network) (log : List Act) : Prop :=
  ∀ i t k, n.tasks[i]? = some t → t.worker.solver? = some k → t.toSend ≠ [] → ∃ s p turn, LeftOver log i t k s p turn

theorem LeftOver.grow {turn : Turn} (h : LeftOver log i t k s p turn) {log' : List Act} {t' : Task}
    (hendpoint : t'.endpoint = t.endpoint) (hsuffix : t'.toSend <:+ t.toSend)
    (htaken : (eventsBy i log').filterMap (takenFrom t.endpoint.rx) = []) : LeftOver (log ++ log') i t' k s p turn := by
  obtain ⟨n₀, log₀, hrec, hlog, hs⟩ := h.solver
  obtain ⟨before, hbefore⟩ := h.taken
  refine ⟨⟨n₀, log₀, hrec, hlog.trans (List.prefix_append ..), hs⟩, ⟨before, ?_⟩, hendpoint ▸ h.handled,
    hsuffix.trans h.rest⟩
  rw [hendpoint, eventsBy_append, List.filterMap_append, hbefore, htaken, List.append_nil]

theorem Busy.aside (h : Busy n log) {log' : List Act} (haside : Aside n m log') : Busy m (log ++ log') := by
  intro i t k ht hk hsend
  obtain ⟨-, ⟨new, htasks, hnew⟩, hacts⟩ := haside
  have hold : n.tasks[i]? = some t := by
    rw [htasks] at ht
    rcases Nat.lt_or_ge i n.tasks.length with hlt | hge
    · rwa [List.getElem?_append_left hlt] at ht
    · rw [List.getElem?_append_right hge] at ht
      exact absurd (hnew t (List.mem_of_getElem? ht) hk).1 hsend
  obtain ⟨s, p, turn, hleft⟩ := h i t k hold hk hsend
  have hevents : eventsBy i log' = [] := eventsBy_eq_nil fun act hact => by simp [hacts act hact]
  exact ⟨s, p, turn, hleft.grow rfl (List.suffix_refl _) (by rw [hevents]; rfl)⟩

theorem Busy.move (h : Busy n log) (hrec : Recorded n log) (ht : n.tasks[i]? = some t)
    (hmove : Move depth n i t offered es m) : Busy m (log ++ [.bySolver (n.solverOf t) (some i) offered es m]) := by
  intro j u k hu hk hsend
  obtain ⟨t', htasks, hhandover⟩ := hmove.handover ht
  rcases getElem?_set_cases ht (htasks ▸ hu) with ⟨rfl, rfl⟩ | ⟨hj, hold⟩
  · rw [hhandover.worker] at hk
    obtain ⟨v, hset, hendpoint, hcase⟩ := hmove.toSend ht hk
    obtain rfl : u = v := by
      rcases getElem?_set_cases ht (hset ▸ hu) with ⟨-, he⟩ | ⟨hne, -⟩
      · exact he
      · exact absurd rfl hne
    rcases hcase with ⟨hsuffix, htaken⟩ | ⟨s, p, turn, hs, hhandles, htaken, hout⟩
    · -- it took nothing, so it is still at what it was at before
      have hbefore : t.toSend ≠ [] := fun hnil => hsend (List.suffix_nil.mp (hnil ▸ hsuffix))
      obtain ⟨s, p, turn, hleft⟩ := h j t k ht hk hbefore
      exact ⟨s, p, turn, hleft.grow hendpoint hsuffix (by rwa [eventsBy_self])⟩
    · refine ⟨s, p, turn, ⟨n, log, hrec, List.prefix_append .., hs⟩, ?_, hendpoint ▸ hhandles,
        hout ▸ List.suffix_refl _⟩
      rw [hendpoint, eventsBy_append, eventsBy_self, List.filterMap_append, htaken]
      exact ⟨_, rfl⟩
  · obtain ⟨s, p, turn, hleft⟩ := h j u k hold hk hsend
    exact ⟨s, p, turn, hleft.grow rfl (List.suffix_refl _) (by rw [eventsBy_other hj]; rfl)⟩

theorem Recorded.busy (h : Recorded n log) : Busy n log := by
  refine h.byMoves (fun i t k ht => ?_) (fun _ ih haside => ih.aside haside) fun hrec ih ht hmove =>
    ih.move hrec ht hmove
  cases ht

/-! ## Peers that wait for each other -/

structure Waits (n : Network) (i : TaskId) (t : Task) (o : Outbound) : Prop where
  task : n.tasks[i]? = some t
  peer : ∃ k last, t.worker = .peer k last
  first : ∃ rest, t.phase = .sending (o :: rest)
  recipient : o.recipient = t.endpoint.peer
  link : n.channelTo t o.recipient = some t.endpoint.tx
  held : (n.channel t.endpoint.tx).receiverHeld = true
  waiting : i ∈ (n.channel t.endpoint.tx).waiting
  unpromised : i ∉ (n.channel t.endpoint.tx).promised

/-- The tasks at the two ends of a link wait for each other. -/
structure Standstill (n : Network) (i : TaskId) (t : Task) (o : Outbound) (j : TaskId) (u : Task) (q : Outbound) :
    Prop where
  near : n.Waits i t o
  far : n.Waits j u q
  forth : t.endpoint.tx = u.endpoint.rx
  back : u.endpoint.tx = t.endpoint.rx

/-- Such a task cannot move. -/
theorem Waits.stuck (h : n.Waits i t o) (depth : Nat) : n.step depth i = none := by
  obtain ⟨k, last, hworker⟩ := h.peer
  obtain ⟨rest, hphase⟩ := h.first
  have hblocked : (n.channel t.endpoint.tx).attempt i o.packet = .blocked := by
    simp [Channel.attempt, h.held, h.waiting, h.unpromised]
  simp only [step, h.task, hphase, push, h.link, hblocked, giveUp, hworker]
  rfl

/-- A task waits with a packet that goes back into the link from which it took the packet that it came of. -/
structure TurnsBack (log : List Act) (i : TaskId) (t : Task) (o : Outbound) (s : Solver) (p : Packet) (turn : Turn) :
    Prop where
  /-- The solver was in this state. -/
  solver : ∃ k n₀ log₀, t.worker.solver? = some k ∧ Recorded n₀ log₀ ∧ log₀ <+: log ∧ n₀.solvers[k]? = some s
  /-- The packet is the last one that the task took from its link. -/
  taken : ∃ before, (eventsBy i log).filterMap (takenFrom t.endpoint.rx) = before ++ [p]
  handled : s.Handles t.endpoint.peer p turn
  sent : o ∈ turn.out ∧ o.recipient = t.endpoint.peer
  data : o.packet.kind ≠ .routeAnnounce ∧ p.kind ≠ .routeAnnounce
  matched : p.kind = .request → s.matching p.query ≠ []
  answered : p.kind = .response → turn.out = [o] ∧ o.packet.kind = .response

theorem Waits.turns_back (h : Recorded n log) (hw : n.Waits i t o) : ∃ s p turn, TurnsBack log i t o s p turn := by
  obtain ⟨k, last, hworker⟩ := hw.peer
  obtain ⟨rest, hphase⟩ := hw.first
  have hk : t.worker.solver? = some k := by rw [hworker]; rfl
  have hsend : t.toSend = o :: rest := toSend_sending hphase
  obtain ⟨s, p, turn, hleft⟩ := h.busy i t k hw.task hk (by simp [hsend])
  obtain ⟨n₀, log₀, hrec, hlog, hs⟩ := hleft.solver
  have hmem : o ∈ turn.out.filter (!isAnnouncement ·) := hleft.rest.subset (by simp [hsend])
  obtain ⟨ho, hnot⟩ := List.mem_filter.mp hmem
  have hdata : o.packet.kind ≠ .routeAnnounce := by
    intro hkind
    rw [isAnnouncement_iff.mpr hkind] at hnot
    cases hnot
  refine ⟨s, p, turn, ⟨k, n₀, log₀, hk, hrec, hlog, hs⟩, hleft.taken, hleft.handled, ⟨ho, hw.recipient⟩,
    ⟨hdata, fun hp => ?_⟩, fun hp hs => ?_, fun hp => ?_⟩
  · exact hdata (Solver.handle_announce_out hleft.handled hp ho)
  · exact Solver.handles_unmatched hleft.handled hp hs o ho hw.recipient
  · exact Solver.handle_response_out hleft.handled hp ho

/-- Two peers stand still only if both turn something back. -/
theorem standstill_turned_back (h : Recorded n log) (hstill : n.Standstill i t o j u q) :
    (∃ s p turn, TurnsBack log i t o s p turn) ∧ ∃ s p turn, TurnsBack log j u q s p turn :=
  ⟨hstill.near.turns_back h, hstill.far.turns_back h⟩

/-! ## Two peers that do -/

def crossingRules : Network :=
  (((pairOfOne.addRule "a" "top <- u(1), u(2), u(3).").network.addRule "a" "v(1) <- w(1), w(2).").network.addRule "b"
    "u(1) <- v(1), v(2), v(3).").network

def crossingRoutes : Network :=
  (((crossingRules.addRoute "a" "u/1" "b" 1).network.addRoute "a" "w/1" "b" 1).network.addRoute "b" "v/1" "a" 1).network

def crossing : Network := (((crossingRoutes.attachRequest "a" "r").network.start "a").network.start "b").network

def crossingAsked : Network := (crossing.send ⟨"a", 3, 2⟩ (.request ⟨"top", []⟩)).2.1

def crossingRun : Option (Network × List Event) := runTo 3 (fun _ => false) 0 40 [] crossingAsked []

theorem crossingRun_isSome : crossingRun.isSome = true := by decide +kernel

def crossed : Network := (crossingRun.get crossingRun_isSome).1

theorem crossed_recorded : ∃ log, Recorded crossed log := by
  obtain ⟨l₁, h₁⟩ := pairOfOne_recorded
  have h₂ : Recorded crossingRules _ := h₁.addRule.addRule.addRule
  have h₃ : Recorded crossingRoutes _ := h₂.addRoute.addRoute.addRoute
  obtain ⟨l₄, -, h₄⟩ := h₃.attachRequest "a" "r"
  have h₅ : Recorded crossing _ := h₄.start.start
  have h₆ : Recorded crossingAsked _ := h₅.send (e := ⟨"a", 3, 2⟩) (p := .request ⟨"top", []⟩) rfl
  obtain ⟨l₇, -, h₇⟩ := h₆.runTo (Option.some_get crossingRun_isSome).symm
  exact ⟨_, h₇⟩

def crossedNear : Task :=
  ⟨.peer 0 0, ⟨"b", 0, 1⟩, .sending [⟨"b", .request ⟨"w", ["1"]⟩⟩, ⟨"b", .request ⟨"w", ["2"]⟩⟩]⟩

def crossedFar : Task := ⟨.peer 1 0, ⟨"a", 1, 0⟩, .sending [⟨"a", .request ⟨"v", ["3"]⟩⟩]⟩

/-- The first waits with a question that came of the other's, and the other with one that came of the first one's. -/
theorem crossed_standstill :
    crossed.Standstill 0 crossedNear ⟨"b", .request ⟨"w", ["1"]⟩⟩ 2 crossedFar ⟨"a", .request ⟨"v", ["3"]⟩⟩ := by
  have hends : ∀ x ∈ [(0, crossedNear), (2, crossedFar)], crossed.tasks[x.1]? = some x.2 ∧
      crossed.channelTo x.2 x.2.endpoint.peer = some x.2.endpoint.tx ∧
      (crossed.channel x.2.endpoint.tx).receiverHeld = true ∧ x.1 ∈ (crossed.channel x.2.endpoint.tx).waiting ∧
      x.1 ∉ (crossed.channel x.2.endpoint.tx).promised := by
    decide +kernel
  obtain ⟨⟨hn, hlink, hheld, hwaiting, hunpromised⟩, hfar⟩ := List.forall_mem_cons.mp hends
  obtain ⟨hf, hlink', hheld', hwaiting', hunpromised'⟩ := hfar _ (List.mem_singleton_self _)
  exact ⟨⟨hn, ⟨0, 0, rfl⟩, ⟨_, rfl⟩, rfl, hlink, hheld, hwaiting, hunpromised⟩,
    ⟨hf, ⟨1, 0, rfl⟩, ⟨_, rfl⟩, rfl, hlink', hheld', hwaiting', hunpromised'⟩, rfl, rfl⟩

/-- Each is at what it was asked by the other. -/
theorem crossing_turned_back : ∃ log i t o j u q, Recorded crossed log ∧ crossed.Standstill i t o j u q ∧
    (∃ s p turn, TurnsBack log i t o s p turn) ∧ ∃ s p turn, TurnsBack log j u q s p turn := by
  obtain ⟨log, h⟩ := crossed_recorded
  exact ⟨log, _, _, _, _, _, _, h, crossed_standstill, standstill_turned_back h crossed_standstill⟩

/-- So peers that run can come to stand still, and then neither can move. -/
theorem crossing_stands : ∃ log, Recorded crossed log ∧ (∀ s ∈ crossed.solvers, s.running = true) ∧
    ∃ i t o j u q, crossed.Standstill i t o j u q ∧
      ∀ depth, crossed.step depth i = none ∧ crossed.step depth j = none := by
  obtain ⟨log, h⟩ := crossed_recorded
  refine ⟨log, h, by decide +kernel, _, _, _, _, _, _, crossed_standstill, fun depth => ?_⟩
  exact ⟨crossed_standstill.near.stuck depth, crossed_standstill.far.stuck depth⟩

end Network

end QueryNet
