/-
  QueryNet.Proofs.Traffic.Ledger — what became of each packet that a solver's task had to send.

  The interfaces of a running solver stay, so a packet that a turn makes is for the same
  channel until it is sent. A task that has packets to send takes none and handles none,
  so what its turns ever made for a channel is what it has queued there and, after that,
  what it still holds, in order; only packets for closed links are lost.

  Proved: each move keeps these accounts of the task that moves (`Move.handover`), and
  everything else leaves them alone; so they hold in every network that comes about
  (`Recorded.ledger`).
-/

import QueryNet.Proofs.Traffic.Keeps

namespace QueryNet

namespace Event

/-- What a turn gave a task to send, without the announcements, which are offered at once. -/
def product : Event → List Outbound
  | .produced _ out => out.filter (!Network.isAnnouncement ·)
  | _ => []

def dataIn (c : ChannelId) : Event → Option Packet
  | .queued d p => if d = c ∧ p.kind ≠ .routeAnnounce then some p else none
  | _ => none

end Event

namespace Network

open Event

structure Serves (n : Network) (t : Task) (k : SolverId) : Prop where
  solver : ∃ s, n.solvers[k]? = some s ∧ s.running = true
  data : ∀ o ∈ t.toSend, o.packet.kind ≠ .routeAnnounce

variable {n m l : Network} {log : List Act} {depth : Nat} {i : TaskId} {t : Task} {k : SolverId} {s s' : Solver}
  {es fs : List Event} {offered out : List Outbound} {c : ChannelId}

/-! ## The accounts of a task -/

def NoData (es : List Event) : Prop := es.flatMap product = [] ∧ ∀ c, es.filterMap (dataIn c) = []

theorem NoData.append (hes : NoData es) (hfs : NoData fs) : NoData (es ++ fs) := by
  refine ⟨?_, fun c => ?_⟩
  · rw [List.flatMap_append, hes.1, hfs.1]
    rfl
  · rw [List.filterMap_append, hes.2 c, hfs.2 c]
    rfl

theorem noData_nil : NoData [] := ⟨rfl, fun _ => rfl⟩

theorem noData_of_forall (h : ∀ e ∈ es, product e = [] ∧ ∀ c, dataIn c e = none) : NoData es :=
  ⟨List.flatMap_eq_nil_iff.mpr fun e he => (h e he).1, fun c => List.filterMap_eq_nil_iff.mpr fun e he => (h e he).2 c⟩

theorem noData_notes (notes : List Metric) : NoData (notes.map .note) :=
  noData_of_forall (List.forall_mem_map.mpr fun _ _ => ⟨rfl, fun _ => rfl⟩)

theorem noData_offer (n : Network) (s : Solver) (hout : ∀ o ∈ out, o.packet.kind = .routeAnnounce) :
    NoData (n.offer s out).2 := by
  refine noData_of_forall fun e he => ?_
  obtain ⟨o, ho, c, rfl | rfl⟩ | ⟨x, rfl⟩ := mem_offer he
  · exact ⟨rfl, fun d => if_neg fun hd => hd.2 (hout o ho)⟩
  · exact ⟨rfl, fun _ => rfl⟩
  · exact ⟨rfl, fun _ => rfl⟩

theorem isAnnouncement_iff {o : Outbound} : isAnnouncement o = true ↔ o.packet.kind = .routeAnnounce := by
  rw [isAnnouncement, beq_iff_eq]

theorem announcements_filter (out : List Outbound) : ∀ o ∈ out.filter isAnnouncement, o.packet.kind = .routeAnnounce :=
  fun _ ho => isAnnouncement_iff.mp (List.mem_filter.mp ho).2

theorem announcements_advertisement (s : Solver) (b : NodeId) :
    ∀ o ∈ s.advertisement b, o.packet.kind = .routeAnnounce := by
  intro o ho
  obtain ⟨e, -, rfl⟩ := List.mem_map.mp ho
  rfl

/-- What a task had to send and what it was given to send are what it queued and what it has left, in order. -/
structure Handover (n : Network) (t : Task) (es : List Event) (m : Network) (t' : Task) : Prop where
  worker : t'.worker.solver? = t.worker.solver?
  data : ∀ {k}, t.worker.solver? = some k → (∀ o ∈ t.toSend, o.packet.kind ≠ .routeAnnounce) →
    ∀ o ∈ t'.toSend, o.packet.kind ≠ .routeAnnounce
  sends : ∀ {k s c}, t.worker.solver? = some k → n.solvers[k]? = some s → n.Linked →
    (∀ o ∈ t.toSend, o.packet.kind ≠ .routeAnnounce) → m.Open c →
    packetsFor c (s.addressed t.toSend) ++ packetsFor c (s.addressed (es.flatMap product)) =
      es.filterMap (dataIn c) ++ packetsFor c (s.addressed t'.toSend)

variable {t' : Task}

/-- Sources and requesters have other accounts. -/
theorem handover_leaf (ht : t.worker.solver? = none) (ht' : t'.worker.solver? = none) : Handover n t es m t' := by
  refine ⟨ht'.trans ht.symm, fun {k} hk => ?_, fun {k _ _} hk => ?_⟩
  · rw [ht] at hk
    cases hk
  · rw [ht] at hk
    cases hk

theorem handover_idle (hworker : t'.worker.solver? = t.worker.solver?) (ht : t.toSend = []) (ht' : t'.toSend = [])
    (hes : NoData es) : Handover n t es m t' := by
  refine ⟨hworker, fun _ _ o ho => ?_, fun _ _ _ _ _ => ?_⟩
  · rw [ht'] at ho
    cases ho
  · rw [ht, ht', hes.1, hes.2]
    rfl

theorem channelTo_eq (hk : t.worker.solver? = some k) (hs : n.solvers[k]? = some s) (b : NodeId) :
    n.channelTo t b = (s.interfaces.get? b).map (·.tx) := by
  unfold channelTo solverOf
  rw [hk]
  split
  · rename_i hworker
    rw [hworker] at hk
    cases hk
  · rename_i hworker
    rw [hworker] at hk
    cases hk
  · rw [Option.bind_some, hs]
    rfl

/-- A source or a requester has one link to send into. -/
theorem channelTo_leaf (hleaf : t.worker.solver? = none) (b : NodeId) : n.channelTo t b = some t.endpoint.tx := by
  unfold channelTo
  cases hworker : t.worker with
  | peer k last =>
    rw [hworker] at hleaf
    cases hleaf
  | leaf k =>
    rw [hworker] at hleaf
    cases hleaf
  | source source => rfl
  | request r d => rfl

theorem toSend_listening {since : Nat} (h : t.phase = .listening since) : t.toSend = [] := by
  rw [Task.toSend, h]

theorem toSend_sending {rest : List Outbound} (h : t.phase = .sending rest) : t.toSend = rest := by
  rw [Task.toSend, h]

theorem noData_taken (c : ChannelId) (p : Packet) : NoData [.taken c p] := ⟨rfl, fun _ => rfl⟩

/-- A turn makes what it sends, and queues nothing of it yet. -/
theorem product_serve (c : ChannelId) (p : Packet) (notes : List Metric) (k : SolverId) (out : List Outbound)
    (hes : NoData es) :
    (Event.taken c p :: (notes.map .note ++ .produced k out :: es)).flatMap product = out.filter (!isAnnouncement ·) ∧
      ∀ d, (Event.taken c p :: (notes.map .note ++ .produced k out :: es)).filterMap (dataIn d) = [] := by
  have hbefore := (noData_taken c p).append (noData_notes notes)
  have hsplit : Event.taken c p :: (notes.map .note ++ .produced k out :: es) =
      ([.taken c p] ++ notes.map .note) ++ (.produced k out :: es) := by simp
  rw [hsplit]
  generalize [Event.taken c p] ++ notes.map Event.note = before at hbefore ⊢
  refine ⟨?_, fun d => ?_⟩
  · rw [List.flatMap_append, List.flatMap_cons, hbefore.1, hes.1, List.append_nil]
    rfl
  · rw [List.filterMap_append, List.filterMap_cons, hbefore.2 d, hes.2 d]
    rfl

/-- The packet that a solver's task is at. -/
theorem addressed_cons {o : Outbound} (hk : t.worker.solver? = some k) (hs : n.solvers[k]? = some s) :
    s.addressed (o :: out) = ((n.channelTo t o.recipient).map (·, o.packet)).toList ++ s.addressed out := by
  rw [channelTo_eq hk hs, Solver.addressed, List.filterMap_cons]
  cases s.interfaces.get? o.recipient with
  | none => rfl
  | some i => rfl

theorem channelTo_lt {b : NodeId} (hk : t.worker.solver? = some k) (hs : n.solvers[k]? = some s) (hn : n.Linked)
    (hc : n.channelTo t b = some c) : c < n.channels.length := by
  rw [channelTo_eq hk hs] at hc
  obtain ⟨i, hi, rfl⟩ := Option.map_eq_some_iff.mp hc
  exact hn hs hi

/-- Only the task that moves changes, and its accounts hold on. -/
theorem Move.handover (h : Move depth n i t offered es m) (ht : n.tasks[i]? = some t) :
    ∃ t', m.tasks = n.tasks.set i t' ∧ Handover n t es m t' := by
  have hsame : n.tasks = n.tasks.set i t := (set_of_getElem? ht).symm
  cases h with
  | @serve since p ch k s turn hphase htake hk hs hturn =>
    refine ⟨_, congrArg (List.set · i _) (tasks_offer _ _ _), ?_⟩
    have hoffer := noData_offer (n.handled t ch k turn) turn.solver (announcements_filter turn.out)
    obtain ⟨hproduct, hdata⟩ := product_serve t.endpoint.rx p turn.notes k turn.out hoffer
    refine ⟨rfl, fun _ _ o ho hkind => ?_, fun {_ _ c} _ _ _ _ _ => ?_⟩
    · have hnot := (List.mem_filter.mp ho).2
      rw [isAnnouncement_iff.mpr hkind] at hnot
      cases hnot
    · rw [hproduct, hdata c, toSend_listening hphase]
      rfl
  | reply _ _ hworker =>
    have hleaf : t.worker.solver? = none := by rw [hworker]; rfl
    exact ⟨_, rfl, handover_leaf hleaf hleaf⟩
  | ignore _ _ hleaf => exact ⟨t, hsame, handover_leaf hleaf hleaf⟩
  | answered _ _ hleaf => exact ⟨_, finish_tasks _ _ _ _, handover_leaf hleaf hleaf⟩
  | idle hphase _ hworker =>
    refine ⟨_, congrArg (List.set · i _) (tasks_offer _ _ _), ?_⟩
    exact handover_idle (by rw [hworker]; rfl) (toSend_listening hphase) rfl
      (noData_offer _ _ (announcements_advertisement _ _))
  | close hphase =>
    exact ⟨_, finish_tasks _ _ _ _, handover_idle rfl (toSend_listening hphase) rfl noData_nil⟩
  | late _ hworker =>
    have hleaf : t.worker.solver? = none := by rw [hworker]; rfl
    exact ⟨_, finish_tasks _ _ _ _, handover_leaf hleaf hleaf⟩
  | rest hphase => exact ⟨_, rfl, handover_idle rfl (toSend_sending hphase) rfl noData_nil⟩
  | renew hphase hworker =>
    refine ⟨_, congrArg (List.set · i _) (tasks_offer _ _ _), ?_⟩
    exact handover_idle (by rw [hworker]; rfl) (toSend_sending hphase) rfl
      (noData_offer _ _ (announcements_advertisement _ _))
  | @send o out c ch hphase hc hqueued =>
    refine ⟨_, rfl, rfl, fun _ hdata => ?_, fun {k s d} hk hs _ hdata _ => ?_⟩
    · rw [toSend_sending hphase] at hdata
      exact (List.forall_mem_cons.mp hdata).2
    · rw [toSend_sending hphase] at hdata ⊢
      have hkind := (List.forall_mem_cons.mp hdata).1
      obtain ⟨notes, hsent⟩ := sentNote_eq n t o.packet
      obtain ⟨hproduct, hnotes⟩ := noData_notes notes
      rw [hsent, addressed_cons hk hs, hc, List.flatMap_cons, List.filterMap_cons, hproduct, hnotes d, packetsFor_append]
      by_cases hd : c = d
      · simp [packetsFor, product, dataIn, hd, hkind, Solver.addressed, Task.toSend]
      · simp [packetsFor, product, dataIn, hd, Solver.addressed, Task.toSend]
  | @skip o out hphase hnone =>
    refine ⟨_, rfl, rfl, fun _ hdata => ?_, fun {k s d} hk hs _ _ _ => ?_⟩
    · rw [toSend_sending hphase] at hdata
      exact (List.forall_mem_cons.mp hdata).2
    · rw [toSend_sending hphase, addressed_cons hk hs, hnone]
      simp [packetsFor, Solver.addressed, Task.toSend]
  | enlist => exact ⟨t, hsame, rfl, fun _ h => h, fun _ _ _ _ _ => by simp [packetsFor, Solver.addressed]⟩
  | withdraw _ _ _ hworker =>
    have hleaf : t.worker.solver? = none := by rw [hworker]; rfl
    exact ⟨_, finish_tasks _ _ _ _, handover_leaf hleaf hleaf⟩
  | @lose o out c k hphase hc hclosed hk =>
    refine ⟨_, rfl, rfl, fun _ hdata => ?_, fun {k s d} hk hs hn _ hopen => ?_⟩
    · rw [toSend_sending hphase] at hdata
      exact (List.forall_mem_cons.mp hdata).2
    · -- the packet is lost, but its channel is closed
      have hd : c ≠ d := by
        rintro rfl
        have hheld : (n.channel c).receiverHeld = true := hopen (channelTo_lt hk hs hn hc)
        rw [Channel.attempt_closed hclosed] at hheld
        cases hheld
      rw [toSend_sending hphase, addressed_cons hk hs, hc]
      simp [packetsFor, hd, Solver.addressed, Task.toSend]
  | hangUp _ _ _ hleaf => exact ⟨_, finish_tasks _ _ _ _, handover_leaf hleaf hleaf⟩

/-! ## The accounts of all tasks -/

structure Ledger (n : Network) (log : List Act) : Prop where
  linked : n.Linked
  serves : ∀ {i : TaskId} {t : Task} {k : SolverId}, n.tasks[i]? = some t → t.worker.solver? = some k → n.Serves t k
  unborn : ∀ {i : TaskId}, n.tasks.length ≤ i → eventsBy i log = []
  sends : ∀ {i : TaskId} {t : Task} {k : SolverId} {s : Solver} {c : ChannelId}, n.tasks[i]? = some t →
    t.worker.solver? = some k → n.solvers[k]? = some s → n.Open c →
    packetsFor c (s.addressed ((eventsBy i log).flatMap product)) =
      (eventsBy i log).filterMap (dataIn c) ++ packetsFor c (s.addressed t.toSend)

theorem Keeps.serves (h : Keeps n m) (hserves : n.Serves t k) : m.Serves t k := by
  obtain ⟨s, hs, hrun⟩ := hserves.solver
  obtain ⟨s', hs', hrun', -, -⟩ := h.solver hs hrun
  exact ⟨⟨s', hs', hrun'⟩, hserves.data⟩

/-- A solver that a task works for sends where it did. -/
theorem Keeps.addressed (h : Keeps n m) (hserves : n.Serves t k) (hs' : m.solvers[k]? = some s') :
    ∃ s, n.solvers[k]? = some s ∧ s'.addressed = s.addressed := by
  obtain ⟨s, hs, hrun⟩ := hserves.solver
  obtain ⟨u, hu, -, -, hi⟩ := h.solver hs hrun
  rw [hs'] at hu
  cases hu
  refine ⟨s, hs, ?_⟩
  funext out
  rw [Solver.addressed, hi]
  rfl

/-- What is not a move of a task leaves its accounts alone, and those of new tasks are empty. -/
theorem Ledger.aside (h : Ledger n log) {log' : List Act} (haside : Aside n m log') : Ledger m (log ++ log') := by
  obtain ⟨hkeeps, ⟨new, htasks, hnew⟩, hlog⟩ := haside
  have hevents : ∀ i, eventsBy i (log ++ log') = eventsBy i log := by
    intro i
    have hnil : eventsBy i log' = [] := eventsBy_eq_nil fun act hact => by simp [hlog act hact]
    rw [eventsBy_append, hnil, List.append_nil]
  have hlength : n.tasks.length ≤ m.tasks.length := by
    rw [htasks, List.length_append]
    exact Nat.le_add_right _ _
  refine ⟨hkeeps.linked h.linked, fun {i t k} ht hk => ?_, fun {i} hi => ?_, fun {i t k s' c} ht hk hs' hc => ?_⟩
  · rcases Nat.lt_or_ge i n.tasks.length with hlt | hge
    · rw [htasks, List.getElem?_append_left hlt] at ht
      exact hkeeps.serves (h.serves ht hk)
    · rw [htasks, List.getElem?_append_right hge] at ht
      obtain ⟨hempty, hs⟩ := hnew t (List.mem_of_getElem? ht) hk
      exact ⟨hs, by simp [hempty]⟩
  · rw [hevents]
    exact h.unborn (Nat.le_trans hlength hi)
  · rw [hevents]
    rcases Nat.lt_or_ge i n.tasks.length with hlt | hge
    · rw [htasks, List.getElem?_append_left hlt] at ht
      obtain ⟨s, hs, haddressed⟩ := hkeeps.addressed (h.serves ht hk) hs'
      rw [haddressed]
      exact h.sends ht hk hs (hkeeps.closed hc)
    · rw [htasks, List.getElem?_append_right hge] at ht
      obtain ⟨hempty, -⟩ := hnew t (List.mem_of_getElem? ht) hk
      rw [h.unborn hge, hempty]
      rfl

/-- A move adds to the accounts of its task alone. -/
theorem Ledger.move (h : Ledger n log) (ht : n.tasks[i]? = some t) (hmove : Move depth n i t offered es m)
    (solver : Option Solver) : Ledger m (log ++ [.bySolver solver (some i) offered es m]) := by
  obtain ⟨t', htasks, hhandover⟩ := hmove.handover ht
  have hkeeps := hmove.keeps
  refine ⟨hkeeps.linked h.linked, fun {j u k} hu hk => ?_, fun {j} hj => ?_, fun {j u k s' c} hu hk hs' hc => ?_⟩
  · rcases getElem?_set_cases ht (htasks ▸ hu) with ⟨rfl, rfl⟩ | ⟨-, hu⟩
    · rw [hhandover.worker] at hk
      have hserves := h.serves ht hk
      exact ⟨(hkeeps.serves hserves).solver, hhandover.data hk hserves.data⟩
    · exact hkeeps.serves (h.serves hu hk)
  · rw [htasks, List.length_set] at hj
    have hne : j ≠ i := by
      rintro rfl
      exact absurd (List.getElem?_eq_some_iff.mp ht).1 (Nat.not_lt.mpr hj)
    rw [eventsBy_append, eventsBy_other hne, List.append_nil]
    exact h.unborn hj
  · rcases getElem?_set_cases ht (htasks ▸ hu) with ⟨rfl, rfl⟩ | ⟨hj, hu⟩
    · rw [hhandover.worker] at hk
      have hserves := h.serves ht hk
      -- the solver runs, so its packets were addressed before the move as they are now
      obtain ⟨s, hs, haddressed⟩ := hkeeps.addressed hserves hs'
      have hbefore := h.sends ht hk hs (hkeeps.closed hc)
      have hafter := hhandover.sends hk hs h.linked hserves.data hc
      rw [eventsBy_append, eventsBy_self, haddressed, List.flatMap_append, List.filterMap_append, addressed_append,
        packetsFor_append, hbefore, List.append_assoc, hafter, List.append_assoc]
    · obtain ⟨s, hs, haddressed⟩ := hkeeps.addressed (h.serves hu hk) hs'
      rw [eventsBy_append, eventsBy_other hj, List.append_nil, haddressed]
      exact h.sends hu hk hs (hkeeps.closed hc)

theorem Recorded.ledger (h : Recorded n log) : Ledger n log := by
  refine h.byMoves ?_ (fun _ ih haside => ih.aside haside) fun _ ih ht hmove => ih.move ht hmove _
  refine ⟨fun hk => ?_, fun ht => ?_, fun _ => rfl, fun ht => ?_⟩
  · cases hk
  · cases ht
  · cases ht

end Network

end QueryNet
