/-
  QueryNet.Proofs.Traffic.Conservation — no packet is lost or doubled while links are open.

  The record of a network tells for each channel what was queued and what was taken, for
  each task what its turns made and what it queued, and for each act which announcements
  were offered and what became of them.

  Proved (`packets_conserved`): in every network, after whatever was done,
  - what was queued in an open channel is what was taken from it and what is in it, in
    order, and no more is in it than the capacity that was asked for, which is never less
    than one;
  - the requests and responses that a solver's task was to send into an open channel are
    those that it queued there and those that it holds, in order;
  - the announcements that a solver offered to open channels were queued or refused, each
    once and in order, and refused only for want of room, promised slots not being room;
  - the counters of a solver show how many packets it queued and handled of each kind,
    and while all channels are open its offers are the announcements that it sent and
    those that it left out.
-/

import QueryNet.Proofs.Traffic.Tallies

namespace QueryNet

def doneBy (a : NodeId) (log : List Act) : List Event := eventsOf (log.filter (·.solver = some a))

def offersBy (a : NodeId) (log : List Act) : List (ChannelId × Packet) :=
  (log.filter (·.solver = some a)).flatMap (·.offers)

def metricsOf (log : List Act) : Metrics := .ofNotes (notesOf (eventsOf log))

structure Act.Decided (act : Act) : Prop where
  outcomes : act.events.filterMap Event.outcome = act.offers.filter fun x => (act.after.channel x.1).receiverHeld
  refused : ∀ {c p}, .refused c p ∈ act.events → (act.after.channel c).hasRoom = false
  made : ∀ x ∈ act.offers, x.1 < act.after.channels.length

namespace Network

open Event

variable {n m : Network} {log : List Act} {act : Act} {depth : Nat} {i : TaskId} {t : Task} {k : SolverId} {s : Solver}
  {es : List Event} {offered out : List Outbound} {c : ChannelId} {p : Packet} {a : NodeId}

/-! ## What becomes of offers -/

/-- An act in which nothing is offered. -/
theorem decided_idle (hoffers : act.offers = []) (hevents : act.events.filterMap outcome = [])
    (hrefused : ∀ {c p}, .refused c p ∉ act.events) : act.Decided := by
  refine ⟨?_, fun h => absurd h hrefused, fun x hx => ?_⟩
  · rw [hevents, hoffers]
    rfl
  · rw [hoffers] at hx
    cases hx

/-- A solver's offers, after events that are none of them. -/
theorem decided_offer {s' : Solver} (task : Option TaskId) (before : List Event)
    (hsolver : s.interfaces = s'.interfaces) (hout : ∀ o ∈ out, o.packet.kind = .routeAnnounce)
    (hlinked : ∀ {b : NodeId} {i : Interface}, s.interfaces.get? b = some i → i.tx < n.channels.length)
    (hbefore : before.filterMap outcome = []) (hrefused : ∀ {c p}, .refused c p ∉ before)
    (hm : m.channels = (n.offer s' out).1.channels) :
    (Act.bySolver (some s) task out (before ++ (n.offer s' out).2) m).Decided := by
  have haddressed : s.addressed out = s'.addressed out := by rw [Solver.addressed, hsolver, Solver.addressed]
  have hchannel : ∀ c, m.channel c = (n.offer s' out).1.channel c := fun c => by rw [channel, hm, channel]
  refine ⟨?_, fun {c p} h => ?_, fun x hx => ?_⟩
  · show (before ++ (n.offer s' out).2).filterMap outcome =
      (s.addressed out).filter fun x => (m.channel x.1).receiverHeld
    rw [List.filterMap_append, hbefore, List.nil_append, outcomes_offer n s' hout, haddressed]
    simp only [hchannel, receiverHeld_offer]
  · rcases List.mem_append.mp h with h | h
    · exact absurd h hrefused
    · exact (congrArg Channel.hasRoom (hchannel c)).trans (hasRoom_of_refused h)
  · obtain ⟨o, -, ho⟩ := List.mem_filterMap.mp hx
    obtain ⟨i, hi, rfl⟩ := Option.map_eq_some_iff.mp ho
    have hlength : m.channels.length = n.channels.length :=
      (congrArg List.length hm).trans (flows_offer n s' out).length
    exact Nat.lt_of_lt_of_eq (hlinked hi) hlength.symm

theorem outcomes_turn (c : ChannelId) (p : Packet) (notes : List Metric) (k : SolverId) (out : List Outbound) :
    (Event.taken c p :: (notes.map .note ++ [.produced k out])).filterMap outcome = [] := by
  show (notes.map Event.note ++ [Event.produced k out]).filterMap outcome = []
  rw [List.filterMap_append, filterMap_notes fun _ => rfl]
  rfl

/-- In each move of a solver's task the announcements that are offered are queued or refused. -/
theorem Move.decided (h : Move depth n i t offered es m) (hk : t.worker.solver? = some k) (hs : n.solvers[k]? = some s)
    (hlinked : n.Linked) (hdata : ∀ o ∈ t.toSend, o.packet.kind ≠ .routeAnnounce) :
    (Act.bySolver (some s) (some i) offered es m).Decided := by
  have hidle : ∀ {m : Network}, (Act.bySolver (some s) (some i) [] [] m).Decided :=
    decided_idle rfl rfl List.not_mem_nil
  have hleaf : t.worker.solver? ≠ none := by simp [hk]
  cases h with
  | @serve since p ch k' s' turn hphase htake hk' hs' hturn =>
    cases hk.symm.trans hk'
    cases hs.symm.trans hs'
    obtain ⟨pending, routes, he⟩ := Solver.handle_frame ⟨depth, hturn⟩
    have hinterfaces : s.interfaces = turn.solver.interfaces := by rw [he]
    have hlength : (n.handled t ch k turn).channels.length = n.channels.length := List.length_set
    -- the offer comes last, and what the turn itself tells of is no outcome
    have hall := decided_offer (n := n.handled t ch k turn) (some i)
      (.taken t.endpoint.rx p :: (turn.notes.map .note ++ [.produced k turn.out])) hinterfaces
      (announcements_filter turn.out) (fun hb => hlength ▸ hlinked hs hb) (outcomes_turn _ _ _ _ _) (by simp)
      (show (Network.setTask _ i { t with phase := .sending (turn.out.filter (!isAnnouncement ·)) }).channels = _ from rfl)
    rw [List.cons_append, List.append_assoc] at hall
    exact hall
  | reply _ _ hworker =>
    rw [hworker] at hk
    cases hk
  | ignore _ _ hnone => exact absurd hnone hleaf
  | answered _ _ hnone => exact absurd hnone hleaf
  | @idle since last k' s' _ _ hworker hs' _ =>
    rw [hworker] at hk
    cases hk
    cases hs.symm.trans hs'
    exact decided_offer (some i) [] rfl (announcements_advertisement s _) (hlinked hs) rfl List.not_mem_nil rfl
  | close => exact hidle
  | late => exact hidle
  | rest => exact hidle
  | @renew last k' s' _ hworker hs' _ =>
    rw [hworker] at hk
    cases hk
    cases hs.symm.trans hs'
    exact decided_offer (some i) [] rfl (announcements_advertisement s _) (hlinked hs) rfl List.not_mem_nil rfl
  | @send o out c ch hphase hc hqueued =>
    obtain ⟨notes, hnotes⟩ := sentNote_eq n t o.packet
    have hkind : o.packet.kind ≠ .routeAnnounce := hdata o (by rw [toSend_sending hphase]; exact List.mem_cons_self ..)
    rw [hnotes]
    refine decided_idle rfl ?_ (by simp [Act.bySolver])
    show (queued c o.packet :: notes.map note).filterMap outcome = []
    rw [List.filterMap_cons, outcome, if_neg hkind, filterMap_notes fun _ => rfl]
  | skip => exact hidle
  | enlist => exact hidle
  | withdraw => exact hidle
  | lose => exact hidle
  | hangUp => exact hidle

/-! ## The whole record -/

/-- The offers in the acts of solvers are decided, and channels that were closed then are closed. -/
def Decides (n : Network) (log : List Act) : Prop :=
  ∀ act ∈ log, (act.solver ≠ none → act.Decided) ∧ ∀ c, n.Open c → act.after.Open c

theorem Decides.keep (h : Decides n log) (hkeeps : Keeps n m) : Decides m log :=
  fun act hact => ⟨(h act hact).1, fun c hc => (h act hact).2 c (hkeeps.closed hc)⟩

theorem Decides.add (h : Decides n log) (hkeeps : Keeps n m) (hact : act.solver ≠ none → act.Decided)
    (hafter : act.after = m) : Decides m (log ++ [act]) := by
  intro act' hmem
  rcases List.mem_append.mp hmem with hmem | hmem
  · exact h.keep hkeeps act' hmem
  · rw [List.mem_singleton.mp hmem, hafter]
    exact ⟨hact, fun _ => id⟩

theorem Recorded.decides (h : Recorded n log) : Decides n log := by
  induction h with
  | empty => exact List.forall_mem_nil _
  | addSolver _ ih => exact ih.keep (keeps_addSolver _ _ _).1
  | link _ ih => exact ih.add (keeps_link _ _ _ _) (absurd rfl) rfl
  | attachEnd _ he ih => exact ih.keep (keeps_attachEnd _ _ he).1
  | dropEnd _ ih => exact ih.keep (keeps_flows rfl (flows_dropEnd _ _))
  | addRule _ ih => exact ih.keep (keeps_addRule _ _ _).1
  | addRoute _ ih => exact ih.keep (keeps_addRoute _ _ _ _ _).1
  | @addSource n m log a source key k s es hrec hs hm ih =>
    have hlinked : ∀ {b : NodeId} {i : Interface}, s.interfaces.get? b = some i → i.tx < n.channels.length :=
      hrec.ledger.linked (lookup_eq_some.mp hs).2
    have hnew := decided_offer (n := n.setSolver k (withSource s key source)) (s := withSource s key source) none [] rfl
      (announcements_sourceNews (withSource s key source) key) hlinked rfl List.not_mem_nil rfl
    have hkeeps := keeps_addSource (d := key) (r := source) hs
    rw [hm] at hnew hkeeps
    exact ih.add hkeeps (fun _ => hnew) rfl
  | start _ ih => exact ih.keep (keeps_start _ _).1
  | addTask _ _ ih => exact ih.keep (keeps_flows rfl (flows_of_eq rfl still_nil))
  | send _ hm ih => exact ih.add (keeps_flows (send_frame hm).1 (flows_send hm)) (absurd rfl) rfl
  | receive _ hm ih => exact ih.add (keeps_flows (receive_frame hm).1 (flows_receive hm)) (absurd rfl) rfl
  | @move n m log depth i t offered es hrec ht hmove ih =>
    refine ih.add hmove.keeps (fun hsolver => ?_) rfl
    cases hk : t.worker.solver? with
    | none =>
      rw [solverOf_leaf n hk] at hsolver
      exact absurd rfl hsolver
    | some k =>
      obtain ⟨⟨s, hs, -⟩, hdata⟩ := hrec.ledger.serves ht hk
      rw [solverOf_eq hk hs]
      exact hmove.decided hk hs hrec.ledger.linked hdata
  | wait _ ih => exact ih.keep (keeps_flows rfl (flows_of_eq rfl still_nil))

/-! ## Counters -/

theorem notesOf_append (es fs : List Event) : notesOf (es ++ fs) = notesOf es ++ notesOf fs := List.filterMap_append

theorem doneBy_cons (a : NodeId) (act : Act) (log : List Act) :
    doneBy a (act :: log) = if act.solver = some a then act.events ++ doneBy a log else doneBy a log := by
  unfold doneBy
  rw [List.filter_cons]
  by_cases ha : act.solver = some a
  · rw [if_pos ha, if_pos (decide_eq_true ha), eventsOf, List.flatMap_cons]
    rfl
  · rw [if_neg ha, if_neg (by simpa using ha)]

theorem offersBy_cons (a : NodeId) (act : Act) (log : List Act) :
    offersBy a (act :: log) = if act.solver = some a then act.offers ++ offersBy a log else offersBy a log := by
  unfold offersBy
  rw [List.filter_cons]
  by_cases ha : act.solver = some a
  · rw [if_pos ha, if_pos (decide_eq_true ha), List.flatMap_cons]
  · rw [if_neg ha, if_neg (by simpa using ha)]

/-- What is noted under a name is how often something happened in the doings of its solvers. -/
theorem tally_log {noted : NodeId → Metric → Nat} {happens : Event → Bool}
    (h : ∀ act ∈ log, Tally act.solver noted happens act.events) (a : NodeId) :
    ((notesOf (eventsOf log)).map (noted a)).sum = (doneBy a log).countP happens := by
  induction log with
  | nil => rfl
  | cons act log ih =>
    obtain ⟨hact, hlog⟩ := List.forall_mem_cons.mp h
    have hevents : eventsOf (act :: log) = act.events ++ eventsOf log := List.flatMap_cons ..
    rw [hevents, notesOf_append, List.map_append, List.sum_append, hact a, ih hlog, doneBy_cons]
    split
    · rw [List.countP_append]
    · rw [Nat.zero_add]

theorem length_outcomes (es : List Event) :
    (es.filterMap outcome).length = es.countP (Event.queues .routeAnnounce) + es.countP isRefusal := by
  have hone : ∀ e : Event, ((outcome e).toList).length =
      (if Event.queues .routeAnnounce e = true then 1 else 0) + if isRefusal e = true then 1 else 0 := by
    intro e
    cases e with
    | queued c p => by_cases hp : p.kind = .routeAnnounce <;> simp [outcome, Event.queues, isRefusal, hp]
    | _ => rfl
  induction es with
  | nil => rfl
  | cons e es ih =>
    have hcons : (e :: es).filterMap outcome = (outcome e).toList ++ es.filterMap outcome := by
      rw [List.filterMap_cons]
      cases outcome e <;> rfl
    rw [hcons, List.length_append, hone, ih, List.countP_cons, List.countP_cons]
    omega

/-- While all channels are open each offer is an announcement that is sent or left out. -/
theorem Decides.offers (h : Decides n log) (hopen : ∀ c, n.Open c) (a : NodeId) : (offersBy a log).length =
    (doneBy a log).countP (Event.queues .routeAnnounce) + (doneBy a log).countP isRefusal := by
  induction log with
  | nil => rfl
  | cons act log ih =>
    obtain ⟨⟨hact, hafter⟩, hlog⟩ := List.forall_mem_cons.mp h
    rw [offersBy_cons, doneBy_cons]
    by_cases ha : act.solver = some a
    · have hdecided := hact (by simp [ha])
      -- a channel that is open now was open then
      have hall : act.offers.filter (fun x => (act.after.channel x.1).receiverHeld) = act.offers :=
        List.filter_eq_self.mpr fun x hx => hafter x.1 (hopen x.1) (hdecided.made x hx)
      have hlength := length_outcomes act.events
      rw [hdecided.outcomes, hall] at hlength
      rw [if_pos ha, if_pos ha, List.length_append, List.countP_append, List.countP_append, hlength, ih hlog]
      omega
    · rw [if_neg ha, if_neg ha]
      exact ih hlog

/-! ## Conservation -/

structure Conserved (n : Network) (log : List Act) : Prop where
  /-- What was queued is what was taken and what is queued. -/
  queued : ∀ {c}, (n.channel c).receiverHeld = true →
    (eventsOf log).filterMap (queuedIn c) = (eventsOf log).filterMap (takenFrom c) ++ (n.channel c).queue
  /-- Every channel was made with a capacity, and holds and promises no more. -/
  made : (capacitiesOf log).length = n.channels.length
  bounded : ∀ {c capacity}, (capacitiesOf log)[c]? = some capacity →
    (n.channel c).queue.length + (n.channel c).promised.length ≤ max 1 capacity
  /-- What the turns of a solver's task made is what the task queued and what it holds. -/
  data : ∀ {i : TaskId} {t : Task} {k : SolverId} {s : Solver} {c : ChannelId}, n.tasks[i]? = some t →
    t.worker.solver? = some k → n.solvers[k]? = some s → (n.channel c).receiverHeld = true →
    packetsFor c (s.addressed ((eventsBy i log).flatMap product)) =
      (eventsBy i log).filterMap (dataIn c) ++ packetsFor c (s.addressed t.toSend)
  /-- What a solver offers is queued or refused. -/
  decided : ∀ act ∈ log, act.solver ≠ none → act.Decided
  sent : ∀ kind a, (metricsOf log).count (Metrics.sentKey kind a) = (doneBy a log).countP (Event.queues kind)
  received : ∀ kind a, (metricsOf log).count (Metrics.receivedKey kind a) = (doneBy a log).countP (Event.takes kind)
  offered : (∀ c < n.channels.length, (n.channel c).receiverHeld = true) → ∀ a, (offersBy a log).length =
    (metricsOf log).count (Metrics.sentKey .routeAnnounce a) + (metricsOf log).count (Metrics.droppedKey a)

/-- Packets are conserved, whatever is done. -/
theorem packets_conserved (h : Recorded n log) : Conserved n log := by
  have hcarried := h.carried
  have hledger := h.ledger
  have hdecides := h.decides
  have htallies := h.tallies
  have hsent : ∀ kind a, (metricsOf log).count (Metrics.sentKey kind a) = (doneBy a log).countP (Event.queues kind) :=
    fun kind a => (Metrics.count_sent _ kind a).trans (tally_log (fun act hact => (htallies act hact).sent kind) a)
  have hdropped : ∀ a, (metricsOf log).count (Metrics.droppedKey a) = (doneBy a log).countP isRefusal :=
    fun a => (Metrics.count_dropped _ a).trans (tally_log (fun act hact => (htallies act hact).dropped) a)
  refine ⟨fun {c} hheld => ?_, hcarried.length, fun {c capacity} hc => ?_, fun ht hk hs hheld => ?_,
    fun act hact => (hdecides act hact).1, hsent, fun kind a => ?_, fun hopen a => ?_⟩
  · have hlt : c < (capacitiesOf log).length := hcarried.length ▸ lt_of_receiverHeld hheld
    exact (hcarried.carries (List.getElem?_eq_getElem hlt)).order hheld
  · have hcarries := hcarried.carries hc
    have hfits := hcarries.fits (Nat.zero_le _)
    rw [Channel.Fits, hcarries.capacity] at hfits
    exact hfits.trans (Nat.le_of_eq (Nat.max_comm _ _))
  · exact hledger.sends ht hk hs fun _ => hheld
  · exact (Metrics.count_received _ kind a).trans (tally_log (fun act hact => (htallies act hact).received kind) a)
  · rw [hsent, hdropped]
    exact hdecides.offers hopen a

def pairOfOne : Network :=
  (((Network.empty.addSolver "a" ⟨200, 1⟩).addSolver "b" ⟨200, 1⟩).connect "a" "b").network

theorem pairOfOne_recorded : ∃ log, Recorded pairOfOne log := by
  have hsolvers : Recorded ((Network.empty.addSolver "a" ⟨200, 1⟩).addSolver "b" ⟨200, 1⟩) [] :=
    Recorded.empty.addSolver.addSolver
  obtain ⟨log, -, h⟩ := hsolvers.connect "a" "b"
  exact ⟨_, h⟩

def relaySources : Network := ((pairOfOne.attachSource "a" "x" "u/1").network.attachSource "a" "y" "v/1").network

def relay : Network :=
  (((relaySources.addRule "b" "top <- u(1), u(2).").network.attachRequest "b" "r").network.start "b").network

def relayAsked : Network := (relay.send ⟨"b", 7, 6⟩ (.request ⟨"top", []⟩)).2.1

def relayRun : Option (Network × List Event) := runTo 3 (fun _ => false) 0 12 [] relayAsked []

theorem relayRun_isSome : relayRun.isSome = true := by decide +kernel

def relayed : Network := (relayRun.get relayRun_isSome).1

/-- An announcement was left out and a request is held by its task, and the accounts agree. -/
theorem relay_conserved : ∃ log, Recorded relayed log ∧ Conserved relayed log ∧
    .refused 0 (.announce "v/1" "a" 0) ∈ eventsOf log ∧
    (relayed.channel 1).queue = [.request ⟨"u", ["1"]⟩] ∧
    relayed.tasks.map Task.toSend = [[], [⟨"a", .request ⟨"u", ["2"]⟩⟩]] := by
  obtain ⟨l₁, h₁⟩ := pairOfOne_recorded
  obtain ⟨l₂, -, h₂⟩ := h₁.attachSource "a" "x" "u/1"
  obtain ⟨l₃, hevents, h₃⟩ := h₂.attachSource "a" "y" "v/1"
  have h₄ : Recorded (relaySources.addRule "b" "top <- u(1), u(2).").network _ := h₃.addRule
  obtain ⟨l₅, -, h₅⟩ := h₄.attachRequest "b" "r"
  have h₆ : Recorded relay _ := h₅.start
  have h₇ : Recorded relayAsked _ := h₆.send (e := ⟨"b", 7, 6⟩) (p := .request ⟨"top", []⟩) rfl
  obtain ⟨l₈, -, h₈⟩ := h₇.runTo (Option.some_get relayRun_isSome).symm
  have hrefused : .refused 0 (.announce "v/1" "a" 0) ∈ eventsOf l₃ := by
    rw [hevents]
    decide +kernel
  exact ⟨_, h₈, packets_conserved h₈, by simp [eventsOf_append, hrefused], by decide +kernel, by decide +kernel⟩

end Network

end QueryNet
