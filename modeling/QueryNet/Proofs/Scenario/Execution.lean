/-
  QueryNet.Proofs.Scenario.Execution — what goes on once a scenario is set up.

  The solvers are started one by one, then the sources and then the requesters, each of
  which gives up a while after it was started. Meanwhile tasks move in any order, in turns
  of any depth, and time passes (`Wiring.Execution`).

  Only sources and requesters ever drop ends of their links, and each only its own
  (`Move.drops`). So a solver's side of their lines stays as it is, and none of them finds
  its link closed (`Wiring.Going`).

  Proved: all this is kept as an execution goes on (`Execution.going`), and no solver has
  been started when its turn to be started comes (`Going.start_ok`).
-/

import QueryNet.Proofs.Scenario.Faults

namespace QueryNet

def Task.request? (t : Task) : Option Request :=
  match t.worker with
  | .request r _ => some r
  | _ => none

theorem Task.request?_eq_none {t : Task} {k : SolverId} (h : t.worker.solver? = some k) : t.request? = none := by
  unfold request?
  split
  · rename_i hworker
    rw [hworker] at h
    cases h
  · rfl

theorem Task.request?_eq_some {t : Task} {r : Request} (h : t.request? = some r) : ∃ d, t.worker = .request r d := by
  unfold request? at h
  split at h
  · rename_i d hworker
    cases h
    exact ⟨d, hworker⟩
  · cases h

/-- An item that is put in the place of another, and of which the same is kept. -/
theorem filterMap_set {α β : Type} {f : α → Option β} {l : List α} {i : Nat} {a b : α} (ha : l[i]? = some a)
    (hf : f b = f a) : (l.set i b).filterMap f = l.filterMap f := by
  induction l generalizing i with
  | nil => rfl
  | cons x l ih =>
    cases i with
    | zero =>
      obtain rfl : x = a := Option.some.inj ha
      simp [List.filterMap_cons, hf]
    | succ i =>
      have hrest : (l.set i b).filterMap f = l.filterMap f := ih ha
      simp [List.filterMap_cons, hrest]

namespace Channel

variable {ch ch' : Channel} {i : Nat} {p : Packet}

theorem ends_promise (ch : Channel) :
    ch.promise.senderHeld = ch.senderHeld ∧ ch.promise.receiverHeld = ch.receiverHeld := by
  obtain ⟨waiting, promised, he, -⟩ := promise_eq ch
  simp [he]

theorem ends_take (h : ch.take = .packet p ch') :
    ch'.senderHeld = ch.senderHeld ∧ ch'.receiverHeld = ch.receiverHeld := by
  unfold take at h
  split at h
  · cases h
    exact ends_promise _
  · split at h
    · cases h
    · cases h

theorem take_closed (h : ch.take = .closed) : ch.senderHeld = false := by
  unfold take at h
  split at h
  · cases h
  · split at h
    · cases h
    · rename_i hheld
      simpa using hheld

theorem ends_attempt (h : ch.attempt i p = .queued ch') :
    ch'.senderHeld = ch.senderHeld ∧ ch'.receiverHeld = ch.receiverHeld := by
  unfold attempt at h
  split at h
  · cases h
  · split at h
    · cases h
      exact ⟨rfl, rfl⟩
    · split at h
      · cases h
      · split at h
        · cases h
          exact ⟨rfl, rfl⟩
        · cases h

theorem ends_withdraw (ch : Channel) (i : Nat) :
    (ch.withdraw i).senderHeld = ch.senderHeld ∧ (ch.withdraw i).receiverHeld = ch.receiverHeld := by
  unfold withdraw
  split
  · exact ends_promise _
  · exact ⟨rfl, rfl⟩

end Channel

namespace Network

variable {n m l : Network} {depth : Nat} {i : TaskId} {t t' u : Task} {es : List Event} {offered : List Outbound}
  {e : Endpoint} {c : ChannelId} {ch : Channel} {how : Ending} {free : List Endpoint} {a : NodeId}

/-! ## What a move makes of its task -/

/-- A task moves only until it ends; only what solvers' tasks work with changes; and only one whose link is closed
    finds it so. -/
structure Passes (n : Network) (t t' : Task) : Prop where
  active : ∀ how, t.phase ≠ .ended how
  solver : t'.worker.solver? = t.worker.solver?
  leaf : t.worker.solver? = none → t'.worker = t.worker
  closed : t.worker.solver? = none → t'.phase = .ended .closed → ¬ n.Holds t.endpoint

theorem Passes.request? (h : Passes n t t') : t'.request? = t.request? := by
  cases hk : t.worker.solver? with
  | none => rw [Task.request?, h.leaf hk, Task.request?]
  | some k => rw [Task.request?_eq_none hk, Task.request?_eq_none (h.solver.trans hk)]

theorem passes_phase (hactive : ∀ how, t.phase ≠ .ended how) {phase : Phase}
    (hclosed : phase = .ended .closed → ¬ n.Holds t.endpoint) : Passes n t { t with phase := phase } :=
  ⟨hactive, rfl, fun _ => rfl, fun _ => hclosed⟩

theorem passes_refreshed (hactive : ∀ how, t.phase ≠ .ended how) {k : SolverId} {last : Nat}
    (hworker : t.worker = .peer k last) (now : Nat) : Passes n t (refreshed now k t) := by
  refine ⟨hactive, by rw [hworker]; rfl, fun hleaf => ?_, fun hleaf => ?_⟩
  · rw [hworker] at hleaf
    cases hleaf
  · rw [hworker] at hleaf
    cases hleaf

theorem Move.passes (h : Move depth n i t offered es m) (ht : n.tasks[i]? = some t) :
    ∃ t', m.tasks = n.tasks.set i t' ∧ Passes n t t' := by
  have hlistening : ∀ {since}, t.phase = .listening since → ∀ how, t.phase ≠ .ended how := by
    intro since hphase how
    rw [hphase]
    exact Phase.noConfusion
  have hsending : ∀ {rest}, t.phase = .sending rest → ∀ how, t.phase ≠ .ended how := by
    intro rest hphase how
    rw [hphase]
    exact Phase.noConfusion
  have hsame : n.tasks = n.tasks.set i t := (set_of_getElem? ht).symm
  cases h with
  | serve hphase =>
    exact ⟨_, congrArg (List.set · i _) (tasks_offer _ _ _), passes_phase (hlistening hphase) Phase.noConfusion⟩
  | reply hphase => exact ⟨_, rfl, passes_phase (hlistening hphase) Phase.noConfusion⟩
  | ignore hphase =>
    refine ⟨t, hsame, hlistening hphase, rfl, fun _ => rfl, fun _ hclosed => ?_⟩
    exact absurd hclosed (hlistening hphase _)
  | answered hphase =>
    exact ⟨_, finish_tasks _ _ _ _, passes_phase (hlistening hphase) fun he => by cases he⟩
  | idle hphase _ hworker =>
    exact ⟨_, congrArg (List.set · i _) (tasks_offer _ _ _), passes_refreshed (hlistening hphase) hworker _⟩
  | close hphase htake =>
    refine ⟨_, finish_tasks _ _ _ _, passes_phase (hlistening hphase) fun _ hheld => ?_⟩
    cases (Channel.take_closed htake).symm.trans hheld.sender
  | late hphase =>
    exact ⟨_, finish_tasks _ _ _ _, passes_phase (hlistening hphase) fun he => by cases he⟩
  | rest hphase => exact ⟨_, rfl, passes_phase (hsending hphase) Phase.noConfusion⟩
  | renew hphase hworker =>
    exact ⟨_, congrArg (List.set · i _) (tasks_offer _ _ _), passes_refreshed (hsending hphase) hworker _⟩
  | send hphase => exact ⟨_, rfl, passes_phase (hsending hphase) Phase.noConfusion⟩
  | skip hphase => exact ⟨_, rfl, passes_phase (hsending hphase) Phase.noConfusion⟩
  | enlist hphase =>
    refine ⟨t, hsame, hsending hphase, rfl, fun _ => rfl, fun _ hclosed => ?_⟩
    exact absurd hclosed (hsending hphase _)
  | withdraw hphase =>
    exact ⟨_, finish_tasks n i t .late, passes_phase (hsending hphase) fun he => by cases he⟩
  | lose hphase => exact ⟨_, rfl, passes_phase (hsending hphase) Phase.noConfusion⟩
  | hangUp hphase hc hclosed hleaf =>
    refine ⟨_, finish_tasks _ _ _ _, passes_phase (hsending hphase) fun _ hheld => ?_⟩
    rw [channelTo_leaf hleaf] at hc
    cases hc
    cases (Channel.attempt_closed hclosed).symm.trans hheld.receiver

/-! ## Which ends are dropped -/

/-- Only a source or a requester drops ends of its link, and then its own. -/
structure Drops (n m : Network) (t : Task) : Prop where
  sender : ∀ c < n.channels.length,
    (m.channel c).senderHeld = (n.channel c).senderHeld ∨ (t.worker.solver? = none ∧ c = t.endpoint.tx)
  receiver : ∀ c < n.channels.length,
    (m.channel c).receiverHeld = (n.channel c).receiverHeld ∨ (t.worker.solver? = none ∧ c = t.endpoint.rx)

theorem SameEnds.setTask (h : SameEnds n m) (i : TaskId) (t : Task) : SameEnds n (m.setTask i t) :=
  h.trans (sameEnds_of_eq rfl)

theorem sameEnds_refl (n : Network) : SameEnds n n := sameEnds_of_eq rfl

theorem SameEnds.drops (h : SameEnds n m) : Drops n m t :=
  ⟨fun c hc => .inl (h.sender c hc), fun c hc => .inl (h.receiver c hc)⟩

theorem SameEnds.thenDrops (h : SameEnds n l) (h' : Drops l m t) : Drops n m t := by
  constructor
  · intro c hc
    rw [← h.sender c hc]
    exact h'.sender c (Nat.lt_of_lt_of_le hc h.length)
  · intro c hc
    rw [← h.receiver c hc]
    exact h'.receiver c (Nat.lt_of_lt_of_le hc h.length)

theorem Drops.thenSame (h : Drops n l t) (h' : SameEnds l m) (hlength : n.channels.length ≤ l.channels.length) :
    Drops n m t := by
  constructor
  · intro c hc
    rw [h'.sender c (Nat.lt_of_lt_of_le hc hlength)]
    exact h.sender c hc
  · intro c hc
    rw [h'.receiver c (Nat.lt_of_lt_of_le hc hlength)]
    exact h.receiver c hc

theorem drops_finish (n : Network) (i : TaskId) (t : Task) (how : Ending) : Drops n (n.finish i t how) t := by
  have hdrop : t.worker.solver? = none →
      Drops n ((n.setTask i { t with phase := .ended how }).dropEnd t.endpoint) t := by
    intro hleaf
    constructor
    · intro c _
      by_cases hc : c = t.endpoint.tx
      · exact .inr ⟨hleaf, hc⟩
      · left
        rw [dropEnd, channel_onChannel]
        split
        · rw [channel_onChannel, if_neg fun h => hc h.1]
          rfl
        · rw [channel_onChannel, if_neg fun h => hc h.1]
          rfl
    · intro c _
      by_cases hc : c = t.endpoint.rx
      · exact .inr ⟨hleaf, hc⟩
      · left
        rw [dropEnd, channel_onChannel, if_neg fun h => hc h.1, channel_onChannel]
        split
        · rfl
        · rfl
  unfold finish
  dsimp only
  split
  · rename_i hworker
    exact hdrop (by rw [hworker]; rfl)
  · rename_i hworker
    exact hdrop (by rw [hworker]; rfl)
  · exact ((sameEnds_refl n).setTask _ _).drops

theorem sameEnds_take {p : Packet} (h : (n.channel c).take = .packet p ch) : SameEnds n (n.setChannel c ch) :=
  sameEnds_setChannel (lt_of_take h) (Channel.ends_take h).1 (Channel.ends_take h).2

theorem sameEnds_onChannel {f : Channel → Channel}
    (hf : ∀ ch, (f ch).senderHeld = ch.senderHeld ∧ (f ch).receiverHeld = ch.receiverHeld) (c : ChannelId) :
    SameEnds n (n.onChannel c f) := by
  refine ⟨Nat.le_of_eq (List.length_modify ..).symm, fun d _ => ?_, fun d _ => ?_⟩
  · rw [channel_onChannel]
    split
    · exact (hf _).1
    · rfl
  · rw [channel_onChannel]
    split
    · exact (hf _).2
    · rfl

theorem Move.drops (h : Move depth n i t offered es m) : Drops n m t := by
  have hoffer : ∀ {l : Network} {s : Solver} {out : List Outbound} {u : Task},
      SameEnds n l → Drops n ((l.offer s out).1.setTask i u) t := fun {l s out u} hl =>
    ((hl.trans (sameEnds_offer l s out)).setTask _ _).drops
  cases h with
  | @serve since p ch k s turn hphase htake hk hs hturn =>
    have hset : SameEnds (n.setChannel t.endpoint.rx ch) (n.handled t ch k turn) := sameEnds_of_eq rfl
    exact hoffer ((sameEnds_take htake).trans hset)
  | reply _ htake => exact ((sameEnds_take htake).setTask _ _).drops
  | ignore _ htake => exact (sameEnds_take htake).drops
  | answered _ htake => exact (sameEnds_take htake).thenDrops (drops_finish _ _ _ _)
  | idle => exact hoffer (sameEnds_refl n)
  | close => exact drops_finish _ _ _ _
  | late => exact drops_finish _ _ _ _
  | rest => exact ((sameEnds_refl n).setTask _ _).drops
  | renew => exact hoffer (sameEnds_refl n)
  | @send o out c ch hphase hc hqueued =>
    obtain ⟨hheld, -⟩ := Channel.attempt_queued hqueued
    obtain ⟨hsender, hreceiver⟩ := Channel.ends_attempt hqueued
    exact ((sameEnds_setChannel (lt_of_receiverHeld hheld) hsender hreceiver).setTask _ _).drops
  | skip => exact ((sameEnds_refl n).setTask _ _).drops
  | enlist _ _ henlisted =>
    obtain ⟨hheld, he⟩ := Channel.attempt_enlisted henlisted
    exact (sameEnds_setChannel (lt_of_receiverHeld hheld) (by rw [he]) (by rw [he])).drops
  | @withdraw o out c d request =>
    refine (drops_finish n i t .late).thenSame (sameEnds_onChannel (Channel.ends_withdraw · i) c) ?_
    exact Nat.le_of_eq (flows_finish n i t .late).length.symm
  | lose => exact ((sameEnds_refl n).setTask _ _).drops
  | hangUp => exact drops_finish _ _ _ _

/-- A task that drops an end of another link leaves this one as it is. -/
theorem Drops.holds (h : Drops n m t) (he : n.Holds e) (htx : e.tx < n.channels.length) (hrx : e.rx < n.channels.length)
    (happart : t.worker.solver? = none → e.tx ≠ t.endpoint.rx ∧ e.rx ≠ t.endpoint.tx) : m.Holds e := by
  constructor
  · rcases h.receiver e.tx htx with hsame | ⟨hleaf, hdrop⟩
    · exact hsame.trans he.receiver
    · exact absurd hdrop (happart hleaf).1
  · rcases h.sender e.rx hrx with hsame | ⟨hleaf, hdrop⟩
    · exact hsame.trans he.sender
    · exact absurd hdrop (happart hleaf).2

/-- The solvers' sides of lines stay as they are: who is at the end of a line drops nothing but that end. -/
theorem Fitted.step (h : n.Fitted free) (hm : n.step depth i = some (m, es)) : m.Fitted free := by
  obtain ⟨l, hl, hholds⟩ := h
  obtain ⟨t, offered, ht, hmove⟩ := step_move hm
  have hline := hl.lines.task t (List.mem_of_getElem? ht)
  refine ⟨l, hl.of_lines (hl.lines.step hm), fun e he => ?_⟩
  obtain ⟨htx, hrx⟩ := hl.lines.made e he
  refine hmove.drops.holds (hholds e he) htx hrx fun hleaf => ?_
  obtain ⟨hend, -⟩ := hline.leaf hleaf
  exact ⟨(hl.lines.apart _ hend e he).symm, hl.lines.apart e he _ hend⟩

theorem Fitted.wait (h : n.Fitted free) (now : Nat) : Fitted { n with now := now } free :=
  h.same (fun _ hl => hl.queues rfl rfl rfl fun hp => .inl hp) (sameEnds_of_eq rfl)

theorem channels_start (n : Network) (a : NodeId) : (n.start a).network.channels = n.channels := by
  unfold Network.start
  split
  · rfl
  · split
    · rfl
    · rfl

theorem Fitted.start (h : n.Fitted free) (a : NodeId) : (n.start a).network.Fitted free :=
  h.same (fun _ hl => hl.start a) (sameEnds_of_eq (channels_start n a))

/-- A source takes the first of the free ends. -/
theorem Fitted.startSource (h : n.Fitted (e :: free)) (source : Source) : (n.startSource source e).Fitted free := by
  obtain ⟨l, hl, hholds⟩ := h
  have huse := hl.use (hl.lines.startSource (hl.ends (List.mem_cons_self ..)) source) e
  rw [List.erase_cons_head] at huse
  exact ⟨l, huse, fun e' he' => ⟨(hholds e' he').receiver, (hholds e' he').sender⟩⟩

/-- And so does a requester, which asks its query there. -/
theorem Fitted.startRequest (h : n.Fitted (e :: free)) (r : Request) (deadline : Option Nat) :
    (n.startRequest r e deadline).Fitted free := by
  obtain ⟨l, hl, hholds⟩ := h
  have hask := hl.ask (List.mem_cons_self ..) r deadline
  rw [List.erase_cons_head] at hask
  exact ⟨_, hask, fun e' he' => ⟨(hholds e' he').receiver, (hholds e' he').sender⟩⟩

/-! ## Names, and which solvers run -/

structure SameRunning (n m : Network) : Prop where
  names : m.names = n.names
  running : m.solvers.map (·.running) = n.solvers.map (·.running)

theorem Same.running (h : Same n m) : SameRunning n m := ⟨h.names, by rw [h.solvers]⟩

theorem same_finish (n : Network) (i : TaskId) (t : Task) (how : Ending) : Same n (n.finish i t how) := by
  unfold finish
  dsimp only
  split
  · exact ⟨rfl, rfl⟩
  · exact ⟨rfl, rfl⟩
  · exact ⟨rfl, rfl⟩

theorem Move.running (h : Move depth n i t offered es m) : SameRunning n m := by
  have hsame : ∀ {l : Network}, Same n l → m.names = l.names → m.solvers = l.solvers → SameRunning n m :=
    fun hl hnames hsolvers => Same.running ⟨hsolvers.trans hl.solvers, hnames.trans hl.names⟩
  cases h with
  | @serve since p ch k s turn _ _ _ hs hturn =>
    obtain ⟨pending, routes, hframe⟩ := Solver.handle_frame ⟨depth, hturn⟩
    have hoffer := same_offer (n.handled t ch k turn) turn.solver (turn.out.filter isAnnouncement)
    refine ⟨hoffer.names, ?_⟩
    show (List.map (·.running) (offer _ _ _).1.solvers) = _
    rw [hoffer.solvers]
    show (n.solvers.set k turn.solver).map (·.running) = n.solvers.map (·.running)
    have hrun : turn.solver.running = s.running := by rw [hframe]
    rw [List.map_set, hrun]
    exact set_of_getElem? (by rw [List.getElem?_map, hs]; rfl)
  | idle => exact hsame (same_offer n _ _) rfl rfl
  | renew => exact hsame (same_offer n _ _) rfl rfl
  | @answered since p ch b =>
    have hset : Same n (n.setChannel t.endpoint.rx ch) := ⟨rfl, rfl⟩
    exact (hset.trans (same_finish _ _ _ _)).running
  | close => exact (same_finish _ _ _ _).running
  | late => exact (same_finish _ _ _ _).running
  | withdraw => exact hsame (same_finish n i t .late) rfl rfl
  | hangUp => exact (same_finish _ _ _ _).running
  | reply => exact ⟨rfl, rfl⟩
  | ignore => exact ⟨rfl, rfl⟩
  | rest => exact ⟨rfl, rfl⟩
  | send => exact ⟨rfl, rfl⟩
  | skip => exact ⟨rfl, rfl⟩
  | enlist => exact ⟨rfl, rfl⟩
  | lose => exact ⟨rfl, rfl⟩

/-! ## The clock -/

theorem now_offer (n : Network) (s : Solver) (out : List Outbound) : (n.offer s out).1.now = n.now := by
  show (offerEach s out n).1.now = n.now
  induction out generalizing n with
  | nil => rfl
  | cons o out ih =>
    have hone : (n.offerOne s o).1.now = n.now := by
      unfold offerOne
      split
      · rfl
      · split
        · rfl
        · rfl
        · rfl
    exact (ih _).trans hone

theorem now_finish (n : Network) (i : TaskId) (t : Task) (how : Ending) : (n.finish i t how).now = n.now := by
  unfold finish
  dsimp only
  split
  · rfl
  · rfl
  · rfl

/-- No time passes in a move. -/
theorem Move.now (h : Move depth n i t offered es m) : m.now = n.now := by
  cases h with
  | serve => exact now_offer _ _ _
  | idle => exact now_offer _ _ _
  | renew => exact now_offer _ _ _
  | answered => exact now_finish _ _ _ _
  | close => exact now_finish _ _ _ _
  | late => exact now_finish _ _ _ _
  | withdraw => exact now_finish n i t .late
  | hangUp => exact now_finish _ _ _ _
  | reply => rfl
  | ignore => rfl
  | rest => rfl
  | send => rfl
  | skip => rfl
  | enlist => rfl
  | lose => rfl

/-- A solver that does not run is started, and its receivers are given to tasks. -/
theorem start_of_idle {k : SolverId} {s : Solver} (hs : n.lookup a = some (k, s)) (hidle : s.running = false) :
    (∃ count, (n.start a).result = .ok count) ∧ (n.start a).network.names = n.names ∧
      (n.start a).network.solvers = n.solvers.set k { s with receivers := [], running := true } := by
  simp [Network.start, hs, Solver.start, hidle, setSolver]

/-! ## What comes next -/

/-- A task moves, in a turn of some depth, or time passes. -/
inductive Next : Network → Network → Prop
  | move {n m : Network} {depth : Nat} {i : TaskId} {es : List Event} : n.step depth i = some (m, es) → Next n m
  | wait {n : Network} {now : Nat} : n.now ≤ now → Next n { n with now := now }

def Timed (n : Network) : Prop := ∀ t ∈ n.tasks, ∀ r, t.worker ≠ .request r none

theorem Next.timed (h : n.Next m) (hn : n.Timed) : m.Timed := by
  cases h with
  | move hm =>
    obtain ⟨t, offered, ht, hmove⟩ := step_move hm
    obtain ⟨t', htasks, hpasses⟩ := hmove.passes ht
    intro u hu r hr
    rw [htasks] at hu
    rcases List.mem_or_eq_of_mem_set hu with hold | rfl
    · exact hn u hold r hr
    · have hleaf : t.worker.solver? = none := hpasses.solver.symm.trans (by rw [hr]; rfl)
      exact hn t (List.mem_of_getElem? ht) r ((hpasses.leaf hleaf).symm.trans hr)
  | wait => exact hn

theorem Next.now_le (h : n.Next m) : n.now ≤ m.now := by
  cases h with
  | move hm =>
    obtain ⟨t, offered, -, hmove⟩ := step_move hm
    exact Nat.le_of_eq hmove.now.symm
  | wait hle => exact hle

end Network

namespace Scenario.Wiring

open Network

variable {w : Wiring} {timeout : Nat} {ids : List NodeId} {sources : List (Source × Endpoint)}
  {requests : List (Request × Endpoint)} {n m : Network} {a : NodeId} {d : Source × Endpoint} {r : Request × Endpoint}

/-- What may become of a network that is set up, with those solvers, sources and requesters still to be started. -/
inductive Execution (w : Wiring) (timeout : Nat) :
    List NodeId → List (Source × Endpoint) → List (Request × Endpoint) → Network → Prop
  | wired : Execution w timeout w.network.names.keys w.sources w.requests w.network
  | solver {a : NodeId} {ids : List NodeId} {sources : List (Source × Endpoint)} {requests : List (Request × Endpoint)}
      {n : Network} : Execution w timeout (a :: ids) sources requests n →
      Execution w timeout ids sources requests (n.start a).network
  | source {d : Source × Endpoint} {sources : List (Source × Endpoint)} {requests : List (Request × Endpoint)}
      {n : Network} : Execution w timeout [] (d :: sources) requests n →
      Execution w timeout [] sources requests (n.startSource d.1 d.2)
  | request {r : Request × Endpoint} {requests : List (Request × Endpoint)} {n : Network} :
      Execution w timeout [] [] (r :: requests) n →
      Execution w timeout [] [] requests (n.startRequest r.1 r.2 (some (n.now + timeout)))
  | next {ids : List NodeId} {sources : List (Source × Endpoint)} {requests : List (Request × Endpoint)}
      {n m : Network} : Execution w timeout ids sources requests n → n.Next m →
      Execution w timeout ids sources requests m

structure Going (w : Wiring) (ids : List NodeId) (sources : List (Source × Endpoint))
    (requests : List (Request × Endpoint)) (n : Network) : Prop where
  fitted : n.Fitted (sources.map (·.2) ++ requests.map (·.2))
  /-- No source and no requester found its link closed. -/
  connected : ∀ t ∈ n.tasks, t.worker.solver? = none → t.phase ≠ .ended .closed
  /-- The requesters are those of the scenario, in order. -/
  asked : n.tasks.filterMap Task.request? ++ requests.map (·.1) = w.requests.map (·.1)
  timed : n.Timed
  names : n.names = w.network.names
  idle : ∀ a ∈ ids, ∃ k, w.network.names.get? a = some k ∧ (n.solvers.map (·.running))[k]? = some false
  apart : ids.Nodup

theorem Going.lookup (h : Going w (a :: ids) sources requests n) :
    ∃ k s, w.network.names.get? a = some k ∧ n.lookup a = some (k, s) ∧ s.running = false := by
  obtain ⟨k, hk, hrun⟩ := h.idle a (List.mem_cons_self ..)
  rw [List.getElem?_map] at hrun
  obtain ⟨s, hs, hidle⟩ := Option.map_eq_some_iff.mp hrun
  exact ⟨k, s, hk, lookup_eq_some.mpr ⟨h.names ▸ hk, hs⟩, hidle⟩

/-- No solver runs before it is started. -/
theorem Going.start_ok (h : Going w (a :: ids) sources requests n) : ∃ count, (n.start a).result = .ok count := by
  obtain ⟨k, s, -, hs, hidle⟩ := h.lookup
  exact (start_of_idle hs hidle).1

/-- Tasks are added that have not found their links closed, and of which the requesters will give up. -/
theorem Going.added (h : Going w ids sources requests n) {tasks : List Task} (htasks : m.tasks = n.tasks ++ tasks)
    (hnew : ∀ t ∈ tasks, (t.worker.solver? = none → t.phase ≠ .ended .closed) ∧ ∀ r, t.worker ≠ .request r none) :
    (∀ t ∈ m.tasks, t.worker.solver? = none → t.phase ≠ .ended .closed) ∧ m.Timed := by
  constructor
  · intro t ht
    rw [htasks] at ht
    rcases List.mem_append.mp ht with hold | hfresh
    · exact h.connected t hold
    · exact (hnew t hfresh).1
  · intro t ht
    rw [htasks] at ht
    rcases List.mem_append.mp ht with hold | hfresh
    · exact h.timed t hold
    · exact (hnew t hfresh).2

theorem Going.start (h : Going w (a :: ids) sources requests n) (hn : w.network.Named) :
    Going w ids sources requests (n.start a).network := by
  obtain ⟨k, s, hk, hs, hidle⟩ := h.lookup
  obtain ⟨-, hnames, hsolvers⟩ := start_of_idle hs hidle
  obtain ⟨-, tasks, htasks, hnew⟩ := keeps_start n a
  obtain ⟨hnot, hapart⟩ := List.nodup_cons.mp h.apart
  have hworks : ∀ t ∈ tasks, ∃ j, t.worker.solver? = some j := by
    intro t ht
    obtain ⟨-, j, -, hj, -⟩ := hnew t ht
    exact ⟨j, hj⟩
  obtain ⟨hconnected, htimed⟩ := h.added htasks fun t ht => by
    obtain ⟨j, hj⟩ := hworks t ht
    refine ⟨fun hleaf => ?_, fun r hr => ?_⟩
    · cases hj.symm.trans hleaf
    · rw [hr] at hj
      cases hj
  refine {
    fitted := h.fitted.start a
    connected := hconnected
    timed := htimed
    names := hnames.trans h.names
    apart := hapart
    asked := ?_
    idle := ?_ }
  · have hnone : tasks.filterMap Task.request? = [] := by
      refine List.filterMap_eq_nil_iff.mpr fun t ht => ?_
      obtain ⟨j, hj⟩ := hworks t ht
      exact Task.request?_eq_none hj
    rw [htasks, List.filterMap_append, hnone, List.append_nil]
    exact h.asked
  · -- the solvers still to be started have other names, and so other numbers
    intro b hb
    obtain ⟨j, hj, hrun⟩ := h.idle b (List.mem_cons_of_mem _ hb)
    have hne : k ≠ j := by
      intro he
      obtain ⟨u, hu, hid⟩ := hn.id_of hk
      obtain ⟨v, hv, hid'⟩ := hn.id_of hj
      rw [he] at hu
      cases hu.symm.trans hv
      exact hnot (hid.symm.trans hid' ▸ hb)
    refine ⟨j, hj, ?_⟩
    rw [hsolvers, List.map_set, List.getElem?_set_ne hne]
    exact hrun

theorem Going.startSource (h : Going w ids (d :: sources) requests n) :
    Going w ids sources requests (n.startSource d.1 d.2) := by
  obtain ⟨hconnected, htimed⟩ := h.added (m := n.startSource d.1 d.2) rfl
    (List.forall_mem_singleton.mpr ⟨fun _ => Phase.noConfusion, fun _ => Worker.noConfusion⟩)
  refine {
    fitted := h.fitted.startSource d.1
    connected := hconnected
    timed := htimed
    names := h.names
    idle := h.idle
    apart := h.apart
    asked := ?_ }
  have hnone : (n.startSource d.1 d.2).tasks.filterMap Task.request? = n.tasks.filterMap Task.request? := by
    simp [Network.startSource, addTask, Task.request?]
  rw [hnone]
  exact h.asked

theorem Going.startRequest (h : Going w ids [] (r :: requests) n) (deadline : Nat) :
    Going w ids [] requests (n.startRequest r.1 r.2 (some deadline)) := by
  have hnew : ∀ q, Worker.request r.1 (some deadline) ≠ .request q none := by simp
  obtain ⟨hconnected, htimed⟩ := h.added (m := n.startRequest r.1 r.2 (some deadline)) rfl
    (List.forall_mem_singleton.mpr ⟨fun _ => Phase.noConfusion, hnew⟩)
  refine {
    fitted := h.fitted.startRequest r.1 (some deadline)
    connected := hconnected
    timed := htimed
    names := h.names
    idle := h.idle
    apart := h.apart
    asked := ?_ }
  have hone : (n.startRequest r.1 r.2 (some deadline)).tasks.filterMap Task.request? =
      n.tasks.filterMap Task.request? ++ [r.1] := by
    simp [Network.startRequest, addTask, Task.request?]
  rw [hone, List.append_assoc]
  exact h.asked

theorem Going.step (h : Going w ids sources requests n) {depth : Nat} {i : TaskId} {es : List Event}
    (hm : n.step depth i = some (m, es)) : Going w ids sources requests m := by
  obtain ⟨t, offered, ht, hmove⟩ := step_move hm
  obtain ⟨t', htasks, hpasses⟩ := hmove.passes ht
  have hrunning := hmove.running
  refine {
    fitted := h.fitted.step hm
    timed := (Next.move hm).timed h.timed
    names := hrunning.names.trans h.names
    apart := h.apart
    connected := ?_
    asked := ?_
    idle := ?_ }
  · intro u hu hleaf
    rw [htasks] at hu
    rcases List.mem_or_eq_of_mem_set hu with hold | rfl
    · exact h.connected u hold hleaf
    · -- its end is on a line, and so the solver's side of the link is held
      have hleaf := hpasses.solver.symm.trans hleaf
      obtain ⟨l, hl, hholds⟩ := h.fitted
      obtain ⟨hend, -⟩ := (hl.lines.task t (List.mem_of_getElem? ht)).leaf hleaf
      exact fun hclosed => hpasses.closed hleaf hclosed (hholds _ hend)
  · rw [htasks, filterMap_set ht hpasses.request?]
    exact h.asked
  · intro a ha
    rw [hrunning.running]
    exact h.idle a ha

theorem Going.next (h : Going w ids sources requests n) (hm : n.Next m) : Going w ids sources requests m := by
  cases hm with
  | move hstep => exact h.step hstep
  | wait => exact ⟨h.fitted.wait _, h.connected, h.asked, h.timed, h.names, h.idle, h.apart⟩

variable {known : NodeId → Prop} {linked : NodeId → NodeId → Prop} {specs : List RequestSpec}

theorem Laid.going (h : w.Laid known linked specs) : Going w w.network.names.keys w.sources w.requests w.network := by
  have htasks := h.network.tasks
  refine ⟨h.fitted, ?_, ?_, ?_, rfl, fun a ha => ?_, Table.nodup_keys _⟩
  · simp [htasks]
  · simp [htasks]
  · simp [Timed, htasks]
  · obtain ⟨k, hk⟩ := Table.mem_keys.mp ha
    obtain ⟨s, hs, -⟩ := h.network.named.id_of hk
    refine ⟨k, hk, ?_⟩
    rw [List.getElem?_map, hs]
    exact congrArg some (h.network.idle s (List.mem_of_getElem? hs))

/-- Whatever comes of a network that is set up: no line is closed, and every requester is there in its place. -/
theorem Execution.going (h : Execution w timeout ids sources requests n) (hw : w.Laid known linked specs) :
    Going w ids sources requests n := by
  induction h with
  | wired => exact hw.going
  | solver _ ih => exact ih.start hw.network.named
  | source _ ih => exact ih.startSource
  | request _ ih => exact ih.startRequest _
  | next _ hm ih => exact ih.next hm

end Scenario.Wiring

end QueryNet
