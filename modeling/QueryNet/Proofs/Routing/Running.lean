/-
  QueryNet.Proofs.Routing.Running — networks that run are those of fabrics.

  A move of a task that takes up a packet handles it, one that finds a timer run out
  refreshes a peer, and all others concern no solver; what is in the channels was
  sent (`Wired`). So each move is a few exchanges of a fabric, and each call that
  sets something up is a step of it.

  Proved: a network that is set up by calls, with no route set by hand, and whose
  tasks move in any order and at any time, is the network of a fabric that comes
  about (`Runs.reach`); the runs on the clock are among them (`Runs.runTo`).
-/

import QueryNet.Proofs.Routing.Wiring
import QueryNet.Proofs.Traffic.Moves

namespace QueryNet.Network

/-- Set up by calls, and run by moves of tasks while time passes. -/
inductive Runs : Network → Prop
  | empty : Runs .empty
  | addSolver {n : Network} {a : NodeId} {config : SolverConfig} : Runs n → n.lookup a = none →
      Runs (n.addSolver a config)
  | connect {n : Network} {a b : NodeId} : Runs n → Runs (n.connect a b).network
  | attachSource {n : Network} {a source : NodeId} {key : String} : Runs n → Runs (n.attachSource a source key).network
  | attachRequest {n : Network} {a requester : NodeId} : Runs n → Runs (n.attachRequest a requester).network
  | addRule {n : Network} {a : NodeId} {text : String} : Runs n → Runs (n.addRule a text).network
  | start {n : Network} {a : NodeId} : Runs n → Runs (n.start a).network
  | startSource {n : Network} {source : Source} {e : Endpoint} : Runs n → Runs (n.startSource source e)
  | startRequest {n : Network} {request : Request} {e : Endpoint} {deadline : Option Nat} : Runs n →
      Runs (n.startRequest request e deadline)
  | step {n m : Network} {depth : Nat} {i : TaskId} {es : List Event} : Runs n → n.step depth i = some (m, es) → Runs m
  | wait {n : Network} {now : Nat} : Runs n → Runs { n with now := now }

structure Backed (n : Network) (sent : List Parcel) (sources : List Attachment) (w : Wires) : Prop where
  reach : Reach ⟨n, sent, sources⟩
  wired : n.Wired w sent

variable {n m : Network} {sent : List Parcel} {sources : List Attachment} {w : Wires} {depth : Nat} {i : TaskId} {t : Task}
  {es : List Event} {p : Packet}

theorem Backed.same (h : Backed n sent sources w) (hs : Same n m) (hw : m.Wired w sent) : Backed m sent sources w :=
  ⟨h.reach.step (.exchange (.other hs)), hw⟩

/-! ## Moves that concern no solver -/

theorem Backed.setTask (h : Backed n sent sources w) (ht : t.Placed n.solvers w) : Backed (n.setTask i t) sent sources w :=
  h.same ⟨rfl, rfl⟩ (h.wired.setTask ht)

theorem Backed.finish (h : Backed n sent sources w) (ht : t.Placed n.solvers w) (how : Ending) :
    Backed (n.finish i t how) sent sources w := by
  have hended : Task.Placed { t with phase := .ended how } n.solvers w := ht.phase rfl rfl rfl fun he => by cases he
  have hset : Backed (n.setTask i { t with phase := .ended how }) sent sources w := h.setTask hended
  unfold Network.finish
  dsimp only
  split
  · exact hset.same (same_dropEnd _ _) (hset.wired.dropEnd _)
  · exact hset.same (same_dropEnd _ _) (hset.wired.dropEnd _)
  · exact hset

theorem Backed.giveUp (h : Backed n sent sources w) (ht : t.Placed n.solvers w) (hm : n.giveUp i t = some m) :
    Backed m sent sources w := by
  unfold Network.giveUp at hm
  split at hm
  · split at hm
    · cases hm
      exact h.finish ht _
    · cases hm
  · cases hm

theorem Backed.loseLink (h : Backed n sent sources w) (ht : t.Placed n.solvers w) {rest : List Outbound}
    (hrest : ∀ o ∈ rest, o.packet.kind ≠ .routeAnnounce) : Backed (n.loseLink i t rest) sent sources w := by
  unfold Network.loseLink
  split
  · exact h.setTask (ht.toSending hrest)
  · exact h.setTask (ht.toSending hrest)
  · exact h.finish ht _

/-- A channel may lose packets, and get any that are no announcements. -/
theorem Backed.setChannel (h : Backed n sent sources w) {c : ChannelId} {ch : Channel}
    (hq : ∀ p ∈ ch.queue, p ∈ (n.channel c).queue ∨ p.kind ≠ .routeAnnounce) : Backed (n.setChannel c ch) sent sources w := by
  refine h.same ⟨rfl, rfl⟩ (h.wired.setChannel ?_)
  intro a b _ p hp hkind
  rcases hq p hp with hold | hother
  · exact .inl hold
  · exact absurd hkind hother

theorem Backed.listening (h : Backed n sent sources w) (ht : t.Placed n.solvers w) (since : Nat) :
    Backed (n.setTask i { t with phase := .listening since }) sent sources w :=
  h.setTask (ht.phase rfl rfl rfl fun he => by cases he)

/-! ## Moves of solvers -/

/-- A peer's task announces the routes to it. -/
theorem Backed.refresh (h : Backed n sent sources w) (ht : t.Placed n.solvers w) {k last : Nat} {s : Solver}
    (hworker : t.worker = .peer k last) (hs : n.solvers[k]? = some s) (hm : n.refresh s t = (m, es))
    (now : Nat) : ∃ sent', Backed (m.setTask i (refreshed now k t)) sent' sources w := by
  obtain rfl : (n.refresh s t).1 = m := by rw [hm]
  have hsolver : t.worker.solver? = some k := by rw [hworker]; rfl
  obtain ⟨s', role, hs', -, hrole, hpeer⟩ := ht.endpoint hsolver
  rw [hs] at hs'
  cases hs'
  rw [hworker] at hpeer
  cases hpeer
  have hlookup : n.lookup s.id = some (k, s) := lookup_eq_some.mpr ⟨h.reach.named.name_of hs, hs⟩
  have hreach := h.reach.step (.exchange (.refresh hlookup hrole))
  refine ⟨sent ++ (s.advertisement t.endpoint.peer).map (Parcel.mk s.id), hreach.step (.exchange (.other ?_)), ?_⟩
  · exact (same_offer n s _).trans ⟨rfl, rfl⟩
  · have hwired := h.wired.more_sent (List.subset_append_left sent ((s.advertisement t.endpoint.peer).map (Parcel.mk s.id)))
    have hoffer := hwired.offer (h.wired.solver s (List.mem_of_getElem? hs)) fun o ho =>
      List.mem_append_right _ (List.mem_map.mpr ⟨o, ho, rfl⟩)
    refine hoffer.setTask ?_
    rw [(same_offer n s _).solvers]
    refine ht.phase ?_ ?_ rfl fun he => by cases he
    · rw [hworker]
      rfl
    · rw [hworker]
      rfl

theorem Backed.relisten (h : Backed n sent sources w) (ht : t.Placed n.solvers w) :
    ∃ sent', Backed (n.relisten i t).1 sent' sources w := by
  unfold Network.relisten
  split
  · rename_i k last s hworker hs
    split
    · have hs : n.solvers[k]? = some s := by
        rw [solverOf, hworker] at hs
        exact hs
      generalize hm : n.refresh s t = r
      obtain ⟨m, es⟩ := r
      exact h.refresh ht hworker hs hm m.now
    · exact ⟨sent, h.listening ht _⟩
  · exact ⟨sent, h.listening ht _⟩

theorem Backed.push (h : Backed n sent sources w) (ht : t.Placed n.solvers w) {out : List Outbound}
    (hout : ∀ o ∈ out, o.packet.kind ≠ .routeAnnounce) (hm : n.push i t out = some (m, es)) :
    ∃ sent', Backed m sent' sources w := by
  cases out with
  | nil =>
    have he : n.relisten i t = (m, es) := Option.some.inj hm
    have hlisten := h.relisten (i := i) ht
    rw [he] at hlisten
    exact hlisten
  | cons o rest =>
    have ho : o.packet.kind ≠ .routeAnnounce := hout o (List.mem_cons_self ..)
    have hrest : ∀ o ∈ rest, o.packet.kind ≠ .routeAnnounce := fun o' ho' => hout o' (List.mem_cons_of_mem _ ho')
    simp only [Network.push] at hm
    split at hm
    · cases hm
      exact ⟨sent, h.setTask (ht.toSending hrest)⟩
    · split at hm
      · rename_i ch hattempt
        cases hm
        refine ⟨sent, (h.setChannel ?_).setTask (ht.toSending hrest)⟩
        intro p hp
        rcases queue_attempt_queued hattempt p hp with hold | rfl
        · exact .inl hold
        · exact .inr ho
      · rename_i ch hattempt
        cases hm
        refine ⟨sent, h.setChannel ?_⟩
        intro p hp
        rw [queue_attempt_enlisted hattempt] at hp
        exact .inl hp
      · obtain ⟨m', hm', he⟩ := Option.map_eq_some_iff.mp hm
        cases he
        have hgone := h.giveUp ht hm'
        exact ⟨sent, hgone.same ⟨rfl, rfl⟩ (hgone.wired.onChannel fun ch p hp => queue_withdraw ch i ▸ hp)⟩
      · cases hm
        exact ⟨sent, h.loseLink ht hrest⟩

/-- A solver's task handles a packet, offers the announcements that come of it, and keeps the rest to send. -/
theorem Backed.serve (h : Backed n sent sources w) (ht : t ∈ n.tasks)
    (hp : ∀ {a b}, w[t.endpoint.rx]? = some (a, b) → p.kind = .routeAnnounce → ⟨a, b, p⟩ ∈ sent)
    (hm : n.serve depth i t p = some (m, es)) : ∃ sent', Backed m sent' sources w := by
  obtain ⟨k, hk, hm⟩ := Option.bind_eq_some_iff.mp hm
  obtain ⟨s, hs, hm⟩ := Option.bind_eq_some_iff.mp hm
  obtain ⟨turn, hturn, hm⟩ := Option.bind_eq_some_iff.mp hm
  obtain ⟨s', role, hs', hw, -, -⟩ := (h.wired.task t ht).endpoint hk
  rw [hs] at hs'
  cases hs'
  obtain ⟨pending, routes, he⟩ := Solver.handle_frame ⟨depth, hturn⟩
  have hlookup : n.lookup s.id = some (k, s) := lookup_eq_some.mpr ⟨h.reach.named.name_of hs, hs⟩
  have hreach := h.reach.step (.exchange (.handle hlookup ⟨depth, hturn⟩ fun _ hkind => hp hw hkind))
  have hwired : (n.setSolver k turn.solver).Wired w (sent ++ turn.out.map (Parcel.mk s.id)) := by
    refine (h.wired.setSolver_of_eq hs ?_ ?_ ?_).more_sent (List.subset_append_left ..)
    · rw [he]
    · rw [he]
    · rw [he]
      exact fun v hv => hv
  have hplaced : turn.solver.Placed w := by
    have hlt := (List.getElem?_eq_some_iff.mp hs).1
    exact hwired.solver turn.solver (List.mem_of_getElem? (List.getElem?_set_self hlt))
  have hsent : ∀ o ∈ turn.out.filter isAnnouncement, ⟨turn.solver.id, o⟩ ∈ sent ++ turn.out.map (Parcel.mk s.id) := by
    intro o ho
    have hid : turn.solver.id = s.id := by rw [he]
    rw [hid]
    exact List.mem_append_right _ (List.mem_map.mpr ⟨o, (List.mem_filter.mp ho).1, rfl⟩)
  have hoffer := hwired.offer hplaced hsent
  have hsame := same_offer (n.setSolver k turn.solver) turn.solver (turn.out.filter isAnnouncement)
  have hrest : ∀ o ∈ turn.out.filter (!isAnnouncement ·), o.packet.kind ≠ .routeAnnounce := by
    intro o ho hkind
    have hnot := (List.mem_filter.mp ho).2
    rw [isAnnouncement, hkind] at hnot
    cases hnot
  have hsending := (hwired.task t ht).toSending hrest
  rw [← hsame.solvers] at hsending
  obtain rfl := congrArg Prod.fst (Option.some.inj hm)
  exact ⟨_, hreach.step (.exchange (.other (hsame.trans ⟨rfl, rfl⟩))), hoffer.setTask hsending⟩

theorem Backed.takeUp (h : Backed n sent sources w) (ht : t ∈ n.tasks)
    (hp : ∀ {a b}, w[t.endpoint.rx]? = some (a, b) → p.kind = .routeAnnounce → ⟨a, b, p⟩ ∈ sent)
    (hm : n.takeUp depth i t p = some (m, es)) : ∃ sent', Backed m sent' sources w := by
  have hplaced := h.wired.task t ht
  unfold Network.takeUp at hm
  split at hm
  · split at hm
    · rename_i source _ reply hreply
      cases hm
      refine ⟨sent, h.setTask (hplaced.toSending ?_)⟩
      intro o ho hkind
      rw [List.mem_singleton.mp ho] at hkind
      unfold Source.answer at hreply
      split at hreply
      · cases hreply
      · split at hreply
        · cases hreply
          cases hkind
        · cases hreply
          cases hkind
    · cases hm
      exact ⟨sent, h⟩
  · split at hm
    · cases hm
      exact ⟨sent, h.finish hplaced _⟩
    · cases hm
      exact ⟨sent, h⟩
  · exact h.serve ht hp hm

theorem Backed.idle (h : Backed n sent sources w) (ht : t.Placed n.solvers w) {since : Nat}
    (hm : n.idle i t since = some (m, es)) : ∃ sent', Backed m sent' sources w := by
  unfold Network.idle at hm
  split at hm
  · rename_i k last hworker
    obtain ⟨s, hs, hm⟩ := Option.bind_eq_some_iff.mp hm
    have hs : n.solvers[k]? = some s := by
      rw [solverOf, hworker] at hs
      exact hs
    split at hm
    · obtain rfl := congrArg Prod.fst (Option.some.inj hm)
      exact h.refresh ht hworker hs rfl n.now
    · cases hm
  · obtain ⟨m', hm', he⟩ := Option.map_eq_some_iff.mp hm
    cases he
    exact ⟨sent, h.giveUp ht hm'⟩

theorem Backed.listen (h : Backed n sent sources w) (ht : t ∈ n.tasks) {since : Nat}
    (hm : n.listen depth i t since = some (m, es)) : ∃ sent', Backed m sent' sources w := by
  unfold Network.listen at hm
  dsimp only at hm
  split at hm
  · rename_i p ch htake
    obtain ⟨⟨m', es'⟩, htakeUp, he⟩ := Option.map_eq_some_iff.mp hm
    cases he
    have hqueue := queue_take htake
    have hset : Backed (n.setChannel t.endpoint.rx ch) sent sources w := by
      refine h.setChannel ?_
      intro q hq
      rw [hqueue]
      exact .inl (List.mem_cons_of_mem _ hq)
    refine hset.takeUp ht ?_ htakeUp
    intro a b hw hkind
    exact h.wired.carried hw (hqueue ▸ List.mem_cons_self ..) hkind
  · exact h.idle (h.wired.task t ht) hm
  · cases hm
    exact ⟨sent, h.finish (h.wired.task t ht) _⟩

theorem Backed.step (h : Backed n sent sources w) (hm : n.step depth i = some (m, es)) :
    ∃ sent', Backed m sent' sources w := by
  unfold Network.step at hm
  split at hm
  · cases hm
  · rename_i t hget
    have ht : t ∈ n.tasks := List.mem_of_getElem? hget
    have hplaced := h.wired.task t ht
    split at hm
    · exact h.listen ht hm
    · rename_i rest hphase
      exact h.push hplaced (hplaced.sending hphase) hm
    · cases hm

/-! ## Runs -/

theorem Backed.attachSource (h : Backed n sent sources w) (a source : NodeId) (key : String) :
    ∃ sent' sources' w', Backed (n.attachSource a source key).network sent' sources' w' := by
  cases hresult : (n.attachSource a source key).result with
  | error err =>
    refine ⟨sent, sources, _, h.reach.step (.refuseSource hresult), h.wired.attachSource h.reach.named (fun _ hq => hq) ?_⟩
    intro far s hok
    rw [hresult] at hok
    cases hok
  | ok far =>
    refine ⟨_, _, _, h.reach.step (.attachSource hresult), h.wired.attachSource h.reach.named (List.subset_append_left ..) ?_⟩
    intro far s _ hs b hb
    rw [hs]
    exact List.mem_append_right _ (List.mem_map.mpr ⟨b, hb, rfl⟩)

/-- Tasks of sources and requesters concern no solver, and announce nothing. -/
theorem Backed.addTask (h : Backed n sent sources w) {worker : Worker} {e : Endpoint} {phase : Phase}
    (hworker : worker.solver? = none) (hphase : ∀ {rest}, phase = .sending rest → ∀ o ∈ rest, o.packet.kind ≠ .routeAnnounce) :
    Backed (n.addTask worker e phase) sent sources w := by
  refine h.same ⟨rfl, rfl⟩ (h.wired.addTasks ?_)
  intro t ht
  rw [List.mem_singleton.mp ht]
  refine ⟨?_, hphase⟩
  intro k hk
  rw [hworker] at hk
  cases hk

theorem Runs.backed (h : n.Runs) : ∃ sent sources w, Backed n sent sources w := by
  induction h with
  | empty => exact ⟨[], [], [], .init, wired_empty⟩
  | addSolver _ ha ih =>
    obtain ⟨sent, sources, w, hb⟩ := ih
    exact ⟨sent, sources, w, hb.reach.step (.addSolver ha), hb.wired.addSolver ha _⟩
  | connect _ ih =>
    obtain ⟨sent, sources, w, hb⟩ := ih
    exact ⟨sent, sources, _, hb.reach.step .connect, hb.wired.connect hb.reach.named _ _⟩
  | attachSource _ ih =>
    obtain ⟨sent, sources, w, hb⟩ := ih
    exact hb.attachSource _ _ _
  | attachRequest _ ih =>
    obtain ⟨sent, sources, w, hb⟩ := ih
    exact ⟨sent, sources, _, hb.reach.step .attachRequest, hb.wired.attach hb.reach.named _ _ _ _⟩
  | addRule _ ih =>
    obtain ⟨sent, sources, w, hb⟩ := ih
    exact ⟨sent, sources, w, hb.reach.step .addRule, hb.wired.addRule _ _⟩
  | start _ ih =>
    obtain ⟨sent, sources, w, hb⟩ := ih
    exact ⟨sent, sources, w, hb.reach.step .start, hb.wired.start _⟩
  | startSource _ ih =>
    obtain ⟨sent, sources, w, hb⟩ := ih
    exact ⟨sent, sources, w, hb.addTask rfl fun he => by cases he⟩
  | startRequest _ ih =>
    obtain ⟨sent, sources, w, hb⟩ := ih
    refine ⟨sent, sources, w, hb.addTask rfl ?_⟩
    intro rest he o ho hkind
    cases he
    rw [List.mem_singleton.mp ho] at hkind
    cases hkind
  | step _ hm ih =>
    obtain ⟨sent, sources, w, hb⟩ := ih
    obtain ⟨sent', hb'⟩ := hb.step hm
    exact ⟨sent', sources, w, hb'⟩
  | wait _ ih =>
    obtain ⟨sent, sources, w, hb⟩ := ih
    exact ⟨sent, sources, w, hb.same ⟨rfl, rfl⟩ (hb.wired.queues rfl rfl rfl fun _ hp _ => .inl hp)⟩

/-- A network that runs is the network of a fabric that comes about. -/
theorem Runs.reach (h : n.Runs) : ∃ f, Reach f ∧ f.network = n := by
  obtain ⟨sent, sources, w, hb⟩ := h.backed
  exact ⟨_, hb.reach, rfl⟩

/-- Whatever the clock lets the tasks do is a run. -/
theorem Runs.runTo {stop : Network → Bool} {target moves : Nat} {turns : List TaskId} {log log' : List Event}
    (h : n.Runs) (hm : Network.runTo depth stop target moves turns n log = some (m, log')) : m.Runs :=
  runTo_keeps (fun hn hstep => Runs.step hn hstep) (fun hn _ _ => hn.wait) h hm

end QueryNet.Network
