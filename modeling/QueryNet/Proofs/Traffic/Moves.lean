/-
  QueryNet.Proofs.Traffic.Moves — what a move of a task can be.

  A move takes a packet from the task's own channel, or puts one into another, or
  changes only how the task waits or ends; there is one case of `Move` for each way,
  with the conditions under which a task goes it. A move also says which announcements
  the task's solver offers in it: those that come of a packet, or its routes when it
  refreshes a peer.

  Proved: each step of a task is one of these moves (`step_move`). What is kept by
  moves is kept by running networks; no later proof opens `Network.step` again.
-/

import QueryNet.Network.Run

namespace QueryNet

theorem set_of_getElem? {α : Type} {l : List α} {i : Nat} {a : α} (h : l[i]? = some a) : l.set i a = l := by
  obtain ⟨hlt, rfl⟩ := List.getElem?_eq_some_iff.mp h
  exact List.set_getElem_self hlt

def Task.toSend (t : Task) : List Outbound :=
  match t.phase with
  | .sending rest => rest
  | _ => []

namespace Network

def handled (n : Network) (t : Task) (ch : Channel) (k : SolverId) (turn : Turn) : Network :=
  (n.setChannel t.endpoint.rx ch).setSolver k turn.solver

/-- The ways of task `t`, the `i`-th, with the announcements that are offered and what happens. -/
inductive Move (depth : Nat) (n : Network) (i : TaskId) (t : Task) : List Outbound → List Event → Network → Prop
  /-- A solver's task takes a packet and handles it. -/
  | serve {since : Nat} {p : Packet} {ch : Channel} {k : SolverId} {s : Solver} {turn : Turn} :
      t.phase = .listening since → (n.channel t.endpoint.rx).take = .packet p ch → t.worker.solver? = some k →
      n.solvers[k]? = some s → s.handle depth t.endpoint.peer p = some turn →
      Move depth n i t (turn.out.filter isAnnouncement)
        (.taken t.endpoint.rx p :: (turn.notes.map .note ++ .produced k turn.out ::
          ((n.handled t ch k turn).offer turn.solver (turn.out.filter isAnnouncement)).2))
        (((n.handled t ch k turn).offer turn.solver (turn.out.filter isAnnouncement)).1.setTask i
          { t with phase := .sending (turn.out.filter (!isAnnouncement ·)) })
  /-- A source takes a request, and has the reply to send. -/
  | reply {since : Nat} {p reply : Packet} {ch : Channel} {source : Source} :
      t.phase = .listening since → (n.channel t.endpoint.rx).take = .packet p ch → t.worker = .source source →
      source.answer p = some reply →
      Move depth n i t [] [.taken t.endpoint.rx p]
        ((n.setChannel t.endpoint.rx ch).setTask i { t with phase := .sending [⟨t.endpoint.peer, reply⟩] })
  /-- A source or a requester takes a packet that is nothing to it. -/
  | ignore {since : Nat} {p : Packet} {ch : Channel} :
      t.phase = .listening since → (n.channel t.endpoint.rx).take = .packet p ch → t.worker.solver? = none →
      Move depth n i t [] [.taken t.endpoint.rx p] (n.setChannel t.endpoint.rx ch)
  /-- A requester takes the answer. -/
  | answered {since : Nat} {p : Packet} {ch : Channel} {a : Answer} :
      t.phase = .listening since → (n.channel t.endpoint.rx).take = .packet p ch → t.worker.solver? = none →
      Move depth n i t [] [.taken t.endpoint.rx p] ((n.setChannel t.endpoint.rx ch).finish i t (.answered a))
  /-- No packet has come for the solver's interval. -/
  | idle {since last : Nat} {k : SolverId} {s : Solver} :
      t.phase = .listening since → (n.channel t.endpoint.rx).take = .empty → t.worker = .peer k last →
      n.solvers[k]? = some s → since + s.config.interval ≤ n.now →
      Move depth n i t (s.advertisement t.endpoint.peer) (n.refresh s t).2
        ((n.refresh s t).1.setTask i (refreshed n.now k t))
  /-- The link is closed. -/
  | close {since : Nat} : t.phase = .listening since → (n.channel t.endpoint.rx).take = .closed →
      Move depth n i t [] [] (n.finish i t .closed)
  /-- A requester's time has come while it waits for an answer. -/
  | late {since d : Nat} {request : Request} :
      t.phase = .listening since → t.worker = .request request (some d) → d ≤ n.now →
      Move depth n i t [] [] (n.finish i t .late)
  /-- Everything is sent. -/
  | rest : t.phase = .sending [] → Move depth n i t [] [] (n.setTask i { t with phase := .listening n.now })
  /-- Everything is sent, and the peer's routes are due. -/
  | renew {last : Nat} {k : SolverId} {s : Solver} :
      t.phase = .sending [] → t.worker = .peer k last → n.solvers[k]? = some s → last + s.config.interval ≤ n.now →
      Move depth n i t (s.advertisement t.endpoint.peer) (n.refresh s t).2
        ((n.refresh s t).1.setTask i (refreshed (n.refresh s t).1.now k t))
  /-- The first packet is queued. -/
  | send {o : Outbound} {out : List Outbound} {c : ChannelId} {ch : Channel} :
      t.phase = .sending (o :: out) → n.channelTo t o.recipient = some c →
      (n.channel c).attempt i o.packet = .queued ch → Move depth n i t [] (.queued c o.packet :: n.sentNote t o.packet)
        ((n.setChannel c ch).setTask i { t with phase := .sending out })
  /-- The first packet is for nobody. -/
  | skip {o : Outbound} {out : List Outbound} :
      t.phase = .sending (o :: out) → n.channelTo t o.recipient = none →
      Move depth n i t [] [] (n.setTask i { t with phase := .sending out })
  /-- The task begins to wait for room. -/
  | enlist {o : Outbound} {out : List Outbound} {c : ChannelId} {ch : Channel} :
      t.phase = .sending (o :: out) → n.channelTo t o.recipient = some c →
      (n.channel c).attempt i o.packet = .enlisted ch → Move depth n i t [] [] (n.setChannel c ch)
  /-- A requester's time has come while it waits for room. -/
  | withdraw {o : Outbound} {out : List Outbound} {c : ChannelId} {d : Nat} {request : Request} :
      t.phase = .sending (o :: out) → n.channelTo t o.recipient = some c → (n.channel c).attempt i o.packet = .blocked →
      t.worker = .request request (some d) → d ≤ n.now →
      Move depth n i t [] [] ((n.finish i t .late).onChannel c (·.withdraw i))
  /-- The first packet of a solver's task is for a link that is closed. -/
  | lose {o : Outbound} {out : List Outbound} {c : ChannelId} {k : SolverId} :
      t.phase = .sending (o :: out) → n.channelTo t o.recipient = some c → (n.channel c).attempt i o.packet = .closed →
      t.worker.solver? = some k → Move depth n i t [] [] (n.setTask i { t with phase := .sending out })
  /-- A source or a requester cannot send because its link is closed. -/
  | hangUp {o : Outbound} {out : List Outbound} {c : ChannelId} :
      t.phase = .sending (o :: out) → n.channelTo t o.recipient = some c → (n.channel c).attempt i o.packet = .closed →
      t.worker.solver? = none → Move depth n i t [] [] (n.finish i t .closed)

variable {depth : Nat} {n m : Network} {i : TaskId} {t : Task} {es : List Event}

theorem giveUp_eq_some (h : n.giveUp i t = some m) :
    ∃ request d, t.worker = .request request (some d) ∧ d ≤ n.now ∧ m = n.finish i t .late := by
  unfold giveUp at h
  split at h
  · rename_i request d hworker
    split at h
    · rename_i hd
      cases h
      exact ⟨request, d, hworker, hd, rfl⟩
    · cases h
  · cases h

theorem push_move {out : List Outbound} (hphase : t.phase = .sending out) (h : n.push i t out = some (m, es)) :
    ∃ offered, Move depth n i t offered es m := by
  cases out with
  | nil =>
    have h : n.relisten i t = (m, es) := Option.some.inj h
    unfold relisten at h
    split at h
    · rename_i k last s hworker hs
      rw [solverOf, hworker] at hs
      split at h
      · rename_i hdue
        cases h
        exact ⟨_, .renew hphase hworker hs hdue⟩
      · cases h
        exact ⟨[], .rest hphase⟩
    · cases h
      exact ⟨[], .rest hphase⟩
  | cons o out =>
    simp only [push] at h
    split at h
    · rename_i hnone
      cases h
      exact ⟨[], .skip hphase hnone⟩
    · rename_i c hc
      split at h
      · rename_i ch hqueued
        cases h
        exact ⟨[], .send hphase hc hqueued⟩
      · rename_i ch henlisted
        cases h
        exact ⟨[], .enlist hphase hc henlisted⟩
      · rename_i hblocked
        obtain ⟨m', hgone, he⟩ := Option.map_eq_some_iff.mp h
        obtain ⟨request, d, hworker, hd, rfl⟩ := giveUp_eq_some hgone
        cases he
        exact ⟨[], .withdraw hphase hc hblocked hworker hd⟩
      · rename_i hclosed
        cases h
        unfold loseLink
        split
        · rename_i k last hworker
          exact ⟨[], .lose hphase hc hclosed (by rw [hworker]; rfl)⟩
        · rename_i k hworker
          exact ⟨[], .lose hphase hc hclosed (by rw [hworker]; rfl)⟩
        · rename_i hpeer hleaf
          refine ⟨[], .hangUp hphase hc hclosed ?_⟩
          cases hworker : t.worker with
          | peer k last => exact absurd hworker (hpeer k last)
          | leaf k => exact absurd hworker (hleaf k)
          | source source => rfl
          | request request d => rfl

theorem serve_move {since : Nat} {p : Packet} {ch : Channel} (hphase : t.phase = .listening since)
    (htake : (n.channel t.endpoint.rx).take = .packet p ch)
    (h : (n.setChannel t.endpoint.rx ch).serve depth i t p = some (m, es)) :
    ∃ offered, Move depth n i t offered (.taken t.endpoint.rx p :: es) m := by
  obtain ⟨k, hk, h⟩ := Option.bind_eq_some_iff.mp h
  obtain ⟨s, hs, h⟩ := Option.bind_eq_some_iff.mp h
  obtain ⟨turn, hturn, h⟩ := Option.bind_eq_some_iff.mp h
  cases h
  exact ⟨_, .serve hphase htake hk hs hturn⟩

theorem takeUp_move {since : Nat} {p : Packet} {ch : Channel} (hphase : t.phase = .listening since)
    (htake : (n.channel t.endpoint.rx).take = .packet p ch)
    (h : (n.setChannel t.endpoint.rx ch).takeUp depth i t p = some (m, es)) :
    ∃ offered, Move depth n i t offered (.taken t.endpoint.rx p :: es) m := by
  unfold takeUp at h
  split at h
  · rename_i source hworker
    have hleaf : t.worker.solver? = none := by rw [hworker]; rfl
    split at h
    · rename_i reply hreply
      cases h
      exact ⟨[], .reply hphase htake hworker hreply⟩
    · cases h
      exact ⟨[], .ignore hphase htake hleaf⟩
  · rename_i request d hworker
    have hleaf : t.worker.solver? = none := by rw [hworker]; rfl
    split at h
    · cases h
      exact ⟨[], .answered hphase htake hleaf⟩
    · cases h
      exact ⟨[], .ignore hphase htake hleaf⟩
  · exact serve_move hphase htake h

theorem idle_move {since : Nat} (hphase : t.phase = .listening since) (hempty : (n.channel t.endpoint.rx).take = .empty)
    (h : n.idle i t since = some (m, es)) : ∃ offered, Move depth n i t offered es m := by
  unfold idle at h
  split at h
  · rename_i k last hworker
    obtain ⟨s, hs, h⟩ := Option.bind_eq_some_iff.mp h
    rw [solverOf, hworker] at hs
    split at h
    · rename_i hdue
      cases h
      exact ⟨_, .idle hphase hempty hworker hs hdue⟩
    · cases h
  · obtain ⟨m', hgone, he⟩ := Option.map_eq_some_iff.mp h
    obtain ⟨request, d, hworker, hd, rfl⟩ := giveUp_eq_some hgone
    cases he
    exact ⟨[], .late hphase hworker hd⟩

/-- Each step of a task is a move. -/
theorem step_move (h : n.step depth i = some (m, es)) :
    ∃ t offered, n.tasks[i]? = some t ∧ Move depth n i t offered es m := by
  unfold step at h
  split at h
  · cases h
  · rename_i t ht
    split at h
    · rename_i since hphase
      unfold listen at h
      dsimp only at h
      split at h
      · rename_i p ch htake
        obtain ⟨⟨m', es'⟩, htaken, he⟩ := Option.map_eq_some_iff.mp h
        cases he
        obtain ⟨offered, hmove⟩ := takeUp_move hphase htake htaken
        exact ⟨t, offered, ht, hmove⟩
      · rename_i hempty
        obtain ⟨offered, hmove⟩ := idle_move hphase hempty h
        exact ⟨t, offered, ht, hmove⟩
      · rename_i hclosed
        cases h
        exact ⟨t, [], ht, .close hphase hclosed⟩
    · rename_i out hphase
      obtain ⟨offered, hmove⟩ := push_move hphase h
      exact ⟨t, offered, ht, hmove⟩
    · cases h

/-- What steps and the clock keep holds after a run. -/
theorem runTo_keeps {I : Network → Prop} (hstep : ∀ {n m i es}, I n → n.step depth i = some (m, es) → I m)
    (hwait : ∀ {n : Network}, I n → ∀ now, n.now ≤ now → I { n with now := now })
    {stop : Network → Bool} {target moves : Nat} {turns : List TaskId} {log log' : List Event} (h : I n)
    (hm : n.runTo depth stop target moves turns log = some (m, log')) : I m := by
  induction moves generalizing turns n log with
  | zero => cases hm
  | succ moves ih =>
    cases turns with
    | cons i turns =>
      rw [runTo] at hm
      split at hm
      · rename_i n' es hmoved
        exact ih (hstep h hmoved) hm
      · exact ih h hm
    | nil =>
      rw [runTo] at hm
      split at hm
      · exact ih h hm
      · split at hm
        · cases hm
          exact h
        · split at hm
          · split at hm
            · exact ih (hwait h _ (Nat.le_max_left ..)) hm
            · cases hm
              exact hwait h _ (Nat.le_max_left ..)
          · cases hm
            exact hwait h _ (Nat.le_max_left ..)

end Network

end QueryNet
