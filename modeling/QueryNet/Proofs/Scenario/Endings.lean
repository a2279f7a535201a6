/-
  QueryNet.Proofs.Scenario.Endings — how requesters end.

  A requester that has a time at which it gives up can always be brought to its end: once
  its time has come it can move until it ends, and no other task needs to (`request_ends`).
  Once it has ended it stays as it is, and so do the outcomes once all have (`AllEnded.next`).

  An execution that goes on forever is fair if time goes on in it and every requester gets
  turns again and again (`Fair`): in its turn a task moves until it has to wait. What the
  tasks of solvers do, and for how long, does not matter. A requester's turn ends, since
  each of its moves brings it nearer to its end (`HasTurn.rests`), and a requester that
  rests when its time has come has ended.

  Proved: in a fair execution one time all requesters have ended, and the outcomes are
  final (`Fair.settles`); and whatever has happened, a fair execution can go on from there
  (`exists_fair`).
-/

import QueryNet.Proofs.Scenario.Execution

namespace QueryNet

def Task.outcome? (t : Task) : Option RequestOutcome :=
  t.request?.map fun r => ⟨r.id, r.query.canonical, Outcome.ofTask t⟩

namespace Network

open Scenario

variable {n m : Network} {depth : Nat} {i : TaskId} {t t' : Task} {es : List Event} {offered : List Outbound}
  {r : Request} {d : Nat} {c : ChannelId} {ch : Channel}

/-- What became of all requests, in the order in which the requesters were started. -/
def outcomes (n : Network) : List RequestOutcome := n.tasks.filterMap Task.outcome?

def AllEnded (n : Network) : Prop := ∀ t ∈ n.tasks, t.request? ≠ none → hasEnded t = true

instance (n : Network) : Decidable n.AllEnded := inferInstanceAs (Decidable (∀ t ∈ n.tasks, _ → _))

theorem hasEnded_iff : hasEnded t = true ↔ ∃ how, t.phase = .ended how := by
  unfold hasEnded
  cases t.phase with
  | listening since => simp
  | sending rest => simp
  | ended how => simp

/-- A task goes on as a requester if it is one. -/
theorem Next.requesters (h : n.Next m) : m.tasks.map Task.request? = n.tasks.map Task.request? := by
  cases h with
  | move hm =>
    obtain ⟨t, offered, ht, hmove⟩ := step_move hm
    obtain ⟨t', htasks, hpasses⟩ := hmove.passes ht
    rw [htasks, List.map_set, hpasses.request?]
    exact set_of_getElem? (by rw [List.getElem?_map, ht]; rfl)
  | wait => rfl

/-- Where there are the same requesters, each has its own place. -/
theorem requester_at (h : m.tasks.map Task.request? = n.tasks.map Task.request?) (ht : m.tasks[i]? = some t) :
    ∃ u, n.tasks[i]? = some u ∧ u.request? = t.request? := by
  have hi : (m.tasks.map Task.request?)[i]? = some t.request? := by rw [List.getElem?_map, ht]; rfl
  rw [h, List.getElem?_map] at hi
  exact Option.map_eq_some_iff.mp hi

theorem Next.request (h : n.Next m) (ht : n.tasks[i]? = some t) (hworker : t.worker = .request r (some d)) :
    ∃ t', m.tasks[i]? = some t' ∧ t'.worker = .request r (some d) := by
  cases h with
  | move hm =>
    obtain ⟨u, offered, hu, hmove⟩ := step_move hm
    obtain ⟨u', htasks, hpasses⟩ := hmove.passes hu
    rename_i j _
    by_cases hj : j = i
    · subst hj
      cases ht.symm.trans hu
      refine ⟨u', ?_, (hpasses.leaf (by rw [hworker]; rfl)).trans hworker⟩
      rw [htasks]
      exact List.getElem?_set_self (List.getElem?_eq_some_iff.mp ht).1
    · refine ⟨t, ?_, hworker⟩
      rw [htasks, List.getElem?_set_ne hj]
      exact ht
  | wait => exact ⟨t, ht, hworker⟩

/-- A task that has ended stays as it is. -/
theorem Next.ended (h : n.Next m) (ht : n.tasks[i]? = some t) (hend : hasEnded t = true) : m.tasks[i]? = some t := by
  cases h with
  | move hm =>
    obtain ⟨u, offered, hu, hmove⟩ := step_move hm
    obtain ⟨u', htasks, hpasses⟩ := hmove.passes hu
    obtain ⟨how, hphase⟩ := hasEnded_iff.mp hend
    rw [htasks]
    refine (List.getElem?_set_ne fun hj => ?_).trans ht
    subst hj
    cases ht.symm.trans hu
    exact hpasses.active how hphase
  | wait => exact ht

/-- Once every requester has ended no outcome changes. -/
theorem AllEnded.next (h : n.AllEnded) (hm : n.Next m) : m.AllEnded ∧ m.outcomes = n.outcomes := by
  cases hm with
  | wait => exact ⟨h, rfl⟩
  | move hm =>
    obtain ⟨t, offered, ht, hmove⟩ := step_move hm
    obtain ⟨t', htasks, hpasses⟩ := hmove.passes ht
    have hnone : t.request? = none := by
      by_contra hsome
      obtain ⟨how, hphase⟩ := hasEnded_iff.mp (h t (List.mem_of_getElem? ht) hsome)
      exact hpasses.active how hphase
    have hnone' : t'.request? = none := hpasses.request?.trans hnone
    constructor
    · intro u hu hasks
      rw [htasks] at hu
      rcases List.mem_or_eq_of_mem_set hu with hold | rfl
      · exact h u hold hasks
      · exact absurd hnone' hasks
    · have hsame : t'.outcome? = t.outcome? := by simp [Task.outcome?, hnone, hnone']
      rw [outcomes, htasks, filterMap_set ht hsame]
      rfl

/-! ## Requesters that rest -/

def AtRest (n : Network) (i : TaskId) : Prop := ∀ depth, n.step depth i = none

theorem atRest_of_ended (ht : n.tasks[i]? = some t) (hend : hasEnded t = true) : n.AtRest i := by
  obtain ⟨how, hphase⟩ := hasEnded_iff.mp hend
  intro depth
  simp [step, ht, hphase]

/-- A requester whose time has come and that is at rest has ended. -/
theorem ended_of_rest (ht : n.tasks[i]? = some t) (hworker : t.worker = .request r (some d)) (hd : d ≤ n.now)
    (hrest : n.AtRest i) : hasEnded t = true := by
  have hrest := hrest 0
  rw [hasEnded_iff]
  have hleaf : t.worker.solver? = none := by rw [hworker]; rfl
  have hgone : n.giveUp i t ≠ none := by simp [giveUp, hworker, hd]
  cases hphase : t.phase with
  | ended how => exact ⟨how, rfl⟩
  | listening since =>
    exfalso
    simp only [step, ht, hphase, listen] at hrest
    split at hrest
    · rename_i p ch htake
      simp only [takeUp, hworker] at hrest
      cases hanswer : Answer.ofPacket p with
      | none => simp [hanswer] at hrest
      | some a => simp [hanswer] at hrest
    · simp only [idle, hworker, Option.map_eq_none_iff] at hrest
      exact hgone hrest
    · cases hrest
  | sending rest =>
    exfalso
    cases rest with
    | nil => simp [step, ht, hphase, push] at hrest
    | cons o rest =>
      simp only [step, ht, hphase, push, channelTo_leaf hleaf] at hrest
      split at hrest
      · cases hrest
      · cases hrest
      · exact hgone (Option.map_eq_none_iff.mp hrest)
      · cases hrest

/-! ## Requesters that move -/

def Moves (n : Network) (i : TaskId) (m : Network) : Prop := ∃ depth es, n.step depth i = some (m, es)

theorem Moves.next (h : n.Moves i m) : n.Next m := by
  obtain ⟨depth, es, hm⟩ := h
  exact .move hm

theorem moves_of_not_atRest (h : ¬ n.AtRest i) : ∃ m, n.Moves i m := by
  obtain ⟨depth, hdepth⟩ := not_forall.mp h
  obtain ⟨⟨m, es⟩, hm⟩ := Option.ne_none_iff_exists'.mp hdepth
  exact ⟨m, depth, es, hm⟩

def distance (n : Network) (i : TaskId) (t : Task) : Nat :=
  match t.phase with
  | .ended _ => 0
  | .listening _ => (n.channel t.endpoint.rx).queue.length + 1
  | .sending rest =>
    (n.channel t.endpoint.rx).queue.length + 3 * rest.length +
      if i ∈ (n.channel t.endpoint.tx).waiting ∨ i ∈ (n.channel t.endpoint.tx).promised then 2 else 3

theorem distance_pos (h : hasEnded t = false) : 0 < n.distance i t := by
  unfold distance
  cases hphase : t.phase with
  | ended how => simp [hasEnded, hphase] at h
  | listening since => exact Nat.succ_pos _
  | sending rest =>
    dsimp only
    split
    · omega
    · omega

theorem enlists {ch ch' : Channel} {p : Packet} (h : ch.attempt i p = .enlisted ch') :
    ¬ (i ∈ ch.waiting ∨ i ∈ ch.promised) := by
  unfold Channel.attempt at h
  split at h
  · cases h
  · split at h
    · cases h
    · rename_i hpromised
      split at h
      · cases h
      · rename_i hwaiting
        exact fun hin => hin.elim hwaiting hpromised

/-- A packet that is sent is one more on a channel, at most. -/
theorem queue_length_send {p : Packet} (h : (n.channel c).attempt i p = .queued ch) (e : ChannelId) :
    ((n.setChannel c ch).channel e).queue.length ≤ (n.channel e).queue.length + 1 := by
  obtain ⟨hheld, hcarries⟩ := Channel.attempt_queued h
  have horder := congrArg List.length (hcarries.order ((Channel.ends_attempt h).2.trans hheld))
  simp only [List.length_append, List.length_singleton, List.nil_append] at horder
  rw [channel_setChannel (lt_of_receiverHeld hheld)]
  by_cases he : e = c
  · rw [if_pos he, he]
    omega
  · rw [if_neg he]
    omega

theorem queue_enlist {p : Packet} (h : (n.channel c).attempt i p = .enlisted ch) (e : ChannelId) :
    ((n.setChannel c ch).channel e).queue = (n.channel e).queue := by
  obtain ⟨hheld, rfl⟩ := Channel.attempt_enlisted h
  rw [channel_setChannel (lt_of_receiverHeld hheld)]
  by_cases he : e = c
  · rw [if_pos he, he]
  · rw [if_neg he]

/-- Each move of its own brings a requester nearer to its end. -/
theorem Move.nearer (h : Move depth n i t offered es m) (ht : n.tasks[i]? = some t)
    (hworker : t.worker = .request r (some d)) (hgoing : hasEnded t = false) :
    ∃ t', m.tasks[i]? = some t' ∧ m.distance i t' < n.distance i t := by
  have hleaf : t.worker.solver? = none := by rw [hworker]; rfl
  have hset : ∀ {u : Task}, m.tasks = n.tasks.set i u → m.tasks[i]? = some u := by
    intro u htasks
    rw [htasks]
    exact List.getElem?_set_self (List.getElem?_eq_some_iff.mp ht).1
  have hends : ∀ {how : Ending}, m.tasks = n.tasks.set i { t with phase := .ended how } →
      ∃ t', m.tasks[i]? = some t' ∧ m.distance i t' < n.distance i t :=
    fun htasks => ⟨_, hset htasks, distance_pos hgoing⟩
  cases h with
  | serve _ _ hk => cases hleaf.symm.trans hk
  | reply _ _ hsource => cases hworker.symm.trans hsource
  | idle _ _ hpeer => cases hworker.symm.trans hpeer
  | renew _ hpeer => cases hworker.symm.trans hpeer
  | lose _ _ _ hk => cases hleaf.symm.trans hk
  | skip _ hnone => cases (channelTo_leaf hleaf _).symm.trans hnone
  | answered => exact hends (finish_tasks _ _ _ _)
  | close => exact hends (finish_tasks _ _ _ _)
  | late => exact hends (finish_tasks _ _ _ _)
  | withdraw => exact hends (finish_tasks n i t .late)
  | hangUp => exact hends (finish_tasks _ _ _ _)
  | ignore hphase htake =>
    refine ⟨t, ht, ?_⟩
    have hqueue := congrArg List.length (queue_take htake)
    simp only [distance, hphase, channel_setChannel (lt_of_take htake), if_true]
    rw [List.length_cons] at hqueue
    omega
  | rest hphase =>
    refine ⟨_, hset rfl, ?_⟩
    simp only [distance, hphase]
    show (n.channel t.endpoint.rx).queue.length + 1 < _
    split
    · omega
    · omega
  | @send o rest c ch hphase hc hqueued =>
    -- if it sends to itself, its own queue grows by one
    have hqueue := queue_length_send hqueued t.endpoint.rx
    refine ⟨_, hset rfl, ?_⟩
    show ((n.setChannel c ch).channel t.endpoint.rx).queue.length + 3 * rest.length + (if _ then 2 else 3) < _
    simp only [distance, hphase, List.length_cons]
    split
    · split
      · omega
      · omega
    · split
      · omega
      · omega
  | @enlist o rest c ch hphase hc henlisted =>
    obtain rfl : t.endpoint.tx = c := Option.some.inj ((channelTo_leaf hleaf _).symm.trans hc)
    have hafter : i ∈ ((n.setChannel t.endpoint.tx ch).channel t.endpoint.tx).waiting := by
      obtain ⟨hheld, he⟩ := Channel.attempt_enlisted henlisted
      rw [channel_setChannel (lt_of_receiverHeld hheld), if_pos rfl, he]
      exact List.mem_append_right _ (List.mem_singleton_self i)
    refine ⟨t, ht, ?_⟩
    simp only [distance, hphase, queue_enlist henlisted]
    rw [if_pos (.inl hafter), if_neg (enlists henlisted)]
    omega

theorem Moves.nearer (h : n.Moves i m) (ht : n.tasks[i]? = some t) (hworker : t.worker = .request r (some d)) :
    ∃ t', m.tasks[i]? = some t' ∧ m.distance i t' < n.distance i t := by
  obtain ⟨depth, es, hm⟩ := h
  have hgoing : hasEnded t = false := by
    rw [Bool.eq_false_iff]
    intro hend
    cases (atRest_of_ended ht hend depth).symm.trans hm
  obtain ⟨u, offered, hu, hmove⟩ := step_move hm
  cases ht.symm.trans hu
  exact hmove.nearer ht hworker hgoing

abbrev Later : Network → Network → Prop := Relation.ReflTransGen Next

theorem Later.ended (h : n.Later m) (ht : n.tasks[i]? = some t) (hend : hasEnded t = true) : m.tasks[i]? = some t := by
  induction h with
  | refl => exact ht
  | tail _ hnext ih => exact hnext.ended ih hend

theorem Later.requesters (h : n.Later m) : m.tasks.map Task.request? = n.tasks.map Task.request? := by
  induction h with
  | refl => rfl
  | tail _ hnext ih => exact hnext.requesters.trans ih

theorem Later.timed (h : n.Later m) (hn : n.Timed) : m.Timed := by
  induction h with
  | refl => exact hn
  | tail _ hnext ih => exact hnext.timed ih

/-- A requester ends if it is left to move when its time has come. -/
theorem request_ends (ht : n.tasks[i]? = some t) (hworker : t.worker = .request r (some d)) (hd : d ≤ n.now) :
    ∃ m t', n.Later m ∧ m.tasks[i]? = some t' ∧ hasEnded t' = true := by
  induction hk : n.distance i t using Nat.strongRecOn generalizing n t with
  | ind k ih =>
    by_cases hend : hasEnded t = true
    · exact ⟨n, t, .refl, ht, hend⟩
    · obtain ⟨m, hm⟩ := moves_of_not_atRest fun hrest => hend (ended_of_rest ht hworker hd hrest)
      obtain ⟨t', ht', hless⟩ := hm.nearer ht hworker
      obtain ⟨u, hu, hasks⟩ := hm.next.request ht hworker
      cases ht'.symm.trans hu
      obtain ⟨l, v, hlater, hv, hended⟩ := ih _ (hk ▸ hless) ht' hasks (Nat.le_trans hd hm.next.now_le) rfl
      exact ⟨l, v, .head hm.next hlater, hv, hended⟩

/-- A task that is a requester's can be brought to its end: its time comes, and then it moves. -/
theorem task_ends (hn : n.Timed) (i : TaskId) :
    ∃ m, n.Later m ∧ ∀ t, m.tasks[i]? = some t → t.request? ≠ none → hasEnded t = true := by
  by_cases hasks : ∃ t r, n.tasks[i]? = some t ∧ t.request? = some r
  · obtain ⟨t, r, ht, hr⟩ := hasks
    obtain ⟨d, hworker⟩ := Task.request?_eq_some hr
    cases d with
    | none => exact absurd hworker (hn t (List.mem_of_getElem? ht) r)
    | some d =>
      have hwait : n.Next { n with now := max n.now d } := .wait (Nat.le_max_left ..)
      obtain ⟨u, hu, hasks⟩ := hwait.request ht hworker
      obtain ⟨m, v, hm, hv, hend⟩ := request_ends hu hasks (Nat.le_max_right ..)
      refine ⟨m, .head hwait hm, fun v' hv' _ => ?_⟩
      cases hv.symm.trans hv'
      exact hend
  · refine ⟨n, .refl, fun t ht hsome => ?_⟩
    obtain ⟨r, hr⟩ := Option.ne_none_iff_exists'.mp hsome
    exact absurd ⟨t, r, ht, hr⟩ hasks

/-- All requesters can be brought to their ends, one after another. -/
theorem all_end (hn : n.Timed) : ∃ m, n.Later m ∧ m.AllEnded := by
  have hfirst : ∀ bound : Nat, ∃ m, n.Later m ∧
      ∀ i < bound, ∀ t, m.tasks[i]? = some t → t.request? ≠ none → hasEnded t = true := by
    intro bound
    induction bound with
    | zero => exact ⟨n, .refl, fun i hi => absurd hi (Nat.not_lt_zero i)⟩
    | succ bound ih =>
      obtain ⟨m, hm, hended⟩ := ih
      obtain ⟨l, hl, hlast⟩ := task_ends (hm.timed hn) bound
      refine ⟨l, hm.trans hl, fun i hi t ht hasks => ?_⟩
      rcases Nat.lt_succ_iff_lt_or_eq.mp hi with hlt | rfl
      · -- it has ended before, and so it is as it was
        obtain ⟨u, hu, hsame⟩ := requester_at hl.requesters ht
        have hend := hended i hlt u hu (hsame ▸ hasks)
        cases (hl.ended hu hend).symm.trans ht
        exact hend
      · exact hlast t ht hasks
  obtain ⟨m, hm, hended⟩ := hfirst n.tasks.length
  refine ⟨m, hm, fun t ht hasks => ?_⟩
  obtain ⟨i, hi⟩ := List.mem_iff_getElem?.mp ht
  obtain ⟨u, hu, -⟩ := requester_at hm.requesters hi
  exact hended i (List.getElem?_eq_some_iff.mp hu).1 t hi hasks

/-! ## Fair executions -/

/-- A task has its turn from `k` on: as long as it alone has moved, it moves on unless it has to wait. -/
def HasTurn (σ : Nat → Network) (i : TaskId) (k : Nat) : Prop :=
  ∀ d, (∀ c < d, (σ (k + c)).Moves i (σ (k + c + 1))) → (σ (k + d)).Moves i (σ (k + d + 1)) ∨ (σ (k + d)).AtRest i

/-- Time goes on, and every requester gets turns again and again. -/
structure Fair (σ : Nat → Network) : Prop where
  next : ∀ k, (σ k).Next (σ (k + 1))
  clock : ∀ time, ∃ k, time ≤ (σ k).now
  turn : ∀ i t, (σ 0).tasks[i]? = some t → t.request? ≠ none → ∀ k, ∃ j ≥ k, HasTurn σ i j

/-- At rest, there is nothing to move in a turn. -/
theorem AtRest.hasTurn {σ : Nat → Network} {k : Nat} (h : (σ k).AtRest i) : HasTurn σ i k := by
  intro d hmoved
  cases d with
  | zero => exact .inr h
  | succ d =>
    obtain ⟨depth, es, hm⟩ := hmoved 0 (Nat.succ_pos d)
    cases (h depth).symm.trans hm

def after (n : Network) (σ : Nat → Network) : Nat → Network
  | 0 => n
  | k + 1 => σ k

variable {σ : Nat → Network}

theorem HasTurn.after {k : Nat} (h : HasTurn σ i k) (n : Network) : HasTurn (n.after σ) i (k + 1) := by
  have hshift : ∀ c, n.after σ (k + 1 + c) = σ (k + c) := by
    intro c
    rw [Nat.add_right_comm]
    rfl
  intro d hmoved
  rw [Nat.add_assoc (k + 1), hshift, hshift]
  refine h d fun c hc => ?_
  have hmove := hmoved c hc
  rwa [Nat.add_assoc (k + 1), hshift, hshift] at hmove

/-- A requester's turn ends: each of its moves brings it nearer to its end. -/
theorem HasTurn.rests {k : Nat} (h : HasTurn σ i k)
    (hasks : ∀ j, ∃ u, (σ j).tasks[i]? = some u ∧ u.worker = .request r (some d)) : ∃ j ≥ k, (σ j).AtRest i := by
  have hrest : ∀ x c u, (∀ y < c, (σ (k + y)).Moves i (σ (k + y + 1))) → (σ (k + c)).tasks[i]? = some u →
      (σ (k + c)).distance i u = x → ∃ j ≥ k, (σ j).AtRest i := by
    intro x
    induction x using Nat.strongRecOn with
    | ind x ih =>
      intro c u hmoved hu hx
      rcases h c hmoved with hmove | hrests
      · obtain ⟨v, hv, hworker⟩ := hasks (k + c)
        cases hu.symm.trans hv
        obtain ⟨v, hv, hless⟩ := hmove.nearer hu hworker
        refine ih _ (hx ▸ hless) (c + 1) v (fun y hy => ?_) hv rfl
        rcases Nat.lt_succ_iff_lt_or_eq.mp hy with hlt | rfl
        · exact hmoved y hlt
        · exact hmove
      · exact ⟨k + c, Nat.le_add_right _ _, hrests⟩
  obtain ⟨u, hu, -⟩ := hasks k
  exact hrest _ 0 u (fun y hy => absurd hy (Nat.not_lt_zero y)) hu rfl

namespace Fair

theorem now_le (h : Fair σ) {k j : Nat} (hle : k ≤ j) : (σ k).now ≤ (σ j).now := by
  induction hle with
  | refl => exact Nat.le_refl _
  | step _ ih => exact Nat.le_trans ih (h.next _).now_le

theorem requesters (h : Fair σ) (k : Nat) :
    (σ k).tasks.map Task.request? = (σ 0).tasks.map Task.request? := by
  induction k with
  | zero => rfl
  | succ k ih => exact (h.next k).requesters.trans ih

theorem request (h : Fair σ) (ht : (σ 0).tasks[i]? = some t) (hworker : t.worker = .request r (some d)) (k : Nat) :
    ∃ t', (σ k).tasks[i]? = some t' ∧ t'.worker = .request r (some d) := by
  induction k with
  | zero => exact ⟨t, ht, hworker⟩
  | succ k ih =>
    obtain ⟨u, hu, hasks⟩ := ih
    exact (h.next k).request hu hasks

theorem ended (h : Fair σ) {k j : Nat} (hle : k ≤ j) (ht : (σ k).tasks[i]? = some t) (hend : hasEnded t = true) :
    (σ j).tasks[i]? = some t := by
  induction hle with
  | refl => exact ht
  | step _ ih => exact (h.next _).ended ih hend

/-- A requester with a time ends: when its turn comes after that time, it moves until it rests. -/
theorem request_ends (h : Fair σ) (ht : (σ 0).tasks[i]? = some t) (hworker : t.worker = .request r (some d)) :
    ∃ k, ∀ j ≥ k, ∀ u, (σ j).tasks[i]? = some u → hasEnded u = true := by
  obtain ⟨k, hk⟩ := h.clock d
  obtain ⟨j', hj', hturn⟩ := h.turn i t ht (by simp [Task.request?, hworker]) k
  obtain ⟨j, hj, hrest⟩ := hturn.rests (h.request ht hworker)
  obtain ⟨u, hu, hasks⟩ := h.request ht hworker j
  have hend : hasEnded u = true := ended_of_rest hu hasks (Nat.le_trans hk (h.now_le (Nat.le_trans hj' hj))) hrest
  refine ⟨j, fun l hl v hv => ?_⟩
  cases (h.ended hl hu hend).symm.trans hv
  exact hend

/-- What comes true of each of finitely many, and stays, comes true of all. -/
theorem eventually_all {P : Nat → Nat → Prop} (hP : ∀ i, ∃ k, ∀ j ≥ k, P i j) (bound : Nat) :
    ∃ k, ∀ j ≥ k, ∀ i < bound, P i j := by
  induction bound with
  | zero => exact ⟨0, fun j _ i hi => absurd hi (Nat.not_lt_zero i)⟩
  | succ bound ih =>
    obtain ⟨k, hk⟩ := ih
    obtain ⟨l, hl⟩ := hP bound
    refine ⟨max k l, fun j hj i hi => ?_⟩
    rcases Nat.lt_succ_iff_lt_or_eq.mp hi with hlt | rfl
    · exact hk j (by omega) i hlt
    · exact hl j (by omega)

/-- In the end every requester has ended, and then the outcomes stay. -/
theorem settles (h : Fair σ) (htimed : (σ 0).Timed) :
    ∃ k, ∀ j ≥ k, (σ j).AllEnded ∧ (σ j).outcomes = (σ k).outcomes := by
  have heach : ∀ i : TaskId, ∃ k, ∀ j ≥ k, ∀ u, (σ j).tasks[i]? = some u → u.request? ≠ none → hasEnded u = true := by
    intro i
    by_cases hasks : ∃ t r, (σ 0).tasks[i]? = some t ∧ t.request? = some r
    · obtain ⟨t, r, ht, hr⟩ := hasks
      obtain ⟨d, hworker⟩ := Task.request?_eq_some hr
      cases d with
      | none => exact absurd hworker (htimed t (List.mem_of_getElem? ht) r)
      | some d =>
        obtain ⟨k, hk⟩ := h.request_ends ht hworker
        exact ⟨k, fun j hj u hu _ => hk j hj u hu⟩
    · -- the task is no requester's, and so it never is
      refine ⟨0, fun j _ u hu hsome => ?_⟩
      obtain ⟨t, ht, hsame⟩ := requester_at (h.requesters j) hu
      obtain ⟨r, hr⟩ := Option.ne_none_iff_exists'.mp hsome
      exact absurd ⟨t, r, ht, hsame.trans hr⟩ hasks
  obtain ⟨k, hk⟩ := eventually_all heach (σ 0).tasks.length
  have hended : ∀ j ≥ k, (σ j).AllEnded := by
    intro j hj u hu hsome
    obtain ⟨i, hi⟩ := List.mem_iff_getElem?.mp hu
    obtain ⟨v, hv, -⟩ := requester_at (h.requesters j) hi
    exact hk j hj i (List.getElem?_eq_some_iff.mp hv).1 u hi hsome
  refine ⟨k, fun j hj => ⟨hended j hj, ?_⟩⟩
  induction hj with
  | refl => rfl
  | step hle ih => exact ((hended _ hle).next (h.next _)).2.trans ih

/-- A fair execution may as well begin one network earlier. -/
theorem after (h : Fair σ) (hm : n.Next (σ 0)) : Fair (n.after σ) := by
  refine ⟨fun k => ?_, fun time => ?_, fun i t ht hasks k => ?_⟩
  · cases k with
    | zero => exact hm
    | succ k => exact h.next k
  · obtain ⟨k, hk⟩ := h.clock time
    exact ⟨k + 1, hk⟩
  · obtain ⟨u, hu, hsame⟩ := requester_at hm.requesters.symm ht
    obtain ⟨j, hj, hturn⟩ := h.turn i u hu (hsame ▸ hasks) k
    exact ⟨j + 1, by omega, hturn.after n⟩

end Fair

/-- When all requesters have ended nothing needs to happen but that time goes on. -/
theorem AllEnded.fair (h : n.AllEnded) : Fair fun k => { n with now := n.now + k } := by
  refine ⟨fun k => .wait (Nat.le_succ _), fun time => ⟨time, Nat.le_add_left ..⟩, fun i t ht hasks k => ?_⟩
  have hrests : ({ n with now := n.now + k } : Network).AtRest i :=
    atRest_of_ended ht (h t (List.mem_of_getElem? ht) hasks)
  exact ⟨k, Nat.le_refl k, AtRest.hasTurn hrests⟩

/-- Whatever has happened, a fair execution can go on from there. -/
theorem exists_fair (hn : n.Timed) : ∃ σ : Nat → Network, σ 0 = n ∧ Fair σ := by
  obtain ⟨m, hm, hended⟩ := all_end hn
  clear hn
  induction hm using Relation.ReflTransGen.head_induction_on with
  | refl => exact ⟨_, rfl, hended.fair⟩
  | head hnext _ ih =>
    obtain ⟨σ, hfirst, hfair⟩ := ih
    exact ⟨_, rfl, hfair.after (hfirst ▸ hnext)⟩

end Network

end QueryNet
