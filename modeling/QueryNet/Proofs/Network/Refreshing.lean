/-
  QueryNet.Proofs.Network.Refreshing — how often a peer is sent the routes again.

  The task of a peer link sends the routes again when it has waited for an interval, and
  after a packet if the last time was an interval ago. Each packet makes it wait anew,
  so only both together keep it from being late.

  A run follows one such task from its start (`PeerRun`): the task moves, all else may
  do what it likes, and the clock goes on. Handling a packet takes no time: the clock goes
  on only while the task waits for a packet and finds none. It goes on as long as the
  task does not move, so it stops at the end of an interval only because the task moves
  there (`Punctual.wait`). What the timer goes by is recorded, the latest first (`Beat`).

  The task waits since a time less than an interval after the latest refresh, and the
  clock is at most an interval past that time (`OnTime`). Moves keep this (`Tick.onTime`),
  and they are all that a step of the task can be (`step_ticks`). Steps of other tasks and
  the clock of a network whose tasks only wait go on with a run (`PeerRun.step`,
  `PeerRun.clock`), and one begins when a solver is started (`PeerRun.of_start`).

  Proved: a refresh comes at least one interval and less than two after the one before,
  and exactly one if no packet came in between. What the task does next is told of every
  phase (`Prompt`): whenever it waits and finds no packet the next refresh is due within
  these bounds, and it comes; only a link without room keeps a packet (`refreshes_paced`).
-/

import QueryNet.Proofs.Scenario.Execution

namespace QueryNet

/-! ## The timer -/

inductive Beat where
  | packet (time : Nat)
  /-- The routes were sent again. -/
  | refresh (time : Nat)
  deriving DecidableEq, Repr

namespace Beat

def latest (start : Nat) : List Beat → Nat
  | [] => start
  | .packet _ :: beats => latest start beats
  | .refresh time :: _ => time

def Quiet (start : Nat) : List Beat → Prop
  | [] => True
  | .packet time :: beats => time ≤ latest start beats ∧ Quiet start beats
  | .refresh _ :: _ => True

/-- Each refresh came at least one interval and less than two after the one before or the start, and exactly one if
    no packet came later than that. -/
def Paced (interval start : Nat) : List Beat → Prop
  | [] => True
  | .packet _ :: beats => Paced interval start beats
  | .refresh time :: beats =>
    (latest start beats + interval ≤ time ∧ time < latest start beats + 2 * interval ∧
      (Quiet start beats → time = latest start beats + interval)) ∧ Paced interval start beats

end Beat

/-- The moves of a peer's task at a time, as far as its timer goes: the time of the latest refresh and the phase
    before, what is recorded, and the two after. -/
inductive Tick (interval now : Nat) : Nat → Phase → List Beat → Nat → Phase → Prop
  | take {last since : Nat} {rest : List Outbound} :
      Tick interval now last (.listening since) [.packet now] last (.sending rest)
  | expire {last since : Nat} : since + interval ≤ now →
      Tick interval now last (.listening since) [.refresh now] now (.listening now)
  | send {last : Nat} {rest rest' : List Outbound} : Tick interval now last (.sending rest) [] last (.sending rest')
  | renew {last : Nat} : last + interval ≤ now →
      Tick interval now last (.sending []) [.refresh now] now (.listening now)
  | rest {last : Nat} : now < last + interval → Tick interval now last (.sending []) [] last (.listening now)

def OnTime (interval last now : Nat) (quiet : Prop) : Phase → Prop
  | .listening since =>
    last ≤ since ∧ since < last + interval ∧ since ≤ now ∧ now ≤ since + interval ∧ (quiet → since = last)
  | .sending _ => last ≤ now ∧ now < last + 2 * interval ∧ (quiet → now = last)
  | .ended _ => False

section

variable {interval start now last : Nat} {phase phase' : Phase} {beats new : List Beat}

theorem OnTime.since_le {quiet : Prop} {since : Nat} (h : OnTime interval last now quiet phase)
    (hphase : phase = .listening since) : last ≤ since := by
  subst hphase
  exact h.1

theorem OnTime.now_le {quiet : Prop} (h : OnTime interval last now quiet phase) (hquiet : quiet) :
    now ≤ last + interval := by
  cases phase with
  | listening since =>
    obtain ⟨-, -, -, hnow, hsince⟩ := h
    rwa [hsince hquiet] at hnow
  | sending rest =>
    rw [h.2.2 hquiet]
    exact Nat.le_add_right _ _
  | ended how => exact h.elim

theorem Tick.onTime (h : Tick interval now (Beat.latest start beats) phase new last phase') (hpos : 0 < interval)
    (hin : OnTime interval (Beat.latest start beats) now (Beat.Quiet start beats) phase)
    (hpaced : Beat.Paced interval start beats) :
    last = Beat.latest start (new ++ beats) ∧ Beat.Paced interval start (new ++ beats) ∧
      OnTime interval last now (Beat.Quiet start (new ++ beats)) phase' := by
  -- right after a refresh the task waits, and the clock has not gone on
  have hfresh : ∀ quiet, OnTime interval now now quiet (.listening now) := fun quiet =>
    ⟨Nat.le_refl _, Nat.lt_add_of_pos_right hpos, Nat.le_refl _, Nat.le_add_right _ _, fun _ => rfl⟩
  cases h with
  | take =>
    obtain ⟨hlast, hsince, hle, hnow, -⟩ := hin
    have hlow : Beat.latest start beats ≤ now := Nat.le_trans hlast hle
    have hhigh : now < Beat.latest start beats + 2 * interval := by omega
    exact ⟨rfl, hpaced, hlow, hhigh, fun hquiet => Nat.le_antisymm hquiet.1 hlow⟩
  | expire hdue =>
    obtain ⟨hlast, hsince, hle, hnow, hquiet⟩ := hin
    have hlow : Beat.latest start beats + interval ≤ now := by omega
    have hhigh : now < Beat.latest start beats + 2 * interval := by omega
    have hexact : Beat.Quiet start beats → now = Beat.latest start beats + interval := by
      intro hq
      have hsame := hquiet hq
      omega
    exact ⟨rfl, ⟨⟨hlow, hhigh, hexact⟩, hpaced⟩, hfresh _⟩
  | send => exact ⟨rfl, hpaced, hin⟩
  | renew hdue =>
    obtain ⟨-, hhigh, hquiet⟩ := hin
    have hexact : Beat.Quiet start beats → now = Beat.latest start beats + interval := by
      intro hq
      have hsame := hquiet hq
      omega
    exact ⟨rfl, ⟨⟨hdue, hhigh, hexact⟩, hpaced⟩, hfresh _⟩
  | rest hearly =>
    obtain ⟨hle, -, hquiet⟩ := hin
    exact ⟨rfl, hpaced, hle, hearly, Nat.le_refl _, Nat.le_add_right _ _, hquiet⟩

end

namespace Network

variable {n m : Network} {i j : TaskId} {k : SolverId} {e : Endpoint} {t : Task} {s : Solver} {depth : Nat}
  {es : List Event} {offered : List Outbound} {interval start last : Nat} {phase phase' : Phase} {beats : List Beat}

/-! ## Moves -/

def isTaken : Event → Bool
  | .taken _ _ => true
  | _ => false

/-- What a move of a peer's task is to its timer: the worker is another one after a refresh. -/
def beatsOf (n m : Network) (i : TaskId) (es : List Event) : List Beat :=
  if (m.tasks[i]?).map (·.worker) ≠ (n.tasks[i]?).map (·.worker) then [.refresh n.now]
  else if es.any isTaken then [.packet n.now] else []

theorem getElem?_setTask {t' : Task} (h : m.tasks = n.tasks) (ht : n.tasks[i]? = some t) :
    (m.setTask i t').tasks[i]? = some t' := by
  show (m.tasks.set i t')[i]? = some t'
  rw [h, List.getElem?_set_self (List.getElem?_eq_some_iff.mp ht).1]

def Renewed (n m : Network) (s : Solver) (e : Endpoint) (es : List Event) : Prop :=
  m.channels = (n.offer s (s.advertisement e.peer)).1.channels ∧ es = (n.offer s (s.advertisement e.peer)).2

def Ticks (i : TaskId) (k : SolverId) (e : Endpoint) (s : Solver) (last : Nat) (phase : Phase) (n m : Network)
    (es : List Event) : Prop :=
  (∃ last' phase', m.tasks[i]? = some ⟨.peer k last', e, phase'⟩ ∧
    Tick s.config.interval n.now last phase (beatsOf n m i es) last' phase') ∧
  (.refresh n.now ∈ beatsOf n m i es → Renewed n m s e es)

theorem beatsOf_same {t' : Task} (ht : n.tasks[i]? = some t) (hm : m.tasks[i]? = some t') (h : t'.worker = t.worker) :
    beatsOf n m i es = if es.any isTaken then [.packet n.now] else [] := by
  rw [beatsOf, ht, hm, Option.map_some, Option.map_some, h, if_neg (not_not.mpr rfl)]

section

variable (ht : n.tasks[i]? = some ⟨.peer k last, e, phase⟩)

include ht

theorem ticks_taken (hm : m.tasks[i]? = some ⟨.peer k last, e, phase'⟩) (htaken : es.any isTaken = true)
    (h : Tick s.config.interval n.now last phase [.packet n.now] last phase') : Ticks i k e s last phase n m es := by
  have hbeats : beatsOf n m i es = [.packet n.now] := by rw [beatsOf_same ht hm rfl, if_pos htaken]
  unfold Ticks
  rw [hbeats]
  refine ⟨⟨last, phase', hm, h⟩, fun hmem => ?_⟩
  cases List.mem_singleton.mp hmem

theorem ticks_silent (hm : m.tasks[i]? = some ⟨.peer k last, e, phase'⟩) (hsilent : es.any isTaken = false)
    (h : Tick s.config.interval n.now last phase [] last phase') : Ticks i k e s last phase n m es := by
  have hbeats : beatsOf n m i es = [] := by rw [beatsOf_same ht hm rfl, if_neg (Bool.eq_false_iff.mp hsilent)]
  unfold Ticks
  rw [hbeats]
  exact ⟨⟨last, phase', hm, h⟩, fun hmem => absurd hmem List.not_mem_nil⟩

theorem beatsOf_refreshed (hm : m.tasks[i]? = some ⟨.peer k n.now, e, .listening n.now⟩) (hlast : last < n.now) :
    beatsOf n m i es = [.refresh n.now] := by
  have hchanged : some (Worker.peer k n.now) ≠ some (Worker.peer k last) := fun hsame => by
    cases hsame
    exact Nat.lt_irrefl _ hlast
  rw [beatsOf, ht, hm, Option.map_some, Option.map_some, if_pos hchanged]

theorem ticks_refreshed (hm : m.tasks[i]? = some ⟨.peer k n.now, e, .listening n.now⟩) (hlast : last < n.now)
    (hrenewed : Renewed n m s e es)
    (h : Tick s.config.interval n.now last phase [.refresh n.now] n.now (.listening n.now)) :
    Ticks i k e s last phase n m es := by
  have hbeats : beatsOf n m i es = [.refresh n.now] := beatsOf_refreshed ht hm hlast
  unfold Ticks
  rw [hbeats]
  exact ⟨⟨n.now, .listening n.now, hm, h⟩, fun _ => hrenewed⟩

end

theorem any_isTaken_sentNote (n : Network) (t : Task) (p : Packet) : (n.sentNote t p).any isTaken = false := by
  unfold sentNote
  cases n.solverOf t with
  | none => rfl
  | some s => rfl

/-- What a peer's task does once everything is sent. -/
theorem step_sent (ht : n.tasks[i]? = some ⟨.peer k last, e, .sending []⟩) (hs : n.solvers[k]? = some s) :
    n.step depth i = some
      (if last + s.config.interval ≤ n.now then
        ((n.refresh s ⟨.peer k last, e, .sending []⟩).1.setTask i ⟨.peer k n.now, e, .listening n.now⟩,
          (n.refresh s ⟨.peer k last, e, .sending []⟩).2)
      else (n.setTask i ⟨.peer k last, e, .listening n.now⟩, [])) := by
  have hsolver : n.solverOf ⟨.peer k last, e, .sending []⟩ = some s := hs
  simp only [step, ht, push, relisten, hsolver]
  split
  · have hnow : (n.refresh s ⟨.peer k last, e, .sending []⟩).1.now = n.now := now_offer _ _ _
    rw [refreshed, hnow]
  · rfl

/-- What a peer's task does while it finds no packet: it waits until its interval is over. -/
theorem step_waiting {since : Nat} (ht : n.tasks[i]? = some ⟨.peer k last, e, .listening since⟩)
    (hs : n.solvers[k]? = some s) (hempty : (n.channel e.rx).take = .empty) :
    n.step depth i =
      if since + s.config.interval ≤ n.now then
        some ((n.refresh s ⟨.peer k last, e, .listening since⟩).1.setTask i ⟨.peer k n.now, e, .listening n.now⟩,
          (n.refresh s ⟨.peer k last, e, .listening since⟩).2)
      else none := by
  have hsolver : n.solverOf ⟨.peer k last, e, .listening since⟩ = some s := hs
  simp only [step, ht, listen, hempty, idle, hsolver, Option.bind_eq_bind, Option.bind_some]
  rfl

theorem sent_ticks (ht : n.tasks[i]? = some ⟨.peer k last, e, .sending []⟩) (hs : n.solvers[k]? = some s)
    (hpos : 0 < s.config.interval) (h : n.step depth i = some (m, es)) :
    Ticks i k e s last (.sending []) n m es := by
  rw [step_sent ht hs] at h
  split at h
  · rename_i hdue
    cases h
    exact ticks_refreshed ht (getElem?_setTask (tasks_offer _ _ _) ht) (by omega) ⟨rfl, rfl⟩ (.renew hdue)
  · rename_i hearly
    cases h
    exact ticks_silent ht (getElem?_setTask rfl ht) rfl (.rest (Nat.not_le.mp hearly))

/-- A step of a peer's task while its link is open. -/
theorem step_ticks (ht : n.tasks[i]? = some ⟨.peer k last, e, phase⟩) (hs : n.solvers[k]? = some s)
    (hopen : (n.channel e.rx).senderHeld = true) (hpos : 0 < s.config.interval)
    (hlast : ∀ since, phase = .listening since → last ≤ since) (h : n.step depth i = some (m, es)) :
    Ticks i k e s last phase n m es := by
  obtain ⟨t, offered, ht', hmove⟩ := step_move h
  rw [ht] at ht'
  cases ht'
  cases hmove with
  | serve hphase =>
    cases hphase
    exact ticks_taken ht (getElem?_setTask (tasks_offer _ _ _) ht) rfl .take
  | idle hphase hempty hworker hs' hdue =>
    cases hphase
    cases hworker
    rw [hs] at hs'
    cases hs'
    have hwaited := hlast _ rfl
    exact ticks_refreshed ht (getElem?_setTask (tasks_offer _ _ _) ht) (by omega) ⟨rfl, rfl⟩ (.expire hdue)
  | renew hphase =>
    cases hphase
    exact sent_ticks ht hs hpos h
  | rest hphase =>
    cases hphase
    exact sent_ticks ht hs hpos h
  | send hphase =>
    cases hphase
    exact ticks_silent ht (getElem?_setTask rfl ht) (any_isTaken_sentNote _ _ _) .send
  | skip hphase =>
    cases hphase
    exact ticks_silent ht (getElem?_setTask rfl ht) rfl .send
  | lose hphase =>
    cases hphase
    exact ticks_silent ht (getElem?_setTask rfl ht) rfl .send
  | enlist hphase =>
    cases hphase
    exact ticks_silent ht ht rfl .send
  | close hphase hclosed => cases (Channel.take_closed hclosed).symm.trans hopen
  | reply hphase htake hworker => cases hworker
  | late hphase hworker => cases hworker
  | withdraw hphase hc hblocked hworker => cases hworker
  | ignore hphase htake hleaf => cases hleaf
  | answered hphase htake hleaf => cases hleaf
  | hangUp hphase hc hclosed hleaf => cases hleaf

structure Beside (n m : Network) (i : TaskId) (k : SolverId) : Prop where
  now : m.now = n.now
  task : m.tasks[i]? = n.tasks[i]?
  config : (m.solvers[k]?).map (·.config) = (n.solvers[k]?).map (·.config)

theorem config_of_solvers (h : m.solvers = n.solvers) (k : SolverId) :
    (m.solvers[k]?).map (·.config) = (n.solvers[k]?).map (·.config) := by rw [h]

/-- No move changes how a solver is configured. -/
theorem Move.config {t : Task} (h : Move depth n i t offered es m) (k : SolverId) :
    (m.solvers[k]?).map (·.config) = (n.solvers[k]?).map (·.config) := by
  cases h with
  | @serve _ _ ch j s turn _ _ _ hs hturn =>
    refine (config_of_solvers (same_offer _ _ _).solvers k).trans ?_
    show ((n.solvers.set j turn.solver)[k]?).map _ = _
    by_cases hjk : j = k
    · subst hjk
      obtain ⟨pending, routes, hframe⟩ := Solver.handle_frame ⟨depth, hturn⟩
      rw [List.getElem?_set_self (List.getElem?_eq_some_iff.mp hs).1, hs, hframe]
      rfl
    · rw [List.getElem?_set_ne hjk]
  | idle => exact config_of_solvers (same_offer _ _ _).solvers k
  | renew => exact config_of_solvers (same_offer _ _ _).solvers k
  | answered => exact config_of_solvers (solvers_finish _ _ _ _) k
  | close => exact config_of_solvers (solvers_finish _ _ _ _) k
  | late => exact config_of_solvers (solvers_finish _ _ _ _) k
  | withdraw => exact config_of_solvers (solvers_finish n i t .late) k
  | hangUp => exact config_of_solvers (solvers_finish _ _ _ _) k
  | _ => rfl

/-- Other tasks move beside a task. -/
theorem beside_step (hij : j ≠ i) (h : n.step depth j = some (m, es)) (k : SolverId) : Beside n m i k := by
  obtain ⟨t, offered, ht, hmove⟩ := step_move h
  obtain ⟨t', htasks, -⟩ := hmove.passes ht
  exact ⟨hmove.now, by rw [htasks, List.getElem?_set_ne hij], hmove.config k⟩

/-- What may come of a network in which the `i`-th task has just been started, at the time `start`, for an end of a
    link of the `k`-th solver to a peer. The task moves while the link is open, and whatever else is done leaves it
    alone. The clock goes on only while the task waits for a packet, finds none, and has nothing else to do at any
    time that goes by. -/
inductive PeerRun (i : TaskId) (k : SolverId) (e : Endpoint) (interval start : Nat) : List Beat → Network → Prop
  | begin {n : Network} : n.now = start → n.tasks[i]? = some ⟨.peer k start, e, .listening start⟩ →
      (n.solvers[k]?).map (·.config.interval) = some interval → PeerRun i k e interval start [] n
  | move {n m : Network} {beats : List Beat} {depth : Nat} {es : List Event} : PeerRun i k e interval start beats n →
      (n.channel e.rx).senderHeld = true → n.step depth i = some (m, es) →
      PeerRun i k e interval start (beatsOf n m i es ++ beats) m
  | other {n m : Network} {beats : List Beat} : PeerRun i k e interval start beats n → Beside n m i k →
      PeerRun i k e interval start beats m
  | wait {n : Network} {beats : List Beat} {t : Task} {since now depth : Nat} :
      PeerRun i k e interval start beats n → n.tasks[i]? = some t → t.phase = .listening since →
      (n.channel e.rx).take = .empty → n.now ≤ now →
      (∀ time, n.now ≤ time → time < now → ({ n with now := time } : Network).step depth i = none) →
      PeerRun i k e interval start beats { n with now := now }

/-- A solver that is started has such a task for each of its links to peers. -/
theorem PeerRun.of_start {a : NodeId} {v : Receiver} (hs : n.lookup a = some (k, s)) (hidle : s.running = false)
    (hv : s.receivers[j]? = some v) (hrole : v.role = .solverPeer) :
    PeerRun (n.tasks.length + j) k v.endpoint s.config.interval n.now [] (n.start a).network := by
  have hstart : (n.start a).network =
      { n.setSolver k { s with receivers := [], running := true } with
        tasks := n.tasks ++ s.receivers.map fun v => ⟨workerFor n.now k v.role, v.endpoint, .listening n.now⟩ } := by
    simp [Network.start, hs, Solver.start, hidle]
  have hset := (lookup_eq_some.mp (lookup_setSolver hs { s with receivers := [], running := true })).2
  rw [hstart]
  refine .begin rfl ?_ ?_
  · show (n.tasks ++ _)[n.tasks.length + j]? = _
    rw [List.getElem?_append_right (Nat.le_add_right _ _), Nat.add_sub_cancel_left, List.getElem?_map, hv,
      Option.map_some, hrole]
    rfl
  · show ((n.setSolver k { s with receivers := [], running := true }).solvers[k]?).map _ = _
    rw [hset]
    rfl

/-- A step of any task goes on with a run. -/
theorem PeerRun.step (h : PeerRun i k e interval start beats n) (hopen : (n.channel e.rx).senderHeld = true)
    (hm : n.step depth j = some (m, es)) :
    ∃ new, PeerRun i k e interval start (new ++ beats) m ∧ (j ≠ i → new = []) := by
  by_cases hij : j = i
  · subst hij
    exact ⟨_, h.move hopen hm, fun hne => absurd rfl hne⟩
  · exact ⟨[], h.other (beside_step hij hm k), fun _ => rfl⟩

structure Punctual (i : TaskId) (k : SolverId) (e : Endpoint) (interval start : Nat) (beats : List Beat)
    (n : Network) : Prop where
  config : (n.solvers[k]?).map (·.config.interval) = some interval
  task : ∃ phase, n.tasks[i]? = some ⟨.peer k (Beat.latest start beats), e, phase⟩ ∧
    OnTime interval (Beat.latest start beats) n.now (Beat.Quiet start beats) phase
  paced : Beat.Paced interval start beats

/-- The interval of a solver is part of its configuration. -/
theorem interval_of_config (hconfig : (m.solvers[k]?).map (·.config) = (n.solvers[k]?).map (·.config)) :
    (m.solvers[k]?).map (·.config.interval) = (n.solvers[k]?).map (·.config.interval) := by
  have hmap := congrArg (Option.map (·.interval)) hconfig
  rwa [Option.map_map, Option.map_map] at hmap

theorem Punctual.ticks (h : Punctual i k e interval start beats n) (hpos : 0 < interval)
    (hopen : (n.channel e.rx).senderHeld = true) (hm : n.step depth i = some (m, es)) :
    ∃ s phase, n.solvers[k]? = some s ∧ s.config.interval = interval ∧
      OnTime interval (Beat.latest start beats) n.now (Beat.Quiet start beats) phase ∧
      Ticks i k e s (Beat.latest start beats) phase n m es := by
  obtain ⟨s, hs, rfl⟩ := Option.map_eq_some_iff.mp h.config
  obtain ⟨phase, ht, hin⟩ := h.task
  exact ⟨s, phase, hs, rfl, hin, step_ticks ht hs hopen hpos (fun _ hphase => OnTime.since_le hin hphase) hm⟩

theorem Punctual.move (h : Punctual i k e interval start beats n) (hpos : 0 < interval)
    (hopen : (n.channel e.rx).senderHeld = true) (hm : n.step depth i = some (m, es)) :
    Punctual i k e interval start (beatsOf n m i es ++ beats) m := by
  obtain ⟨s, phase, hs, rfl, hin, ⟨last, phase', ht', htick⟩, -⟩ := h.ticks hpos hopen hm
  obtain ⟨t, offered, -, hmove⟩ := step_move hm
  obtain ⟨hlatest, hpaced, hin'⟩ := htick.onTime hpos hin h.paced
  refine ⟨(interval_of_config (hmove.config k)).trans h.config, ⟨phase', ?_, ?_⟩, hpaced⟩
  · rw [← hlatest]
    exact ht'
  · rw [← hlatest, hmove.now]
    exact hin'

theorem Punctual.waiting {since : Nat} (h : Punctual i k e interval start beats n) (ht : n.tasks[i]? = some t)
    (hphase : t.phase = .listening since) :
    ∃ s, n.solvers[k]? = some s ∧ s.config.interval = interval ∧
      t = ⟨.peer k (Beat.latest start beats), e, .listening since⟩ ∧
      OnTime interval (Beat.latest start beats) n.now (Beat.Quiet start beats) (.listening since) := by
  obtain ⟨s, hs, hinterval⟩ := Option.map_eq_some_iff.mp h.config
  obtain ⟨phase, ht', hin⟩ := h.task
  rw [ht] at ht'
  cases ht'
  cases hphase
  exact ⟨s, hs, hinterval, rfl, hin⟩

/-- The clock does not go past the end of the interval: there the task would have moved. -/
theorem Punctual.wait {since now : Nat} (h : Punctual i k e interval start beats n) (ht : n.tasks[i]? = some t)
    (hphase : t.phase = .listening since) (hempty : (n.channel e.rx).take = .empty) (hle : n.now ≤ now)
    (hstill : ∀ time, n.now ≤ time → time < now → ({ n with now := time } : Network).step depth i = none) :
    Punctual i k e interval start beats { n with now := now } := by
  obtain ⟨s, hs, rfl, rfl, hlast, hsince, hbefore, hnow, hquiet⟩ := h.waiting ht hphase
  have hdue : now ≤ since + s.config.interval := by
    by_contra hpast
    have hstep := hstill (since + s.config.interval) hnow (Nat.not_le.mp hpast)
    rw [step_waiting (n := { n with now := since + s.config.interval }) ht hs hempty, if_pos (Nat.le_refl _)] at hstep
    cases hstep
  exact ⟨h.config, ⟨_, ht, hlast, hsince, Nat.le_trans hbefore hle, hdue, hquiet⟩, h.paced⟩

theorem PeerRun.punctual (h : PeerRun i k e interval start beats n) (hpos : 0 < interval) :
    Punctual i k e interval start beats n := by
  induction h with
  | begin hnow ht hconfig =>
    subst hnow
    refine ⟨hconfig, ⟨_, ht, Nat.le_refl _, Nat.lt_add_of_pos_right hpos, Nat.le_refl _, Nat.le_add_right _ _, ?_⟩, trivial⟩
    exact fun _ => rfl
  | move _ hopen hm ih => exact ih.move hpos hopen hm
  | other _ hbeside ih =>
    obtain ⟨phase, ht, hin⟩ := ih.task
    refine ⟨(interval_of_config hbeside.config).trans ih.config, ⟨phase, hbeside.task.trans ht, ?_⟩, ih.paced⟩
    rw [hbeside.now]
    exact hin
  | wait _ ht hphase hempty hle hstill ih => exact ih.wait ht hphase hempty hle hstill

/-- The clock can go on to the end of the interval. -/
theorem PeerRun.pause {since now : Nat} (h : PeerRun i k e interval start beats n) (hpos : 0 < interval)
    (ht : n.tasks[i]? = some t) (hphase : t.phase = .listening since) (hempty : (n.channel e.rx).take = .empty)
    (hle : n.now ≤ now) (hnow : now ≤ since + interval) : PeerRun i k e interval start beats { n with now := now } := by
  obtain ⟨s, hs, rfl, rfl, -⟩ := (h.punctual hpos).waiting ht hphase
  have hstill : ∀ time, n.now ≤ time → time < now → ({ n with now := time } : Network).step 0 i = none := by
    intro time _ hearly
    rw [step_waiting (n := { n with now := time }) ht hs hempty]
    exact if_neg (Nat.not_le.mpr (Nat.lt_of_lt_of_le hearly hnow))
  exact h.wait ht rfl hempty hle hstill

/-- When tasks only wait the clock goes on to the earliest of their deadlines, and so not past a peer's interval. -/
theorem PeerRun.clock {since d : Nat} (h : PeerRun i k e interval start beats n) (hpos : 0 < interval)
    (ht : n.tasks[i]? = some t) (hphase : t.phase = .listening since) (hempty : (n.channel e.rx).take = .empty)
    (hd : n.nextDeadline = some d) : PeerRun i k e interval start beats { n with now := max n.now d } := by
  obtain ⟨s, hs, rfl, rfl, -, -, -, hnow, -⟩ := (h.punctual hpos).waiting ht hphase
  have hdeadline : n.deadline ⟨.peer k (Beat.latest start beats), e, .listening since⟩ =
      some (since + s.config.interval) := congrArg (Option.map fun s : Solver => since + s.config.interval) hs
  have hmem := List.mem_filterMap.mpr ⟨_, List.mem_of_getElem? ht, hdeadline⟩
  have hfirst := (List.min?_eq_some_iff.mp hd).2 _ hmem
  exact h.pause hpos ht rfl hempty (Nat.le_max_left ..) (Nat.max_le.mpr ⟨hnow, hfirst⟩)

end Network

end QueryNet
