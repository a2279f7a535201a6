/-
  QueryNet.Proofs.Traffic.Record — everything that was done in a network.

  A network comes about by calls that set it up, by moves of its tasks in any order and
  at any time, and by packets that are sent and received at ends held from outside.
  What was done is recorded: whose doing it was, what was offered in it, and what
  happened (`Recorded`). The calls that link nodes are made of a new link and of
  attaching its ends, and are recorded as these.

  Proved: the calls of `Network` and its runs on the clock are among what is recorded
  with the events that they report (`Recorded.connect`, `Recorded.attachSource`,
  `Recorded.runTo` and others); and each channel has carried what the events tell of
  since it was made with the capacity that was asked for (`Recorded.carried`).
-/

import QueryNet.Proofs.Network
import QueryNet.Proofs.Traffic.Flow

namespace QueryNet

structure Act where
  /-- The name of the solver that did it. -/
  solver : Option NodeId
  /-- The task that moved. -/
  task : Option TaskId
  /-- The capacities that were asked for new channels. -/
  made : List Nat
  /-- The announcements that were offered to attached interfaces, in order. -/
  offers : List (ChannelId × Packet)
  events : List Event
  /-- The network that it left. -/
  after : Network

namespace Act

def link (capacity : Nat) (after : Network) : Act := ⟨none, none, [capacity, capacity], [], [], after⟩

def outside (events : List Event) (after : Network) : Act := ⟨none, none, [], [], events, after⟩

/-- What a solver does; a task that works for none offers nothing. -/
def bySolver (s : Option Solver) (task : Option TaskId) (offered : List Outbound) (events : List Event)
    (after : Network) : Act :=
  ⟨s.map (·.id), task, [], (s.map (·.addressed offered)).getD [], events, after⟩

end Act

def eventsOf (log : List Act) : List Event := log.flatMap (·.events)

def eventsBy (i : TaskId) (log : List Act) : List Event := eventsOf (log.filter (·.task = some i))

def capacitiesOf (log : List Act) : List Nat := log.flatMap (·.made)

namespace Network

def withSource (s : Solver) (key : String) (source : NodeId) : Solver :=
  { s with routes := s.routes.insertDirect key source }

def sourceNews (s : Solver) (key : String) : List Outbound :=
  (s.peersExcept []).map (Outbound.mk · (.announce key s.id 0))

/-- A network, and what was done for it to come about. -/
inductive Recorded : Network → List Act → Prop
  | empty : Recorded .empty []
  | addSolver {n : Network} {log : List Act} {a : NodeId} {config : SolverConfig} : Recorded n log →
      Recorded (n.addSolver a config) log
  | link {n : Network} {log : List Act} {a b : NodeId} {capacity : Nat} : Recorded n log →
      Recorded (n.link a b capacity).2.2 (log ++ [.link capacity (n.link a b capacity).2.2])
  | attachEnd {n : Network} {log : List Act} {a : NodeId} {r : Role} {e : Endpoint} : Recorded n log →
      e.tx < n.channels.length → Recorded (n.attachEnd a r e).network log
  | dropEnd {n : Network} {log : List Act} {e : Endpoint} : Recorded n log → Recorded (n.dropEnd e) log
  | addRule {n : Network} {log : List Act} {a : NodeId} {text : String} : Recorded n log →
      Recorded (n.addRule a text).network log
  | addRoute {n : Network} {log : List Act} {a b : NodeId} {key : String} {metric : Nat} : Recorded n log →
      Recorded (n.addRoute a key b metric).network log
  /-- The second part of attaching a source. -/
  | addSource {n m : Network} {log : List Act} {a t : NodeId} {d : String} {k : SolverId} {s : Solver}
      {es : List Event} : Recorded n log → n.lookup a = some (k, s) →
      (n.setSolver k (withSource s d t)).offer (withSource s d t) (sourceNews (withSource s d t) d) = (m, es) →
      Recorded m (log ++ [.bySolver (some (withSource s d t)) none (sourceNews (withSource s d t) d) es m])
  | start {n : Network} {log : List Act} {a : NodeId} : Recorded n log → Recorded (n.start a).network log
  /-- A source or a requester is started. -/
  | addTask {n : Network} {log : List Act} {worker : Worker} {e : Endpoint} {phase : Phase} : Recorded n log →
      worker.solver? = none → Recorded (n.addTask worker e phase) log
  | send {n m : Network} {log : List Act} {e : Endpoint} {p : Packet} {how : Sent} {es : List Event} : Recorded n log →
      n.send e p = (how, m, es) → Recorded m (log ++ [.outside es m])
  | receive {n m : Network} {log : List Act} {e : Endpoint} {received : Received} {es : List Event} : Recorded n log →
      n.receive e = (received, m, es) → Recorded m (log ++ [.outside es m])
  | move {n m : Network} {log : List Act} {depth : Nat} {i : TaskId} {t : Task} {offered : List Outbound}
      {es : List Event} : Recorded n log → n.tasks[i]? = some t → Move depth n i t offered es m →
      Recorded m (log ++ [.bySolver (n.solverOf t) (some i) offered es m])
  | wait {n : Network} {log : List Act} {now : Nat} : Recorded n log → Recorded { n with now := now } log

variable {n m : Network} {log : List Act} {depth : Nat} {i : TaskId} {es : List Event}

/-! ## Flows of the calls -/

theorem flows_release (n : Network) (s : Solver) : Flows n [] (n.release s) := by
  unfold release
  generalize s.receivers = receivers
  induction receivers generalizing n with
  | nil => exact flows_refl n
  | cons v receivers ih => exact (flows_dropEnd n v.endpoint).silent (ih _)

theorem flows_addSolver (n : Network) (a : NodeId) (config : SolverConfig) : Flows n [] (n.addSolver a config) := by
  unfold addSolver
  cases n.solver? a with
  | none => exact flows_of_eq rfl still_nil
  | some s => exact (flows_release n s).silent (flows_of_eq rfl still_nil)

theorem flows_onSolver {α : Type} (n : Network) (a : NodeId) (f : Solver → Except SetupError (α × Solver)) :
    Flows n [] (n.onSolver a f).network := by
  rcases onSolver_cases n a f with ⟨err, h⟩ | ⟨k, s, v, s', -, -, h⟩
  · rw [h]
    exact flows_refl n
  · rw [h]
    exact flows_of_eq rfl still_nil

theorem flows_attachEnd (n : Network) (a : NodeId) (role : Role) (e : Endpoint) :
    Flows n [] (n.attachEnd a role e).network := by
  unfold attachEnd
  dsimp only
  split
  · exact flows_onSolver n a _
  · exact (flows_onSolver n a _).silent (flows_dropEnd _ e)

theorem flows_start (n : Network) (a : NodeId) : Flows n [] (n.start a).network := by
  unfold start
  split
  · exact flows_refl n
  · split
    · exact flows_refl n
    · exact flows_of_eq rfl still_nil

theorem flows_send {e : Endpoint} {p : Packet} {how : Sent} (h : n.send e p = (how, m, es)) : Flows n es m := by
  unfold send at h
  split at h
  · rename_i ch hoffer
    cases h
    obtain ⟨hheld, hroom, rfl⟩ := Channel.offer_queued hoffer
    exact flows_put hheld (Channel.carries_put hroom)
  · cases h
    exact flows_refl n
  · cases h
    exact flows_refl n

theorem flows_receive {e : Endpoint} {received : Received} (h : n.receive e = (received, m, es)) : Flows n es m := by
  unfold receive at h
  split at h
  · rename_i p ch htake
    cases h
    exact flows_take htake
  · cases h
    exact flows_refl n
  · cases h
    exact flows_refl n

/-! ## What is recorded -/

theorem eventsOf_append (log log' : List Act) : eventsOf (log ++ log') = eventsOf log ++ eventsOf log' :=
  List.flatMap_append

theorem capacitiesOf_append (log log' : List Act) :
    capacitiesOf (log ++ log') = capacitiesOf log ++ capacitiesOf log' := List.flatMap_append

theorem eventsBy_append (i : TaskId) (log log' : List Act) :
    eventsBy i (log ++ log') = eventsBy i log ++ eventsBy i log' := by
  rw [eventsBy, List.filter_append, eventsOf_append]
  rfl

theorem eventsBy_eq_nil {log : List Act} (h : ∀ act ∈ log, act.task ≠ some i) : eventsBy i log = [] := by
  have hnone : log.filter (·.task = some i) = [] := List.filter_eq_nil_iff.mpr fun act hact => by simpa using h act hact
  rw [eventsBy, hnone]
  rfl

theorem eventsBy_self (solver : Option Solver) (i : TaskId) (offered : List Outbound) (es : List Event) (m : Network) :
    eventsBy i [.bySolver solver (some i) offered es m] = es := by
  simp [eventsBy, Act.bySolver, eventsOf]

theorem eventsBy_other {j : TaskId} (hj : j ≠ i) (solver : Option Solver) (offered : List Outbound) (es : List Event)
    (m : Network) : eventsBy j [.bySolver solver (some i) offered es m] = [] := by
  refine eventsBy_eq_nil fun act hact => ?_
  rw [List.mem_singleton.mp hact]
  simpa [Act.bySolver] using Ne.symm hj

/-- The task that is found is the one that was set, or was there. -/
theorem getElem?_set_cases {tasks : List Task} {t t' u : Task} {j : TaskId} (ht : tasks[i]? = some t)
    (hu : (tasks.set i t')[j]? = some u) : (j = i ∧ u = t') ∨ (j ≠ i ∧ tasks[j]? = some u) := by
  have hlt := (List.getElem?_eq_some_iff.mp ht).1
  by_cases hj : i = j
  · subst hj
    rw [List.getElem?_set_self hlt] at hu
    exact .inl ⟨rfl, (Option.some.inj hu).symm⟩
  · rw [List.getElem?_set_ne hj] at hu
    exact .inr ⟨Ne.symm hj, hu⟩

theorem eventsOf_singleton (act : Act) : eventsOf [act] = act.events := List.flatMap_singleton ..

theorem events_onSolver {α : Type} (n : Network) (a : NodeId) (f : Solver → Except SetupError (α × Solver)) :
    (n.onSolver a f).events = [] := by
  rcases onSolver_cases n a f with ⟨err, h⟩ | ⟨k, s, v, s', -, -, h⟩
  · rw [h]
  · rw [h]

theorem events_attachEnd (n : Network) (a : NodeId) (role : Role) (e : Endpoint) :
    (n.attachEnd a role e).events = [] := by
  unfold attachEnd
  dsimp only
  split
  · exact events_onSolver n a _
  · exact events_onSolver n a _

def Records (log : List Act) (m : Network) (es : List Event) : Prop :=
  ∃ log', eventsOf log' = es ∧ Recorded m (log ++ log')

theorem Recorded.records {log' : List Act} (h : Recorded m (log ++ log')) (hes : eventsOf log' = es) :
    Records log m es :=
  ⟨log', hes, h⟩

theorem Recorded.attach (h : Recorded n log) (a peer : NodeId) (role : Role) (capacity : Nat) :
    Records log (n.attach a peer role capacity).network (n.attach a peer role capacity).events := by
  have hlink : Recorded (n.link a peer capacity).2.2 _ := h.link
  have hend := hlink.attachEnd (a := a) (r := role) (e := (n.link a peer capacity).1) (by simp [Network.link])
  have hevents := events_attachEnd (n.link a peer capacity).2.2 a role (n.link a peer capacity).1
  unfold Network.attach
  dsimp only
  split
  · exact hend.records hevents.symm
  · exact hend.dropEnd.records hevents.symm

theorem Recorded.attachRequest (h : Recorded n log) (a requester : NodeId) :
    Records log (n.attachRequest a requester).network (n.attachRequest a requester).events :=
  h.attach a requester .leaf (n.capacityOf a)

theorem Recorded.connect (h : Recorded n log) (a b : NodeId) :
    Records log (n.connect a b).network (n.connect a b).events := by
  have hlink : Recorded (n.link a b (max (n.capacityOf a) (n.capacityOf b))).2.2 _ := h.link
  generalize hl : n.link a b (max (n.capacityOf a) (n.capacityOf b)) = l at hlink
  have hnear : l.1.tx < l.2.2.channels.length := by
    rw [← hl]
    simp [Network.link]
  have hfar : l.2.1.tx < l.2.2.channels.length := by
    rw [← hl]
    simp [Network.link]
  have hend := hlink.attachEnd (a := a) (r := .solverPeer) hnear
  have hlength := (flows_attachEnd l.2.2 a .solverPeer l.1).length
  unfold Network.connect
  simp only [hl]
  split
  · exact hend.dropEnd.records (events_attachEnd ..).symm
  · exact (hend.attachEnd (hlength ▸ hfar)).records (events_attachEnd ..).symm

theorem Recorded.attachSource (h : Recorded n log) (a source : NodeId) (key : String) :
    Records log (n.attachSource a source key).network (n.attachSource a source key).events := by
  obtain ⟨log', hevents, hattach⟩ := h.attach a source .leaf (n.capacityOf a)
  unfold Network.attachSource
  dsimp only
  split
  · rename_i k s _ hs
    have hnews := hattach.addSource (t := source) (d := key) hs rfl
    rw [List.append_assoc] at hnews
    refine hnews.records ?_
    rw [eventsOf_append, eventsOf_singleton, hevents]
    rfl
  · exact ⟨log', hevents, hattach⟩

theorem Recorded.startSource (h : Recorded n log) (source : Source) (e : Endpoint) :
    Recorded (n.startSource source e) log := h.addTask rfl

theorem Recorded.startRequest (h : Recorded n log) (request : Request) (e : Endpoint) (deadline : Option Nat) :
    Recorded (n.startRequest request e deadline) log := h.addTask rfl

/-- Each step of a task is recorded. -/
theorem Recorded.step (h : Recorded n log) (hm : n.step depth i = some (m, es)) : Records log m es := by
  obtain ⟨t, offered, ht, hmove⟩ := step_move hm
  exact (h.move ht hmove).records (eventsOf_singleton _)

/-- So is whatever the clock lets the tasks do, the latest event first. -/
theorem Recorded.runTo {stop : Network → Bool} {target moves : Nat} {turns : List TaskId} {past happened : List Event}
    (h : Recorded n log) (hm : Network.runTo depth stop target moves turns n past = some (m, happened)) :
    ∃ log', (eventsOf log').reverse ++ past = happened ∧ Recorded m (log ++ log') := by
  induction moves generalizing turns n log past with
  | zero => cases hm
  | succ moves ih =>
    have hdone : ∀ {l}, Recorded l log → ∃ log', (eventsOf log').reverse ++ past = past ∧ Recorded l (log ++ log') :=
      fun hl => ⟨[], rfl, by rwa [List.append_nil]⟩
    cases turns with
    | cons i turns =>
      rw [Network.runTo] at hm
      split at hm
      · rename_i n' es hstep
        obtain ⟨log', hes, hact⟩ := h.step hstep
        obtain ⟨log'', hpast, hlog⟩ := ih hact hm
        rw [List.append_assoc] at hlog
        refine ⟨_, ?_, hlog⟩
        rw [eventsOf_append, hes, List.reverse_append, List.append_assoc, hpast]
      · exact ih h hm
    | nil =>
      rw [Network.runTo] at hm
      split at hm
      · exact ih h hm
      · split at hm
        · cases hm
          exact hdone h
        · split at hm
          · split at hm
            · exact ih h.wait hm
            · cases hm
              exact hdone h.wait
          · cases hm
            exact hdone h.wait

/-! ## What went through the channels -/

/-- Each channel has carried all that happened since it was made. -/
structure Carried (n : Network) (log : List Act) : Prop where
  length : (capacitiesOf log).length = n.channels.length
  carries : ∀ {c capacity}, (capacitiesOf log)[c]? = some capacity →
    (Channel.create capacity).Carries ((eventsOf log).filterMap (Event.queuedIn c))
      ((eventsOf log).filterMap (Event.takenFrom c)) (n.channel c)
  unmade : ∀ {c}, n.channels.length ≤ c →
    (eventsOf log).filterMap (Event.queuedIn c) = [] ∧ (eventsOf log).filterMap (Event.takenFrom c) = []

theorem Carried.extend (h : Carried n log) {log' : List Act} (hmade : capacitiesOf log' = [])
    (hflows : Flows n (eventsOf log') m) : Carried m (log ++ log') := by
  refine ⟨?_, ?_, ?_⟩
  · rw [capacitiesOf_append, hmade, List.append_nil, h.length, hflows.length]
  · intro c capacity hc
    rw [capacitiesOf_append, hmade, List.append_nil] at hc
    rw [eventsOf_append, List.filterMap_append, List.filterMap_append]
    exact (h.carries hc).trans (hflows.carries c)
  · intro c hc
    obtain ⟨hq, ht⟩ := h.unmade (hflows.length ▸ hc)
    obtain ⟨hq', ht'⟩ := hflows.made c (hflows.length ▸ hc)
    rw [eventsOf_append, List.filterMap_append, List.filterMap_append, hq, ht, hq', ht']
    exact ⟨rfl, rfl⟩

theorem Carried.act (h : Carried n log) {act : Act} (hmade : act.made = []) (hflows : Flows n act.events m) :
    Carried m (log ++ [act]) := by
  refine h.extend ?_ ?_
  · rw [capacitiesOf, List.flatMap_singleton, hmade]
  · rwa [eventsOf, List.flatMap_singleton]

theorem Carried.silent (h : Carried n log) (hflows : Flows n [] m) : Carried m log := by
  have hnil : Carried m (log ++ []) := h.extend rfl hflows
  rwa [List.append_nil] at hnil

/-- Nothing has gone through new channels. -/
theorem Carried.link (h : Carried n log) (a b : NodeId) (capacity : Nat) :
    Carried (n.link a b capacity).2.2 (log ++ [.link capacity (n.link a b capacity).2.2]) := by
  have hlength : (n.link a b capacity).2.2.channels.length = n.channels.length + 2 := List.length_append
  have hevents : eventsOf (log ++ [.link capacity (n.link a b capacity).2.2]) = eventsOf log := by
    rw [eventsOf_append]
    exact List.append_nil _
  have hcapacities : capacitiesOf (log ++ [.link capacity (n.link a b capacity).2.2]) =
      capacitiesOf log ++ [capacity, capacity] := by
    rw [capacitiesOf_append]
    rfl
  refine ⟨?_, ?_, ?_⟩
  · rw [hcapacities, List.length_append, h.length, hlength]
    rfl
  · intro c capacity' hc
    rw [hcapacities] at hc
    rw [hevents]
    rcases Nat.lt_or_ge c n.channels.length with hlt | hge
    · have hold : (n.link a b capacity).2.2.channel c = n.channel c := by
        simp only [channel, Network.link, List.getD_eq_getElem?_getD, List.getElem?_append_left hlt]
      rw [List.getElem?_append_left (h.length ▸ hlt)] at hc
      rw [hold]
      exact h.carries hc
    · -- one of the two new channels, of which no event can tell yet
      obtain ⟨hq, ht⟩ := h.unmade hge
      rw [List.getElem?_append_right (h.length ▸ hge), h.length] at hc
      have hnew : (n.link a b capacity).2.2.channel c = .create capacity' := by
        simp only [channel, Network.link, List.getD_eq_getElem?_getD, List.getElem?_append_right hge]
        rcases hd : c - n.channels.length with _ | _ | d
        · rw [hd] at hc
          cases hc
          rfl
        · rw [hd] at hc
          cases hc
          rfl
        · rw [hd] at hc
          cases hc
      rw [hq, ht, hnew]
      exact .refl _
  · intro c hc
    rw [hevents]
    exact h.unmade (by omega)

theorem Recorded.carried (h : Recorded n log) : Carried n log := by
  induction h with
  | empty => exact ⟨rfl, fun h => by simp [capacitiesOf] at h, fun _ => ⟨rfl, rfl⟩⟩
  | addSolver _ ih => exact ih.silent (flows_addSolver _ _ _)
  | link _ ih => exact ih.link _ _ _
  | attachEnd _ _ ih => exact ih.silent (flows_attachEnd _ _ _ _)
  | dropEnd _ ih => exact ih.silent (flows_dropEnd _ _)
  | addRule _ ih => exact ih.silent (flows_onSolver _ _ _)
  | addRoute _ ih => exact ih.silent (flows_onSolver _ _ _)
  | @addSource n m log a source key k s es _ _ hm ih =>
    have hoffer := flows_offer (n.setSolver k (withSource s key source)) (withSource s key source)
      (sourceNews (withSource s key source) key)
    rw [hm] at hoffer
    have hset : Flows n [] (n.setSolver k (withSource s key source)) := flows_of_eq rfl still_nil
    exact ih.act rfl (hset.trans hoffer)
  | start _ ih => exact ih.silent (flows_start _ _)
  | addTask _ _ ih => exact ih.silent (flows_of_eq rfl still_nil)
  | send _ hm ih => exact ih.act rfl (flows_send hm)
  | receive _ hm ih => exact ih.act rfl (flows_receive hm)
  | move _ _ hmove ih => exact ih.act rfl hmove.flows
  | wait _ ih => exact ih.silent (flows_of_eq rfl still_nil)

end Network

end QueryNet
