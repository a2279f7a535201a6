/-
  QueryNet.Proofs.Traffic.Keeps — what stays as it is, whatever is done.

  Once a solver runs it keeps its name and its interfaces, a channel that is closed stays
  closed, and every interface sends into a channel that was made (`Keeps`). A move
  changes its own task alone; whatever else is done leaves the tasks there are alone, and
  new tasks of solvers have nothing to send (`Aside`).

  Proved: each move and each call keeps all this (`Move.keeps` and others), so what holds
  of every record can be shown for what moves do and for what leaves the tasks alone
  (`Recorded.byMoves`).
-/

import QueryNet.Proofs.Routing.Update
import QueryNet.Proofs.Traffic.Record

namespace QueryNet

namespace Network

def Open (n : Network) (c : ChannelId) : Prop := c < n.channels.length → (n.channel c).receiverHeld = true

def Linked (n : Network) : Prop :=
  ∀ {k : SolverId} {s : Solver} {b : NodeId} {i : Interface}, n.solvers[k]? = some s → s.interfaces.get? b = some i →
    i.tx < n.channels.length

structure Keeps (n m : Network) : Prop where
  solver : ∀ {k : SolverId} {s : Solver}, n.solvers[k]? = some s → s.running = true →
    ∃ s' : Solver, m.solvers[k]? = some s' ∧ s'.running = true ∧ s'.id = s.id ∧ s'.interfaces = s.interfaces
  linked : n.Linked → m.Linked
  closed : ∀ {c}, m.Open c → n.Open c

variable {n m l : Network} {log : List Act} {depth : Nat} {i : TaskId} {t : Task} {k : SolverId} {s s' : Solver}
  {es fs : List Event} {offered out : List Outbound} {c : ChannelId}

theorem Keeps.refl (n : Network) : Keeps n n := ⟨fun hk hrun => ⟨_, hk, hrun, rfl, rfl⟩, id, id⟩

theorem Keeps.trans (h : Keeps n m) (h' : Keeps m l) : Keeps n l := by
  refine ⟨fun hk hrun => ?_, fun hn => h'.linked (h.linked hn), fun hc => h.closed (h'.closed hc)⟩
  obtain ⟨s', hs', hrun', hid, hi⟩ := h.solver hk hrun
  obtain ⟨s'', hs'', hrun'', hid', hi'⟩ := h'.solver hs' hrun'
  exact ⟨s'', hs'', hrun'', hid'.trans hid, hi'.trans hi⟩

theorem keeps_flows (hm : m.solvers = n.solvers) (hflows : Flows n es m) : Keeps n m := by
  refine ⟨fun hk hrun => ⟨_, hm ▸ hk, hrun, rfl, rfl⟩, fun hn => ?_, fun {c} hc hlt => ?_⟩
  · intro k s b i hk hi
    rw [hflows.length]
    exact hn (hm ▸ hk) hi
  · exact (hflows.carries c).held (hc (hflows.length ▸ hlt))

/-- A solver may change whatever it likes while it does not run, and all but its links later. -/
theorem keeps_setSolver (hk : n.solvers[k]? = some s)
    (hrun : s.running = true → s'.running = true ∧ s'.id = s.id ∧ s'.interfaces = s.interfaces)
    (hlinked : n.Linked → ∀ {b : NodeId} {i : Interface}, s'.interfaces.get? b = some i → i.tx < n.channels.length) :
    Keeps n (n.setSolver k s') := by
  have hlt := (List.getElem?_eq_some_iff.mp hk).1
  refine ⟨fun {j u} hj hu => ?_, fun hn => ?_, id⟩
  · by_cases hjk : k = j
    · subst hjk
      rw [hk] at hj
      cases hj
      exact ⟨s', List.getElem?_set_self hlt, hrun hu⟩
    · exact ⟨u, (List.getElem?_set_ne hjk).trans hj, hu, rfl, rfl⟩
  · intro j u b i hj hi
    have hj : (n.solvers.set k s')[j]? = some u := hj
    by_cases hjk : k = j
    · subst hjk
      rw [List.getElem?_set_self hlt] at hj
      cases hj
      exact hlinked hn hi
    · exact hn ((List.getElem?_set_ne hjk).symm.trans hj) hi

theorem keeps_setSolver_of_eq (hk : n.solvers[k]? = some s) (hrun : s.running = true → s'.running = true)
    (hid : s'.id = s.id) (hi : s'.interfaces = s.interfaces) : Keeps n (n.setSolver k s') :=
  keeps_setSolver hk (fun h => ⟨hrun h, hid, hi⟩) fun hn _ _ hb => hn hk (hi ▸ hb)

theorem solvers_release (n : Network) (s : Solver) :
    (n.release s).solvers = n.solvers ∧ (n.release s).tasks = n.tasks := by
  unfold release
  generalize s.receivers = receivers
  induction receivers generalizing n with
  | nil => exact ⟨rfl, rfl⟩
  | cons v receivers ih => exact ih (n.dropEnd v.endpoint)

theorem keeps_addSolver (n : Network) (a : NodeId) (config : SolverConfig) :
    Keeps n (n.addSolver a config) ∧ (n.addSolver a config).tasks = n.tasks := by
  have hadd : ∀ l : Network, Keeps l { l with
      solvers := l.solvers ++ [.create a config], names := l.names.insert a l.solvers.length } := by
    intro l
    refine ⟨fun hk hrun => ⟨_, ?_, hrun, rfl, rfl⟩, fun hl => ?_, id⟩
    · exact (List.getElem?_append_left (List.getElem?_eq_some_iff.mp hk).1).trans hk
    · intro k s b i hk hi
      rcases List.mem_append.mp (List.mem_of_getElem? hk) with hold | hnew
      · obtain ⟨j, hj⟩ := List.mem_iff_getElem?.mp hold
        exact hl hj hi
      · rw [List.mem_singleton.mp hnew] at hi
        cases hi
  unfold addSolver
  cases n.solver? a with
  | none => exact ⟨hadd n, rfl⟩
  | some s =>
    obtain ⟨hsolvers, htasks⟩ := solvers_release n s
    exact ⟨(keeps_flows hsolvers (flows_release n s)).trans (hadd _), htasks⟩

theorem keeps_link (n : Network) (a b : NodeId) (capacity : Nat) : Keeps n (n.link a b capacity).2.2 := by
  have hlength : (n.link a b capacity).2.2.channels.length = n.channels.length + 2 := List.length_append
  refine ⟨fun hk hrun => ⟨_, hk, hrun, rfl, rfl⟩, fun hn => ?_, fun {c} hc hlt => ?_⟩
  · intro k s b i hk hi
    exact Nat.lt_of_lt_of_le (hn hk hi) (by omega)
  · have hheld := hc (Nat.lt_of_lt_of_le hlt (by omega))
    simp only [channel, Network.link, List.getD_eq_getElem?_getD, List.getElem?_append_left hlt] at hheld
    rwa [channel, List.getD_eq_getElem?_getD]

theorem keeps_onSolver {α : Type} {f : Solver → Except SetupError (α × Solver)}
    (hf : ∀ {k s v s'}, n.solvers[k]? = some s → f s = .ok (v, s') → Keeps n (n.setSolver k s')) (a : NodeId) :
    Keeps n (n.onSolver a f).network ∧ (n.onSolver a f).network.tasks = n.tasks := by
  rcases onSolver_cases n a f with ⟨err, h⟩ | ⟨k, s, v, s', hs, hv, h⟩
  · rw [h]
    exact ⟨.refl n, rfl⟩
  · rw [h]
    exact ⟨hf (lookup_eq_some.mp hs).2 hv, rfl⟩

theorem keeps_attachEnd (a : NodeId) (role : Role) {e : Endpoint} (he : e.tx < n.channels.length) :
    Keeps n (n.attachEnd a role e).network ∧ (n.attachEnd a role e).network.tasks = n.tasks := by
  have h := keeps_onSolver (n := n) (f := fun s => (s.attach role e).map ((), ·)) (fun {k s v s'} hk hv => ?_) a
  · unfold attachEnd
    dsimp only
    split
    · exact h
    · exact ⟨h.1.trans (keeps_flows rfl (flows_dropEnd _ e)), h.2⟩
  · have hattach := map_attach_ok hv
    unfold Solver.attach at hattach
    split at hattach
    · cases hattach
    · rename_i hidle
      split at hattach
      · cases hattach
      · cases hattach
        refine keeps_setSolver hk (fun hrun => absurd hrun hidle) fun hn b i hi => ?_
        have hi : (s.interfaces.insert e.peer ⟨role, e.tx⟩).get? b = some i := hi
        rw [Table.get?_insert] at hi
        split at hi
        · cases hi
          exact he
        · exact hn hk hi

theorem keeps_addRule (n : Network) (a : NodeId) (text : String) :
    Keeps n (n.addRule a text).network ∧ (n.addRule a text).network.tasks = n.tasks := by
  refine keeps_onSolver (fun {k s v s'} hk hv => ?_) a
  unfold Solver.addRule at hv
  split at hv
  · cases hv
    exact keeps_setSolver_of_eq hk id rfl rfl
  · cases hv

theorem keeps_addRoute (n : Network) (a : NodeId) (key : String) (b : NodeId) (metric : Nat) :
    Keeps n (n.addRoute a key b metric).network ∧ (n.addRoute a key b metric).network.tasks = n.tasks := by
  refine keeps_onSolver (fun {k s v s'} hk hv => ?_) a
  unfold Solver.addRoute at hv
  split at hv
  · cases hv
    exact keeps_setSolver_of_eq hk id rfl rfl
  · cases hv

/-- The new tasks of a solver work for one that runs, and have nothing to send. -/
theorem keeps_start (n : Network) (a : NodeId) : Keeps n (n.start a).network ∧
    ∃ tasks, (n.start a).network.tasks = n.tasks ++ tasks ∧ ∀ t ∈ tasks, t.toSend = [] ∧
      ∃ k s, t.worker.solver? = some k ∧ (n.start a).network.solvers[k]? = some s ∧ s.running = true := by
  unfold start
  split
  · exact ⟨.refl n, [], (List.append_nil _).symm, by simp⟩
  · rename_i k s hs
    have hk := (lookup_eq_some.mp hs).2
    have hlt := Named.lt_length hs
    split
    · exact ⟨.refl n, [], (List.append_nil _).symm, by simp⟩
    · rename_i receivers s' hstart
      unfold Solver.start at hstart
      split at hstart
      · cases hstart
      · cases hstart
        refine ⟨?_, _, rfl, fun t ht => ?_⟩
        · have hset : Keeps n (n.setSolver k { s with receivers := [], running := true }) :=
            keeps_setSolver_of_eq hk (fun _ => rfl) rfl rfl
          exact hset.trans (keeps_flows rfl (flows_of_eq rfl still_nil))
        · obtain ⟨v, -, rfl⟩ := List.mem_map.mp ht
          refine ⟨rfl, k, _, ?_, List.getElem?_set_self hlt, rfl⟩
          cases hrole : v.role with
          | solverPeer => rfl
          | leaf => rfl

theorem keeps_offer (n : Network) (s : Solver) (out : List Outbound) : Keeps n (n.offer s out).1 :=
  keeps_flows (same_offer n s out).solvers (flows_offer n s out)

theorem keeps_addSource {a r : NodeId} {d : String} (hs : n.lookup a = some (k, s)) :
    Keeps n ((n.setSolver k (withSource s d r)).offer (withSource s d r) (sourceNews (withSource s d r) d)).1 := by
  have hset : Keeps n (n.setSolver k (withSource s d r)) := keeps_setSolver_of_eq (lookup_eq_some.mp hs).2 id rfl rfl
  exact hset.trans (keeps_offer _ _ _)

/-! ## Moves -/

theorem tasks_offerOne (n : Network) (s : Solver) (o : Outbound) : (n.offerOne s o).1.tasks = n.tasks := by
  unfold offerOne
  split
  · rfl
  · split
    · rfl
    · rfl
    · rfl

theorem tasks_offer (n : Network) (s : Solver) (out : List Outbound) : (n.offer s out).1.tasks = n.tasks := by
  show (offerEach s out n).1.tasks = n.tasks
  induction out generalizing n with
  | nil => rfl
  | cons o out ih => exact (ih _).trans (tasks_offerOne n s o)

theorem solvers_finish (n : Network) (i : TaskId) (t : Task) (how : Ending) :
    (n.finish i t how).solvers = n.solvers := by
  unfold finish
  dsimp only
  split
  · rfl
  · rfl
  · rfl

/-- Only a turn changes a solver, and none that runs loses its links in one. -/
theorem Move.keeps (h : Move depth n i t offered es m) : Keeps n m := by
  have hflows := h.flows
  cases h with
  | @serve since p ch k s turn hphase htake hk hs hturn =>
    obtain ⟨pending, routes, he⟩ := Solver.handle_frame ⟨depth, hturn⟩
    have htaken : Keeps n (n.setChannel t.endpoint.rx ch) := keeps_flows rfl (flows_take htake)
    have hset : Keeps (n.setChannel t.endpoint.rx ch) (n.handled t ch k turn) := by
      refine keeps_setSolver_of_eq hs (fun hrun => ?_) ?_ ?_
      · rw [he]
        exact hrun
      · rw [he]
      · rw [he]
    have hoffer := flows_offer (n.handled t ch k turn) turn.solver (turn.out.filter isAnnouncement)
    exact (htaken.trans hset).trans (keeps_flows (same_offer _ _ _).solvers (hoffer.setTask _ _))
  | idle => exact keeps_flows (same_offer _ _ _).solvers hflows
  | renew => exact keeps_flows (same_offer _ _ _).solvers hflows
  | answered => exact keeps_flows (solvers_finish _ _ _ _) hflows
  | close => exact keeps_flows (solvers_finish _ _ _ _) hflows
  | late => exact keeps_flows (solvers_finish _ _ _ _) hflows
  | withdraw => exact keeps_flows (solvers_finish n i t .late) hflows
  | hangUp => exact keeps_flows (solvers_finish _ _ _ _) hflows
  | reply => exact keeps_flows rfl hflows
  | ignore => exact keeps_flows rfl hflows
  | rest => exact keeps_flows rfl hflows
  | send => exact keeps_flows rfl hflows
  | skip => exact keeps_flows rfl hflows
  | enlist => exact keeps_flows rfl hflows
  | lose => exact keeps_flows rfl hflows

theorem finish_tasks (n : Network) (i : TaskId) (t : Task) (how : Ending) :
    (n.finish i t how).tasks = n.tasks.set i { t with phase := .ended how } := by
  unfold finish
  dsimp only
  split
  · rfl
  · rfl
  · rfl

/-! ## What is not a move -/

theorem send_frame {e : Endpoint} {p : Packet} {how : Sent} (h : n.send e p = (how, m, es)) :
    m.solvers = n.solvers ∧ m.tasks = n.tasks := by
  unfold send at h
  split at h
  · cases h
    exact ⟨rfl, rfl⟩
  · cases h
    exact ⟨rfl, rfl⟩
  · cases h
    exact ⟨rfl, rfl⟩

theorem receive_frame {e : Endpoint} {received : Received} (h : n.receive e = (received, m, es)) :
    m.solvers = n.solvers ∧ m.tasks = n.tasks := by
  unfold receive at h
  split at h
  · cases h
    exact ⟨rfl, rfl⟩
  · cases h
    exact ⟨rfl, rfl⟩
  · cases h
    exact ⟨rfl, rfl⟩

/-- The tasks that there are stay as they are, and new ones of solvers have nothing to send. -/
structure Aside (n m : Network) (log : List Act) : Prop where
  keeps : Keeps n m
  tasks : ∃ new, m.tasks = n.tasks ++ new ∧ ∀ t ∈ new, ∀ {k}, t.worker.solver? = some k →
    t.toSend = [] ∧ ∃ s, m.solvers[k]? = some s ∧ s.running = true
  acts : ∀ act ∈ log, act.task = none

theorem aside_of_eq (hkeeps : Keeps n m) (htasks : m.tasks = n.tasks) (hacts : ∀ act ∈ log, act.task = none) :
    Aside n m log :=
  ⟨hkeeps, ⟨[], htasks.trans (List.append_nil _).symm, List.forall_mem_nil _⟩, hacts⟩

theorem Aside.silent (h : Keeps n m) (htasks : m.tasks = n.tasks) : Aside n m [] :=
  aside_of_eq h htasks (List.forall_mem_nil _)

theorem Aside.act (h : Keeps n m) (htasks : m.tasks = n.tasks) {act : Act} (hact : act.task = none) : Aside n m [act] :=
  aside_of_eq h htasks (List.forall_mem_singleton.mpr hact)

theorem aside_start (n : Network) (a : NodeId) : Aside n (n.start a).network [] := by
  obtain ⟨hkeeps, tasks, htasks, hnew⟩ := keeps_start n a
  refine ⟨hkeeps, ⟨tasks, htasks, fun t ht k hk => ?_⟩, List.forall_mem_nil _⟩
  obtain ⟨hempty, k', s, hk', hs, hrun⟩ := hnew t ht
  rw [hk] at hk'
  cases hk'
  exact ⟨hempty, s, hs, hrun⟩

theorem aside_addTask (n : Network) {worker : Worker} (hleaf : worker.solver? = none) (e : Endpoint) (phase : Phase) :
    Aside n (n.addTask worker e phase) [] := by
  have hkeeps : Keeps n (n.addTask worker e phase) := keeps_flows rfl (flows_of_eq rfl still_nil)
  refine ⟨hkeeps, ⟨[⟨worker, e, phase⟩], rfl, fun t ht k hk => ?_⟩, List.forall_mem_nil _⟩
  rw [List.mem_singleton.mp ht, hleaf] at hk
  cases hk

theorem aside_addSource {a r : NodeId} {d : String} (hs : n.lookup a = some (k, s))
    (hm : (n.setSolver k (withSource s d r)).offer (withSource s d r) (sourceNews (withSource s d r) d) = (m, es)) :
    Aside n m [.bySolver (some (withSource s d r)) none (sourceNews (withSource s d r) d) es m] := by
  have hkeeps := keeps_addSource (d := d) (r := r) hs
  have htasks := tasks_offer (n.setSolver k (withSource s d r)) (withSource s d r) (sourceNews (withSource s d r) d)
  rw [hm] at hkeeps htasks
  exact .act hkeeps htasks rfl

/-- What holds at the start, and on through moves and all that leaves the tasks alone, holds of every record. -/
theorem Recorded.byMoves {P : Network → List Act → Prop} (hempty : P .empty [])
    (haside : ∀ {n m log log'}, Recorded n log → P n log → Aside n m log' → P m (log ++ log'))
    (hmove : ∀ {n m log depth i t offered es}, Recorded n log → P n log → n.tasks[i]? = some t →
      Move depth n i t offered es m → P m (log ++ [.bySolver (n.solverOf t) (some i) offered es m]))
    (h : Recorded n log) : P n log := by
  have hsilent : ∀ {n m log}, Recorded n log → P n log → Aside n m [] → P m log := by
    intro n m log h hP ha
    have hnil := haside h hP ha
    rwa [List.append_nil] at hnil
  induction h with
  | empty => exact hempty
  | addSolver h ih => exact hsilent h ih (.silent (keeps_addSolver _ _ _).1 (keeps_addSolver _ _ _).2)
  | link h ih => exact haside h ih (.act (keeps_link _ _ _ _) rfl rfl)
  | attachEnd h he ih => exact hsilent h ih (.silent (keeps_attachEnd _ _ he).1 (keeps_attachEnd _ _ he).2)
  | dropEnd h ih => exact hsilent h ih (.silent (keeps_flows rfl (flows_dropEnd _ _)) rfl)
  | addRule h ih => exact hsilent h ih (.silent (keeps_addRule _ _ _).1 (keeps_addRule _ _ _).2)
  | addRoute h ih => exact hsilent h ih (.silent (keeps_addRoute _ _ _ _ _).1 (keeps_addRoute _ _ _ _ _).2)
  | addSource h hs hm ih => exact haside h ih (aside_addSource hs hm)
  | start h ih => exact hsilent h ih (aside_start _ _)
  | addTask h hleaf ih => exact hsilent h ih (aside_addTask _ hleaf _ _)
  | send h hm ih => exact haside h ih (.act (keeps_flows (send_frame hm).1 (flows_send hm)) (send_frame hm).2 rfl)
  | receive h hm ih =>
    exact haside h ih (.act (keeps_flows (receive_frame hm).1 (flows_receive hm)) (receive_frame hm).2 rfl)
  | move h ht hm ih => exact hmove h ih ht hm
  | wait h ih => exact hsilent h ih (.silent (keeps_flows rfl (flows_of_eq rfl still_nil)) rfl)

end Network

end QueryNet
