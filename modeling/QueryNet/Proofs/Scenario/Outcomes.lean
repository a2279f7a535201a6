/-
  QueryNet.Proofs.Scenario.Outcomes — what is reported of a scenario.

  A scenario that is not faulty is set up, and whatever comes of its network there is one
  outcome for each request, in order, with its name and its query: an answer with
  bindings, or none in time (`Going.reports`). Solvers do not say that nothing matches, and
  no requester finds its link closed.

  Running a scenario is one such execution, on the clock: its requesters come last, and
  they are asked for by their numbers (`Laid.run_eq_some`). Packets may go round for ever at
  one instant, and then the run takes too many moves. But time passes meanwhile, and so the
  requesters end all the same: that is said of fair executions (`Wiring.Reporting`).

  Proved: running a scenario fails if and only if it is faulty, and otherwise reports on
  every request (`scenario_reports`).
-/

import QueryNet.Proofs.Scenario.Endings

namespace QueryNet

namespace Scenario

open Network

structure Reports (q : RequestSpec) (o : RequestOutcome) : Prop where
  request : o.request = q.id
  query : ∃ a, Atom.parse q.query = .ok a ∧ o.query = a.canonical
  outcome : o.outcome = .stalled ∨ ∃ b, o.outcome = .bound b

namespace Wiring

variable {w : Wiring} {timeout : Nat} {ids : List NodeId} {sources : List (Source × Endpoint)}
  {requests : List (Request × Endpoint)} {specs : List RequestSpec} {n m : Network}

/-- A requester has an answer that binds, or none. -/
theorem Going.outcome (h : Going w ids sources requests n) {t : Task} (ht : t ∈ n.tasks) {r : Request}
    (hr : t.request? = some r) : Outcome.ofTask t = .stalled ∨ ∃ b, Outcome.ofTask t = .bound b := by
  obtain ⟨d, hworker⟩ := Task.request?_eq_some hr
  have hleaf : t.worker.solver? = none := by rw [hworker]; rfl
  unfold Outcome.ofTask
  cases hphase : t.phase with
  | listening since => exact .inl rfl
  | sending rest => exact .inl rfl
  | ended how =>
    cases how with
    | closed => exact absurd hphase (h.connected t ht hleaf)
    | late => exact .inl rfl
    | answered a =>
      obtain ⟨l, hl, -⟩ := h.fitted
      obtain ⟨-, -, b, -, rfl, -⟩ := (hl.lines.task t ht).answered a hphase
      exact .inr ⟨b, rfl⟩

/-- The outcomes of tasks of which the requesters are those that are to ask. -/
theorem reports_of_tasks {tasks : List Task}
    (houtcome : ∀ t ∈ tasks, ∀ r, t.request? = some r →
      Outcome.ofTask t = .stalled ∨ ∃ b, Outcome.ofTask t = .bound b)
    (hasks : List.Forall₂ Asks specs requests) (htasks : tasks.filterMap Task.request? = requests.map (·.1)) :
    List.Forall₂ Reports specs (tasks.filterMap Task.outcome?) := by
  induction tasks generalizing specs requests with
  | nil =>
    obtain rfl := List.map_eq_nil_iff.mp htasks.symm
    obtain rfl := List.forall₂_nil_right_iff.mp hasks
    exact .nil
  | cons t tasks ih =>
    have hrest := fun u hu => houtcome u (List.mem_cons_of_mem _ hu)
    cases hr : t.request? with
    | none =>
      have hnone : t.outcome? = none := by simp [Task.outcome?, hr]
      rw [List.filterMap_cons_none hnone]
      exact ih hrest hasks (by simpa [List.filterMap_cons, hr] using htasks)
    | some r =>
      have hsome : t.outcome? = some ⟨r.id, r.query.canonical, Outcome.ofTask t⟩ := by simp [Task.outcome?, hr]
      rw [List.filterMap_cons_some hsome]
      rw [List.filterMap_cons_some hr] at htasks
      cases hasks with
      | nil => cases htasks
      | cons hask hasks =>
        obtain ⟨rfl, hmore⟩ := List.cons.inj htasks
        refine .cons ⟨hask.1, ⟨_, hask.2, rfl⟩, ?_⟩ (ih hrest hasks hmore)
        exact houtcome t (List.mem_cons_self ..) _ hr

/-- When all are started there is an outcome for each request. -/
theorem Going.reports (h : Going w ids sources [] n) (hasks : List.Forall₂ Asks specs w.requests) :
    List.Forall₂ Reports specs n.outcomes :=
  reports_of_tasks (fun _ ht _ hr => h.outcome ht hr) hasks (by simpa using h.asked)

/-! ## The run on the clock -/

theorem Execution.started (h : Execution w timeout ids sources requests n) :
    Execution w timeout [] [] requests
      (sources.foldl (fun n s => n.startSource s.1 s.2) (ids.foldl (fun n id => (n.start id).network) n)) := by
  induction ids generalizing n with
  | cons a ids ih => exact ih h.solver
  | nil =>
    induction sources generalizing n with
    | nil => exact h
    | cons d sources ih => exact ih h.source

theorem Execution.allAsked (h : Execution w timeout [] [] requests n) :
    Execution w timeout [] [] [] (requests.foldl (fun m r => m.startRequest r.1 r.2 (some (n.now + timeout))) n) := by
  have hnow : ∀ {m : Network}, m.now = n.now → Execution w timeout [] [] requests m →
      Execution w timeout [] [] [] (requests.foldl (fun m r => m.startRequest r.1 r.2 (some (n.now + timeout))) m) := by
    clear h
    induction requests with
    | nil => exact fun _ h => h
    | cons r requests ih =>
      intro m hm h
      have hone := h.request
      rw [hm] at hone
      exact ih hm hone
  exact hnow rfl h

/-- The requesters come after all other tasks. -/
theorem requesters_ask (n : Network) (requests : List (Request × Endpoint)) (deadline : Nat) :
    (requests.foldl (fun m r => m.startRequest r.1 r.2 (some deadline)) n).tasks.map Task.request? =
      n.tasks.map Task.request? ++ requests.map (some ·.1) := by
  induction requests generalizing n with
  | nil => simp
  | cons r requests ih =>
    have hone : (n.startRequest r.1 r.2 (some deadline)).tasks.map Task.request? =
        n.tasks.map Task.request? ++ [some r.1] := by
      simp [Network.startRequest, addTask, Task.request?]
    rw [List.foldl_cons, ih, hone]
    simp

/-- Asked for by its number, each task after the first ones is its request's. -/
theorem outcomes_of_numbers {tasks : List Task} {first k : Nat} (hn : ∀ j : Nat, n.tasks[first + k + j]? = tasks[j]?)
    (htasks : tasks.map Task.request? = requests.map (some ·.1)) :
    (requests.zipIdx k).map (fun r => outcomeOf n r.1.1 (first + r.2)) = tasks.filterMap Task.outcome? := by
  induction tasks generalizing k requests with
  | nil =>
    obtain rfl := List.map_eq_nil_iff.mp htasks.symm
    rfl
  | cons t tasks ih =>
    cases requests with
    | nil => cases htasks
    | cons r requests =>
      obtain ⟨hr, htasks⟩ := List.cons.inj htasks
      have ht : n.tasks[first + k]? = some t := hn 0
      have hsome : t.outcome? = some (outcomeOf n r.1 (first + k)) := by simp [Task.outcome?, outcomeOf, ht, hr]
      have hrest : ∀ j : Nat, n.tasks[first + (k + 1) + j]? = tasks[j]? := by
        intro j
        have hnext := hn (j + 1)
        rwa [List.getElem?_cons_succ, Nat.add_comm j 1, ← Nat.add_assoc] at hnext
      rw [List.filterMap_cons_some hsome, List.zipIdx_cons, List.map_cons, ih hrest htasks]

/-- Running on the clock goes on with an execution, and leaves the requesters in their places. -/
theorem Execution.runTo (h : Execution w timeout ids sources requests n) {depth target moves : Nat}
    {stop : Network → Bool} {turns : List TaskId} {log log' : List Event}
    (hm : n.runTo depth stop target moves turns log = some (m, log')) :
    Execution w timeout ids sources requests m ∧ m.tasks.map Task.request? = n.tasks.map Task.request? := by
  have hkept : ∀ {l l' : Network},
      (Execution w timeout ids sources requests l ∧ l.tasks.map Task.request? = n.tasks.map Task.request?) → l.Next l' →
      Execution w timeout ids sources requests l' ∧ l'.tasks.map Task.request? = n.tasks.map Task.request? :=
    fun hl hnext => ⟨hl.1.next hnext, hnext.requesters.trans hl.2⟩
  exact runTo_keeps (fun hl hstep => hkept hl (.move hstep)) (fun hl _ hle => hkept hl (.wait hle)) ⟨h, rfl⟩ hm

/-- A run reports what has become of the requests in an execution. -/
theorem Laid.run_eq_some {known : NodeId → Prop} {linked : NodeId → NodeId → Prop} (hw : w.Laid known linked specs)
    {settings : Settings} {outcomes : List RequestOutcome} (h : w.run settings = some outcomes) :
    ∃ n, Execution w settings.answerTimeout [] [] [] n ∧ outcomes = n.outcomes := by
  obtain ⟨⟨n₁, log₁⟩, hsettle, h⟩ := Option.bind_eq_some_iff.mp h
  obtain ⟨⟨n₂, log₂⟩, hrun, h⟩ := Option.bind_eq_some_iff.mp h
  obtain rfl := Option.some.inj h
  obtain ⟨⟨l, log⟩, hmoves, he⟩ := Option.map_eq_some_iff.mp hsettle
  cases he
  obtain ⟨h₁, -⟩ := Execution.wired.started.runTo hmoves
  obtain ⟨h₂, hsame⟩ := h₁.allAsked.runTo hrun
  refine ⟨n₂, h₂, ?_⟩
  rw [requesters_ask] at hsame
  -- before the requesters there were tasks of solvers and sources only
  have hnone : l.tasks.filterMap Task.request? = [] := by simpa using (h₁.going hw).asked
  have hfirst : (n₂.tasks.take l.tasks.length).filterMap Task.outcome? = [] := by
    refine List.filterMap_eq_nil_iff.mpr fun t ht => ?_
    have hmem : t.request? ∈ l.tasks.map Task.request? := by
      have htake : (n₂.tasks.take l.tasks.length).map Task.request? = l.tasks.map Task.request? := by
        rw [List.map_take, hsame]
        exact List.take_left' (List.length_map ..)
      exact htake ▸ List.mem_map_of_mem ht
    obtain ⟨u, hu, hr⟩ := List.mem_map.mp hmem
    rw [Task.outcome?, ← hr, List.filterMap_eq_nil_iff.mp hnone u hu]
    rfl
  have hlast : (n₂.tasks.drop l.tasks.length).map Task.request? = w.requests.map (some ·.1) := by
    rw [List.map_drop, hsame]
    exact List.drop_left' (List.length_map ..)
  rw [Network.outcomes, ← List.take_append_drop l.tasks.length n₂.tasks, List.filterMap_append, hfirst, List.nil_append]
  refine outcomes_of_numbers (fun j => ?_) hlast
  rw [List.getElem?_drop, Nat.add_zero]

theorem Execution.fair {σ : Nat → Network} (h : Execution w timeout ids sources requests (σ 0)) (hfair : Fair σ)
    (k : Nat) : Execution w timeout ids sources requests (σ k) := by
  induction k with
  | zero => exact h
  | succ k ih => exact ih.next (hfair.next k)

end Wiring

/-! ## What is reported -/

/-- What becomes of a network that is set up for a scenario, in whatever order its tasks move. -/
structure Wiring.Reporting (w : Wiring) (timeout : Nat) (specs : List RequestSpec) : Prop where
  /-- Every solver can be started when its turn comes. -/
  starts : ∀ a ids sources requests n, Execution w timeout (a :: ids) sources requests n →
    ∃ count, (n.start a).result = .ok count
  /-- Whenever one looks, there is an outcome for each request. -/
  reports : ∀ n, Execution w timeout [] [] [] n → List.Forall₂ Reports specs n.outcomes
  /-- Whatever has happened, things can go on fairly. -/
  goes : ∀ n, Execution w timeout [] [] [] n → ∃ σ : Nat → Network, σ 0 = n ∧ Fair σ
  /-- And then in the end all requesters have ended, and the outcomes are final. -/
  ends : ∀ σ : Nat → Network, Execution w timeout [] [] [] (σ 0) → Fair σ →
    ∃ k outcomes, List.Forall₂ Reports specs outcomes ∧ ∀ j ≥ k, (σ j).AllEnded ∧ (σ j).outcomes = outcomes

/-- Running a scenario fails if and only if it is faulty. Otherwise there is an outcome for each request, in order, and
    it is an answer or that none came in time: in what is reported, and in whatever comes of the scenario's network;
    and one time the outcomes are final. -/
theorem scenario_reports (s : Scenario) :
    ((∃ e, s.run = .error e) ↔ s.Faulty) ∧
      (∀ outcomes, s.run = .ok (some outcomes) → List.Forall₂ Reports s.requests outcomes) ∧
      ∀ w, s.wire = .ok w → w.Reporting s.settings.answerTimeout s.requests := by
  have hwire := wire_succeedsIff s
  have hlaid : ∀ w, s.wire = .ok w → ∃ linked, w.Laid s.HasSolver linked s.requests := fun w hw => (hwire.of_ok hw).2
  refine ⟨?_, fun outcomes h => ?_, fun w hw => ?_⟩
  · rw [faulty_iff, ← hwire.error_iff]
    unfold Scenario.run
    cases s.wire with
    | error e => exact ⟨fun _ => ⟨e, rfl⟩, fun _ => ⟨e, rfl⟩⟩
    | ok w => exact ⟨fun ⟨e, he⟩ => (by cases he), fun ⟨e, he⟩ => (by cases he)⟩
  · unfold Scenario.run at h
    cases hw : s.wire with
    | error e =>
      rw [hw] at h
      cases h
    | ok w =>
      rw [hw] at h
      have hrun : w.run s.settings = some outcomes := Except.ok.inj h
      obtain ⟨linked, hl⟩ := hlaid w hw
      obtain ⟨n, hn, rfl⟩ := hl.run_eq_some hrun
      exact (hn.going hl).reports hl.requests
  · obtain ⟨linked, hl⟩ := hlaid w hw
    refine ⟨fun a ids sources requests n hn => (hn.going hl).start_ok, fun n hn => (hn.going hl).reports hl.requests,
      fun n hn => exists_fair (hn.going hl).timed, fun σ hn hfair => ?_⟩
    obtain ⟨k, hk⟩ := hfair.settles (hn.going hl).timed
    exact ⟨k, (σ k).outcomes, ((hn.fair hfair k).going hl).reports hl.requests, hk⟩

def library : Scenario where
  settings := .standard
  solvers := [⟨"desk", []⟩]
  links := []
  sources := [⟨"shelf", "desk", "shelved(dune, fiction)"⟩]
  routes := []
  requests := [⟨"reader", "desk", "shelved(?Book, fiction)"⟩, ⟨"visitor", "desk", "lent(?Book)"⟩]

def libraryOutcomes : List RequestOutcome :=
  [⟨"reader", "shelved(\"?Book\", \"fiction\")", .bound (.ofList [("?Book", "dune")])⟩,
    ⟨"visitor", "lent(\"?Book\")", .stalled⟩]

/-- The library is not faulty, and runs; with its desk linked to itself it is. Once all is started, things can go on
    fairly, and then the outcomes are final. -/
theorem library_reports :
    (library.run = .ok (some libraryOutcomes) ∧ List.Forall₂ Reports library.requests libraryOutcomes) ∧
      (∃ e, run { library with links := [⟨"desk", "desk"⟩] } = .error e) ∧
      ∃ (w : Wiring) (σ : Nat → Network), library.wire = .ok w ∧ Wiring.Execution w 5000 [] [] [] (σ 0) ∧ Fair σ ∧
        ∃ k outcomes, List.Forall₂ Reports library.requests outcomes ∧ (σ k).AllEnded ∧ (σ k).outcomes = outcomes := by
  have hrun : library.run = .ok (some libraryOutcomes) := by
    have hresult : library.run.toOption = some (some libraryOutcomes) := by decide +kernel
    cases hr : library.run with
    | error e =>
      rw [hr] at hresult
      cases hresult
    | ok outcomes =>
      rw [hr] at hresult
      exact congrArg Except.ok (Option.some.inj hresult)
  refine ⟨⟨hrun, (scenario_reports library).2.1 _ hrun⟩, ?_, ?_⟩
  · have hlooped := (scenario_reports { library with links := [⟨"desk", "desk"⟩] }).1
    exact hlooped.mpr (.linkSelf (List.mem_singleton_self _) rfl)
  · obtain ⟨w, hw⟩ : ∃ w, library.wire = .ok w := by
      cases hw : library.wire with
      | ok w => exact ⟨w, rfl⟩
      | error e =>
        rw [run, hw] at hrun
        cases hrun
    have hall := (scenario_reports library).2.2 w hw
    have hwired : Wiring.Execution w 5000 w.network.names.keys w.sources w.requests w.network := .wired
    have hn := hwired.started.allAsked
    obtain ⟨σ, hfirst, hfair⟩ := hall.goes _ hn
    have hn := hfirst ▸ hn
    obtain ⟨k, outcomes, hreports, hk⟩ := hall.ends σ hn hfair
    exact ⟨w, σ, hw, hn, hfair, k, outcomes, hreports, hk k (Nat.le_refl k)⟩

end Scenario

end QueryNet
