/-
  QueryNet.Proofs.Network.Refusals — what calls leave behind when they fail.

  A call of the setting up (`SetupCall`) asks first whether it can be done and changes
  the solver last, so one that fails has changed no solver. Connecting two solvers is
  the one call that is made of two such steps: the first side is attached before the
  second is asked.

  Proved: a call that fails leaves every solver as it was, unless it connects two
  solvers of which the first can be attached; then that side stays attached, and
  nothing else is changed (`refused_unchanged_iff`). So a connection that fails may
  leave an interface behind (`half_connected`).
-/

import QueryNet.Proofs.Network

namespace QueryNet

inductive SetupCall where
  | attachInterface (solver : NodeId) (role : Role) (e : Endpoint)
  | attachSource (solver source : NodeId) (key : String)
  | attachRequest (solver requester : NodeId)
  | addRule (solver : NodeId) (text : String)
  | addRoute (solver : NodeId) (key : String) (neighbor : NodeId) (metric : Nat)
  | start (solver : NodeId)
  | connect (a b : NodeId)

/-- What a call leaves behind, without what it gives out. -/
def Setup.forget {α : Type} (r : Setup α) : Setup Unit := ⟨r.network, r.events, r.result.map fun _ => ()⟩

theorem Setup.forget_error {α : Type} {r : Setup α} {err : SetupError} (h : r.forget.result = .error err) :
    r.result = .error err := by
  unfold forget at h
  cases hr : r.result with
  | error err' =>
    rw [hr] at h
    cases h
    rfl
  | ok a =>
    rw [hr] at h
    cases h

def SetupCall.perform (n : Network) : SetupCall → Setup Unit
  | .attachInterface a role e => n.attachEnd a role e
  | .attachSource a source key => (n.attachSource a source key).forget
  | .attachRequest a requester => (n.attachRequest a requester).forget
  | .addRule a text => (n.addRule a text).forget
  | .addRoute a key neighbor metric => n.addRoute a key neighbor metric
  | .start a => (n.start a).forget
  | .connect a b => n.connect a b

/-- The call attaches the first side of a link between solvers. -/
def SetupCall.Opens (n : Network) : SetupCall → Prop
  | .connect a b => ∃ k s, n.lookup a = some (k, s) ∧ s.running = false ∧ s.interfaces.get? b = none
  | _ => False

def Solver.attached (s : Solver) (role : Role) (e : Endpoint) : Solver :=
  { s with
    interfaces := s.interfaces.insert e.peer ⟨role, e.tx⟩
    receivers := s.receivers ++ [⟨e.peer, role, e.tx, e.rx⟩] }

theorem Solver.attached_ne (s : Solver) (role : Role) (e : Endpoint) : s.attached role e ≠ s := by
  intro h
  have hlength := congrArg (fun u : Solver => u.receivers.length) h
  simp [attached] at hlength

theorem Solver.attach_eq_ok_iff {s s' : Solver} {role : Role} {e : Endpoint} :
    s.attach role e = .ok s' ↔
      s.running = false ∧ s.interfaces.get? e.peer = none ∧ s' = s.attached role e := by
  unfold attach
  by_cases hrun : s.running = true
  · rw [if_pos hrun]
    simp [hrun]
  · rw [if_neg hrun]
    by_cases hthere : s.interfaces.contains e.peer = true
    · rw [if_pos hthere]
      rw [Table.contains, Option.isSome_iff_ne_none] at hthere
      simp [hthere]
    · rw [if_neg hthere]
      rw [Table.contains, Option.isSome_iff_ne_none, not_not] at hthere
      simp [hrun, hthere, attached, eq_comm]

namespace Network

variable {n : Network} {a b : NodeId} {role : Role} {e : Endpoint} {err : SetupError}

/-! ## Calls on one solver -/

theorem onSolver_error {α : Type} {f : Solver → Except SetupError (α × Solver)}
    (h : (n.onSolver a f).result = .error err) : (n.onSolver a f).network = n := by
  rcases onSolver_cases n a f with ⟨err', he⟩ | ⟨k, s, v, s', -, -, he⟩
  · rw [he]
  · rw [he] at h
    cases h

theorem attachEnd_cases (n : Network) (a : NodeId) (role : Role) (e : Endpoint) :
    (∃ err, (n.attachEnd a role e).result = .error err ∧ (n.attachEnd a role e).network = n.dropEnd e ∧
        ∀ k s, n.lookup a = some (k, s) → s.running = true ∨ s.interfaces.get? e.peer ≠ none) ∨
      ∃ k s, n.lookup a = some (k, s) ∧ s.running = false ∧ s.interfaces.get? e.peer = none ∧
        n.attachEnd a role e = ⟨n.setSolver k (s.attached role e), [], .ok ()⟩ := by
  rcases onSolver_cases n a fun s => (s.attach role e).map ((), ·) with ⟨err, he⟩ | ⟨k, s, v, s', hs, hv, he⟩
  · left
    have hsame : (n.attachEnd a role e).result = .error err ∧ (n.attachEnd a role e).network = n.dropEnd e := by
      simp only [attachEnd, he, and_self]
    refine ⟨err, hsame.1, hsame.2, fun k s hs => ?_⟩
    by_contra hfree
    rw [not_or, not_not, Bool.not_eq_true] at hfree
    have hok : s.attach role e = .ok (s.attached role e) := Solver.attach_eq_ok_iff.mpr ⟨hfree.1, hfree.2, rfl⟩
    rw [onSolver, hs] at he
    simp only [hok, Except.map] at he
    cases congrArg Setup.result he
  · right
    obtain ⟨hrun, hnew, rfl⟩ := Solver.attach_eq_ok_iff.mp (map_attach_ok hv)
    refine ⟨k, s, hs, hrun, hnew, ?_⟩
    simp only [attachEnd, he]

theorem attachEnd_error (h : (n.attachEnd a role e).result = .error err) : Same n (n.attachEnd a role e).network := by
  rcases attachEnd_cases n a role e with ⟨err', -, hnet, -⟩ | ⟨k, s, -, -, -, he⟩
  · rw [hnet]
    exact same_dropEnd n e
  · rw [he] at h
    cases h

theorem attach_error {peer : NodeId} {capacity : Nat} (h : (n.attach a peer role capacity).result = .error err) :
    Same n (n.attach a peer role capacity).network := by
  have hlink : Same n (n.link a peer capacity).2.2 := ⟨rfl, rfl⟩
  unfold attach at h ⊢
  dsimp only at h ⊢
  split at h
  · cases h
  · rename_i hfailed
    exact (hlink.trans (attachEnd_error hfailed)).trans (same_dropEnd _ _)

theorem attachSource_refused {source : NodeId} {key : String} (h : (n.attachSource a source key).result = .error err) :
    Same n (n.attachSource a source key).network := by
  unfold attachSource at h ⊢
  dsimp only at h ⊢
  split at h
  · rename_i hok _
    rw [hok] at h
    cases h
  · exact attach_error h

theorem start_error (h : (n.start a).result = .error err) : Same n (n.start a).network := by
  unfold start at h ⊢
  split at h
  · exact .refl n
  · split at h
    · exact .refl n
    · cases h

/-! ## Connecting -/

/-- The near and the far end of the link that connecting makes. -/
theorem connect_eq (n : Network) (a b : NodeId) :
    ∃ l : Network, Same n l ∧
      n.connect a b =
        match (l.attachEnd a .solverPeer ⟨b, n.channels.length, n.channels.length + 1⟩).result with
        | .error err =>
          ⟨(l.attachEnd a .solverPeer ⟨b, n.channels.length, n.channels.length + 1⟩).network.dropEnd
            ⟨a, n.channels.length + 1, n.channels.length⟩,
            (l.attachEnd a .solverPeer ⟨b, n.channels.length, n.channels.length + 1⟩).events, .error err⟩
        | .ok _ =>
          (l.attachEnd a .solverPeer ⟨b, n.channels.length, n.channels.length + 1⟩).network.attachEnd b .solverPeer
            ⟨a, n.channels.length + 1, n.channels.length⟩ :=
  ⟨(n.link a b (max (n.capacityOf a) (n.capacityOf b))).2.2, ⟨rfl, rfl⟩, rfl⟩

/-- A connection that fails leaves the solvers as they were, or the first with its side of the link. -/
theorem connect_error (h : (n.connect a b).result = .error err) :
    (¬ SetupCall.Opens n (.connect a b) ∧ Same n (n.connect a b).network) ∨
      ∃ k s, n.lookup a = some (k, s) ∧ s.running = false ∧ s.interfaces.get? b = none ∧
        Same (n.setSolver k (s.attached .solverPeer ⟨b, n.channels.length, n.channels.length + 1⟩)) (n.connect a b).network := by
  obtain ⟨l, hl, he⟩ := connect_eq n a b
  rcases attachEnd_cases l a .solverPeer ⟨b, n.channels.length, n.channels.length + 1⟩ with
    ⟨err', hfailed, hnet, hbusy⟩ | ⟨k, s, hs, hrun, hnew, hok⟩
  · left
    simp only [hfailed, hnet] at he
    rw [he]
    refine ⟨?_, (hl.trans (same_dropEnd _ _)).trans (same_dropEnd _ _)⟩
    rintro ⟨k, s, hs, hrun, hnew⟩
    rcases hbusy k s ((hl.lookup a).trans hs) with hrun' | hthere
    · rw [hrun] at hrun'
      cases hrun'
    · exact hthere hnew
  · right
    simp only [hok] at he
    rw [he] at h ⊢
    have hset : Same (n.setSolver k (s.attached .solverPeer ⟨b, n.channels.length, n.channels.length + 1⟩))
        (l.setSolver k (s.attached .solverPeer ⟨b, n.channels.length, n.channels.length + 1⟩)) :=
      ⟨congrArg (List.set · k _) hl.solvers, hl.names⟩
    exact ⟨k, s, (hl.lookup a).symm.trans hs, hrun, hnew, hset.trans (attachEnd_error h)⟩

/-! ## Calls that fail -/

/-- A call that is not for connecting leaves the solvers as they were if it fails. -/
theorem refused_same {c : SetupCall} (hc : ∀ a b, c ≠ .connect a b) (h : (c.perform n).result = .error err) :
    Same n (c.perform n).network := by
  cases c with
  | attachInterface a role e => exact attachEnd_error h
  | attachSource a source key => exact attachSource_refused (Setup.forget_error h)
  | attachRequest a requester => exact attach_error (Setup.forget_error h)
  | addRule a text =>
    have hnet := onSolver_error (Setup.forget_error h)
    show Same n (n.addRule a text).network
    rw [addRule, hnet]
    exact .refl n
  | addRoute a key neighbor metric =>
    have hnet := onSolver_error h
    show Same n (n.addRoute a key neighbor metric).network
    rw [addRoute, hnet]
    exact .refl n
  | start a => exact start_error (Setup.forget_error h)
  | connect a b => exact absurd rfl (hc a b)

/-- A call that fails changes no solver, except that the first of two solvers which it was to connect stays attached
    if it could be: then this solver has an interface for the other, and all else is as it was. -/
theorem refused_unchanged_iff {c : SetupCall} (h : (c.perform n).result = .error err) :
    (Same n (c.perform n).network ↔ ¬ c.Opens n) ∧
      ∀ a b k s, c = .connect a b → n.lookup a = some (k, s) → s.running = false → s.interfaces.get? b = none →
        Same (n.setSolver k (s.attached .solverPeer ⟨b, n.channels.length, n.channels.length + 1⟩))
          (c.perform n).network := by
  by_cases hconnect : ∃ a b, c = .connect a b
  · obtain ⟨a, b, rfl⟩ := hconnect
    rcases connect_error h with ⟨hclosed, hsame⟩ | ⟨k, s, hs, hrun, hnew, hhalf⟩
    · refine ⟨iff_of_true hsame hclosed, ?_⟩
      rintro _ _ k s ⟨⟩ hs hrun hnew
      exact absurd ⟨k, s, hs, hrun, hnew⟩ hclosed
    · refine ⟨iff_of_false (fun hsame => ?_) (not_not.mpr ⟨k, s, hs, hrun, hnew⟩), ?_⟩
      · -- the first solver is found with one more interface than it had
        have hlookup := (hhalf.lookup a).symm.trans (hsame.lookup a)
        rw [lookup_setSolver hs, hs] at hlookup
        exact Solver.attached_ne _ _ _ (congrArg Prod.snd (Option.some.inj hlookup))
      · rintro _ _ k' s' ⟨⟩ hs' - -
        rw [hs] at hs'
        cases hs'
        exact hhalf
  · have hc : ∀ a b, c ≠ .connect a b := fun a b hab => hconnect ⟨a, b, hab⟩
    have hclosed : ¬ c.Opens n := by
      cases c with
      | connect a b => exact absurd rfl (hc a b)
      | _ => exact not_false
    refine ⟨iff_of_true (refused_same hc h) hclosed, ?_⟩
    intro a b k s hab
    exact absurd hab (hc a b)

def lateTown : Network := (((empty.addSolver "a" .standard).addSolver "b" .standard).start "b").network

/-- The running solver refuses its side of a link; the other solver could have been attached. -/
theorem lateTown_keeps_half :
    ((SetupCall.connect "a" "b").perform lateTown).result = .error (.alreadyRunning "b") ∧
      ¬ Same lateTown ((SetupCall.connect "a" "b").perform lateTown).network := by
  have hrefused : ((SetupCall.connect "a" "b").perform lateTown).result = .error (.alreadyRunning "b") := rfl
  refine ⟨hrefused, fun hsame => (refused_unchanged_iff hrefused).1.mp hsame ?_⟩
  exact ⟨0, .create "a" .standard, rfl, rfl, rfl⟩

/-- Connecting an idle solver to a running one fails, and yet the idle one has an interface for it after. -/
theorem half_connected :
    (lateTown.connect "a" "b").result = .error (.alreadyRunning "b") ∧
      (lateTown.solver? "a").map (·.interfaces.keys) = some [] ∧
      ((lateTown.connect "a" "b").network.solver? "a").map (·.interfaces.keys) = some ["b"] :=
  ⟨rfl, rfl, rfl⟩

end Network

end QueryNet
