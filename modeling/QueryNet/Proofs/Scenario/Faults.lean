/-
  QueryNet.Proofs.Scenario.Faults — which scenarios can be set up.

  A scenario is set up in five passes: solvers with their rules, links, sources, routes
  and requests. An item is good if the ones before it leave room for it, and a pass
  succeeds if and only if all its items are good (`SucceedsIff.foldlM`). What a pass
  needs to know of the earlier ones is which solvers there are and which neighbours they
  have, and the passes say how that goes on (`Wiring.Laid`): a route may lead through a
  peer or a source, but not to a requester, since these come after.

  Proved: setting up fails if and only if the scenario has one of the faults that are
  listed, wherever it is (`wire_succeedsIff`, `faulty_iff`).
-/

import QueryNet.Proofs.Scenario.Layout
import QueryNet.Scenario.Run

namespace QueryNet.Scenario

/-! ## Faults -/

def HasSolver (s : Scenario) (a : NodeId) : Prop := ∃ v ∈ s.solvers, v.id = a

/-- One of the links joins two solvers, whichever of them it names first. -/
def Joins (links : List LinkSpec) (a b : NodeId) : Prop := ∃ l ∈ links, (l.a = a ∧ l.b = b) ∨ (l.a = b ∧ l.b = a)

theorem Joins.symm {links : List LinkSpec} {a b : NodeId} (h : Joins links a b) : Joins links b a := by
  obtain ⟨l, hl, hab⟩ := h
  exact ⟨l, hl, hab.symm⟩

theorem joins_concat {links : List LinkSpec} {l : LinkSpec} {a b : NodeId} :
    Joins (links ++ [l]) a b ↔ Joins links a b ∨ (l.a = a ∧ l.b = b) ∨ (l.a = b ∧ l.b = a) := by
  simp [Joins, or_and_right, exists_or]

def Feeds (sources : List SourceSpec) (a d : NodeId) : Prop := ∃ v ∈ sources, v.solver = a ∧ v.id = d

/-- A neighbour of a solver when everything but the requests is set up. -/
def Neighbour (s : Scenario) (a b : NodeId) : Prop := Joins s.links a b ∨ Feeds s.sources a b

inductive Faulty (s : Scenario) : Prop
  | sameName {pre post : List SolverSpec} {u v : SolverSpec} :
      s.solvers = pre ++ v :: post → u ∈ pre → u.id = v.id → Faulty s
  | badRule {v : SolverSpec} {text : String} :
      v ∈ s.solvers → text ∈ v.rules → (¬ ∃ r, Rule.parse text = .ok r) → Faulty s
  | linkUnknown {l : LinkSpec} : l ∈ s.links → ¬ (s.HasSolver l.a ∧ s.HasSolver l.b) → Faulty s
  | linkSelf {l : LinkSpec} : l ∈ s.links → l.a = l.b → Faulty s
  | linkAgain {pre post : List LinkSpec} {l : LinkSpec} : s.links = pre ++ l :: post → Joins pre l.a l.b → Faulty s
  | badFact {d : SourceSpec} : d ∈ s.sources → (¬ ∃ f, Atom.parse d.fact = .ok f) → Faulty s
  | sourceUnknown {d : SourceSpec} : d ∈ s.sources → ¬ s.HasSolver d.solver → Faulty s
  | sourcePeer {d : SourceSpec} : d ∈ s.sources → Joins s.links d.solver d.id → Faulty s
  | sourceAgain {pre post : List SourceSpec} {d : SourceSpec} :
      s.sources = pre ++ d :: post → Feeds pre d.solver d.id → Faulty s
  | routeUnknown {r : RouteSpec} : r ∈ s.routes → ¬ s.HasSolver r.solver → Faulty s
  | routeNowhere {r : RouteSpec} : r ∈ s.routes → ¬ s.Neighbour r.solver r.neighbor → Faulty s
  | badQuery {q : RequestSpec} : q ∈ s.requests → (¬ ∃ a, Atom.parse q.query = .ok a) → Faulty s
  | requestUnknown {q : RequestSpec} : q ∈ s.requests → ¬ s.HasSolver q.solver → Faulty s
  | requestNeighbour {q : RequestSpec} : q ∈ s.requests → s.Neighbour q.solver q.id → Faulty s
  | requestAgain {pre post : List RequestSpec} {q q' : RequestSpec} :
      s.requests = pre ++ q :: post → q' ∈ pre → q'.solver = q.solver → q'.id = q.id → Faulty s

/-! ## Good items -/

structure GoodSolver (pre : List SolverSpec) (v : SolverSpec) : Prop where
  name : ∀ u ∈ pre, u.id ≠ v.id
  rules : ∀ text ∈ v.rules, ∃ r, Rule.parse text = .ok r

structure GoodLink (s : Scenario) (pre : List LinkSpec) (l : LinkSpec) : Prop where
  known : s.HasSolver l.a ∧ s.HasSolver l.b
  apart : l.a ≠ l.b
  new : ¬ Joins pre l.a l.b

structure GoodSource (s : Scenario) (pre : List SourceSpec) (d : SourceSpec) : Prop where
  fact : ∃ f, Atom.parse d.fact = .ok f
  known : s.HasSolver d.solver
  new : ¬ (Joins s.links d.solver d.id ∨ Feeds pre d.solver d.id)

structure GoodRoute (s : Scenario) (r : RouteSpec) : Prop where
  known : s.HasSolver r.solver
  neighbour : s.Neighbour r.solver r.neighbor

structure GoodRequest (s : Scenario) (pre : List RequestSpec) (q : RequestSpec) : Prop where
  query : ∃ a, Atom.parse q.query = .ok a
  known : s.HasSolver q.solver
  new : ¬ (s.Neighbour q.solver q.id ∨ ∃ q' ∈ pre, q'.solver = q.solver ∧ q'.id = q.id)

structure Good (s : Scenario) : Prop where
  solvers : All GoodSolver s.solvers
  links : All (GoodLink s) s.links
  sources : All (GoodSource s) s.sources
  routes : All (fun _ => GoodRoute s) s.routes
  requests : All (GoodRequest s) s.requests

/-- A scenario is faulty if and only if some item is not good. -/
theorem faulty_iff {s : Scenario} : s.Faulty ↔ ¬ s.Good := by
  constructor
  · intro hf hg
    cases hf with
    | sameName he hu hid => exact (hg.solvers _ _ _ he).name _ hu hid
    | badRule hv htext hno =>
      obtain ⟨pre, h⟩ := hg.solvers.mem hv
      exact hno (h.rules _ htext)
    | linkUnknown hl hno =>
      obtain ⟨pre, h⟩ := hg.links.mem hl
      exact hno h.known
    | linkSelf hl he =>
      obtain ⟨pre, h⟩ := hg.links.mem hl
      exact h.apart he
    | linkAgain he hjoins => exact (hg.links _ _ _ he).new hjoins
    | badFact hd hno =>
      obtain ⟨pre, h⟩ := hg.sources.mem hd
      exact hno h.fact
    | sourceUnknown hd hno =>
      obtain ⟨pre, h⟩ := hg.sources.mem hd
      exact hno h.known
    | sourcePeer hd hjoins =>
      obtain ⟨pre, h⟩ := hg.sources.mem hd
      exact h.new (.inl hjoins)
    | sourceAgain he hfeeds => exact (hg.sources _ _ _ he).new (.inr hfeeds)
    | routeUnknown hr hno =>
      obtain ⟨pre, h⟩ := hg.routes.mem hr
      exact hno h.known
    | routeNowhere hr hno =>
      obtain ⟨pre, h⟩ := hg.routes.mem hr
      exact hno h.neighbour
    | badQuery hq hno =>
      obtain ⟨pre, h⟩ := hg.requests.mem hq
      exact hno h.query
    | requestUnknown hq hno =>
      obtain ⟨pre, h⟩ := hg.requests.mem hq
      exact hno h.known
    | requestNeighbour hq hn =>
      obtain ⟨pre, h⟩ := hg.requests.mem hq
      exact h.new (.inl hn)
    | requestAgain he hq' hsolver hid => exact (hg.requests _ _ _ he).new (.inr ⟨_, hq', hsolver, hid⟩)
  · intro hno
    by_contra hf
    have hmem : ∀ {α : Type} {l pre post : List α} {a : α}, l = pre ++ a :: post → a ∈ l := fun he =>
      he ▸ List.mem_append_right _ (List.mem_cons_self ..)
    have hsolvers : All GoodSolver s.solvers := by
      intro pre v post he
      refine ⟨fun u hu hid => hf (.sameName he hu hid), fun text ht => ?_⟩
      by_contra hr
      exact hf (.badRule (hmem he) ht hr)
    have hlinks : All (GoodLink s) s.links := by
      intro pre l post he
      refine ⟨?_, fun hab => hf (.linkSelf (hmem he) hab), fun hj => hf (.linkAgain he hj)⟩
      by_contra hk
      exact hf (.linkUnknown (hmem he) hk)
    have hsources : All (GoodSource s) s.sources := by
      intro pre d post he
      refine ⟨?_, ?_, fun h => ?_⟩
      · by_contra hr
        exact hf (.badFact (hmem he) hr)
      · by_contra hk
        exact hf (.sourceUnknown (hmem he) hk)
      · rcases h with hj | hd
        · exact hf (.sourcePeer (hmem he) hj)
        · exact hf (.sourceAgain he hd)
    have hroutes : All (fun _ => GoodRoute s) s.routes := by
      intro pre r post he
      constructor
      · by_contra hk
        exact hf (.routeUnknown (hmem he) hk)
      · by_contra hn
        exact hf (.routeNowhere (hmem he) hn)
    have hrequests : All (GoodRequest s) s.requests := by
      intro pre q post he
      refine ⟨?_, ?_, fun h => ?_⟩
      · by_contra hr
        exact hf (.badQuery (hmem he) hr)
      · by_contra hk
        exact hf (.requestUnknown (hmem he) hk)
      · rcases h with hn | ⟨q', hq', hsolver, hid⟩
        · exact hf (.requestNeighbour (hmem he) hn)
        · exact hf (.requestAgain he hq' hsolver hid)
    exact hno ⟨hsolvers, hlinks, hsources, hroutes, hrequests⟩

/-! ## Setting up -/

def Asks (q : RequestSpec) (r : Request × Endpoint) : Prop := r.1.id = q.id ∧ Atom.parse q.query = .ok r.1.query

namespace Wiring

variable {w : Wiring} {known : NodeId → Prop} {linked linked' : NodeId → NodeId → Prop} {requests : List RequestSpec}

structure Laid (w : Wiring) (known : NodeId → Prop) (linked : NodeId → NodeId → Prop) (requests : List RequestSpec) :
    Prop where
  network : w.network.Laid known linked
  fitted : w.network.Fitted (w.sources.map (·.2) ++ w.requests.map (·.2))
  requests : List.Forall₂ Asks requests w.requests

theorem laid_empty : Wiring.empty.Laid (fun _ => False) (fun _ _ => False) [] :=
  ⟨Network.laid_empty, Network.fitted_empty, .nil⟩

theorem Laid.congr {known' : NodeId → Prop} (h : w.Laid known linked requests) (hk : ∀ a, known a ↔ known' a)
    (hl : ∀ a b, linked a b ↔ linked' a b) : w.Laid known' linked' requests :=
  ⟨h.network.congr hk hl, h.fitted, h.requests⟩

theorem Laid.known_iff (h : w.Laid known linked requests) (a : NodeId) :
    SucceedsIff (known a) (fun _ => True) (w.known a) := by
  have ha := h.network.known a
  unfold Wiring.known
  split
  · rename_i hc
    exact .ok (ha.mp hc) trivial
  · rename_i hc
    exact .error (fun hk => hc (ha.mpr hk)) _

/-- A call that changes the network fails if it does, and otherwise gives the network that it leaves. -/
theorem taking_iff {α : Type} {P Q : Prop} {r : Setup α} (wrap : SetupError → ScenarioError)
    (h : SucceedsIff P (fun _ => Q) r.result) :
    SucceedsIff P (fun x => r.result = .ok x.1 ∧ x.2 = r.network ∧ Q) (taking r wrap) := by
  unfold taking
  rcases h.either with ⟨err, hr, hP⟩ | ⟨a, hr, hP, hQ⟩
  · rw [hr]
    exact .error hP _
  · rw [hr]
    exact .ok hP ⟨rfl, rfl, hQ⟩

theorem mapError_iff {ε ε' β : Type} {P : Prop} {I : β → Prop} {r : Except ε β} (f : ε → ε') (h : SucceedsIff P I r) :
    SucceedsIff P I (r.mapError f) := by
  rcases h.either with ⟨err, rfl, hP⟩ | ⟨b, rfl, hP, hI⟩
  · exact .error hP _
  · exact .ok hP hI

theorem Laid.addRule (h : w.Laid known linked requests) {a : NodeId} (ha : known a) (text : String) :
    SucceedsIff (∃ r, Rule.parse text = .ok r) (fun w' => w'.Laid known linked requests) (w.addRule a text) := by
  refine ((taking_iff _ (h.network.addRule ha text)).bind (Q := True) fun x _ hx => ?_).congr (and_iff_left trivial)
  obtain ⟨-, hnet, hlaid⟩ := hx
  exact .ok trivial ⟨hnet ▸ hlaid, hnet ▸ h.fitted.addRule a text, h.requests⟩

/-- A solver is added with all its rules. -/
theorem Laid.addSolver {pre : List SolverSpec} (h : w.Laid (fun a => ∃ v ∈ pre, v.id = a) (fun _ _ => False) [])
    (config : SolverConfig) (v : SolverSpec) :
    SucceedsIff (GoodSolver pre v) (fun w' => w'.Laid (fun a => ∃ u ∈ pre ++ [v], u.id = a) (fun _ _ => False) [])
      (w.addSolver config v) := by
  have hname := h.network.known v.id
  unfold Wiring.addSolver
  by_cases hc : w.network.names.contains v.id = true
  · rw [if_pos hc]
    refine .error (fun hgood => ?_) _
    obtain ⟨u, hu, hid⟩ := hname.mp hc
    exact hgood.name u hu hid
  · rw [if_neg hc]
    have hnew : ¬ ∃ u ∈ pre, u.id = v.id := fun hu => hc (hname.mpr hu)
    have hnet := h.network.addSolver hnew (fun _ => not_false) config
    have hadded : Laid { w with network := w.network.addSolver v.id config }
        (fun a => (∃ u ∈ pre, u.id = a) ∨ a = v.id) (fun _ _ => False) [] :=
      ⟨hnet, h.fitted.addSolver (h.network.lookup_eq_none hnew) config, h.requests⟩
    have hrules := SucceedsIff.foldlM (I := fun _ w' => Laid w' (fun a => (∃ u ∈ pre, u.id = a) ∨ a = v.id)
      (fun _ _ => False) []) (P := fun _ text => ∃ r, Rule.parse text = .ok r)
      (fun _ text w' hw => hw.addRule (.inr rfl) text) v.rules hadded
    refine (hrules.congr ?_).imp fun w' _ hw => hw.congr (fun a => ?_) fun _ _ => Iff.rfl
    · rw [all_const]
      exact ⟨fun hr => ⟨fun u hu hid => hnew ⟨u, hu, hid⟩, hr⟩, fun hgood => hgood.rules⟩
    · simp [or_and_right, exists_or, eq_comm]

theorem Laid.addLink {s : Scenario} {pre : List LinkSpec} (h : w.Laid s.HasSolver (Joins pre) []) (l : LinkSpec) :
    SucceedsIff (GoodLink s pre l) (fun w' => w'.Laid s.HasSolver (Joins (pre ++ [l])) []) (w.addLink l) := by
  unfold Wiring.addLink
  refine SucceedsIff.congr ((h.known_iff l.a).bind fun _ ha _ => (h.known_iff l.b).bind fun _ hb _ =>
    (taking_iff _ (h.network.connect ha hb)).bind (Q := True) fun x _ hx => ?_) ⟨fun hP => ?_, fun hgood => ?_⟩
  · obtain ⟨hok, hnet, hlaid⟩ := hx
    refine .ok trivial ⟨?_, ?_, h.requests⟩
    · show x.2.Laid _ _
      rw [hnet]
      refine hlaid.congr (fun _ => Iff.rfl) fun a b => ?_
      rw [joins_concat, Network.linkedTo, Network.linkedTo, or_assoc, and_comm (a := l.b = a)]
    · show x.2.Fitted _
      rw [hnet]
      exact h.fitted.connect hok
  · obtain ⟨ha, hb, ⟨hnew, hself⟩, -⟩ := hP
    exact ⟨⟨ha, hb⟩, fun hab => hself (.inr ⟨hab, hab.symm⟩), hnew⟩
  · obtain ⟨⟨ha, hb⟩, hapart, hnew⟩ := hgood
    refine ⟨ha, hb, ⟨hnew, fun hself => ?_⟩, trivial⟩
    rcases hself with hold | ⟨hba, -⟩
    · exact hnew hold.symm
    · exact hapart hba

/-- A source is attached where no neighbour has its name. -/
theorem Laid.addSource {s : Scenario} {pre : List SourceSpec}
    (h : w.Laid s.HasSolver (fun a b => Joins s.links a b ∨ Feeds pre a b) []) (d : SourceSpec) :
    SucceedsIff (GoodSource s pre d)
      (fun w' => w'.Laid s.HasSolver (fun a b => Joins s.links a b ∨ Feeds (pre ++ [d]) a b) []) (w.addSource d) := by
  have hfact : SucceedsIff (∃ f, Atom.parse d.fact = .ok f) (fun v : Source => v.id = d.id)
      (Source.parse d.id d.fact) := by
    unfold Source.parse
    cases hf : Atom.parse d.fact with
    | error err => exact .error (fun ⟨f, he⟩ => by cases he) _
    | ok f => exact .ok ⟨f, rfl⟩ rfl
  unfold Wiring.addSource
  refine SucceedsIff.congr ((mapError_iff _ hfact).bind fun v _ hv => (h.known_iff d.solver).bind fun _ hk _ =>
    (taking_iff _ (h.network.attachSource hk d.id v.key)).bind (Q := True) fun x _ hx => ?_)
    ⟨fun hP => ?_, fun hgood => ?_⟩
  · obtain ⟨hok, hnet, hlaid⟩ := hx
    refine .ok trivial ⟨?_, ?_, h.requests⟩
    · show x.2.Laid _ _
      rw [hnet]
      refine hlaid.congr (fun _ => Iff.rfl) fun a b => ?_
      simp [Network.linkedTo, Feeds, or_and_right, exists_or, or_assoc]
    · have hfitted := h.fitted.attachSource hok
      have hnone : w.requests = [] := List.forall₂_nil_left_iff.mp h.requests
      show x.2.Fitted _
      rw [hnet]
      simpa [hnone] using hfitted
  · obtain ⟨hparse, hknown, hnew, -⟩ := hP
    exact ⟨hparse, hknown, hnew⟩
  · exact ⟨hgood.fact, hgood.known, hgood.new, trivial⟩

theorem Laid.addRoute {s : Scenario} (h : w.Laid s.HasSolver s.Neighbour []) (r : RouteSpec) :
    SucceedsIff (GoodRoute s r) (fun w' => w'.Laid s.HasSolver s.Neighbour []) (w.addRoute r) := by
  unfold Wiring.addRoute
  refine SucceedsIff.congr ((h.known_iff r.solver).bind fun _ hk _ =>
    (taking_iff _ (h.network.addRoute hk r.key r.neighbor r.metric)).bind (Q := True) fun x _ hx => ?_)
    ⟨fun hP => ?_, fun hgood => ?_⟩
  · obtain ⟨-, hnet, hlaid⟩ := hx
    exact .ok trivial ⟨hnet ▸ hlaid, hnet ▸ h.fitted.addRoute .., h.requests⟩
  · obtain ⟨hknown, hn, -⟩ := hP
    exact ⟨hknown, hn⟩
  · exact ⟨hgood.known, hgood.neighbour, trivial⟩

/-- A requester is attached where no neighbour has its name, be it another requester. -/
theorem Laid.addRequest {s : Scenario} {pre : List RequestSpec}
    (h : w.Laid s.HasSolver (fun a b => s.Neighbour a b ∨ ∃ q ∈ pre, q.solver = a ∧ q.id = b) pre) (q : RequestSpec) :
    SucceedsIff (GoodRequest s pre q)
      (fun w' => w'.Laid s.HasSolver (fun a b => s.Neighbour a b ∨ ∃ q' ∈ pre ++ [q], q'.solver = a ∧ q'.id = b)
        (pre ++ [q])) (w.addRequest q) := by
  have hquery : SucceedsIff (∃ a, Atom.parse q.query = .ok a)
      (fun v : Request => v.id = q.id ∧ Atom.parse q.query = .ok v.query) (Request.parse q.id q.query) := by
    unfold Request.parse
    cases ha : Atom.parse q.query with
    | error err => exact .error (fun ⟨a, he⟩ => by cases he) _
    | ok a => exact .ok ⟨a, rfl⟩ ⟨rfl, rfl⟩
  unfold Wiring.addRequest
  refine SucceedsIff.congr ((mapError_iff _ hquery).bind fun v _ hv => (h.known_iff q.solver).bind fun _ hk _ =>
    (taking_iff _ (h.network.attach hk q.id .leaf (w.network.capacityOf q.solver))).bind (Q := True) fun x _ hx => ?_)
    ⟨fun hP => ?_, fun hgood => ?_⟩
  · obtain ⟨hok, hnet, hlaid⟩ := hx
    refine .ok trivial ⟨?_, ?_, List.rel_append h.requests (.cons hv .nil)⟩
    · show x.2.Laid _ _
      rw [hnet]
      refine hlaid.congr (fun _ => Iff.rfl) fun a b => ?_
      simp [Network.linkedTo, or_and_right, exists_or, or_assoc]
    · have hfitted := h.fitted.attach hok
      show x.2.Fitted _
      rw [hnet]
      simpa using hfitted
  · obtain ⟨hparse, hknown, hnew, -⟩ := hP
    exact ⟨hparse, hknown, hnew⟩
  · exact ⟨hgood.query, hgood.known, hgood.new, trivial⟩

/-! ## The five passes -/

theorem addSolvers (s : Scenario) :
    SucceedsIff (All GoodSolver s.solvers) (fun w => w.Laid s.HasSolver (Joins []) [])
      (s.solvers.foldlM (Wiring.addSolver s.settings.solverConfig) .empty) := by
  have hpass := SucceedsIff.foldlM
    (I := fun pre w => Wiring.Laid w (fun a => ∃ v ∈ pre, v.id = a) (fun _ _ => False) [])
    (fun _ v _ hw => hw.addSolver s.settings.solverConfig v) s.solvers (laid_empty.congr (by simp) (by simp))
  exact hpass.imp fun w _ hw => hw.congr (fun _ => Iff.rfl) (by simp [Joins])

theorem Laid.addLinks {s : Scenario} (h : w.Laid s.HasSolver (Joins []) []) :
    SucceedsIff (All (GoodLink s) s.links)
      (fun w' => w'.Laid s.HasSolver (fun a b => Joins s.links a b ∨ Feeds [] a b) [])
      (s.links.foldlM Wiring.addLink w) := by
  have hpass := SucceedsIff.foldlM (I := fun pre w => Wiring.Laid w s.HasSolver (Joins pre) [])
    (fun _ l _ hw => hw.addLink l) s.links h
  exact hpass.imp fun w _ hw => hw.congr (fun _ => Iff.rfl) (by simp [Feeds])

theorem Laid.addSources {s : Scenario} (h : w.Laid s.HasSolver (fun a b => Joins s.links a b ∨ Feeds [] a b) []) :
    SucceedsIff (All (GoodSource s) s.sources) (fun w' => w'.Laid s.HasSolver s.Neighbour [])
      (s.sources.foldlM Wiring.addSource w) :=
  SucceedsIff.foldlM (I := fun pre w => Wiring.Laid w s.HasSolver (fun a b => Joins s.links a b ∨ Feeds pre a b) [])
    (fun _ d _ hw => hw.addSource d) s.sources h

theorem Laid.addRoutes {s : Scenario} (h : w.Laid s.HasSolver s.Neighbour []) :
    SucceedsIff (All (fun _ => GoodRoute s) s.routes) (fun w' => w'.Laid s.HasSolver s.Neighbour [])
      (s.routes.foldlM Wiring.addRoute w) :=
  SucceedsIff.foldlM (I := fun _ w => Wiring.Laid w s.HasSolver s.Neighbour [])
    (fun _ r _ hw => hw.addRoute r) s.routes h

theorem Laid.addRequests {s : Scenario} (h : w.Laid s.HasSolver s.Neighbour []) :
    SucceedsIff (All (GoodRequest s) s.requests) (fun w' => ∃ linked, w'.Laid s.HasSolver linked s.requests)
      (s.requests.foldlM Wiring.addRequest w) := by
  have hpass := SucceedsIff.foldlM
    (I := fun pre w => Wiring.Laid w s.HasSolver (fun a b => s.Neighbour a b ∨ ∃ q ∈ pre, q.solver = a ∧ q.id = b) pre)
    (fun _ q _ hw => hw.addRequest q) s.requests (h.congr (fun _ => Iff.rfl) (by simp))
  exact hpass.imp fun w' _ hw => ⟨_, hw⟩

end Wiring

/-- A scenario can be set up if and only if all of it is good; then its requesters are to ask what it says. -/
theorem wire_succeedsIff (s : Scenario) :
    SucceedsIff s.Good (fun w => ∃ linked, w.Laid s.HasSolver linked s.requests) s.wire := by
  have hpasses := (Wiring.addSolvers s).bind fun _ _ hsolvers => hsolvers.addLinks.bind fun _ _ hlinks =>
    hlinks.addSources.bind fun _ _ hsources => hsources.addRoutes.bind fun _ _ hroutes => hroutes.addRequests
  refine hpasses.congr ⟨fun hP => ?_, fun hgood => ?_⟩
  · obtain ⟨hsolvers, hlinks, hsources, hroutes, hrequests⟩ := hP
    exact ⟨hsolvers, hlinks, hsources, hroutes, hrequests⟩
  · exact ⟨hgood.solvers, hgood.links, hgood.sources, hgood.routes, hgood.requests⟩

end QueryNet.Scenario
