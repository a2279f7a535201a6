/-
  QueryNet.Proofs.Scope.Network — no variable of a rule reaches a caller.

  In a peopled network solvers are linked to each other in any way, and whoever is at
  the end of another link is a source or a requester: an end that is given out is used
  once, or dropped. Nothing is sent from outside. Rules and routes may be added at any
  time, and tasks move in any order while time passes (`Network.Peopled`).

  Proved: in such a network every answer on its way binds variables of its own query
  only; solvers never say that there is no match, although sources do; and a requester
  that ends with an answer has values of variables of the query it asked
  (`answers_in_scope`).
-/

import QueryNet.Proofs.Scope.Lines
import QueryNet.Proofs.Traffic.Standstill

namespace QueryNet

namespace Lines

/-! ## More lines -/

structure Grows (l l' : Lines) (size : Nat) : Prop where
  old : l.ends ⊆ l'.ends
  new : ∀ e ∈ l'.ends, e ∈ l.ends ∨ (size ≤ e.tx ∧ size ≤ e.rx)
  asked : ∀ c q, l.asked c = some q → l'.asked c = some q

variable {l l' : Lines} {size : Nat} {s : Solver} {c : ChannelId} {p : Packet} {b : NodeId} {q : Atom} {e : Endpoint}

theorem Grows.refl (l : Lines) (size : Nat) : l.Grows l size := ⟨fun _ he => he, fun _ he => .inl he, fun _ _ hq => hq⟩

theorem Grows.admits (h : l.Grows l' size) (hc : c < size) (hp : l.Admits c p) : l'.Admits c p := by
  refine ⟨hp.scope, fun hk e he htx => ?_, fun hk e he hrx => ?_⟩
  · rcases h.new e he with hold | ⟨hnew, -⟩
    · exact h.asked _ _ (hp.request hk e hold htx)
    · exact absurd (htx ▸ hc) (Nat.not_lt.mpr hnew)
  · rcases h.new e he with hold | ⟨-, hnew⟩
    · exact ⟨(hp.response hk e hold hrx).1, h.asked _ _ (hp.response hk e hold hrx).2⟩
    · exact absurd (hrx ▸ hc) (Nat.not_lt.mpr hnew)

theorem Grows.answers (h : l.Grows l' size) (hs : s.OnLines l size) (ha : l.Answers s b q) : l'.Answers s b q := by
  obtain ⟨i, hi, hasked⟩ := ha
  refine ⟨i, hi, fun e he hrx => ?_⟩
  have hlt := (hs.interface b i hi).1
  rcases h.new e he with hold | ⟨-, hnew⟩
  · exact h.asked _ _ (hasked e hold hrx)
  · exact absurd (hrx ▸ hlt) (Nat.not_lt.mpr hnew)

theorem Grows.serves (h : l.Grows l' size) (hs : s.OnLines l size) (he : l.Serves s e) : l'.Serves s e := by
  obtain ⟨role, hi⟩ := he.interface
  refine ⟨⟨role, hi⟩, fun e' he' hrx => ?_⟩
  have hlt := (hs.interface _ _ hi).1
  rcases h.new e' he' with hold | ⟨-, hnew⟩
  · exact he.paired e' hold hrx
  · exact absurd (hrx ▸ hlt) (Nat.not_lt.mpr hnew)

end Lines

variable {l l' : Lines} {n m : Network} {s s' : Solver} {t : Task} {k : SolverId} {a b : NodeId} {e : Endpoint}
  {role : Role}

theorem Solver.OnLines.grow {size size' : Nat} (hs : s.OnLines l size) (h : l.Grows l' size) (hle : size ≤ size') :
    s.OnLines l' size' := by
  refine ⟨hs.entries, fun b i hi => ?_, fun v hv => h.serves hs (hs.receiver v hv), fun b q hq => h.answers hs (hs.owes b q hq)⟩
  obtain ⟨hlt, hne⟩ := hs.interface b i hi
  refine ⟨Nat.lt_of_lt_of_le hlt hle, fun e he => ?_⟩
  rcases h.new e he with hold | ⟨hnew, -⟩
  · exact hne e hold
  · exact fun htx => absurd (htx ▸ hlt) (Nat.not_lt.mpr hnew)

/-- Other routes change nothing, and receivers may be given away. -/
theorem Solver.OnLines.congr {size : Nat} (hs : s.OnLines l size) (hr : s'.rules = s.rules) (hp : s'.pending = s.pending)
    (hi : s'.interfaces = s.interfaces) (hv : s'.receivers ⊆ s.receivers) : Lines.Extends s s' ∧ s'.OnLines l size := by
  have hext : Lines.Extends s s' := fun b i hb => hi ▸ hb
  refine ⟨hext, hs.entries.congr hr hp, hi ▸ hs.interface, fun v hmem => (hs.receiver v (hv hmem)).extend hext, fun b q hq => ?_⟩
  rw [hp] at hq
  exact (hs.owes b q hq).extend hext

theorem Solver.onLines_create {size : Nat} (a : NodeId) (config : SolverConfig) : (Solver.create a config).OnLines l size := by
  refine ⟨scoped_of_idle rfl, fun b i hi => ?_, List.forall_mem_nil _, fun b q hq => absurd rfl hq⟩
  cases hi

theorem Task.OnLines.grow {solvers : List Solver} {size : Nat} (ht : t.OnLines l solvers) (h : l.Grows l' size)
    (hmade : ∀ e ∈ l.ends, e.tx < size) (hs : ∀ s ∈ solvers, s.OnLines l size) : t.OnLines l' solvers := by
  refine ⟨fun hleaf => ?_, fun r d hr => h.asked _ _ (ht.request r d hr), fun k hk => ?_, ht.answered⟩
  · obtain ⟨he, hsend⟩ := ht.leaf hleaf
    exact ⟨h.old he, fun o ho => h.admits (hmade _ he) (hsend o ho)⟩
  · obtain ⟨s, hks, hserves, hsend⟩ := ht.solver k hk
    have hline := hs s (List.mem_of_getElem? hks)
    refine ⟨s, hks, h.serves hline hserves, fun o ho => ?_⟩
    exact ⟨(hsend o ho).scope, (hsend o ho).binds, fun hk => h.answers hline ((hsend o ho).answers hk)⟩

namespace Network

/-! ## Links -/

theorem OnLines.grow (h : n.OnLines l) (hg : l.Grows l' n.channels.length) (hs : m.solvers = n.solvers)
    (ht : m.tasks = n.tasks) (hl : n.channels.length ≤ m.channels.length)
    (hq : ∀ {c p}, p ∈ (m.channel c).queue → c < n.channels.length ∧ p ∈ (n.channel c).queue)
    (hmade : ∀ e ∈ l'.ends, e.tx < m.channels.length ∧ e.rx < m.channels.length)
    (hapart : ∀ e ∈ l'.ends, ∀ e' ∈ l'.ends, e.rx ≠ e'.tx)
    (hasked : ∀ c q, l'.asked c = some q → c < m.channels.length) : m.OnLines l' := by
  refine ⟨hmade, hapart, hasked, ?_, ?_, fun c p hp => hg.admits (hq hp).1 (h.queue c p (hq hp).2)⟩
  · rw [hs]
    exact fun s hmem => (h.solver s hmem).grow hg hl
  · rw [hs, ht]
    exact fun t hmem => (h.task t hmem).grow hg (fun e he => (h.made e he).1) h.solver

/-- New channels are empty. -/
theorem queue_link {capacity : Nat} {c : ChannelId} {p : Packet} (h : p ∈ ((n.link a b capacity).2.2.channel c).queue) :
    c < n.channels.length ∧ p ∈ (n.channel c).queue := by
  rcases Nat.lt_or_ge c n.channels.length with hlt | hge
  · simp only [channel, Network.link, List.getD_eq_getElem?_getD, List.getElem?_append_left hlt] at h
    rw [channel, List.getD_eq_getElem?_getD]
    exact ⟨hlt, h⟩
  · simp only [channel, Network.link, List.getD_eq_getElem?_getD, List.getElem?_append_right hge] at h
    rcases hd : c - n.channels.length with _ | _ | d
    · rw [hd] at h
      cases h
    · rw [hd] at h
      cases h
    · rw [hd] at h
      cases h

theorem length_link (n : Network) (a b : NodeId) (capacity : Nat) :
    (n.link a b capacity).2.2.channels.length = n.channels.length + 2 := List.length_append

/-- A link between solvers is no line. -/
theorem OnLines.link (h : n.OnLines l) (a b : NodeId) (capacity : Nat) : (n.link a b capacity).2.2.OnLines l := by
  have hle : n.channels.length ≤ (n.link a b capacity).2.2.channels.length := length_link n a b capacity ▸ Nat.le_add_right _ _
  refine h.grow (.refl _ _) rfl rfl hle queue_link (fun e he => ?_) h.apart fun c q hq =>
    Nat.lt_of_lt_of_le (h.asked c q hq) hle
  obtain ⟨htx, hrx⟩ := h.made e he
  exact ⟨Nat.lt_of_lt_of_le htx hle, Nat.lt_of_lt_of_le hrx hle⟩

def lineTo (l : Lines) (n : Network) (a b : NodeId) (capacity : Nat) : Lines :=
  { l with ends := l.ends ++ [(n.link a b capacity).2.1] }

theorem mem_lineTo {capacity : Nat} (he : e ∈ (lineTo l n a b capacity).ends) :
    e ∈ l.ends ∨ e = ⟨a, n.channels.length + 1, n.channels.length⟩ :=
  (List.mem_append.mp he).imp id List.mem_singleton.mp

theorem OnLines.link_line (h : n.OnLines l) (a b : NodeId) (capacity : Nat) :
    (n.link a b capacity).2.2.OnLines (lineTo l n a b capacity) := by
  have hlength := length_link n a b capacity
  have hle : n.channels.length ≤ (n.link a b capacity).2.2.channels.length := hlength ▸ Nat.le_add_right _ _
  refine h.grow ⟨List.subset_append_left .., fun e he => ?_, fun _ _ hq => hq⟩ rfl rfl hle queue_link ?_ ?_
    fun c q hq => Nat.lt_of_lt_of_le (h.asked c q hq) hle
  · rcases mem_lineTo he with hold | rfl
    · exact .inl hold
    · exact .inr ⟨Nat.le_succ _, Nat.le_refl _⟩
  · intro e he
    rw [hlength]
    rcases mem_lineTo he with hold | rfl
    · exact ⟨Nat.lt_add_right 2 (h.made e hold).1, Nat.lt_add_right 2 (h.made e hold).2⟩
    · exact ⟨Nat.lt_succ_self _, Nat.lt_add_of_pos_right Nat.two_pos⟩
  · intro e he e' he'
    rcases mem_lineTo he with hold | rfl
    · rcases mem_lineTo he' with hold' | rfl
      · exact h.apart e hold e' hold'
      · exact Nat.ne_of_lt (Nat.lt_succ_of_lt (h.made e hold).2)
    · rcases mem_lineTo he' with hold' | rfl
      · exact Nat.ne_of_gt (h.made e' hold').1
      · exact Nat.ne_of_lt (Nat.lt_succ_self _)

/-! ## Calls -/

/-- A solver may be linked by an end whose channels are its own, or both of one line. -/
structure Spare (l : Lines) (n : Network) (e : Endpoint) : Prop where
  made : e.tx < n.channels.length
  apart : ∀ e' ∈ l.ends, e'.tx ≠ e.tx
  paired : ∀ e' ∈ l.ends, e'.rx = e.tx → e'.tx = e.rx

theorem OnLines.onSolver {α : Type} (h : n.OnLines l) (a : NodeId) {f : Solver → Except SetupError (α × Solver)}
    (hf : ∀ s v s', s.OnLines l n.channels.length → f s = .ok (v, s') →
      Lines.Extends s s' ∧ s'.OnLines l n.channels.length) : (n.onSolver a f).network.OnLines l := by
  rcases onSolver_cases n a f with ⟨err, he⟩ | ⟨k, s, v, s', hs, hv, he⟩
  · rw [he]
    exact h
  · rw [he]
    have hk := (lookup_eq_some.mp hs).2
    obtain ⟨hext, hs'⟩ := hf s v s' (h.solver s (List.mem_of_getElem? hk)) hv
    exact h.setSolver hk hext hs'

theorem OnLines.attachEnd (h : n.OnLines l) (a : NodeId) (role : Role) (he : Spare l n e) :
    (n.attachEnd a role e).network.OnLines l := by
  have hset := h.onSolver a (f := fun s => (s.attach role e).map ((), ·)) fun s v s' hs hv => ?_
  · unfold Network.attachEnd
    dsimp only
    split
    · exact hset
    · exact hset.dropEnd e
  · have hattach := map_attach_ok hv
    have hext : Lines.Extends s s' := fun b i hb => (Solver.attach_ok hattach).1.interfaces hb
    refine ⟨hext, ?_⟩
    unfold Solver.attach at hattach
    split at hattach
    · cases hattach
    · split at hattach
      · cases hattach
      · cases hattach
        refine ⟨hs.entries.congr rfl rfl, fun b i hi => ?_, fun v hv => ?_, fun b q hq => (hs.owes b q hq).extend hext⟩
        · have hi : (s.interfaces.insert e.peer ⟨role, e.tx⟩).get? b = some i := hi
          rw [Table.get?_insert] at hi
          split at hi
          · cases hi
            exact ⟨he.made, he.apart⟩
          · exact hs.interface b i hi
        · rcases List.mem_append.mp hv with hold | hnew
          · exact (hs.receiver v hold).extend hext
          · rw [List.mem_singleton.mp hnew]
            exact ⟨⟨role, Table.get?_insert_self ..⟩, he.paired⟩

theorem spare_near (h : n.OnLines l) (a b : NodeId) (capacity : Nat) :
    Spare (lineTo l n a b capacity) (n.link a b capacity).2.2 (n.link a b capacity).1 := by
  refine ⟨length_link n a b capacity ▸ Nat.lt_add_of_pos_right Nat.two_pos, fun e he => ?_, fun e he hrx => ?_⟩
  · rcases mem_lineTo he with hold | rfl
    · exact Nat.ne_of_lt (h.made e hold).1
    · exact Nat.ne_of_gt (Nat.lt_succ_self _)
  · rcases mem_lineTo he with hold | rfl
    · exact absurd hrx (Nat.ne_of_lt (h.made e hold).2)
    · rfl

theorem OnLines.attach (h : n.OnLines l) (a peer : NodeId) (role : Role) (capacity : Nat) :
    (n.attach a peer role capacity).network.OnLines (lineTo l n a peer capacity) := by
  have hend := (h.link_line a peer capacity).attachEnd a role (spare_near h a peer capacity)
  unfold Network.attach
  dsimp only
  split
  · exact hend
  · exact hend.dropEnd _

/-- New channels belong to no line. -/
theorem spare_of_le (h : n.OnLines l) (hlt : e.tx < m.channels.length) (hle : n.channels.length ≤ e.tx) : Spare l m e :=
  ⟨hlt, fun e' he' => Nat.ne_of_lt (Nat.lt_of_lt_of_le (h.made e' he').1 hle),
    fun e' he' hrx => absurd hrx (Nat.ne_of_lt (Nat.lt_of_lt_of_le (h.made e' he').2 hle))⟩

/-- One side of a link between solvers is attached. -/
theorem OnLines.nearEnd (h : n.OnLines l) (a b : NodeId) (role : Role) (capacity : Nat) :
    ((n.link a b capacity).2.2.attachEnd a role (n.link a b capacity).1).network.OnLines l :=
  (h.link a b capacity).attachEnd a role
    (spare_of_le h (length_link n a b capacity ▸ Nat.lt_add_of_pos_right Nat.two_pos) (Nat.le_refl _))

/-- And the other. -/
theorem OnLines.farEnd (h : n.OnLines l) (a b : NodeId) (role role' : Role) (capacity : Nat) :
    (((n.link a b capacity).2.2.attachEnd a role (n.link a b capacity).1).network.attachEnd b role'
      (n.link a b capacity).2.1).network.OnLines l := by
  refine (h.nearEnd a b role capacity).attachEnd b role' (spare_of_le h ?_ (Nat.le_succ _))
  rw [(flows_attachEnd (n.link a b capacity).2.2 a role (n.link a b capacity).1).length, length_link]
  exact Nat.lt_succ_self _

theorem OnLines.connect (h : n.OnLines l) (a b : NodeId) : (n.connect a b).network.OnLines l := by
  unfold Network.connect
  dsimp only
  split
  · exact (h.nearEnd a b .solverPeer _).dropEnd _
  · exact h.farEnd a b .solverPeer .solverPeer _

theorem OnLines.withSource (h : n.OnLines l) (hs : n.lookup a = some (k, s)) {source : NodeId} {key : String} :
    (n.setSolver k (withSource s key source)).OnLines l := by
  have hk := (lookup_eq_some.mp hs).2
  have hs' : Lines.Extends s (Network.withSource s key source) ∧ (Network.withSource s key source).OnLines l _ :=
    (h.solver s (List.mem_of_getElem? hk)).congr rfl rfl rfl (List.Subset.refl _)
  exact h.setSolver hk hs'.1 hs'.2

theorem OnLines.attachSource (h : n.OnLines l) (a source : NodeId) (key : String) :
    (n.attachSource a source key).network.OnLines (lineTo l n a source (n.capacityOf a)) := by
  have hattach := h.attach a source .leaf (n.capacityOf a)
  unfold Network.attachSource
  dsimp only
  split
  · rename_i k s hok hs
    refine (hattach.withSource hs).offer _ fun o ho => ?_
    obtain ⟨b, -, rfl⟩ := List.mem_map.mp ho
    rfl
  · exact hattach

theorem OnLines.addRule (h : n.OnLines l) (a : NodeId) (text : String) : (n.addRule a text).network.OnLines l := by
  refine h.onSolver a fun s r s' hs hv => ?_
  have hentries := hs.entries.addRule hv
  obtain rfl := Solver.addRule_eq hv
  exact ⟨fun _ _ hb => hb, hentries, hs.interface, fun v hv => (hs.receiver v hv).extend fun _ _ hb => hb, hs.owes⟩

theorem OnLines.addRoute (h : n.OnLines l) (a : NodeId) (key : String) (b : NodeId) (metric : Nat) :
    (n.addRoute a key b metric).network.OnLines l := by
  refine h.onSolver a fun s v s' hs hv => ?_
  unfold Solver.addRoute at hv
  split at hv
  · cases hv
    exact hs.congr rfl rfl rfl (List.Subset.refl _)
  · cases hv

theorem OnLines.addSolver (h : n.OnLines l) (a : NodeId) (config : SolverConfig) : (n.addSolver a config).OnLines l := by
  have hadd : ∀ {n : Network} {names : Table NodeId SolverId}, n.OnLines l →
      OnLines l { n with solvers := n.solvers ++ [.create a config], names := names } := by
    intro n names h
    refine ⟨h.made, h.apart, h.asked, fun s hs => ?_, fun t ht => (h.task t ht).extend fun k s hk => ?_, h.queue⟩
    · rcases List.mem_append.mp hs with hold | hnew
      · exact h.solver s hold
      · rw [List.mem_singleton.mp hnew]
        exact Solver.onLines_create a config
    · exact ⟨s, (List.getElem?_append_left (List.getElem?_eq_some_iff.mp hk).1).trans hk, fun _ _ hb => hb⟩
  have hrelease : ∀ (receivers : List Receiver) {n : Network}, n.OnLines l →
      (receivers.foldl (fun n v => n.dropEnd v.endpoint) n).OnLines l := by
    intro receivers
    induction receivers with
    | nil => exact fun h => h
    | cons v receivers ih => exact fun h => ih (h.dropEnd v.endpoint)
  unfold Network.addSolver
  cases n.solver? a with
  | none => exact hadd h
  | some s => exact hadd (hrelease s.receivers h)

theorem OnLines.start (h : n.OnLines l) (a : NodeId) : (n.start a).network.OnLines l := by
  unfold Network.start
  split
  · exact h
  · rename_i k s hs
    have hk := (lookup_eq_some.mp hs).2
    have hlt := (List.getElem?_eq_some_iff.mp hk).1
    have hline := h.solver s (List.mem_of_getElem? hk)
    split
    · exact h
    · rename_i receivers s' hstart
      unfold Solver.start at hstart
      split at hstart
      · cases hstart
      · cases hstart
        obtain ⟨hext, hs'⟩ : Lines.Extends s { s with receivers := [], running := true } ∧
            Solver.OnLines l n.channels.length { s with receivers := [], running := true } :=
          hline.congr rfl rfl rfl (List.nil_subset _)
        refine (h.setSolver hk hext hs').addTasks fun t ht => ?_
        obtain ⟨v, hv, rfl⟩ := List.mem_map.mp ht
        have hserves := (hline.receiver v hv).extend hext
        have hworker : (workerFor n.now k v.role).solver? = some k := by
          cases v.role with
          | solverPeer => rfl
          | leaf => rfl
        refine ⟨fun hleaf => ?_, fun r d hr => ?_, fun j hj => ?_, fun a ha => by cases ha⟩
        · cases hworker.symm.trans hleaf
        · have hr : workerFor n.now k v.role = .request r d := hr
          rw [hr] at hworker
          cases hworker
        · cases hworker.symm.trans hj
          exact ⟨_, List.getElem?_set_self hlt, hserves, fun o ho => by cases ho⟩

theorem onLines_empty : Network.empty.OnLines ⟨[], fun _ => none⟩ := by
  refine ⟨List.forall_mem_nil _, List.forall_mem_nil _, fun c q hq => ?_, List.forall_mem_nil _, List.forall_mem_nil _,
    fun c p hp => ?_⟩
  · cases hq
  · cases hp

theorem OnLines.startSource (h : n.OnLines l) (he : e ∈ l.ends) (source : Source) : (n.startSource source e).OnLines l := by
  refine h.addTasks (List.forall_mem_singleton.mpr
    ⟨fun _ => ⟨he, List.forall_mem_nil _⟩, fun r d hr => ?_, fun k hk => ?_, fun a ha => ?_⟩)
  · cases hr
  · cases hk
  · cases ha

def askAt (l : Lines) (e : Endpoint) (q : Atom) : Lines := { l with asked := fun c => if c = e.tx then some q else l.asked c }

theorem OnLines.startRequest (h : n.OnLines l) (he : e ∈ l.ends) (hnone : l.asked e.tx = none) (r : Request)
    (deadline : Option Nat) : (n.startRequest r e deadline).OnLines (askAt l e r.query) := by
  have hself : (askAt l e r.query).asked e.tx = some r.query := if_pos rfl
  have hgrows : l.Grows (askAt l e r.query) n.channels.length := by
    refine ⟨List.Subset.refl _, fun _ he => .inl he, fun c q hq => ?_⟩
    have hne : c ≠ e.tx := by
      rintro rfl
      cases hnone.symm.trans hq
    exact (if_neg hne).trans hq
  have hgrown : n.OnLines (askAt l e r.query) := by
    refine h.grow hgrows rfl rfl (Nat.le_refl _) (fun {c p} hp => ⟨?_, hp⟩) h.made h.apart fun c q hq => ?_
    · refine Nat.lt_of_not_le fun hge => ?_
      rw [channel_of_length_le hge] at hp
      cases hp
    · by_cases hc : c = e.tx
      · rw [hc]
        exact (h.made e he).1
      · exact h.asked c q ((if_neg hc).symm.trans hq)
  refine hgrown.addTasks (List.forall_mem_singleton.mpr ⟨fun _ => ⟨he, List.forall_mem_singleton.mpr ?_⟩, fun r' d hr => ?_,
    fun k hk => ?_, fun a ha => ?_⟩)
  · exact Lines.admits_request fun e' _ htx => htx ▸ hself
  · cases hr
    exact hself
  · cases hk
  · cases ha

/-! ## Peopled networks -/

/-- Set up by calls and run by moves, with sources and requesters at the ends that are given out; these ends are free. -/
inductive Peopled : Network → List Endpoint → Prop
  | empty : Peopled .empty []
  | addSolver {n : Network} {free : List Endpoint} {a : NodeId} {config : SolverConfig} : Peopled n free →
      Peopled (n.addSolver a config) free
  | connect {n : Network} {free : List Endpoint} {a b : NodeId} : Peopled n free → Peopled (n.connect a b).network free
  /-- Two solvers are linked, each by a role that it is given. -/
  | join {n : Network} {free : List Endpoint} {a b : NodeId} {role role' : Role} {capacity : Nat} : Peopled n free →
      Peopled (((n.link a b capacity).2.2.attachEnd a role (n.link a b capacity).1).network.attachEnd b role'
        (n.link a b capacity).2.1).network free
  | attachSource {n : Network} {free : List Endpoint} {a source : NodeId} {key : String} : Peopled n free →
      Peopled (n.attachSource a source key).network (free ++ (n.attachSource a source key).result.toOption.toList)
  /-- A requester is attached, or a source without a route to it. -/
  | attach {n : Network} {free : List Endpoint} {a node : NodeId} {role : Role} {capacity : Nat} : Peopled n free →
      Peopled (n.attach a node role capacity).network (free ++ (n.attach a node role capacity).result.toOption.toList)
  | addRule {n : Network} {free : List Endpoint} {a : NodeId} {text : String} : Peopled n free →
      Peopled (n.addRule a text).network free
  | addRoute {n : Network} {free : List Endpoint} {a b : NodeId} {key : String} {metric : Nat} : Peopled n free →
      Peopled (n.addRoute a key b metric).network free
  | start {n : Network} {free : List Endpoint} {a : NodeId} : Peopled n free → Peopled (n.start a).network free
  | startSource {n : Network} {free : List Endpoint} {e : Endpoint} {source : Source} : Peopled n free → e ∈ free →
      Peopled (n.startSource source e) (free.erase e)
  | startRequest {n : Network} {free : List Endpoint} {e : Endpoint} {request : Request} {deadline : Option Nat} :
      Peopled n free → e ∈ free → Peopled (n.startRequest request e deadline) (free.erase e)
  | dropEnd {n : Network} {free : List Endpoint} {e : Endpoint} : Peopled n free → e ∈ free →
      Peopled (n.dropEnd e) (free.erase e)
  | step {n m : Network} {free : List Endpoint} {depth : Nat} {i : TaskId} {es : List Event} : Peopled n free →
      n.step depth i = some (m, es) → Peopled m free
  | wait {n : Network} {free : List Endpoint} {now : Nat} : Peopled n free → Peopled { n with now := now } free

variable {free : List Endpoint}

structure Manned (n : Network) (free : List Endpoint) (l : Lines) : Prop where
  lines : n.OnLines l
  ends : free ⊆ l.ends
  apart : (free.map (·.tx)).Nodup
  unasked : ∀ e ∈ free, l.asked e.tx = none

theorem Manned.of_lines (h : Manned n free l) (hm : m.OnLines l) : Manned m free l := ⟨hm, h.ends, h.apart, h.unasked⟩

/-- An end that is used is no longer free. -/
theorem Manned.use (h : Manned n free l) (hm : m.OnLines l) (e : Endpoint) : Manned m (free.erase e) l :=
  ⟨hm, fun _ he => h.ends (List.mem_of_mem_erase he), (h.apart.sublist ((List.erase_sublist).map _)),
    fun _ he => h.unasked _ (List.mem_of_mem_erase he)⟩

/-- The end that a call gives out is free. -/
theorem Manned.give (h : Manned n free l) {capacity : Nat} {result : Except SetupError Endpoint}
    (hm : m.OnLines (lineTo l n a b capacity)) (hfar : ∀ far, result = .ok far → far = (n.link a b capacity).2.1) :
    Manned m (free ++ result.toOption.toList) (lineTo l n a b capacity) := by
  have hends : free ⊆ (lineTo l n a b capacity).ends := fun e he => List.mem_append_left _ (h.ends he)
  cases result with
  | error err =>
    have hnone : free ++ (Except.error err : Except SetupError Endpoint).toOption.toList = free := List.append_nil _
    rw [hnone]
    exact ⟨hm, hends, h.apart, h.unasked⟩
  | ok far =>
    obtain rfl := hfar far rfl
    refine ⟨hm, fun e he => ?_, ?_, fun e he => ?_⟩
    · rcases List.mem_append.mp he with hold | hnew
      · exact hends hold
      · exact List.mem_append_right _ hnew
    · rw [List.map_append]
      refine h.apart.append (List.nodup_singleton _) fun c hc hc' => ?_
      obtain ⟨e, he, rfl⟩ := List.mem_map.mp hc
      have hlt := (h.lines.made e (h.ends he)).1
      exact absurd (List.mem_singleton.mp hc') (Nat.ne_of_lt (Nat.lt_succ_of_lt hlt))
    · rcases List.mem_append.mp he with hold | hnew
      · exact h.unasked e hold
      · -- no query was asked at a channel that was not there
        obtain rfl := List.mem_singleton.mp hnew
        refine Option.eq_none_iff_forall_ne_some.mpr fun q hq => ?_
        exact absurd (h.lines.asked _ q hq) (Nat.not_lt.mpr (Nat.le_succ _))

/-- A query is asked at an end that is free no longer. -/
theorem Manned.ask (h : Manned n free l) (he : e ∈ free) (r : Request) (deadline : Option Nat) :
    Manned (n.startRequest r e deadline) (free.erase e) (askAt l e r.query) := by
  have hline := h.lines.startRequest (h.ends he) (h.unasked e he) r deadline
  have huse := h.use h.lines e
  refine ⟨hline, huse.ends, huse.apart, fun e' he' => ?_⟩
  have hne : e'.tx ≠ e.tx := by
    intro htx
    obtain ⟨hne, hmem⟩ := (List.Nodup.of_map _ h.apart).mem_erase_iff.mp he'
    exact hne (List.inj_on_of_nodup_map h.apart hmem he htx)
  exact (if_neg hne).trans (huse.unasked e' he')

theorem attach_far {capacity : Nat} {role : Role} {far : Endpoint} (h : (n.attach a b role capacity).result = .ok far) :
    far = (n.link a b capacity).2.1 := by
  unfold Network.attach at h
  dsimp only at h
  split at h
  · cases h
    rfl
  · cases h

theorem result_attachSource (n : Network) (a source : NodeId) (key : String) :
    (n.attachSource a source key).result = (n.attach a source .leaf (n.capacityOf a)).result := by
  unfold Network.attachSource
  dsimp only
  split
  · rfl
  · rfl

theorem Peopled.manned (h : n.Peopled free) : ∃ l, Manned n free l := by
  induction h with
  | empty => exact ⟨_, onLines_empty, List.Subset.refl _, List.nodup_nil, List.forall_mem_nil _⟩
  | addSolver _ ih => exact ih.imp fun l hl => hl.of_lines (hl.lines.addSolver _ _)
  | connect _ ih => exact ih.imp fun l hl => hl.of_lines (hl.lines.connect _ _)
  | attachSource _ ih =>
    obtain ⟨l, hl⟩ := ih
    exact ⟨_, hl.give (hl.lines.attachSource _ _ _) fun far hfar => attach_far (result_attachSource .. ▸ hfar)⟩
  | join _ ih => exact ih.imp fun l hl => hl.of_lines (hl.lines.farEnd _ _ _ _ _)
  | attach _ ih =>
    obtain ⟨l, hl⟩ := ih
    exact ⟨_, hl.give (hl.lines.attach _ _ _ _) fun far hfar => attach_far hfar⟩
  | addRule _ ih => exact ih.imp fun l hl => hl.of_lines (hl.lines.addRule _ _)
  | addRoute _ ih => exact ih.imp fun l hl => hl.of_lines (hl.lines.addRoute _ _ _ _)
  | start _ ih => exact ih.imp fun l hl => hl.of_lines (hl.lines.start _)
  | startSource _ he ih => exact ih.imp fun l hl => hl.use (hl.lines.startSource (hl.ends he) _) _
  | startRequest _ he ih =>
    obtain ⟨l, hl⟩ := ih
    exact ⟨_, hl.ask he _ _⟩
  | dropEnd _ he ih => exact ih.imp fun l hl => hl.use (hl.lines.dropEnd _) _
  | step _ hm ih => exact ih.imp fun l hl => hl.of_lines (hl.lines.step hm)
  | wait _ ih => exact ih.imp fun l hl => hl.of_lines (hl.lines.queues rfl rfl rfl fun hp => .inl hp)

/-- Whatever the clock lets the tasks do keeps a network peopled. -/
theorem Peopled.runTo {depth : Nat} {stop : Network → Bool} {target moves : Nat} {turns : List TaskId}
    {log log' : List Event} (h : n.Peopled free)
    (hm : Network.runTo depth stop target moves turns n log = some (m, log')) : m.Peopled free :=
  runTo_keeps (fun hn hstep => Peopled.step hn hstep) (fun hn _ _ => hn.wait) h hm

/-! ## Answers -/

/-- On its way: queued, or held by a task until there is room. -/
inductive InFlight (n : Network) (p : Packet) : Prop
  | queued {c : ChannelId} : p ∈ (n.channel c).queue → InFlight n p
  | held {t : Task} {o : Outbound} : t ∈ n.tasks → o ∈ t.toSend → o.packet = p → InFlight n p

structure InScope (n : Network) : Prop where
  flight : ∀ p, n.InFlight p → p.InScope
  /-- What a solver makes of a packet, in whatever turn comes next. -/
  turn : ∀ {depth i m es k out}, n.step depth i = some (m, es) → .produced k out ∈ es →
    ∀ o ∈ out, o.packet.InScope ∧ o.packet.Binds
  /-- What a solver's task has to send. -/
  sent : ∀ t ∈ n.tasks, t.worker.solver? ≠ none → ∀ o ∈ t.toSend, o.packet.Binds
  /-- What is on its way to a source or a requester. -/
  delivered : ∀ t ∈ n.tasks, t.worker.solver? = none → ∀ p ∈ (n.channel t.endpoint.rx).queue, p.Binds
  answered : ∀ t ∈ n.tasks, ∀ a, t.phase = .ended (.answered a) → t.Answered a

/-- What a turn made is told in the events of the move in which a packet was handled. -/
theorem Move.produced {depth : Nat} {i : TaskId} {offered out : List Outbound} {es : List Event}
    (h : Move depth n i t offered es m) (hout : .produced k out ∈ es) :
    ∃ s p ch turn, (n.channel t.endpoint.rx).take = .packet p ch ∧ t.worker.solver? = some k ∧ n.solvers[k]? = some s ∧
      s.Handles t.endpoint.peer p turn ∧ turn.out = out := by
  have hoffer : ∀ {l : Network} {s : Solver} {news : List Outbound}, .produced k out ∉ (l.offer s news).2 := by
    intro l s news he
    obtain ⟨o, -, c, he | he⟩ | ⟨x, he⟩ := mem_offer he
    · cases he
    · cases he
    · cases he
  cases h with
  | @serve since p ch k' s turn _ htake hk hs hturn =>
    rcases List.mem_cons.mp hout with he | he
    · cases he
    · rcases List.mem_append.mp he with he | he
      · obtain ⟨x, -, hx⟩ := List.mem_map.mp he
        cases hx
      · rcases List.mem_cons.mp he with he | he
        · cases he
          exact ⟨s, p, ch, turn, htake, hk, hs, ⟨depth, hturn⟩, rfl⟩
        · exact absurd he hoffer
  | reply => cases List.mem_singleton.mp hout
  | ignore => cases List.mem_singleton.mp hout
  | answered => cases List.mem_singleton.mp hout
  | idle => exact absurd hout hoffer
  | close => cases hout
  | late => cases hout
  | rest => cases hout
  | renew => exact absurd hout hoffer
  | send =>
    rcases List.mem_cons.mp hout with he | he
    · cases he
    · obtain ⟨notes, hnotes⟩ := sentNote_eq n t _
      obtain ⟨x, -, hx⟩ := List.mem_map.mp (hnotes ▸ he)
      cases hx
  | skip => cases hout
  | enlist => cases hout
  | withdraw => cases hout
  | lose => cases hout
  | hangUp => cases hout

theorem OnLines.inFlight (h : n.OnLines l) {p : Packet} (hp : n.InFlight p) : p.InScope := by
  cases hp with
  | queued hqueue => exact (h.queue _ p hqueue).scope
  | @held t o ht ho he =>
    have hline := h.task t ht
    rw [← he]
    cases hk : t.worker.solver? with
    | none => exact ((hline.leaf hk).2 o ho).scope
    | some k =>
      obtain ⟨s, -, -, hsend⟩ := hline.solver k hk
      exact (hsend o ho).scope

theorem OnLines.turn (h : n.OnLines l) {depth : Nat} {i : TaskId} {out : List Outbound} {es : List Event}
    (hm : n.step depth i = some (m, es)) (hout : .produced k out ∈ es) : ∀ o ∈ out, o.packet.InScope ∧ o.packet.Binds := by
  obtain ⟨t, offered, ht, hmove⟩ := step_move hm
  obtain ⟨s, p, ch, turn, htake, -, hs, hturn, rfl⟩ := hmove.produced hout
  exact (hturn.scoped (h.solver s (List.mem_of_getElem? hs)).entries (h.take htake).1.scope).sent

/-- Whatever rules and routes there are, and in whatever order packets are delivered: answers bind variables of their
    own queries, solvers never say that nothing matches, and so no requester of theirs ends with that. -/
theorem answers_in_scope (h : n.Peopled free) : n.InScope := by
  obtain ⟨l, hl⟩ := h.manned
  refine ⟨fun p hp => hl.lines.inFlight hp, hl.lines.turn, fun t ht hsolver o ho => ?_, fun t ht hleaf p hp hk => ?_,
    fun t ht a ha => (hl.lines.task t ht).answered a ha⟩
  · obtain ⟨k, hk⟩ := Option.ne_none_iff_exists'.mp hsolver
    obtain ⟨s, -, -, hsend⟩ := (hl.lines.task t ht).solver k hk
    exact (hsend o ho).binds
  · have he := ((hl.lines.task t ht).leaf hleaf).1
    exact ((hl.lines.queue _ p hp).response hk _ he rfl).1

/-! ## A network that asks two sources -/

def lending : Network :=
  ((Network.empty.addSolver "desk" .standard).addRule "desk" "find(?T) <- book(?T), loan(?W).").network

def lendingLinked : Network :=
  (((lending.attachSource "desk" "shelf" "book/1").network.attachSource "desk" "office" "loan/1").network.attachRequest
    "desk" "caller").network

def lendingCaller : Request := ⟨"caller", ⟨"find", ["?X"]⟩⟩

def lendingAsked : Network :=
  (((lendingLinked.start "desk").network.startSource ⟨"shelf", ⟨"book", ["dune"]⟩⟩ ⟨"desk", 1, 0⟩).startSource
    ⟨"office", ⟨"loan", ["may"]⟩⟩ ⟨"desk", 3, 2⟩).startRequest lendingCaller ⟨"desk", 5, 4⟩ none

def lendingRun : Option (Network × List Event) := runTo 3 (fun _ => false) 0 60 [] lendingAsked []

theorem lendingRun_isSome : lendingRun.isSome = true := by decide +kernel

def lent : Network := (lendingRun.get lendingRun_isSome).1

theorem lent_peopled : ∃ free, lent.Peopled free := by
  have h₁ : lendingLinked.Peopled _ := Peopled.empty.addSolver.addRule.attachSource.attachSource.attach
  have h₂ : lendingAsked.Peopled _ :=
    ((h₁.start.startSource (by decide +kernel)).startSource (by decide +kernel)).startRequest (by decide +kernel)
  exact ⟨_, h₂.runTo (Option.some_get lendingRun_isSome).symm⟩

/-- The caller learns of its own variable, and of none of the rule's. -/
theorem lent_in_scope : (∃ free, lent.Peopled free) ∧ lent.InScope ∧
    lent.tasks[5]? = some ⟨.request lendingCaller none, ⟨"desk", 5, 4⟩, .ended (.answered (.bound (.ofList [("?X", "dune")])))⟩ := by
  obtain ⟨free, h⟩ := lent_peopled
  exact ⟨⟨free, h⟩, answers_in_scope h, by decide +kernel⟩

end Network

end QueryNet
