/-
  QueryNet.Proofs.Scenario.Layout — networks that are being set up.

  Until a network is started no solver runs and no task is there. Whether a call
  succeeds depends on which solvers there are and which neighbours each of them has,
  and so a network is described by these (`Network.Laid`): a link needs two solvers
  that are not each other's neighbours, a source or a requester one that it is no
  neighbour of, a route a neighbour to lead through.

  A call succeeds exactly under its condition, and then says how the description goes
  on (`SucceedsIff`). What also goes on is that the ends that are given out are ends of
  lines of which the solvers hold their sides (`Network.Fitted`).
-/

import QueryNet.Proofs.Scope.Network

namespace QueryNet

/-! ## Calls that may fail -/

/-- A call succeeds if and only if a condition holds; then what it returns is as is said. -/
def SucceedsIff {ε β : Type} (P : Prop) (I : β → Prop) (r : Except ε β) : Prop :=
  (P → ∃ b, r = .ok b ∧ I b) ∧ (¬ P → ∃ e, r = .error e)

def All {α : Type} (good : List α → α → Prop) (l : List α) : Prop := ∀ pre a post, l = pre ++ a :: post → good pre a

theorem All.mem {α : Type} {good : List α → α → Prop} {l : List α} (h : All good l) {a : α} (ha : a ∈ l) :
    ∃ pre, good pre a := by
  obtain ⟨pre, post, he⟩ := List.append_of_mem ha
  exact ⟨pre, h pre a post he⟩

theorem all_const {α : Type} {good : α → Prop} {l : List α} : All (fun _ => good) l ↔ ∀ a ∈ l, good a := by
  constructor
  · intro h a ha
    obtain ⟨-, hgood⟩ := h.mem ha
    exact hgood
  · intro h pre a post he
    exact h a (he ▸ List.mem_append_right _ (List.mem_cons_self ..))

namespace SucceedsIff

variable {α β γ ε : Type} {P Q : Prop} {I : β → Prop} {J : γ → Prop} {r : Except ε β}

theorem ok (hP : P) {b : β} (hI : I b) : SucceedsIff P I (.ok b : Except ε β) :=
  ⟨fun _ => ⟨b, rfl, hI⟩, fun hno => absurd hP hno⟩

theorem error (hP : ¬ P) (e : ε) : SucceedsIff P I (.error e) := ⟨fun hyes => absurd hyes hP, fun _ => ⟨e, rfl⟩⟩

theorem error_iff (h : SucceedsIff P I r) : (∃ e, r = .error e) ↔ ¬ P := by
  constructor
  · rintro ⟨e, he⟩ hP
    obtain ⟨b, hb, -⟩ := h.1 hP
    rw [he] at hb
    cases hb
  · exact h.2

theorem either (h : SucceedsIff P I r) : (∃ e, r = .error e ∧ ¬ P) ∨ ∃ b, r = .ok b ∧ P ∧ I b := by
  by_cases hP : P
  · obtain ⟨b, hb, hI⟩ := h.1 hP
    exact .inr ⟨b, hb, hP, hI⟩
  · obtain ⟨e, he⟩ := h.2 hP
    exact .inl ⟨e, he, hP⟩

theorem congr (h : SucceedsIff P I r) (hPQ : P ↔ Q) : SucceedsIff Q I r :=
  ⟨fun hQ => h.1 (hPQ.mpr hQ), fun hQ => h.2 fun hP => hQ (hPQ.mp hP)⟩

theorem imp {I' : β → Prop} (h : SucceedsIff P I r) (hI : ∀ b, P → I b → I' b) : SucceedsIff P I' r := by
  refine ⟨fun hP => ?_, h.2⟩
  obtain ⟨b, hb, hIb⟩ := h.1 hP
  exact ⟨b, hb, hI b hP hIb⟩

/-- One call after another: both have to succeed. -/
theorem bind {f : β → Except ε γ} (h : SucceedsIff P I r) (hf : ∀ b, P → I b → SucceedsIff Q J (f b)) :
    SucceedsIff (P ∧ Q) J (r >>= f) := by
  rcases h.either with ⟨e, rfl, hP⟩ | ⟨b, rfl, hP, hI⟩
  · exact error (fun hPQ => hP hPQ.1) e
  · exact (hf b hP hI).congr (by simp [hP])

theorem of_ok (h : SucceedsIff P I r) {b : β} (hb : r = .ok b) : P ∧ I b := by
  rcases h.either with ⟨e, he, -⟩ | ⟨b', hb', hP, hI⟩
  · cases hb.symm.trans he
  · cases hb.symm.trans hb'
    exact ⟨hP, hI⟩

/-- Calls for each item of a list, on top of what those for the items before it have done. -/
theorem foldlM {I : List α → β → Prop} {P : List α → α → Prop} {f : β → α → Except ε β}
    (hf : ∀ pre a b, I pre b → SucceedsIff (P pre a) (I (pre ++ [a])) (f b a)) (l : List α) {b : β} (h : I [] b) :
    SucceedsIff (All P l) (I l) (l.foldlM f b) := by
  have hrest : ∀ (l done : List α) (b : β), I done b →
      SucceedsIff (All (fun pre => P (done ++ pre)) l) (I (done ++ l)) (l.foldlM f b) := by
    intro l
    induction l with
    | nil =>
      intro done b hb
      refine ok (fun pre a post he => ?_) (by rwa [List.append_nil])
      cases pre with
      | nil => cases he
      | cons => cases he
    | cons x l ih =>
      intro done b hb
      rw [List.foldlM_cons]
      refine ((hf done x b hb).bind fun b' _ hb' => ih (done ++ [x]) b' hb').congr ?_ |>.imp fun b' _ hb' => ?_
      · constructor
        · intro ⟨hx, hl⟩ pre a post he
          cases pre with
          | nil =>
            cases he
            simpa using hx
          | cons y pre =>
            cases he
            have hgood : P (done ++ [x] ++ pre) a := hl pre a post rfl
            simpa using hgood
        · intro hall
          refine ⟨by simpa using hall [] x l rfl, fun pre a post he => ?_⟩
          have hgood : P (done ++ x :: pre) a := hall (x :: pre) a post (by rw [he, List.cons_append])
          simpa using hgood
      · rwa [List.append_assoc] at hb'
  simpa using hrest l [] b h

end SucceedsIff

namespace Network

variable {n m : Network} {a b peer : NodeId} {k : SolverId} {s s' : Solver} {e far : Endpoint} {role : Role}
  {free : List Endpoint} {c id : ChannelId} {ch : Channel} {capacity : Nat}

/-! ## Held ends -/

/-- Whoever is at an end of a link can send and be sent to: the other end is not dropped. -/
structure Holds (n : Network) (e : Endpoint) : Prop where
  receiver : (n.channel e.tx).receiverHeld = true
  sender : (n.channel e.rx).senderHeld = true

structure SameEnds (n m : Network) : Prop where
  length : n.channels.length ≤ m.channels.length
  sender : ∀ c < n.channels.length, (m.channel c).senderHeld = (n.channel c).senderHeld
  receiver : ∀ c < n.channels.length, (m.channel c).receiverHeld = (n.channel c).receiverHeld

theorem SameEnds.trans {l : Network} (h : SameEnds n m) (h' : SameEnds m l) : SameEnds n l := by
  refine ⟨Nat.le_trans h.length h'.length, fun c hc => ?_, fun c hc => ?_⟩
  · rw [h'.sender c (Nat.lt_of_lt_of_le hc h.length), h.sender c hc]
  · rw [h'.receiver c (Nat.lt_of_lt_of_le hc h.length), h.receiver c hc]

theorem sameEnds_of_eq (h : m.channels = n.channels) : SameEnds n m := by
  have hc : ∀ c, m.channel c = n.channel c := fun c => by rw [channel, channel, h]
  exact ⟨Nat.le_of_eq (by rw [h]), fun c _ => by rw [hc], fun c _ => by rw [hc]⟩

theorem sameEnds_setChannel (hid : id < n.channels.length) (hs : ch.senderHeld = (n.channel id).senderHeld)
    (hr : ch.receiverHeld = (n.channel id).receiverHeld) : SameEnds n (n.setChannel id ch) := by
  refine ⟨Nat.le_of_eq List.length_set.symm, fun c _ => ?_, fun c _ => ?_⟩
  · rw [channel_setChannel hid]
    split
    · rename_i hc
      rw [hc, hs]
    · rfl
  · rw [channel_setChannel hid]
    split
    · rename_i hc
      rw [hc, hr]
    · rfl

theorem channel_link (hc : c < n.channels.length) : (n.link a b capacity).2.2.channel c = n.channel c := by
  simp only [channel, Network.link, List.getD_eq_getElem?_getD, List.getElem?_append_left hc]

theorem sameEnds_link (n : Network) (a b : NodeId) (capacity : Nat) : SameEnds n (n.link a b capacity).2.2 := by
  refine ⟨length_link n a b capacity ▸ Nat.le_add_right _ _, fun c hc => ?_, fun c hc => ?_⟩
  · rw [channel_link hc]
  · rw [channel_link hc]

/-- A new link is held at its four ends. -/
theorem holds_link (n : Network) (a b : NodeId) (capacity : Nat) :
    (n.link a b capacity).2.2.Holds (n.link a b capacity).2.1 := by
  constructor
  · simp [channel, Network.link, Channel.create]
  · simp [channel, Network.link, Channel.create]

theorem sameEnds_offerOne (n : Network) (s : Solver) (o : Outbound) : SameEnds n (n.offerOne s o).1 := by
  unfold offerOne
  split
  · exact sameEnds_of_eq rfl
  · split
    · rename_i ch hoffer
      obtain ⟨hheld, -, rfl⟩ := Channel.offer_queued hoffer
      exact sameEnds_setChannel (lt_of_receiverHeld hheld) rfl rfl
    · exact sameEnds_of_eq rfl
    · exact sameEnds_of_eq rfl

theorem sameEnds_offer (n : Network) (s : Solver) (out : List Outbound) : SameEnds n (n.offer s out).1 := by
  show SameEnds n (offerEach s out n).1
  induction out generalizing n with
  | nil => exact sameEnds_of_eq rfl
  | cons o out ih => exact (sameEnds_offerOne n s o).trans (ih _)

theorem channels_onSolver {α : Type} (n : Network) (a : NodeId) (f : Solver → Except SetupError (α × Solver)) :
    (n.onSolver a f).network.channels = n.channels := by
  rcases onSolver_cases n a f with ⟨err, he⟩ | ⟨k, s, v, s', -, -, he⟩
  · rw [he]
  · rw [he]
    rfl

theorem attachEnd_channels {u : Unit} (h : (n.attachEnd a role e).result = .ok u) :
    (n.attachEnd a role e).network.channels = n.channels := by
  have hsolver := channels_onSolver n a fun s => (s.attach role e).map ((), ·)
  unfold attachEnd at h ⊢
  dsimp only at h ⊢
  split at h
  · exact hsolver
  · rename_i err herr
    rw [herr] at h
    cases h

theorem attach_channels (h : (n.attach a peer role capacity).result = .ok far) :
    (n.attach a peer role capacity).network.channels = (n.link a peer capacity).2.2.channels := by
  unfold attach at h ⊢
  dsimp only at h ⊢
  split at h
  · rename_i hok
    exact attachEnd_channels hok
  · cases h

theorem connect_channels {u : Unit} (h : (n.connect a b).result = .ok u) :
    SameEnds n (n.connect a b).network := by
  have hlink := sameEnds_link n a b (max (n.capacityOf a) (n.capacityOf b))
  unfold connect at h ⊢
  dsimp only at h ⊢
  split at h
  · cases h
  · rename_i hok
    exact hlink.trans (sameEnds_of_eq ((attachEnd_channels h).trans (attachEnd_channels hok)))

/-! ## Lines -/

/-- The free ends are ends of lines, and the solvers hold their sides of all lines. -/
def Fitted (n : Network) (free : List Endpoint) : Prop := ∃ l, Manned n free l ∧ ∀ e ∈ l.ends, n.Holds e

theorem Holds.same (h : n.Holds e) (htx : e.tx < n.channels.length) (hrx : e.rx < n.channels.length)
    (hends : SameEnds n m) : m.Holds e :=
  ⟨(hends.receiver _ htx).trans h.receiver, (hends.sender _ hrx).trans h.sender⟩

theorem Manned.holds_same {l : Lines} (h : Manned n free l) (hholds : ∀ e ∈ l.ends, n.Holds e) (hends : SameEnds n m) :
    ∀ e ∈ l.ends, m.Holds e := fun e he => (hholds e he).same (h.lines.made e he).1 (h.lines.made e he).2 hends

/-- What keeps a network on its lines and drops no ends keeps it fitted. -/
theorem Fitted.same (h : n.Fitted free) (hm : ∀ l, n.OnLines l → m.OnLines l) (hends : SameEnds n m) :
    m.Fitted free := by
  obtain ⟨l, hl, hholds⟩ := h
  exact ⟨l, hl.of_lines (hm l hl.lines), hl.holds_same hholds hends⟩

theorem fitted_empty : Network.empty.Fitted [] :=
  ⟨_, ⟨onLines_empty, List.Subset.refl _, List.nodup_nil, List.forall_mem_nil _⟩, List.forall_mem_nil _⟩

theorem Fitted.addSolver (h : n.Fitted free) (ha : n.lookup a = none) (config : SolverConfig) :
    (n.addSolver a config).Fitted free :=
  h.same (fun _ hl => hl.addSolver a config) (sameEnds_of_eq (by rw [addSolver_eq ha]))

theorem Fitted.addRule (h : n.Fitted free) (a : NodeId) (text : String) : (n.addRule a text).network.Fitted free :=
  h.same (fun _ hl => hl.addRule a text) (sameEnds_of_eq (channels_onSolver ..))

theorem Fitted.addRoute (h : n.Fitted free) (a : NodeId) (key : String) (b : NodeId) (metric : Nat) :
    (n.addRoute a key b metric).network.Fitted free :=
  h.same (fun _ hl => hl.addRoute a key b metric) (sameEnds_of_eq (channels_onSolver ..))

theorem Fitted.connect (h : n.Fitted free) {u : Unit} (hok : (n.connect a b).result = .ok u) :
    (n.connect a b).network.Fitted free :=
  h.same (fun _ hl => hl.connect a b) (connect_channels hok)

/-- The end that is given out is free, and its line is held. -/
theorem Fitted.give (h : n.Fitted free) (hends : SameEnds (n.link a peer capacity).2.2 m)
    (hm : ∀ l, n.OnLines l → m.OnLines (lineTo l n a peer capacity)) :
    m.Fitted (free ++ [(n.link a peer capacity).2.1]) := by
  obtain ⟨l, hl, hholds⟩ := h
  let far := (n.link a peer capacity).2.1
  have hgive : Manned m (free ++ (Except.ok far : Except SetupError Endpoint).toOption.toList) _ :=
    hl.give (hm l hl.lines) fun _ he => (Except.ok.inj he).symm
  refine ⟨_, hgive, fun e he => ?_⟩
  rcases List.mem_append.mp he with hold | hnew
  · exact hl.holds_same hholds ((sameEnds_link n a peer capacity).trans hends) e hold
  · rw [List.mem_singleton.mp hnew]
    refine (holds_link n a peer capacity).same ?_ ?_ hends
    · exact length_link n a peer capacity ▸ Nat.lt_succ_self _
    · exact length_link n a peer capacity ▸ Nat.lt_add_of_pos_right Nat.two_pos

theorem Fitted.attach (h : n.Fitted free) (hok : (n.attach a peer role capacity).result = .ok far) :
    (n.attach a peer role capacity).network.Fitted (free ++ [far]) := by
  rw [attach_far hok]
  exact h.give (sameEnds_of_eq (attach_channels hok)) fun l hl => hl.attach a peer role capacity

theorem Fitted.attachSource (h : n.Fitted free) {source : NodeId} {key : String}
    (hok : (n.attachSource a source key).result = .ok far) :
    (n.attachSource a source key).network.Fitted (free ++ [far]) := by
  rw [result_attachSource] at hok
  rw [attach_far hok]
  refine h.give ?_ fun l hl => hl.attachSource a source key
  have hattach := sameEnds_of_eq (attach_channels hok)
  unfold Network.attachSource
  dsimp only
  split
  · rename_i k s _ _
    have hset : SameEnds (n.attach a source .leaf (n.capacityOf a)).network
      ((n.attach a source .leaf (n.capacityOf a)).network.setSolver k (withSource s key source)) := sameEnds_of_eq rfl
    exact (hattach.trans hset).trans (sameEnds_offer _ _ _)
  · exact hattach

/-! ## Solvers and their neighbours -/

structure Laid (n : Network) (known : NodeId → Prop) (linked : NodeId → NodeId → Prop) : Prop where
  named : n.Named
  known : ∀ a, n.names.contains a = true ↔ known a
  idle : ∀ s ∈ n.solvers, s.running = false
  linked : ∀ {a s}, n.solver? a = some s → ∀ b, s.interfaces.contains b = true ↔ linked a b
  tasks : n.tasks = []

def linkedTo (linked : NodeId → NodeId → Prop) (a b : NodeId) : NodeId → NodeId → Prop :=
  fun c d => linked c d ∨ (a = c ∧ b = d)

variable {known : NodeId → Prop} {linked linked' : NodeId → NodeId → Prop}

theorem laid_empty : Network.empty.Laid (fun _ => False) fun _ _ => False := by
  refine ⟨⟨fun h => ?_, fun h => ?_⟩, fun a => ?_, List.forall_mem_nil _, fun h => ?_, rfl⟩
  · cases h
  · cases h
  · exact ⟨fun h => (by cases h), False.elim⟩
  · cases h

theorem Laid.congr {known' : NodeId → Prop} (h : n.Laid known linked) (hk : ∀ a, known a ↔ known' a)
    (hl : ∀ a b, linked a b ↔ linked' a b) : n.Laid known' linked' :=
  ⟨h.named, fun a => (h.known a).trans (hk a), h.idle, fun hs b => (h.linked hs b).trans (hl _ b), h.tasks⟩

theorem Laid.same (h : n.Laid known linked) (hs : Same n m) (ht : m.tasks = n.tasks) : m.Laid known linked := by
  refine ⟨hs.named h.named, fun a => ?_, fun s hmem => ?_, fun hs' b => ?_, ht.trans h.tasks⟩
  · rw [hs.names]
    exact h.known a
  · rw [hs.solvers] at hmem
    exact h.idle s hmem
  · rw [hs.solver?] at hs'
    exact h.linked hs' b

/-- A solver that is known is found. -/
theorem Laid.lookup (h : n.Laid known linked) (ha : known a) : ∃ k s, n.lookup a = some (k, s) := by
  obtain ⟨k, hk⟩ := Option.isSome_iff_exists.mp ((h.known a).mpr ha)
  obtain ⟨s, hs, -⟩ := h.named.id_of hk
  exact ⟨k, s, lookup_eq_some.mpr ⟨hk, hs⟩⟩

theorem Laid.lookup_eq_none (h : n.Laid known linked) (ha : ¬ known a) : n.lookup a = none := by
  have hno : n.names.contains a = false := Bool.eq_false_iff.mpr fun hc => ha ((h.known a).mp hc)
  rw [Network.lookup, Option.isSome_eq_false_iff.mp hno |> Option.isNone_iff_eq_none.mp]
  rfl

theorem Laid.idle_of (h : n.Laid known linked) (hs : n.lookup a = some (k, s)) : s.running = false :=
  h.idle s (List.mem_of_getElem? (lookup_eq_some.mp hs).2)

theorem Laid.linked_of (h : n.Laid known linked) (hs : n.lookup a = some (k, s)) (b : NodeId) :
    s.interfaces.contains b = true ↔ linked a b := h.linked (solver?_eq_some.mpr ⟨k, hs⟩) b

theorem Laid.setSolver (h : n.Laid known linked) (hs : n.lookup a = some (k, s)) (hid : s'.id = s.id)
    (hrun : s'.running = false) (hself : ∀ b, s'.interfaces.contains b = true ↔ linked' a b)
    (hother : ∀ c b, c ≠ a → (linked c b ↔ linked' c b)) : (n.setSolver k s').Laid known linked' := by
  refine ⟨h.named.setSolver hs hid, h.known, fun u hu => ?_, fun {c u} hu b => ?_, h.tasks⟩
  · rcases List.mem_or_eq_of_mem_set hu with hold | rfl
    · exact h.idle u hold
    · exact hrun
  · rw [h.named.solver?_setSolver hs] at hu
    by_cases hc : c = a
    · rw [if_pos hc] at hu
      cases hu
      exact hc ▸ hself b
    · rw [if_neg hc] at hu
      exact (h.linked hu b).trans (hother c b hc)

/-- A solver that keeps its name and its links. -/
theorem Laid.setSolver_same (h : n.Laid known linked) (hs : n.lookup a = some (k, s)) (hid : s'.id = s.id)
    (hrun : s'.running = s.running) (hi : s'.interfaces = s.interfaces) : (n.setSolver k s').Laid known linked :=
  h.setSolver hs hid (hrun.trans (h.idle_of hs)) (fun b => hi ▸ h.linked_of hs b) fun _ _ _ => Iff.rfl

/-! ## Calls -/

theorem Laid.addSolver (h : n.Laid known linked) (ha : ¬ known a) (hnone : ∀ b, ¬ linked a b) (config : SolverConfig) :
    (n.addSolver a config).Laid (fun b => known b ∨ b = a) linked := by
  have hlookup := h.lookup_eq_none ha
  refine ⟨h.named.addSolver hlookup config, fun b => ?_, fun s hs => ?_, fun {b s} hs c => ?_, ?_⟩
  · rw [addSolver_eq hlookup, ← h.known b, Table.contains, Table.get?_insert]
    by_cases hb : b = a
    · simp [hb]
    · simp [hb, Table.contains]
  · rw [addSolver_eq hlookup] at hs
    rcases List.mem_append.mp hs with hold | hnew
    · exact h.idle s hold
    · rw [List.mem_singleton.mp hnew]
      rfl
  · rw [h.named.solver?_addSolver hlookup] at hs
    by_cases hb : b = a
    · rw [if_pos hb] at hs
      cases hs
      exact ⟨fun hc => (by cases hc), fun hc => absurd (hb ▸ hc) (hnone c)⟩
    · rw [if_neg hb] at hs
      exact h.linked hs c
  · rw [addSolver_eq hlookup]
    exact h.tasks

/-- A call on a solver that is known does what it does to that solver. -/
theorem Laid.onSolver {α : Type} {P : Prop} {I : Network → Prop} {f : Solver → Except SetupError (α × Solver)}
    (h : n.Laid known linked) (ha : known a)
    (hf : ∀ k s, n.lookup a = some (k, s) → SucceedsIff P (fun r => I (n.setSolver k r.2)) (f s)) :
    SucceedsIff P (fun _ => I (n.onSolver a f).network) (n.onSolver a f).result := by
  obtain ⟨k, s, hs⟩ := h.lookup ha
  unfold Network.onSolver
  simp only [hs]
  rcases (hf k s hs).either with ⟨err, hr, hP⟩ | ⟨r, hr, hP, hI⟩
  · rw [hr]
    exact .error hP err
  · rw [hr]
    exact .ok hP hI

theorem Laid.addRule (h : n.Laid known linked) (ha : known a) (text : String) :
    SucceedsIff (∃ r, Rule.parse text = .ok r) (fun _ => (n.addRule a text).network.Laid known linked)
      (n.addRule a text).result := by
  refine h.onSolver (I := fun n => n.Laid known linked) ha fun k s hs => ?_
  unfold Solver.addRule
  cases hr : Rule.parse text with
  | error e => exact .error (fun ⟨r, he⟩ => by cases he) _
  | ok r => exact .ok ⟨r, rfl⟩ (h.setSolver_same hs rfl rfl rfl)

theorem Laid.addRoute (h : n.Laid known linked) (ha : known a) (key : String) (b : NodeId) (metric : Nat) :
    SucceedsIff (linked a b) (fun _ => (n.addRoute a key b metric).network.Laid known linked)
      (n.addRoute a key b metric).result := by
  refine h.onSolver (I := fun n => n.Laid known linked) ha fun k s hs => ?_
  have hb := h.linked_of hs b
  unfold Solver.addRoute
  by_cases hc : s.interfaces.contains b = true
  · rw [if_pos hc]
    exact .ok (hb.mp hc) (h.setSolver_same hs rfl rfl rfl)
  · rw [if_neg hc]
    exact .error (fun hl => hc (hb.mpr hl)) _

/-- One end of a link is attached unless the solver has a neighbour of that name. -/
theorem Laid.attachEnd (h : n.Laid known linked) (ha : known a) (role : Role) (e : Endpoint) :
    SucceedsIff (¬ linked a e.peer) (fun _ => (n.attachEnd a role e).network.Laid known (linkedTo linked a e.peer))
      (n.attachEnd a role e).result := by
  have hsolver : SucceedsIff (¬ linked a e.peer)
      (fun _ => (n.onSolver a fun s => (s.attach role e).map ((), ·)).network.Laid known (linkedTo linked a e.peer))
      (n.onSolver a fun s => (s.attach role e).map ((), ·)).result := by
    refine h.onSolver (I := fun n => n.Laid known (linkedTo linked a e.peer)) ha fun k s hs => ?_
    have hpeer := h.linked_of hs e.peer
    have hidle := h.idle_of hs
    unfold Solver.attach
    rw [if_neg (by rw [hidle]; decide)]
    by_cases hc : s.interfaces.contains e.peer = true
    · rw [if_pos hc]
      exact .error (fun hno => hno (hpeer.mp hc)) _
    · rw [if_neg hc]
      refine .ok (fun hl => hc (hpeer.mpr hl)) (h.setSolver hs rfl hidle (fun b => ?_) fun c b hne => ?_)
      · rw [Table.contains, Table.get?_insert, linkedTo, ← h.linked_of hs b]
        by_cases hb : b = e.peer
        · simp [hb]
        · simp [hb, Ne.symm hb, Table.contains]
      · simp [linkedTo, Ne.symm hne]
  unfold Network.attachEnd
  dsimp only
  rcases hsolver.either with ⟨err, hr, hP⟩ | ⟨u, hr, hP, hI⟩
  · rw [hr]
    exact .error hP err
  · simp only [hr]
    exact .ok hP hI

theorem Laid.attach (h : n.Laid known linked) (ha : known a) (peer : NodeId) (role : Role) (capacity : Nat) :
    SucceedsIff (¬ linked a peer) (fun _ => (n.attach a peer role capacity).network.Laid known (linkedTo linked a peer))
      (n.attach a peer role capacity).result := by
  have hlink : (n.link a peer capacity).2.2.Laid known linked := h.same ⟨rfl, rfl⟩ rfl
  have hend := hlink.attachEnd ha role (n.link a peer capacity).1
  unfold Network.attach
  dsimp only
  rcases hend.either with ⟨err, hr, hP⟩ | ⟨u, hr, hP, hI⟩
  · rw [hr]
    exact .error hP err
  · rw [hr]
    exact .ok hP hI

theorem Laid.attachSource (h : n.Laid known linked) (ha : known a) (source : NodeId) (key : String) :
    SucceedsIff (¬ linked a source)
      (fun _ => (n.attachSource a source key).network.Laid known (linkedTo linked a source))
      (n.attachSource a source key).result := by
  have hattach := h.attach ha source .leaf (n.capacityOf a)
  rw [result_attachSource]
  refine hattach.imp fun far _ hl => ?_
  unfold Network.attachSource
  dsimp only
  split
  · rename_i k s _ hs
    have hset : ((n.attach a source .leaf (n.capacityOf a)).network.setSolver k (withSource s key source)).Laid known
        (linkedTo linked a source) := hl.setSolver_same hs rfl rfl rfl
    exact hset.same (same_offer _ _ _) (tasks_offer _ _ _)
  · exact hl

/-- A link needs two solvers, neither of which has the other as a neighbour. -/
theorem Laid.connect (h : n.Laid known linked) (ha : known a) (hb : known b) :
    SucceedsIff (¬ linked a b ∧ ¬ linkedTo linked a b b a)
      (fun _ => (n.connect a b).network.Laid known (linkedTo (linkedTo linked a b) b a)) (n.connect a b).result := by
  have hlink : (n.link a b (max (n.capacityOf a) (n.capacityOf b))).2.2.Laid known linked := h.same ⟨rfl, rfl⟩ rfl
  have hnear := hlink.attachEnd ha .solverPeer (n.link a b (max (n.capacityOf a) (n.capacityOf b))).1
  unfold Network.connect
  dsimp only
  rcases hnear.either with ⟨err, hr, hP⟩ | ⟨u, hr, hP, hI⟩
  · rw [hr]
    exact .error (fun hboth => hP hboth.1) err
  · have hfar := hI.attachEnd hb .solverPeer (n.link a b (max (n.capacityOf a) (n.capacityOf b))).2.1
    rw [hr]
    exact hfar.congr (by exact ⟨fun hno => ⟨hP, hno⟩, fun hboth => hboth.2⟩)

end Network

end QueryNet
