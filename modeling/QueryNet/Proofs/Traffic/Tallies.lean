/-
  QueryNet.Proofs.Traffic.Tallies — the counters tell what happened to packets.

  A solver notes each packet when it handles it and when it has queued it, and of the
  announcements that it leaves out in one call how many there were. A turn notes the
  packet that it is on and no other (`handle_notes`); packets of sources, of requesters
  and from outside are not noted.

  Proved: in everything that is done the notes agree with the events, under the name of
  the solver whose doing it is (`Recorded.tallies`).
-/

import QueryNet.Proofs.Metrics
import QueryNet.Proofs.Traffic.Ledger

namespace QueryNet

def Metric.Quiet : Metric → Prop
  | .packetReceived _ _ => False
  | .packetSent _ _ => False
  | .announceDropped _ _ => False
  | _ => True

theorem Metric.Quiet.untold {x : Metric} (h : x.Quiet) (kind : PacketKind) (a : NodeId) :
    sentBy kind a x = 0 ∧ receivedBy kind a x = 0 ∧ droppedBy a x = 0 := by
  cases x with
  | packetReceived => exact h.elim
  | packetSent => exact h.elim
  | announceDropped => exact h.elim
  | _ => exact ⟨rfl, rfl, rfl⟩

namespace Event

def note? : Event → Option Metric
  | .note m => some m
  | _ => none

def queues (kind : PacketKind) : Event → Bool
  | .queued _ p => p.kind = kind
  | _ => false

def takes (kind : PacketKind) : Event → Bool
  | .taken _ p => p.kind = kind
  | _ => false

end Event

def notesOf (es : List Event) : List Metric := es.filterMap Event.note?

/-! ## Turns -/

/-- A first note and no others of packets. -/
def Turn.Opens (m : Metric) (t : Turn) : Prop := ∃ rest, t.notes = m :: rest ∧ ∀ x ∈ rest, x.Quiet

theorem Turn.Opens.note {m x : Metric} {t : Turn} (h : t.Opens m) (hx : x.Quiet) : (t.note x).Opens m := by
  obtain ⟨rest, hrest, hquiet⟩ := h
  refine ⟨rest ++ [x], congrArg (· ++ [x]) hrest, fun y hy => ?_⟩
  rcases List.mem_append.mp hy with hy | hy
  · exact hquiet y hy
  · rwa [List.mem_singleton.mp hy]

theorem Turn.Opens.announced {m : Metric} {t : Turn} (h : t.Opens m) (sender : NodeId) (p : Packet) :
    (t.announced sender p).2.Opens m := by
  unfold Turn.announced
  split
  · exact h
  · split
    · exact h
    · dsimp only
      split
      · exact Opens.note h trivial
      · exact Opens.note h trivial
      · exact h

theorem Turn.Opens.respond {m : Metric} {t : Turn} (h : t.Opens m) (p : Packet) : (t.respond p).Opens m := by
  unfold Turn.respond
  split
  · exact h
  · rename_i b _
    have hdeliver : (t.deliver p.query b p.query).2.Opens m := h
    split
    · rename_i heq
      rwa [heq] at hdeliver
    · rename_i heq
      rw [heq] at hdeliver
      exact hdeliver.note trivial

/-- A turn notes its packet first, and no other packets. -/
theorem Solver.handle_notes {depth : Nat} {s : Solver} {sender : NodeId} {p : Packet} {turn : Turn}
    (h : s.handle depth sender p = some turn) : turn.Opens (.packetReceived s.id p.kind) := by
  obtain ⟨t, ht, rfl⟩ := Option.map_eq_some_iff.mp h
  refine Turn.Opens.note ?_ trivial
  have hbegin : ((Turn.begin s).note (.packetReceived s.id p.kind)).Opens (.packetReceived s.id p.kind) :=
    ⟨[], rfl, List.forall_mem_nil _⟩
  unfold Turn.take at ht
  split at ht
  · obtain ⟨r, hr, rfl⟩ := Option.map_eq_some_iff.mp ht
    exact Turn.solve_keeps (I := Turn.Opens _) (fun _ _ h => h) (fun _ _ _ _ h => h) (fun _ _ _ h => h)
      (fun _ _ h => h.note trivial) depth hr hbegin
  · cases ht
    exact hbegin.respond p
  · cases ht
    exact hbegin.announced sender p

/-! ## Tallies -/

/-- What is noted under each name is how often something happened, if the name is the solver's, and else nothing. -/
def Tally (solver : Option NodeId) (noted : NodeId → Metric → Nat) (happens : Event → Bool) (es : List Event) : Prop :=
  ∀ a, ((notesOf es).map (noted a)).sum = if solver = some a then es.countP happens else 0

structure Tallies (solver : Option NodeId) (es : List Event) : Prop where
  sent : ∀ kind, Tally solver (Metric.sentBy kind) (Event.queues kind) es
  received : ∀ kind, Tally solver (Metric.receivedBy kind) (Event.takes kind) es
  dropped : Tally solver Metric.droppedBy Network.isRefusal es

variable {solver : Option NodeId} {noted : NodeId → Metric → Nat} {happens : Event → Bool} {es fs : List Event}
  {notes : List Metric}

theorem tally_nil : Tally solver noted happens [] := fun a => by split <;> rfl

theorem Tally.append (h : Tally solver noted happens es) (h' : Tally solver noted happens fs) :
    Tally solver noted happens (es ++ fs) := by
  intro a
  rw [notesOf, List.filterMap_append, List.map_append, List.sum_append, ← notesOf, ← notesOf, h a, h' a,
    List.countP_append]
  split <;> rfl

theorem Tallies.append (h : Tallies solver es) (h' : Tallies solver fs) : Tallies solver (es ++ fs) :=
  ⟨fun kind => (h.sent kind).append (h'.sent kind), fun kind => (h.received kind).append (h'.received kind),
    h.dropped.append h'.dropped⟩

theorem tallies_nil (solver : Option NodeId) : Tallies solver [] :=
  ⟨fun _ => tally_nil, fun _ => tally_nil, tally_nil⟩

/-- What nobody notes is no solver's doing. -/
theorem tallies_none (h : notesOf es = []) : Tallies none es := by
  have htally : ∀ noted happens, Tally none noted happens es := by
    intro noted happens a
    rw [h]
    rfl
  exact ⟨fun _ => htally _ _, fun _ => htally _ _, htally _ _⟩

theorem notesOf_notes (notes : List Metric) : notesOf (notes.map .note) = notes := by
  rw [notesOf, List.filterMap_map]
  exact List.filterMap_some

/-- Notes that tell nothing, where nothing happens. -/
theorem tally_notes (hnoted : ∀ x ∈ notes, ∀ a, noted a x = 0) (hhappens : ∀ x, happens (.note x) = false) :
    Tally solver noted happens (notes.map .note) := by
  intro a
  have hnone : (notes.map Event.note).countP happens = 0 := by
    rw [List.countP_map]
    exact List.countP_eq_zero.mpr fun x _ => by simp [hhappens]
  rw [notesOf_notes, hnone, ite_self, List.sum_eq_zero_iff_forall_eq_nat]
  intro x hx
  obtain ⟨y, hy, rfl⟩ := List.mem_map.mp hx
  exact hnoted y hy a

theorem tallies_quiet (h : ∀ x ∈ notes, x.Quiet) : Tallies solver (notes.map .note) := by
  refine ⟨fun kind => ?_, fun kind => ?_, ?_⟩
  · exact tally_notes (fun x hx a => ((h x hx).untold kind a).1) fun _ => rfl
  · exact tally_notes (fun x hx a => ((h x hx).untold kind a).2.1) fun _ => rfl
  · exact tally_notes (fun x hx a => ((h x hx).untold .request a).2.2) fun _ => rfl

/-- Something that happens, and its note. -/
theorem tally_noted {e : Event} {x : Metric} (he : e.note? = none) (hx : happens (.note x) = false)
    (h : ∀ a, noted a x = if happens e = true ∧ solver = some a then 1 else 0) :
    Tally solver noted happens [e, .note x] := by
  intro a
  have hnotes : notesOf [e, .note x] = [x] := by
    rw [notesOf, List.filterMap_cons, he]
    rfl
  rw [hnotes, List.map_singleton, List.sum_singleton, h, List.countP_cons, List.countP_singleton, hx]
  by_cases ha : solver = some a
  · simp [ha]
  · simp [ha]

theorem tallies_queued (a : NodeId) (c : ChannelId) (p : Packet) :
    Tallies (some a) [.queued c p, .note (.packetSent a p.kind)] := by
  refine ⟨fun kind => tally_noted rfl rfl fun b => ?_, fun kind => tally_noted rfl rfl fun b => ?_,
    tally_noted rfl rfl fun b => ?_⟩
  · simp [Metric.sentBy, Event.queues]
  · rfl
  · rfl

theorem tallies_taken (a : NodeId) (c : ChannelId) (p : Packet) :
    Tallies (some a) [.taken c p, .note (.packetReceived a p.kind)] := by
  refine ⟨fun kind => tally_noted rfl rfl fun b => ?_, fun kind => tally_noted rfl rfl fun b => ?_,
    tally_noted rfl rfl fun b => ?_⟩
  · rfl
  · simp [Metric.receivedBy, Event.takes]
  · rfl

namespace Network

variable {depth : Nat} {n m : Network} {log : List Act} {i : TaskId} {t : Task} {s : Solver} {offered out : List Outbound}

/-- A turn tells of the packet that it is on. -/
theorem tallies_turn {sender : NodeId} {p : Packet} {turn : Turn} (h : s.handle depth sender p = some turn) (c : ChannelId)
    (k : SolverId) : Tallies (some s.id) (.taken c p :: (turn.notes.map .note ++ [.produced k turn.out])) := by
  obtain ⟨rest, hnotes, hquiet⟩ := Solver.handle_notes h
  rw [hnotes]
  have hproduced : Tallies (some s.id) [.produced k turn.out] :=
    ⟨fun _ _ => by split <;> rfl, fun _ _ => by split <;> rfl, fun _ => by split <;> rfl⟩
  exact (tallies_taken s.id c p).append ((tallies_quiet hquiet).append hproduced)

theorem tally_offerEach (hqueued : ∀ c p, Tally (some s.id) noted happens [.queued c p, .note (.packetSent s.id p.kind)])
    (hrefused : ∀ c p, Tally (some s.id) noted happens [.refused c p]) (n : Network)
    (hout : ∀ o ∈ out, o.packet.kind = .routeAnnounce) : Tally (some s.id) noted happens (offerEach s out n).2 := by
  have hone : ∀ (n : Network) (o : Outbound), o.packet.kind = .routeAnnounce →
      Tally (some s.id) noted happens (n.offerOne s o).2 := by
    intro n o ho
    unfold offerOne
    split
    · exact tally_nil
    · split
      · rw [← ho]
        exact hqueued _ _
      · exact hrefused _ _
      · exact tally_nil
  induction out generalizing n with
  | nil => exact tally_nil
  | cons o out ih =>
    obtain ⟨ho, hrest⟩ := List.forall_mem_cons.mp hout
    exact (hone n o ho).append (ih _ hrest)

/-- In an offer the packets that are queued are noted one by one, and those left out together. -/
theorem tallies_offer (n : Network) (s : Solver) (hout : ∀ o ∈ out, o.packet.kind = .routeAnnounce) :
    Tallies (some s.id) (n.offer s out).2 := by
  obtain ⟨-, notes, hes, hnotes⟩ := offer_eq n s out
  have hkind : ∀ x ∈ notes, ∃ k, x = .announceDropped s.id k := by
    intro x hx
    rw [hnotes] at hx
    split at hx
    · cases hx
    · exact ⟨_, List.mem_singleton.mp hx⟩
  rw [hes]
  refine ⟨fun kind => ?_, fun kind => ?_, fun a => ?_⟩
  · refine (tally_offerEach (fun c p => (tallies_queued s.id c p).sent kind) (fun c p a => ?_) n hout).append
      (tally_notes (fun x hx a => ?_) fun _ => rfl)
    · split <;> rfl
    · obtain ⟨k, rfl⟩ := hkind x hx
      rfl
  · refine (tally_offerEach (fun c p => (tallies_queued s.id c p).received kind) (fun c p a => ?_) n hout).append
      (tally_notes (fun x hx a => ?_) fun _ => rfl)
    · split <;> rfl
    · obtain ⟨k, rfl⟩ := hkind x hx
      rfl
  · -- the offers by themselves note no losses
    have hnone : Tally (some s.id) Metric.droppedBy (fun _ => false) (offerEach s out n).2 :=
      tally_offerEach (fun c p => tally_noted rfl rfl fun a => rfl) (fun c p a => by split <;> rfl) n hout
    have hzero : ((notesOf (offerEach s out n).2).map (·.droppedBy a)).sum = 0 := by
      rw [hnone a, List.countP_eq_zero.mpr (by simp), ite_self]
    have hrefusals : (notes.map Event.note).countP isRefusal = 0 := by
      rw [List.countP_map]
      exact List.countP_eq_zero.mpr (by simp [isRefusal])
    rw [notesOf, List.filterMap_append, List.map_append, List.sum_append, ← notesOf, ← notesOf, notesOf_notes, hzero,
      List.countP_append, hrefusals, hnotes]
    split
    · rename_i hcount
      simp [hcount]
    · simp [Metric.droppedBy]

theorem solverOf_eq {k : SolverId} (hk : t.worker.solver? = some k) (hs : n.solvers[k]? = some s) :
    n.solverOf t = some s := by
  rw [solverOf, hk]
  exact hs

theorem solverOf_leaf (n : Network) (hleaf : t.worker.solver? = none) : n.solverOf t = none := by
  rw [solverOf, hleaf]
  rfl

theorem tallies_sentNote (n : Network) (t : Task) (c : ChannelId) (p : Packet) :
    Tallies ((n.solverOf t).map (·.id)) (.queued c p :: n.sentNote t p) := by
  unfold sentNote
  cases n.solverOf t with
  | none => exact tallies_none rfl
  | some s => exact tallies_queued s.id c p

theorem Move.tallies (h : Move depth n i t offered es m) : Tallies ((n.solverOf t).map (·.id)) es := by
  cases h with
  | @serve since p ch k s turn hphase htake hk hs hturn =>
    obtain ⟨pending, routes, he⟩ := Solver.handle_frame ⟨depth, hturn⟩
    have hid : turn.solver.id = s.id := by rw [he]
    have hoffer := tallies_offer (n.handled t ch k turn) turn.solver (announcements_filter turn.out)
    rw [hid] at hoffer
    rw [solverOf_eq hk hs]
    simpa using (tallies_turn hturn t.endpoint.rx k).append hoffer
  | reply _ _ hworker _ =>
    have hleaf : t.worker.solver? = none := by rw [hworker]; rfl
    rw [solverOf_leaf n hleaf]
    exact tallies_none rfl
  | ignore _ _ hleaf =>
    rw [solverOf_leaf n hleaf]
    exact tallies_none rfl
  | answered _ _ hleaf =>
    rw [solverOf_leaf n hleaf]
    exact tallies_none rfl
  | @idle since last k s _ _ hworker hs _ =>
    have hk : t.worker.solver? = some k := by rw [hworker]; rfl
    rw [solverOf_eq hk hs]
    exact tallies_offer n s (announcements_advertisement s _)
  | close => exact tallies_nil _
  | late => exact tallies_nil _
  | rest => exact tallies_nil _
  | @renew last k s _ hworker hs _ =>
    have hk : t.worker.solver? = some k := by rw [hworker]; rfl
    rw [solverOf_eq hk hs]
    exact tallies_offer n s (announcements_advertisement s _)
  | send => exact tallies_sentNote _ _ _ _
  | skip => exact tallies_nil _
  | enlist => exact tallies_nil _
  | withdraw => exact tallies_nil _
  | lose => exact tallies_nil _
  | hangUp => exact tallies_nil _

theorem notesOf_send {e : Endpoint} {p : Packet} {how : Sent} {es : List Event} (h : n.send e p = (how, m, es)) :
    notesOf es = [] := by
  unfold send at h
  split at h
  · cases h
    rfl
  · cases h
    rfl
  · cases h
    rfl

theorem notesOf_receive {e : Endpoint} {received : Received} {es : List Event} (h : n.receive e = (received, m, es)) :
    notesOf es = [] := by
  unfold receive at h
  split at h
  · cases h
    rfl
  · cases h
    rfl
  · cases h
    rfl

theorem announcements_sourceNews (s : Solver) (key : String) :
    ∀ o ∈ sourceNews s key, o.packet.kind = .routeAnnounce := by
  intro o ho
  obtain ⟨b, -, rfl⟩ := List.mem_map.mp ho
  rfl

/-- In everything that was done the notes tell what happened to packets. -/
theorem Recorded.tallies (h : Recorded n log) : ∀ act ∈ log, Tallies act.solver act.events := by
  have hadd : ∀ {log : List Act} {act : Act}, (∀ act ∈ log, Tallies act.solver act.events) →
      Tallies act.solver act.events → ∀ act' ∈ log ++ [act], Tallies act'.solver act'.events := by
    intro log act hlog hact act' hmem
    rcases List.mem_append.mp hmem with hmem | hmem
    · exact hlog act' hmem
    · rwa [List.mem_singleton.mp hmem]
  induction h with
  | empty => exact List.forall_mem_nil _
  | addSolver _ ih => exact ih
  | link _ ih => exact hadd ih (tallies_nil none)
  | attachEnd _ _ ih => exact ih
  | dropEnd _ ih => exact ih
  | addRule _ ih => exact ih
  | addRoute _ ih => exact ih
  | @addSource n m log a source key k s es _ _ hm ih =>
    have hoffer := tallies_offer (n.setSolver k (withSource s key source)) (withSource s key source)
      (announcements_sourceNews (withSource s key source) key)
    rw [hm] at hoffer
    exact hadd ih hoffer
  | start _ ih => exact ih
  | addTask _ _ ih => exact ih
  | send _ hm ih => exact hadd ih (tallies_none (notesOf_send hm))
  | receive _ hm ih => exact hadd ih (tallies_none (notesOf_receive hm))
  | move _ _ hmove ih => exact hadd ih hmove.tallies
  | wait _ ih => exact ih

end Network

end QueryNet
