/-
  QueryNet.Proofs.Scope.Lines — what the links to sources and requesters carry.

  A line is a link between a solver and a source or a requester, named by the end that
  is given out. A requester that is started on it asks one query there. Requests on
  the line to the solver are for that query, and so are the answers on the line back:
  an answer goes to the neighbour that the entry names, and it names the one whose task
  took the request (`Network.OnLines`).

  Proved: every move of a task keeps a network on its lines (`OnLines.move`), whatever
  the channels between solvers carry, and so does every call of the setting up that
  gives out no end.
-/

import QueryNet.Proofs.Course.Accounts
import QueryNet.Proofs.Routing.Wiring
import QueryNet.Proofs.Scope
import QueryNet.Proofs.Traffic.Ledger

namespace QueryNet

/-- The ends of links that are for sources and requesters, and the query that is asked at each, by the channel
    that it sends into. -/
structure Lines where
  ends : List Endpoint
  asked : ChannelId → Option Atom

namespace Lines

/-- What may be in a channel: an answer in the scope of its query, and if it leads along a line, nothing but
    requests for what is asked there, or answers to it. -/
structure Admits (l : Lines) (c : ChannelId) (p : Packet) : Prop where
  scope : p.InScope
  request : p.kind = .request → ∀ e ∈ l.ends, e.tx = c → l.asked e.tx = some p.query
  response : p.kind = .response → ∀ e ∈ l.ends, e.rx = c → p.result ≠ none ∧ l.asked e.tx = some p.query

/-- The neighbour may be answered the query: it is no line's, or the query is asked there. -/
def Answers (l : Lines) (s : Solver) (b : NodeId) (q : Atom) : Prop :=
  ∃ i, s.interfaces.get? b = some i ∧ ∀ e ∈ l.ends, e.rx = i.tx → l.asked e.tx = some q

/-- The end of a link is the solver's for its peer, and both its channels are of the same line, if of any. -/
structure Serves (l : Lines) (s : Solver) (e : Endpoint) : Prop where
  interface : ∃ role, s.interfaces.get? e.peer = some ⟨role, e.tx⟩
  paired : ∀ e' ∈ l.ends, e'.rx = e.tx → e'.tx = e.rx

variable {l : Lines} {s s' : Solver} {c : ChannelId} {p : Packet} {b : NodeId} {q : Atom} {e : Endpoint}

theorem admits_request (h : ∀ e ∈ l.ends, e.tx = c → l.asked e.tx = some q) : l.Admits c (.request q) := by
  refine ⟨Packet.inScope_of_kind fun hk => ?_, fun _ => h, fun hk => ?_⟩
  · cases hk
  · cases hk

theorem admits_announce (h : p.kind = .routeAnnounce) : l.Admits c p := by
  refine ⟨Packet.inScope_of_kind ?_, fun hk => ?_, fun hk => ?_⟩
  · rw [h]
    decide
  · rw [h] at hk
    cases hk
  · rw [h] at hk
    cases hk

def Extends (s s' : Solver) : Prop := ∀ b i, s.interfaces.get? b = some i → s'.interfaces.get? b = some i

theorem Answers.extend (h : l.Answers s b q) (hs : Extends s s') : l.Answers s' b q := by
  obtain ⟨i, hi, hasked⟩ := h
  exact ⟨i, hs b i hi, hasked⟩

theorem Serves.extend (h : l.Serves s e) (hs : Extends s s') : l.Serves s' e := by
  obtain ⟨role, hi⟩ := h.interface
  exact ⟨⟨role, hs _ _ hi⟩, h.paired⟩

/-- A request that was taken at the solver's end of a link may be answered there. -/
theorem Serves.answers (h : l.Serves s e) (hp : l.Admits e.rx p) (hk : p.kind = .request) : l.Answers s e.peer p.query := by
  obtain ⟨role, hi⟩ := h.interface
  exact ⟨_, hi, fun e' he' hrx => hp.request hk e' he' (h.paired e' he' hrx)⟩

end Lines

structure Solver.OnLines (l : Lines) (size : Nat) (s : Solver) : Prop where
  entries : s.Scoped
  interface : ∀ b i, s.interfaces.get? b = some i → i.tx < size ∧ ∀ e ∈ l.ends, e.tx ≠ i.tx
  receiver : ∀ v ∈ s.receivers, l.Serves s v.endpoint
  owes : ∀ b q, s.pending.owed b q ≠ 0 → l.Answers s b q

structure Outbound.OnLines (l : Lines) (s : Solver) (o : Outbound) : Prop where
  scope : o.packet.InScope
  binds : o.packet.Binds
  answers : o.packet.kind = .response → l.Answers s o.recipient o.packet.query

def Task.Answered (t : Task) (a : Answer) : Prop := ∃ r d b, t.worker = .request r d ∧ a = .bound b ∧ r.query.Covers b

structure Task.OnLines (l : Lines) (solvers : List Solver) (t : Task) : Prop where
  leaf : t.worker.solver? = none → t.endpoint ∈ l.ends ∧ ∀ o ∈ t.toSend, l.Admits t.endpoint.tx o.packet
  request : ∀ r d, t.worker = .request r d → l.asked t.endpoint.tx = some r.query
  solver : ∀ k, t.worker.solver? = some k → ∃ s, solvers[k]? = some s ∧ l.Serves s t.endpoint ∧
    ∀ o ∈ t.toSend, o.OnLines l s
  answered : ∀ a, t.phase = .ended (.answered a) → t.Answered a

structure Network.OnLines (l : Lines) (n : Network) : Prop where
  made : ∀ e ∈ l.ends, e.tx < n.channels.length ∧ e.rx < n.channels.length
  apart : ∀ e ∈ l.ends, ∀ e' ∈ l.ends, e.rx ≠ e'.tx
  asked : ∀ c q, l.asked c = some q → c < n.channels.length
  solver : ∀ s ∈ n.solvers, s.OnLines l n.channels.length
  task : ∀ t ∈ n.tasks, t.OnLines l n.solvers
  queue : ∀ c, ∀ p ∈ (n.channel c).queue, l.Admits c p

variable {l : Lines} {n m : Network} {depth : Nat} {i : TaskId} {t t' : Task} {k : SolverId} {s s' : Solver}
  {es : List Event} {offered out : List Outbound} {c : ChannelId} {ch : Channel} {p : Packet} {e : Endpoint}

/-! ## Solvers -/

/-- What is owed or sent after a packet was owed before, or the packet asks for it. -/
theorem Solver.Handles.owes {sender b : NodeId} {q : Atom} {turn : Turn} (h : s.Handles sender p turn)
    (hq : turn.charge b q ≠ 0) : s.pending.owed b q ≠ 0 ∨ (sender = b ∧ p.kind = .request ∧ p.query = q) := by
  have hle := h.charge_le b q
  by_cases hr : Handled.Requests b q ⟨s, sender, p, turn⟩
  · exact .inr hr
  · rw [Handled.allowance, if_neg hr] at hle
    exact .inl (by omega)

/-- A turn on a packet from a link keeps a solver on the lines, and so is what it sends. -/
theorem Solver.OnLines.handles {size : Nat} (hs : s.OnLines l size) (he : l.Serves s e) (hp : l.Admits e.rx p)
    {turn : Turn} (h : s.Handles e.peer p turn) :
    turn.solver.OnLines l size ∧ turn.solver.interfaces = s.interfaces ∧ ∀ o ∈ turn.out, o.OnLines l turn.solver := by
  have hscoped := h.scoped hs.entries hp.scope
  obtain ⟨pending, routes, hframe⟩ := Solver.handle_frame h
  have hi : turn.solver.interfaces = s.interfaces := by rw [hframe]
  have hr : turn.solver.receivers = s.receivers := by rw [hframe]
  have hext : Lines.Extends s turn.solver := fun b i hb => hi ▸ hb
  have howes : ∀ b q, turn.charge b q ≠ 0 → l.Answers turn.solver b q := by
    intro b q hq
    rcases h.owes hq with hold | ⟨rfl, hk, rfl⟩
    · exact (hs.owes b q hold).extend hext
    · exact (he.answers hp hk).extend hext
  refine ⟨⟨hscoped.solver, hi ▸ hs.interface, fun v hv => (hs.receiver v (hr ▸ hv)).extend hext, fun b q hq => ?_⟩, hi,
    fun o ho => ⟨(hscoped.sent o ho).1, (hscoped.sent o ho).2, fun hk => ?_⟩⟩
  · refine howes b q ?_
    rw [Turn.charge]
    omega
  · have hsent : answersTo o.recipient o.packet.query turn.out ≠ 0 := fun hzero =>
      List.countP_eq_zero.mp hzero o ho (decide_eq_true ⟨rfl, hk, rfl⟩)
    refine howes _ _ ?_
    rw [Turn.charge]
    omega

/-- What a solver has to send may be in the channel that it goes into. -/
theorem Outbound.OnLines.admits {o : Outbound} {size : Nat} {i : Interface} (ho : o.OnLines l s) (hs : s.OnLines l size)
    (hi : s.interfaces.get? o.recipient = some i) : l.Admits i.tx o.packet := by
  refine ⟨ho.scope, fun _ e he htx => absurd htx ((hs.interface _ _ hi).2 e he), fun hk e he hrx => ⟨ho.binds hk, ?_⟩⟩
  obtain ⟨i', hi', hasked⟩ := ho.answers hk
  rw [hi] at hi'
  cases hi'
  exact hasked e he hrx

/-! ## Tasks -/

theorem Task.OnLines.extend {solvers solvers' : List Solver} (h : t.OnLines l solvers)
    (hs : ∀ (k : SolverId) s, solvers[k]? = some s → ∃ s', solvers'[k]? = some s' ∧ Lines.Extends s s') : t.OnLines l solvers' := by
  refine ⟨h.leaf, h.request, fun k hk => ?_, h.answered⟩
  obtain ⟨s, hks, hserves, hsend⟩ := h.solver k hk
  obtain ⟨s', hks', hext⟩ := hs k s hks
  refine ⟨s', hks', hserves.extend hext, fun o ho => ?_⟩
  exact ⟨(hsend o ho).scope, (hsend o ho).binds, fun hk => ((hsend o ho).answers hk).extend hext⟩

/-- A task that has no more to send than before. -/
theorem Task.OnLines.phase {solvers : List Solver} (h : t.OnLines l solvers) {phase : Phase}
    (hsend : Task.toSend { t with phase := phase } ⊆ t.toSend) (hend : ∀ a, phase = .ended (.answered a) → t.Answered a) :
    Task.OnLines l solvers { t with phase := phase } := by
  refine ⟨fun hleaf => ?_, h.request, fun k hk => ?_, hend⟩
  · obtain ⟨he, ho⟩ := h.leaf hleaf
    exact ⟨he, fun o hmem => ho o (hsend hmem)⟩
  · obtain ⟨s, hs, hserves, ho⟩ := h.solver k hk
    exact ⟨s, hs, hserves, fun o hmem => ho o (hsend hmem)⟩

theorem Task.OnLines.refreshed {solvers : List Solver} (h : t.OnLines l solvers) {last : Nat} (hworker : t.worker = .peer k last)
    (now : Nat) : (Network.refreshed now k t).OnLines l solvers := by
  obtain ⟨s, hs, hserves, -⟩ := h.solver k (by rw [hworker]; rfl)
  constructor
  · intro hleaf
    cases hleaf
  · intro r d hr
    cases hr
  · intro j hj
    cases hj
    exact ⟨s, hs, hserves, fun o ho => by cases ho⟩
  · intro a ha
    cases ha

namespace Network

/-! ## Networks -/

/-- Other channels that are no fewer hold nothing that they may not. -/
theorem OnLines.queues (h : n.OnLines l) (hs : m.solvers = n.solvers) (ht : m.tasks = n.tasks)
    (hl : m.channels.length = n.channels.length)
    (hq : ∀ {c p}, p ∈ (m.channel c).queue → p ∈ (n.channel c).queue ∨ l.Admits c p) : m.OnLines l := by
  refine ⟨?_, h.apart, ?_, ?_, ?_, fun c p hp => (hq hp).elim (h.queue c p) id⟩
  · rw [hl]
    exact h.made
  · rw [hl]
    exact h.asked
  · rw [hs, hl]
    exact h.solver
  · rw [hs, ht]
    exact h.task

theorem OnLines.setChannel (h : n.OnLines l) (hq : ∀ p ∈ ch.queue, p ∈ (n.channel c).queue ∨ l.Admits c p) :
    (n.setChannel c ch).OnLines l := by
  refine h.queues rfl rfl List.length_set fun hp => ?_
  rcases mem_queue_setChannel hp with hold | ⟨rfl, hnew⟩
  · exact .inl hold
  · exact hq _ hnew

theorem OnLines.onChannel (h : n.OnLines l) {f : Channel → Channel} (hf : ∀ ch, (f ch).queue ⊆ ch.queue) :
    (n.onChannel c f).OnLines l :=
  h.queues rfl rfl (List.length_modify ..) fun hp => .inl (mem_queue_onChannel hf hp)

theorem OnLines.dropEnd (h : n.OnLines l) (e : Endpoint) : (n.dropEnd e).OnLines l := by
  refine (h.onChannel ?_).onChannel ?_
  · intro ch p hp
    exact hp
  · intro ch p hp
    cases hp

theorem OnLines.setTask (h : n.OnLines l) (ht : t.OnLines l n.solvers) : (n.setTask i t).OnLines l := by
  refine ⟨h.made, h.apart, h.asked, h.solver, fun u hu => ?_, h.queue⟩
  rcases List.mem_or_eq_of_mem_set hu with hold | rfl
  · exact h.task u hold
  · exact ht

theorem OnLines.addTasks (h : n.OnLines l) {tasks : List Task} (ht : ∀ t ∈ tasks, t.OnLines l n.solvers) :
    OnLines l { n with tasks := n.tasks ++ tasks } := by
  refine ⟨h.made, h.apart, h.asked, h.solver, fun u hu => ?_, h.queue⟩
  rcases List.mem_append.mp hu with hold | hnew
  · exact h.task u hold
  · exact ht u hnew

theorem OnLines.setSolver (h : n.OnLines l) (hk : n.solvers[k]? = some s) (hs : Lines.Extends s s')
    (hs' : s'.OnLines l n.channels.length) : (n.setSolver k s').OnLines l := by
  have hlt := (List.getElem?_eq_some_iff.mp hk).1
  refine ⟨h.made, h.apart, h.asked, fun u hu => ?_, fun t ht => (h.task t ht).extend fun j u hj => ?_, h.queue⟩
  · rcases List.mem_or_eq_of_mem_set hu with hold | rfl
    · exact h.solver u hold
    · exact hs'
  · by_cases hjk : k = j
    · subst hjk
      rw [hk] at hj
      cases hj
      exact ⟨s', List.getElem?_set_self hlt, hs⟩
    · exact ⟨u, (List.getElem?_set_ne hjk).trans hj, fun _ _ hb => hb⟩

theorem OnLines.finish (h : n.OnLines l) (ht : t.OnLines l n.solvers) {how : Ending}
    (hend : ∀ a, how = .answered a → t.Answered a) : (n.finish i t how).OnLines l := by
  have hset : (n.setTask i { t with phase := .ended how }).OnLines l :=
    h.setTask (ht.phase (List.nil_subset _) fun a ha => hend a (Phase.ended.inj ha))
  unfold Network.finish
  dsimp only
  split
  · exact hset.dropEnd _
  · exact hset.dropEnd _
  · exact hset

/-- Announcements may be anywhere. -/
theorem OnLines.offerOne (h : n.OnLines l) {o : Outbound} (ho : o.packet.kind = .routeAnnounce) :
    (n.offerOne s o).1.OnLines l := by
  unfold Network.offerOne
  split
  · exact h
  · split
    · rename_i ch hoffer
      obtain ⟨-, -, rfl⟩ := Channel.offer_queued hoffer
      refine h.setChannel fun p hp => ?_
      rcases List.mem_append.mp hp with hold | hnew
      · exact .inl hold
      · rw [List.mem_singleton.mp hnew]
        exact .inr (Lines.admits_announce ho)
    · exact h
    · exact h

theorem OnLines.offer (h : n.OnLines l) (s : Solver) (hout : ∀ o ∈ out, o.packet.kind = .routeAnnounce) :
    (n.offer s out).1.OnLines l := by
  show (offerEach s out n).1.OnLines l
  induction out generalizing n with
  | nil => exact h
  | cons o out ih =>
    obtain ⟨ho, hrest⟩ := List.forall_mem_cons.mp hout
    exact ih (h.offerOne ho) hrest

/-! ## Moves -/

/-- Taking a packet leaves the ones behind it. -/
theorem OnLines.take (h : n.OnLines l) (htake : (n.channel c).take = .packet p ch) :
    l.Admits c p ∧ (n.setChannel c ch).OnLines l := by
  have hqueue := queue_take htake
  refine ⟨h.queue c p (hqueue ▸ List.mem_cons_self ..), h.setChannel fun q hq => .inl ?_⟩
  rw [hqueue]
  exact List.mem_cons_of_mem _ hq

/-- A packet that a task has to send may be in the channel that it goes into. -/
theorem OnLines.admits (h : n.OnLines l) (ht : t.OnLines l n.solvers) {o : Outbound} (ho : o ∈ t.toSend)
    (hc : n.channelTo t o.recipient = some c) : l.Admits c o.packet := by
  cases hk : t.worker.solver? with
  | none =>
    rw [channelTo_leaf hk] at hc
    cases hc
    exact (ht.leaf hk).2 o ho
  | some k =>
    obtain ⟨s, hs, -, hsend⟩ := ht.solver k hk
    rw [channelTo_eq hk hs] at hc
    obtain ⟨i, hi, rfl⟩ := Option.map_eq_some_iff.mp hc
    exact (hsend o ho).admits (h.solver s (List.mem_of_getElem? hs)) hi

/-- A source answers in the scope of the query that it was asked. -/
theorem admits_reply {source : Source} {reply : Packet} (hreply : source.answer p = some reply)
    (hc : ∀ e ∈ l.ends, e.rx ≠ c) : l.Admits c reply := by
  unfold Source.answer at hreply
  split at hreply
  · cases hreply
  · split at hreply
    · rename_i b hb
      cases hreply
      refine ⟨Packet.inScope_response (covers_of_matchFact hb), fun hk => ?_, fun _ e he hrx => absurd hrx (hc e he)⟩
      cases hk
    · cases hreply
      refine ⟨fun _ b hb => ?_, fun hk => ?_, fun _ e he hrx => absurd hrx (hc e he)⟩
      · cases hb
      · cases hk

/-- A solver's task that has handled a packet sends what the turn made. -/
theorem OnLines.serve (h : n.OnLines l) (ht : t.OnLines l n.solvers) {turn : Turn}
    (htake : (n.channel t.endpoint.rx).take = .packet p ch) (hk : t.worker.solver? = some k) (hs : n.solvers[k]? = some s)
    (hturn : s.Handles t.endpoint.peer p turn) : OnLines l
      (((n.handled t ch k turn).offer turn.solver (turn.out.filter isAnnouncement)).1.setTask i
        { t with phase := .sending (turn.out.filter (!isAnnouncement ·)) }) := by
  obtain ⟨hp, hn⟩ := h.take htake
  obtain ⟨s', hs', hserves, -⟩ := ht.solver k hk
  cases hs.symm.trans hs'
  obtain ⟨hsolver, hi, hout⟩ := (h.solver s (List.mem_of_getElem? hs)).handles hserves hp hturn
  have hext : Lines.Extends s turn.solver := fun b i hb => hi ▸ hb
  have hlength : (n.setChannel t.endpoint.rx ch).channels.length = n.channels.length := List.length_set
  have hset : (n.handled t ch k turn).OnLines l := hn.setSolver hs hext (hlength ▸ hsolver)
  refine (hset.offer turn.solver (announcements_filter turn.out)).setTask ?_
  rw [(same_offer _ _ _).solvers]
  refine ⟨fun hleaf => ?_, ht.request, fun j hj => ?_, fun a ha => by cases ha⟩
  · cases hk.symm.trans hleaf
  · cases hk.symm.trans hj
    have hlt := (List.getElem?_eq_some_iff.mp hs).1
    exact ⟨turn.solver, List.getElem?_set_self hlt, hserves.extend hext, fun o ho => hout o (List.mem_filter.mp ho).1⟩

theorem OnLines.refresh (h : n.OnLines l) (ht : t.OnLines l n.solvers) {last : Nat} (hworker : t.worker = .peer k last)
    (s : Solver) (now : Nat) : ((n.refresh s t).1.setTask i (refreshed now k t)).OnLines l := by
  refine (h.offer s (announcements_advertisement s t.endpoint.peer)).setTask ?_
  rw [(same_offer _ _ _).solvers]
  exact ht.refreshed hworker now

/-- A task is answered only when it takes a packet, and works for no solver. -/
theorem Move.listening_of_answered {a : Answer} (h : Move depth n i t offered es m) (ht : n.tasks[i]? = some t)
    (ht' : m.tasks[i]? = some t') (ha : t'.phase = .ended (.answered a)) :
    ∃ since p ch, t.phase = .listening since ∧ (n.channel t.endpoint.rx).take = .packet p ch ∧ t.worker.solver? = none := by
  have hset : ∀ {u : Task}, m.tasks = n.tasks.set i u → u.phase = .ended (.answered a) := by
    intro u hu
    rw [hu, List.getElem?_set_self (List.getElem?_eq_some_iff.mp ht).1] at ht'
    cases ht'
    exact ha
  have hsame : m.tasks = n.tasks → t.phase = .ended (.answered a) := by
    intro hu
    rw [hu, ht] at ht'
    cases ht'
    exact ha
  cases h with
  | serve => cases hset (congrArg (List.set · i _) (tasks_offer _ _ _))
  | reply => cases hset rfl
  | ignore hphase => cases hphase.symm.trans (hsame rfl)
  | answered hphase htake hleaf => exact ⟨_, _, _, hphase, htake, hleaf⟩
  | idle => cases hset (congrArg (List.set · i _) (tasks_offer _ _ _))
  | close => cases hset (finish_tasks _ _ _ _)
  | late => cases hset (finish_tasks _ _ _ _)
  | rest => cases hset rfl
  | renew => cases hset (congrArg (List.set · i _) (tasks_offer _ _ _))
  | send => cases hset rfl
  | skip => cases hset rfl
  | enlist hphase => cases hphase.symm.trans (hsame rfl)
  | withdraw => cases hset (finish_tasks n i t .late)
  | lose => cases hset rfl
  | hangUp => cases hset (finish_tasks _ _ _ _)

/-- What a requester is answered is the answer in the packet that it takes. -/
theorem step_answered {a : Answer} (h : n.step depth i = some (m, es)) (ht : n.tasks[i]? = some t)
    (ht' : m.tasks[i]? = some t') (ha : t'.phase = .ended (.answered a)) :
    ∃ r d p ch, t.worker = .request r d ∧ (n.channel t.endpoint.rx).take = .packet p ch ∧ Answer.ofPacket p = some a := by
  obtain ⟨u, offered, hu, hmove⟩ := step_move h
  cases ht.symm.trans hu
  obtain ⟨since, p, ch, hphase, htake, hleaf⟩ := hmove.listening_of_answered ht ht' ha
  -- a move does not say what its packet was to the task, so the step is opened once more
  simp only [Network.step, ht, hphase, listen, htake] at h
  obtain ⟨⟨m', es'⟩, htaken, he⟩ := Option.map_eq_some_iff.mp h
  cases he
  have hother : ∀ {u : Task}, (n.tasks.set i u)[i]? = some t' → u = t' := fun hset =>
    Option.some.inj ((List.getElem?_set_self (List.getElem?_eq_some_iff.mp ht).1).symm.trans hset)
  unfold takeUp at htaken
  split at htaken
  · split at htaken
    · cases htaken
      obtain rfl := hother ht'
      cases ha
    · cases htaken
      cases ht.symm.trans ht'
      cases hphase.symm.trans ha
  · rename_i r d hworker
    split at htaken
    · rename_i a' ha'
      cases htaken
      rw [finish_tasks] at ht'
      obtain rfl := hother ht'
      cases ha
      exact ⟨r, d, p, ch, hworker, htake, ha'⟩
    · cases htaken
      cases ht.symm.trans ht'
      cases hphase.symm.trans ha
  · rename_i hsource hrequest
    cases hworker : t.worker with
    | peer k last => rw [hworker] at hleaf; cases hleaf
    | leaf k => rw [hworker] at hleaf; cases hleaf
    | source source => exact absurd hworker (hsource source)
    | request r d => exact absurd hworker (hrequest r d)

/-- A requester is answered in the scope of what it asked. -/
theorem OnLines.answered (h : n.OnLines l) (ht : t.OnLines l n.solvers) {r : Request} {d : Option Nat} {a : Answer}
    (hworker : t.worker = .request r d) (htake : (n.channel t.endpoint.rx).take = .packet p ch)
    (ha : Answer.ofPacket p = some a) : t.Answered a := by
  obtain ⟨hp, -⟩ := h.take htake
  obtain ⟨he, -⟩ := ht.leaf (by rw [hworker]; rfl)
  unfold Answer.ofPacket at ha
  split at ha
  · rename_i b hk hb
    cases ha
    have hquery : p.query = r.query :=
      Option.some.inj ((hp.response hk _ he rfl).2.symm.trans (ht.request r d hworker))
    exact ⟨r, d, b, hworker, rfl, hquery ▸ hp.scope hk b hb⟩
  · rename_i hk hnone
    exact absurd hnone (hp.response hk _ he rfl).1
  · cases ha

theorem OnLines.move (h : n.OnLines l) (ht : n.tasks[i]? = some t) (hm : Move depth n i t offered es m)
    (hend : ∀ t' a, m.tasks[i]? = some t' → t'.phase = .ended (.answered a) → t.Answered a) : m.OnLines l := by
  have hline := h.task t (List.mem_of_getElem? ht)
  have hless : ∀ {o rest}, t.phase = .sending (o :: rest) → Task.OnLines l n.solvers { t with phase := .sending rest } := by
    intro o rest hphase
    refine hline.phase ?_ fun a ha => by cases ha
    rw [toSend_sending hphase]
    exact List.subset_cons_self o rest
  have hfinish : ∀ {how : Ending}, (∀ a, how ≠ .answered a) → (n.finish i t how).OnLines l := fun hne =>
    h.finish hline fun a ha => absurd ha (hne a)
  cases hm with
  | serve _ htake hk hs hturn => exact h.serve hline htake hk hs ⟨depth, hturn⟩
  | @reply since p reply ch source _ htake hworker hreply =>
    have hleaf : t.worker.solver? = none := by rw [hworker]; rfl
    obtain ⟨he, -⟩ := hline.leaf hleaf
    refine (h.take htake).2.setTask ⟨fun _ => ⟨he, List.forall_mem_singleton.mpr ?_⟩, hline.request, fun k hk => ?_,
      fun a ha => by cases ha⟩
    · exact admits_reply hreply fun e' he' => h.apart e' he' _ he
    · cases hleaf.symm.trans hk
  | ignore _ htake _ => exact (h.take htake).2
  | @answered _ _ ch a _ htake _ =>
    refine (h.take htake).2.finish hline fun a' ha' => hend { t with phase := .ended (.answered a) } a' ?_ (congrArg _ ha')
    rw [finish_tasks]
    exact List.getElem?_set_self (List.getElem?_eq_some_iff.mp ht).1
  | idle _ _ hworker => exact h.refresh hline hworker _ _
  | close => exact hfinish fun _ ha => by cases ha
  | late => exact hfinish fun _ ha => by cases ha
  | rest => exact h.setTask (hline.phase (List.nil_subset _) fun _ ha => by cases ha)
  | renew _ hworker => exact h.refresh hline hworker _ _
  | @send o rest c ch hphase hc hqueued =>
    have ho : l.Admits c o.packet := h.admits hline (by rw [toSend_sending hphase]; exact List.mem_cons_self ..) hc
    refine (h.setChannel fun p hp => ?_).setTask (hless hphase)
    rcases queue_attempt_queued hqueued p hp with hold | rfl
    · exact .inl hold
    · exact .inr ho
  | skip hphase => exact h.setTask (hless hphase)
  | enlist _ _ henlisted => exact h.setChannel fun p hp => .inl (queue_attempt_enlisted henlisted ▸ hp)
  | withdraw =>
    have hlate : (n.finish i t .late).OnLines l := hfinish fun _ ha => by cases ha
    exact hlate.onChannel fun ch p hp => queue_withdraw ch i ▸ hp
  | lose hphase => exact h.setTask (hless hphase)
  | hangUp => exact hfinish fun _ ha => by cases ha

theorem OnLines.step (h : n.OnLines l) (hm : n.step depth i = some (m, es)) : m.OnLines l := by
  obtain ⟨t, offered, ht, hmove⟩ := step_move hm
  refine h.move ht hmove fun t' a ht' ha => ?_
  obtain ⟨r, d, p, ch, hworker, htake, hanswer⟩ := step_answered hm ht ht' ha
  exact h.answered (h.task t (List.mem_of_getElem? ht)) hworker htake hanswer

end Network

end QueryNet
