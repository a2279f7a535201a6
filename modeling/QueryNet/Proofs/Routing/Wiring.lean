/-
  QueryNet.Proofs.Routing.Wiring — which announcements are in which channels.

  A channel leads from one node to another (`Wires`). A solver's packets for a neighbour
  go into a channel that leads there, and its tasks take packets out of channels that
  lead to it. Only solvers make announcements, and they offer them at once, so a task
  that has packets to send has none among them.

  Proved: a channel holds no announcement that was not sent from its one end to its
  other; all that changes a network's channels, tasks and solvers keeps that (`Wired`).
-/

import QueryNet.Network.Step
import QueryNet.Proofs.Routing.Fabric

namespace QueryNet

abbrev Wires := List (NodeId × NodeId)

def Worker.role? : Worker → Option Role
  | .peer _ _ => some .solverPeer
  | .leaf _ => some .leaf
  | _ => none

structure Solver.Placed (s : Solver) (w : Wires) : Prop where
  interface : ∀ {b i}, s.interfaces.get? b = some i → w[i.tx]? = some (s.id, b)
  receiver : ∀ v ∈ s.receivers, w[v.rx]? = some (v.neighbor, s.id) ∧ s.roleOf v.neighbor = some v.role

/-- A solver's task serves a channel to the solver, and no task holds an announcement back. -/
structure Task.Placed (t : Task) (solvers : List Solver) (w : Wires) : Prop where
  endpoint : ∀ {k}, t.worker.solver? = some k → ∃ s role, solvers[k]? = some s ∧
    w[t.endpoint.rx]? = some (t.endpoint.peer, s.id) ∧ s.roleOf t.endpoint.peer = some role ∧ t.worker.role? = some role
  sending : ∀ {rest}, t.phase = .sending rest → ∀ o ∈ rest, o.packet.kind ≠ .routeAnnounce

/-- A task that goes on to another phase stays where it is. -/
theorem Task.Placed.phase {t t' : Task} {solvers : List Solver} {w : Wires} (h : t.Placed solvers w)
    (hworker : t'.worker.solver? = t.worker.solver?) (hrole : t'.worker.role? = t.worker.role?)
    (hend : t'.endpoint = t.endpoint)
    (hsending : ∀ {rest}, t'.phase = .sending rest → ∀ o ∈ rest, o.packet.kind ≠ .routeAnnounce) : t'.Placed solvers w := by
  refine ⟨?_, hsending⟩
  rw [hworker, hrole, hend]
  exact h.endpoint

theorem Task.Placed.toSending {t : Task} {solvers : List Solver} {w : Wires} (h : t.Placed solvers w) {rest : List Outbound}
    (hrest : ∀ o ∈ rest, o.packet.kind ≠ .routeAnnounce) : Task.Placed { t with phase := .sending rest } solvers w := by
  refine h.phase rfl rfl rfl ?_
  intro rest' he
  cases he
  exact hrest

structure Network.Wired (n : Network) (w : Wires) (sent : List Parcel) : Prop where
  size : w.length = n.channels.length
  solver : ∀ s ∈ n.solvers, s.Placed w
  task : ∀ t ∈ n.tasks, t.Placed n.solvers w
  carried : ∀ {c a b p}, w[c]? = some (a, b) → p ∈ (n.channel c).queue → p.kind = .routeAnnounce → ⟨a, b, p⟩ ∈ sent

namespace Network

variable {n n' : Network} {w : Wires} {sent sent' : List Parcel} {c id : ChannelId} {p : Packet}

theorem wired_empty : Network.empty.Wired [] [] := by
  refine ⟨rfl, ?_, ?_, ?_⟩
  · intro s hs
    cases hs
  · intro t ht
    cases ht
  · intro c a b p hc
    cases hc

/-! ## Channels -/

theorem mem_queue_setChannel {ch : Channel} (h : p ∈ ((n.setChannel id ch).channel c).queue) :
    p ∈ (n.channel c).queue ∨ c = id ∧ p ∈ ch.queue := by
  unfold setChannel channel at h
  rw [List.getD_eq_getElem?_getD, List.getElem?_set] at h
  split at h
  · rename_i hc
    split at h
    · exact .inr ⟨hc.symm, h⟩
    · cases h
  · exact .inl (by rwa [channel, List.getD_eq_getElem?_getD])

theorem mem_queue_onChannel {f : Channel → Channel} (hf : ∀ ch, (f ch).queue ⊆ ch.queue)
    (h : p ∈ ((n.onChannel id f).channel c).queue) : p ∈ (n.channel c).queue := by
  unfold onChannel channel at h
  unfold channel
  rw [List.getD_eq_getElem?_getD, List.getElem?_modify] at h
  rw [List.getD_eq_getElem?_getD]
  cases hc : n.channels[c]? with
  | none => rw [hc] at h; exact h
  | some ch =>
    rw [hc] at h
    by_cases hid : id = c
    · simp only [hid, if_true] at h
      exact hf ch h
    · simp only [hid, if_false] at h
      exact h

theorem queue_promise (ch : Channel) : ch.promise.queue = ch.queue := by
  unfold Channel.promise
  split
  · rfl
  · rfl

theorem queue_take {ch ch' : Channel} (h : ch.take = .packet p ch') : ch.queue = p :: ch'.queue := by
  unfold Channel.take at h
  split at h
  · rename_i hq
    cases h
    rw [queue_promise]
    exact hq
  · split at h
    · cases h
    · cases h

theorem queue_withdraw (ch : Channel) (i : TaskId) : (ch.withdraw i).queue = ch.queue := by
  unfold Channel.withdraw
  split
  · rw [queue_promise]
  · rfl

theorem queue_attempt_queued {ch ch' : Channel} {i : TaskId} (h : ch.attempt i p = .queued ch') :
    ∀ q ∈ ch'.queue, q ∈ ch.queue ∨ q = p := by
  have hput : ∀ q ∈ (ch.put p).queue, q ∈ ch.queue ∨ q = p := by
    intro q hq
    rcases List.mem_append.mp hq with hold | hnew
    · exact .inl hold
    · exact .inr (List.mem_singleton.mp hnew)
  unfold Channel.attempt at h
  split at h
  · cases h
  · split at h
    · cases h
      exact hput
    · split at h
      · cases h
      · split at h
        · cases h
          exact hput
        · cases h

theorem queue_attempt_enlisted {ch ch' : Channel} {i : TaskId} (h : ch.attempt i p = .enlisted ch') :
    ch'.queue = ch.queue := by
  unfold Channel.attempt at h
  split at h
  · cases h
  · split at h
    · cases h
    · split at h
      · cases h
      · split at h
        · cases h
        · cases h
          rfl

/-- What may be in a channel's queue: what was there, and announcements only if they were sent. -/
theorem Wired.queues (h : n.Wired w sent) (hs : n'.solvers = n.solvers) (ht : n'.tasks = n.tasks)
    (hl : n'.channels.length = n.channels.length)
    (hq : ∀ {c a b p}, w[c]? = some (a, b) → p ∈ (n'.channel c).queue → p.kind = .routeAnnounce →
      p ∈ (n.channel c).queue ∨ ⟨a, b, p⟩ ∈ sent) : n'.Wired w sent := by
  refine ⟨h.size.trans hl.symm, ?_, ?_, ?_⟩
  · rw [hs]
    exact h.solver
  · rw [hs, ht]
    exact h.task
  · intro c a b p hc hp hkind
    rcases hq hc hp hkind with hold | hsent
    · exact h.carried hc hold hkind
    · exact hsent

theorem Wired.setChannel (h : n.Wired w sent) {ch : Channel}
    (hq : ∀ {a b}, w[id]? = some (a, b) → ∀ p ∈ ch.queue, p.kind = .routeAnnounce →
      p ∈ (n.channel id).queue ∨ ⟨a, b, p⟩ ∈ sent) : (n.setChannel id ch).Wired w sent := by
  refine h.queues rfl rfl List.length_set ?_
  intro c a b p hc hp hkind
  rcases mem_queue_setChannel hp with hold | ⟨rfl, hnew⟩
  · exact .inl hold
  · exact hq hc p hnew hkind

theorem Wired.onChannel (h : n.Wired w sent) {f : Channel → Channel} (hf : ∀ ch, (f ch).queue ⊆ ch.queue) :
    (n.onChannel id f).Wired w sent :=
  h.queues rfl rfl (List.length_modify ..) fun _ hp _ => .inl (mem_queue_onChannel hf hp)

theorem Wired.dropEnd (h : n.Wired w sent) (e : Endpoint) : (n.dropEnd e).Wired w sent := by
  refine (h.onChannel ?_).onChannel ?_
  · intro ch p hp
    exact hp
  · intro ch p hp
    cases hp

theorem Wired.more_sent (h : n.Wired w sent) (hsub : sent ⊆ sent') : n.Wired w sent' :=
  ⟨h.size, h.solver, h.task, fun hc hp hkind => hsub (h.carried hc hp hkind)⟩

/-- Announcements that are offered have been sent. -/
theorem Wired.offerOne (h : n.Wired w sent) {s : Solver} {o : Outbound} (hs : s.Placed w) (ho : ⟨s.id, o⟩ ∈ sent) :
    (n.offerOne s o).1.Wired w sent := by
  unfold Network.offerOne
  split
  · exact h
  · rename_i i hi
    split
    · rename_i ch hoffer
      refine h.setChannel ?_
      intro a b hw p hp _
      rw [hs.interface hi] at hw
      cases hw
      unfold Channel.offer at hoffer
      split at hoffer
      · cases hoffer
      · split at hoffer
        · cases hoffer
          rcases List.mem_append.mp hp with hold | hnew
          · exact .inl hold
          · rw [List.mem_singleton.mp hnew]
            exact .inr ho
        · cases hoffer
    · exact h
    · exact h

theorem Wired.offer (h : n.Wired w sent) {s : Solver} {out : List Outbound} (hs : s.Placed w)
    (hout : ∀ o ∈ out, ⟨s.id, o⟩ ∈ sent) : (n.offer s out).1.Wired w sent := by
  show (offerEach s out n).1.Wired w sent
  induction out generalizing n with
  | nil => exact h
  | cons o out ih =>
    have hone := h.offerOne hs (hout o (List.mem_cons_self ..))
    exact ih hone fun o' ho' => hout o' (List.mem_cons_of_mem _ ho')

/-! ## Tasks and solvers -/

theorem Wired.setTask (h : n.Wired w sent) {i : TaskId} {t : Task} (ht : t.Placed n.solvers w) :
    (n.setTask i t).Wired w sent := by
  refine ⟨h.size, h.solver, ?_, h.carried⟩
  intro t' ht'
  rcases List.mem_or_eq_of_mem_set ht' with hold | rfl
  · exact h.task t' hold
  · exact ht

theorem Wired.addTasks (h : n.Wired w sent) {tasks : List Task} (ht : ∀ t ∈ tasks, t.Placed n.solvers w) :
    Network.Wired { n with tasks := n.tasks ++ tasks } w sent := by
  refine ⟨h.size, h.solver, ?_, h.carried⟩
  intro t' ht'
  rcases List.mem_append.mp ht' with hold | hnew
  · exact h.task t' hold
  · exact ht t' hnew

theorem Wired.setSolver (h : n.Wired w sent) {k : SolverId} {s s' : Solver} (hk : n.solvers[k]? = some s)
    (hid : s'.id = s.id) (hroles : ∀ {b role}, s.roleOf b = some role → s'.roleOf b = some role)
    (hs' : s'.Placed w) : (n.setSolver k s').Wired w sent := by
  have hlt := (List.getElem?_eq_some_iff.mp hk).1
  refine ⟨h.size, ?_, ?_, h.carried⟩
  · intro u hu
    rcases List.mem_or_eq_of_mem_set hu with hold | rfl
    · exact h.solver u hold
    · exact hs'
  · intro t ht
    refine ⟨?_, (h.task t ht).sending⟩
    intro k' hk'
    obtain ⟨u, role, hu, hw, hrole, hworker⟩ := (h.task t ht).endpoint hk'
    show ∃ v role, (n.solvers.set k s')[k']? = some v ∧ _
    by_cases he : k = k'
    · subst he
      rw [hk] at hu
      cases hu
      exact ⟨s', role, List.getElem?_set_self hlt, hid ▸ hw, hroles hrole, hworker⟩
    · exact ⟨u, role, (List.getElem?_set_ne he).trans hu, hw, hrole, hworker⟩

/-! ## Setting up -/

variable {a b : NodeId}

/-- A new link is two channels, from the first node to the second and back. -/
theorem Wired.link (h : n.Wired w sent) (a b : NodeId) (capacity : Nat) :
    (n.link a b capacity).2.2.Wired (w ++ [(a, b), (b, a)]) sent := by
  have hold : ∀ {c x}, w[c]? = some x → (w ++ [(a, b), (b, a)])[c]? = some x := fun hc =>
    (List.getElem?_append_left (List.getElem?_eq_some_iff.mp hc).1).trans hc
  refine ⟨?_, ?_, ?_, ?_⟩
  · show (w ++ [(a, b), (b, a)]).length = (n.channels ++ [_, _]).length
    rw [List.length_append, List.length_append, h.size]
    rfl
  · intro s hs
    refine ⟨fun hi => hold ((h.solver s hs).interface hi), ?_⟩
    intro v hv
    obtain ⟨hw, hrole⟩ := (h.solver s hs).receiver v hv
    exact ⟨hold hw, hrole⟩
  · intro t ht
    refine ⟨?_, (h.task t ht).sending⟩
    intro k hk
    obtain ⟨s, role, hs, hw, hrole⟩ := (h.task t ht).endpoint hk
    exact ⟨s, role, hs, hold hw, hrole⟩
  · intro c x y p hc hp hkind
    have hp : p ∈ ((n.channels ++ [Channel.create capacity, Channel.create capacity]).getD c .gone).queue := hp
    rw [List.getD_eq_getElem?_getD] at hp
    rcases Nat.lt_or_ge c n.channels.length with hlt | hge
    · rw [List.getElem?_append_left hlt, ← List.getD_eq_getElem?_getD] at hp
      rw [List.getElem?_append_left (h.size ▸ hlt)] at hc
      exact h.carried hc hp hkind
    · -- the new channels are empty
      rw [List.getElem?_append_right hge] at hp
      have hempty : ∀ i : Nat, (([Channel.create capacity, Channel.create capacity])[i]?.getD Channel.gone).queue = [] := by
        intro i
        rcases i with _ | _ | i <;> rfl
      rw [hempty] at hp
      cases hp

/-- The ends that a new link gives out. -/
theorem Wired.link_ends (h : n.Wired w sent) (a b : NodeId) (capacity : Nat) :
    (w ++ [(a, b), (b, a)])[(n.link a b capacity).1.tx]? = some (a, b) ∧
      (w ++ [(a, b), (b, a)])[(n.link a b capacity).1.rx]? = some (b, a) := by
  show (w ++ [(a, b), (b, a)])[n.channels.length]? = _ ∧ (w ++ [(a, b), (b, a)])[n.channels.length + 1]? = _
  rw [← h.size, List.getElem?_append_right (Nat.le_refl _), List.getElem?_append_right (Nat.le_succ _)]
  simp

theorem Wired.attachEnd (h : n.Wired w sent) (hn : n.Named) (role : Role) {e : Endpoint}
    (htx : w[e.tx]? = some (a, e.peer)) (hrx : w[e.rx]? = some (e.peer, a)) :
    (n.attachEnd a role e).network.Wired w sent := by
  rcases onSolver_cases n a fun s => (s.attach role e).map ((), ·) with ⟨err, he⟩ | ⟨k, s, v, s', hs, hv, he⟩
  · simp only [Network.attachEnd, he]
    exact h.dropEnd e
  · simp only [Network.attachEnd, he]
    have hk := (lookup_eq_some.mp hs).2
    have hplaced := h.solver s (List.mem_of_getElem? hk)
    have hid : s.id = a := hn.id_eq (solver?_eq_some.mpr ⟨k, hs⟩)
    have hattach := map_attach_ok hv
    obtain ⟨hgrown, hnew⟩ := Solver.attach_ok hattach
    unfold Solver.attach at hattach
    split at hattach
    · cases hattach
    · split at hattach
      · cases hattach
      · cases hattach
        refine h.setSolver hk rfl hgrown.roleOf ⟨?_, ?_⟩
        · intro b i hi
          have hi : (s.interfaces.insert e.peer ⟨role, e.tx⟩).get? b = some i := hi
          rw [Table.get?_insert] at hi
          by_cases hb : b = e.peer
          · rw [if_pos hb] at hi
            cases hi
            rw [hb, hid]
            exact htx
          · rw [if_neg hb] at hi
            exact hplaced.interface hi
        · intro v hv
          rcases List.mem_append.mp hv with hv | hv
          · obtain ⟨hw, hrole⟩ := hplaced.receiver v hv
            exact ⟨hw, hgrown.roleOf hrole⟩
          · rw [List.mem_singleton.mp hv]
            exact ⟨hid ▸ hrx, hnew⟩

theorem Wired.attach (h : n.Wired w sent) (hn : n.Named) (a peer : NodeId) (role : Role) (capacity : Nat) :
    (n.attach a peer role capacity).network.Wired (w ++ [(a, peer), (peer, a)]) sent := by
  obtain ⟨htx, hrx⟩ := h.link_ends a peer capacity
  have hlink : Same n (n.link a peer capacity).2.2 := ⟨rfl, rfl⟩
  have hend := (h.link a peer capacity).attachEnd (hlink.named hn) role htx hrx
  unfold Network.attach
  dsimp only
  split
  · exact hend
  · exact hend.dropEnd _

theorem Wired.connect (h : n.Wired w sent) (hn : n.Named) (a b : NodeId) :
    (n.connect a b).network.Wired (w ++ [(a, b), (b, a)]) sent := by
  obtain ⟨htx, hrx⟩ := h.link_ends a b (max (n.capacityOf a) (n.capacityOf b))
  have hlink : Same n (n.link a b (max (n.capacityOf a) (n.capacityOf b))).2.2 := ⟨rfl, rfl⟩
  have hend := (h.link a b _).attachEnd (hlink.named hn) .solverPeer htx hrx
  unfold Network.connect
  dsimp only
  split
  · exact hend.dropEnd _
  · refine hend.attachEnd ((alters_attachEnd _ _ _ _).named (hlink.named hn)) .solverPeer ?_ ?_
    · exact hrx
    · exact htx

/-- A solver that keeps its name and its links, and gives receivers away at most. -/
theorem Wired.setSolver_of_eq (h : n.Wired w sent) {k : SolverId} {s s' : Solver} (hk : n.solvers[k]? = some s)
    (hid : s'.id = s.id) (hi : s'.interfaces = s.interfaces) (hr : s'.receivers ⊆ s.receivers) :
    (n.setSolver k s').Wired w sent := by
  have hroles : ∀ b, s'.roleOf b = s.roleOf b := by
    intro b
    rw [Solver.roleOf, hi, Solver.roleOf]
  have hplaced := h.solver s (List.mem_of_getElem? hk)
  refine h.setSolver hk hid (fun hb => (hroles _).trans hb) ⟨?_, ?_⟩
  · intro b i hb
    rw [hi] at hb
    rw [hid]
    exact hplaced.interface hb
  · intro v hv
    rw [hid, hroles]
    exact hplaced.receiver v (hr hv)

/-- A source that is attached is announced to all peers; one that is refused, to none. -/
theorem Wired.attachSource (h : n.Wired w sent) (hn : n.Named) {source : NodeId} {key : String} (hsub : sent ⊆ sent')
    (hsent : ∀ {far s}, (n.attachSource a source key).result = .ok far →
      (n.attachSource a source key).network.solver? a = some s →
        ∀ b ∈ s.peersExcept [], ⟨a, b, .announce key a 0⟩ ∈ sent') :
    (n.attachSource a source key).network.Wired (w ++ [(a, source), (source, a)]) sent' := by
  have hattach := (h.attach hn a source .leaf (n.capacityOf a)).more_sent hsub
  have hnamed := (alters_attach n a source .leaf (n.capacityOf a)).named hn
  unfold Network.attachSource at hsent ⊢
  dsimp only at hsent ⊢
  split
  · rename_i far k s hok hs
    simp only [hok, hs] at hsent
    have hid : s.id = a := hnamed.id_eq (solver?_eq_some.mpr ⟨k, hs⟩)
    have hset : ((n.attach a source .leaf (n.capacityOf a)).network.setSolver k
        { s with routes := s.routes.insertDirect key source }).Wired (w ++ [(a, source), (source, a)]) sent' :=
      hattach.setSolver_of_eq (lookup_eq_some.mp hs).2 rfl rfl fun v hv => hv
    have hself := solver?_eq_some.mpr ⟨k, lookup_setSolver hs { s with routes := s.routes.insertDirect key source }⟩
    have hlt := Named.lt_length hs
    refine hset.offer (hset.solver _ (List.mem_of_getElem? (List.getElem?_set_self hlt))) ?_
    intro o ho
    obtain ⟨b, hb, rfl⟩ := List.mem_map.mp ho
    have hmem := hsent rfl (((same_offer _ _ _).solver? a).trans hself) b hb
    rw [hid]
    exact hmem
  · exact hattach

theorem Wired.addSolver (h : n.Wired w sent) (ha : n.lookup a = none) (config : SolverConfig) :
    (n.addSolver a config).Wired w sent := by
  rw [addSolver_eq ha]
  refine ⟨h.size, ?_, ?_, h.carried⟩
  · intro s hs
    rcases List.mem_append.mp hs with hold | hnew
    · exact h.solver s hold
    · rw [List.mem_singleton.mp hnew]
      refine ⟨?_, ?_⟩
      · intro b i hi
        cases hi
      · intro v hv
        cases hv
  · intro t ht
    refine ⟨?_, (h.task t ht).sending⟩
    intro k hk
    obtain ⟨s, role, hs, hw⟩ := (h.task t ht).endpoint hk
    exact ⟨s, role, (List.getElem?_append_left (List.getElem?_eq_some_iff.mp hs).1).trans hs, hw⟩

theorem Wired.addRule (h : n.Wired w sent) (a : NodeId) (text : String) : (n.addRule a text).network.Wired w sent := by
  unfold Network.addRule
  rcases onSolver_cases n a fun s => s.addRule text with ⟨err, he⟩ | ⟨k, s, v, s', hs, hv, he⟩
  · rw [he]
    exact h
  · rw [he]
    unfold Solver.addRule at hv
    split at hv
    · cases hv
      exact h.setSolver_of_eq (lookup_eq_some.mp hs).2 rfl rfl fun v hv => hv
    · cases hv

/-- The tasks of a solver that is started take over its receivers. -/
theorem Wired.start (h : n.Wired w sent) (a : NodeId) : (n.start a).network.Wired w sent := by
  unfold Network.start
  split
  · exact h
  · rename_i k s hs
    have hk := (lookup_eq_some.mp hs).2
    have hlt := Named.lt_length hs
    split
    · exact h
    · rename_i receivers s' hstart
      unfold Solver.start at hstart
      split at hstart
      · cases hstart
      · cases hstart
        have hset : (n.setSolver k { s with receivers := [], running := true }).Wired w sent :=
          h.setSolver_of_eq hk rfl rfl (List.nil_subset _)
        refine hset.addTasks ?_
        intro t ht
        obtain ⟨v, hv, rfl⟩ := List.mem_map.mp ht
        obtain ⟨hw, hrole⟩ := (h.solver s (List.mem_of_getElem? hk)).receiver v hv
        refine ⟨?_, ?_⟩
        · intro k' hk'
          obtain rfl : k = k' := by
            cases hr : v.role with
            | solverPeer => rw [hr] at hk'; exact Option.some.inj hk'
            | leaf => rw [hr] at hk'; exact Option.some.inj hk'
          refine ⟨_, v.role, List.getElem?_set_self hlt, hw, hrole, ?_⟩
          cases hr : v.role with
          | solverPeer => rfl
          | leaf => rfl
        · intro rest hrest
          cases hrest

end Network

end QueryNet
