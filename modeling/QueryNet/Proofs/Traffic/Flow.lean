/-
  QueryNet.Proofs.Traffic.Flow — packets go through channels in order.

  Between two states of a channel some packets were queued in it and some taken from
  it. While its receiving end is held nothing else happens to what is in it: the queue
  that was there and what was queued are what was taken and the queue that is there
  (`Channel.Carries`). With promised slots counted as taken, no queue outgrows its
  capacity.

  Proved: each move of a task is such a flow in every channel, for the packets that its
  events tell of (`Move.flows`). An announcement that is offered to an open channel is
  queued or refused, in the order of the offers (`outcomes_offer`), and it is refused
  only if there is no room, then and at the end of the call (`hasRoom_of_refused`).
-/

import QueryNet.Proofs.Traffic.Moves

namespace QueryNet

namespace Event

def queuedIn (c : ChannelId) : Event → Option Packet
  | .queued d p => if d = c then some p else none
  | _ => none

def takenFrom (c : ChannelId) : Event → Option Packet
  | .taken d p => if d = c then some p else none
  | _ => none

/-- The announcement that an event puts into a channel, or leaves out for want of room. -/
def outcome : Event → Option (ChannelId × Packet)
  | .queued c p => if p.kind = .routeAnnounce then some (c, p) else none
  | .refused c p => some (c, p)
  | _ => none

end Event

/-- The channels that a solver's packets are for; one that is for no neighbour is left out. -/
def Solver.addressed (s : Solver) (out : List Outbound) : List (ChannelId × Packet) :=
  out.filterMap fun o => (s.interfaces.get? o.recipient).map fun i => (i.tx, o.packet)

def packetsFor (c : ChannelId) (parcels : List (ChannelId × Packet)) : List Packet :=
  (parcels.filter (·.1 = c)).map (·.2)

namespace Channel

/-- The queue and the promised slots are within the capacity. -/
def Fits (ch : Channel) : Prop := ch.queue.length + ch.promised.length ≤ ch.capacity

/-- Some packets are queued in a channel and some taken from it; if its receiving end is still held, none else go. -/
structure Carries (ch : Channel) (queued taken : List Packet) (ch' : Channel) : Prop where
  held : ch'.receiverHeld = true → ch.receiverHeld = true
  order : ch'.receiverHeld = true → ch.queue ++ queued = taken ++ ch'.queue
  fits : ch.Fits → ch'.Fits
  capacity : ch'.capacity = ch.capacity

variable {ch ch' ch'' : Channel} {queued queued' taken taken' : List Packet} {p : Packet} {i : TaskId}

theorem Carries.refl (ch : Channel) : ch.Carries [] [] ch := ⟨id, fun _ => List.append_nil _, id, rfl⟩

theorem Carries.trans (h : ch.Carries queued taken ch') (h' : ch'.Carries queued' taken' ch'') :
    ch.Carries (queued ++ queued') (taken ++ taken') ch'' := by
  refine ⟨fun hheld => h.held (h'.held hheld), ?_, fun hfits => h'.fits (h.fits hfits), h'.capacity.trans h.capacity⟩
  intro hheld
  rw [← List.append_assoc, h.order (h'.held hheld), List.append_assoc, h'.order hheld, List.append_assoc]

theorem carries_put (hroom : ch.hasRoom = true) : ch.Carries [p] [] (ch.put p) := by
  refine ⟨id, fun _ => rfl, fun _ => ?_, rfl⟩
  have hroom := of_decide_eq_true hroom
  simp only [Fits, put, List.length_append, List.length_singleton]
  omega

theorem offer_queued (h : ch.offer p = .queued ch') : ch.receiverHeld = true ∧ ch.hasRoom = true ∧ ch' = ch.put p := by
  unfold offer at h
  split at h
  · cases h
  · rename_i hheld
    split at h
    · rename_i hroom
      cases h
      exact ⟨by simpa using hheld, hroom, rfl⟩
    · cases h

theorem offer_full (h : ch.offer p = .full) : ch.receiverHeld = true ∧ ch.hasRoom = false := by
  unfold offer at h
  split at h
  · cases h
  · rename_i hheld
    split at h
    · cases h
    · rename_i hroom
      exact ⟨by simpa using hheld, by simpa using hroom⟩

theorem offer_closed (h : ch.offer p = .closed) : ch.receiverHeld = false := by
  unfold offer at h
  split at h
  · rename_i hheld
    simpa using hheld
  · split at h
    · cases h
    · cases h

/-- A packet that a sender held is put into a free slot or into the one that was promised. -/
theorem attempt_queued (h : ch.attempt i p = .queued ch') : ch.receiverHeld = true ∧ ch.Carries [p] [] ch' := by
  unfold attempt at h
  split at h
  · cases h
  · rename_i hheld
    have hheld : ch.receiverHeld = true := by simpa using hheld
    split at h
    · rename_i hpromised
      cases h
      refine ⟨hheld, fun _ => hheld, fun _ => rfl, fun hfits => ?_, rfl⟩
      -- the packet takes the place of the promise
      have hpos := List.length_pos_of_mem hpromised
      simp only [Fits, put, List.length_append, List.length_singleton, List.length_erase_of_mem hpromised] at hfits ⊢
      omega
    · split at h
      · cases h
      · split at h
        · rename_i hroom
          cases h
          exact ⟨hheld, carries_put hroom⟩
        · cases h

theorem attempt_enlisted (h : ch.attempt i p = .enlisted ch') :
    ch.receiverHeld = true ∧ ch' = { ch with waiting := ch.waiting ++ [i] } := by
  unfold attempt at h
  split at h
  · cases h
  · rename_i hheld
    split at h
    · cases h
    · split at h
      · cases h
      · split at h
        · cases h
        · cases h
          exact ⟨by simpa using hheld, rfl⟩

theorem attempt_closed (h : ch.attempt i p = .closed) : ch.receiverHeld = false := by
  unfold attempt at h
  split at h
  · rename_i hheld
    simpa using hheld
  · split at h
    · cases h
    · split at h
      · cases h
      · split at h
        · cases h
        · cases h

theorem carries_waiting (ch : Channel) (waiting : List TaskId) : ch.Carries [] [] { ch with waiting := waiting } :=
  ⟨id, fun _ => List.append_nil _, id, rfl⟩

theorem promise_eq (ch : Channel) : ∃ waiting promised, ch.promise = { ch with waiting := waiting, promised := promised } ∧
    promised.length ≤ ch.promised.length + 1 := by
  unfold promise
  split
  · exact ⟨_, _, rfl, Nat.le_succ _⟩
  · exact ⟨_, _, rfl, Nat.le_of_eq List.length_append⟩

/-- What is taken is what was queued first, and its slot may be promised. -/
theorem carries_take (h : ch.take = .packet p ch') : ch.Carries [] [p] ch' := by
  unfold take at h
  split at h
  · rename_i q qs hqueue
    cases h
    obtain ⟨waiting, promised, he, hle⟩ := promise_eq { ch with queue := qs }
    rw [he]
    refine ⟨id, fun _ => (List.append_nil _).trans hqueue, fun hfits => ?_, rfl⟩
    simp only [Fits, hqueue, List.length_cons] at hfits hle ⊢
    omega
  · split at h
    · cases h
    · cases h

theorem carries_withdraw (ch : Channel) (i : TaskId) : ch.Carries [] [] (ch.withdraw i) := by
  unfold withdraw
  split
  · rename_i hpromised
    obtain ⟨waiting, promised, he, hle⟩ := promise_eq { ch with promised := ch.promised.erase i }
    have hpos := List.length_pos_of_mem hpromised
    rw [he]
    refine ⟨id, fun _ => List.append_nil _, fun hfits => ?_, rfl⟩
    simp only [Fits, List.length_erase_of_mem hpromised] at hfits hle ⊢
    omega
  · exact carries_waiting ch _

theorem carries_dropSender (ch : Channel) : ch.Carries [] [] ch.dropSender := ⟨id, fun _ => List.append_nil _, id, rfl⟩

theorem carries_dropReceiver (ch : Channel) : ch.Carries [] [] ch.dropReceiver := by
  refine ⟨fun h => ?_, fun h => ?_, fun _ => Nat.zero_le _, rfl⟩
  · cases h
  · cases h

/-- Without room a channel stays as it is, whatever is offered. -/
theorem offer_of_full (hroom : ch.hasRoom = false) : ch.offer p ≠ .queued ch' := by
  intro h
  obtain ⟨-, hroom', -⟩ := offer_queued h
  rw [hroom] at hroom'
  cases hroom'

end Channel

namespace Network

variable {depth : Nat} {n m l : Network} {i : TaskId} {t : Task} {es fs : List Event} {c id : ChannelId} {ch : Channel}
  {p : Packet} {s : Solver} {offered out : List Outbound}

/-! ## Channels of a network -/

theorem channel_of_length_le (h : n.channels.length ≤ c) : n.channel c = .gone := by
  rw [channel, List.getD_eq_getElem?_getD, List.getElem?_eq_none h]
  rfl

theorem lt_of_receiverHeld (h : (n.channel c).receiverHeld = true) : c < n.channels.length := by
  rcases Nat.lt_or_ge c n.channels.length with hlt | hge
  · exact hlt
  · rw [channel_of_length_le hge] at h
    cases h

theorem lt_of_take (h : (n.channel c).take = .packet p ch) : c < n.channels.length := by
  rcases Nat.lt_or_ge c n.channels.length with hlt | hge
  · exact hlt
  · rw [channel_of_length_le hge] at h
    cases h

theorem channel_setChannel (hid : id < n.channels.length) (ch : Channel) (c : ChannelId) :
    (n.setChannel id ch).channel c = if c = id then ch else n.channel c := by
  simp only [channel, setChannel, List.getD_eq_getElem?_getD, List.getElem?_set, hid, if_true]
  by_cases hc : c = id
  · simp [hc]
  · simp [hc, Ne.symm hc]

theorem channel_onChannel (id : ChannelId) (f : Channel → Channel) (c : ChannelId) :
    (n.onChannel id f).channel c = if c = id ∧ c < n.channels.length then f (n.channel c) else n.channel c := by
  simp only [channel, onChannel, List.getD_eq_getElem?_getD, List.getElem?_modify]
  rcases Nat.lt_or_ge c n.channels.length with hlt | hge
  · rw [List.getElem?_eq_getElem hlt]
    by_cases hc : c = id
    · simp [hc, hc ▸ hlt]
    · simp [hc, Ne.symm hc]
  · rw [List.getElem?_eq_none hge, if_neg fun h => absurd h.2 (Nat.not_lt.mpr hge)]
    rfl

/-! ## Flows -/

def Still (es : List Event) : Prop := ∀ c, es.filterMap (Event.queuedIn c) = [] ∧ es.filterMap (Event.takenFrom c) = []

structure Flows (n : Network) (es : List Event) (m : Network) : Prop where
  length : m.channels.length = n.channels.length
  carries : ∀ c,
    (n.channel c).Carries (es.filterMap (Event.queuedIn c)) (es.filterMap (Event.takenFrom c)) (m.channel c)
  made : ∀ c, n.channels.length ≤ c → es.filterMap (Event.queuedIn c) = [] ∧ es.filterMap (Event.takenFrom c) = []

theorem Flows.trans (h : Flows n es m) (h' : Flows m fs l) : Flows n (es ++ fs) l := by
  refine ⟨h'.length.trans h.length, fun c => ?_, fun c hc => ?_⟩
  · rw [List.filterMap_append, List.filterMap_append]
    exact (h.carries c).trans (h'.carries c)
  · obtain ⟨hq, ht⟩ := h.made c hc
    obtain ⟨hq', ht'⟩ := h'.made c (h.length ▸ hc)
    rw [List.filterMap_append, List.filterMap_append, hq, ht, hq', ht']
    exact ⟨rfl, rfl⟩

/-- Nothing flows where the channels stay the same. -/
theorem flows_of_eq (hm : m.channels = n.channels) (hes : Still es) : Flows n es m := by
  refine ⟨by rw [hm], fun c => ?_, fun c _ => hes c⟩
  obtain ⟨hq, ht⟩ := hes c
  rw [hq, ht, channel, channel, hm]
  exact .refl _

theorem still_nil : Still [] := fun _ => ⟨rfl, rfl⟩

theorem Still.append (hes : Still es) (hfs : Still fs) : Still (es ++ fs) := by
  intro c
  obtain ⟨hq, ht⟩ := hes c
  obtain ⟨hq', ht'⟩ := hfs c
  rw [List.filterMap_append, List.filterMap_append, hq, ht, hq', ht']
  exact ⟨rfl, rfl⟩

theorem flows_refl (n : Network) : Flows n [] n := flows_of_eq rfl still_nil

theorem Flows.silent (h : Flows n es m) (h' : Flows m [] l) : Flows n es l := by
  have h := h.trans h'
  rwa [List.append_nil] at h

theorem Flows.setTask (h : Flows n es m) (i : TaskId) (t : Task) : Flows n es (m.setTask i t) :=
  h.silent (flows_of_eq rfl still_nil)

/-- One channel carries, and the events are about it. -/
theorem flows_setChannel (hid : id < n.channels.length) {queued taken : List Packet}
    (h : (n.channel id).Carries queued taken ch)
    (hes : ∀ c, es.filterMap (Event.queuedIn c) = (if c = id then queued else []) ∧
      es.filterMap (Event.takenFrom c) = if c = id then taken else []) : Flows n es (n.setChannel id ch) := by
  refine ⟨List.length_set, fun c => ?_, fun c hc => ?_⟩
  · obtain ⟨hq, ht⟩ := hes c
    rw [hq, ht, channel_setChannel hid]
    by_cases hc : c = id
    · subst hc
      simpa using h
    · simpa [hc] using Channel.Carries.refl _
  · obtain ⟨hq, ht⟩ := hes c
    have hne : c ≠ id := by
      rintro rfl
      exact absurd hid (Nat.not_lt.mpr hc)
    rw [hq, ht, if_neg hne, if_neg hne]
    exact ⟨rfl, rfl⟩

theorem flows_onChannel (id : ChannelId) {f : Channel → Channel} (hf : ∀ ch : Channel, ch.Carries [] [] (f ch)) :
    Flows n [] (n.onChannel id f) := by
  refine ⟨List.length_modify .., fun c => ?_, fun c _ => ⟨rfl, rfl⟩⟩
  rw [channel_onChannel]
  split
  · exact hf _
  · exact .refl _

theorem flows_dropEnd (n : Network) (e : Endpoint) : Flows n [] (n.dropEnd e) :=
  (flows_onChannel e.tx Channel.carries_dropSender).trans (flows_onChannel e.rx Channel.carries_dropReceiver)

theorem flows_finish (n : Network) (i : TaskId) (t : Task) (how : Ending) : Flows n [] (n.finish i t how) := by
  have hset : Flows n [] (n.setTask i { t with phase := .ended how }) := flows_of_eq rfl still_nil
  unfold finish
  dsimp only
  split
  · exact hset.trans (flows_dropEnd _ _)
  · exact hset.trans (flows_dropEnd _ _)
  · exact hset

/-! ## Offers -/

theorem filterMap_notes {α : Type} {f : Event → Option α} (hf : ∀ x, f (.note x) = none) (notes : List Metric) :
    (notes.map .note).filterMap f = [] := by
  rw [List.filterMap_map]
  exact List.filterMap_eq_nil_iff.mpr fun x _ => hf x

theorem still_notes (notes : List Metric) : Still (notes.map .note) :=
  fun _ => ⟨filterMap_notes (fun _ => rfl) notes, filterMap_notes (fun _ => rfl) notes⟩

theorem flows_put (hheld : (n.channel id).receiverHeld = true) (h : (n.channel id).Carries [p] [] ch) :
    Flows n [.queued id p] (n.setChannel id ch) := by
  refine flows_setChannel (lt_of_receiverHeld hheld) h fun c => ⟨?_, ?_⟩
  · by_cases hc : c = id
    · simp [Event.queuedIn, hc]
    · simp [Event.queuedIn, hc, Ne.symm hc]
  · split <;> rfl

theorem flows_offerOne (n : Network) (s : Solver) (o : Outbound) : Flows n (n.offerOne s o).2 (n.offerOne s o).1 := by
  unfold offerOne
  split
  · exact flows_refl n
  · split
    · rename_i ch hoffer
      obtain ⟨hheld, hroom, rfl⟩ := Channel.offer_queued hoffer
      exact (flows_put hheld (Channel.carries_put hroom)).trans (flows_of_eq rfl (still_notes [_]))
    · exact flows_of_eq rfl fun c => ⟨rfl, rfl⟩
    · exact flows_refl n

theorem flows_offerEach (s : Solver) (out : List Outbound) (n : Network) :
    Flows n (offerEach s out n).2 (offerEach s out n).1 := by
  induction out generalizing n with
  | nil => exact flows_refl n
  | cons o out ih => exact (flows_offerOne n s o).trans (ih _)

/-- The events of an offer: those of each announcement, and at most one note besides. -/
theorem offer_eq (n : Network) (s : Solver) (out : List Outbound) : (n.offer s out).1 = (offerEach s out n).1 ∧
    ∃ notes : List Metric, (n.offer s out).2 = (offerEach s out n).2 ++ notes.map .note ∧
      notes = if (offerEach s out n).2.countP isRefusal = 0 then []
        else [.announceDropped s.id ((offerEach s out n).2.countP isRefusal)] := by
  refine ⟨rfl, _, ?_, rfl⟩
  unfold offer
  dsimp only
  split
  · simp
  · simp

theorem mem_offerOne {o : Outbound} {e : Event} (h : e ∈ (n.offerOne s o).2) :
    (∃ c, e = .queued c o.packet ∨ e = .refused c o.packet) ∨ ∃ x, e = .note x := by
  unfold offerOne at h
  split at h
  · cases h
  · split at h
    · rcases List.mem_cons.mp h with rfl | h
      · exact .inl ⟨_, .inl rfl⟩
      · exact .inr ⟨_, List.mem_singleton.mp h⟩
    · exact .inl ⟨_, .inr (List.mem_singleton.mp h)⟩
    · cases h

/-- All that happens in an offer: announcements are queued or refused, and some of it is noted. -/
theorem mem_offer {e : Event} (h : e ∈ (n.offer s out).2) :
    (∃ o ∈ out, ∃ c, e = .queued c o.packet ∨ e = .refused c o.packet) ∨ ∃ x, e = .note x := by
  obtain ⟨-, notes, hes, -⟩ := offer_eq n s out
  rcases List.mem_append.mp (hes ▸ h) with h' | h'
  · clear hes h
    induction out generalizing n with
    | nil => cases h'
    | cons o out ih =>
      have h : e ∈ (n.offerOne s o).2 ++ (offerEach s out (n.offerOne s o).1).2 := h'
      rcases List.mem_append.mp h with h | h
      · exact (mem_offerOne h).imp (fun he => ⟨o, List.mem_cons_self .., he⟩) id
      · exact (ih h).imp (fun ⟨q, hq, he⟩ => ⟨q, List.mem_cons_of_mem _ hq, he⟩) id
  · obtain ⟨x, -, rfl⟩ := List.mem_map.mp h'
    exact .inr ⟨x, rfl⟩

theorem flows_offer (n : Network) (s : Solver) (out : List Outbound) : Flows n (n.offer s out).2 (n.offer s out).1 := by
  obtain ⟨hnet, notes, hes, -⟩ := offer_eq n s out
  rw [hnet, hes]
  exact (flows_offerEach s out n).trans (flows_of_eq rfl (still_notes notes))

/-- Offers open and close nothing. -/
theorem receiverHeld_offerOne (n : Network) (s : Solver) (o : Outbound) (c : ChannelId) :
    ((n.offerOne s o).1.channel c).receiverHeld = (n.channel c).receiverHeld := by
  unfold offerOne
  split
  · rfl
  · split
    · rename_i i _ ch hoffer
      obtain ⟨hheld, -, rfl⟩ := Channel.offer_queued hoffer
      rw [channel_setChannel (lt_of_receiverHeld hheld)]
      split
      · rename_i hc
        rw [hc]
        rfl
      · rfl
    · rfl
    · rfl

theorem receiverHeld_offer (n : Network) (s : Solver) (out : List Outbound) (c : ChannelId) :
    ((n.offer s out).1.channel c).receiverHeld = (n.channel c).receiverHeld := by
  show ((offerEach s out n).1.channel c).receiverHeld = _
  induction out generalizing n with
  | nil => rfl
  | cons o out ih => exact (ih _).trans (receiverHeld_offerOne n s o c)

theorem addressed_append (s : Solver) (out out' : List Outbound) :
    s.addressed (out ++ out') = s.addressed out ++ s.addressed out' := List.filterMap_append

theorem packetsFor_append (c : ChannelId) (l l' : List (ChannelId × Packet)) :
    packetsFor c (l ++ l') = packetsFor c l ++ packetsFor c l' := by
  rw [packetsFor, List.filter_append, List.map_append]
  rfl

theorem outcomes_offerOne {o : Outbound} (ho : o.packet.kind = .routeAnnounce) :
    (n.offerOne s o).2.filterMap Event.outcome = (s.addressed [o]).filter fun x => (n.channel x.1).receiverHeld := by
  unfold offerOne Solver.addressed
  cases hi : s.interfaces.get? o.recipient with
  | none => simp [hi]
  | some i =>
    dsimp only
    cases hoffer : (n.channel i.tx).offer o.packet with
    | queued ch => simp [hi, ho, Event.outcome, (Channel.offer_queued hoffer).1]
    | full => simp [hi, Event.outcome, (Channel.offer_full hoffer).1]
    | closed => simp [hi, Channel.offer_closed hoffer]

/-- Of the announcements that are offered, those to open channels are queued or refused, in the order of the offers. -/
theorem outcomes_offer (n : Network) (s : Solver) (hout : ∀ o ∈ out, o.packet.kind = .routeAnnounce) :
    (n.offer s out).2.filterMap Event.outcome = (s.addressed out).filter fun x => (n.channel x.1).receiverHeld := by
  obtain ⟨-, notes, hes, -⟩ := offer_eq n s out
  rw [hes, List.filterMap_append, filterMap_notes (fun _ => rfl), List.append_nil]
  clear hes notes
  induction out generalizing n with
  | nil => rfl
  | cons o out ih =>
    obtain ⟨ho, hrest⟩ := List.forall_mem_cons.mp hout
    -- the first offer opens and closes nothing, so the others see the channels as they were
    have htail := ih (n.offerOne s o).1 hrest
    simp only [receiverHeld_offerOne] at htail
    show ((n.offerOne s o).2 ++ (offerEach s out (n.offerOne s o).1).2).filterMap Event.outcome = _
    rw [List.filterMap_append, outcomes_offerOne ho, htail, ← List.filter_append, ← addressed_append,
      List.singleton_append]

/-- A channel without room stays without. -/
theorem hasRoom_offerOne (o : Outbound) (hroom : (n.channel c).hasRoom = false) :
    ((n.offerOne s o).1.channel c).hasRoom = false := by
  unfold offerOne
  split
  · exact hroom
  · rename_i i hi
    split
    · rename_i ch hoffer
      have hne : c ≠ i.tx := by
        rintro rfl
        exact Channel.offer_of_full hroom hoffer
      obtain ⟨hheld, -, -⟩ := Channel.offer_queued hoffer
      rwa [channel_setChannel (lt_of_receiverHeld hheld), if_neg hne]
    · exact hroom
    · exact hroom

theorem hasRoom_offerEach (s : Solver) (out : List Outbound) (hroom : (n.channel c).hasRoom = false) :
    ((offerEach s out n).1.channel c).hasRoom = false := by
  induction out generalizing n with
  | nil => exact hroom
  | cons o out ih => exact ih (hasRoom_offerOne o hroom)

theorem hasRoom_of_refused_one {o : Outbound} (h : .refused c p ∈ (n.offerOne s o).2) :
    ((n.offerOne s o).1.channel c).hasRoom = false := by
  unfold offerOne at h ⊢
  split at h
  · cases h
  · split at h
    · simp at h
    · rename_i hfull
      cases List.mem_singleton.mp h
      exact (Channel.offer_full hfull).2
    · cases h

/-- An announcement is refused only by a channel that has no room, and none is there when all is offered. -/
theorem hasRoom_of_refused (h : .refused c p ∈ (n.offer s out).2) : ((n.offer s out).1.channel c).hasRoom = false := by
  obtain ⟨hnet, notes, hes, -⟩ := offer_eq n s out
  rw [hes] at h
  replace h : Event.refused c p ∈ (offerEach s out n).2 := by
    rcases List.mem_append.mp h with h | h
    · exact h
    · obtain ⟨x, -, hx⟩ := List.mem_map.mp h
      cases hx
  rw [hnet]
  clear hnet hes notes
  induction out generalizing n with
  | nil => cases h
  | cons o out ih =>
    have h : Event.refused c p ∈ (n.offerOne s o).2 ++ (offerEach s out (n.offerOne s o).1).2 := h
    rcases List.mem_append.mp h with h | h
    · exact hasRoom_offerEach s out (hasRoom_of_refused_one h)
    · exact ih h

/-! ## Moves -/

theorem sentNote_eq (n : Network) (t : Task) (p : Packet) :
    ∃ notes : List Metric, n.sentNote t p = notes.map .note := by
  unfold sentNote
  split
  · exact ⟨[_], rfl⟩
  · exact ⟨[], rfl⟩

theorem flows_take (h : (n.channel c).take = .packet p ch) : Flows n [.taken c p] (n.setChannel c ch) := by
  refine flows_setChannel (lt_of_take h) (Channel.carries_take h) fun d => ⟨?_, ?_⟩
  · split <;> rfl
  · by_cases hd : d = c
    · simp [Event.takenFrom, hd]
    · simp [Event.takenFrom, hd, Ne.symm hd]

theorem flows_refresh (n : Network) (s : Solver) (t : Task) : Flows n (n.refresh s t).2 (n.refresh s t).1 :=
  flows_offer n s _

/-- In a move each channel carries what its events tell of. -/
theorem Move.flows (h : Move depth n i t offered es m) : Flows n es m := by
  cases h with
  | @serve _ _ _ k _ turn _ htake _ _ _ =>
    have hturn : Still (turn.notes.map .note ++ [.produced k turn.out]) := (still_notes _).append fun c => ⟨rfl, rfl⟩
    have hoffer := ((flows_take htake).trans (flows_of_eq (m := n.handled t _ k turn) rfl hturn)).trans
      (flows_offer (n.handled t _ k turn) turn.solver (turn.out.filter isAnnouncement))
    have hall := hoffer.setTask i { t with phase := .sending (turn.out.filter (!isAnnouncement ·)) }
    simpa only [List.append_assoc, List.cons_append, List.nil_append] using hall
  | reply _ htake _ _ => exact (flows_take htake).setTask _ _
  | ignore _ htake _ => exact flows_take htake
  | answered _ htake _ => exact (flows_take htake).silent (flows_finish _ _ _ _)
  | idle => exact (flows_refresh _ _ _).setTask _ _
  | close => exact flows_finish _ _ _ _
  | late => exact flows_finish _ _ _ _
  | rest => exact (flows_refl n).setTask _ _
  | renew => exact (flows_refresh _ _ _).setTask _ _
  | send _ _ hqueued =>
    obtain ⟨hheld, hcarries⟩ := Channel.attempt_queued hqueued
    obtain ⟨notes, hnotes⟩ := sentNote_eq n t _
    rw [hnotes]
    exact ((flows_put hheld hcarries).trans (flows_of_eq rfl (still_notes notes))).setTask _ _
  | skip => exact (flows_refl n).setTask _ _
  | @enlist o out c ch _ _ henlisted =>
    obtain ⟨hheld, rfl⟩ := Channel.attempt_enlisted henlisted
    exact flows_setChannel (lt_of_receiverHeld hheld) (Channel.carries_waiting _ _) fun c => ⟨by simp, by simp⟩
  | withdraw => exact (flows_finish _ _ _ _).silent (flows_onChannel _ (Channel.carries_withdraw · i))
  | lose => exact (flows_refl n).setTask _ _
  | hangUp => exact flows_finish _ _ _ _

end Network

end QueryNet
