/-
  QueryNet.Proofs.Metrics — what counters show is what was noted.

  A counter stands under a name with labels, and notes of different names, solvers or
  labels go to different counters; so each counter of packets is the sum of what the
  notes that belong to it tell (`count_sent`, `count_received`, `count_dropped`).
-/

import Mathlib.Algebra.GroupWithZero.Nat
import Mathlib.Data.List.Induction
import QueryNet.Metrics
import QueryNet.Proofs.Scanning

namespace QueryNet

namespace Metric

def sentBy (kind : PacketKind) (a : NodeId) : Metric → Nat
  | .packetSent b k => if k = kind ∧ b = a then 1 else 0
  | _ => 0

def receivedBy (kind : PacketKind) (a : NodeId) : Metric → Nat
  | .packetReceived b k => if k = kind ∧ b = a then 1 else 0
  | _ => 0

def droppedBy (a : NodeId) : Metric → Nat
  | .announceDropped b n => if b = a then n else 0
  | _ => 0

end Metric

def Metric.name : Metric → String
  | .packetReceived _ _ => "dqnet.packets.received"
  | .packetSent _ _ => "dqnet.packets.sent"
  | .routeUpdate _ _ => "dqnet.route.updates"
  | .announceDropped _ _ => "dqnet.route.announce_dropped"
  | .pendingRequests _ _ => "dqnet.prt.depth"
  | .queryUnrouted _ => "dqnet.query.unrouted"
  | .answerUnmatched _ => "dqnet.answer.unmatched"

namespace Metrics

def count (m : Metrics) (key : String) : Nat := (m.counters.get? key).getD 0

def ofNotes (notes : List Metric) : Metrics := notes.foldl record empty

def sentKey (kind : PacketKind) (a : NodeId) : String :=
  labelled "dqnet.packets.sent" [("kind", kind.label), ("solver", a)]

def receivedKey (kind : PacketKind) (a : NodeId) : String :=
  labelled "dqnet.packets.received" [("kind", kind.label), ("solver", a)]

def droppedKey (a : NodeId) : String := labelled "dqnet.route.announce_dropped" [("solver", a)]

/-! ## Names -/

variable {name name' key key' l l' a b : String} {labels labels' : List (String × String)} {kind kind' : PacketKind}

/-- What stands before and after the first of a character is determined. -/
theorem cut_inj {c : Char} {as bs cs ds : List Char} (ha : c ∉ as) (hc : c ∉ cs) (h : as ++ c :: bs = cs ++ c :: ds) :
    as = cs ∧ bs = ds := by
  have hcut := Text.cutAt_eq_some_iff.mpr ⟨hc, h⟩
  rw [Text.cutAt_eq_some_iff.mpr ⟨ha, rfl⟩] at hcut
  cases hcut
  exact ⟨rfl, rfl⟩

theorem toList_labelled (name : String) (labels : List (String × String)) : (labelled name labels).toList =
    name.toList ++ '\x7b' :: ((Text.join "," (labels.map fun l => l.1 ++ "=" ++ l.2)).toList ++ ['\x7d']) := by
  simp [labelled]

/-- Counters of different names are different. -/
theorem labelled_inj (hname : '\x7b' ∉ name.toList) (hname' : '\x7b' ∉ name'.toList)
    (h : labelled name labels = labelled name' labels') : name = name' ∧
      Text.join "," (labels.map fun l => l.1 ++ "=" ++ l.2) = Text.join "," (labels'.map fun l => l.1 ++ "=" ++ l.2) := by
  have h := congrArg String.toList h
  rw [toList_labelled, toList_labelled] at h
  obtain ⟨hn, hl⟩ := cut_inj hname hname' h
  exact ⟨String.toList_inj.mp hn, String.toList_inj.mp (List.append_cancel_right hl)⟩

theorem labelled_ne (hname : '\x7b' ∉ name.toList) (hname' : '\x7b' ∉ name'.toList) (h : name ≠ name') :
    labelled name labels ≠ labelled name' labels' := fun he => h (labelled_inj hname hname' he).1

/-- Of one name, those of different kinds or solvers are different. -/
theorem labelled_kind_inj (hname : '\x7b' ∉ name.toList) :
    labelled name [("kind", kind.label), ("solver", a)] = labelled name [("kind", kind'.label), ("solver", b)] ↔
      kind = kind' ∧ a = b := by
  refine ⟨fun h => ?_, fun ⟨hk, ha⟩ => by rw [hk, ha]⟩
  have hsplit : ∀ (k : PacketKind) (s : String), (Text.join "," ["kind" ++ "=" ++ k.label, "solver" ++ "=" ++ s]).toList =
      ("kind=" ++ k.label).toList ++ ',' :: ("solver=".toList ++ s.toList) := by
    intro k s
    simp [Text.join]
  have hcomma : ∀ k : PacketKind, ',' ∉ ("kind=" ++ k.label).toList := by
    intro k
    cases k <;> decide
  have h := congrArg String.toList (labelled_inj hname hname h).2
  simp only [List.map_cons, List.map_nil, hsplit] at h
  obtain ⟨hk, ha⟩ := cut_inj (hcomma kind) (hcomma kind') h
  refine ⟨?_, String.toList_inj.mp (List.append_cancel_left ha)⟩
  revert hk
  cases kind <;> cases kind' <;> decide

theorem labelled_solver_inj (hname : '\x7b' ∉ name.toList) :
    labelled name [("solver", a)] = labelled name [("solver", b)] ↔ a = b := by
  refine ⟨fun h => ?_, fun ha => by rw [ha]⟩
  have h := congrArg String.toList (labelled_inj hname hname h).2
  have h : a.toList = b.toList := by simpa [Text.join] using h
  exact String.toList_inj.mp h

theorem sent_name : '\x7b' ∉ "dqnet.packets.sent".toList := by decide

theorem received_name : '\x7b' ∉ "dqnet.packets.received".toList := by decide

theorem dropped_name : '\x7b' ∉ "dqnet.route.announce_dropped".toList := by decide

/-! ## Values -/

theorem count_add (m : Metrics) (key key' : String) (n : Nat) :
    (m.add key' n).count key = m.count key + if key = key' then n else 0 := by
  unfold count add
  rw [Table.get?_insert]
  split
  · rename_i h
    rw [h]
    rfl
  · rfl

/-- A note adds only to counters of its own name. -/
theorem count_record_of_name (m : Metrics) {x : Metric} (hname : '\x7b' ∉ name.toList) (hx : x.name ≠ name) :
    (m.record x).count (labelled name labels) = m.count (labelled name labels) := by
  have hadd : ∀ (labels' : List (String × String)) (n : Nat),
      (m.add (labelled x.name labels') n).count (labelled name labels) = m.count (labelled name labels) := by
    intro labels' n
    have hx' : '\x7b' ∉ x.name.toList := by cases x <;> simp [Metric.name]
    rw [count_add, if_neg (labelled_ne hname hx' (Ne.symm hx)), Nat.add_zero]
  cases x with
  | announceDropped b n =>
    cases n with
    | zero => rfl
    | succ n => exact hadd _ _
  | pendingRequests b n => rfl
  | packetReceived b k => exact hadd _ _
  | packetSent b k => exact hadd _ _
  | routeUpdate b c => exact hadd _ _
  | queryUnrouted b => exact hadd _ _
  | answerUnmatched b => exact hadd _ _

theorem count_record_sent (m : Metrics) (x : Metric) (kind : PacketKind) (a : NodeId) :
    (m.record x).count (sentKey kind a) = m.count (sentKey kind a) + x.sentBy kind a := by
  cases x with
  | packetSent b k =>
    rw [record, count_add, sentKey, Metric.sentBy]
    simp only [labelled_kind_inj sent_name, eq_comm]
  | _ => exact count_record_of_name m sent_name (by simp [Metric.name])

theorem count_record_received (m : Metrics) (x : Metric) (kind : PacketKind) (a : NodeId) :
    (m.record x).count (receivedKey kind a) = m.count (receivedKey kind a) + x.receivedBy kind a := by
  cases x with
  | packetReceived b k =>
    rw [record, count_add, receivedKey, Metric.receivedBy]
    simp only [labelled_kind_inj received_name, eq_comm]
  | _ => exact count_record_of_name m received_name (by simp [Metric.name])

theorem count_record_dropped (m : Metrics) (x : Metric) (a : NodeId) :
    (m.record x).count (droppedKey a) = m.count (droppedKey a) + x.droppedBy a := by
  cases x with
  | announceDropped b n =>
    have hadd : (m.record (.announceDropped b n)).count (droppedKey a) =
        (m.add (droppedKey b) n).count (droppedKey a) := by
      cases n with
      | zero => rw [count_add, ite_self]; rfl
      | succ n => rfl
    rw [hadd, count_add, droppedKey, droppedKey, Metric.droppedBy]
    simp only [labelled_solver_inj dropped_name, eq_comm]
  | _ => exact count_record_of_name m dropped_name (by simp [Metric.name])

/-- A counter to which each note adds its part shows the sum of the parts. -/
theorem count_ofNotes {part : Metric → Nat} (hpart : ∀ m x, (record m x).count key = m.count key + part x)
    (notes : List Metric) : (ofNotes notes).count key = (notes.map part).sum := by
  induction notes using List.reverseRecOn with
  | nil => rfl
  | append_singleton notes x ih =>
    have hrecord : ofNotes (notes ++ [x]) = (ofNotes notes).record x := List.foldl_append
    rw [hrecord, hpart, ih, List.map_append, List.sum_append]
    rfl

theorem count_sent (notes : List Metric) (kind : PacketKind) (a : NodeId) :
    (ofNotes notes).count (sentKey kind a) = (notes.map (·.sentBy kind a)).sum :=
  count_ofNotes (fun m x => count_record_sent m x kind a) notes

theorem count_received (notes : List Metric) (kind : PacketKind) (a : NodeId) :
    (ofNotes notes).count (receivedKey kind a) = (notes.map (·.receivedBy kind a)).sum :=
  count_ofNotes (fun m x => count_record_received m x kind a) notes

theorem count_dropped (notes : List Metric) (a : NodeId) :
    (ofNotes notes).count (droppedKey a) = (notes.map (·.droppedBy a)).sum :=
  count_ofNotes (fun m x => count_record_dropped m x a) notes

end Metrics

end QueryNet
