/-
  QueryNet.Proofs.Course.Accounts — how often a request is answered.

  An answer that is owed to a node is an entry with that node as its origin. Nothing
  adds one but a round for the node's own request, and an answer that goes out takes
  one away: what has been sent and what is owed together (`Turn.charge`) grow by at
  most one in a round (`Rounds.charge_le`) and not at all otherwise.

  Proved: a node's requests for a query are answered at most once for each rule that
  matched it, or once if none did, whatever responses come in (`answered_le_requested`).
-/

import Mathlib.Algebra.GroupWithZero.Nat
import QueryNet.Proofs.Course

namespace QueryNet

def answersTo (node : NodeId) (query : Atom) (out : List Outbound) : Nat :=
  out.countP fun o => o.recipient = node ∧ o.packet.kind = .response ∧ o.packet.query = query

variable {node : NodeId} {query : Atom}

theorem answersTo_append (out out' : List Outbound) :
    answersTo node query (out ++ out') = answersTo node query out + answersTo node query out' :=
  List.countP_append ..

theorem answersTo_eq_zero {out : List Outbound} (h : ∀ o ∈ out, o.packet.kind ≠ .response) :
    answersTo node query out = 0 :=
  List.countP_eq_zero.mpr fun o ho hresponse => h o ho (of_decide_eq_true hresponse).2.1

namespace PendingTable

variable {p : PendingTable}

/-- Whether an answer to `query` is owed to `node`, as a number. -/
def owed (p : PendingTable) (node : NodeId) (query : Atom) : Nat :=
  if (p.get? query).bind (·.origin) = some node then 1 else 0

theorem owed_erase_self (p : PendingTable) : owed (p.erase query) node query = 0 := by
  rw [owed, Table.get?_erase, if_pos rfl]
  rfl

theorem owed_erase_le (a : Atom) : owed (p.erase a) node query ≤ p.owed node query := by
  by_cases ha : query = a
  · rw [← ha, owed_erase_self]
    exact Nat.zero_le _
  · rw [owed, Table.get?_erase, if_neg ha]
    exact Nat.le_refl _

theorem owed_insert_le (p : PendingTable) (node : NodeId) (query a : Atom) (e : PendingRequest) :
    owed (p.insert a e) node query ≤ p.owed node query + if e.origin = some node ∧ query = a then 1 else 0 := by
  rw [owed, Table.get?_insert]
  by_cases ha : query = a
  · rw [if_pos ha, Option.bind_some, if_congr (and_iff_left ha).symm rfl rfl]
    exact Nat.le_add_left _ _
  · rw [if_neg ha]
    exact Nat.le_add_right _ _

/-- An entry in the place of one with the same origin owes the same. -/
theorem owed_insert_of_origin {a : Atom} {e e' : PendingRequest} (h : p.get? a = some e) (ho : e'.origin = e.origin) :
    owed (p.insert a e') node query = p.owed node query := by
  rw [owed, owed, Table.get?_insert]
  split
  · rename_i ha
    rw [ha, h, Option.bind_some, Option.bind_some, ho]
  · rfl

/-- The answer to an entry's query takes the entry's place in the account. -/
theorem charge_answer {a : Atom} {e : PendingRequest} (h : p.get? a = some e) (b : Bindings) :
    answersTo node query (e.origin.map (⟨·, .response a b⟩)).toList + owed (p.erase a) node query ≤ p.owed node query := by
  cases horigin : e.origin with
  | none => exact (Nat.zero_add _).trans_le (owed_erase_le a)
  | some o =>
    by_cases hown : o = node ∧ a = query
    · obtain ⟨rfl, rfl⟩ := hown
      have howed : p.owed o a = 1 := by rw [owed, h, Option.bind_some, horigin, if_pos rfl]
      rw [howed, owed_erase_self]
      exact List.countP_le_length
    · have hnone : answersTo node query [⟨o, .response a b⟩] = 0 :=
        List.countP_eq_zero.mpr fun x hx hto => by
          obtain rfl := List.mem_singleton.mp hx
          exact hown ⟨(of_decide_eq_true hto).1, (of_decide_eq_true hto).2.2⟩
      exact (congrArg (· + _) hnone).trans_le ((Nat.zero_add _).trans_le (owed_erase_le a))

/-- An answer that goes out was owed. -/
theorem charge_deliver (node : NodeId) (query : Atom) (p : PendingTable) (a : Atom) (b : Bindings) (sender : Atom) :
    answersTo node query (p.deliver a b sender).reply.toList + (p.deliver a b sender).pending.owed node query ≤
      p.owed node query := by
  -- on the size of the table: an answer is passed on from a table without the entry it took out
  induction hn : p.size using Nat.strongRecOn generalizing p a b sender with
  | ind n ih =>
    rcases deliver_cases p a b sender with ⟨-, hd⟩ | ⟨e, he, ⟨-, -, hd⟩ | ⟨-, c, hd⟩⟩
    · rw [hd]
      exact Nat.le_of_eq (Nat.zero_add _)
    · rw [hd]
      exact Nat.le_of_eq ((Nat.zero_add _).trans (owed_insert_of_origin he rfl))
    · rw [hd]
      unfold pass
      cases hparent : e.parent with
      | some q => exact (ih _ (hn ▸ Table.size_erase_lt he) _ q c a rfl).trans (owed_erase_le a)
      | none => exact charge_answer he c

end PendingTable

namespace Turn

/-! ## Turns -/

def charge (node : NodeId) (query : Atom) (t : Turn) : Nat := answersTo node query t.out + t.solver.pending.owed node query

variable {origin : Option NodeId} {parent : Option Atom} {a : Atom} {t u : Turn} (node query)

theorem charge_record_le (t : Turn) (e : PendingRequest) :
    (t.record e).charge node query ≤ t.charge node query + if e.origin = some node ∧ query = e.query then 1 else 0 := by
  have := t.solver.pending.owed_insert_le node query e.query e
  exact (Nat.add_le_add_left this _).trans_eq (Nat.add_assoc ..).symm

theorem charge_deliver_le (t : Turn) (a : Atom) (b : Bindings) (sender : Atom) :
    (t.deliver a b sender).2.charge node query ≤ t.charge node query := by
  have hdeliver := PendingTable.charge_deliver node query t.solver.pending a b sender
  show answersTo node query (t.out ++ _) + _ ≤ _
  rw [answersTo_append, Nat.add_assoc]
  exact Nat.add_le_add_left hdeliver _

theorem Step.charge_le (h : Step origin parent a t u) :
    u.charge node query ≤ t.charge node query + if origin = some node ∧ query = a then 1 else 0 := by
  cases h with
  | forward _ =>
    obtain ⟨hsolver, out, hout, hreq⟩ := forward_eq t origin parent a
    have hzero : answersTo node query out = 0 := answersTo_eq_zero fun o ho hk => by
      rw [hreq o ho] at hk; cases hk
    have := charge_record_le node query t (.unmatched a parent origin)
    rwa [charge, hsolver, hout, answersTo_append, hzero]
  | @expand m _ _ => exact charge_record_le node query t (.matched m a parent origin)
  | @answer m _ _ =>
    have := charge_record_le node query t (.matched m a parent origin)
    exact (charge_deliver_le node query _ a ∅ a).trans this

/-- Subgoals have no node to answer to. -/
theorem Below.charge_le (h : Below t u) : u.charge node query ≤ t.charge node query := by
  induction h with
  | refl => exact Nat.le_refl _
  | tail _ hs ih =>
    obtain ⟨g, p, -, -, hs⟩ := hs
    have := hs.charge_le node query
    rw [if_neg (fun h => by cases h.1), Nat.add_zero] at this
    exact this.trans ih

theorem Rounds.charge_le {n : Nat} (h : Rounds origin parent a n t u) :
    u.charge node query ≤ t.charge node query + if origin = some node ∧ query = a then n else 0 := by
  induction h with
  | zero => exact Nat.le_add_right _ _
  | round _ hs hb ih =>
    have hstep := hs.charge_le node query
    have hbelow := hb.charge_le node query
    split at hstep <;> rename_i hown
    · rw [if_pos hown] at ih ⊢
      omega
    · rw [if_neg hown] at ih ⊢
      omega

end Turn

namespace Handled

/-! ## Histories -/

def Requests (node : NodeId) (query : Atom) (h : Handled) : Prop :=
  h.sender = node ∧ h.packet.kind = .request ∧ h.packet.query = query

instance (node : NodeId) (query : Atom) (h : Handled) : Decidable (h.Requests node query) :=
  inferInstanceAs (Decidable (_ ∧ _))

/-- How often the packet may be answered, as `node`'s request for `query`. -/
def allowance (node : NodeId) (query : Atom) (h : Handled) : Nat :=
  if h.Requests node query then max 1 (h.before.matching query).length else 0

end Handled

namespace Solver

variable {s : Solver} {log : List Handled}

theorem Handles.charge_le (node : NodeId) (query : Atom) {sender : NodeId} {p : Packet} {t : Turn} (h : s.Handles sender p t) :
    t.charge node query ≤ s.pending.owed node query + Handled.allowance node query ⟨s, sender, p, t⟩ := by
  rcases h.cases with ⟨hk, n, hn, u, hr, ht, hout⟩ | ⟨-, b, -, ht, hout⟩ | ⟨hk, -, ht, hout⟩
  · have hround : t.charge node query ≤
        s.pending.owed node query + if some sender = some node ∧ query = p.query then n else 0 := by
      rw [Turn.charge, ht, hout]
      have := hr.charge_le node query
      rwa [Turn.charge, Turn.charge, show answersTo node query ((Turn.begin s).note _).out = 0 from rfl, Nat.zero_add] at this
    refine hround.trans (Nat.add_le_add_left ?_ _)
    split
    · rename_i hown
      obtain ⟨rfl, rfl⟩ := And.imp_left Option.some.inj hown
      rw [Handled.allowance, if_pos ⟨rfl, hk, rfl⟩]
      exact hn
    · exact Nat.zero_le _
  · rw [Turn.charge, ht, hout]
    exact (PendingTable.charge_deliver node query s.pending p.query b p.query).trans (Nat.le_add_right _ _)
  · rw [Turn.charge, ht, answersTo_eq_zero fun o ho => by rw [hout o ho]; decide, Nat.zero_add]
    exact Nat.le_add_right _ _

/-- What was sent and what is owed, over a whole history. -/
theorem History.charge_le (h : History log s) :
    (log.map fun h => answersTo node query h.turn.out).sum + s.pending.owed node query ≤
      (log.map (·.allowance node query)).sum := by
  induction h with
  | fresh hp =>
    rw [hp]
    exact Nat.le_refl _
  | packet _ ht ih =>
    have hturn := ht.charge_le node query
    rw [Turn.charge] at hturn
    rw [List.map_append, List.map_append, List.sum_append, List.sum_append]
    simp only [List.map_cons, List.map_nil, List.sum_singleton]
    omega
  | rule _ hr ih =>
    rw [addRule_eq hr]
    exact ih
  | other _ _ hp ih =>
    rw [hp]
    exact ih

/-- If no request for the query met two rules that match, each may be answered once. -/
theorem sum_allowance_le (h : ∀ h ∈ log, (h.before.matching query).length ≤ 1) :
    (log.map (·.allowance node query)).sum ≤ log.countP fun h => h.Requests node query := by
  induction log with
  | nil => exact Nat.le_refl _
  | cons x log ih =>
    have hlog := ih fun y hy => h y (List.mem_cons_of_mem _ hy)
    have hx : max 1 (x.before.matching query).length = 1 := Nat.max_eq_left (h x (List.mem_cons_self ..))
    rw [List.map_cons, List.sum_cons, List.countP_cons, Handled.allowance, hx, Nat.add_comm]
    simp only [decide_eq_true_eq]
    exact Nat.add_le_add_right hlog _

/-- Answers are sent only for requests: at most one for each rule that matches, or one if none does; so at
    most one for each request as long as no query matches two rules. -/
theorem answered_le_requested (h : History log s) (node : NodeId) (query : Atom) :
    (log.map fun h => answersTo node query h.turn.out).sum + s.pending.owed node query ≤
        (log.map (·.allowance node query)).sum ∧
      ((∀ h ∈ log, (h.before.matching query).length ≤ 1) →
        (log.map fun h => answersTo node query h.turn.out).sum + s.pending.owed node query ≤
          log.countP fun h => h.Requests node query) :=
  ⟨h.charge_le, fun hone => h.charge_le.trans (sum_allowance_le hone)⟩

def lodge : Solver := { Solver.create "lodge" .standard with rules := [⟨⟨"lodging", ["?X"]⟩, [⟨"hotel", ["?X"]⟩]⟩] }

/-- A hotel answers twice, but the node that asked for lodging gets a single answer. -/
theorem lodging_answered_once :
    ∃ log s, History log s ∧ (log.map fun h => answersTo "user" ⟨"lodging", ["?w"]⟩ h.turn.out).sum = 1 ∧
      (log.map fun h => answersTo "user" ⟨"lodging", ["?w"]⟩ h.turn.out).sum +
          s.pending.owed "user" ⟨"lodging", ["?w"]⟩ ≤
        log.countP fun h => h.Requests "user" ⟨"lodging", ["?w"]⟩ := by
  let answer : Packet := .response ⟨"hotel", ["?X"]⟩ (.ofList [("?X", "grand")])
  let asked : PendingTable := .ofList
    [(⟨"lodging", ["?w"]⟩,
        ⟨⟨"lodging", ["?w"]⟩, none, [⟨"hotel", ["?X"]⟩], ∅, none, some (.ofList [("?X", "?w")]), some "user"⟩),
      (⟨"hotel", ["?X"]⟩, .unmatched ⟨"hotel", ["?X"]⟩ (some ⟨"lodging", ["?w"]⟩) none)]
  obtain ⟨t₁, h₁, hs₁, ho₁⟩ : ∃ t, lodge.Handles "user" (.request ⟨"lodging", ["?w"]⟩) t ∧
      t.solver = lodge.withPending asked ∧ t.out = [] := ⟨_, ⟨2, rfl⟩, rfl, rfl⟩
  obtain ⟨t₂, h₂, hs₂, ho₂⟩ : ∃ t, (lodge.withPending asked).Handles "hotel" answer t ∧ t.solver = lodge ∧
      t.out = [⟨"user", .response ⟨"lodging", ["?w"]⟩ (.ofList [("?w", "grand")])⟩] :=
    ⟨_, ⟨0, rfl⟩, by decide +kernel, by decide +kernel⟩
  obtain ⟨t₃, h₃, ho₃⟩ : ∃ t, lodge.Handles "hotel" answer t ∧ t.out = [] := ⟨_, ⟨0, rfl⟩, by decide +kernel⟩
  have h := (((History.fresh (s := lodge) rfl).packet h₁).packet (hs₁ ▸ h₂)).packet (hs₂ ▸ h₃)
  refine ⟨_, _, h, ?_, (answered_le_requested h "user" ⟨"lodging", ["?w"]⟩).2 fun x hx => ?_⟩
  · simp only [List.nil_append, List.cons_append, List.map_cons, List.map_nil, ho₁, ho₂, ho₃]
    decide
  · simp only [List.nil_append, List.cons_append, List.mem_cons, List.not_mem_nil, or_false, hs₁, hs₂] at hx
    rcases hx with rfl | rfl | rfl <;> exact Nat.le_refl 1

end Solver

end QueryNet
