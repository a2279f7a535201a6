/-
  QueryNet.Proofs.Delivery — what an answer does to the queries that wait for it.

  An answer that finds its entry either leaves it waiting for other subgoals
  (`deliver_wait`) or takes it out (`deliver_self`, `deliver_last`); the entry's own
  answer is then passed on (`pass`): to the query it is needed for, or to the node
  that asked. On its way an answer adds no entry (`get?_deliver_eq_none`), and what
  holds of entries goes on to hold if waiting for less keeps it (`deliver_keeps`). The
  links that lead up are those that the guard against cycles follows
  (`onChain_eq_false`); it follows them as far as they lead (`isAncestor_iff`).
-/

import QueryNet.Pending
import QueryNet.Proofs.Table

namespace QueryNet.PendingTable

/-- What follows when the answer to `query` is passed on: its entry, which named `parent` and
    `origin`, is out of the table. -/
def pass (p : PendingTable) (parent : Option Atom) (origin : Option NodeId) (query : Atom) (b : Bindings) : Delivery :=
  match parent with
  | some a => { p.deliver a b query with consumption := .consumed }
  | none => ⟨.consumed, p, origin.map (⟨·, .response query b⟩)⟩

variable {p : PendingTable} {query sender : Atom} {e : PendingRequest}

theorem deliver_unknown (h : p.get? query = none) (b : Bindings) : p.deliver query b sender = ⟨.unknownQuery, p, none⟩ := by
  rw [deliver]
  split
  · rfl
  · rename_i hq; rw [h] at hq; cases hq

/-- An answer to the query itself takes its entry out. -/
theorem deliver_self (h : p.get? query = some e) (b : Bindings) :
    p.deliver query b query = pass (p.erase query) e.parent e.origin query (e.answer b) := by
  rw [deliver]
  split
  · rename_i hq; rw [h] at hq; cases hq
  · rename_i hq
    rw [h] at hq; cases hq
    simp only [ne_eq, not_true_eq_false, false_and, if_false, if_true]
    unfold pass; cases e.parent <;> rfl

/-- So does the answer to the last subgoal. -/
theorem deliver_last (h : p.get? query = some e) (hs : sender ≠ query) (ha : e.awaited.filter (· ≠ sender) = [])
    (b : Bindings) :
    p.deliver query b sender = pass (p.erase query) e.parent e.origin query (e.answer (e.results.merge b)) := by
  rw [deliver]
  split
  · rename_i hq; rw [h] at hq; cases hq
  · rename_i hq
    rw [h] at hq; cases hq
    simp only [ha, ne_eq, not_true_eq_false, and_false, if_false, if_neg hs]
    unfold pass; cases e.parent <;> rfl

/-- The answer to any other subgoal is kept with the entry. -/
theorem deliver_wait (h : p.get? query = some e) (hs : sender ≠ query) (ha : e.awaited.filter (· ≠ sender) ≠ [])
    (b : Bindings) :
    p.deliver query b sender =
      ⟨.consumed, p.insert query { e with results := e.results.merge b, awaited := e.awaited.filter (· ≠ sender) }, none⟩ := by
  rw [deliver]
  split
  · rename_i hq; rw [h] at hq; cases hq
  · rename_i hq
    rw [h] at hq; cases hq
    rw [if_pos ⟨hs, ha⟩]

/-! ## An entry over a table without its query -/

theorem deliver_insert_self (h : p.get? query = none) (e : PendingRequest) (b : Bindings) :
    deliver (p.insert query e) query b query = p.pass e.parent e.origin query (e.answer b) := by
  rw [deliver_self (Table.get?_insert_self p query e), Table.erase_insert h]

theorem deliver_insert_last (h : p.get? query = none) (hs : sender ≠ query) (ha : e.awaited.filter (· ≠ sender) = [])
    (b : Bindings) :
    deliver (p.insert query e) query b sender = p.pass e.parent e.origin query (e.answer (e.results.merge b)) := by
  rw [deliver_last (Table.get?_insert_self p query e) hs ha, Table.erase_insert h]

theorem deliver_insert_wait (hs : sender ≠ query) (ha : e.awaited.filter (· ≠ sender) ≠ []) (b : Bindings) :
    deliver (p.insert query e) query b sender =
      ⟨.consumed, p.insert query { e with results := e.results.merge b, awaited := e.awaited.filter (· ≠ sender) }, none⟩ := by
  rw [deliver_wait (Table.get?_insert_self p query e) hs ha, Table.insert_insert]

/-! ## All ways an answer may go -/

/-- How an answer goes: no entry, an entry that still waits, or one that is taken out and answered. -/
theorem deliver_cases (p : PendingTable) (query : Atom) (b : Bindings) (sender : Atom) :
    (p.get? query = none ∧ p.deliver query b sender = ⟨.unknownQuery, p, none⟩) ∨
    ∃ e, p.get? query = some e ∧
      ((sender ≠ query ∧ e.awaited.filter (· ≠ sender) ≠ [] ∧
          p.deliver query b sender =
            ⟨.consumed, p.insert query { e with results := e.results.merge b, awaited := e.awaited.filter (· ≠ sender) },
              none⟩) ∨
        ((sender = query ∨ e.awaited.filter (· ≠ sender) = []) ∧
          ∃ c, p.deliver query b sender = pass (p.erase query) e.parent e.origin query c)) := by
  cases h : p.get? query with
  | none => exact .inl ⟨rfl, deliver_unknown h b⟩
  | some e =>
    refine .inr ⟨e, rfl, ?_⟩
    by_cases hs : sender = query
    · subst hs
      exact .inr ⟨.inl rfl, _, deliver_self h b⟩
    · by_cases ha : e.awaited.filter (· ≠ sender) = []
      · exact .inr ⟨.inr ha, _, deliver_last h hs ha b⟩
      · exact .inl ⟨hs, ha, deliver_wait h hs ha b⟩

/-- An answer adds no entry. -/
theorem get?_deliver_eq_none {a : Atom} (h : p.get? a = none) (query : Atom) (b : Bindings) (sender : Atom) :
    (p.deliver query b sender).pending.get? a = none := by
  -- on the size of the table: an answer is passed on from a table without the entry it took out
  induction hn : p.size using Nat.strongRecOn generalizing p query b sender with
  | ind n ih =>
    rcases deliver_cases p query b sender with ⟨-, hd⟩ | ⟨e, he, ⟨-, -, hd⟩ | ⟨-, c, hd⟩⟩
    · rw [hd]; exact h
    · have : a ≠ query := fun ha => by rw [ha, he] at h; cases h
      rw [hd]; simp [this, h]
    · have hlt : (p.erase query).size < n := hn ▸ Table.size_erase_lt he
      have hq : (p.erase query).get? a = none := by rw [Table.get?_erase, h, ite_self]
      rw [hd]
      unfold pass
      split
      · exact ih _ hlt hq _ c query rfl
      · exact hq

/-- An answer takes entries out, and may leave one in its place that waits for less. -/
theorem deliver_keeps {I : Atom → PendingRequest → Prop}
    (hwait : ∀ a e b x, I a e → x ≠ a → e.awaited.filter (· ≠ x) ≠ [] →
      I a { e with results := e.results.merge b, awaited := e.awaited.filter (· ≠ x) })
    (h : ∀ a e, p.get? a = some e → I a e) (query : Atom) (b : Bindings) (sender : Atom) :
    ∀ a e, (p.deliver query b sender).pending.get? a = some e → I a e := by
  induction hn : p.size using Nat.strongRecOn generalizing p query b sender with
  | ind n ih =>
    rcases deliver_cases p query b sender with ⟨-, hd⟩ | ⟨e₀, he₀, ⟨hs, hne, hd⟩ | ⟨-, c, hd⟩⟩
    · rw [hd]
      exact h
    · rw [hd]
      intro a e he
      rw [Table.get?_insert] at he
      split at he
      · rename_i ha
        cases he
        exact ha ▸ hwait query e₀ b sender (h query e₀ he₀) hs hne
      · exact h a e he
    · have hlt : (p.erase query).size < n := hn ▸ Table.size_erase_lt he₀
      have herase : ∀ a e, (p.erase query).get? a = some e → I a e := fun a e he => by
        rw [Table.get?_erase] at he
        split at he
        · cases he
        · exact h a e he
      rw [hd]
      unfold pass
      split
      · exact ih _ hlt herase _ c query rfl
      · exact herase

theorem pass_keeps {I : Atom → PendingRequest → Prop}
    (hwait : ∀ a e b x, I a e → x ≠ a → e.awaited.filter (· ≠ x) ≠ [] →
      I a { e with results := e.results.merge b, awaited := e.awaited.filter (· ≠ x) })
    (h : ∀ a e, p.get? a = some e → I a e) (parent : Option Atom) (origin : Option NodeId) (query : Atom) (b : Bindings) :
    ∀ a e, (p.pass parent origin query b).pending.get? a = some e → I a e := by
  unfold pass
  cases parent with
  | none => exact h
  | some q => exact deliver_keeps hwait h q b query

/-- What a delivery sends is an answer. -/
theorem reply_deliver {o : Outbound} (query : Atom) (b : Bindings) (sender : Atom)
    (h : (p.deliver query b sender).reply = some o) : ∃ n q c, o = ⟨n, .response q c⟩ := by
  induction hn : p.size using Nat.strongRecOn generalizing p query b sender with
  | ind n ih =>
    rcases deliver_cases p query b sender with ⟨-, hd⟩ | ⟨e, he, ⟨-, -, hd⟩ | ⟨-, c, hd⟩⟩
    · rw [hd] at h; cases h
    · rw [hd] at h; cases h
    · have hlt : (p.erase query).size < n := hn ▸ Table.size_erase_lt he
      rw [hd] at h
      unfold pass at h
      split at h
      · exact ih _ hlt _ c query h rfl
      · obtain ⟨m, -, rfl⟩ := Option.map_eq_some_iff.mp h
        exact ⟨m, query, c, rfl⟩

/-! ## Links -/

def Closed (p : PendingTable) (C : Atom → Prop) : Prop := ∀ a, C a → ∀ b, p.parentOf a = some b → C b

/-- A chain of links that stays in a set does not lead to a query outside. -/
theorem onChain_eq_false {C : Atom → Prop} (hC : p.Closed C) {query : Atom} (hq : ¬ C query) (n : Nat) :
    ∀ {cursor : Option Atom}, (∀ a, cursor = some a → C a) → p.onChain query n cursor = false := by
  induction n with
  | zero => intro _ _; rfl
  | succ n ih =>
    intro cursor hc
    cases cursor with
    | none => rfl
    | some a =>
      have ha : C a := hc a rfl
      have hne : a ≠ query := fun h => hq (h ▸ ha)
      rw [onChain, ih (hC a ha), Bool.or_false, beq_eq_false_iff_ne]
      exact hne

theorem onChain_mono {query : Atom} {n m : Nat} (hle : n ≤ m) {cursor : Option Atom} (h : p.onChain query n cursor = true) :
    p.onChain query m cursor = true := by
  induction n generalizing m cursor with
  | zero => cases h
  | succ n ih =>
    obtain ⟨m, rfl⟩ := Nat.exists_eq_succ_of_ne_zero (Nat.ne_of_gt (Nat.lt_of_lt_of_le n.succ_pos hle))
    cases cursor with
    | none => cases h
    | some a =>
      rw [onChain, Bool.or_eq_true] at h ⊢
      exact h.imp_right (ih (Nat.le_of_succ_le_succ hle))

/-- A chain leads on without an entry unless it comes to the entry's query. -/
theorem onChain_erase {query : Atom} (a : Atom) {n : Nat} {cursor : Option Atom} (h : p.onChain query n cursor = true) :
    onChain (p.erase a) query n cursor = true ∨ ∃ m ≤ n, p.onChain query m (some a) = true := by
  induction n generalizing cursor with
  | zero => cases h
  | succ n ih =>
    cases cursor with
    | none => cases h
    | some b =>
      by_cases hb : b = a
      · exact .inr ⟨n + 1, Nat.le_refl _, hb ▸ h⟩
      · have hlink : parentOf (p.erase a) b = p.parentOf b := by rw [parentOf, Table.get?_erase, if_neg hb, parentOf]
        rw [onChain, Bool.or_eq_true] at h
        rw [onChain, Bool.or_eq_true, hlink]
        rcases h with hq | h
        · exact .inl (.inl hq)
        · rcases ih h with h | ⟨m, hm, h⟩
          · exact .inl (.inr h)
          · exact .inr ⟨m, Nat.le_succ_of_le hm, h⟩

theorem onChain_of_erase {query a : Atom} {n : Nat} {cursor : Option Atom} (h : onChain (p.erase a) query n cursor = true) :
    p.onChain query n cursor = true := by
  induction n generalizing cursor with
  | zero => cases h
  | succ n ih =>
    cases cursor with
    | none => cases h
    | some b =>
      rw [onChain, Bool.or_eq_true] at h ⊢
      refine h.imp_right fun h => ?_
      by_cases hb : b = a
      · rw [parentOf, Table.get?_erase, if_pos hb] at h
        cases n <;> cases h
      · rw [parentOf, Table.get?_erase, if_neg hb] at h
        exact ih h

/-- The guard sees all of a chain, however small the table. -/
theorem isAncestor_of_onChain {query : Atom} {n : Nat} {cursor : Option Atom} (h : p.onChain query n cursor = true) :
    p.isAncestor query cursor = true := by
  -- on the number of links: the first of them is not needed again, or the chain comes back and may be cut short
  induction n using Nat.strongRecOn generalizing p cursor with
  | ind n ih =>
    cases n with
    | zero => cases h
    | succ n =>
      cases cursor with
      | none => cases h
      | some a =>
        rw [onChain, Bool.or_eq_true] at h
        rcases h with hq | h
        · rw [isAncestor, onChain, hq, Bool.true_or]
        · rcases onChain_erase a h with herase | ⟨m, hm, hback⟩
          · cases ha : p.get? a with
            | none =>
              rw [parentOf, ha] at h
              cases n <;> cases h
            | some e =>
              have hrest := onChain_of_erase (ih n n.lt_succ_self herase)
              rw [isAncestor, onChain, onChain_mono (Table.size_erase_lt ha) hrest, Bool.or_true]
          · exact ih m (Nat.lt_succ_of_le hm) hback

theorem isAncestor_iff {query : Atom} {cursor : Option Atom} :
    p.isAncestor query cursor = true ↔ ∃ n, p.onChain query n cursor = true :=
  ⟨fun h => ⟨_, h⟩, fun ⟨_, h⟩ => isAncestor_of_onChain h⟩

end QueryNet.PendingTable
