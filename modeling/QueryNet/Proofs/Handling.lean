/-
  QueryNet.Proofs.Handling — outcomes of turns, and what every turn leaves alone.

  A query may be decomposed to any depth: `Handles` says that a turn on a packet has
  an outcome at some depth. More depth keeps an outcome (`solve_mono`), so there is
  at most one (`Handles.unique`). A turn on a request is solving its query
  (`handle_request_iff`), one on a response a delivery (`handles_response`).
  `HandlesAll` takes packets one after another.

  What recording, delivering, sending and noting keep, solving a query keeps
  (`solve_keeps`); it is enough that they keep it for the queries that this one may
  lead to (`solve_keeps_within`). So a query changes nothing of a solver but its
  pending table (`solve_solver`).
-/

import QueryNet.Solver.Turn

namespace QueryNet

def Solver.withPending (s : Solver) (p : PendingTable) : Solver := { s with pending := p }

@[simp] theorem Solver.withPending_routes (s : Solver) (p : PendingTable) : (s.withPending p).routes = s.routes := rfl
@[simp] theorem Solver.withPending_pending (s : Solver) (p : PendingTable) : (s.withPending p).pending = p := rfl
@[simp] theorem Solver.withPending_interfaces (s : Solver) (p : PendingTable) :
    (s.withPending p).interfaces = s.interfaces := rfl
@[simp] theorem Solver.matching_withPending (s : Solver) (p : PendingTable) (q : Atom) :
    (s.withPending p).matching q = s.matching q := rfl

theorem Solver.mem_matching {s : Solver} {q : Atom} {m : Rule × Bindings} :
    m ∈ s.matching q ↔ m.1 ∈ s.rules ∧ m.1.unify q = some m.2 := by
  obtain ⟨r, b⟩ := m
  simp only [matching, List.mem_filterMap, Option.map_eq_some_iff, Prod.mk.injEq]
  constructor
  · rintro ⟨_, hr, _, hb, rfl, rfl⟩; exact ⟨hr, hb⟩
  · rintro ⟨hr, hb⟩; exact ⟨r, hr, b, hb, rfl, rfl⟩

namespace Turn

/-! ## Folds that may fail -/

/-- What each step keeps from where the steps before it got to, a fold keeps. -/
theorem foldlM_keeps_from {α β : Type} {I : β → Prop} {f : β → α → Option β} {l : List α} :
    ∀ {b c : β}, (∀ before a after x y, l = before ++ a :: after → before.foldlM f b = some x → I x →
      f x a = some y → I y) → l.foldlM f b = some c → I b → I c := by
  induction l with
  | nil =>
    intro b c _ h hb
    cases h
    exact hb
  | cons a l ih =>
    intro b c hstep h hb
    rw [List.foldlM_cons] at h
    obtain ⟨d, hd, h⟩ := Option.bind_eq_some_iff.mp h
    refine ih (fun before x after y z hl hy => ?_) h (hstep [] a l b d rfl rfl hb hd)
    refine hstep (a :: before) x after y z (congrArg (List.cons a) hl) ?_
    rw [List.foldlM_cons, hd]
    exact hy

theorem foldlM_keeps {α β : Type} {I : β → Prop} {f : β → α → Option β} {l : List α}
    (hf : ∀ a ∈ l, ∀ b b', f b a = some b' → I b → I b') {b b' : β} (h : l.foldlM f b = some b') (hb : I b) : I b' :=
  foldlM_keeps_from (l := l) (fun _ a _ x y hl _ hx hy => hf a (hl ▸ List.mem_append_cons_self) x y hy hx) h hb

theorem foldlM_split {α β : Type} {f : β → α → Option β} {before after : List α} {a : α} {b c : β}
    (h : (before ++ a :: after).foldlM f b = some c) :
    ∃ x y, before.foldlM f b = some x ∧ f x a = some y ∧ after.foldlM f y = some c := by
  rw [List.foldlM_append] at h
  obtain ⟨x, hx, h⟩ := Option.bind_eq_some_iff.mp h
  rw [List.foldlM_cons] at h
  obtain ⟨y, hy, h⟩ := Option.bind_eq_some_iff.mp h
  exact ⟨x, y, hx, hy, h⟩

theorem foldlM_some {α β : Type} {I : β → Prop} {f : β → α → Option β} {l : List α}
    (hf : ∀ a ∈ l, ∀ b, I b → ∃ b', f b a = some b' ∧ I b') :
    ∀ {b : β}, I b → ∃ b', l.foldlM f b = some b' ∧ I b' := by
  induction l with
  | nil => intro b hb; exact ⟨b, rfl, hb⟩
  | cons a l ih =>
    intro b hb
    obtain ⟨c, hc, hIc⟩ := hf a (List.mem_cons_self ..) b hb
    rw [List.foldlM_cons, hc]
    exact ih (fun x hx => hf x (List.mem_cons_of_mem _ hx)) hIc

theorem foldlM_mono {α β : Type} {f g : β → α → Option β} (hfg : ∀ b a c, f b a = some c → g b a = some c) :
    ∀ (l : List α) {b c : β}, l.foldlM f b = some c → l.foldlM g b = some c := by
  intro l
  induction l with
  | nil => intro b c h; exact h
  | cons a l ih =>
    intro b c h
    rw [List.foldlM_cons] at h ⊢
    obtain ⟨d, hd, h⟩ := Option.bind_eq_some_iff.mp h
    rw [hfg b a d hd]
    exact ih h

/-! ## More depth keeps an outcome -/

theorem expand_mono {f g : Atom → Turn → Option Turn} (hfg : ∀ a t t', f a t = some t' → g a t = some t')
    {origin : Option NodeId} {parent : Option Atom} {query : Atom} {t t' : Turn} {m : Rule × Bindings}
    (h : expand f origin parent query t m = some t') : expand g origin parent query t m = some t' := by
  simp only [expand] at h ⊢
  split at h
  · rename_i hs; rw [if_pos hs]; exact h
  · rename_i hs; rw [if_neg hs]; exact foldlM_mono (fun t a c => hfg a t c) _ h

theorem solve_succ (depth : Nat) : ∀ {origin : Option NodeId} {parent : Option Atom} {query : Atom} {t : Turn}
    {r : Forwarding × Turn}, solve depth origin parent query t = some r →
      solve (depth + 1) origin parent query t = some r := by
  induction depth with
  | zero => intro _ _ _ _ _ h; cases h
  | succ depth ih =>
    intro origin parent query t r h
    rw [solve] at h ⊢
    split at h
    · rename_i hc; rw [if_pos hc]; exact h
    · rename_i hc
      rw [if_neg hc]
      split at h
      · exact h
      · obtain ⟨t', ht, rfl⟩ := Option.map_eq_some_iff.mp h
        refine Option.map_eq_some_iff.mpr ⟨t', foldlM_mono (fun b m c => expand_mono fun g t t' hg => ?_) _ ht, rfl⟩
        obtain ⟨r, hr, rfl⟩ := Option.map_eq_some_iff.mp hg
        exact Option.map_eq_some_iff.mpr ⟨r, ih hr, rfl⟩

theorem solve_mono {depth depth' : Nat} (hle : depth ≤ depth') {origin : Option NodeId} {parent : Option Atom}
    {query : Atom} {t : Turn} {r : Forwarding × Turn} (h : solve depth origin parent query t = some r) :
    solve depth' origin parent query t = some r := by
  induction hle with
  | refl => exact h
  | step _ ih => exact solve_succ _ ih

theorem take_mono {depth depth' : Nat} (hle : depth ≤ depth') {t u : Turn} {sender : NodeId} {p : Packet}
    (h : take depth t sender p = some u) : take depth' t sender p = some u := by
  unfold take at h ⊢
  cases hk : p.kind with
  | request =>
    simp only [hk] at h ⊢
    obtain ⟨r, hr, rfl⟩ := Option.map_eq_some_iff.mp h
    exact Option.map_eq_some_iff.mpr ⟨r, solve_mono hle hr, rfl⟩
  | response => simpa only [hk] using h
  | routeAnnounce => simpa only [hk] using h

/-! ## What solving a query keeps -/

section
variable {I : Turn → Prop} {C : Atom → Prop}
  (hrecord : ∀ t e, I t → C e.query → (∀ a, e.parent = some a → C a) → I (t.record e))
  (hdeliver : ∀ t q b, I t → C q → I (t.deliver q b q).2) (hsend : ∀ t n q, I t → C q → I (t.send ⟨n, .request q⟩))
  (hnote : ∀ t a, I t → I (t.note (.queryUnrouted a)))

include hrecord hsend hnote in
theorem forward_keeps_within (origin : Option NodeId) {parent : Option Atom} {query : Atom} {t : Turn} (hquery : C query)
    (hparent : ∀ a, parent = some a → C a) (h : I t) : I (t.forward origin parent query).2 := by
  have hI := hrecord t ⟨query, parent, [], ∅, none, none, origin⟩ h hquery hparent
  unfold forward
  split
  · split
    · exact hsend _ _ _ hI hquery
    · exact hnote _ _ hI
  · exact hnote _ _ hI

include hrecord hdeliver hsend hnote in
/-- Among queries that are only decomposed into each other, solving keeps what each step for one of them keeps. -/
theorem solve_keeps_within (hsub : ∀ t q, I t → C q → ∀ m ∈ t.solver.matching q, ∀ g ∈ m.1.subgoals, C g) (depth : Nat) :
    ∀ {origin : Option NodeId} {parent : Option Atom} {query : Atom} {t t' : Turn} {f : Forwarding},
      solve depth origin parent query t = some (f, t') → C query → (∀ a, parent = some a → C a) → I t → I t' := by
  induction depth with
  | zero => intro _ _ _ _ _ _ h; cases h
  | succ depth ih =>
    intro origin parent query t t' f h hquery hparent ht
    rw [solve] at h
    split at h
    · cases h; exact ht
    · split at h
      · have hf : (t.forward origin parent query).2 = t' := congrArg Prod.snd (Option.some.inj h)
        exact hf ▸ forward_keeps_within hrecord hsend hnote origin hquery hparent ht
      · obtain ⟨u, hu, he⟩ := Option.map_eq_some_iff.mp h
        cases he
        refine foldlM_keeps (fun m hm b b' hb hI => ?_) hu ht
        have hI := hrecord b ⟨query, parent, m.1.subgoals.eraseDups, ∅, m.1.composition, some m.2, origin⟩ hI hquery hparent
        simp only [expand] at hb
        split at hb
        · cases hb; exact hdeliver _ _ _ hI hquery
        · refine foldlM_keeps (fun g hg c c' hc hI => ?_) hb hI
          obtain ⟨r, hr, rfl⟩ := Option.map_eq_some_iff.mp hc
          exact ih hr (hsub t query ht hquery m hm g hg) (fun a ha => Option.some.inj ha ▸ hquery) hI

end

theorem solve_keeps {I : Turn → Prop} (hrecord : ∀ t e, I t → I (t.record e))
    (hdeliver : ∀ t q b x, I t → I (t.deliver q b x).2) (hsend : ∀ t n q, I t → I (t.send ⟨n, .request q⟩))
    (hnote : ∀ t a, I t → I (t.note (.queryUnrouted a))) (depth : Nat) {origin : Option NodeId} {parent : Option Atom}
    {query : Atom} {t t' : Turn} {f : Forwarding} (h : solve depth origin parent query t = some (f, t')) (ht : I t) : I t' :=
  solve_keeps_within (C := fun _ => True) (fun t e hI _ _ => hrecord t e hI) (fun t q b hI _ => hdeliver t q b q hI)
    (fun t n q hI _ => hsend t n q hI) hnote (fun _ _ _ _ _ _ _ _ => trivial) depth h trivial (fun _ _ => trivial) ht

/-- Solving a query changes nothing of the solver but its pending table. -/
theorem solve_solver {depth : Nat} {origin : Option NodeId} {parent : Option Atom} {query : Atom} {t t' : Turn}
    {f : Forwarding} (h : solve depth origin parent query t = some (f, t')) :
    t'.solver = t.solver.withPending t'.solver.pending :=
  solve_keeps (I := fun u => u.solver = t.solver.withPending u.solver.pending)
    (fun _ _ hu => by rw [record, setPending, hu]; rfl) (fun _ _ _ _ hu => by simp only [deliver, setPending]; rw [hu]; rfl)
    (fun _ _ _ hu => hu) (fun _ _ hu => hu) depth h rfl

/-- A response without bindings does nothing; any other one is a delivery. -/
theorem respond_cases (t : Turn) (p : Packet) :
    (p.result = none ∧ t.respond p = t) ∨
      ∃ b, p.result = some b ∧
        (t.respond p).solver = t.solver.withPending (t.solver.pending.deliver p.query b p.query).pending ∧
          (t.respond p).out = t.out ++ (t.solver.pending.deliver p.query b p.query).reply.toList := by
  unfold respond
  cases p.result with
  | none => exact .inl ⟨rfl, rfl⟩
  | some b =>
    refine .inr ⟨b, rfl, ?_⟩
    dsimp only
    split
    · rename_i u hu
      obtain ⟨-, rfl⟩ := Prod.mk.inj hu
      exact ⟨rfl, rfl⟩
    · rename_i u hu
      obtain ⟨-, rfl⟩ := Prod.mk.inj hu
      exact ⟨rfl, rfl⟩

end Turn

namespace Solver

/-! ## Packets -/

/-- A turn on a packet has the outcome `t`, at some depth. -/
def Handles (s : Solver) (sender : NodeId) (p : Packet) (t : Turn) : Prop := ∃ depth, s.handle depth sender p = some t

/-- A turn on a request is solving its query. -/
theorem handle_request_iff {depth : Nat} {s : Solver} {sender : NodeId} {p : Packet} {t : Turn} (hk : p.kind = .request) :
    s.handle depth sender p = some t ↔
      ∃ r, ((Turn.begin s).note (.packetReceived s.id .request)).solve depth (some sender) none p.query = some r ∧
        r.2.note (.pendingRequests s.id r.2.solver.pending.size) = t := by
  simp only [handle, Turn.take, hk, Option.map_map, Option.map_eq_some_iff, Function.comp_apply]

theorem handle_mono {depth depth' : Nat} (hle : depth ≤ depth') {s : Solver} {sender : NodeId} {p : Packet} {t : Turn}
    (h : s.handle depth sender p = some t) : s.handle depth' sender p = some t := by
  obtain ⟨u, hu, rfl⟩ := Option.map_eq_some_iff.mp h
  exact Option.map_eq_some_iff.mpr ⟨u, Turn.take_mono hle hu, rfl⟩

theorem Handles.unique {s : Solver} {sender : NodeId} {p : Packet} {t u : Turn} (ht : s.Handles sender p t)
    (hu : s.Handles sender p u) : t = u := by
  obtain ⟨d, hd⟩ := ht
  obtain ⟨e, he⟩ := hu
  have h₁ := handle_mono (Nat.le_max_left d e) hd
  have h₂ := handle_mono (Nat.le_max_right d e) he
  rw [h₁] at h₂
  exact Option.some.inj h₂

/-- A turn on a response without bindings does nothing; on any other it is a delivery. -/
theorem handles_response (s : Solver) (sender : NodeId) {p : Packet} (hk : p.kind = .response) :
    ∃ t, s.Handles sender p t ∧
      ((p.result = none ∧ t.solver = s ∧ t.out = []) ∨
        ∃ b, p.result = some b ∧ t.solver = s.withPending (s.pending.deliver p.query b p.query).pending ∧
          t.out = (s.pending.deliver p.query b p.query).reply.toList) := by
  have htake : ∀ u, Turn.take 0 u sender p = some (u.respond p) := fun u => by rw [Turn.take, hk]
  refine ⟨_, ⟨0, congrArg (Option.map _) (htake _)⟩, ?_⟩
  rcases Turn.respond_cases ((Turn.begin s).note (.packetReceived s.id p.kind)) p with ⟨hnone, h⟩ | ⟨b, hb, hsolver, hout⟩
  · rw [h]
    exact .inl ⟨hnone, rfl, rfl⟩
  · exact .inr ⟨b, hb, hsolver, hout⟩

/-- Packets handled one after another, with what the solver sends at each and its state at the end. -/
inductive HandlesAll : Solver → List (NodeId × Packet) → List (List Outbound) → Solver → Prop
  | nil (s : Solver) : HandlesAll s [] [] s
  | cons {s s' : Solver} {p : NodeId × Packet} {ps : List (NodeId × Packet)} {t : Turn} {outs : List (List Outbound)} :
      s.Handles p.1 p.2 t → HandlesAll t.solver ps outs s' → HandlesAll s (p :: ps) (t.out :: outs) s'

theorem HandlesAll.unique {s s' t' : Solver} {ps : List (NodeId × Packet)} {outs outs' : List (List Outbound)}
    (h : s.HandlesAll ps outs s') (h' : s.HandlesAll ps outs' t') : outs = outs' ∧ s' = t' := by
  induction h generalizing outs' with
  | nil => cases h'; exact ⟨rfl, rfl⟩
  | cons ht _ ih =>
    cases h' with
    | cons ht' hrest =>
      obtain rfl := ht.unique ht'
      obtain ⟨rfl, rfl⟩ := ih hrest
      exact ⟨rfl, rfl⟩

theorem HandlesAll.singleton {s s' : Solver} {p : NodeId × Packet} {outs : List (List Outbound)}
    (h : s.HandlesAll [p] outs s') : ∃ t, s.Handles p.1 p.2 t ∧ outs = [t.out] := by
  cases h with
  | cons ht hrest =>
    cases hrest
    exact ⟨_, ht, rfl⟩

end Solver

end QueryNet
