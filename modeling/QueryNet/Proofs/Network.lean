/-
  QueryNet.Proofs.Network — what setting up does to the solvers of a network.

  With one solver for each name (`Named`), a solver that is put back under its number
  is found under its name, and no other name is concerned (`solver?_setSolver`).

  Proved: every call that sets something up, whether it succeeds or fails, goes
  through steps that leave the solvers alone or change one that keeps its name, its
  routes and its interfaces (`Alters`); attaching a source also sets a direct route
  through the new interface (`attachSource_ok`).
-/

import Mathlib.Logic.Relation
import QueryNet.Network
import QueryNet.Proofs.Table

namespace QueryNet

namespace Solver

def roleOf (s : Solver) (neighbor : NodeId) : Option Role := (s.interfaces.get? neighbor).map (·.role)

theorem mem_peersExcept {s : Solver} {except : List NodeId} {b : NodeId} (h : b ∈ s.peersExcept except) :
    s.roleOf b = some .solverPeer := by
  obtain ⟨e, he, rfl⟩ := List.mem_map.mp h
  obtain ⟨hmem, hp⟩ := List.mem_filter.mp he
  rw [roleOf, Table.mem_entries_iff.mp hmem, Option.map_some, (of_decide_eq_true hp).1]

/-- Nothing of what others know of the solver is taken back. -/
structure Grown (s s' : Solver) : Prop where
  id : s'.id = s.id
  routes : s'.routes = s.routes
  interfaces : ∀ {b i}, s.interfaces.get? b = some i → s'.interfaces.get? b = some i

theorem Grown.roleOf {s s' : Solver} (h : s.Grown s') {b : NodeId} {role : Role} (hb : s.roleOf b = some role) :
    s'.roleOf b = some role := by
  obtain ⟨i, hi, hr⟩ := Option.map_eq_some_iff.mp hb
  rw [Solver.roleOf, h.interfaces hi, Option.map_some, hr]

theorem attach_ok {s s' : Solver} {role : Role} {e : Endpoint} (h : s.attach role e = .ok s') :
    s.Grown s' ∧ s'.roleOf e.peer = some role := by
  unfold attach at h
  split at h
  · cases h
  · split at h
    · cases h
    · rename_i hnew
      cases h
      refine ⟨⟨rfl, rfl, fun {b i} hb => ?_⟩, ?_⟩
      · have hne : b ≠ e.peer := fun he => hnew (by rw [Table.contains, ← he, hb]; rfl)
        rw [Table.get?_insert, if_neg hne]
        exact hb
      · rw [Solver.roleOf, Table.get?_insert_self]
        rfl

end Solver

namespace Network

variable {n n' n'' : Network} {a b : NodeId} {k : SolverId} {s s' : Solver}

/-! ## Names -/

/-- Each solver has a name of its own, and each name stands for a solver with it. -/
structure Named (n : Network) : Prop where
  id_of : ∀ {a k}, n.names.get? a = some k → ∃ s, n.solvers[k]? = some s ∧ s.id = a
  name_of : ∀ {k s}, n.solvers[k]? = some s → n.names.get? s.id = some k

theorem lookup_eq_some : n.lookup a = some (k, s) ↔ n.names.get? a = some k ∧ n.solvers[k]? = some s := by
  simp only [lookup, Option.bind_eq_some_iff, Option.map_eq_some_iff, Prod.mk.injEq]
  constructor
  · rintro ⟨j, hj, s₁, hs, rfl, rfl⟩; exact ⟨hj, hs⟩
  · rintro ⟨hk, hs⟩; exact ⟨k, hk, s, hs, rfl, rfl⟩

theorem solver?_eq_some : n.solver? a = some s ↔ ∃ k, n.lookup a = some (k, s) := by
  simp only [solver?, Option.map_eq_some_iff]
  constructor
  · rintro ⟨⟨k, s₁⟩, h, rfl⟩; exact ⟨k, h⟩
  · rintro ⟨k, h⟩; exact ⟨(k, s), h, rfl⟩

theorem Named.id_eq (h : n.Named) (hs : n.solver? a = some s) : s.id = a := by
  obtain ⟨k, hk⟩ := solver?_eq_some.mp hs
  obtain ⟨hname, hget⟩ := lookup_eq_some.mp hk
  obtain ⟨s₁, hs₁, hid⟩ := h.id_of hname
  rw [hget] at hs₁
  cases hs₁
  exact hid

theorem Named.lt_length (hs : n.lookup a = some (k, s)) : k < n.solvers.length :=
  (List.getElem?_eq_some_iff.mp (lookup_eq_some.mp hs).2).1

/-- A solver that is put back is found under its name, and the others as before. -/
theorem Named.solver?_setSolver (h : n.Named) (hs : n.lookup a = some (k, s)) (s' : Solver) (b : NodeId) :
    (n.setSolver k s').solver? b = if b = a then some s' else n.solver? b := by
  obtain ⟨hname, hget⟩ := lookup_eq_some.mp hs
  have hlt := Named.lt_length hs
  by_cases hb : b = a
  · subst hb
    rw [if_pos rfl]
    refine solver?_eq_some.mpr ⟨k, lookup_eq_some.mpr ⟨hname, ?_⟩⟩
    show (n.solvers.set k s')[k]? = some s'
    rw [List.getElem?_set_self hlt]
  · rw [if_neg hb]
    unfold solver? lookup setSolver
    cases hj : n.names.get? b with
    | none => rfl
    | some j =>
      have hkj : k ≠ j := by
        rintro rfl
        obtain ⟨s₁, hs₁, hid⟩ := h.id_of hj
        obtain ⟨s₂, hs₂, hid'⟩ := h.id_of hname
        rw [hs₁] at hs₂
        cases hs₂
        exact hb (hid.symm.trans hid')
      simp only [Option.bind_some, List.getElem?_set_ne hkj]

theorem Named.setSolver (h : n.Named) (hs : n.lookup a = some (k, s)) (hid : s'.id = s.id) : (n.setSolver k s').Named := by
  obtain ⟨hname, hget⟩ := lookup_eq_some.mp hs
  have hlt := Named.lt_length hs
  refine ⟨fun {b j} hj => ?_, fun {j s₁} hj => ?_⟩
  · obtain ⟨s₁, hs₁, hb⟩ := h.id_of hj
    by_cases hkj : k = j
    · subst hkj
      rw [hget] at hs₁
      cases hs₁
      exact ⟨s', List.getElem?_set_self hlt, hid.trans hb⟩
    · exact ⟨s₁, (List.getElem?_set_ne hkj).trans hs₁, hb⟩
  · have hj : (n.solvers.set k s')[j]? = some s₁ := hj
    by_cases hkj : k = j
    · subst hkj
      rw [List.getElem?_set_self hlt] at hj
      cases hj
      rw [hid]
      exact h.name_of hget
    · rw [List.getElem?_set_ne hkj] at hj
      exact h.name_of hj

/-! ## Networks with the same solvers -/

structure Same (n n' : Network) : Prop where
  solvers : n'.solvers = n.solvers
  names : n'.names = n.names

theorem Same.refl (n : Network) : Same n n := ⟨rfl, rfl⟩

theorem Same.trans (h : Same n n') (h' : Same n' n'') : Same n n'' :=
  ⟨h'.solvers.trans h.solvers, h'.names.trans h.names⟩

theorem Same.lookup (h : Same n n') (a : NodeId) : n'.lookup a = n.lookup a := by
  unfold Network.lookup
  rw [h.solvers, h.names]

theorem Same.solver? (h : Same n n') (a : NodeId) : n'.solver? a = n.solver? a := by
  unfold Network.solver?
  rw [h.lookup]

theorem Same.named (h : Same n n') (hn : n.Named) : n'.Named := by
  obtain ⟨hid, hname⟩ := hn
  rw [← h.solvers, ← h.names] at *
  exact ⟨hid, hname⟩

theorem same_offerOne (n : Network) (s : Solver) (o : Outbound) : Same n (n.offerOne s o).1 := by
  unfold offerOne
  split
  · exact .refl n
  · split
    · exact ⟨rfl, rfl⟩
    · exact .refl n
    · exact .refl n

theorem same_offer (n : Network) (s : Solver) (out : List Outbound) : Same n (n.offer s out).1 := by
  show Same n (offerEach s out n).1
  induction out generalizing n with
  | nil => exact .refl n
  | cons o out ih => exact (same_offerOne n s o).trans (ih _)

/-! ## Calls that set something up -/

inductive Touches : Network → Network → Prop
  | same {n n' : Network} : Same n n' → Touches n n'
  | grow {n : Network} {a : NodeId} {k : SolverId} {s s' : Solver} : n.lookup a = some (k, s) → s.Grown s' →
      Touches n (n.setSolver k s')

abbrev Alters : Network → Network → Prop := Relation.ReflTransGen Touches

theorem Same.alters (h : Same n n') : Alters n n' := .single (.same h)

theorem Alters.length_eq (h : Alters n n') : n'.solvers.length = n.solvers.length := by
  induction h with
  | refl => rfl
  | tail _ htouch ih =>
    cases htouch with
    | same hsame => rw [hsame.solvers, ih]
    | grow => exact List.length_set.trans ih

theorem Alters.named (h : Alters n n') (hn : n.Named) : n'.Named := by
  induction h with
  | refl => exact hn
  | tail _ htouch ih =>
    cases htouch with
    | same hsame => exact hsame.named ih
    | grow hs hg => exact ih.setSolver hs hg.id

theorem same_dropEnd (n : Network) (e : Endpoint) : Same n (n.dropEnd e) := ⟨rfl, rfl⟩

theorem lookup_setSolver (hs : n.lookup a = some (k, s)) (s' : Solver) :
    (n.setSolver k s').lookup a = some (k, s') := by
  obtain ⟨hname, -⟩ := lookup_eq_some.mp hs
  exact lookup_eq_some.mpr ⟨hname, List.getElem?_set_self (Named.lt_length hs)⟩

theorem onSolver_cases {α : Type} (n : Network) (a : NodeId) (f : Solver → Except SetupError (α × Solver)) :
    (∃ err, n.onSolver a f = ⟨n, [], .error err⟩) ∨
    ∃ k s v s', n.lookup a = some (k, s) ∧ f s = .ok (v, s') ∧ n.onSolver a f = ⟨n.setSolver k s', [], .ok v⟩ := by
  unfold onSolver
  cases hl : n.lookup a with
  | none => exact .inl ⟨_, rfl⟩
  | some ks =>
    obtain ⟨k, s⟩ := ks
    cases hf : f s with
    | error err => exact .inl ⟨err, by simp only [hf]⟩
    | ok vs => exact .inr ⟨k, s, vs.1, vs.2, rfl, hf, by simp only [hf]⟩

theorem alters_onSolver {α : Type} {f : Solver → Except SetupError (α × Solver)}
    (hf : ∀ s v s', f s = .ok (v, s') → s.Grown s') (n : Network) (a : NodeId) : Alters n (n.onSolver a f).network := by
  rcases onSolver_cases n a f with ⟨err, h⟩ | ⟨k, s, v, s', hs, hv, h⟩
  · rw [h]
  · rw [h]
    exact .single (.grow hs (hf s v s' hv))

theorem map_attach_ok {s s' : Solver} {role : Role} {e : Endpoint} {v : Unit}
    (h : (s.attach role e).map ((), ·) = .ok (v, s')) : s.attach role e = .ok s' := by
  cases hs : s.attach role e with
  | error err => rw [hs] at h; cases h
  | ok s₁ => rw [hs] at h; cases h; rfl

theorem alters_attachEnd (n : Network) (a : NodeId) (role : Role) (e : Endpoint) :
    Alters n (n.attachEnd a role e).network := by
  have h : Alters n (n.onSolver a fun s => (s.attach role e).map ((), ·)).network :=
    alters_onSolver (fun s v s' hv => (Solver.attach_ok (map_attach_ok hv)).1) n a
  unfold attachEnd
  dsimp only
  split
  · exact h
  · exact h.trans (same_dropEnd _ e).alters

theorem attachEnd_ok {role : Role} {e : Endpoint} {u : Unit} (h : (n.attachEnd a role e).result = .ok u) :
    ∃ k s, (n.attachEnd a role e).network.lookup a = some (k, s) ∧ s.roleOf e.peer = some role := by
  rcases onSolver_cases n a fun s => (s.attach role e).map ((), ·) with ⟨err, he⟩ | ⟨k, s, v, s', hs, hv, he⟩
  · simp only [attachEnd, he] at h
    cases h
  · simp only [attachEnd, he]
    exact ⟨k, s', lookup_setSolver hs s', (Solver.attach_ok (map_attach_ok hv)).2⟩

theorem alters_attach (n : Network) (a peer : NodeId) (role : Role) (capacity : Nat) :
    Alters n (n.attach a peer role capacity).network := by
  have hlink : Same n (n.link a peer capacity).2.2 := ⟨rfl, rfl⟩
  have h := hlink.alters.trans (alters_attachEnd (n.link a peer capacity).2.2 a role (n.link a peer capacity).1)
  unfold attach
  dsimp only
  split
  · exact h
  · exact h.trans (same_dropEnd _ _).alters

theorem attach_ok {peer : NodeId} {role : Role} {capacity : Nat} {far : Endpoint}
    (h : (n.attach a peer role capacity).result = .ok far) :
    ∃ k s, (n.attach a peer role capacity).network.lookup a = some (k, s) ∧ s.roleOf peer = some role := by
  unfold attach at h ⊢
  dsimp only at h ⊢
  split at h
  · rename_i hok
    exact attachEnd_ok hok
  · cases h

theorem alters_attachRequest (n : Network) (a requester : NodeId) : Alters n (n.attachRequest a requester).network :=
  alters_attach n a requester .leaf _

theorem alters_connect (n : Network) (a b : NodeId) : Alters n (n.connect a b).network := by
  unfold connect
  dsimp only
  have hlink : Same n (n.link a b (max (n.capacityOf a) (n.capacityOf b))).2.2 := ⟨rfl, rfl⟩
  have h := hlink.alters.trans (alters_attachEnd (n.link a b (max (n.capacityOf a) (n.capacityOf b))).2.2 a .solverPeer
    (n.link a b (max (n.capacityOf a) (n.capacityOf b))).1)
  split
  · exact h.trans (same_dropEnd _ _).alters
  · exact h.trans (alters_attachEnd _ _ _ _)

theorem alters_addRule (n : Network) (a : NodeId) (text : String) : Alters n (n.addRule a text).network :=
  alters_onSolver (fun s v s' hv => by
    unfold Solver.addRule at hv
    split at hv
    · cases hv; exact ⟨rfl, rfl, fun h => h⟩
    · cases hv) n a

theorem alters_start (n : Network) (a : NodeId) : Alters n (n.start a).network := by
  unfold start
  split
  · exact .refl
  · rename_i k s hs
    split
    · exact .refl
    · rename_i receivers s' hstart
      have hgrown : s.Grown s' := by
        unfold Solver.start at hstart
        split at hstart
        · cases hstart
        · cases hstart; exact ⟨rfl, rfl, fun h => h⟩
      have h : Alters n (n.setSolver k s') := .single (.grow hs hgrown)
      exact h.tail (.same ⟨rfl, rfl⟩)

/-- A source that was attached is a leaf, and the route for its key is the direct one. -/
theorem attachSource_ok {source : NodeId} {key : String} {far : Endpoint}
    (h : (n.attachSource a source key).result = .ok far) :
    ∃ n₁ k s, Alters n n₁ ∧ n₁.lookup a = some (k, s) ∧ s.roleOf source = some .leaf ∧
      Same (n₁.setSolver k { s with routes := s.routes.insertDirect key source }) (n.attachSource a source key).network := by
  have halters := alters_attach n a source .leaf (n.capacityOf a)
  unfold attachSource at h ⊢
  dsimp only at h ⊢
  split at h
  · rename_i k s hok hs
    obtain ⟨k', s', hs', hr⟩ := attach_ok hok
    rw [hs] at hs'
    cases hs'
    exact ⟨_, k, s, halters, hs, hr, same_offer _ _ _⟩
  · rename_i hne
    obtain ⟨k, s, hs, -⟩ := attach_ok h
    exact (hne _ _ _ h hs).elim

theorem attachSource_error {source : NodeId} {key : String} {err : SetupError}
    (h : (n.attachSource a source key).result = .error err) : Alters n (n.attachSource a source key).network := by
  have halters := alters_attach n a source .leaf (n.capacityOf a)
  unfold attachSource at h ⊢
  dsimp only at h ⊢
  split at h
  · rename_i k s hok hs
    rw [hok] at h
    cases h
  · exact halters

theorem Named.names_eq_none (hn : n.Named) (ha : n.lookup a = none) : n.names.get? a = none := by
  cases hk : n.names.get? a with
  | none => rfl
  | some k =>
    obtain ⟨s, hs, -⟩ := hn.id_of hk
    rw [lookup_eq_some.mpr ⟨hk, hs⟩] at ha
    cases ha

theorem addSolver_eq (ha : n.lookup a = none) (config : SolverConfig) :
    n.addSolver a config =
      { n with solvers := n.solvers ++ [.create a config], names := n.names.insert a n.solvers.length } := by
  have hs : n.solver? a = none := by rw [solver?, ha]; rfl
  rw [addSolver, hs]
  rfl

/-- A solver with a new name is added to the others. -/
theorem Named.solver?_addSolver (hn : n.Named) (ha : n.lookup a = none) (config : SolverConfig) (b : NodeId) :
    (n.addSolver a config).solver? b = if b = a then some (.create a config) else n.solver? b := by
  rw [addSolver_eq ha]
  by_cases hb : b = a
  · subst hb
    rw [if_pos rfl]
    exact solver?_eq_some.mpr ⟨n.solvers.length, lookup_eq_some.mpr ⟨Table.get?_insert_self .., List.getElem?_concat_length⟩⟩
  · rw [if_neg hb]
    unfold solver? lookup
    simp only [Table.get?_insert, if_neg hb]
    cases hk : n.names.get? b with
    | none => rfl
    | some k =>
      obtain ⟨s, hs, -⟩ := hn.id_of hk
      have hlt := (List.getElem?_eq_some_iff.mp hs).1
      simp only [Option.bind_some, List.getElem?_append_left hlt]

theorem Named.addSolver (hn : n.Named) (ha : n.lookup a = none) (config : SolverConfig) : (n.addSolver a config).Named := by
  have hnone := hn.names_eq_none ha
  rw [addSolver_eq ha]
  refine ⟨fun {b k} hk => ?_, fun {k s} hk => ?_⟩
  · rw [Table.get?_insert] at hk
    by_cases hb : b = a
    · rw [if_pos hb] at hk
      cases hk
      exact ⟨_, List.getElem?_concat_length, hb.symm⟩
    · rw [if_neg hb] at hk
      obtain ⟨s, hs, hid⟩ := hn.id_of hk
      exact ⟨s, (List.getElem?_append_left (List.getElem?_eq_some_iff.mp hs).1).trans hs, hid⟩
  · have hk : (n.solvers ++ [Solver.create a config])[k]? = some s := hk
    rw [Table.get?_insert]
    rcases Nat.lt_or_ge k n.solvers.length with hlt | hge
    · have hs : n.solvers[k]? = some s := (List.getElem?_append_left hlt).symm.trans hk
      have hname := hn.name_of hs
      have hne : s.id ≠ a := fun h => by rw [h, hnone] at hname; cases hname
      rw [if_neg hne, hname]
    · have hlt := (List.getElem?_eq_some_iff.mp hk).1
      simp only [List.length_append, List.length_singleton] at hlt
      obtain rfl : k = n.solvers.length := Nat.le_antisymm (Nat.le_of_lt_succ hlt) hge
      obtain rfl := Option.some.inj (List.getElem?_concat_length.symm.trans hk)
      exact if_pos rfl

end Network

end QueryNet
