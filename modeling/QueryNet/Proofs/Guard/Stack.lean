/-
  QueryNet.Proofs.Guard.Stack — the guard and the recursion of a turn.

  If every rule has a subgoal, no rule answers at once: a turn on a request only
  records entries, and takes none out. So nothing is settled, and the entries of the
  queries that are being decomposed stay linked as the recursion goes (`Held`), however
  often the calls below write other entries over older ones.

  `Call` is one call of `solve` with the queries above it, and `Makes` leads from a call
  to those it makes: for each rule that matches, in turn, for each subgoal, in turn, each
  on the outcome of the one before.

  Proved: the guard leaves a query alone exactly if it is one of those being decomposed
  above it, whatever the table held before, and every subgoal that an entry of the turn
  waits for has an entry in the end (`guard_exact`).
-/

import QueryNet.Proofs.Course

namespace QueryNet

/-! ## Calls -/

structure Call where
  depth : Nat
  origin : Option NodeId
  path : Path
  query : Atom
  turn : Turn

namespace Turn

def sub (depth : Nat) (query g : Atom) (t : Turn) : Option Turn := (t.solve depth none (some query) g).map (·.2)

end Turn

namespace Call

def top (depth : Nat) (s : Solver) (sender : NodeId) (p : Packet) : Call :=
  ⟨depth, some sender, [], p.query, (Turn.begin s).note (.packetReceived s.id p.kind)⟩

def parent (c : Call) : Option Atom := c.path.parent none

def outcome (c : Call) : Option (Forwarding × Turn) := c.turn.solve c.depth c.origin c.parent c.query

/-- The guard leaves the query alone. -/
def Rejected (c : Call) : Prop := c.turn.solver.pending.isAncestor c.query c.parent = true

/-- A call makes another one for a subgoal: after the rules before, and the subgoals before. -/
inductive Makes : Call → Call → Prop
  | intro {depth : Nat} {origin : Option NodeId} {path : Path} {a g : Atom} {t u v : Turn} {m : Rule × Bindings}
      {before after : List (Rule × Bindings)} {gs hs : List Atom} :
      ¬ Rejected ⟨depth + 1, origin, path, a, t⟩ → t.solver.matching a = before ++ m :: after →
      before.foldlM (Turn.expand (Turn.sub depth a) origin (path.parent none) a) t = some u →
      m.1.subgoals = gs ++ g :: hs →
      gs.foldlM (fun v b => Turn.sub depth a b v) (u.record (.matched m a (path.parent none) origin)) = some v →
      Makes ⟨depth + 1, origin, path, a, t⟩ ⟨depth, none, ⟨a, m.1.subgoals⟩ :: path, g, v⟩

/-- The calls below a call, itself among them. -/
def Reaches : Call → Call → Prop := Relation.ReflTransGen Makes

def Records (c : Call) (e : PendingRequest) : Prop :=
  ¬ c.Rejected ∧ ((c.turn.solver.matching c.query = [] ∧ e = .unmatched c.query c.parent c.origin) ∨
    ∃ m ∈ c.turn.solver.matching c.query, e = .matched m c.query c.parent c.origin)

end Call

namespace Turn

/-! ## What is added -/

structure Adds (R : PendingRequest → Prop) (t u : Turn) : Prop where
  rules : u.solver.rules = t.solver.rules
  kept : ∀ a, t.solver.pending.get? a ≠ none → u.solver.pending.get? a ≠ none
  added : ∀ a e, u.solver.pending.get? a = some e → t.solver.pending.get? a = some e ∨ (R e ∧ e.query = a)

abbrev Retains : Turn → Turn → Prop := Adds fun _ => True

variable {R R' : PendingRequest → Prop} {t u v : Turn}

theorem Adds.refl (R : PendingRequest → Prop) (t : Turn) : Adds R t t := ⟨rfl, fun _ h => h, fun _ _ h => .inl h⟩

theorem Adds.trans (h : Adds R t u) (h' : Adds R u v) : Adds R t v where
  rules := h'.rules.trans h.rules
  kept a ha := h'.kept a (h.kept a ha)
  added a e he := (h'.added a e he).elim (h.added a e) .inr

theorem Adds.imp (h : Adds R t u) (hR : ∀ e, R e → R' e) : Adds R' t u where
  rules := h.rules
  kept := h.kept
  added a e he := (h.added a e he).imp_right fun h => ⟨hR e h.1, h.2⟩

theorem adds_record {e : PendingRequest} (he : R e) : Adds R t (t.record e) := by
  have hget : ∀ a, (t.record e).solver.pending.get? a = if a = e.query then some e else t.solver.pending.get? a :=
    fun a => Table.get?_insert ..
  refine ⟨rfl, fun a ha => ?_, fun a e' he' => ?_⟩
  · rw [hget]
    split
    · exact Option.some_ne_none e
    · exact ha
  · rw [hget] at he'
    split at he'
    · rename_i ha
      cases he'
      exact .inr ⟨he, ha.symm⟩
    · exact .inl he'

theorem adds_forward {origin : Option NodeId} {parent : Option Atom} {query : Atom}
    (he : R (.unmatched query parent origin)) : Adds R t (t.forward origin parent query).2 := by
  obtain ⟨hrules, hkept, hadded⟩ := adds_record (t := t) he
  obtain ⟨hsolver, -⟩ := forward_eq t origin parent query
  rw [← hsolver] at hrules hkept hadded
  exact ⟨hrules, hkept, hadded⟩

/-! ## One rule -/

/-- The subgoals of a rule are solved one after another, from the entry that it records on. -/
theorem expand_eq {sub : Atom → Turn → Option Turn} {m : Rule × Bindings} (hne : m.1.subgoals ≠ []) (t : Turn)
    (origin : Option NodeId) (parent : Option Atom) (query : Atom) : t.expand sub origin parent query m =
      m.1.subgoals.foldlM (fun v g => sub g v) (t.record (.matched m query parent origin)) := if_neg hne

theorem expand_adds {sub : Atom → Turn → Option Turn} {m : Rule × Bindings} {origin : Option NodeId}
    {parent : Option Atom} {query : Atom} (hne : m.1.subgoals ≠ []) (hR : R (.matched m query parent origin))
    (hsub : ∀ gs g hs v w, m.1.subgoals = gs ++ g :: hs →
      gs.foldlM (fun v b => sub b v) (t.record (.matched m query parent origin)) = some v →
        v.solver.rules = t.solver.rules → sub g v = some w → Adds R v w)
    (h : t.expand sub origin parent query m = some u) : Adds R t u := by
  rw [expand_eq hne] at h
  refine foldlM_keeps_from (I := Adds R t) (fun gs g hs v w hl hv hI hw => ?_) h (adds_record hR)
  exact hI.trans (hsub gs g hs v w hl hv hI.rules hw)

end Turn

/-! ## Outcomes -/

namespace Call

variable {c c' : Call} {r : Forwarding × Turn}

open Turn (Adds Retains)

/-- What a call can come to. -/
theorem outcome_cases (h : c.outcome = some r) :
    (c.Rejected ∧ r.2 = c.turn) ∨
      (¬ c.Rejected ∧ c.turn.solver.matching c.query = [] ∧ r.2 = (c.turn.forward c.origin c.parent c.query).2) ∨
        (¬ c.Rejected ∧ c.turn.solver.matching c.query ≠ [] ∧ ∃ depth, c.depth = depth + 1 ∧
          (c.turn.solver.matching c.query).foldlM (Turn.expand (Turn.sub depth c.query) c.origin c.parent c.query)
            c.turn = some r.2) := by
  obtain ⟨depth, origin, path, a, t⟩ := c
  unfold outcome at h
  cases depth with
  | zero => cases h
  | succ depth =>
    rw [Turn.solve] at h
    split at h
    · rename_i hguard
      cases h
      exact .inl ⟨hguard, rfl⟩
    · rename_i hguard
      split at h
      · rename_i hm
        cases h
        exact .inr (.inl ⟨hguard, hm, rfl⟩)
      · rename_i hm
        obtain ⟨u, hu, rfl⟩ := Option.map_eq_some_iff.mp h
        exact .inr (.inr ⟨hguard, hm, depth, rfl, hu⟩)

/-- A call only records entries: its own, and those of the calls below it. -/
theorem outcome_adds (depth : Nat) : ∀ {c : Call} {r : Forwarding × Turn}, c.depth = depth →
    (∀ r ∈ c.turn.solver.rules, r.subgoals ≠ []) → c.outcome = some r →
      Adds (fun e => ∃ c', c.Reaches c' ∧ c'.Records e) c.turn r.2 := by
  induction depth with
  | zero =>
    intro c r hd hrules h
    rw [outcome, hd] at h
    cases h
  | succ depth ih =>
    intro c r hd hrules h
    rcases outcome_cases h with ⟨-, hr⟩ | ⟨hguard, hm, hr⟩ | ⟨hguard, -, d, hd', hfold⟩
    · rw [hr]
      exact .refl _ _
    · rw [hr]
      exact Turn.adds_forward ⟨c, .refl, hguard, .inl ⟨hm, rfl⟩⟩
    · obtain rfl : d = depth := Nat.succ.inj (hd'.symm.trans hd)
      refine Turn.foldlM_keeps_from (I := Adds (fun e => ∃ c', c.Reaches c' ∧ c'.Records e) c.turn)
        (fun before m after t u hl ht hI hu => hI.trans ?_) hfold (.refl _ _)
      have hm : m ∈ c.turn.solver.matching c.query := hl ▸ List.mem_append_cons_self
      refine Turn.expand_adds (hrules m.1 (Solver.mem_matching.mp hm).1) ⟨c, .refl, hguard, .inr ⟨m, hm, rfl⟩⟩
        (fun gs g hs v w hsub hv hvr hw => ?_) hu
      have hmakes : c.Makes ⟨d, none, ⟨c.query, m.1.subgoals⟩ :: c.path, g, v⟩ := by
        obtain ⟨_, origin, path, a, t⟩ := c
        cases hd
        exact .intro hguard hl ht hsub hv
      obtain ⟨q, hq, rfl⟩ := Option.map_eq_some_iff.mp hw
      have hvrules : v.solver.rules = c.turn.solver.rules := hvr.trans hI.rules
      have hadds := ih (c := ⟨d, none, ⟨c.query, m.1.subgoals⟩ :: c.path, g, v⟩) rfl (hvrules.symm ▸ hrules) hq
      exact hadds.imp fun e ⟨c', hc', he⟩ => ⟨c', .head hmakes hc', he⟩

/-- A subgoal takes nothing out. -/
theorem sub_retains {depth : Nat} {a g : Atom} {t u : Turn} (hrules : ∀ r ∈ t.solver.rules, r.subgoals ≠ [])
    (h : Turn.sub depth a g t = some u) : Retains t u := by
  obtain ⟨r, hr, rfl⟩ := Option.map_eq_some_iff.mp h
  exact (outcome_adds (c := ⟨depth, none, [⟨a, []⟩], g, t⟩) depth rfl hrules hr).imp fun _ _ => trivial

theorem subgoals_retain {depth : Nat} {a : Atom} {l : List Atom} {t u : Turn}
    (hrules : ∀ r ∈ t.solver.rules, r.subgoals ≠ []) (h : l.foldlM (fun v g => Turn.sub depth a g v) t = some u) :
    Retains t u :=
  Turn.foldlM_keeps (I := Retains t) (fun _ _ _ _ hw hI => hI.trans (sub_retains (hI.rules.symm ▸ hrules) hw)) h
    (.refl _ _)

/-- Nor do rules that are tried. -/
theorem matches_retain {depth : Nat} {a : Atom} {origin : Option NodeId} {parent : Option Atom}
    {l : List (Rule × Bindings)} {t u : Turn} (hrules : ∀ r ∈ t.solver.rules, r.subgoals ≠ [])
    (hl : ∀ m ∈ l, m.1.subgoals ≠ []) (h : l.foldlM (Turn.expand (Turn.sub depth a) origin parent a) t = some u) : Retains t u := by
  refine Turn.foldlM_keeps (I := Retains t) (fun m hm v w hw hI => hI.trans ?_) h (.refl _ _)
  have hv : ∀ r ∈ v.solver.rules, r.subgoals ≠ [] := hI.rules.symm ▸ hrules
  exact Turn.expand_adds (hl m hm) trivial (fun _ _ _ x y _ _ hx hy => sub_retains (hx.symm ▸ hv) hy) hw

/-- A call that comes to an end made one for each subgoal of each rule. -/
theorem exists_made (h : c.outcome = some r) (hguard : ¬ c.Rejected) {m : Rule × Bindings}
    (hm : m ∈ c.turn.solver.matching c.query) {g : Atom} (hg : g ∈ m.1.subgoals) :
    ∃ c', c.Makes c' ∧ c'.query = g ∧ c'.path = ⟨c.query, m.1.subgoals⟩ :: c.path := by
  rcases outcome_cases h with ⟨hrejected, -⟩ | ⟨-, hnil, -⟩ | ⟨-, -, d, hd, hfold⟩
  · exact absurd hrejected hguard
  · rw [hnil] at hm
    cases hm
  · obtain ⟨before, after, hl⟩ := List.append_of_mem hm
    obtain ⟨gs, hs, hsub⟩ := List.append_of_mem hg
    rw [hl] at hfold
    obtain ⟨t, u, ht, hu, -⟩ := Turn.foldlM_split hfold
    rw [Turn.expand_eq (List.ne_nil_of_mem hg), hsub] at hu
    obtain ⟨v, w, hv, -, -⟩ := Turn.foldlM_split hu
    obtain ⟨_, origin, path, a, t₀⟩ := c
    cases hd
    exact ⟨_, .intro hguard hl ht hsub hv, rfl, rfl⟩

/-- Up to a call that is made, nothing is taken out. -/
theorem Makes.adds (hmakes : c.Makes c') (hrules : ∀ r ∈ c.turn.solver.rules, r.subgoals ≠ []) :
    Retains c.turn c'.turn := by
  cases hmakes with
  | @intro d origin path a g t u v m before after gs hs hguard hl hu hsub hv =>
    have htu : Retains t u := by
      refine matches_retain hrules (fun m' hm' => ?_) hu
      have hm' : m' ∈ t.solver.matching a := hl ▸ List.mem_append_left _ hm'
      exact hrules m'.1 (Solver.mem_matching.mp hm').1
    exact (htu.trans (Turn.adds_record trivial)).trans (subgoals_retain (htu.rules.symm ▸ hrules) hv)

/-- If a call comes to an end, those that it makes do, and nothing is taken out afterwards. -/
theorem Makes.outcome (hmakes : c.Makes c') (hrules : ∀ r ∈ c.turn.solver.rules, r.subgoals ≠ [])
    (h : c.outcome = some r) : ∃ r', c'.outcome = some r' ∧ Retains r'.2 r.2 := by
  have hadds := hmakes.adds hrules
  cases hmakes with
  | @intro d origin path a g t u v m before after gs hs hguard hl hu hsub hv =>
    rcases outcome_cases h with ⟨hrejected, -⟩ | ⟨-, hnil, -⟩ | ⟨-, -, d, hd, hfold⟩
    · exact absurd hrejected hguard
    · exact absurd (hl.symm.trans hnil) (List.append_ne_nil_of_right_ne_nil _ (List.cons_ne_nil _ _))
    · cases hd
      dsimp only at hrules hfold hadds
      have hne : ∀ m' ∈ m :: after, m'.1.subgoals ≠ [] := fun m' hm' =>
        hrules m'.1 (Solver.mem_matching.mp (hl.symm ▸ List.mem_append_right _ hm' : m' ∈ t.solver.matching a)).1
      rw [hl] at hfold
      obtain ⟨u', x, hu', hx, hafter⟩ := Turn.foldlM_split hfold
      obtain rfl : u = u' := Option.some.inj (hu.symm.trans hu')
      rw [Turn.expand_eq (hne m (List.mem_cons_self ..)), hsub] at hx
      obtain ⟨v', w, hv', hw, hrest⟩ := Turn.foldlM_split hx
      obtain rfl : v = v' := Option.some.inj (hv.symm.trans hv')
      -- the subgoals and the rules that are left
      have htw : Retains t w := hadds.trans (sub_retains (hadds.rules.symm ▸ hrules) hw)
      have hwx : Retains w x := subgoals_retain (htw.rules.symm ▸ hrules) hrest
      have hxr : Retains x r.2 :=
        matches_retain ((htw.trans hwx).rules.symm ▸ hrules) (fun m' h => hne m' (List.mem_cons_of_mem _ h)) hafter
      obtain ⟨r', hr', rfl⟩ := Option.map_eq_some_iff.mp hw
      exact ⟨r', hr', hwx.trans hxr⟩

/-- So it is with all calls below it. -/
theorem Reaches.outcome (hreaches : c.Reaches c') (hrules : ∀ r ∈ c.turn.solver.rules, r.subgoals ≠ [])
    (h : c.outcome = some r) :
    Retains c.turn c'.turn ∧ ∃ r', c'.outcome = some r' ∧ Retains r'.2 r.2 := by
  induction hreaches with
  | refl => exact ⟨.refl _ _, r, h, .refl _ _⟩
  | tail _ hmakes ih =>
    obtain ⟨hadds, r', hr', hend⟩ := ih
    have hrules := hadds.rules.symm ▸ hrules
    obtain ⟨r'', hr'', hend'⟩ := hmakes.outcome hrules hr'
    exact ⟨hadds.trans (hmakes.adds hrules), r'', hr'', hend'.trans hend⟩

end Call

/-! ## The path -/

section
variable {s : Solver} {p : PendingTable} {top : Option Atom} {query a : Atom} {path : Path} {f : Frame} {t u : Turn}

theorem Solver.not_instant (hrules : ∀ r ∈ s.rules, r.subgoals ≠ []) : ¬ s.Instant a := by
  intro h
  induction h with
  | intro hm _ ih =>
    obtain ⟨g, hg⟩ := List.exists_mem_of_ne_nil _ (hrules _ (Solver.mem_matching.mp hm).1)
    exact ih g hg

theorem Solver.guarded_of_subgoals (hrules : ∀ r ∈ s.rules, r.subgoals ≠ []) (query : Atom) : s.Guarded query := by
  intro b a l _ _ _ _ hcloses
  obtain ⟨m, -, hb, hall⟩ := hcloses
  exact Solver.not_instant hrules (hall b hb)

/-- The queries of a path have entries, since their subgoals are not settled. -/
theorem Held.present (h : Held s p top path) (hl : Path.Leads s query path a)
    (hrules : ∀ r ∈ s.rules, r.subgoals ≠ []) : ∀ b ∈ path.queries, p.get? b ≠ none := by
  induction path generalizing a with
  | nil =>
    intro b hb
    cases hb
  | cons f path ih =>
    intro b hb
    obtain ⟨-, habsent, hrest⟩ := h
    rcases List.mem_cons.mp hb with rfl | hb
    · intro hnone
      cases hl with
      | down _ _ _ ha => exact Solver.not_instant hrules (habsent hnone a ha).1
    · exact ih hrest hl.up b hb

theorem Path.mem_of_parent (h : path.parent none = some a) : a ∈ path.queries := by
  cases path with
  | nil => cases h
  | cons f path => exact Option.some.inj h ▸ List.mem_cons_self ..

/-- The links from a path lead along the path. -/
theorem Held.closed (h : Held s p none path) : p.Closed (· ∈ path.queries) := by
  induction path with
  | nil =>
    intro b hb
    cases hb
  | cons f path ih =>
    obtain ⟨hpresent, -, hrest⟩ := h
    intro b hb c hc
    rcases List.mem_cons.mp hb with rfl | hb
    · obtain ⟨e, he, hparent⟩ := Option.bind_eq_some_iff.mp hc
      exact List.mem_cons_of_mem _ (Path.mem_of_parent ((hpresent e he).1 ▸ hparent))
    · exact List.mem_cons_of_mem _ (ih hrest b hb c hc)

/-- Whatever depth is left, a subgoal keeps the path. -/
theorem sub_keeps {depth : Nat} (hg : s.Guarded query) (hl : Path.Leads s query (f :: path) a)
    (hk : Keeps s none (f :: path) t) (h : Turn.sub depth f.query a t = some u) : Keeps s none (f :: path) u := by
  obtain ⟨r, hr, rfl⟩ := Option.map_eq_some_iff.mp h
  obtain ⟨r', hr', hk'⟩ := solve_keeps_path hg (depth + (s.bodyAtoms.length + 2)) hl (by omega) none hk
  have hsame : some r = some r' := (Turn.solve_mono (Nat.le_add_right _ _) hr).symm.trans hr'
  exact Option.some.inj hsame ▸ hk'

theorem subgoals_keep {depth : Nat} {l : List Atom} (hg : s.Guarded query)
    (hl : ∀ g ∈ l, Path.Leads s query (f :: path) g) (hk : Keeps s none (f :: path) t)
    (h : l.foldlM (fun v g => Turn.sub depth f.query g v) t = some u) : Keeps s none (f :: path) u :=
  Turn.foldlM_keeps (fun g hgl _ _ hw hI => sub_keeps hg (hl g hgl) hI hw) h hk

end

namespace Call

variable {s : Solver} {query : Atom} {c c' : Call} {r : Forwarding × Turn}

structure OnPath (s : Solver) (query : Atom) (c : Call) : Prop where
  leads : Path.Leads s query c.path c.query
  keeps : Keeps s none c.path c.turn

/-- The guard sees exactly the path. -/
theorem OnPath.rejected_iff (h : c.OnPath s query) (hrules : ∀ r ∈ s.rules, r.subgoals ≠ []) :
    c.Rejected ↔ c.query ∈ c.path.queries := by
  constructor
  · intro hrejected
    by_contra hmem
    have hfalse : c.turn.solver.pending.isAncestor c.query c.parent = false :=
      PendingTable.onChain_eq_false h.keeps.2.closed hmem _ fun a ha => Path.mem_of_parent ha
    rw [Rejected, hfalse] at hrejected
    cases hrejected
  · exact isAncestor_of_mem (Solver.guarded_of_subgoals hrules query) h.leads h.keeps.2

/-- A call that is made goes one query down. -/
theorem OnPath.made (h : c.OnPath s query) (hrules : ∀ r ∈ s.rules, r.subgoals ≠ []) (hmakes : c.Makes c') :
    c'.OnPath s query := by
  have hguard := Solver.guarded_of_subgoals hrules query
  have hiff := h.rejected_iff hrules
  obtain ⟨hl, hk⟩ := h
  cases hmakes with
  | @intro d origin path a g t u v m before after gs hs hg hm hu hsub hv =>
    have ha : a ∉ path.queries := fun ha => hg (hiff.mpr ha)
    rw [hk.matching] at hm
    have hdown : ∀ m' ∈ s.matching a, ∀ b ∈ m'.1.subgoals, Path.Leads s query (⟨a, m'.1.subgoals⟩ :: path) b :=
      fun m' hm' b hb => .down hl ha ⟨m', hm', rfl⟩ hb
    have hku : Keeps s none path u := by
      refine Turn.foldlM_keeps (fun m' hm' x y hy hI => ?_) hu hk
      have hm' : m' ∈ s.matching a := hm ▸ List.mem_append_left _ hm'
      rw [Turn.expand_eq (hrules m'.1 (Solver.mem_matching.mp hm').1)] at hy
      have hky := subgoals_keep hguard (hdown m' hm') (hI.record ha m' origin) hy
      exact ⟨hky.1, hky.2.2.2⟩
    have hmem : m ∈ s.matching a := hm ▸ List.mem_append_cons_self
    have hgs : ∀ b ∈ gs ++ g :: hs, Path.Leads s query (⟨a, m.1.subgoals⟩ :: path) b := hsub ▸ hdown m hmem
    exact ⟨hgs g List.mem_append_cons_self,
      subgoals_keep hguard (fun b hb => hgs b (List.mem_append_left _ hb)) (hku.record ha m origin) hv⟩

theorem OnPath.reached (h : c.OnPath s query) (hrules : ∀ r ∈ s.rules, r.subgoals ≠ []) (hreaches : c.Reaches c') :
    c'.OnPath s query := by
  induction hreaches with
  | refl => exact h
  | tail _ hmakes ih => exact ih.made hrules hmakes

/-- The query of a call has an entry when the call ends. -/
theorem OnPath.present (h : c.OnPath s query) (hrules : ∀ r ∈ s.rules, r.subgoals ≠ []) (hr : c.outcome = some r) :
    r.2.solver.pending.get? c.query ≠ none := by
  rcases outcome_cases hr with ⟨hrejected, hr⟩ | ⟨-, -, hr⟩ | ⟨-, hne, d, -, hfold⟩
  · rw [hr]
    exact h.keeps.2.present h.leads hrules c.query ((h.rejected_iff hrules).mp hrejected)
  · rw [hr, (Turn.forward_eq c.turn c.origin c.parent c.query).1]
    intro hnone
    cases (Table.get?_insert_self ..).symm.trans hnone
  · have hrules : ∀ r ∈ c.turn.solver.rules, r.subgoals ≠ [] := h.keeps.1.symm ▸ hrules
    have hsub : ∀ m ∈ c.turn.solver.matching c.query, m.1.subgoals ≠ [] := fun m hm =>
      hrules m.1 (Solver.mem_matching.mp hm).1
    obtain ⟨m, l, hl⟩ := List.exists_cons_of_ne_nil hne
    rw [hl] at hfold hsub
    rw [List.foldlM_cons] at hfold
    obtain ⟨u, hu, hrest⟩ := Option.bind_eq_some_iff.mp hfold
    rw [Turn.expand_eq (hsub m (List.mem_cons_self ..))] at hu
    have hu : Turn.Retains (c.turn.record (.matched m c.query c.parent c.origin)) u := subgoals_retain hrules hu
    refine (matches_retain (hu.rules.symm ▸ hrules) (fun m' hm' => hsub m' (List.mem_cons_of_mem _ hm')) hrest).kept _
      (hu.kept _ fun hnone => ?_)
    cases (Table.get?_insert_self ..).symm.trans hnone

end Call

/-! ## Requests -/

namespace Solver

variable {s : Solver} {sender : NodeId} {p : Packet} {t : Turn}

/-- A turn on a request is the call for its query. -/
theorem handle_outcome {depth : Nat} (h : s.handle depth sender p = some t) (hk : p.kind = .request) :
    ∃ r, (Call.top depth s sender p).outcome = some r ∧ t.solver = r.2.solver := by
  obtain ⟨r, hr, rfl⟩ := (handle_request_iff hk).mp h
  refine ⟨r, ?_, rfl⟩
  rw [Call.top, hk]
  exact hr

/-- It has an outcome, if every rule has a subgoal. -/
theorem exists_handles (hrules : ∀ r ∈ s.rules, r.subgoals ≠ []) (sender : NodeId) (hk : p.kind = .request) :
    ∃ t, s.Handles sender p t := by
  have hkeeps : Keeps s none [] ((Turn.begin s).note (.packetReceived s.id .request)) := ⟨rfl, trivial⟩
  have hguarded := guarded_of_subgoals hrules p.query
  obtain ⟨r, hr, -⟩ := solve_keeps_path hguarded _ .start (Nat.le_refl _) (some sender) hkeeps
  exact ⟨_, s.bodyAtoms.length + 2, (handle_request_iff hk).mpr ⟨r, hr, rfl⟩⟩

/-- If every rule has a subgoal, a turn on a request ends, and its calls leave a query alone exactly if it is one of
    those being decomposed above it. No query is decomposed twice on a path, nor are more than one and the number of
    different subgoals. No entry is taken out, and what an entry of the turn waits for has an entry in the end. -/
theorem guard_exact (hrules : ∀ r ∈ s.rules, r.subgoals ≠ []) (sender : NodeId) (hk : p.kind = .request) :
    (∃ t, s.Handles sender p t) ∧ ∀ depth t, s.handle depth sender p = some t →
      (∀ c, (Call.top depth s sender p).Reaches c →
        (c.Rejected ↔ c.query ∈ c.path.queries) ∧
        (¬ c.Rejected →
          (c.query :: c.path.queries).Nodup ∧ (c.query :: c.path.queries).length ≤ 1 + s.bodyAtoms.length) ∧
        (∀ a, s.pending.get? a ≠ none → c.turn.solver.pending.get? a ≠ none) ∧
        (∀ a, c.turn.solver.pending.get? a ≠ none → t.solver.pending.get? a ≠ none) ∧
        ∀ e, c.Records e → ∀ g ∈ e.awaited, t.solver.pending.get? g ≠ none) ∧
      ∀ a e, t.solver.pending.get? a = some e → s.pending.get? a = some e ∨
        ∃ c, (Call.top depth s sender p).Reaches c ∧ c.Records e ∧ e.query = a := by
  refine ⟨exists_handles hrules sender hk, fun depth t h => ?_⟩
  obtain ⟨r, hr, ht⟩ := handle_outcome h hk
  rw [ht]
  have htop : (Call.top depth s sender p).OnPath s p.query := ⟨.start, rfl, trivial⟩
  have hadds := Call.outcome_adds depth rfl hrules hr
  refine ⟨fun c hc => ?_, fun a e he => ?_⟩
  · have hpath := htop.reached hrules hc
    have hiff := hpath.rejected_iff hrules
    obtain ⟨hbefore, r', hr', hafter⟩ := hc.outcome hrules hr
    have hrules' : ∀ r ∈ c.turn.solver.rules, r.subgoals ≠ [] := hpath.keeps.1.symm ▸ hrules
    have hown := Call.outcome_adds c.depth rfl hrules' hr'
    refine ⟨hiff, fun hguard => ?_, hbefore.kept, fun a ha => hafter.kept a (hown.kept a ha), fun e he g hg => ?_⟩
    · have hmem : c.query ∉ c.path.queries := fun hmem => hguard (hiff.mpr hmem)
      have hlen := hpath.leads.length_le hmem
      refine ⟨List.nodup_cons.mpr ⟨hmem, hpath.leads.nodup⟩, ?_⟩
      rw [List.length_cons, Path.queries, List.length_map]
      omega
    · obtain ⟨hguard, ⟨-, rfl⟩ | ⟨m, hm, rfl⟩⟩ := he
      · cases hg
      · -- the subgoal has had a call of its own
        obtain ⟨c', hmakes, rfl, -⟩ := Call.exists_made hr' hguard hm (List.mem_eraseDups.mp hg)
        obtain ⟨q, hq, hend⟩ := hmakes.outcome hrules' hr'
        exact hafter.kept _ (hend.kept _ ((hpath.made hrules hmakes).present hrules hq))
  · refine (hadds.added a e he).imp_right fun h => ?_
    obtain ⟨⟨c, hc, hrec⟩, hquery⟩ := h
    exact ⟨c, hc, hrec, hquery⟩

/-- The rules `f <- g, h. f <- h. g <- f, h. g <- g.`, and entries from before whose links go round. -/
def knot : Solver :=
  { Solver.create "s" .standard with
    rules := [⟨⟨"f", []⟩, [⟨"g", []⟩, ⟨"h", []⟩]⟩, ⟨⟨"f", []⟩, [⟨"h", []⟩]⟩, ⟨⟨"g", []⟩, [⟨"f", []⟩, ⟨"h", []⟩]⟩,
      ⟨⟨"g", []⟩, [⟨"g", []⟩]⟩]
    pending := .ofList [(⟨"g", []⟩, .unmatched ⟨"g", []⟩ (some ⟨"h", []⟩) none),
      (⟨"h", []⟩, .unmatched ⟨"h", []⟩ (some ⟨"g", []⟩) none)] }

/-- Below `g`, which is decomposed below `f`, the guard leaves `f` alone; the entries from before stay. -/
theorem knot_guarded :
    (∀ r ∈ knot.rules, r.subgoals ≠ []) ∧ (Packet.request ⟨"f", []⟩).kind = .request ∧
      ∃ depth t, knot.handle depth "user" (.request ⟨"f", []⟩) = some t ∧
        (∃ c, (Call.top depth knot "user" (.request ⟨"f", []⟩)).Reaches c ∧ c.query = ⟨"f", []⟩ ∧
          c.path.queries = [⟨"g", []⟩, ⟨"f", []⟩] ∧ c.Rejected) ∧
        t.solver.pending.get? ⟨"g", []⟩ ≠ none ∧ t.solver.pending.get? ⟨"h", []⟩ ≠ none := by
  have hrules : ∀ r ∈ knot.rules, r.subgoals ≠ [] := by decide
  obtain ⟨⟨t, depth, h⟩, hexact⟩ := guard_exact (p := .request ⟨"f", []⟩) hrules "user" rfl
  obtain ⟨hcalls, -⟩ := hexact depth t h
  obtain ⟨hiff, -, -, hkept, -⟩ := hcalls _ .refl
  obtain ⟨r, hr, -⟩ := handle_outcome h rfl
  -- the call for `g` below `f`, then the one for `f` below `g`
  have hf : (⟨⟨"f", []⟩, [⟨"g", []⟩, ⟨"h", []⟩]⟩, ∅) ∈ knot.matching ⟨"f", []⟩ := mem_matching.mpr (by decide +kernel)
  have hg : (⟨⟨"g", []⟩, [⟨"f", []⟩, ⟨"h", []⟩]⟩, ∅) ∈ knot.matching ⟨"g", []⟩ := mem_matching.mpr (by decide +kernel)
  have htop : ¬ (Call.top depth knot "user" (.request ⟨"f", []⟩)).Rejected := fun h =>
    absurd (hiff.mp h) List.not_mem_nil
  obtain ⟨c, hc, hquery, hpath⟩ := Call.exists_made hr htop hf (List.mem_cons_self ..)
  obtain ⟨r', hr', -⟩ := hc.outcome hrules hr
  obtain ⟨hiff', -⟩ := hcalls c (.single hc)
  have hguard : ¬ c.Rejected := fun h => by
    have hmem := hiff'.mp h
    rw [hquery, hpath] at hmem
    have hmem : (⟨"g", []⟩ : Atom) ∈ [⟨"f", []⟩] := hmem
    exact absurd hmem (by decide)
  have hg' : (⟨⟨"g", []⟩, [⟨"f", []⟩, ⟨"h", []⟩]⟩, ∅) ∈ c.turn.solver.matching c.query := by
    rw [hquery, matching_congr (hc.adds hrules).rules]
    exact hg
  obtain ⟨c', hc', hquery', hpath'⟩ := Call.exists_made hr' hguard hg' (List.mem_cons_self ..)
  have hreaches : (Call.top depth knot "user" (.request ⟨"f", []⟩)).Reaches c' := .tail (.single hc) hc'
  obtain ⟨hiff'', -⟩ := hcalls c' hreaches
  have hqueries : c'.path.queries = [⟨"g", []⟩, ⟨"f", []⟩] := by
    rw [hpath', hpath, hquery]
    rfl
  have hstale : knot.pending.get? ⟨"g", []⟩ ≠ none ∧ knot.pending.get? ⟨"h", []⟩ ≠ none := by decide +kernel
  refine ⟨hrules, rfl, depth, t, h, ⟨c', hreaches, hquery', hqueries, ?_⟩, hkept _ hstale.1, hkept _ hstale.2⟩
  rw [hiff'', hquery', hqueries]
  decide

end Solver

end QueryNet
