/-
  QueryNet.Proofs.Routing.Minimum — of all the routes that it is offered, a table keeps the best.

  Routes are ranked by metric, then by the name of the next hop. Different routes have
  different ranks, so the best of some routes is one of them, and which one does not
  depend on the order in which they come (`best_congr`). Announcements that are as far
  away as a metric can tell may offer the same route.

  An announcement leaves a key with the lesser of the route that it has and the one that
  is offered (`best_append_singleton`), so a number of them leave it with the least of
  all (`get?_applyAll`). Proved from that: their order and repetition make no difference,
  routes only get better, and a route to a source that is attached stays
  (`applied_least`).
-/

import Mathlib.Data.List.MinMax
import Mathlib.Data.Prod.Lex
import Mathlib.Data.String.Basic
import QueryNet.Proofs.Routing.Update

namespace QueryNet

/-! ## Ranks -/

/-- Routes are ranked by metric, then by next hop. -/
def Route.rank (r : Route) : ℕ ×ₗ String := toLex (r.metric, r.nexthop)

theorem Route.rank_injective : Function.Injective rank := by
  intro r r' h
  obtain ⟨hm, hn⟩ := Prod.mk.inj (toLex.injective h)
  cases r
  cases r'
  exact congr (congrArg Route.mk hn) hm

theorem Route.rank_lt_iff {r other : Route} :
    other.rank < r.rank ↔ other.metric < r.metric ∨ other.metric = r.metric ∧ other.nexthop < r.nexthop :=
  Prod.Lex.lt_iff

theorem Route.isWorseThan_iff_rank {r other : Route} : r.isWorseThan other = true ↔ other.rank < r.rank :=
  isWorseThan_iff.trans rank_lt_iff.symm

namespace RoutingTable

/-! ## The least of some routes -/

def best (l : List Route) : Option Route := l.argmin Route.rank

theorem best_eq_some_iff {l : List Route} {r : Route} : best l = some r ↔ r ∈ l ∧ ∀ r' ∈ l, r.rank ≤ r'.rank := by
  rw [best, List.argmin_eq_some_iff]
  refine ⟨fun ⟨hr, hle, _⟩ => ⟨hr, hle⟩, fun ⟨hr, hle⟩ => ⟨hr, hle, fun r' hr' hrank => ?_⟩⟩
  -- routes of the same rank are the same
  rw [Route.rank_injective (le_antisymm hrank (hle r' hr'))]

theorem best_congr {l l' : List Route} (h : ∀ r, r ∈ l ↔ r ∈ l') : best l = best l' := by
  refine Option.ext fun r => ?_
  simp only [best_eq_some_iff, h]

/-- One more route is kept if it is better than the best so far. -/
theorem best_append_singleton (l : List Route) (r : Route) : best (l ++ [r]) = some (Route.pick (best l) r) := by
  rw [best, List.argmin_concat, ← best]
  cases best l with
  | none => rfl
  | some old =>
    by_cases h : r.rank < old.rank
    · simp [Route.pick, h, Route.isWorseThan_iff_rank.mpr h]
    · simp [Route.pick, h, mt Route.isWorseThan_iff_rank.mp h]

/-! ## Announcements -/

def applyAll (t : RoutingTable) (as : List Announcement) : RoutingTable := as.foldl (fun t a => (t.apply a).2) t

/-- The routes for a key: the one that a table has, and those that announcements offer. -/
def choices (t : RoutingTable) (as : List Announcement) (key : String) : List Route :=
  (t.get? key).toList ++ (as.filter (·.dest = key)).map fun a => ⟨a.advertiser, min (a.metric + 1) 0xFFFFFFFF⟩

theorem choices_append (t : RoutingTable) (as : List Announcement) (a : Announcement) (key : String) :
    t.choices (as ++ [a]) key = t.choices as key ++ if a.dest = key then [candidate a] else [] := by
  rw [choices, List.filter_append, List.map_append, ← List.append_assoc, ← choices]
  by_cases h : a.dest = key
  · rw [if_pos h, List.filter_singleton, decide_eq_true h]
    rfl
  · rw [if_neg h, List.filter_singleton, decide_eq_false h]
    rfl

/-- Announcements leave a key with the best of the routes there are for it. -/
theorem get?_applyAll (t : RoutingTable) (as : List Announcement) (key : String) :
    (t.applyAll as).get? key = best (t.choices as key) := by
  induction as using List.reverseRecOn with
  | nil =>
    rw [choices, List.filter_nil, List.map_nil, List.append_nil]
    show t.get? key = best (t.get? key).toList
    cases t.get? key <;> rfl
  | append_singleton as a ih =>
    have hlast : t.applyAll (as ++ [a]) = ((t.applyAll as).apply a).2 := List.foldl_concat ..
    rw [hlast, get?_apply, ih, choices_append]
    by_cases h : a.dest = key
    · rw [if_pos h.symm, if_pos h, best_append_singleton]
    · rw [if_neg (Ne.symm h), if_neg h, List.append_nil]

theorem mem_choices {t : RoutingTable} {as : List Announcement} {key : String} {r : Route} :
    r ∈ t.choices as key ↔ t.get? key = some r ∨ ∃ a ∈ as, a.dest = key ∧ candidate a = r := by
  simp [choices, candidate, farther, maxMetric, and_assoc]

/-- No announcement offers a route as short as the one to a source that is attached. -/
theorem candidate_metric_pos (a : Announcement) : 0 < (candidate a).metric :=
  Nat.lt_min.mpr ⟨Nat.succ_pos _, by decide⟩

/-- How an announcement is taken up. -/
theorem apply_cases (t : RoutingTable) (a : Announcement) :
    (t.get? a.dest = none ∧ (t.apply a).1 = .installed (candidate a)) ∨
      ∃ r, t.get? a.dest = some r ∧
        ((candidate a).rank < r.rank ∧ (t.apply a).1 = .replaced r (candidate a) ∨
          r.rank ≤ (candidate a).rank ∧ t.apply a = (.unchanged, t)) := by
  unfold apply
  cases t.get? a.dest with
  | none => exact .inl ⟨rfl, rfl⟩
  | some r =>
    refine .inr ⟨r, rfl, ?_⟩
    dsimp only
    by_cases h : r.isWorseThan (candidate a)
    · rw [if_pos h]
      exact .inl ⟨Route.isWorseThan_iff_rank.mp h, rfl⟩
    · rw [if_neg h]
      exact .inr ⟨not_lt.mp (mt Route.isWorseThan_iff_rank.mpr h), rfl⟩

theorem apply_installed_iff {t : RoutingTable} {a : Announcement} {r : Route} :
    (t.apply a).1 = .installed r ↔ t.get? a.dest = none ∧ r = candidate a := by
  refine ⟨apply_installed, ?_⟩
  rintro ⟨hnone, rfl⟩
  rcases apply_cases t a with ⟨-, h⟩ | ⟨r, hr, -⟩
  · exact h
  · rw [hnone] at hr
    cases hr

theorem apply_replaced_iff {t : RoutingTable} {a : Announcement} {old new : Route} :
    (t.apply a).1 = .replaced old new ↔ t.get? a.dest = some old ∧ new = candidate a ∧ new.rank < old.rank := by
  rcases apply_cases t a with ⟨hnone, h⟩ | ⟨r, hr, ⟨hlt, h⟩ | ⟨hle, h⟩⟩
  · simp [hnone, h]
  · rw [h, hr]
    constructor
    · rintro ⟨⟩
      exact ⟨rfl, rfl, hlt⟩
    · rintro ⟨⟨⟩, rfl, -⟩
      rfl
  · rw [h, hr]
    constructor
    · rintro ⟨⟩
    · rintro ⟨⟨⟩, rfl, hlt⟩
      exact absurd hlt (not_lt.mpr hle)

theorem apply_unchanged {t : RoutingTable} {a : Announcement} (h : (t.apply a).1 = .unchanged) : (t.apply a).2 = t := by
  rcases apply_cases t a with ⟨-, h'⟩ | ⟨r, -, ⟨-, h'⟩ | ⟨-, h'⟩⟩
  · rw [h] at h'
    cases h'
  · rw [h] at h'
    cases h'
  · rw [h']

/-- Whatever order announcements come in, and however often, a key is left with the least of the routes there are
    for it; so routes only get better, and one to a source that is attached stays. Each announcement is reported as
    what it did. -/
theorem applied_least (t : RoutingTable) :
    (∀ as key r, (t.applyAll as).get? key = some r ↔
      r ∈ t.choices as key ∧ ∀ r' ∈ t.choices as key, r.rank ≤ r'.rank) ∧
    (∀ as as', (∀ a, a ∈ as ↔ a ∈ as') → t.applyAll as = t.applyAll as') ∧
    (∀ as key r, t.get? key = some r →
      ∃ r', (t.applyAll as).get? key = some r' ∧ r'.rank ≤ r.rank ∧ (r.metric = 0 → r' = r)) ∧
    ∀ a, (∀ r, (t.apply a).1 = .installed r ↔ t.get? a.dest = none ∧ r = candidate a) ∧
      (∀ old new, (t.apply a).1 = .replaced old new ↔
        t.get? a.dest = some old ∧ new = candidate a ∧ new.rank < old.rank) ∧
      ((t.apply a).1 = .unchanged → (t.apply a).2 = t) := by
  have hleast : ∀ as key r, (t.applyAll as).get? key = some r ↔
      r ∈ t.choices as key ∧ ∀ r' ∈ t.choices as key, r.rank ≤ r'.rank := fun as key r => by
    rw [get?_applyAll, best_eq_some_iff]
  refine ⟨hleast, fun as as' h => ?_, fun as key r hr => ?_,
    fun a => ⟨fun _ => apply_installed_iff, fun _ _ => apply_replaced_iff, apply_unchanged⟩⟩
  · refine Table.ext fun key => ?_
    rw [get?_applyAll, get?_applyAll]
    exact best_congr fun r => by simp only [mem_choices, h]
  · have hmem : r ∈ t.choices as key := mem_choices.mpr (.inl hr)
    obtain ⟨r', hr'⟩ := Option.ne_none_iff_exists'.mp fun hnone : best (t.choices as key) = none =>
      List.ne_nil_of_mem hmem (List.argmin_eq_none.mp hnone)
    obtain ⟨hmem', hle⟩ := best_eq_some_iff.mp hr'
    refine ⟨r', (get?_applyAll t as key).trans hr', hle r hmem, fun hzero => ?_⟩
    rcases mem_choices.mp hmem' with hold | ⟨a, -, -, rfl⟩
    · exact Option.some.inj (hold.symm.trans hr)
    · have := candidate_metric_pos a
      rcases Prod.Lex.le_iff.mp (hle r hmem) with hlt | ⟨heq, -⟩
      · exact absurd hlt (by simp [Route.rank, hzero])
      · simp only [Route.rank, ofLex_toLex, hzero] at heq
        omega

/-- Two peers that are equally near, two that are as far as can be told, and one that claims to be as near as a
    source: heard in the other order, and some of them twice, they leave the same routes. -/
theorem rivals_settled :
    let t : RoutingTable := .ofList [("here/1", ⟨"source", 0⟩), ("near/1", ⟨"west", 3⟩)]
    let claim : Announcement := ⟨"here/1", "east", 0⟩
    let as : List Announcement := [⟨"near/1", "south", 1⟩, ⟨"near/1", "north", 1⟩, ⟨"far/1", "west", 0xFFFFFFFF⟩,
      ⟨"far/1", "east", 0xFFFFFFFE⟩, claim]
    (∀ a, a ∈ as ↔ a ∈ as.reverse ++ as.take 3) ∧ t.applyAll as = t.applyAll (as.reverse ++ as.take 3) ∧
      t.applyAll as = .ofList [("far/1", ⟨"east", 0xFFFFFFFF⟩), ("here/1", ⟨"source", 0⟩), ("near/1", ⟨"north", 2⟩)] ∧
      t.get? "here/1" = some ⟨"source", 0⟩ ∧ (t.applyAll as).get? "here/1" = some ⟨"source", 0⟩ ∧
      (t.apply claim).1 = .unchanged ∧ (t.apply claim).2 = t := by
  intro t claim as
  have hsame : ∀ a, a ∈ as ↔ a ∈ as.reverse ++ as.take 3 := fun a => by
    rw [List.mem_append, List.mem_reverse]
    exact ⟨.inl, fun h => h.elim id List.mem_of_mem_take⟩
  have hsource : t.get? "here/1" = some ⟨"source", 0⟩ := by decide +kernel
  have hunchanged : (t.apply claim).1 = .unchanged := by decide +kernel
  obtain ⟨-, horder, hbetter, hreport⟩ := applied_least t
  obtain ⟨r', hr', -, hstays⟩ := hbetter as "here/1" _ hsource
  rw [hstays rfl] at hr'
  exact ⟨hsame, horder as _ hsame, by decide +kernel, hsource, hr', hunchanged, (hreport claim).2.2 hunchanged⟩

end RoutingTable

end QueryNet
