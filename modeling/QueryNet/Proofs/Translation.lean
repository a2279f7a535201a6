/-
  QueryNet.Proofs.Translation — what composing leaves of values, and what a caller learns of them.

  The values that are composed are looked up before anything is taken out or bound, so it
  does not matter whether the target is itself joined, a variable is joined twice or the
  target had a value before.

  In what a caller learns two loops are put together. Matching goes through the head's places, so a variable
  that stands several times is bound to what its last place faces
  (`get?_unify_eq_some_iff`). Translating goes through the variables in their order, so of
  several that face one variable of the query and have a value the greatest gives its own
  (`get?_translate_eq_some_iff`).

  Proved:
  - what every name is bound to after composing (`get?_compose`);
  - which variables of the query get a value, and which value; and if no variable of the
    head and no argument of the query stands twice, the answer is the bindings of the
    head's variables that face variables, under these names (`translate_renames`).
-/

import Mathlib.Data.String.Basic
import Mathlib.Order.Bounds.Defs
import QueryNet.Proofs.Scanning
import QueryNet.Proofs.Substitution
import QueryNet.Proofs.Table

namespace QueryNet

/-! ## Composing -/

theorem Text.join_eq_intercalate (sep : String) (ss : List String) : join sep ss = sep.intercalate ss := by
  rw [← String.toList_inj, toList_join, String.toList_intercalate]

/-- Composing binds the target to the values that the sources had, in the pattern's order and as often as they stand
    in it; it takes out the other sources and leaves all other names alone. A pattern without arguments changes
    nothing. -/
theorem get?_compose (name : String) (b : Bindings) :
    (∀ target sources k, (compose ⟨name, target :: sources⟩ b).get? k =
      if k = target then some ("\x7b" ++ " | ".intercalate (sources.filterMap b.get?) ++ "\x7d")
      else if k ∈ sources then none
      else b.get? k) ∧
    compose ⟨name, []⟩ b = b := by
  refine ⟨fun target sources k => ?_, rfl⟩
  have hvalue := Text.join_eq_intercalate " | " (sources.filterMap b.get?)
  rw [← hvalue, compose, Table.get?_insert, Table.get?_foldl_erase]

/-- The target is among what is joined, one variable is joined twice and another has no value. -/
example :
    compose ⟨"@", ["?A", "?B", "?A", "?C", "?B"]⟩ (.ofList [("?A", "1"), ("?B", "2"), ("?D", "3")]) =
      .ofList [("?A", "\x7b2 | 1 | 2\x7d"), ("?D", "3")] := by
  decide +kernel

/-! ## The last place of a variable -/

/-- A variable of the head faces an argument of the query at the last place where it stands. -/
def FacesLast (head query : Atom) (k c : String) : Prop :=
  isVariable k ∧ ∃ i : Nat, head.args[i]? = some k ∧ query.args[i]? = some c ∧ ∀ j > i, head.args[j]? ≠ some k

section

variable {head query : Atom} {m : Bindings} {k l c d : String}

theorem FacesLast.unique (h : FacesLast head query k c) (h' : FacesLast head query k d) : c = d := by
  obtain ⟨-, i, hi, hc, hlast⟩ := h
  obtain ⟨-, j, hj, hd, hlast'⟩ := h'
  have hij : i = j := by
    rcases Nat.lt_trichotomy i j with hlt | he | hgt
    · exact absurd hj (hlast j hlt)
    · exact he
    · exact absurd hi (hlast' i hgt)
  subst hij
  exact Option.some.inj (hc.symm.trans hd)

/-- An argument that stands once in the query is faced by one variable. -/
theorem FacesLast.eq_of_nodup (hargs : query.args.Nodup) (h : FacesLast head query k c)
    (h' : FacesLast head query l c) : k = l := by
  obtain ⟨-, i, hi, hc, -⟩ := h
  obtain ⟨-, j, hj, hd, -⟩ := h'
  have hlt : i < query.args.length := (List.getElem?_eq_some_iff.mp hc).1
  obtain rfl : i = j := (List.getElem?_inj hlt hargs).mp (hc.trans hd.symm)
  exact Option.some.inj (hi.symm.trans hj)

/-- A variable of the head that stands once has no later place. -/
theorem facesLast_of_nodup (hhead : head.variableArgs.Nodup) (hk : isVariable k) {i : Nat}
    (hi : head.args[i]? = some k) (hc : query.args[i]? = some c) : FacesLast head query k c := by
  refine ⟨hk, i, hi, hc, fun j hj hagain => ?_⟩
  have hapart : head.args.Pairwise fun x y => isVariable x → isVariable y → x ≠ y := List.pairwise_filter.mp hhead
  obtain ⟨hi, hik⟩ := List.getElem?_eq_some_iff.mp hi
  obtain ⟨hj', hjk⟩ := List.getElem?_eq_some_iff.mp hagain
  have hne := List.pairwise_iff_getElem.mp hapart i j hi hj' hj
  rw [hik, hjk] at hne
  exact hne hk hk rfl

/-- The last element with some property has a place behind which there is none. -/
theorem exists_last_place {α : Type} {l : List α} {p : α → Bool} {x : α} (h : (l.filter p).getLast? = some x) :
    p x ∧ ∃ i : Nat, l[i]? = some x ∧ ∀ j > i, ∀ y, l[j]? = some y → ¬ p y := by
  rw [List.getLast?_filter] at h
  obtain ⟨hx, as, bs, hsplit, has⟩ := List.find?_eq_some_iff_append.mp h
  have hl : l = bs.reverse ++ x :: as.reverse := by
    rw [← l.reverse_reverse, hsplit]
    simp
  refine ⟨hx, bs.reverse.length, by simp [hl], fun j hj y hy hp => ?_⟩
  rw [hl, List.getElem?_append_right hj.le, List.getElem?_cons, if_neg (Nat.sub_ne_zero_of_lt hj)] at hy
  have hnot := has y (List.mem_reverse.mp (List.mem_of_getElem? hy))
  simp [hp] at hnot

/-- Matching binds a variable to what its last place faces. -/
theorem facesLast_of_get?_unify (h : unify head query = some m) (hk : m.get? k = some c) : FacesLast head query k c := by
  have hu := unified_of_unify h
  have hvar := (hu.faces k c hk).2
  rw [get?_unify h hvar, faced, List.getLast?_map, Option.map_eq_some_iff] at hk
  obtain ⟨⟨k', c'⟩, hlast, rfl⟩ := hk
  obtain ⟨he, i, hplace, hlater⟩ := exists_last_place hlast
  obtain rfl : k' = k := of_decide_eq_true he
  obtain ⟨hi, hc⟩ := List.getElem?_zip_eq_some.mp hplace
  refine ⟨hvar, i, hi, hc, fun j hj hagain => ?_⟩
  have hlt : j < query.args.length := hu.length ▸ (List.getElem?_eq_some_iff.mp hagain).1
  have hpair : (head.args.zip query.args)[j]? = some (k', query.args[j]) :=
    List.getElem?_zip_eq_some.mpr ⟨hagain, List.getElem?_eq_getElem hlt⟩
  exact hlater j hj _ hpair (decide_eq_true rfl)

theorem get?_unify_eq_some_iff (h : unify head query = some m) : m.get? k = some c ↔ FacesLast head query k c := by
  refine ⟨facesLast_of_get?_unify h, fun hlast => ?_⟩
  obtain ⟨hvar, i, hi, hc, -⟩ := id hlast
  have hmem : (k, c) ∈ head.args.zip query.args := List.mem_of_getElem? (List.getElem?_zip_eq_some.mpr ⟨hi, hc⟩)
  obtain ⟨d, hd⟩ := Option.ne_none_iff_exists'.mp ((unified_of_unify h).bound _ hmem hvar)
  rw [hd, hlast.unique (facesLast_of_get?_unify h hd)]

end

/-! ## The greatest variable with a value -/

theorem any_surface_iff {b : Bindings} {e : String × String} {v : String} :
    (surface b e).any (·.1 = v) ↔ isVariable e.2 ∧ e.2 = v ∧ b.get? e.1 ≠ none := by
  simp only [Option.any_eq_true, surface_eq_some_iff, decide_eq_true_eq, Option.ne_none_iff_exists']
  constructor
  · rintro ⟨y, ⟨hvar, he, hy⟩, rfl⟩
    exact ⟨hvar, he, y.2, hy⟩
  · rintro ⟨hvar, he, w, hw⟩
    exact ⟨(v, w), ⟨hvar, he, hw⟩, rfl⟩

/-- Of the variables that are bound to a caller's variable and have a value, the greatest gives it. -/
theorem get?_translate_eq_some_iff {m b : Bindings} {v w : String} :
    (translate m b).get? v = some w ↔
      isVariable v ∧ ∃ k, IsGreatest {k | m.get? k = some v ∧ b.get? k ≠ none} k ∧ b.get? k = some w := by
  have hnone : (Table.empty : Bindings).get? v = none := rfl
  rw [translate, Table.ofList, Table.get?_insertAll, hnone, Option.or_none, ← List.filterMap_reverse,
    List.find?_filterMap, Option.map_eq_some_iff]
  simp only [Option.bind_eq_some_iff, Table.find?_reverse_eq_some_iff, any_surface_iff, surface_eq_some_iff]
  constructor
  · rintro ⟨⟨v', w'⟩, ⟨⟨k, c⟩, ⟨hmem, ⟨hvar, rfl, hb⟩, hgreatest⟩, -, -, hw⟩, rfl⟩
    refine ⟨hvar, k, ⟨⟨Table.mem_entries_iff.mp hmem, hb⟩, fun l hl => ?_⟩, hw⟩
    exact compare_le_iff_le.mp (hgreatest (l, c) (Table.mem_entries_iff.mpr hl.1) ⟨hvar, rfl, hl.2⟩)
  · rintro ⟨hvar, k, ⟨⟨hk, hb⟩, hgreatest⟩, hw⟩
    refine ⟨(v, w), ⟨(k, v), ⟨Table.mem_entries_iff.mpr hk, ⟨hvar, rfl, hb⟩, ?_⟩, hvar, rfl, hw⟩, rfl⟩
    rintro ⟨l, d⟩ hl ⟨-, rfl, hvalue⟩
    exact compare_le_iff_le.mpr (hgreatest ⟨Table.mem_entries_iff.mp hl, hvalue⟩)

/-! ## Answers -/

/-- The head's variables with a value for a variable of the query: those that face it at their last places. -/
def bearers (head query : Atom) (b : Bindings) (v : String) : Set String :=
  {k | FacesLast head query k v ∧ b.get? k ≠ none}

section

variable {head query : Atom} {m b : Bindings}

theorem get?_translate_iff (h : unify head query = some m) {v w : String} :
    (translate m b).get? v = some w ↔
      v ∈ query.variableArgs ∧ ∃ k, IsGreatest (bearers head query b v) k ∧ b.get? k = some w := by
  rw [get?_translate_eq_some_iff]
  simp only [get?_unify_eq_some_iff h]
  constructor
  · rintro ⟨hvar, k, hk, hw⟩
    obtain ⟨⟨-, i, -, hv, -⟩, -⟩ := hk.1
    exact ⟨List.mem_filter.mpr ⟨List.mem_of_getElem? hv, hvar⟩, k, hk, hw⟩
  · rintro ⟨hv, hk⟩
    exact ⟨(List.mem_filter.mp hv).2, hk⟩

theorem get?_translate_ne_none_iff (h : unify head query = some m) {v : String} :
    (translate m b).get? v ≠ none ↔ v ∈ query.variableArgs ∧ (bearers head query b v).Nonempty := by
  constructor
  · intro hv
    obtain ⟨w, hw⟩ := Option.ne_none_iff_exists'.mp hv
    obtain ⟨hvar, k, hk, -⟩ := (get?_translate_iff h).mp hw
    exact ⟨hvar, k, hk.1⟩
  · rintro ⟨hv, k, hk, hb⟩
    exact get?_translate_ne_none ((get?_unify_eq_some_iff h).mpr hk) (List.mem_filter.mp hv).2 hb

/-! ## Renaming -/

/-- The bindings of the head's variables that are renamed to variables, under their new names. -/
def renamed (head : Atom) (rename : String → String) (b : Bindings) : List (String × String) :=
  (b.entries.filter fun e => e.1 ∈ head.variableArgs ∧ isVariable (rename e.1)).map fun e => (rename e.1, e.2)

theorem mem_renamed {rename : String → String} {v w : String} :
    (v, w) ∈ renamed head rename b ↔ ∃ k ∈ head.variableArgs, rename k = v ∧ isVariable v ∧ b.get? k = some w := by
  simp only [renamed, List.mem_map, List.mem_filter, decide_eq_true_eq]
  constructor
  · rintro ⟨⟨k, w⟩, ⟨hmem, hk, hvar⟩, he⟩
    obtain ⟨rfl, rfl⟩ := Prod.mk.inj he
    exact ⟨k, hk, rfl, hvar, Table.mem_entries_iff.mp hmem⟩
  · rintro ⟨k, hk, rfl, hvar, hw⟩
    exact ⟨(k, w), ⟨Table.mem_entries_iff.mpr hw, hk, hvar⟩, rfl⟩

theorem facesLast_valueOf (h : unify head query = some m) {k : String} (hk : k ∈ head.variableArgs) :
    FacesLast head query k (valueOf m k) := by
  obtain ⟨c, hc⟩ := Option.ne_none_iff_exists'.mp (((unified_of_unify h).get?_ne_none_iff k).mpr hk)
  rw [valueOf_eq hc]
  exact facesLast_of_get?_unify h hc

/-- If no argument of the query stands twice, each binding of the answer comes from one of the head's variables, and
    each of their bindings comes through. -/
theorem translate_perm (h : unify head query = some m) (hargs : query.args.Nodup) (b : Bindings) :
    (translate m b).entries.Perm (renamed head (valueOf m) b) := by
  have hentries : ∀ t : Bindings, t.entries.Nodup := fun t => List.Nodup.of_map _ t.nodup_keys
  have hrenamed : (renamed head (valueOf m) b).Nodup := by
    refine List.Nodup.map_on (fun x hx y hy he => ?_) ((hentries b).filter _)
    obtain ⟨hname, hvalue⟩ := Prod.mk.inj he
    have hx := facesLast_valueOf h (of_decide_eq_true (List.mem_filter.mp hx).2).1
    have hy := facesLast_valueOf h (of_decide_eq_true (List.mem_filter.mp hy).2).1
    rw [← hname] at hy
    exact Prod.ext (hx.eq_of_nodup hargs hy) hvalue
  refine (List.perm_ext_iff_of_nodup (hentries _) hrenamed).mpr fun ⟨v, w⟩ => ?_
  rw [Table.mem_entries_iff, mem_renamed]
  constructor
  · intro hv
    obtain ⟨hvar, k, hk, hw⟩ := mem_of_get?_translate hv
    have hmem : k ∈ head.variableArgs := ((unified_of_unify h).get?_ne_none_iff k).mp (by simp [hk])
    exact ⟨k, hmem, valueOf_eq hk, hvar, hw⟩
  · rintro ⟨k, hk, rfl, hvar, hw⟩
    have hlast := facesLast_valueOf h hk
    refine get?_translate_eq_some_iff.mpr ⟨hvar, k, ⟨⟨(get?_unify_eq_some_iff h).mpr hlast, by simp [hw]⟩, ?_⟩, hw⟩
    -- nothing else faces the same variable
    rintro l ⟨hl, -⟩
    exact ((facesLast_of_get?_unify h hl).eq_of_nodup hargs hlast).le

/-- An answer binds the variables of the query that some variable of the head with a value faces at its last place, each
    to the value of the greatest of these. If no variable of the head and no argument of the query stands twice, the
    answer is made of the values of the head's variables that face variables, each under the name that stands in its
    place. -/
theorem translate_renames (h : unify head query = some m) (b : Bindings) :
    (∀ v, (translate m b).get? v ≠ none ↔ v ∈ query.variableArgs ∧ (bearers head query b v).Nonempty) ∧
      (∀ v w, (translate m b).get? v = some w ↔
        v ∈ query.variableArgs ∧ ∃ k, IsGreatest (bearers head query b v) k ∧ b.get? k = some w) ∧
      (head.variableArgs.Nodup → query.args.Nodup →
        ∃ rename : String → String,
          (∀ (i : Nat) k c, head.args[i]? = some k → query.args[i]? = some c → isVariable k → rename k = c) ∧
            (translate m b).entries.Perm (renamed head rename b)) := by
  refine ⟨fun v => get?_translate_ne_none_iff h, fun v w => get?_translate_iff h, fun hhead hargs => ?_⟩
  refine ⟨valueOf m, fun i k c hi hc hk => ?_, translate_perm h hargs b⟩
  exact valueOf_eq ((get?_unify_eq_some_iff h).mpr (facesLast_of_nodup hhead hk hi hc))

end

def tripHead : Atom := ⟨"trip", ["?A", "oslo", "?B", "?A", "?C"]⟩

/-- All variables of the head face `?Y` at their last places, and only `?A` faces `?X` before that. -/
def tripQuery : Atom := ⟨"trip", ["?X", "oslo", "?Y", "?Y", "?Y"]⟩

def tripValues : Bindings := .ofList [("?A", "1"), ("?B", "2"), ("?D", "4")]

def wayHead : Atom := ⟨"way", ["?A", "air", "?B", "?C"]⟩

def wayValues : Bindings := .ofList [("?A", "1"), ("?B", "2"), ("?C", "3"), ("?D", "4")]

/-- The trip's `?X` gets no value and its `?Y` that of `?B`. The way's `?A` and `?B` are exchanged. -/
theorem trip_renames :
    (∃ m, unify tripHead tripQuery = some m ∧ translate m tripValues = .ofList [("?Y", "2")] ∧
      ¬ (bearers tripHead tripQuery tripValues "?X").Nonempty ∧
      ∃ k, IsGreatest (bearers tripHead tripQuery tripValues "?Y") k ∧ tripValues.get? k = some "2") ∧
    ∃ m rename, unify wayHead ⟨"way", ["?B", "air", "?A", "oslo"]⟩ = some m ∧
      rename "?A" = "?B" ∧ rename "?B" = "?A" ∧ rename "?C" = "oslo" ∧
      (translate m wayValues).entries.Perm (renamed wayHead rename wayValues) := by
  have htrip : unify tripHead tripQuery = some (.ofList [("?A", "?Y"), ("?B", "?Y"), ("?C", "?Y")]) := by
    decide +kernel
  have hway : unify wayHead ⟨"way", ["?B", "air", "?A", "oslo"]⟩ =
      some (.ofList [("?A", "?B"), ("?B", "?A"), ("?C", "oslo")]) := by decide +kernel
  obtain ⟨hbound, hvalue, -⟩ := translate_renames htrip tripValues
  obtain ⟨-, -, honce⟩ := translate_renames hway wayValues
  obtain ⟨rename, hplace, hperm⟩ := honce (by decide +kernel) (by decide)
  refine ⟨⟨_, htrip, by decide +kernel, fun hx => ?_, ?_⟩, _, rename, hway, ?_, ?_, ?_, hperm⟩
  · exact (hbound "?X").mpr ⟨by decide +kernel, hx⟩ (by decide +kernel)
  · exact ((hvalue "?Y" "2").mp (by decide +kernel)).2
  · exact hplace 0 "?A" "?B" rfl rfl (by decide)
  · exact hplace 2 "?B" "?A" rfl rfl (by decide)
  · exact hplace 3 "?C" "oslo" rfl rfl (by decide)

end QueryNet
