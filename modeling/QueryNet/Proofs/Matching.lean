/-
  QueryNet.Proofs.Matching — what matching, composing and translating say of bindings.

  The arguments of a head face those of a query, pair by pair, and matching goes
  through the pairs (`unifyArgs_eq`, `matchArgs_eq`). Matching a rule's head with a
  query binds each variable of the head to an argument that it faces (`Unified`);
  matching a query with a fact binds each variable of the query to every value that it
  faces (`Matched`). What the query's variables are bound to in the end comes from the
  head's variables that face them (`mem_of_get?_translate`), so the answer depends on
  the values of these and of the variables that are composed (`conclude_congr`).
-/

import QueryNet.Proofs.Expansion
import QueryNet.Proofs.Table

namespace QueryNet

/-! ## A rule's head and a query -/

structure Unified (head query : Atom) (m : Bindings) : Prop where
  name : head.name = query.name
  length : head.args.length = query.args.length
  const : ∀ x ∈ head.args.zip query.args, ¬ isVariable x.1 → x.1 = x.2
  bound : ∀ x ∈ head.args.zip query.args, isVariable x.1 → m.get? x.1 ≠ none
  faces : ∀ h c, m.get? h = some c → (h, c) ∈ head.args.zip query.args ∧ isVariable h

def bindHead (b : Bindings) (x : String × String) : Option Bindings :=
  if isVariable x.1 then some (b.insert x.1 x.2) else if x.1 = x.2 then some b else none

theorem unifyArgs_eq (hs qs : List String) (b : Bindings) : unifyArgs hs qs b = (hs.zip qs).foldlM bindHead b := by
  induction hs generalizing qs b with
  | nil => rfl
  | cons h hs ih =>
    cases qs with
    | nil => rfl
    | cons q qs =>
      rw [unifyArgs, List.zip_cons_cons, List.foldlM_cons, bindHead]
      split
      · exact ih qs _
      · split
        · exact ih qs _
        · rfl

/-- The constants must be the same; then the variables are bound one after another. -/
theorem foldlM_bindHead {l : List (String × String)} {b m : Bindings} (h : l.foldlM bindHead b = some m) :
    (∀ x ∈ l, ¬ isVariable x.1 → x.1 = x.2) ∧ m = b.insertAll (l.filter fun x => isVariable x.1) := by
  induction l generalizing b with
  | nil =>
    cases h
    exact ⟨fun x hx => absurd hx List.not_mem_nil, rfl⟩
  | cons x l ih =>
    rw [List.foldlM_cons] at h
    obtain ⟨b', hb, h⟩ := Option.bind_eq_some_iff.mp h
    obtain ⟨hconst, hm⟩ := ih h
    unfold bindHead at hb
    split at hb
    · rename_i hvar
      cases hb
      refine ⟨List.forall_mem_cons.mpr ⟨fun hx => absurd hvar hx, hconst⟩, ?_⟩
      rw [hm, List.filter_cons, if_pos hvar, Table.insertAll_cons]
    · rename_i hvar
      split at hb
      · rename_i heq
        cases hb
        refine ⟨List.forall_mem_cons.mpr ⟨fun _ => heq, hconst⟩, ?_⟩
        rw [hm, List.filter_cons, if_neg hvar]
      · cases hb

theorem unified_of_unify {head query : Atom} {m : Bindings} (h : unify head query = some m) : Unified head query m := by
  unfold unify at h
  split at h
  · rename_i hsame
    rw [unifyArgs_eq] at h
    obtain ⟨hconst, rfl⟩ := foldlM_bindHead h
    refine ⟨hsame.1, hsame.2, hconst, fun x hx hvar => ?_, fun h c hc => ?_⟩
    · exact Table.get?_insertAll_ne_none (List.mem_map.mpr ⟨x, List.mem_filter.mpr ⟨hx, hvar⟩, rfl⟩) ∅
    · rcases Table.mem_or_of_get?_insertAll hc with hmem | hmem
      · exact List.mem_filter.mp hmem
      · cases hmem
  · cases h

/-! ## A query and a fact -/

structure Matched (query fact : Atom) (b : Bindings) : Prop where
  name : query.name = fact.name
  length : query.args.length = fact.args.length
  const : ∀ x ∈ query.args.zip fact.args, ¬ isVariable x.1 → x.1 = x.2
  value : ∀ x ∈ query.args.zip fact.args, isVariable x.1 → b.get? x.1 = some x.2
  faces : ∀ v w, b.get? v = some w → (v, w) ∈ query.args.zip fact.args ∧ isVariable v

def bindQuery (b : Bindings) (x : String × String) : Option Bindings :=
  if isVariable x.1 then
    match b.get? x.1 with
    | none => some (b.insert x.1 x.2)
    | some w => if w = x.2 then some b else none
  else if x.1 = x.2 then some b
  else none

theorem matchArgs_eq (qs vs : List String) (b : Bindings) : matchArgs qs vs b = (qs.zip vs).foldlM bindQuery b := by
  induction qs generalizing vs b with
  | nil => rfl
  | cons q qs ih =>
    cases vs with
    | nil => rfl
    | cons v vs =>
      rw [matchArgs, List.zip_cons_cons, List.foldlM_cons, bindQuery]
      split
      · cases b.get? q with
        | none => exact ih vs _
        | some w =>
          dsimp only
          split
          · exact ih vs _
          · rfl
      · split
        · exact ih vs _
        · rfl

/-- A variable is bound to the value that it faces, and what was bound before stays so. -/
theorem bindQuery_some {x : String × String} {b b' : Bindings} (h : bindQuery b x = some b') :
    (¬ isVariable x.1 → x.1 = x.2) ∧ (isVariable x.1 → b'.get? x.1 = some x.2) ∧
      (∀ v w, b.get? v = some w → b'.get? v = some w) ∧
        ∀ v w, b'.get? v = some w → b.get? v = some w ∨ (v, w) = x ∧ isVariable v := by
  unfold bindQuery at h
  split at h
  · rename_i hvar
    split at h
    · rename_i hnone
      cases h
      refine ⟨fun hx => absurd hvar hx, fun _ => Table.get?_insert_self b x.1 x.2, fun v w hv => ?_, fun v w hv => ?_⟩
      · rw [Table.get?_insert, if_neg fun he => by rw [he, hnone] at hv; cases hv]
        exact hv
      · rw [Table.get?_insert] at hv
        split at hv
        · rename_i he
          cases hv
          exact .inr ⟨Prod.ext he rfl, he ▸ hvar⟩
        · exact .inl hv
    · rename_i w hw
      split at h
      · rename_i he
        cases h
        exact ⟨fun hx => absurd hvar hx, fun _ => hw.trans (congrArg some he), fun _ _ hv => hv, fun _ _ hv => .inl hv⟩
      · cases h
  · rename_i hvar
    split at h
    · rename_i he
      cases h
      exact ⟨fun _ => he, fun hx => absurd hx hvar, fun _ _ hv => hv, fun _ _ hv => .inl hv⟩
    · cases h

theorem foldlM_bindQuery {l : List (String × String)} {b b' : Bindings} (h : l.foldlM bindQuery b = some b') :
    (∀ x ∈ l, ¬ isVariable x.1 → x.1 = x.2) ∧ (∀ x ∈ l, isVariable x.1 → b'.get? x.1 = some x.2) ∧
      (∀ v w, b.get? v = some w → b'.get? v = some w) ∧
        ∀ v w, b'.get? v = some w → b.get? v = some w ∨ (v, w) ∈ l ∧ isVariable v := by
  induction l generalizing b with
  | nil =>
    cases h
    exact ⟨fun x hx => absurd hx List.not_mem_nil, fun x hx => absurd hx List.not_mem_nil, fun _ _ hv => hv,
      fun _ _ hv => .inl hv⟩
  | cons x l ih =>
    rw [List.foldlM_cons] at h
    obtain ⟨c, hc, h⟩ := Option.bind_eq_some_iff.mp h
    obtain ⟨hxconst, hxvalue, hxkeep, hxfaces⟩ := bindQuery_some hc
    obtain ⟨hconst, hvalue, hkeep, hfaces⟩ := ih h
    refine ⟨List.forall_mem_cons.mpr ⟨hxconst, hconst⟩, List.forall_mem_cons.mpr ⟨fun hvar => ?_, hvalue⟩,
      fun v w hv => hkeep v w (hxkeep v w hv), fun v w hv => ?_⟩
    · exact hkeep _ _ (hxvalue hvar)
    · rcases hfaces v w hv with hv | ⟨hmem, hvar⟩
      · exact (hxfaces v w hv).imp id fun ⟨he, hvar⟩ => ⟨he ▸ List.mem_cons_self .., hvar⟩
      · exact .inr ⟨List.mem_cons_of_mem _ hmem, hvar⟩

theorem matched_of_matchFact {query fact : Atom} {b : Bindings} (h : matchFact query fact = some b) :
    Matched query fact b := by
  unfold matchFact at h
  split at h
  · rename_i hsame
    rw [matchArgs_eq] at h
    obtain ⟨hconst, hvalue, -, hfaces⟩ := foldlM_bindQuery h
    refine ⟨hsame.1, hsame.2, hconst, hvalue, fun v w hv => (hfaces v w hv).resolve_left fun hnone => ?_⟩
    cases hnone
  · cases h

/-! ## Answers -/

theorem surface_eq_some_iff {b : Bindings} {x y : String × String} :
    surface b x = some y ↔ isVariable x.2 ∧ x.2 = y.1 ∧ b.get? x.1 = some y.2 := by
  obtain ⟨v, w⟩ := y
  by_cases hvar : isVariable x.2
  · rw [surface, if_pos hvar]
    simp [hvar, and_comm]
  · rw [surface, if_neg hvar]
    simp [hvar]

/-- A binding that the caller learns comes from a variable of the head that faces its variable. -/
theorem mem_of_get?_translate {m b : Bindings} {v w : String} (h : (translate m b).get? v = some w) :
    isVariable v ∧ ∃ k, m.get? k = some v ∧ b.get? k = some w := by
  rcases Table.mem_or_of_get?_insertAll h with hmem | hmem
  · obtain ⟨⟨k, c⟩, hk, hsurface⟩ := List.mem_filterMap.mp hmem
    obtain ⟨hvar, rfl, hw⟩ := surface_eq_some_iff.mp hsurface
    exact ⟨hvar, k, Table.mem_entries_iff.mp hk, hw⟩
  · cases hmem

/-- A variable of the caller that faces a variable with a value gets one. -/
theorem get?_translate_ne_none {m b : Bindings} {k v : String} (hk : m.get? k = some v) (hvar : isVariable v)
    (hb : b.get? k ≠ none) : (translate m b).get? v ≠ none := by
  obtain ⟨w, hw⟩ := Option.ne_none_iff_exists'.mp hb
  have hsurface : surface b (k, v) = some (v, w) := surface_eq_some_iff.mpr ⟨hvar, rfl, hw⟩
  have hmem := List.mem_filterMap.mpr ⟨_, Table.mem_entries_iff.mpr hk, hsurface⟩
  exact Table.get?_insertAll_ne_none (List.mem_map.mpr ⟨_, hmem, rfl⟩) _

theorem translate_congr {m b b' : Bindings} (h : ∀ k c, m.get? k = some c → isVariable c → b.get? k = b'.get? k) :
    translate m b = translate m b' := by
  refine congrArg Table.ofList (List.filterMap_congr fun x hx => ?_)
  unfold surface
  split
  · rename_i hvar
    rw [h x.1 x.2 (Table.mem_entries_iff.mp hx) hvar]
  · rfl

theorem compose_congr {pattern : Atom} {b b' : Bindings} (hsources : ∀ v ∈ pattern.args.tail, b.get? v = b'.get? v)
    {k : String} (hk : b.get? k = b'.get? k) : (compose pattern b).get? k = (compose pattern b').get? k := by
  unfold compose
  split
  · exact hk
  · rename_i target sources hargs
    have hjoin : sources.filterMap b.get? = sources.filterMap b'.get? :=
      List.filterMap_congr fun v hv => hsources v (by rw [hargs]; exact hv)
    rw [Table.get?_insert, Table.get?_insert, Table.get?_foldl_erase, Table.get?_foldl_erase, hjoin, hk]

namespace Rule

/-- A variable whose value the rule's answer is made of: it faces a variable of the query, or it is composed. -/
def Uses (r : Rule) (m : Bindings) (v : String) : Prop :=
  (∃ c, m.get? v = some c ∧ isVariable c) ∨ ∃ pattern, r.composition = some pattern ∧ v ∈ pattern.args.tail

/-- Values of other variables do not matter for the answer. -/
theorem conclude_congr {r : Rule} {m b b' : Bindings} (h : ∀ v, r.Uses m v → b.get? v = b'.get? v) :
    r.conclude m b = r.conclude m b' := by
  have hfacing : ∀ k c, m.get? k = some c → isVariable c → b.get? k = b'.get? k := fun k c hk hc => h k (.inl ⟨c, hk, hc⟩)
  unfold conclude
  split
  · rename_i pattern hpattern
    exact translate_congr fun k c hk hc => compose_congr (fun v hv => h v (.inr ⟨pattern, hpattern, hv⟩)) (hfacing k c hk hc)
  · exact translate_congr hfacing

end Rule

end QueryNet
