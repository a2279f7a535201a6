/-
  QueryNet.Proofs.Substitution — matching as finding a substitution.

  A query matches a fact if and only if some values for its variables make it the fact:
  going through the arguments, the bindings so far never contradict such values
  (`matchFact_complete`), and what is found makes the query the fact (`Matched.subst`).
  There is only one way to do so, and the bindings are it, no more and no less
  (`Matched.get?_eq`).

  A rule's head matches a query if its constants stand at their places, whatever its
  variables face (`unify_eq_some_iff`). A variable is bound to the last argument that it
  faces (`get?_unify`). So the bindings make the head the query if and only if no variable
  of the head faces two different arguments; matching does not look at that
  (`unify_binds_last`).

  Proved: a source answers the queries that its fact is an instance of, with the
  variables' values, and turns all others down (`Source.answers_instances`).
-/

import QueryNet.Proofs.Entailment

namespace QueryNet

/-! ## A query and a fact -/

/-- Values that make one argument what it faces stay in agreement with the bindings. -/
theorem bindQuery_complete {σ : String → String} {x : String × String} {b : Bindings} (hx : instantiate σ x.1 = x.2)
    (hb : ∀ v w, b.get? v = some w → σ v = w) :
    ∃ b', bindQuery b x = some b' ∧ ∀ v w, b'.get? v = some w → σ v = w := by
  unfold bindQuery
  by_cases hvar : isVariable x.1
  · rw [if_pos hvar]
    rw [instantiate_variable hvar] at hx
    cases hget : b.get? x.1 with
    | none =>
      refine ⟨_, rfl, fun v w hv => ?_⟩
      rw [Table.get?_insert] at hv
      split at hv
      · rename_i he
        rw [he, hx]
        exact Option.some.inj hv
      · exact hb v w hv
    | some w =>
      have hw : w = x.2 := (hb _ _ hget).symm.trans hx
      exact ⟨b, if_pos hw, hb⟩
  · rw [if_neg hvar]
    rw [instantiate_const hvar] at hx
    exact ⟨b, if_pos hx, hb⟩

/-- Whatever values make the query the fact, matching finds bindings. -/
theorem matchFact_complete {query fact : Atom} {σ : String → String} (h : query.subst σ = fact) :
    ∃ b, matchFact query fact = some b := by
  obtain ⟨hname, hlength, hargs⟩ := Atom.subst_eq_iff.mp h
  have hstep : ∀ x ∈ query.args.zip fact.args, ∀ b : Bindings, (∀ v w, b.get? v = some w → σ v = w) →
      ∃ b', bindQuery b x = some b' ∧ ∀ v w, b'.get? v = some w → σ v = w := by
    intro x hx b hb
    exact bindQuery_complete (hargs x.1 x.2 hx) hb
  have hnone : ∀ v w, (∅ : Bindings).get? v = some w → σ v = w := by
    intro v w hv
    cases hv
  obtain ⟨b, hb, -⟩ := Turn.foldlM_some hstep hnone
  refine ⟨b, ?_⟩
  rw [matchFact, if_pos ⟨hname, hlength⟩, matchArgs_eq, hb]

theorem matchFact_isSome_iff {query fact : Atom} :
    (∃ b, matchFact query fact = some b) ↔ ∃ σ, query.subst σ = fact := by
  constructor
  · rintro ⟨b, hb⟩
    exact ⟨valueOf b, (matched_of_matchFact hb).subst fun v w hv => valueOf_eq hv⟩
  · rintro ⟨σ, hσ⟩
    exact matchFact_complete hσ

/-- A list's elements all face something in one that is as long. -/
theorem exists_mem_zip {α β : Type} {l : List α} {m : List β} (h : l.length = m.length) {a : α} (ha : a ∈ l) :
    ∃ b, (a, b) ∈ l.zip m := by
  rw [← List.map_fst_zip (Nat.le_of_eq h)] at ha
  obtain ⟨x, hx, rfl⟩ := List.mem_map.mp ha
  exact ⟨x.2, hx⟩

/-- The bindings are the values that make the query the fact, for its variables. -/
theorem Matched.get?_eq {query fact : Atom} {b : Bindings} (h : Matched query fact b) {σ : String → String}
    (hσ : query.subst σ = fact) (v : String) : b.get? v = if v ∈ query.variableArgs then some (σ v) else none := by
  split
  · rename_i hv
    obtain ⟨hmem, hvar⟩ := List.mem_filter.mp hv
    obtain ⟨w, hw⟩ := exists_mem_zip h.length hmem
    rw [h.value (v, w) hw hvar, h.value_eq hσ (h.value (v, w) hw hvar)]
  · rename_i hv
    by_contra hsome
    obtain ⟨w, hw⟩ := Option.ne_none_iff_exists'.mp hsome
    obtain ⟨hmem, hvar⟩ := h.faces v w hw
    exact hv (List.mem_filter.mpr ⟨(List.of_mem_zip hmem).1, hvar⟩)

/-- A source answers a query with bindings if some values for the query's variables make it the fact, and says that it
    has no match otherwise. The bindings are those values, and put in for the variables they make the query the fact. -/
theorem Source.answers_instances (d : Source) (q : Atom) (result : Option Bindings) :
    ((∃ b, d.answer ⟨.request, q, result⟩ = some (.response q b)) ↔ ∃ σ, q.subst σ = d.fact) ∧
      ((¬ ∃ σ, q.subst σ = d.fact) → d.answer ⟨.request, q, result⟩ = some (.noMatch q)) ∧
      ∀ b, d.answer ⟨.request, q, result⟩ = some (.response q b) →
        q.subst (valueOf b) = d.fact ∧
          ∀ σ, q.subst σ = d.fact → ∀ v, b.get? v = if v ∈ q.variableArgs then some (σ v) else none := by
  have hfound : ∀ b, d.answer ⟨.request, q, result⟩ = some (.response q b) ↔ matchFact q d.fact = some b := by
    intro b
    cases hm : matchFact q d.fact <;> simp [Source.answer, hm, Packet.response, Packet.noMatch]
  simp only [hfound]
  refine ⟨matchFact_isSome_iff, fun hno => ?_, fun b hb => ?_⟩
  · have hnone : matchFact q d.fact = none := by
      rw [Option.eq_none_iff_forall_ne_some]
      exact fun b hb => hno (matchFact_isSome_iff.mp ⟨b, hb⟩)
    simp [Source.answer, hnone]
  · have hmatched := matched_of_matchFact hb
    exact ⟨hmatched.subst fun v w hv => valueOf_eq hv, fun σ hσ => hmatched.get?_eq hσ⟩

/-- A variable that stands twice has one value. -/
example : (Source.mk "d" ⟨"same", ["a", "b"]⟩).answer (.request ⟨"same", ["?X", "?X"]⟩) =
    some (.noMatch ⟨"same", ["?X", "?X"]⟩) := by decide +kernel

/-! ## A rule's head and a query -/

/-- The head's name, number of arguments and constants are the query's. -/
structure Fits (head query : Atom) : Prop where
  name : head.name = query.name
  length : head.args.length = query.args.length
  const : ∀ x ∈ head.args.zip query.args, ¬ isVariable x.1 → x.1 = x.2

def faced (head query : Atom) (v : String) : List String :=
  ((head.args.zip query.args).filter fun x => x.1 = v).map (·.2)

theorem unify_complete {head query : Atom} (h : Fits head query) : ∃ m, unify head query = some m := by
  have hfold : ∃ m, (head.args.zip query.args).foldlM bindHead ∅ = some m ∧ True := by
    refine Turn.foldlM_some (I := fun _ => True) (fun x hx b _ => ?_) trivial
    unfold bindHead
    split
    · exact ⟨_, rfl, trivial⟩
    · rename_i hvar
      exact ⟨b, if_pos (h.const x hx hvar), trivial⟩
  obtain ⟨m, hm, -⟩ := hfold
  exact ⟨m, by rw [unify, if_pos ⟨h.name, h.length⟩, unifyArgs_eq, hm]⟩

theorem unify_eq_some_iff {head query : Atom} : (∃ m, unify head query = some m) ↔ Fits head query := by
  constructor
  · rintro ⟨m, hm⟩
    have hu := unified_of_unify hm
    exact ⟨hu.name, hu.length, hu.const⟩
  · exact unify_complete

/-- Of the arguments that a variable faces, it is bound to the last. -/
theorem get?_unify {head query : Atom} {m : Bindings} (h : unify head query = some m) {v : String} (hv : isVariable v) :
    m.get? v = (faced head query v).getLast? := by
  have hu := unified_of_unify h
  rw [unify, if_pos ⟨hu.name, hu.length⟩, unifyArgs_eq] at h
  have hvariable : ∀ x : String × String, (isVariable x.1 ∧ decide (x.1 = v)) ↔ x.1 = v := by
    intro x
    rw [decide_eq_true_eq, and_iff_right_iff_imp]
    intro hx
    rw [hx, hv]
  rw [(foldlM_bindHead h).2, Table.get?_insertAll, Table.get?_empty, Option.or_none, ← List.filter_reverse,
    List.find?_filter, faced, List.getLast?_map, List.getLast?_filter]
  simp only [hvariable]

namespace Unified

variable {head query : Atom} {m : Bindings}

/-- Matching binds the head's variables and nothing else. -/
theorem get?_ne_none_iff (h : Unified head query m) (v : String) : m.get? v ≠ none ↔ v ∈ head.variableArgs := by
  constructor
  · intro hv
    obtain ⟨c, hc⟩ := Option.ne_none_iff_exists'.mp hv
    obtain ⟨hmem, hvar⟩ := h.faces v c hc
    exact List.mem_filter.mpr ⟨(List.of_mem_zip hmem).1, hvar⟩
  · intro hv
    obtain ⟨hmem, hvar⟩ := List.mem_filter.mp hv
    obtain ⟨c, hc⟩ := exists_mem_zip h.length hmem
    exact h.bound (v, c) hc hvar

/-- Every variable is bound to all that it faces if it faces one argument only. -/
theorem facesOne_iff (h : Unified head query m) :
    FacesOne head query ↔ ∀ x ∈ head.args.zip query.args, isVariable x.1 → m.get? x.1 = some x.2 := by
  constructor
  · intro hone x hx hvar
    obtain ⟨c, hc⟩ := Option.ne_none_iff_exists'.mp (h.bound x hx hvar)
    rw [hc, hone x hx _ (h.faces x.1 c hc).1 hvar rfl]
  · intro hvalue x hx y hy hvar he
    have hvalue_x := hvalue x hx hvar
    have hvalue_y := hvalue y hy (he ▸ hvar)
    rw [he, hvalue_y] at hvalue_x
    exact (Option.some.inj hvalue_x).symm

theorem subst_eq_iff (h : Unified head query m) :
    head.subst (valueOf m) = query ↔ ∀ x ∈ head.args.zip query.args, isVariable x.1 → m.get? x.1 = some x.2 := by
  rw [Atom.subst_eq_iff]
  constructor
  · rintro ⟨-, -, hargs⟩ x hx hvar
    obtain ⟨c, hc⟩ := Option.ne_none_iff_exists'.mp (h.bound x hx hvar)
    have hx := hargs x.1 x.2 hx
    rw [instantiate_variable hvar, valueOf_eq hc] at hx
    rw [hc, hx]
  · intro hvalue
    refine ⟨h.name, h.length, fun k c hx => ?_⟩
    by_cases hvar : isVariable k
    · rw [instantiate_variable hvar, valueOf_eq (hvalue _ hx hvar)]
    · rw [instantiate_const hvar]
      exact h.const _ hx hvar

end Unified

/-- A head matches the queries that have its name, as many arguments, and its constants in their places. The bindings
    bind the head's variables, each to the last argument that it faces. They bind a variable to every argument that it
    faces, and make the head the query, if and only if no variable of the head faces two different arguments. -/
theorem unify_binds_last (head query : Atom) :
    ((∃ m, unify head query = some m) ↔ Fits head query) ∧
      ∀ m, unify head query = some m →
        (∀ v, m.get? v ≠ none ↔ v ∈ head.variableArgs) ∧
        (∀ v ∈ head.variableArgs, m.get? v = (faced head query v).getLast?) ∧
        (FacesOne head query ↔ ∀ x ∈ head.args.zip query.args, isVariable x.1 → m.get? x.1 = some x.2) ∧
        (FacesOne head query ↔ head.subst (valueOf m) = query) := by
  refine ⟨unify_eq_some_iff, fun m hm => ?_⟩
  have hu := unified_of_unify hm
  refine ⟨hu.get?_ne_none_iff, fun v hv => ?_, hu.facesOne_iff, hu.facesOne_iff.trans hu.subst_eq_iff.symm⟩
  exact get?_unify hm (List.mem_filter.mp hv).2

/-- A head with one variable twice matches a query with two different arguments there, and becomes another one. -/
theorem twin_unified :
    ∃ m, unify ⟨"twin", ["?X", "?X"]⟩ ⟨"twin", ["a", "b"]⟩ = some m ∧
      ¬ (∀ x ∈ ["?X", "?X"].zip ["a", "b"], isVariable x.1 → m.get? x.1 = some x.2) ∧
      (⟨"twin", ["?X", "?X"]⟩ : Atom).subst (valueOf m) = ⟨"twin", ["b", "b"]⟩ :=
  ⟨.ofList [("?X", "b")], by decide +kernel, by decide +kernel, by decide +kernel⟩

end QueryNet
