/-
  QueryNet.Proofs.Entailment — what a reply through a rule means.

  A rule with one subgoal is a claim about any substitution of its variables: if the
  subgoal becomes a fact, then its head holds. A solver passes the subgoal on as it
  stands, and binds the query's variables to what the fact says of the head's
  variables that face them. The query's own constants, and whether its variables agree,
  play no part in that.

  Proved: some substitution makes the subgoal the fact and gives every value of the
  reply; it makes the head the query with its values put in, if the fact has an answer
  to the query at all (`reply_entailed`). If it has none, there is a reply all the same
  (`misleading_replies`).
-/

import Mathlib.Data.List.Forall2
import QueryNet.Leaf
import QueryNet.Proofs.Gathering

namespace QueryNet

/-! ## Substitutions -/

def instantiate (σ : String → String) (arg : String) : String := if isVariable arg then σ arg else arg

def Atom.subst (σ : String → String) (a : Atom) : Atom := { a with args := a.args.map (instantiate σ) }

def valueOf (b : Bindings) (v : String) : String := (b.get? v).getD v

theorem valueOf_eq {b : Bindings} {v w : String} (h : b.get? v = some w) : valueOf b v = w := by
  rw [valueOf, h, Option.getD_some]

theorem instantiate_variable {σ : String → String} {v : String} (h : isVariable v) : instantiate σ v = σ v := if_pos h

theorem instantiate_const {σ : String → String} {c : String} (h : ¬ isVariable c) : instantiate σ c = c := if_neg h

namespace Atom

theorem subst_id (a : Atom) : a.subst id = a := by
  have : instantiate id = id := funext fun x => ite_self x
  rw [subst, this, List.map_id]

/-- Atoms become the same if their arguments do, pair by pair. -/
theorem subst_eq_subst_iff {a c : Atom} {σ τ : String → String} :
    a.subst σ = c.subst τ ↔ a.name = c.name ∧ a.args.length = c.args.length ∧
      ∀ k x, (k, x) ∈ a.args.zip c.args → instantiate σ k = instantiate τ x := by
  rw [subst, subst, Atom.mk.injEq, ← List.forall₂_eq_eq_eq, List.forall₂_map_left_iff, List.forall₂_map_right_iff,
    List.forall₂_iff_zip]

theorem subst_eq_iff {a f : Atom} {σ : String → String} :
    a.subst σ = f ↔ a.name = f.name ∧ a.args.length = f.args.length ∧
      ∀ k x, (k, x) ∈ a.args.zip f.args → instantiate σ k = x := by
  have hid : instantiate id = id := funext fun x => ite_self x
  have : a.subst σ = f.subst id ↔ _ := subst_eq_subst_iff
  rwa [subst_id, hid] at this

end Atom

namespace Matched

variable {query fact : Atom} {b : Bindings} {σ : String → String}

/-- The bindings make the query the fact. -/
theorem subst (h : Matched query fact b) (hσ : ∀ v w, b.get? v = some w → σ v = w) : query.subst σ = fact := by
  refine Atom.subst_eq_iff.mpr ⟨h.name, h.length, fun v x hx => ?_⟩
  by_cases hvar : isVariable v
  · rw [instantiate_variable hvar, hσ v x (h.value (v, x) hx hvar)]
  · rw [instantiate_const hvar]
    exact h.const (v, x) hx hvar

/-- No other values do. -/
theorem value_eq (h : Matched query fact b) (hσ : query.subst σ = fact) {v w : String} (hv : b.get? v = some w) :
    σ v = w := by
  obtain ⟨hmem, hvar⟩ := h.faces v w hv
  exact (instantiate_variable hvar).symm.trans ((Atom.subst_eq_iff.mp hσ).2.2 _ _ hmem)

end Matched

/-! ## Values of a rule's variables -/

/-- What a rule's variable stands for: its value in the fact, or else what the reply makes of the argument it faces. -/
def explain (m found reply : Bindings) (v : String) : String :=
  match found.get? v with
  | some w => w
  | none =>
    match m.get? v with
    | some c => instantiate (valueOf reply) c
    | none => v

/-- No variable of the head faces two arguments of the query. -/
def FacesOne (head query : Atom) : Prop :=
  ∀ x ∈ head.args.zip query.args, ∀ y ∈ head.args.zip query.args, isVariable x.1 → x.1 = y.1 → x.2 = y.2

section

variable {head query body fact : Atom} {m found : Bindings}

theorem explain_eq {reply : Bindings} {v w : String} (h : found.get? v = some w) : explain m found reply v = w := by
  rw [explain, h]

/-- If the fact has an answer to the query, the head becomes the query with the reply's values. -/
theorem head_subst_explain (hu : Unified head query m) (hb : Matched body fact found) (hone : FacesOne head query)
    {σ τ : String → String} (hσ : body.subst σ = fact) (hτ : head.subst σ = query.subst τ) :
    head.subst (explain m found (translate m found)) = query.subst (valueOf (translate m found)) := by
  refine Atom.subst_eq_subst_iff.mpr ⟨hu.name, hu.length, fun k c hx => ?_⟩
  have hfits := (Atom.subst_eq_subst_iff.mp hτ).2.2 k c hx
  by_cases hk : isVariable k
  · obtain ⟨c', hc'⟩ := Option.ne_none_iff_exists'.mp (hu.bound _ hx hk)
    obtain rfl : c' = c := hone _ (hu.faces k c' hc').1 _ hx hk rfl
    rw [instantiate_variable hk]
    cases hfound : found.get? k with
    | none => rw [explain, hfound, hc']
    | some w =>
      have hw : σ k = w := hb.value_eq hσ hfound
      rw [instantiate_variable hk, hw] at hfits
      rw [explain_eq hfound]
      by_cases hc : isVariable c'
      · obtain ⟨w', hw'⟩ := Option.ne_none_iff_exists'.mp
          (get?_translate_ne_none hc' hc (by rw [hfound]; exact Option.some_ne_none w))
        obtain ⟨-, k', hk', hfound'⟩ := mem_of_get?_translate hw'
        -- another variable of the head may face the same variable: then the fact has the same value for it
        obtain ⟨hmem, hkvar⟩ := hu.faces k' c' hk'
        have hfits' := (Atom.subst_eq_subst_iff.mp hτ).2.2 k' c' hmem
        rw [instantiate_variable hkvar, hb.value_eq hσ hfound'] at hfits'
        rw [instantiate_variable hc, valueOf_eq hw', hfits', hfits]
      · rw [hfits, instantiate_const hc, instantiate_const hc]
  · obtain rfl : k = c := hu.const _ hx hk
    rw [instantiate_const hk, instantiate_const hk]

/-- What a reply's values mean. -/
theorem translate_explained (hu : Unified head query m) (hb : Matched body fact found) :
    ∃ σ, body.subst σ = fact ∧
      (∀ v w, (translate m found).get? v = some w →
        isVariable v ∧ ∃ k, isVariable k ∧ (k, v) ∈ head.args.zip query.args ∧ σ k = w) ∧
      (FacesOne head query → (∃ σ' τ, body.subst σ' = fact ∧ head.subst σ' = query.subst τ) →
        head.subst σ = query.subst (valueOf (translate m found))) := by
  refine ⟨explain m found (translate m found), hb.subst fun v w hv => explain_eq hv, fun v w hv => ?_,
    fun hone ⟨σ', τ, hσ, hτ⟩ => head_subst_explain hu hb hone hσ hτ⟩
  obtain ⟨hvar, k, hk, hw⟩ := mem_of_get?_translate hv
  obtain ⟨hmem, hkvar⟩ := hu.faces k v hk
  exact ⟨hvar, k, hkvar, hmem, explain_eq hw⟩

end

/-! ## Replies -/

namespace Solver

variable {s : Solver} {query body : Atom} {r : Rule} {m : Bindings}

/-- The answer to the one subgoal of a rule makes the reply. -/
theorem Gathers.handles_reply (h : s.Gathers query r m) (hbody : r.subgoals = [body]) (hcomp : r.composition = none)
    (requester sender : NodeId) (b : Bindings) :
    ∃ t, (s.withPending (s.pending.insertAll (r.entries m query requester))).Handles sender (.response body b) t ∧
      t.out = [⟨requester, .response query (translate m b)⟩] := by
  obtain ⟨outs, houts, he⟩ := h.handles_responses requester [(sender, body, b)] (by rw [hbody]; exact .refl _)
  have hvalue : r.conclude m (Expansion.gathered [(body, b)]) = translate m b := by
    rw [Rule.conclude, hcomp]
    exact congrArg (translate m) (Table.empty_merge b)
  rw [hbody] at he
  obtain ⟨t, ht, hout⟩ := houts.singleton
  refine ⟨t, ht, ?_⟩
  rw [← hvalue]
  exact (List.cons.inj (hout.symm.trans he)).1

/-- Whatever a source's reply to the subgoal makes the solver send is a reply to the query that the fact explains:
    some substitution makes the subgoal the fact and gives the values of the query's variables, and with them the
    query is what the rule's head becomes, if the fact has an answer to it and no variable of the head faces two
    of its arguments. -/
theorem reply_entailed (h : s.Gathers query r m) (hbody : r.subgoals = [body]) (hcomp : r.composition = none)
    (source : Source) (requester : NodeId) :
    ∃ t, s.Handles requester (.request query) t ∧ ∀ o ∈ t.out, ∀ reply, source.answer o.packet = some reply →
      ∃ t', t.solver.Handles source.id reply t' ∧ ∀ o' ∈ t'.out, ∃ b, o' = ⟨requester, .response query b⟩ ∧
        ∃ σ, body.subst σ = source.fact ∧
          (∀ v w, b.get? v = some w →
            isVariable v ∧ ∃ k, isVariable k ∧ (k, v) ∈ r.head.args.zip query.args ∧ σ k = w) ∧
          (FacesOne r.head query → (∃ σ' τ, body.subst σ' = source.fact ∧ r.head.subst σ' = query.subst τ) →
            r.head.subst σ = query.subst (valueOf b)) := by
  obtain ⟨t, ht, hsolver, hreq⟩ := h.handles_request requester
  refine ⟨t, ht, fun o ho reply hreply => ?_⟩
  obtain ⟨g, hg, hpacket⟩ := hreq o ho
  obtain rfl : g = body := List.mem_singleton.mp (hbody ▸ hg)
  rw [hpacket, Source.answer, if_neg (fun hk => hk rfl)] at hreply
  cases hmatch : matchFact g source.fact with
  | none =>
    simp only [Packet.request, hmatch, Option.some.injEq] at hreply
    subst hreply
    exact ⟨_, ⟨0, rfl⟩, fun o' ho' => absurd ho' List.not_mem_nil⟩
  | some found =>
    simp only [Packet.request, hmatch, Option.some.injEq] at hreply
    subst hreply
    obtain ⟨t', ht', hout⟩ := h.handles_reply hbody hcomp requester source.id found
    rw [← hsolver] at ht'
    refine ⟨t', ht', fun o' ho' => ⟨translate m found, ?_, ?_⟩⟩
    · exact List.mem_singleton.mp (hout ▸ ho')
    · exact translate_explained (unified_of_unify h.unify) (matched_of_matchFact hmatch)

def clerk (r : Rule) (fact : Atom) : Solver :=
  { Solver.create "clerk" .standard with
    rules := [r]
    routes := .ofList [(fact.key, ⟨"archive", 0⟩)]
    interfaces := .ofList [("archive", ⟨.leaf, 0⟩)] }

theorem clerk_gathers {fact : Atom} (hunify : r.unify query = some m) (hbody : r.subgoals = [body])
    (hleaf : r.unify body = none) : (clerk r fact).Gathers query r m where
  mem := List.mem_singleton_self r
  unify := hunify
  only _ hr _ := List.mem_singleton.mp hr
  subgoals := hbody ▸ List.cons_ne_nil body []
  nodup := hbody ▸ List.nodup_singleton body
  leaves g hg r' hr := by
    rw [hbody] at hg
    rw [List.mem_singleton.mp hg, List.mem_singleton.mp hr, hleaf]

def stockRule : Rule := ⟨⟨"stock", ["?I", "shop"]⟩, [⟨"store", ["?I"]⟩]⟩

/-- The reply says what the store has, and the query with that put in is the head for it. -/
theorem stock_entailed :
    ∃ t, (clerk stockRule ⟨"store", ["milk"]⟩).Handles "user" (.request ⟨"stock", ["?w", "shop"]⟩) t ∧
      ∀ o ∈ t.out, ∀ reply, (Source.mk "archive" ⟨"store", ["milk"]⟩).answer o.packet = some reply →
        ∃ t', t.solver.Handles "archive" reply t' ∧ ∀ o' ∈ t'.out, ∃ b, o' = ⟨"user", .response ⟨"stock", ["?w", "shop"]⟩ b⟩ ∧
          ∃ σ, (⟨"store", ["?I"]⟩ : Atom).subst σ = ⟨"store", ["milk"]⟩ ∧
            stockRule.head.subst σ = (⟨"stock", ["?w", "shop"]⟩ : Atom).subst (valueOf b) := by
  have hone : FacesOne stockRule.head ⟨"stock", ["?w", "shop"]⟩ := by
    have : ∀ x ∈ stockRule.head.args.zip ["?w", "shop"], ∀ y ∈ stockRule.head.args.zip ["?w", "shop"],
      isVariable x.1 → x.1 = y.1 → x.2 = y.2 := by decide +kernel
    exact this
  have hanswer : ∃ σ τ, (⟨"store", ["?I"]⟩ : Atom).subst σ = ⟨"store", ["milk"]⟩ ∧
      stockRule.head.subst σ = (⟨"stock", ["?w", "shop"]⟩ : Atom).subst τ :=
    ⟨fun _ => "milk", fun _ => "milk", by decide +kernel, by decide +kernel⟩
  have hgathers : (clerk stockRule ⟨"store", ["milk"]⟩).Gathers ⟨"stock", ["?w", "shop"]⟩ stockRule (.ofList [("?I", "?w")]) :=
    clerk_gathers (by decide +kernel) rfl (by decide +kernel)
  obtain ⟨t, ht, hreply⟩ := reply_entailed hgathers rfl rfl ⟨"archive", ⟨"store", ["milk"]⟩⟩ "user"
  refine ⟨t, ht, fun o ho reply hr => ?_⟩
  obtain ⟨t', ht', hout⟩ := hreply o ho reply hr
  refine ⟨t', ht', fun o' ho' => ?_⟩
  obtain ⟨b, hb, σ, hσ, -, hhead⟩ := hout o' ho'
  exact ⟨b, hb, σ, hσ, hhead hone hanswer⟩

/-- From the fact, a solver with the rule replies to the query with values that no substitution explains. -/
def Misleads (r : Rule) (query fact : Atom) : Prop :=
  ∃ m body t reply t' b, (clerk r fact).Gathers query r m ∧ r.subgoals = [body] ∧ r.composition = none ∧
    (clerk r fact).Handles "user" (.request query) t ∧ t.out = [⟨"archive", .request body⟩] ∧
    (Source.mk "archive" fact).answer (.request body) = some reply ∧ t.solver.Handles "archive" reply t' ∧
    t'.out = [⟨"user", .response query b⟩] ∧ ∀ σ, body.subst σ = fact → r.head.subst σ ≠ query.subst (valueOf b)

theorem misleads {fact : Atom} (m found : Bindings) (hunify : r.unify query = some m) (hbody : r.subgoals = [body])
    (hleaf : r.unify body = none) (hcomp : r.composition = none)
    (hask : ((clerk r fact).handle 2 "user" (.request query)).map (·.out) = some [⟨"archive", .request body⟩])
    (hfound : (Source.mk "archive" fact).answer (.request body) = some (.response body found))
    (hno : ∀ σ, body.subst σ = fact → r.head.subst σ ≠ query.subst (valueOf (translate m found))) :
    Misleads r query fact := by
  have h : (clerk r fact).Gathers query r m := clerk_gathers hunify hbody hleaf
  obtain ⟨t, ht, hsolver, -⟩ := h.handles_request "user"
  obtain ⟨u, hu, hout⟩ := Option.map_eq_some_iff.mp hask
  obtain rfl : t = u := ht.unique ⟨2, hu⟩
  obtain ⟨t', ht', hreply⟩ := h.handles_reply hbody hcomp "user" "archive" found
  rw [← hsolver] at ht'
  exact ⟨m, body, t, _, t', _, h, hbody, hcomp, ht, hout, hfound, ht', hreply, hno⟩

/-- There is a reply although a constant of the query is not the fact's, although a variable of the query stands
    for two values of the fact, and although a variable of the head faces two variables of the query. -/
theorem misleading_replies :
    Misleads ⟨⟨"price", ["?I"]⟩, [⟨"quote", ["?I"]⟩]⟩ ⟨"price", ["tea"]⟩ ⟨"quote", ["milk"]⟩ ∧
      Misleads ⟨⟨"same", ["?X", "?Y"]⟩, [⟨"pair", ["?X", "?Y"]⟩]⟩ ⟨"same", ["?A", "?A"]⟩ ⟨"pair", ["1", "2"]⟩ ∧
      Misleads ⟨⟨"twin", ["?X", "?X"]⟩, [⟨"child", ["?X"]⟩]⟩ ⟨"twin", ["?A", "?B"]⟩ ⟨"child", ["ann"]⟩ := by
  refine ⟨misleads (.ofList [("?I", "tea")]) (.ofList [("?I", "milk")]) (by decide +kernel) rfl
      (by decide +kernel) rfl (by decide +kernel) (by decide +kernel) fun σ hσ he => ?_,
    misleads (.ofList [("?X", "?A"), ("?Y", "?A")]) (.ofList [("?X", "1"), ("?Y", "2")]) (by decide +kernel) rfl
      (by decide +kernel) rfl (by decide +kernel) (by decide +kernel) fun σ hσ he => ?_,
    misleads (.ofList [("?X", "?B")]) (.ofList [("?X", "ann")]) (by decide +kernel) rfl
      (by decide +kernel) rfl (by decide +kernel) (by decide +kernel) fun σ hσ he => ?_⟩
  · have hmilk := (Atom.subst_eq_iff.mp hσ).2.2 "?I" "milk" (by decide)
    have htea := (Atom.subst_eq_subst_iff.mp he).2.2 "?I" "tea" (by decide)
    exact absurd (hmilk.symm.trans htea) (by decide +kernel)
  · have hone := (Atom.subst_eq_iff.mp hσ).2.2 "?X" "1" (by decide)
    have htwo := (Atom.subst_eq_subst_iff.mp he).2.2 "?X" "?A" (by decide)
    exact absurd (hone.symm.trans htwo) (by decide +kernel)
  · have hann := (Atom.subst_eq_iff.mp hσ).2.2 "?X" "ann" (by decide)
    have hopen := (Atom.subst_eq_subst_iff.mp he).2.2 "?X" "?A" (by decide)
    exact absurd (hann.symm.trans hopen) (by decide +kernel)

end Solver

end QueryNet
