/-
  QueryNet.Proofs.Spelling — the ways of writing an atom.

  An argument is written between quotes that it does not hold, or as it is: then it has
  no quote and no blank at its ends, its parentheses are balanced and each comma stands
  inside a pair of them. Blanks may stand around each argument, the name and the
  parentheses, and a full stop may end the text. Without arguments the parentheses may
  go as well.

  Proved: an atom is read from every way of writing it, and what is shown of it is one
  of them (`parse_spelled`). A text that is read stands as the cuts at its first and
  last parenthesis say (`parseChars_eq_ok_iff`), and each written argument is whole, so
  the split at the commas gives back what was written.
-/

import Mathlib.Data.List.Forall2
import Mathlib.Data.List.Infix
import QueryNet.Atom
import QueryNet.Proofs.Scanning

namespace QueryNet

open Text

/-! ## Parts that are read one by one -/

theorem mapM_eq_some_iff {α β : Type} {read : α → Option β} {as : List α} {bs : List β} :
    as.mapM read = some bs ↔ List.Forall₂ (fun a b => read a = some b) as bs := by
  induction as generalizing bs with
  | nil => simp [eq_comm]
  | cons a as ih =>
    rw [List.mapM_cons, List.forall₂_cons_left_iff]
    cases ha : read a with
    | none => simp
    | some b =>
      cases has : as.mapM read with
      | none => simp_all
      | some bs' =>
        rw [has] at ih
        simp [← ih, eq_comm]

theorem mapM_eq_ok_iff {ε α β : Type} {read : α → Except ε β} {as : List α} {bs : List β} :
    as.mapM read = .ok bs ↔ List.Forall₂ (fun a b => read a = .ok b) as bs := by
  induction as generalizing bs with
  | nil => simp [pure, Except.pure, eq_comm]
  | cons a as ih =>
    rw [List.mapM_cons, List.forall₂_cons_left_iff]
    cases ha : read a with
    | error e => simp [bind, Except.bind]
    | ok b =>
      cases has : as.mapM read with
      | error e => simp_all [bind, Except.bind]
      | ok bs' =>
        rw [has] at ih
        simp [← ih, eq_comm, bind, Except.bind, pure, Except.pure]

theorem exists_of_forall₂ {α β : Type} {R : α → β → Prop} {as : List α} {bs : List β} (h : List.Forall₂ R as bs) {b : β}
    (hb : b ∈ bs) : ∃ a ∈ as, R a b := by
  induction h with
  | nil => cases hb
  | @cons a c as bs hac _ ih =>
    cases hb with
    | head => exact ⟨a, List.mem_cons_self .., hac⟩
    | tail _ hb =>
      obtain ⟨a', ha', hr⟩ := ih hb
      exact ⟨a', List.mem_cons_of_mem _ ha', hr⟩

/-! ## Balanced texts -/

namespace Text

variable {cs : List Char}

structure Closed (cs : List Char) : Prop where
  balanced : cs.count '(' = cs.count ')'
  opened : ∀ l ∈ cs.inits, l.count ')' ≤ l.count '('
  inside : ∀ l ∈ cs.inits, l.getLast? = some ',' → l.count ')' < l.count '('

instance (cs : List Char) : Decidable (Closed cs) :=
  decidable_of_iff
    (cs.count '(' = cs.count ')' ∧ (∀ l ∈ cs.inits, l.count ')' ≤ l.count '(') ∧
      ∀ l ∈ cs.inits, l.getLast? = some ',' → l.count ')' < l.count '(')
    ⟨fun h => ⟨h.1, h.2.1, h.2.2⟩, fun h => ⟨h.1, h.2, h.3⟩⟩

/-- Past a text without quotes a scan is as deep as it has opened more parentheses than closed. -/
theorem passes_unquoted (hquote : ∀ c ∈ cs, isQuote c = false) (hopened : ∀ l ∈ cs.inits, l.count ')' ≤ l.count '(')
    (hinside : ∀ l ∈ cs.inits, l.getLast? = some ',' → l.count ')' < l.count '(') :
    Passes .top cs ⟨none, cs.count '(' - cs.count ')'⟩ := by
  induction cs using List.reverseRecOn with
  | nil => exact .nil _
  | append_singleton cs c ih =>
    have hfront : ∀ l ∈ cs.inits, l ∈ (cs ++ [c]).inits := fun l hl =>
      (List.mem_inits l _).mpr (((List.mem_inits l cs).mp hl).trans (List.prefix_append cs [c]))
    have hself : cs ++ [c] ∈ (cs ++ [c]).inits := (List.mem_inits _ _).mpr (List.prefix_refl _)
    have hpass := ih (fun d hd => hquote d (List.mem_append_left _ hd)) (fun l hl => hopened l (hfront l hl))
      (fun l hl => hinside l (hfront l hl))
    have hbefore := hopened cs (hfront cs ((List.mem_inits _ _).mpr (List.prefix_refl _)))
    have hafter := hopened _ hself
    have hc := hquote c (List.mem_append_right _ (List.mem_singleton_self c))
    have hcut := hinside _ hself
    rw [List.getLast?_concat] at hcut
    rw [List.count_append, List.count_append, List.count_singleton, List.count_singleton] at hafter hcut ⊢
    refine hpass.append (.cons ?_ ?_ (.nil _))
    · rintro ⟨htop, rfl⟩
      have hdepth : cs.count '(' - cs.count ')' = 0 := congrArg Nesting.depth htop
      have := hcut rfl
      simp at this
      omega
    · by_cases hleft : c = '('
      · subst hleft
        simp [Nesting.step, isQuote]
        omega
      · by_cases hright : c = ')'
        · subst hright
          simp [Nesting.step, isQuote] at hafter ⊢
          omega
        · simp [Nesting.step, hc, hleft, hright]

theorem Closed.whole (h : Closed cs) (hquote : ∀ c ∈ cs, isQuote c = false) : Whole cs := by
  have hpass := passes_unquoted hquote h.opened h.inside
  rwa [h.balanced, Nat.sub_self] at hpass

end Text

namespace Atom

/-! ## What is read -/

structure Name (cs : List Char) : Prop where
  nonempty : cs ≠ []
  trimmed : Trimmed cs
  unopened : '(' ∉ cs

def stripped (cs : List Char) : List Char := trimEnd (dropStop (trim cs))

inductive Reading (text : String) : List Char → Atom → Prop
  | bare {body : List Char} : body ≠ [] → '(' ∉ body → ')' ∉ body → Reading text body ⟨String.ofList body, []⟩
  | applied {front inner after : List Char} {args : List String} : '(' ∉ front → ')' ∉ after → trim front ≠ [] →
      Blanks after → readArgs text inner = .ok args →
      Reading text (front ++ '(' :: (inner ++ ')' :: after)) ⟨String.ofList (trim front), args⟩

theorem parseChars_eq_ok_iff {text : String} {cs : List Char} {a : Atom} :
    parseChars text cs = .ok a ↔ Reading text (stripped cs) a := by
  rw [parseChars, ← stripped]
  generalize stripped cs = body
  constructor
  · intro h
    split at h
    · cases h
    · rename_i hbody
      split at h
      · rename_i hcut
        split at h
        · cases h
        · rename_i hclose
          cases h
          exact .bare hbody (cutAt_eq_none_iff.mp hcut) hclose
      · rename_i front rest hcut
        obtain ⟨hfront, rfl⟩ := cutAt_eq_some_iff.mp hcut
        dsimp only at h
        by_cases hname : trim front = []
        · rw [if_pos hname] at h
          cases h
        · rw [if_neg hname] at h
          split at h
          · cases h
          · rename_i inner after hlast
            obtain ⟨hafter, rfl⟩ := cutAtLast_eq_some_iff.mp hlast
            by_cases hblank : trim after = []
            · rw [if_neg (not_not.mpr hblank)] at h
              cases hargs : readArgs text inner with
              | error e =>
                rw [hargs] at h
                cases h
              | ok args =>
                rw [hargs] at h
                cases h
                exact .applied hfront hafter hname (trim_eq_nil_iff.mp hblank) hargs
            · rw [if_pos hblank] at h
              cases h
  · intro h
    cases h with
    | bare hbody hopen hclose => rw [if_neg hbody, cutAt_eq_none_iff.mpr hopen, if_neg hclose]
    | @applied front inner after args hfront hafter hname hblank hargs =>
      rw [if_neg (by simp), cutAt_eq_some_iff.mpr ⟨hfront, rfl⟩]
      dsimp only
      rw [if_neg hname, cutAtLast_eq_some_iff.mpr ⟨hafter, rfl⟩]
      dsimp only
      rw [if_neg (not_not.mpr (trim_eq_nil_iff.mpr hblank)), hargs]
      rfl

theorem readArgs_eq_ok {text : String} {inner : List Char} {args : List String} (h : readArgs text inner = .ok args) :
    (Blanks inner ∧ args = []) ∨ ∃ pieces, splitTop inner = some pieces ∧ pieces.mapM readArg = some args := by
  unfold readArgs at h
  split at h
  · rename_i hblank
    cases h
    exact .inl ⟨trim_eq_nil_iff.mp hblank, rfl⟩
  · split at h
    · cases h
    · rename_i pieces hsplit
      split at h
      · cases h
      · rename_i args' hargs
        cases h
        exact .inr ⟨pieces, hsplit, hargs⟩

/-- A name that was read could be read again. -/
theorem Reading.name {text : String} {body : List Char} {a : Atom} (h : Reading text body a) (hbody : Trimmed body) :
    Name a.name.toList := by
  cases h with
  | bare hne hopen _ => exact ⟨by simpa using hne, by simpa using hbody, by simpa using hopen⟩
  | @applied front inner after args hfront _ hname _ _ =>
    rw [String.toList_ofList]
    exact ⟨hname, trimmed_trim front, fun hmem => hfront ((trim_isInfix front).subset hmem)⟩

theorem trimmed_stripped (cs : List Char) : Trimmed (stripped cs) :=
  ⟨first_of_isPrefix ((trimEnd_isPrefix _).trans (dropStop_isPrefix _)) (trimmed_trim cs).first, trimEnd_last _⟩

theorem stripped_isInfix (cs : List Char) : stripped cs <:+: cs :=
  ((trimEnd_isPrefix _).trans (dropStop_isPrefix _)).isInfix.trans (trim_isInfix cs)

theorem unquote_isInfix (cs : List Char) : unquote cs <:+: cs := by
  cases cs with
  | nil => exact List.infix_rfl
  | cons q cs =>
    rw [unquote]
    split
    · exact (List.dropLast_prefix cs).isInfix.trans (List.suffix_cons q cs).isInfix
    · exact List.infix_rfl

theorem readArg_isInfix {piece : List Char} {x : String} (h : readArg piece = some x) : x.toList <:+: piece := by
  rw [readArg] at h
  split at h
  · cases h
  · cases h
    rw [String.toList_ofList]
    exact (unquote_isInfix _).trans (trim_isInfix piece)

/-- What stands in an atom stood in its text. -/
theorem Reading.within {text : String} {body : List Char} {a : Atom} (h : Reading text body a) :
    a.name.toList <:+: body ∧ ∀ x ∈ a.args, x.toList <:+: body := by
  cases h with
  | bare => exact ⟨by simp, by simp⟩
  | @applied front inner after args _ _ _ _ hargs =>
    have hinner : inner <:+: front ++ '(' :: (inner ++ ')' :: after) := ⟨front ++ ['('], ')' :: after, by simp⟩
    refine ⟨?_, fun x hx => ?_⟩
    · rw [String.toList_ofList]
      exact (trim_isInfix front).trans (List.prefix_append _ _).isInfix
    · obtain ⟨-, rfl⟩ | ⟨pieces, hsplit, hmap⟩ := readArgs_eq_ok hargs
      · cases hx
      · obtain ⟨-, -, rfl⟩ := splitTop_eq_some_iff.mp hsplit
        obtain ⟨piece, hmem, hread⟩ := exists_of_forall₂ (mapM_eq_some_iff.mp hmap) hx
        exact ((readArg_isInfix hread).trans (infix_intercalate hmem)).trans hinner

/-- A name that was cut from a whole text is whole. -/
theorem Reading.whole {text : String} {body : List Char} {a : Atom} (h : Reading text body a) (hbody : Whole body) :
    Whole a.name.toList := by
  cases h with
  | bare => rwa [String.toList_ofList]
  | @applied front inner after args hfront _ _ hafter hargs =>
    have hinner : inner.foldl quoteAfter none = none := by
      obtain ⟨hblank, -⟩ | ⟨pieces, hsplit, -⟩ := readArgs_eq_ok hargs
      · exact foldl_quoteAfter_inert (fun c hc => (hblank.inert c hc).1) (by simp)
      · exact foldl_quoteAfter_split hsplit
    rw [String.toList_ofList, whole_trim]
    exact whole_front hbody hfront hinner hafter

theorem whole_stripped {cs : List Char} : Whole (stripped cs) ↔ Whole cs := by
  rw [stripped, whole_trimEnd, whole_dropStop, whole_trim]

/-! ## Enclosed arguments -/

/-- Blanks around an argument go. -/
theorem readArg_of_trimmed {p l r : List Char} (hp : Trimmed p) (hne : p ≠ []) (hl : Blanks l) (hr : Blanks r) :
    readArg (l ++ p ++ r) = some (String.ofList (unquote p)) := by
  rw [readArg, hp.trim_eq hl hr]
  exact if_neg hne

theorem trimmed_enclosed {q : Char} (hq : isQuote q = true) (cs : List Char) : Trimmed (q :: (cs ++ [q])) := by
  have hblank : isBlank q = false := by
    cases h : isBlank q with
    | false => rfl
    | true =>
      rw [(inert_of_isBlank h).1] at hq
      cases hq
  have hsingle : Trimmed [q] := .single hblank
  exact hsingle.around (List.cons_ne_nil _ _) hsingle (List.cons_ne_nil _ _) cs

theorem unquote_enclosed {q : Char} (hq : isQuote q = true) (cs : List Char) : unquote (q :: (cs ++ [q])) = cs := by
  rw [unquote, List.getLast?_concat, if_pos ⟨hq, rfl⟩, List.dropLast_concat]

/-! ## Ways of writing -/

/-- How an argument is written, blanks around it aside. -/
inductive Form : String → List Char → Prop
  | enclosed {x : String} {q : Char} : isQuote q = true → q ∉ x.toList → Form x (q :: (x.toList ++ [q]))
  | bare {x : String} : x.toList ≠ [] → Trimmed x.toList → (∀ c ∈ x.toList, isQuote c = false) → Closed x.toList →
      Form x x.toList

inductive Piece : String → List Char → Prop
  | mk {x : String} {l p r : List Char} : Blanks l → Form x p → Blanks r → Piece x (l ++ p ++ r)

/-- How an argument list stands between the parentheses. -/
inductive Listing : List String → List Char → Prop
  | blank {blanks : List Char} : Blanks blanks → Listing [] blanks
  | pieces {args : List String} {pieces : List (List Char)} : args ≠ [] → List.Forall₂ Piece args pieces →
      Listing args ([','].intercalate pieces)

inductive Ending : List Char → Prop
  | blanks {r : List Char} : Blanks r → Ending r
  | stop {l r : List Char} : Blanks l → Blanks r → Ending (l ++ '.' :: r)

/-- The ways of writing an atom. -/
inductive Spelled : Atom → List Char → Prop
  | applied {a : Atom} {l m inner ending : List Char} : Blanks l → Name a.name.toList → Blanks m →
      Listing a.args inner → Ending ending →
      Spelled a (l ++ (a.name.toList ++ (m ++ '(' :: (inner ++ [')']))) ++ ending)
  | bare {name : String} {l ending : List Char} : Blanks l → Name name.toList → ')' ∉ name.toList →
      name.toList.getLast? ≠ some '.' → Ending ending → Spelled ⟨name, []⟩ (l ++ name.toList ++ ending)

theorem Form.trimmed {x : String} {p : List Char} (h : Form x p) : Trimmed p := by
  cases h with
  | enclosed hq _ => exact trimmed_enclosed hq _
  | bare _ htrimmed _ _ => exact htrimmed

theorem Form.ne_nil {x : String} {p : List Char} (h : Form x p) : p ≠ [] := by
  cases h with
  | enclosed => exact List.cons_ne_nil _ _
  | bare hne _ _ _ => exact hne

theorem Form.unquote_eq {x : String} {p : List Char} (h : Form x p) : unquote p = x.toList := by
  cases h with
  | enclosed hq _ => exact unquote_enclosed hq _
  | bare hne _ hquote _ =>
    obtain ⟨c, cs, hcs⟩ := List.exists_cons_of_ne_nil hne
    have hc : isQuote c = false := hquote c (hcs ▸ List.mem_cons_self ..)
    rw [hcs, unquote, hc]
    exact if_neg fun h => Bool.false_ne_true h.1

theorem Form.whole {x : String} {p : List Char} (h : Form x p) : Whole p := by
  cases h with
  | enclosed hq hx => exact passes_enclosed hq hx
  | bare _ _ hquote hclosed => exact hclosed.whole hquote

theorem Piece.readArg_eq {x : String} {piece : List Char} (h : Piece x piece) : readArg piece = some x := by
  cases h with
  | mk hl hform hr => rw [readArg_of_trimmed hform.trimmed hform.ne_nil hl hr, hform.unquote_eq, String.ofList_toList]

theorem Piece.whole {x : String} {piece : List Char} (h : Piece x piece) : Whole piece := by
  cases h with
  | mk hl hform hr => exact (whole_inert hl.inert hr.inert).mpr hform.whole

theorem Piece.not_blanks {x : String} {piece : List Char} (h : Piece x piece) : ¬ Blanks piece := by
  intro hblank
  rw [← trim_eq_nil_iff] at hblank
  have hread := h.readArg_eq
  rw [readArg, if_pos hblank] at hread
  cases hread

theorem Listing.readArgs_eq {args : List String} {inner : List Char} (h : Listing args inner) (text : String) :
    readArgs text inner = .ok args := by
  cases h with
  | blank hblank => exact if_pos (trim_eq_nil_iff.mpr hblank)
  | @pieces args pieces hne hpieces =>
    have hread : pieces.mapM readArg = some args :=
      mapM_eq_some_iff.mpr (List.Forall₂.flip (hpieces.imp fun _ _ => Piece.readArg_eq))
    have hsplit : splitTop ([','].intercalate pieces) = some pieces := by
      refine splitTop_eq_some_iff.mpr ⟨?_, fun p hp => ?_, rfl⟩
      · rintro rfl
        exact hne (List.forall₂_nil_right_iff.mp hpieces)
      · obtain ⟨x, -, hx⟩ := exists_of_forall₂ hpieces hp
        exact hx.whole
    have hblank : trim ([','].intercalate pieces) ≠ [] := by
      obtain ⟨x, hx⟩ := List.exists_mem_of_ne_nil _ hne
      obtain ⟨p, hp, hpiece⟩ := exists_of_forall₂ hpieces.flip hx
      exact fun h => hpiece.not_blanks fun c hc => trim_eq_nil_iff.mp h c ((infix_intercalate hp).subset hc)
    rw [readArgs, if_neg hblank, hsplit]
    dsimp only
    rw [hread]

/-- Blanks and a full stop around a text go. -/
theorem stripped_of_ending {l cs ending : List Char} (hl : Blanks l) (hcs : Trimmed cs) (hne : cs ≠ [])
    (hlast : cs.getLast? ≠ some '.') (hending : Ending ending) : stripped (l ++ cs ++ ending) = cs := by
  cases hending with
  | blanks hr =>
    rw [stripped, hcs.trim_eq hl hr, dropStop, if_neg hlast]
    simpa using trimEnd_blanks hcs.last blanks_nil
  | @stop m r hm hr =>
    have hstop : Trimmed ['.'] := .single (by decide)
    have htrim := (hcs.around hne hstop (List.cons_ne_nil _ _) m).trim_eq hl hr
    have htext : l ++ cs ++ (m ++ '.' :: r) = l ++ (cs ++ m ++ ['.']) ++ r := by simp
    rw [stripped, htext, htrim, dropStop, List.getLast?_concat, if_pos rfl, List.dropLast_concat,
      trimEnd_blanks hcs.last hm]

theorem trimmed_applied {name : List Char} (h : Name name) (inner : List Char) : Trimmed (name ++ inner ++ [')']) :=
  h.trimmed.around h.nonempty (.single (by decide)) (List.cons_ne_nil _ _) inner

/-- An atom is read from every way of writing it. -/
theorem Spelled.parseChars_eq {a : Atom} {cs : List Char} (h : Spelled a cs) (text : String) :
    parseChars text cs = .ok a := by
  rw [parseChars_eq_ok_iff]
  cases h with
  | @applied _ l m inner ending hl hname hm hargs hending =>
    have htrim : trim (a.name.toList ++ m) = a.name.toList := hname.trimmed.trim_eq blanks_nil hm
    have hopen : '(' ∉ a.name.toList ++ m := fun hmem =>
      (List.mem_append.mp hmem).elim hname.unopened fun hb => (hm.inert _ hb).2.1 rfl
    have hbody : a.name.toList ++ (m ++ '(' :: (inner ++ [')'])) =
        a.name.toList ++ (m ++ '(' :: inner) ++ [')'] := by simp
    have hlast : (a.name.toList ++ (m ++ '(' :: inner) ++ [')']).getLast? ≠ some '.' := by
      rw [List.getLast?_concat]
      decide
    have hread := Reading.applied hopen List.not_mem_nil (by rw [htrim]; exact hname.nonempty) blanks_nil
      (hargs.readArgs_eq text)
    rw [htrim, String.ofList_toList, List.append_assoc, hbody] at hread
    rwa [hbody, stripped_of_ending hl (trimmed_applied hname _) (by simp) hlast hending]
  | @bare name l ending hl hname hclose hlast hending =>
    have hread : Reading text name.toList ⟨String.ofList name.toList, []⟩ :=
      .bare hname.nonempty hname.unopened hclose
    rw [String.ofList_toList] at hread
    rwa [stripped_of_ending hl hname.trimmed hname.nonempty hlast hending]

/-! ## What is shown -/

variable {n : Nesting} {x : String} {args : List String}

theorem toList_quoted (x : String) : (quoted x).toList = '\x22' :: (x.toList ++ ['\x22']) := by
  simp [quoted]

theorem toList_canonical (a : Atom) :
    a.canonical.toList = a.name.toList ++ '(' :: ((Text.join ", " (a.args.map quoted)).toList ++ [')']) := by
  simp [canonical]

theorem toList_args (x : String) (args : List String) :
    (Text.join ", " ((x :: args).map quoted)).toList =
      [','].intercalate ((quoted x).toList :: args.map fun y => ' ' :: (quoted y).toList) := by
  rw [List.map_cons, toList_join_comma, List.map_map]
  rfl

/-- Outside quotes a scan passes over an argument between double quotes if the argument holds none. -/
theorem passes_quoted (hx : '\x22' ∉ x.toList) (hn : n.quote = none) : Passes n (quoted x).toList n := by
  obtain ⟨quote, depth⟩ := n
  cases hn
  rw [toList_quoted]
  exact passes_enclosed rfl hx

theorem canonical_ne_nil (a : Atom) : a.canonical.toList ≠ [] := by
  rw [toList_canonical]
  simp

theorem trimmed_canonical {a : Atom} (h : Name a.name.toList) : Trimmed a.canonical.toList := by
  have htrimmed := trimmed_applied h ('(' :: (Text.join ", " (a.args.map quoted)).toList)
  rw [List.append_assoc] at htrimmed
  rwa [toList_canonical]

theorem listing_quoted {args : List String} (hargs : ∀ x ∈ args, '\x22' ∉ x.toList) :
    Listing args (Text.join ", " (args.map quoted)).toList := by
  have hform : ∀ x ∈ args, Form x (quoted x).toList := by
    intro x hx
    rw [toList_quoted]
    exact .enclosed rfl (hargs x hx)
  cases args with
  | nil => exact .blank blanks_nil
  | cons x args =>
    rw [toList_args]
    refine .pieces (List.cons_ne_nil _ _) (.cons ?_ ?_)
    · simpa using Piece.mk blanks_nil (hform x (List.mem_cons_self ..)) blanks_nil
    · rw [List.forall₂_map_right_iff, List.forall₂_same]
      intro y hy
      simpa using Piece.mk blanks_space (hform y (List.mem_cons_of_mem _ hy)) blanks_nil

/-- What is shown of an atom is one way of writing it. -/
theorem spelled_canonical {a : Atom} {l r : List Char} (hname : Name a.name.toList)
    (hargs : ∀ x ∈ a.args, '\x22' ∉ x.toList) (hl : Blanks l) (hr : Blanks r) :
    Spelled a (l ++ a.canonical.toList ++ r) := by
  rw [toList_canonical]
  exact .applied hl hname blanks_nil (listing_quoted hargs) (.blanks hr)

/-- What is shown of an atom is read back, with any blanks around it. -/
theorem parse_canonical (text : String) {a : Atom} {l r : List Char} (hname : Name a.name.toList)
    (hargs : ∀ x ∈ a.args, '\x22' ∉ x.toList) (hl : Blanks l) (hr : Blanks r) :
    parseChars text (l ++ a.canonical.toList ++ r) = .ok a :=
  (spelled_canonical hname hargs hl hr).parseChars_eq text

/-- An atom is read from every way of writing it. So one with a legible name and no double quote in its arguments is
    read back from what is shown of it, and two such atoms are shown differently. -/
theorem parse_spelled :
    (∀ (a : Atom) (text : String), Spelled a text.toList → parse text = .ok a) ∧
      (∀ a : Atom, Name a.name.toList → (∀ x ∈ a.args, '\x22' ∉ x.toList) → parse a.canonical = .ok a) ∧
      ∀ a b : Atom, Name a.name.toList → (∀ x ∈ a.args, '\x22' ∉ x.toList) →
        Name b.name.toList → (∀ x ∈ b.args, '\x22' ∉ x.toList) → a ≠ b → a.canonical ≠ b.canonical := by
  have hread : ∀ (a : Atom) (text : String), Spelled a text.toList → parse text = .ok a := fun a text h =>
    h.parseChars_eq text
  have hshown : ∀ a : Atom, Name a.name.toList → (∀ x ∈ a.args, '\x22' ∉ x.toList) → parse a.canonical = .ok a := by
    intro a hname hargs
    refine hread a a.canonical ?_
    simpa using spelled_canonical hname hargs blanks_nil blanks_nil
  refine ⟨hread, hshown, fun a b ha hargs hb hargs' hne hsame => hne ?_⟩
  have hback := hshown a ha hargs
  rw [hsame, hshown b hb hargs'] at hback
  exact (Except.ok.inj hback).symm

/-- A name with a blank in it; arguments with a comma and with a parenthesis and a quote between quotes, one that holds
    an atom and a full stop, and an empty one. -/
def memo : Atom := ⟨"note to", ["a, b", "it(\x22s", "f(x, ?Y.)", ""]⟩

def memoText : String := "\u2003 note to\t( \x22a, b\x22,'it(\x22s' , f(x, ?Y.) ,''\n) . "

theorem spelled_memo : Spelled memo memoText.toList := by
  have hcomma : Piece "a, b" ([' '] ++ '\x22' :: ("a, b".toList ++ ['\x22']) ++ []) :=
    .mk (by decide) (.enclosed rfl (by decide +kernel)) (by decide)
  have hopen : Piece "it(\x22s" ([] ++ '\x27' :: ("it(\x22s".toList ++ ['\x27']) ++ [' ']) :=
    .mk (by decide) (.enclosed rfl (by decide +kernel)) (by decide)
  have hquote : ("f(x, ?Y.)".toList.all (isQuote · = false)) = true := by decide +kernel
  have hatom : Piece "f(x, ?Y.)" ([' '] ++ "f(x, ?Y.)".toList ++ [' ']) :=
    .mk (by decide) (.bare (by decide +kernel) (by decide +kernel) (fun c hc => by simpa using List.all_eq_true.mp hquote c hc)
      (by decide +kernel)) (by decide)
  have hempty : Piece "" ([] ++ '\x27' :: ("".toList ++ ['\x27']) ++ ['\n']) :=
    .mk (by decide) (.enclosed rfl (by decide +kernel)) (by decide)
  have hargs := Listing.pieces (List.cons_ne_nil _ _) (.cons hcomma (.cons hopen (.cons hatom (.cons hempty .nil))))
  have hname : Name memo.name.toList := ⟨by decide +kernel, by decide +kernel, by decide +kernel⟩
  have hending : Ending ([' '] ++ '.' :: [' ']) := .stop (by decide) (by decide)
  have h := Spelled.applied (l := ['\u2003', ' ']) (m := ['\t']) (by decide) hname (by decide) hargs hending
  exact (congrArg (Spelled memo) (by decide +kernel)).mp h

/-- The same characters but for where the quotes stand. -/
def fewer : Atom := ⟨"edge", ["it's, f(1", "2"]⟩

def more : Atom := ⟨"edge", ["it's", "f(1", "2"]⟩

theorem memo_parsed :
    parse memoText = .ok memo ∧ parse fewer.canonical = .ok fewer ∧ fewer.canonical ≠ more.canonical := by
  have hname : Name "edge".toList := ⟨by decide +kernel, by decide +kernel, by decide +kernel⟩
  have hfewer : ∀ x ∈ fewer.args, '\x22' ∉ x.toList := by decide +kernel
  have hmore : ∀ x ∈ more.args, '\x22' ∉ x.toList := by decide +kernel
  obtain ⟨hread, hback, hdifferent⟩ := parse_spelled
  exact ⟨hread memo memoText spelled_memo, hback fewer hname hfewer,
    hdifferent fewer more hname hfewer hname hmore (by decide)⟩

/-- No comma of what is shown of an atom stands outside its parentheses. -/
theorem whole_canonical {a : Atom} (hname : Whole a.name.toList) (hargs : ∀ x ∈ a.args, '\x22' ∉ x.toList) :
    Whole a.canonical.toList := by
  have hinner : Passes ⟨none, 1⟩ (Text.join ", " (a.args.map quoted)).toList ⟨none, 1⟩ := by
    rw [toList_join]
    generalize a.args = args at hargs
    induction args with
    | nil => exact .nil _
    | cons x args ih =>
      obtain ⟨hx, hargs⟩ := List.forall_mem_cons.mp hargs
      cases args with
      | nil => simpa using passes_quoted hx rfl
      | cons y args =>
        have hsep : Passes ⟨none, 1⟩ ", ".toList ⟨none, 1⟩ := .cons (by decide) rfl (.cons (by decide) rfl (.nil _))
        rw [List.map_cons, List.map_cons, List.map_cons, List.map_cons, List.intercalate_cons_cons]
        exact ((passes_quoted hx rfl).append hsep).append (ih hargs)
  rw [toList_canonical]
  exact hname.append (.cons (by decide) rfl (hinner.append (.cons (by decide) rfl (.nil _))))

theorem arrowless_canonical {a : Atom} (hname : Arrowless a.name.toList) (hargs : ∀ x ∈ a.args, Arrowless x.toList) :
    Arrowless a.canonical.toList := by
  have hinner : Arrowless (Text.join ", " (a.args.map quoted)).toList := by
    rw [toList_join]
    generalize a.args = args at hargs
    induction args with
    | nil => exact .nil
    | cons x args ih =>
      obtain ⟨hx, hargs⟩ := List.forall_mem_cons.mp hargs
      have hquoted : Arrowless (quoted x).toList := by
        rw [toList_quoted]
        exact .cons (by decide) (hx.append (.singleton _) (by decide))
      cases args with
      | nil => simpa using hquoted
      | cons y args =>
        rw [List.map_cons, List.map_cons, List.map_cons, List.map_cons, List.intercalate_cons_cons, List.append_assoc]
        exact hquoted.append (.cons (by decide) (.cons (by decide) (ih hargs))) (by simp)
  rw [toList_canonical]
  exact hname.append (.cons (by decide) (hinner.append (.singleton _) (by decide))) (by simp)

end Atom

end QueryNet
