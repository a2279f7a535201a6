/-
  QueryNet.Proofs.Reading — rules that are read back from what is shown of them.

  What is shown of a rule is what is shown of its atoms, with an arrow after the head
  and commas between the items of its body.

  Proved: a rule that was read from any text and has no double quote in an argument is
  read back from what is shown of it (`parse_text`). Two things are to be seen. The
  text up to the first arrow holds no arrow, so neither does what is shown of the head.
  And each piece of the body is whole, so the name that is cut from it is whole too
  (`whole_front`), and what is shown of the body splits where the pieces meet.
-/

import QueryNet.Rule
import QueryNet.Proofs.Spelling

namespace QueryNet

open Text

namespace Rule

/-- How a rule stands in a text: an atom up to the first arrow, then atoms with commas between. -/
theorem parse_eq_ok_iff {text : String} {r : Rule} :
    parse text = .ok r ↔ ∃ front rest pieces, cutAtArrow (trim text.toList) = some (front, rest) ∧
      Atom.parse (String.ofList front) = .ok r.head ∧ trim (dropStop (trim rest)) ≠ [] ∧
      splitTop (trim (dropStop (trim rest))) = some pieces ∧
      List.Forall₂ (fun p a => Atom.parse (String.ofList p) = .ok a) pieces r.body := by
  constructor
  · intro h
    unfold parse at h
    split at h
    · cases h
    · rename_i front rest hcut
      cases hhead : Atom.parse (String.ofList front) with
      | error e =>
        rw [hhead] at h
        cases h
      | ok head =>
        rw [hhead] at h
        by_cases hbody : trim (dropStop (trim rest)) = []
        · simp [bind, Except.bind, hbody, throw, throwThe, MonadExceptOf.throw] at h
        · cases hsplit : splitTop (trim (dropStop (trim rest))) with
          | none => simp [bind, Except.bind, hbody, hsplit, throw, throwThe, MonadExceptOf.throw] at h
          | some pieces =>
            cases hpieces : pieces.mapM fun p => Atom.parse (String.ofList p) with
            | error e => simp [bind, Except.bind, hbody, hsplit, hpieces] at h
            | ok body =>
              simp [bind, Except.bind, hbody, hsplit, hpieces, pure, Except.pure] at h
              subst h
              exact ⟨front, rest, pieces, hcut, hhead, hbody, hsplit, mapM_eq_ok_iff.mp hpieces⟩
  · rintro ⟨front, rest, pieces, hcut, hhead, hbody, hsplit, hpieces⟩
    unfold parse
    rw [hcut]
    dsimp only
    rw [hhead]
    simp [bind, Except.bind, hbody, hsplit, mapM_eq_ok_iff.mpr hpieces, pure, Except.pure]

structure Legible (r : Rule) : Prop where
  head_name : Atom.Name r.head.name.toList
  head_arrowless : Arrowless r.head.name.toList
  head_args_arrowless : ∀ x ∈ r.head.args, Arrowless x.toList
  body_nonempty : r.body ≠ []
  body_name : ∀ a ∈ r.body, Atom.Name a.name.toList
  body_whole : ∀ a ∈ r.body, Whole a.name.toList

theorem parse_legible {text : String} {r : Rule} (h : parse text = .ok r) : r.Legible := by
  obtain ⟨front, rest, pieces, hcut, hhead, -, hsplit, hpieces⟩ := parse_eq_ok_iff.mp h
  obtain ⟨hne, hwhole, -⟩ := splitTop_eq_some_iff.mp hsplit
  have hfront : Arrowless (Atom.stripped front) := (cutAtArrow_eq_some_iff.mp hcut).1.within (Atom.stripped_isInfix front)
  rw [Atom.parse, Atom.parseChars_eq_ok_iff, String.toList_ofList] at hhead
  have hitem : ∀ a ∈ r.body, Atom.Name a.name.toList ∧ Whole a.name.toList := by
    intro a ha
    obtain ⟨p, hp, hread⟩ := exists_of_forall₂ hpieces ha
    rw [Atom.parse, Atom.parseChars_eq_ok_iff, String.toList_ofList] at hread
    exact ⟨hread.name (Atom.trimmed_stripped p), hread.whole (Atom.whole_stripped.mpr (hwhole p hp))⟩
  exact {
    head_name := hhead.name (Atom.trimmed_stripped front)
    head_arrowless := hfront.within hhead.within.1
    head_args_arrowless := fun x hx => hfront.within (hhead.within.2 x hx)
    body_nonempty := fun hnil => hne (List.forall₂_nil_right_iff.mp (hnil ▸ hpieces))
    body_name := fun a ha => (hitem a ha).1
    body_whole := fun a ha => (hitem a ha).2 }

theorem toList_text (r : Rule) : r.text.toList =
    (r.head.canonical.toList ++ [' ']) ++
      '<' :: '-' :: ([' '] ++ (Text.join ", " (r.body.map Atom.canonical)).toList ++ ['.']) := by
  simp [text]

/-- What is shown of a rule's body splits into what is shown of its items. -/
theorem Legible.split_body {r : Rule} (h : r.Legible) (hargs : ∀ a ∈ r.body, ∀ x ∈ a.args, '\x22' ∉ x.toList) :
    ∃ pieces, splitTop (Text.join ", " (r.body.map Atom.canonical)).toList = some pieces ∧
      List.Forall₂ (fun p a => Atom.parse (String.ofList p) = .ok a) pieces r.body := by
  have hread : ∀ a ∈ r.body, ∀ l, Blanks l → Atom.parse (String.ofList (l ++ a.canonical.toList)) = .ok a := by
    intro a ha l hl
    rw [Atom.parse, String.toList_ofList]
    simpa using Atom.parse_canonical _ (h.body_name a ha) (hargs a ha) hl blanks_nil
  have hwhole : ∀ a ∈ r.body, Whole a.canonical.toList := fun a ha =>
    Atom.whole_canonical (h.body_whole a ha) (hargs a ha)
  have hne := h.body_nonempty
  generalize r.body = body at hread hwhole hne
  cases body with
  | nil => exact absurd rfl hne
  | cons a body =>
    obtain ⟨ha, hbody⟩ := List.forall_mem_cons.mp hwhole
    -- the blank after each comma stays with the item that follows
    refine ⟨a.canonical.toList :: body.map fun b => [' '] ++ b.canonical.toList, ?_, ?_⟩
    · refine splitTop_eq_some_iff.mpr ⟨List.cons_ne_nil _ _, List.forall_mem_cons.mpr ⟨ha, ?_⟩, ?_⟩
      · rw [List.forall_mem_map]
        intro b hb
        have h := (whole_inert blanks_space.inert blanks_nil.inert).mpr (hbody b hb)
        rwa [List.append_nil] at h
      · rw [List.map_cons, toList_join_comma, List.map_map]
        rfl
    · refine .cons (hread a (List.mem_cons_self ..) [] blanks_nil) ?_
      rw [List.forall₂_map_left_iff, List.forall₂_same]
      exact fun b hb => hread b (List.mem_cons_of_mem _ hb) [' '] blanks_space

theorem Legible.trimmed_body {r : Rule} (h : r.Legible) :
    Trimmed (Text.join ", " (r.body.map Atom.canonical)).toList := by
  rw [toList_join, List.map_map]
  refine trimmed_intercalate (List.forall_mem_map.mpr fun a ha => ⟨?_, Atom.trimmed_canonical (h.body_name a ha)⟩)
  exact Atom.canonical_ne_nil a

theorem Legible.shown_body_ne_nil {r : Rule} (h : r.Legible) :
    (Text.join ", " (r.body.map Atom.canonical)).toList ≠ [] := by
  obtain ⟨a, ha⟩ := List.exists_mem_of_ne_nil _ h.body_nonempty
  rw [toList_join, List.map_map]
  have hitem : a.canonical.toList <:+: ", ".toList.intercalate (r.body.map (String.toList ∘ Atom.canonical)) :=
    infix_intercalate (List.mem_map_of_mem ha)
  exact fun hnil => Atom.canonical_ne_nil a (List.infix_nil.mp (hnil ▸ hitem))

/-- A rule that was read is read back from what is shown of it, unless an argument holds a double quote. -/
theorem parse_text {text : String} {r : Rule} (h : parse text = .ok r)
    (hargs : ∀ a ∈ r.head :: r.body, ∀ x ∈ a.args, '\x22' ∉ x.toList) : parse r.text = .ok r := by
  obtain ⟨hhead, hbody⟩ := List.forall_mem_cons.mp hargs
  have hr := parse_legible h
  obtain ⟨pieces, hsplit, hpieces⟩ := hr.split_body hbody
  have hheadtrim := Atom.trimmed_canonical hr.head_name
  have hstop : Trimmed ['.'] := .single (by decide)
  have hitemstrim := hr.trimmed_body
  have hitemsne := hr.shown_body_ne_nil
  have htext := toList_text r
  -- from here it matters no more what the items are, only that blanks and the stop around them go
  generalize (Text.join ", " (r.body.map Atom.canonical)).toList = items at hsplit hitemstrim hitemsne htext
  have htrim : trim r.text.toList = r.text.toList := by
    have h := hheadtrim.around (Atom.canonical_ne_nil _) hstop (by simp) (' ' :: '<' :: '-' :: ' ' :: items)
    rw [htext]
    simpa using h.trim_self
  have hcut : cutAtArrow (trim r.text.toList) = some (r.head.canonical.toList ++ [' '], [' '] ++ items ++ ['.']) := by
    rw [htrim]
    refine cutAtArrow_eq_some_iff.mpr ⟨?_, htext⟩
    exact (Atom.arrowless_canonical hr.head_arrowless hr.head_args_arrowless).append (.singleton _) (by decide)
  have hitems : trim (dropStop (trim ([' '] ++ items ++ ['.']))) = items := by
    have h := (hitemstrim.around hitemsne hstop (by simp) []).trim_eq blanks_space blanks_nil
    rw [List.append_nil, List.append_nil, ← List.append_assoc] at h
    rw [h, dropStop, List.getLast?_concat, if_pos rfl, List.dropLast_concat, hitemstrim.trim_self]
  refine parse_eq_ok_iff.mpr ⟨_, _, pieces, hcut, ?_, ?_, ?_, hpieces⟩
  · rw [Atom.parse, String.toList_ofList]
    simpa using Atom.parse_canonical _ hr.head_name hhead blanks_nil blanks_space
  · rw [hitems]
    exact hitemsne
  · rw [hitems]
    exact hsplit

def outing : Rule :=
  ⟨⟨"trip", ["?A", "ann lee"]⟩, [⟨"\x22go, to\x22", ["?A", "f(1, 2)"]⟩, ⟨"visit", ["<-"]⟩]⟩

theorem outing_read_back :
    parse " trip ( ?A,'ann lee')<- \x22go, to\x22(?A , f(1, 2)), visit('<-') . " = .ok outing ∧
      (∀ a ∈ outing.head :: outing.body, ∀ x ∈ a.args, '\x22' ∉ x.toList) ∧ parse outing.text = .ok outing := by
  have hread : parse " trip ( ?A,'ann lee')<- \x22go, to\x22(?A , f(1, 2)), visit('<-') . " = .ok outing := by
    decide +kernel
  have hargs : ∀ a ∈ outing.head :: outing.body, ∀ x ∈ a.args, '\x22' ∉ x.toList := by decide +kernel
  exact ⟨hread, hargs, parse_text hread hargs⟩

end Rule

end QueryNet
