/-
  QueryNet.Proofs.Scanning — what trimming, cutting and splitting give of a text.

  A cut is told by its two sides: one of them is free of what it is made at. A piece
  is whole if a scan passes over it from the top to the top and meets no comma at the
  top on its way.

  Proved: a text splits into pieces exactly if they are whole and the text is what
  commas make of them (`splitTop_eq_some_iff`). Which quote a scan stands in does not
  depend on the depth, and no two quotes that it can stand in lead to one past the same
  text (`foldl_quoteAfter_inj`); so if a piece has parentheses around something that
  closes its own quotes, what stands before them is whole (`whole_front`).
-/

import Mathlib.Data.List.Chain
import Mathlib.Data.List.DropRight
import Mathlib.Data.List.TakeWhile
import QueryNet.Text.Scanning

namespace QueryNet.Text

/-! ## Blanks around a text -/

def Blanks (cs : List Char) : Prop := ∀ c ∈ cs, isBlank c = true

theorem blanks_nil : Blanks [] := List.forall_mem_nil _

-- by the list's elements: there may also be an instance that tries all characters
instance (cs : List Char) : Decidable (Blanks cs) := List.decidableBAll (isBlank · = true) cs

theorem blanks_space : Blanks [' '] := by decide

structure Trimmed (cs : List Char) : Prop where
  first : ∀ c ∈ cs.head?, isBlank c = false
  last : ∀ c ∈ cs.getLast?, isBlank c = false

instance (cs : List Char) : Decidable (Trimmed cs) :=
  have := Option.decidableForallMem (p := (isBlank · = false)) cs.head?
  have := Option.decidableForallMem (p := (isBlank · = false)) cs.getLast?
  decidable_of_iff ((∀ c ∈ cs.head?, isBlank c = false) ∧ ∀ c ∈ cs.getLast?, isBlank c = false)
    ⟨fun h => ⟨h.1, h.2⟩, fun h => ⟨h.first, h.last⟩⟩

theorem Trimmed.single {c : Char} (h : isBlank c = false) : Trimmed [c] :=
  ⟨by simpa using h, by simpa using h⟩

theorem dropWhile_blanks {l cs : List Char} (hl : Blanks l) (hcs : ∀ c ∈ cs.head?, isBlank c = false) :
    (l ++ cs).dropWhile isBlank = cs := by
  induction l with
  | nil =>
    cases cs with
    | nil => rfl
    | cons c cs => rw [List.nil_append, List.dropWhile_cons_of_neg (by simp [hcs c rfl])]
  | cons c l ih =>
    rw [List.cons_append, List.dropWhile_cons_of_pos (hl c (List.mem_cons_self ..))]
    exact ih fun d hd => hl d (List.mem_cons_of_mem _ hd)

theorem Blanks.reverse {cs : List Char} (h : Blanks cs) : Blanks cs.reverse := fun c hc => h c (List.mem_reverse.mp hc)

theorem trimStart_blanks {l cs : List Char} (hl : Blanks l) (hcs : ∀ c ∈ cs.head?, isBlank c = false) :
    trimStart (l ++ cs) = cs := dropWhile_blanks hl hcs

theorem trimEnd_blanks {cs r : List Char} (hcs : ∀ c ∈ cs.getLast?, isBlank c = false) (hr : Blanks r) :
    trimEnd (cs ++ r) = cs := by
  rw [trimEnd, List.reverse_append, dropWhile_blanks hr.reverse (by rwa [List.head?_reverse]), List.reverse_reverse]

theorem exists_trimStart (cs : List Char) : ∃ l, Blanks l ∧ cs = l ++ trimStart cs :=
  ⟨_, fun _ => List.mem_takeWhile_imp, List.takeWhile_append_dropWhile.symm⟩

theorem exists_trimEnd (cs : List Char) : ∃ r, Blanks r ∧ cs = trimEnd cs ++ r := by
  obtain ⟨l, hl, h⟩ := exists_trimStart cs.reverse
  refine ⟨l.reverse, hl.reverse, ?_⟩
  rw [trimEnd, ← List.reverse_append]
  exact List.reverse_eq_iff.mp h

theorem trimStart_first (cs : List Char) : ∀ c ∈ (trimStart cs).head?, isBlank c = false := by
  intro c hc
  have h := List.head?_dropWhile_not isBlank cs
  rw [trimStart] at hc
  rw [Option.mem_def.mp hc] at h
  simpa using h

theorem trimEnd_last (cs : List Char) : ∀ c ∈ (trimEnd cs).getLast?, isBlank c = false := by
  intro c hc
  rw [trimEnd, List.getLast?_reverse] at hc
  exact trimStart_first cs.reverse c hc

theorem trimEnd_isPrefix (cs : List Char) : trimEnd cs <+: cs := by
  obtain ⟨r, -, h⟩ := exists_trimEnd cs
  exact ⟨r, h.symm⟩

theorem first_of_isPrefix {cs ds : List Char} (h : cs <+: ds) (hds : ∀ c ∈ ds.head?, isBlank c = false) :
    ∀ c ∈ cs.head?, isBlank c = false := by
  obtain ⟨t, rfl⟩ := h
  cases cs with
  | nil => simp
  | cons c cs => exact hds

theorem trimmed_trim (cs : List Char) : Trimmed (trim cs) :=
  ⟨first_of_isPrefix (trimEnd_isPrefix _) (trimStart_first cs), trimEnd_last _⟩

/-- Trimming takes off blanks on both sides. -/
theorem exists_trim (cs : List Char) : ∃ l r, Blanks l ∧ Blanks r ∧ cs = l ++ trim cs ++ r := by
  obtain ⟨l, hl, h⟩ := exists_trimStart cs
  obtain ⟨r, hr, h'⟩ := exists_trimEnd (trimStart cs)
  refine ⟨l, r, hl, hr, ?_⟩
  rw [List.append_assoc, trim, ← h', ← h]

/-- Trimming takes off all of them. -/
theorem Trimmed.trim_eq {l cs r : List Char} (h : Trimmed cs) (hl : Blanks l) (hr : Blanks r) :
    trim (l ++ cs ++ r) = cs := by
  cases cs with
  | nil =>
    have hall : Blanks (l ++ [] ++ r ++ []) := by
      simp only [List.append_nil]
      exact fun c hc => (List.mem_append.mp hc).elim (hl c) (hr c)
    rw [trim, ← List.append_nil (l ++ [] ++ r)]
    rw [List.append_nil] at hall
    rw [trimStart_blanks hall (by simp)]
    rfl
  | cons c cs =>
    rw [trim, List.append_assoc, trimStart_blanks hl (by simpa using h.first c rfl), trimEnd_blanks h.last hr]

theorem Trimmed.trim_self {cs : List Char} (h : Trimmed cs) : trim cs = cs := by
  simpa using h.trim_eq blanks_nil blanks_nil

theorem Trimmed.around {as bs : List Char} (ha : Trimmed as) (hane : as ≠ []) (hb : Trimmed bs) (hbne : bs ≠ [])
    (between : List Char) : Trimmed (as ++ between ++ bs) := by
  obtain ⟨c, as, rfl⟩ := List.exists_cons_of_ne_nil hane
  constructor
  · exact ha.first
  · rw [List.getLast?_append_of_ne_nil _ hbne]
    exact hb.last

theorem trim_isInfix (cs : List Char) : trim cs <:+: cs := by
  obtain ⟨l, r, -, -, h⟩ := exists_trim cs
  exact ⟨l, r, h.symm⟩

theorem trim_eq_nil_iff {cs : List Char} : trim cs = [] ↔ Blanks cs := by
  constructor
  · intro h
    obtain ⟨l, r, hl, hr, hcs⟩ := exists_trim cs
    rw [h, List.append_nil] at hcs
    rw [hcs]
    exact fun c hc => (List.mem_append.mp hc).elim (hl c) (hr c)
  · intro h
    have hnil : Trimmed [] := ⟨by simp, by simp⟩
    simpa using hnil.trim_eq h blanks_nil

theorem dropStop_isPrefix (cs : List Char) : dropStop cs <+: cs := by
  rw [dropStop]
  split
  · exact List.dropLast_prefix cs
  · exact List.prefix_refl cs

/-! ## Cuts -/

variable {c d : Char} {cs front rest : List Char}

theorem map_cons_eq_some_iff {cut : Option (List Char × List Char)} :
    cut.map (fun p => (d :: p.1, p.2)) = some (front, rest) ↔ ∃ f, front = d :: f ∧ cut = some (f, rest) := by
  cases cut with
  | none => simp
  | some p => simp [Prod.ext_iff, eq_comm]

theorem cutAt_eq_none_iff : cutAt c cs = none ↔ c ∉ cs := by
  induction cs with
  | nil => simp [cutAt]
  | cons d cs ih =>
    by_cases hd : d = c
    · simp [cutAt, hd]
    · rw [cutAt, if_neg hd, Option.map_eq_none_iff, ih, List.mem_cons, not_or]
      exact ⟨fun h => ⟨Ne.symm hd, h⟩, And.right⟩

/-- A cut at the first such character leaves none before it. -/
theorem cutAt_eq_some_iff : cutAt c cs = some (front, rest) ↔ c ∉ front ∧ cs = front ++ c :: rest := by
  induction cs generalizing front with
  | nil => simp [cutAt]
  | cons d cs ih =>
    by_cases hd : d = c
    · rw [cutAt, if_pos hd]
      cases front with
      | nil => simp [hd]
      | cons e front => grind
    · rw [cutAt, if_neg hd, map_cons_eq_some_iff]
      cases front with
      | nil => simp [hd]
      | cons e front =>
        simp only [ih, List.cons.injEq, List.mem_cons, List.cons_append]
        grind

theorem cutAtLast_eq_none_iff : cutAtLast c cs = none ↔ c ∉ cs := by
  induction cs with
  | nil => simp [cutAtLast]
  | cons d cs ih =>
    rw [cutAtLast]
    cases hcut : cutAtLast c cs with
    | none => grind
    | some p => grind

/-- A cut at the last such character leaves none after it. -/
theorem cutAtLast_eq_some_iff : cutAtLast c cs = some (front, rest) ↔ c ∉ rest ∧ cs = front ++ c :: rest := by
  induction cs generalizing front with
  | nil => simp [cutAtLast]
  | cons d cs ih =>
    rw [cutAtLast]
    cases hcut : cutAtLast c cs with
    | none =>
      have hmem := cutAtLast_eq_none_iff.mp hcut
      cases front with
      | nil => grind
      | cons e front => grind
    | some p =>
      have hmem : c ∈ cs := by
        rw [← not_not (a := c ∈ cs), ← cutAtLast_eq_none_iff, hcut]
        exact Option.some_ne_none p
      rw [hcut] at ih
      cases front with
      | nil => grind
      | cons e front => grind

def Arrowless (cs : List Char) : Prop := cs.IsChain fun c d => ¬ (c = '<' ∧ d = '-')

theorem Arrowless.cons (hc : c ≠ '<') (h : Arrowless cs) : Arrowless (c :: cs) :=
  List.IsChain.cons h fun _ _ harrow => hc harrow.1

theorem Arrowless.append {as bs : List Char} (ha : Arrowless as) (hb : Arrowless bs) (hstart : '-' ∉ bs.head?) :
    Arrowless (as ++ bs) :=
  List.IsChain.append ha hb fun _ _ _ hd harrow => hstart (harrow.2 ▸ hd)

theorem Arrowless.within (h : Arrowless cs) (hfront : front <:+: cs) : Arrowless front := List.IsChain.infix h hfront

/-- A cut at the first arrow leaves none before it. -/
theorem cutAtArrow_eq_some_iff :
    cutAtArrow cs = some (front, rest) ↔ Arrowless front ∧ cs = front ++ '<' :: '-' :: rest := by
  fun_induction cutAtArrow cs generalizing front with
  | case1 cs =>
    cases front with
    | nil => simp [Arrowless, eq_comm]
    | cons d front =>
      cases front with
      | nil => simp
      | cons e front =>
        rw [Arrowless, List.isChain_cons_cons]
        grind
  | case2 => simp
  | case3 d cs hne ih =>
    rw [map_cons_eq_some_iff]
    cases front with
    | nil => grind
    | cons e front =>
      have hstart : ∀ y ∈ front.head?, cs = front ++ '<' :: '-' :: rest → ¬ (d = '<' ∧ y = '-') := by
        rintro y hy hcs ⟨rfl, rfl⟩
        cases front with
        | nil => cases hy
        | cons z front =>
          cases hy
          exact hne _ rfl hcs
      rw [Arrowless, List.isChain_cons, ← Arrowless]
      simp only [ih, List.cons.injEq, List.cons_append]
      grind

/-! ## Scans -/

def Nesting.Proper (n : Nesting) : Prop := ∀ q ∈ n.quote, isQuote q = true

/-- A scan passes over a text and meets no comma at the top. -/
inductive Passes : Nesting → List Char → Nesting → Prop
  | nil (n : Nesting) : Passes n [] n
  | cons {n m k : Nesting} {c : Char} {cs : List Char} : ¬ (n = .top ∧ c = ',') → n.step c = some m → Passes m cs k →
      Passes n (c :: cs) k

/-- A piece between commas: a scan passes over it from the top to the top. -/
def Whole (cs : List Char) : Prop := Passes .top cs .top

variable {n m k : Nesting} {as bs : List Char}

theorem passes_nil : Passes n [] m ↔ n = m := by
  constructor
  · intro h
    cases h
    rfl
  · rintro rfl
    exact .nil n

theorem Passes.append (ha : Passes n as m) (hb : Passes m bs k) : Passes n (as ++ bs) k := by
  induction ha with
  | nil => exact hb
  | cons hc hstep _ ih => exact .cons hc hstep (ih hb)

theorem passes_append : Passes n (as ++ bs) k ↔ ∃ m, Passes n as m ∧ Passes m bs k := by
  constructor
  · intro h
    induction as generalizing n with
    | nil => exact ⟨n, .nil n, h⟩
    | cons a as ih =>
      cases h with
      | cons hc hstep hrest =>
        obtain ⟨m, ha, hb⟩ := ih hrest
        exact ⟨m, .cons hc hstep ha, hb⟩
  · rintro ⟨m, ha, hb⟩
    exact ha.append hb

/-- In a quote a scan stays where it stands up to the quote character. -/
theorem passes_quote {q : Char} {depth : Nat} (h : q ∉ cs) : Passes ⟨some q, depth⟩ cs ⟨some q, depth⟩ := by
  induction cs with
  | nil => exact .nil _
  | cons c cs ih =>
    obtain ⟨hne, hcs⟩ := not_or.mp (mt List.mem_cons.mpr h)
    refine .cons (by simp [Nesting.top]) ?_ (ih hcs)
    simp [Nesting.step, Ne.symm hne]

/-- Outside quotes a scan passes over a text between quotes that do not occur in it. -/
theorem passes_enclosed {q : Char} {depth : Nat} (hq : isQuote q = true) (h : q ∉ cs) :
    Passes ⟨none, depth⟩ (q :: (cs ++ [q])) ⟨none, depth⟩ := by
  have hopen : Nesting.step ⟨none, depth⟩ q = some ⟨some q, depth⟩ := by simp [Nesting.step, hq]
  have hclose : Nesting.step ⟨some q, depth⟩ q = some ⟨none, depth⟩ := by simp [Nesting.step]
  have hcomma : q ≠ ',' := by
    rintro rfl
    cases hq
  exact .cons (fun hc => hcomma hc.2) hopen
    ((passes_quote h).append (.cons (by simp [Nesting.top]) hclose (.nil _)))

theorem Nesting.proper_top : Nesting.top.Proper := by simp [Nesting.Proper, Nesting.top]

theorem Nesting.Proper.step (h : n.Proper) (hstep : n.step c = some m) : m.Proper := by
  unfold Nesting.step at hstep
  intro q hq
  grind [Nesting.Proper]

theorem Passes.proper (h : Passes n cs m) (hn : n.Proper) : m.Proper := by
  induction h with
  | nil => exact hn
  | cons _ hstep _ ih => exact ih (hn.step hstep)

/-! ## Characters that a scan passes by -/

def Inert (c : Char) : Prop := isQuote c = false ∧ c ≠ '(' ∧ c ≠ ')' ∧ c ≠ ','

theorem Inert.step (hc : Inert c) (hn : n.Proper) : n.step c = some n := by
  obtain ⟨hquote, hopen, hclose, -⟩ := hc
  unfold Nesting.step
  split
  · rename_i q hq
    have hne : c ≠ q := by
      rintro rfl
      simp [hn c hq] at hquote
    simp [hne, ← hq]
  · simp [hquote, hopen, hclose]

theorem passes_inert (h : ∀ c ∈ cs, Inert c) (hn : n.Proper) : Passes n cs m ↔ n = m := by
  induction cs with
  | nil => exact passes_nil
  | cons c cs ih =>
    have hc := h c (List.mem_cons_self ..)
    have hcs := ih fun d hd => h d (List.mem_cons_of_mem _ hd)
    constructor
    · rintro (_ | ⟨_, hstep, hrest⟩)
      rw [hc.step hn] at hstep
      cases hstep
      exact hcs.mp hrest
    · intro hm
      exact .cons (fun hcomma => hc.2.2.2 hcomma.2) (hc.step hn) (hcs.mpr hm)

/-- Such characters around a piece make no difference. -/
theorem whole_inert (ha : ∀ c ∈ as, Inert c) (hb : ∀ c ∈ bs, Inert c) : Whole (as ++ cs ++ bs) ↔ Whole cs := by
  rw [Whole, List.append_assoc, passes_append]
  constructor
  · rintro ⟨m, htop, hrest⟩
    obtain rfl := (passes_inert ha Nesting.proper_top).mp htop
    obtain ⟨k, hcs, hend⟩ := passes_append.mp hrest
    obtain rfl := (passes_inert hb (hcs.proper Nesting.proper_top)).mp hend
    exact hcs
  · intro h
    exact ⟨.top, (passes_inert ha Nesting.proper_top).mpr rfl, h.append ((passes_inert hb Nesting.proper_top).mpr rfl)⟩

theorem inert_of_isBlank (h : isBlank c = true) : Inert c := by
  refine ⟨?_, ?_, ?_, ?_⟩
  · rw [isQuote, Bool.or_eq_false_iff, beq_eq_false_iff_ne, beq_eq_false_iff_ne]
    constructor <;> rintro rfl <;> cases h
  all_goals rintro rfl; cases h

theorem Blanks.inert (h : Blanks cs) : ∀ c ∈ cs, Inert c := fun c hc => inert_of_isBlank (h c hc)

theorem whole_trim : Whole (trim cs) ↔ Whole cs := by
  obtain ⟨l, r, hl, hr, h⟩ := exists_trim cs
  conv_rhs => rw [h]
  exact (whole_inert hl.inert hr.inert).symm

theorem whole_trimEnd : Whole (trimEnd cs) ↔ Whole cs := by
  obtain ⟨r, hr, h⟩ := exists_trimEnd cs
  conv_rhs => rw [h]
  exact (whole_inert blanks_nil.inert hr.inert).symm

theorem whole_dropStop : Whole (dropStop cs) ↔ Whole cs := by
  rw [dropStop]
  split
  · rename_i hstop
    have hlast : cs = cs.dropLast ++ ['.'] := (List.dropLast_append_getLast? '.' hstop).symm
    conv_rhs => rw [hlast]
    exact (whole_inert blanks_nil.inert (by simp [Inert, isQuote])).symm
  · rfl

/-! ## Pieces and what is between them -/

variable {sep p : List Char} {ps : List (List Char)}

theorem intercalate_append_cons (l : List Char) :
    sep.intercalate ((l ++ p) :: ps) = l ++ sep.intercalate (p :: ps) := by
  cases ps with
  | nil => simp
  | cons q qs => simp

theorem intercalate_cons : sep.intercalate ((c :: p) :: ps) = c :: sep.intercalate (p :: ps) :=
  intercalate_append_cons [c]

theorem infix_intercalate (h : p ∈ ps) : p <:+: sep.intercalate ps := by
  induction ps with
  | nil => cases h
  | cons q qs ih =>
    cases qs with
    | nil => simp_all
    | cons r rs =>
      rw [List.intercalate_cons_cons]
      cases h with
      | head => exact ⟨[], sep ++ sep.intercalate (r :: rs), by simp⟩
      | tail _ h => exact (ih h).trans (List.suffix_append _ _).isInfix

/-- Part of a separator may as well start the pieces after the first. -/
theorem intercalate_append (sep more : List Char) :
    (sep ++ more).intercalate (p :: ps) = sep.intercalate (p :: ps.map (more ++ ·)) := by
  induction ps generalizing p with
  | nil => simp
  | cons q qs ih => simp [ih, intercalate_append_cons]

theorem trimmed_intercalate (hps : ∀ p ∈ ps, p ≠ [] ∧ Trimmed p) : Trimmed (sep.intercalate ps) := by
  induction ps with
  | nil => exact ⟨by simp, by simp⟩
  | cons p ps ih =>
    obtain ⟨⟨hne, hp⟩, hrest⟩ := List.forall_mem_cons.mp hps
    cases ps with
    | nil => rwa [List.intercalate_singleton]
    | cons q qs =>
      have hlast := (ih hrest).last
      obtain ⟨c, p, rfl⟩ := List.exists_cons_of_ne_nil hne
      obtain ⟨d, q, rfl⟩ := List.exists_cons_of_ne_nil (hrest q (List.mem_cons_self ..)).1
      rw [intercalate_cons] at hlast
      rw [List.intercalate_cons_cons, intercalate_cons]
      constructor
      · exact hp.first
      · rwa [List.getLast?_append_of_ne_nil _ (List.cons_ne_nil _ _)]

theorem toList_join (sep : String) (ss : List String) :
    (join sep ss).toList = sep.toList.intercalate (ss.map String.toList) := by
  fun_induction join sep ss with
  | case1 => rfl
  | case2 s => simp
  | case3 s r hr ih =>
    cases r with
    | nil => exact absurd rfl hr
    | cons t r => simp [ih]

/-- The blank after a comma as part of what follows it. -/
theorem toList_join_comma (s : String) (ss : List String) :
    (join ", " (s :: ss)).toList = [','].intercalate (s.toList :: ss.map fun t => ' ' :: t.toList) := by
  rw [toList_join, show ", ".toList = [','] ++ [' '] by decide, List.map_cons, intercalate_append, List.map_map]
  rfl

/-! ## Splitting -/

theorem splitFrom_ne_nil (n : Nesting) (cs : List Char) : splitFrom n cs ≠ some [] := by
  cases cs with
  | nil =>
    rw [splitFrom]
    split <;> simp
  | cons c cs =>
    rw [splitFrom]
    split
    · simp
    · split
      · simp
      · rw [Ne, Option.map_eq_some_iff]
        rintro ⟨_ | ⟨p, ps⟩, -, h⟩ <;> cases h

theorem map_consFirst_eq_some_iff : (splitFrom n cs).map (consFirst c) = some (p :: ps) ↔
    ∃ q, p = c :: q ∧ splitFrom n cs = some (q :: ps) := by
  rw [Option.map_eq_some_iff]
  constructor
  · rintro ⟨_ | ⟨q, qs⟩, h, heq⟩
    · exact absurd h (splitFrom_ne_nil n cs)
    · cases heq
      exact ⟨q, rfl, h⟩
  · rintro ⟨q, rfl, h⟩
    exact ⟨_, h, rfl⟩

/-- The pieces of a text from where a scan stands: it passes over the first from there and over the others from the
    top, and commas make the text of them. -/
theorem splitFrom_eq_some_iff :
    splitFrom n cs = some (p :: ps) ↔ Passes n p .top ∧ (∀ q ∈ ps, Whole q) ∧ cs = [','].intercalate (p :: ps) := by
  induction cs generalizing n p ps with
  | nil =>
    have hsplit : splitFrom n [] = some (p :: ps) ↔ n = .top ∧ p = [] ∧ ps = [] := by
      rw [splitFrom]
      split <;> simp_all [eq_comm]
    rw [hsplit]
    constructor
    · rintro ⟨rfl, rfl, rfl⟩
      exact ⟨.nil _, by simp, by simp⟩
    · rintro ⟨hp, -, hcs⟩
      cases ps with
      | cons q qs => simp at hcs
      | nil =>
        rw [List.intercalate_singleton] at hcs
        subst hcs
        exact ⟨passes_nil.mp hp, rfl, rfl⟩
  | cons c cs ih =>
    by_cases hcomma : n = .top ∧ c = ','
    · -- the comma ends the first piece, which is empty from here
      rw [splitFrom, if_pos hcomma]
      obtain ⟨rfl, rfl⟩ := hcomma
      constructor
      · intro h
        obtain ⟨qs, hqs, hp⟩ := Option.map_eq_some_iff.mp h
        cases hp
        cases ps with
        | nil => exact absurd hqs (splitFrom_ne_nil _ cs)
        | cons q qs =>
          obtain ⟨hq, hrest, rfl⟩ := ih.mp hqs
          exact ⟨.nil _, List.forall_mem_cons.mpr ⟨hq, hrest⟩, by simp⟩
      · rintro ⟨hp, hps, hcs⟩
        cases hp with
        | cons hc _ _ =>
          rw [intercalate_cons] at hcs
          cases hcs
          exact absurd ⟨rfl, rfl⟩ hc
        | nil =>
          cases ps with
          | nil => simp at hcs
          | cons q qs =>
            obtain ⟨hq, hrest⟩ := List.forall_mem_cons.mp hps
            rw [List.intercalate_cons_cons] at hcs
            rw [ih.mpr ⟨hq, hrest, List.cons.inj hcs |>.2⟩]
            rfl
    · -- the character is part of the first piece, however the rest is cut
      have hstart : ∀ {q}, Passes n q .top → c :: cs = [','].intercalate (q :: ps) →
          ∃ m r, q = c :: r ∧ n.step c = some m ∧ Passes m r .top ∧ cs = [','].intercalate (r :: ps) := by
        intro q hq hcs
        cases hq with
        | cons _ hstep hrest =>
          rw [intercalate_cons] at hcs
          cases hcs
          exact ⟨_, _, rfl, hstep, hrest, rfl⟩
        | nil =>
          cases ps with
          | nil => simp at hcs
          | cons r rs =>
            rw [List.intercalate_cons_cons] at hcs
            exact absurd ⟨rfl, (List.cons.inj hcs).1⟩ hcomma
      rw [splitFrom, if_neg hcomma]
      constructor
      · intro h
        split at h
        · cases h
        · rename_i m hstep
          obtain ⟨q, rfl, hq⟩ := map_consFirst_eq_some_iff.mp h
          obtain ⟨hpass, hps, rfl⟩ := ih.mp hq
          exact ⟨.cons hcomma hstep hpass, hps, intercalate_cons.symm⟩
      · rintro ⟨hp, hps, hcs⟩
        obtain ⟨m, r, rfl, hstep, hpass, rfl⟩ := hstart hp hcs
        rw [hstep]
        exact map_consFirst_eq_some_iff.mpr ⟨r, rfl, ih.mpr ⟨hpass, hps, rfl⟩⟩

/-- A text splits into pieces exactly if they are whole and commas make the text of them. -/
theorem splitTop_eq_some_iff :
    splitTop cs = some ps ↔ ps ≠ [] ∧ (∀ p ∈ ps, Whole p) ∧ cs = [','].intercalate ps := by
  cases ps with
  | nil => simp [splitTop, splitFrom_ne_nil]
  | cons p ps =>
    rw [splitTop, splitFrom_eq_some_iff, List.forall_mem_cons, and_assoc]
    exact (and_iff_right (List.cons_ne_nil _ _)).symm

/-! ## Quotes alone -/

def quoteAfter (quote : Option Char) (c : Char) : Option Char :=
  match quote with
  | some q => if c = q then none else some q
  | none => if isQuote c then some c else none

theorem Nesting.step_quote (h : n.step c = some m) : m.quote = quoteAfter n.quote c := by
  unfold Nesting.step at h
  unfold quoteAfter
  grind

theorem Passes.quote (h : Passes n cs m) : m.quote = cs.foldl quoteAfter n.quote := by
  induction h with
  | nil => rfl
  | cons _ hstep _ ih => rw [List.foldl_cons, ← Nesting.step_quote hstep, ih]

/-- A quote character swaps its own quote with none. -/
theorem quoteAfter_quoteAfter {quote : Option Char} (h : ∀ q ∈ quote, isQuote q = true) (c : Char) :
    quoteAfter (quoteAfter quote c) c = quote ∧ ∀ q ∈ quoteAfter quote c, isQuote q = true := by
  unfold quoteAfter
  grind

theorem foldl_quoteAfter_inj {quote quote' : Option Char} (h : ∀ q ∈ quote, isQuote q = true)
    (h' : ∀ q ∈ quote', isQuote q = true) (heq : cs.foldl quoteAfter quote = cs.foldl quoteAfter quote') :
    quote = quote' := by
  induction cs generalizing quote quote' with
  | nil => exact heq
  | cons c cs ih =>
    have hback := quoteAfter_quoteAfter h c
    have hback' := quoteAfter_quoteAfter h' c
    have hsame := ih hback.2 hback'.2 heq
    rw [← hback.1, ← hback'.1, hsame]

/-- The pieces of a text close all quotes in it. -/
theorem foldl_quoteAfter_split (h : splitTop cs = some ps) : cs.foldl quoteAfter none = none := by
  obtain ⟨-, hwhole, rfl⟩ := splitTop_eq_some_iff.mp h
  clear h
  induction ps with
  | nil => rfl
  | cons p ps ih =>
    obtain ⟨hp, hps⟩ := List.forall_mem_cons.mp hwhole
    have hquote : p.foldl quoteAfter none = none := hp.quote.symm
    cases ps with
    | nil => rwa [List.intercalate_singleton]
    | cons q qs =>
      rw [List.intercalate_cons_cons, List.foldl_append, List.foldl_append, hquote]
      exact ih hps

theorem foldl_quoteAfter_inert {quote : Option Char} (h : ∀ c ∈ cs, isQuote c = false)
    (hq : ∀ q ∈ quote, isQuote q = true) : cs.foldl quoteAfter quote = quote := by
  induction cs with
  | nil => rfl
  | cons c cs ih =>
    have hc : quoteAfter quote c = quote := by
      have := h c (List.mem_cons_self ..)
      unfold quoteAfter
      grind
    rw [List.foldl_cons, hc]
    exact ih fun d hd => h d (List.mem_cons_of_mem _ hd)

theorem Passes.depth_le (h : Passes n cs m) (hopen : '(' ∉ cs) : m.depth ≤ n.depth := by
  induction h with
  | nil => exact Nat.le_refl _
  | cons hc hstep _ ih =>
    obtain ⟨hne, hcs⟩ := not_or.mp (mt List.mem_cons.mpr hopen)
    refine Nat.le_trans (ih hcs) ?_
    unfold Nesting.step at hstep
    grind

/-- What stands before the first parenthesis of a piece is whole if what the outer parentheses hold closes its quotes. -/
theorem whole_front {inner after : List Char} (h : Whole (front ++ '(' :: (inner ++ ')' :: after))) (hopen : '(' ∉ front)
    (hinner : inner.foldl quoteAfter none = none) (hafter : Blanks after) : Whole front := by
  obtain ⟨m, hfront, hrest⟩ := passes_append.mp h
  have hm := hfront.proper Nesting.proper_top
  have hend : (')' :: after).foldl quoteAfter none = none :=
    foldl_quoteAfter_inert (List.forall_mem_cons.mpr ⟨rfl, fun c hc => (hafter.inert c hc).1⟩) (by simp)
  have hclosed : ('(' :: (inner ++ ')' :: after)).foldl quoteAfter none = none := by
    rw [List.foldl_cons, List.foldl_append]
    exact (congrArg (List.foldl quoteAfter · _) hinner).trans hend
  -- what follows ends outside of quotes from `m` and from none alike, so `m` was outside
  have hquote : m.quote = none := foldl_quoteAfter_inj hm (by simp) (hrest.quote.symm.trans hclosed.symm)
  have hdepth : m.depth = 0 := Nat.le_zero.mp (hfront.depth_le hopen)
  obtain ⟨quote, depth⟩ := m
  cases hquote
  cases hdepth
  exact hfront

end QueryNet.Text
