/-
  QueryNet.Proofs.Scanning.Balance — which texts split at their commas, and into what.

  A text is balanced if every quote in it is closed by the character that opened it, and
  of what stands outside the quotes (`Outside`) the parentheses match (`Paired`). Nothing
  of this speaks of a scan. A scan does not see what a quote encloses
  (`Outside.scan_eq`), and outside quotes it only counts parentheses (`scan_eq_iff`); so
  a text is balanced if a scan that starts at the top ends there (`balanced_iff`).

  Proved: exactly the balanced texts split, and a text splits into given pieces exactly
  if commas make it of them, each is balanced and none has a comma where what stands
  before it is balanced (`splitTop_exact`).
-/

import QueryNet.Proofs.Scanning

namespace QueryNet.Text

/-! ## Balanced texts -/

/-- What of a text stands outside its quotes; each of them ends at the first character equal to the one that
    opened it. -/
inductive Outside : List Char → List Char → Prop
  | nil : Outside [] []
  | plain {c : Char} {cs os : List Char} : isQuote c = false → Outside cs os → Outside (c :: cs) (c :: os)
  | quoted {q : Char} {inside cs os : List Char} : isQuote q = true → q ∉ inside → Outside cs os →
      Outside (q :: (inside ++ q :: cs)) os

structure Paired (os : List Char) : Prop where
  opened : ∀ front, front <+: os → front.count ')' ≤ front.count '('
  closed : os.count ')' = os.count '('

/-- All quotes are closed, and outside of them parentheses match. -/
def Balanced (cs : List Char) : Prop := ∃ os, Outside cs os ∧ Paired os

/-- Some comma stands outside quotes and parentheses: what is before it is balanced. -/
def CommaAtTop (cs : List Char) : Prop := ∃ front rest, cs = front ++ ',' :: rest ∧ Balanced front

/-! ## Scans and quotes -/

def scan (n : Nesting) (cs : List Char) : Option Nesting := cs.foldlM Nesting.step n

variable {n m : Nesting} {c q : Char} {cs os inside front : List Char} {d e : Nat}

@[simp] theorem scan_nil : scan n [] = some n := rfl

@[simp] theorem scan_cons : scan n (c :: cs) = (n.step c).bind (scan · cs) := rfl

/-- A scan stays in a quote up to the character that closes it. -/
theorem scan_quote (h : q ∉ inside) : scan ⟨some q, d⟩ (inside ++ q :: cs) = scan ⟨none, d⟩ cs := by
  induction inside with
  | nil => simp [Nesting.step]
  | cons c inside ih =>
    obtain ⟨hne, hinside⟩ := not_or.mp (mt List.mem_cons.mpr h)
    simpa [Nesting.step, Ne.symm hne] using ih hinside

/-- Outside quotes a character that opens none leaves the scan outside. -/
theorem step_plain (hc : isQuote c = false) (hstep : Nesting.step ⟨none, d⟩ c = some m) : m.quote = none := by
  have hquote := Nesting.step_quote hstep
  simpa [quoteAfter, hc] using hquote

/-- A scan does not see what quotes enclose. -/
theorem Outside.scan_eq (h : Outside cs os) (d : Nat) : scan ⟨none, d⟩ cs = scan ⟨none, d⟩ os := by
  induction h generalizing d with
  | nil => rfl
  | @plain c cs os hc _ ih =>
    rw [scan_cons, scan_cons]
    refine Option.bind_congr fun m hstep => ?_
    obtain ⟨quote, depth⟩ := m
    obtain rfl := step_plain hc hstep
    exact ih depth
  | @quoted q inside cs os hq hinside _ ih =>
    have hopen : Nesting.step ⟨none, d⟩ q = some ⟨some q, d⟩ := by simp [Nesting.step, hq]
    rw [scan_cons, hopen, Option.bind_some, scan_quote hinside, ih]

theorem Outside.not_quote (h : Outside cs os) : ∀ c ∈ os, isQuote c = false := by
  induction h with
  | nil => simp
  | plain hc _ ih => exact List.forall_mem_cons.mpr ⟨hc, ih⟩
  | quoted _ _ _ ih => exact ih

/-- A scan that ends outside quotes closes them all, the one that it starts in first. -/
theorem exists_outside (h : scan n cs = some m) (hm : m.quote = none) :
    (n.quote = none → ∃ os, Outside cs os) ∧
      ∀ q ∈ n.quote, ∃ inside rest os, cs = inside ++ q :: rest ∧ q ∉ inside ∧ Outside rest os := by
  induction cs generalizing n with
  | nil =>
    cases h
    exact ⟨fun _ => ⟨[], .nil⟩, by simp [hm]⟩
  | cons c cs ih =>
    obtain ⟨k, hstep, hrest⟩ := Option.bind_eq_some_iff.mp h
    obtain ⟨hout, hin⟩ := ih hrest
    have hquote := Nesting.step_quote hstep
    constructor
    · intro hn
      by_cases hc : isQuote c
      · rw [hn, quoteAfter, if_pos hc] at hquote
        obtain ⟨inside, rest, os, rfl, hinside, hos⟩ := hin c hquote
        exact ⟨os, .quoted hc hinside hos⟩
      · rw [hn, quoteAfter, if_neg hc] at hquote
        obtain ⟨os, hos⟩ := hout hquote
        exact ⟨c :: os, .plain (Bool.not_eq_true _ ▸ hc) hos⟩
    · intro q hq
      rw [Option.mem_def.mp hq, quoteAfter] at hquote
      split at hquote
      · rename_i hc
        obtain ⟨os, hos⟩ := hout hquote
        exact ⟨[], cs, os, by rw [hc, List.nil_append], List.not_mem_nil, hos⟩
      · rename_i hc
        obtain ⟨inside, rest, os, rfl, hinside, hos⟩ := hin q hquote
        exact ⟨c :: inside, rest, os, rfl, by simp [Ne.symm hc, hinside], hos⟩

/-! ## Scans and parentheses -/

theorem forall_prefix_cons {P : List Char → Prop} :
    (∀ front, front <+: c :: os → P front) ↔ P [] ∧ ∀ front, front <+: os → P (c :: front) := by
  simp only [List.prefix_cons_iff]
  constructor
  · intro h
    exact ⟨h [] (.inl rfl), fun front hfront => h _ (.inr ⟨front, rfl, hfront⟩)⟩
  · rintro ⟨hnil, hcons⟩ front (rfl | ⟨front, rfl, hfront⟩)
    · exact hnil
    · exact hcons front hfront

/-- Outside quotes the depth of a scan counts the parentheses that are open. -/
theorem scan_eq_iff (h : ∀ c ∈ os, isQuote c = false) : scan ⟨none, d⟩ os = some ⟨none, e⟩ ↔
    (∀ front, front <+: os → front.count ')' ≤ d + front.count '(') ∧ e + os.count ')' = d + os.count '(' := by
  induction os generalizing d with
  | nil =>
    constructor
    · rintro ⟨⟩
      simp
    · rintro ⟨-, hd⟩
      obtain rfl : e = d := hd
      rfl
  | cons c os ih =>
    obtain ⟨hc, hos⟩ := List.forall_mem_cons.mp h
    rw [forall_prefix_cons, scan_cons]
    by_cases hopen : c = '('
    · subst hopen
      have hstep : Nesting.step ⟨none, d⟩ '(' = some ⟨none, d + 1⟩ := rfl
      have hne : '(' ≠ ')' := by decide
      rw [hstep, Option.bind_some, ih hos]
      simp only [List.count_nil, List.count_cons_self, List.count_cons_of_ne hne, Nat.zero_le, true_and]
      exact and_congr (forall₂_congr fun front _ => by omega) (by omega)
    · have hne : ')' ≠ '(' := by decide
      by_cases hclose : c = ')'
      · subst hclose
        cases d with
        | zero =>
          have hstep : Nesting.step ⟨none, 0⟩ ')' = none := rfl
          rw [hstep]
          simp only [List.count_nil, List.count_cons_self, List.count_cons_of_ne hne, Option.bind_none, reduceCtorEq,
            false_iff]
          rintro ⟨⟨-, hopened⟩, -⟩
          cases hopened [] List.nil_prefix
        | succ d =>
          have hstep : Nesting.step ⟨none, d + 1⟩ ')' = some ⟨none, d⟩ := rfl
          rw [hstep, Option.bind_some, ih hos]
          simp only [List.count_nil, List.count_cons_self, List.count_cons_of_ne hne, Nat.zero_le, true_and]
          exact and_congr (forall₂_congr fun front _ => by omega) (by omega)
      · have hstep : Nesting.step ⟨none, d⟩ c = some ⟨none, d⟩ := by simp [Nesting.step, hc, hopen, hclose]
        rw [hstep, Option.bind_some, ih hos]
        simp [hopen, hclose]

/-- A text is balanced if a scan that starts at the top ends there. -/
theorem balanced_iff : Balanced cs ↔ scan .top cs = some .top := by
  constructor
  · rintro ⟨os, hos, hopened, hclosed⟩
    rw [Nesting.top, hos.scan_eq, scan_eq_iff hos.not_quote]
    simpa using ⟨hopened, hclosed⟩
  · intro h
    obtain ⟨os, hos⟩ := (exists_outside h rfl).1 rfl
    rw [Nesting.top, hos.scan_eq, scan_eq_iff hos.not_quote] at h
    simp only [Nat.zero_add] at h
    exact ⟨os, hos, h.1, h.2⟩

/-! ## Pieces -/

/-- A scan passes over a text if it gets to its end and does not stand at the top where a comma follows. -/
theorem passes_iff :
    Passes n cs m ↔ scan n cs = some m ∧ ∀ front rest, cs = front ++ ',' :: rest → scan n front ≠ some .top := by
  induction cs generalizing n with
  | nil => simp [passes_nil]
  | cons c cs ih =>
    constructor
    · rintro (_ | ⟨hc, hstep, hrest⟩)
      obtain ⟨hscan, hcomma⟩ := ih.mp hrest
      rw [scan_cons, hstep]
      refine ⟨hscan, fun front rest heq => ?_⟩
      cases front with
      | nil =>
        obtain ⟨rfl, -⟩ := List.cons.inj heq
        exact fun htop => hc ⟨Option.some.inj htop, rfl⟩
      | cons d front =>
        obtain ⟨rfl, hcs⟩ := List.cons.inj heq
        rw [scan_cons, hstep]
        exact hcomma front rest hcs
    · rintro ⟨hscan, hcomma⟩
      obtain ⟨k, hstep, hrest⟩ := Option.bind_eq_some_iff.mp hscan
      refine .cons ?_ hstep (ih.mpr ⟨hrest, fun front rest heq => ?_⟩)
      · rintro ⟨rfl, rfl⟩
        exact hcomma [] cs rfl rfl
      · have := hcomma (c :: front) rest (by rw [heq, List.cons_append])
        rwa [scan_cons, hstep] at this

theorem whole_iff : Whole cs ↔ Balanced cs ∧ ¬ CommaAtTop cs := by
  rw [Whole, passes_iff, ← balanced_iff]
  simp only [CommaAtTop, balanced_iff, not_exists, not_and, ne_eq]

/-- A text splits as far as a scan gets over it to the top. -/
theorem splitFrom_ne_none_iff : splitFrom n cs ≠ none ↔ scan n cs = some .top := by
  induction cs generalizing n with
  | nil =>
    rw [splitFrom]
    split <;> simp_all
  | cons c cs ih =>
    rw [splitFrom, scan_cons]
    split
    · rename_i hcomma
      obtain ⟨rfl, rfl⟩ := hcomma
      rw [ne_eq, Option.map_eq_none_iff]
      exact ih
    · cases hstep : n.step c with
      | none => simp
      | some k =>
        rw [ne_eq, Option.map_eq_none_iff]
        exact ih

/-- Exactly the balanced texts split. They split into balanced pieces without a comma at the top, and into no others
    that commas make the text of. -/
theorem splitTop_exact (cs : List Char) :
    (splitTop cs ≠ none ↔ Balanced cs) ∧
      ∀ ps, splitTop cs = some ps ↔
        ps ≠ [] ∧ (∀ p ∈ ps, Balanced p ∧ ¬ CommaAtTop p) ∧ cs = [','].intercalate ps := by
  constructor
  · rw [splitTop, splitFrom_ne_none_iff, balanced_iff]
  · intro ps
    rw [splitTop_eq_some_iff]
    simp only [whole_iff]

/-- Inside a quote neither the other quote nor parentheses nor commas count. -/
example : splitTop "f(a, b),'(\x22,',c".toList = some ["f(a, b)".toList, "'(\x22,'".toList, "c".toList] := by decide

end QueryNet.Text
