/-
  QueryNet.Proofs.Json.Texts — data are read from the texts that are printed for them.

  A datum can be written if what it has for a number with a fraction or an exponent is
  one, and none of its strings and names has a high surrogate before a low one, which
  would be read as one code point (`Writable`). A reader takes tokens off a text from the
  front (`run_token`), so it reads the text of a datum whatever is open and whatever
  follows, as long as that does not go on with a number (`run_compact`). The proof goes
  along the datum; lists and records are both parts between commas (`run_join`).

  Proved: what can be written is read back from its compact text (`parse_compact`), and
  nothing else is ever read (`writable_iff`).
-/

import QueryNet.Proofs.Handling
import QueryNet.Proofs.Json.Lexemes

namespace QueryNet.Json

open Text (Points Joined)

inductive Writable : Datum → Prop
  | null : Writable .null
  | bool (b : Bool) : Writable (.bool b)
  | int (minus : Bool) (n : Nat) : Writable (.int minus n)
  | real {literal : String} : (∀ c ∈ literal.toList, isNumeric c = true) →
      readNumber literal.toList = some (.real literal) → Writable (.real literal)
  | string {ps : Points} : Joined ps → Writable (.string ps)
  | list {items : List Datum} : (∀ d ∈ items, Writable d) → Writable (.list items)
  | record {members : List (Points × Datum)} : (∀ m ∈ members, Joined m.1) → (∀ m ∈ members, Writable m.2) →
      Writable (.record members)

/-! ## One token after another -/

def run (cs : List Char) (x : Expect) : Option Expect := (tokens cs).bind (·.foldlM feed x)

variable {cs rest : List Char} {x y : Expect} {t : Token} {d : Datum} {first : Bool} {stack : List Frame}

theorem parse_eq_some_iff {s : String} :
    parse s = some d ↔ run s.toList (.value false []) = some (.after d []) := by
  simp only [parse, run, Option.bind_eq_some_iff]
  refine exists_congr fun ts => and_congr_right fun _ => ?_
  unfold assemble
  split
  · rename_i e hfold
    simp [hfold]
  · rename_i hother
    exact iff_of_false (by simp) (hother d)

theorem run_nil (x : Expect) : run [] x = some x := by
  rw [run, tokens]
  rfl

theorem run_token (ht : tokens (cs ++ rest) = (tokens rest).map (t :: ·)) (hfeed : feed x t = some y) :
    run (cs ++ rest) x = run rest y := by
  unfold run
  rw [ht]
  cases tokens rest with
  | none => rfl
  | some ts => simp [hfeed]

theorem run_punctuation {c : Char} (hc : punctuation? c = some t) (hfeed : feed x t = some y) (rest : List Char) :
    run (c :: rest) x = run rest y := by
  have htoken : tokens ([c] ++ rest) = (tokens rest).map (t :: ·) := tokens_punctuation hc rest
  exact run_token htoken hfeed

/-! ## Parts between commas -/

section
variable {α : Type} {text : α → String} {c : Char} {parts : List α}

theorem breaks_punctuation (hc : punctuation? c = some t) (rest : List Char) : Breaks (c :: rest) := by
  intro e he
  cases he
  exact (punctuation?_apart hc).2

/-- Parts that are read one by one are read between commas up to the bracket. `before` is where the machine expects a
    part after others, the latest first, and `after` where it has just read one. -/
theorem run_join (before : Bool → List α → Expect) (after : α → List α → Expect) (whole : List α → Expect)
    (hparts : ∀ a ∈ parts, ∀ first acc rest, Breaks rest →
      run ((text a).toList ++ rest) (before first acc) = run rest (after a acc))
    (hcomma : ∀ a acc, feed (after a acc) .comma = some (before false (a :: acc))) (hc : punctuation? c = some t)
    (hclose : ∀ a acc, feed (after a acc) t = some (whole (a :: acc).reverse)) (hne : parts ≠ []) (first : Bool)
    (acc : List α) (rest : List Char) :
    run ((Text.join "," (parts.map text)).toList ++ c :: rest) (before first acc) =
      run rest (whole (acc.reverse ++ parts)) := by
  induction parts generalizing first acc with
  | nil => exact absurd rfl hne
  | cons a parts ih =>
    -- What follows a part is the bracket or a comma, and neither goes on with a number.
    obtain ⟨ha, hparts⟩ := List.forall_mem_cons.mp hparts
    have hcommas : punctuation? ',' = some .comma := rfl
    cases parts with
    | nil =>
      rw [List.map_singleton, Text.join, ha _ _ _ (breaks_punctuation hc rest), run_punctuation hc (hclose a acc),
        List.reverse_cons]
    | cons b parts =>
      have hjoin : (Text.join "," ((a :: b :: parts).map text)).toList ++ c :: rest =
          (text a).toList ++ ',' :: ((Text.join "," ((b :: parts).map text)).toList ++ c :: rest) := by
        simp [Text.join]
      rw [hjoin, ha _ _ _ (breaks_punctuation hcommas _), run_punctuation hcommas (hcomma a acc),
        ih hparts (List.cons_ne_nil _ _), List.reverse_cons, List.append_assoc, List.singleton_append]

end

/-! ## Printed data -/

theorem compactItems_eq_map (items : List Datum) : compactItems items = items.map compact := by
  induction items with
  | nil => rfl
  | cons d items ih => rw [compactItems, ih, List.map_cons]

def compactMember (m : Points × Datum) : String := quoted m.1 ++ ":" ++ compact m.2

theorem compactMembers_eq_map (members : List (Points × Datum)) :
    compactMembers members = members.map compactMember := by
  induction members with
  | nil => rfl
  | cons m members ih => rw [compactMembers, ih, List.map_cons, compactMember]

/-- The machine has read a datum after its compact text, whatever is open and whatever follows. -/
theorem run_compact (h : Writable d) : ∀ (first : Bool) (stack : List Frame) (rest : List Char), Breaks rest →
    run ((compact d).toList ++ rest) (.value first stack) = run rest (.after d stack) := by
  induction h with
  | null =>
    intro first stack rest _
    exact run_token (tokens_word (by decide) rfl) rfl
  | bool b =>
    intro first stack rest _
    cases b with
    | false => exact run_token (tokens_word (by decide) rfl) rfl
    | true => exact run_token (tokens_word (by decide) rfl) rfl
  | int minus n =>
    intro first stack rest hrest
    rw [compact]
    exact run_token (tokens_numeric (isNumeric_number minus n) (readNumber_number minus n) hrest) rfl
  | @real literal hcs hread =>
    intro first stack rest hrest
    rw [compact]
    exact run_token (tokens_numeric hcs hread hrest) rfl
  | string hps =>
    intro first stack rest _
    rw [compact]
    exact run_token (tokens_quoted hps rest) rfl
  | @list items _ ih =>
    intro first stack rest _
    have hopen : punctuation? '[' = some .openList := rfl
    have hclose : punctuation? ']' = some .closeList := rfl
    have htext : (compact (.list items)).toList ++ rest =
        '[' :: ((Text.join "," (items.map compact)).toList ++ ']' :: rest) := by
      simp [compact, compactItems_eq_map]
    rw [htext, run_punctuation hopen rfl]
    cases items with
    | nil => exact run_punctuation hclose rfl rest
    | cons d items =>
      exact run_join (fun first acc => .value first (.list acc :: stack)) (fun d acc => .after d (.list acc :: stack))
        (fun items => .after (.list items) stack) (fun e he first acc => ih e he first _) (fun _ _ => rfl) hclose
        (fun _ _ => rfl) (List.cons_ne_nil _ _) true [] rest
  | @record members hnames _ ih =>
    intro first stack rest _
    have hopen : punctuation? '\x7b' = some .openRecord := rfl
    have hclose : punctuation? '\x7d' = some .closeRecord := rfl
    have hcolon : punctuation? ':' = some .colon := rfl
    have htext : (compact (.record members)).toList ++ rest =
        '\x7b' :: ((Text.join "," (members.map compactMember)).toList ++ '\x7d' :: rest) := by
      simp [compact, compactMembers_eq_map]
    rw [htext, run_punctuation hopen rfl]
    cases members with
    | nil => exact run_punctuation hclose rfl rest
    | cons m members =>
      refine run_join (fun first acc => .name first acc stack) (fun m acc => .after m.2 (.record acc m.1 :: stack))
        (fun members => .after (.record members) stack) (fun m hm first acc rest hrest => ?_) (fun _ _ => rfl) hclose
        (fun _ _ => rfl) (List.cons_ne_nil _ _) true [] rest
      have hmember :
          (compactMember m).toList ++ rest = (quoted m.1).toList ++ ':' :: ((compact m.2).toList ++ rest) := by
        simp [compactMember]
      rw [hmember, run_token (tokens_quoted (hnames m hm) _) rfl, run_punctuation hcolon rfl,
        ih m hm false _ rest hrest]

/-- What can be written is read back from its compact text. -/
theorem parse_compact (h : Writable d) : parse (compact d) = some d := by
  have hrun := run_compact h false [] [] (by simp [Breaks])
  rw [List.append_nil] at hrun
  exact parse_eq_some_iff.mpr (hrun.trans (run_nil _))

/-! ## Data that are read -/

def Token.Sound : Token → Prop
  | .string ps => Joined ps
  | .scalar d => Writable d
  | _ => True

theorem writable_readNumber (hcs : ∀ c ∈ cs, isNumeric c = true) (h : readNumber cs = some d) : Writable d := by
  have hread := h
  unfold readNumber at h
  dsimp only at h
  generalize (if (cs.head? == some '-') = true then cs.tail else cs) = magnitude at h
  split at h
  · cases h
  split at h
  · cases h
    exact .int _ _
  split at h
  · cases h
    refine .real ?_ ?_
    · rwa [String.toList_ofList]
    · rwa [String.toList_ofList]
  · cases h

theorem writable_readWord {r : Datum × List Char} (h : readWord cs = some r) : Writable r.1 := by
  unfold readWord at h
  split at h
  · cases h
    exact .null
  · cases h
    exact .bool true
  · cases h
    exact .bool false
  · cases h

theorem sound_punctuation {c : Char} (h : punctuation? c = some t) : t.Sound := by
  unfold punctuation? at h
  repeat' split at h
  all_goals cases h
  all_goals trivial

/-- All tokens of a text are sound. -/
theorem sound_tokens {ts : List Token} (h : tokens cs = some ts) : ∀ t ∈ ts, t.Sound := by
  have hcons : ∀ {t : Token} {cs : List Char} {ts : List Token}, t.Sound →
      (∀ {us}, tokens cs = some us → ∀ u ∈ us, u.Sound) → (tokens cs).map (t :: ·) = some ts → ∀ u ∈ ts, u.Sound := by
    intro t cs ts ht hcs h
    obtain ⟨us, hus, rfl⟩ := Option.map_eq_some_iff.mp h
    exact List.forall_mem_cons.mpr ⟨ht, hcs hus⟩
  fun_induction tokens cs generalizing ts with
  | case1 =>
    cases h
    simp
  | case2 c rest hblank ih => exact ih h
  | case3 c rest hblank t hpunct ih => exact hcons (sound_punctuation hpunct) ih h
  | case4 => cases h
  | case5 _ _ _ hread _ _ _ ih =>
    exact hcons (t := .string _) (Text.joined_pairSurrogates (readString_lt hread)) ih h
  | case6 => cases h
  | case7 c rest _ _ _ hc d hread _ ih =>
    have hall : ∀ e ∈ c :: rest.takeWhile isNumeric, isNumeric e = true :=
      List.forall_mem_cons.mpr ⟨hc, fun e he => List.mem_takeWhile_imp he⟩
    exact hcons (t := .scalar d) (writable_readNumber hall hread) ih h
  | case8 => cases h
  | case9 _ _ _ _ _ _ _ _ hread _ ih => exact hcons (t := .scalar _) (writable_readWord hread) ih h

def Frame.Sound : Frame → Prop
  | .list items => ∀ d ∈ items, Writable d
  | .record members name => (∀ m ∈ members, Joined m.1 ∧ Writable m.2) ∧ Joined name

def Expect.Sound : Expect → Prop
  | .value _ stack => ∀ f ∈ stack, f.Sound
  | .name _ members stack => (∀ m ∈ members, Joined m.1 ∧ Writable m.2) ∧ ∀ f ∈ stack, f.Sound
  | .colon members label stack => (∀ m ∈ members, Joined m.1 ∧ Writable m.2) ∧ Joined label ∧ ∀ f ∈ stack, f.Sound
  | .after d stack => Writable d ∧ ∀ f ∈ stack, f.Sound

theorem writable_record {members : List (Points × Datum)} (h : ∀ m ∈ members, Joined m.1 ∧ Writable m.2) :
    Writable (.record members) :=
  .record (fun m hm => (h m hm).1) fun m hm => (h m hm).2

/-- A sound token keeps that. -/
theorem sound_feed (h : feed x t = some y) (ht : t.Sound) (hx : x.Sound) : y.Sound := by
  unfold feed at h
  split at h <;> cases h
  case h_1 => exact ⟨ht, hx⟩
  case h_2 => exact ⟨.string ht, hx⟩
  case h_3 => exact List.forall_mem_cons.mpr ⟨List.forall_mem_nil _, hx⟩
  case h_4 => exact ⟨List.forall_mem_nil _, hx⟩
  case h_5 => exact ⟨.list (List.forall_mem_nil _), (List.forall_mem_cons.mp hx).2⟩
  case h_6 => exact ⟨hx.1, ht, hx.2⟩
  case h_7 => exact ⟨writable_record (List.forall_mem_nil _), hx.2⟩
  case h_8 => exact List.forall_mem_cons.mpr ⟨⟨hx.1, hx.2.1⟩, hx.2.2⟩
  case h_9 =>
    obtain ⟨hd, hstack⟩ := hx
    obtain ⟨hitems, hstack⟩ := List.forall_mem_cons.mp hstack
    exact List.forall_mem_cons.mpr ⟨List.forall_mem_cons.mpr ⟨hd, hitems⟩, hstack⟩
  case h_10 =>
    obtain ⟨hd, hstack⟩ := hx
    obtain ⟨hitems, hstack⟩ := List.forall_mem_cons.mp hstack
    refine ⟨.list fun e he => ?_, hstack⟩
    exact List.forall_mem_cons.mpr ⟨hd, hitems⟩ e (List.mem_reverse.mp he)
  case h_11 =>
    obtain ⟨hd, hstack⟩ := hx
    obtain ⟨⟨hmembers, hname⟩, hstack⟩ := List.forall_mem_cons.mp hstack
    exact ⟨List.forall_mem_cons.mpr ⟨⟨hname, hd⟩, hmembers⟩, hstack⟩
  case h_12 =>
    obtain ⟨hd, hstack⟩ := hx
    obtain ⟨⟨hmembers, hname⟩, hstack⟩ := List.forall_mem_cons.mp hstack
    refine ⟨writable_record fun m hm => ?_, hstack⟩
    exact List.forall_mem_cons.mpr ⟨⟨hname, hd⟩, hmembers⟩ m (List.mem_reverse.mp hm)

/-- What can be written is what some text holds. -/
theorem writable_iff : Writable d ↔ ∃ s, parse s = some d := by
  constructor
  · exact fun h => ⟨compact d, parse_compact h⟩
  · rintro ⟨s, h⟩
    obtain ⟨ts, hts, hfold⟩ := Option.bind_eq_some_iff.mp (parse_eq_some_iff.mp h)
    have hstart : Expect.Sound (.value false []) := by simp [Expect.Sound]
    exact (Turn.foldlM_keeps (fun t ht _ _ hfeed => sound_feed hfeed (sound_tokens hts t ht)) hfold hstart).1

end QueryNet.Json
