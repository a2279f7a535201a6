/-
  QueryNet.Table — tables sorted by key.

  A table holds one value per key, its entries in ascending order of their keys, so
  two tables with the same bindings are equal (`ext`) and a walk over the entries
  meets the keys in order. Bindings, routes, pending requests and interfaces are all
  kept in such tables.

  Proved: `get?_insert`, `get?_erase` and `get?_empty` (what each operation does to
  the view `get?`), `ext`, `mem_entries_iff`, and `size_erase_lt` (taking out a key
  that is present makes a table smaller).
-/

namespace QueryNet

/-- One value per key, entries in ascending order of keys. -/
structure Table (κ ν : Type) [Ord κ] where
  entries : List (κ × ν)
  sorted : entries.Pairwise fun a b => compare a.1 b.1 = .lt

namespace Table

variable {κ ν : Type} [Ord κ]

theorem eq_of_entries {t u : Table κ ν} (h : t.entries = u.entries) : t = u := by
  cases t; cases u; cases h; rfl

instance [DecidableEq κ] [DecidableEq ν] : DecidableEq (Table κ ν) := fun t u =>
  decidable_of_iff (t.entries = u.entries) ⟨eq_of_entries, fun h => by rw [h]⟩

instance [Repr κ] [Repr ν] : Repr (Table κ ν) := ⟨fun t n => reprPrec t.entries n⟩

def empty : Table κ ν := ⟨[], .nil⟩

instance : EmptyCollection (Table κ ν) := ⟨empty⟩

instance : Inhabited (Table κ ν) := ⟨empty⟩

def size (t : Table κ ν) : Nat := t.entries.length

def isEmpty (t : Table κ ν) : Bool := t.entries.isEmpty

def keys (t : Table κ ν) : List κ := t.entries.map (·.1)

def lookup (k : κ) : List (κ × ν) → Option ν
  | [] => none
  | e :: r => if compare k e.1 = .eq then some e.2 else lookup k r

def get? (t : Table κ ν) (k : κ) : Option ν := lookup k t.entries

def contains (t : Table κ ν) (k : κ) : Bool := (t.get? k).isSome

def place (k : κ) (v : ν) : List (κ × ν) → List (κ × ν)
  | [] => [(k, v)]
  | e :: r =>
    match compare k e.1 with
    | .lt => (k, v) :: e :: r
    | .eq => (k, v) :: r
    | .gt => e :: place k v r

theorem mem_place {k : κ} {v : ν} {l : List (κ × ν)} {e : κ × ν} (h : e ∈ place k v l) :
    e = (k, v) ∨ e ∈ l := by
  induction l with
  | nil => simpa [place] using h
  | cons a r ih =>
    simp only [place] at h
    split at h
    · simpa using h
    · rcases List.mem_cons.mp h with h | h
      · exact Or.inl h
      · exact Or.inr (List.mem_cons_of_mem _ h)
    · rcases List.mem_cons.mp h with rfl | h
      · exact Or.inr (List.mem_cons_self ..)
      · exact (ih h).imp id (List.mem_cons_of_mem _)

variable [Std.TransOrd κ] [Std.LawfulEqOrd κ]

theorem place_sorted {k : κ} {v : ν} {l : List (κ × ν)} (h : l.Pairwise fun a b => compare a.1 b.1 = .lt) :
    (place k v l).Pairwise fun a b => compare a.1 b.1 = .lt := by
  induction l with
  | nil => simp [place]
  | cons e r ih =>
    obtain ⟨he, hr⟩ := List.pairwise_cons.mp h
    simp only [place]
    split
    · rename_i hk
      refine List.pairwise_cons.mpr ⟨fun x hx => ?_, h⟩
      rcases List.mem_cons.mp hx with rfl | hx
      · exact hk
      · exact Std.TransCmp.lt_trans hk (he x hx)
    · rename_i hk
      have hk := Std.LawfulEqOrd.eq_of_compare hk
      subst hk
      exact List.pairwise_cons.mpr ⟨he, hr⟩
    · rename_i hk
      refine List.pairwise_cons.mpr ⟨fun x hx => ?_, ih hr⟩
      rcases mem_place hx with rfl | hx
      · exact Std.OrientedCmp.gt_iff_lt.mp hk
      · exact he x hx

def insert (t : Table κ ν) (k : κ) (v : ν) : Table κ ν := ⟨place k v t.entries, place_sorted t.sorted⟩

omit [Std.TransOrd κ] [Std.LawfulEqOrd κ] in
def erase (t : Table κ ν) (k : κ) : Table κ ν :=
  ⟨t.entries.filter fun e => compare k e.1 != .eq, t.sorted.filter _⟩

/-- Binds every pair of a list in turn: of a repeated key the last value stays. -/
def insertAll (t : Table κ ν) (l : List (κ × ν)) : Table κ ν := l.foldl (fun t e => t.insert e.1 e.2) t

def ofList (l : List (κ × ν)) : Table κ ν := insertAll empty l

/-- `u`'s bindings over `t`'s. -/
def merge (t u : Table κ ν) : Table κ ν := t.insertAll u.entries

/-! ## What each operation does to `get?` -/

omit [Std.TransOrd κ] [Std.LawfulEqOrd κ] in
@[simp] theorem get?_empty (k : κ) : (∅ : Table κ ν).get? k = none := rfl

omit [Std.TransOrd κ] in
theorem lookup_place [DecidableEq κ] (k : κ) (v : ν) (q : κ) (l : List (κ × ν)) :
    lookup q (place k v l) = if q = k then some v else lookup q l := by
  induction l with
  | nil => simp [place, lookup]
  | cons e r ih =>
    simp only [place]
    split
    · simp [lookup]
    · rename_i hk
      have hk := Std.LawfulEqOrd.eq_of_compare hk
      subst hk
      by_cases h : q = e.1 <;> simp [lookup, h]
    · rename_i hk
      simp only [lookup, ih, Std.compare_eq_iff_eq]
      by_cases h : q = e.1
      · have hne : q ≠ k := fun hq => by rw [← hq, h] at hk; simp at hk
        rw [if_pos h, if_neg hne, if_pos h]
      · simp only [if_neg h]

@[simp] theorem get?_insert [DecidableEq κ] (t : Table κ ν) (k : κ) (v : ν) (q : κ) :
    (t.insert k v).get? q = if q = k then some v else t.get? q := lookup_place k v q t.entries

omit [Std.TransOrd κ] in
theorem lookup_filter [DecidableEq κ] (k q : κ) (l : List (κ × ν)) :
    lookup q (l.filter fun e => compare k e.1 != .eq) = if q = k then none else lookup q l := by
  induction l with
  | nil => simp [lookup]
  | cons e r ih =>
    by_cases hk : k = e.1
    · rw [List.filter_cons_of_neg (by simp [hk]), ih]
      by_cases hq : q = k
      · simp [hq]
      · simp [lookup, hq, hk ▸ hq]
    · rw [List.filter_cons_of_pos (by simp [hk])]
      simp only [lookup, ih, Std.compare_eq_iff_eq]
      by_cases hq : q = e.1
      · have hne : q ≠ k := fun h => hk (h.symm.trans hq)
        simp only [if_pos hq, if_neg hne]
      · simp only [if_neg hq]

omit [Std.TransOrd κ] in
@[simp] theorem get?_erase [DecidableEq κ] (t : Table κ ν) (k q : κ) :
    (t.erase k).get? q = if q = k then none else t.get? q := lookup_filter k q t.entries

omit [Std.TransOrd κ] in
theorem mem_of_lookup {k : κ} {v : ν} {l : List (κ × ν)} (h : lookup k l = some v) : (k, v) ∈ l := by
  induction l with
  | nil => cases h
  | cons e r ih =>
    simp only [lookup] at h
    split at h
    · rename_i hk
      have hk := Std.LawfulEqOrd.eq_of_compare hk
      cases h; subst hk; exact List.mem_cons_self ..
    · exact List.mem_cons_of_mem _ (ih h)

omit [Std.TransOrd κ] in
theorem lookup_of_mem {k : κ} {v : ν} {l : List (κ × ν)} (hs : l.Pairwise fun a b => compare a.1 b.1 = .lt)
    (h : (k, v) ∈ l) : lookup k l = some v := by
  induction l with
  | nil => cases h
  | cons e r ih =>
    obtain ⟨he, hr⟩ := List.pairwise_cons.mp hs
    simp only [lookup]
    rcases List.mem_cons.mp h with rfl | h
    · simp
    · have := he _ h
      have hk : compare k e.1 ≠ .eq := fun hk => by
        rw [Std.LawfulEqOrd.eq_of_compare hk] at this; simp at this
      rw [if_neg hk]; exact ih hr h

omit [Std.TransOrd κ] in
/-- A table's entries are its bindings. -/
theorem mem_entries_iff {t : Table κ ν} {k : κ} {v : ν} : (k, v) ∈ t.entries ↔ t.get? k = some v :=
  ⟨lookup_of_mem t.sorted, mem_of_lookup⟩

/-- Tables with the same bindings are equal. -/
theorem ext {t u : Table κ ν} (h : ∀ k, t.get? k = u.get? k) : t = u := by
  apply eq_of_entries
  obtain ⟨l, hl⟩ := t
  obtain ⟨m, hm⟩ := u
  have hmem : ∀ e, e ∈ l ↔ e ∈ m := fun ⟨k, v⟩ =>
    (mem_entries_iff (t := ⟨l, hl⟩)).trans ((h k) ▸ (mem_entries_iff (t := ⟨m, hm⟩)).symm)
  show l = m
  clear h
  induction l generalizing m with
  | nil =>
    cases m with
    | nil => rfl
    | cons e r => exact absurd ((hmem e).mpr (List.mem_cons_self ..)) (by simp)
  | cons a l ih =>
    cases m with
    | nil => exact absurd ((hmem a).mp (List.mem_cons_self ..)) (by simp)
    | cons b m =>
      obtain ⟨ha, hl'⟩ := List.pairwise_cons.mp hl
      obtain ⟨hb, hm'⟩ := List.pairwise_cons.mp hm
      have hab : a = b := by
        rcases List.mem_cons.mp ((hmem a).mp (List.mem_cons_self ..)) with h | h
        · exact h
        · rcases List.mem_cons.mp ((hmem b).mpr (List.mem_cons_self ..)) with h' | h'
          · exact h'.symm
          · have := Std.TransCmp.lt_trans (hb a h) (ha b h')
            simp at this
      subst hab
      congr 1
      refine ih hl' m hm' fun e => ⟨fun he => ?_, fun he => ?_⟩
      · rcases List.mem_cons.mp ((hmem e).mp (List.mem_cons_of_mem _ he)) with rfl | h
        · have := ha _ he; simp at this
        · exact h
      · rcases List.mem_cons.mp ((hmem e).mpr (List.mem_cons_of_mem _ he)) with rfl | h
        · have := hb _ he; simp at this
        · exact h

omit [Std.TransOrd κ] in
/-- Taking out a key that is present makes a table smaller. -/
theorem size_erase_lt {t : Table κ ν} {k : κ} {v : ν} (h : t.get? k = some v) : (t.erase k).size < t.size :=
  List.length_filter_lt_length_iff_exists.mpr ⟨_, mem_of_lookup h, by simp⟩

end Table

end QueryNet
