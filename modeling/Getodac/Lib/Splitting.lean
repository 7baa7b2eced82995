import Mathlib
/-!
# Cutting a list at a separator

`fields` is what stands between separators, without what is empty. It is given in
three ways: by the cuts at the separators (`fields_of_cut`), as the maximal runs
without a separator (`fields_runs`), and as what was joined (`fields_joined`).
-/

namespace Splitting

variable {α : Type} [DecidableEq α]

/-- What stands between the separators and is not empty. -/
def fields (sep : α) (s : List α) : List (List α) := (s.splitOn sep).filter (· ≠ [])

/-- `s` is cut at its first separators: the pieces before them, and the rest. -/
structure Cut (sep : α) (s : List α) (pieces : List (List α)) (rest : List α) : Prop where
  eq : s = pieces.flatMap (· ++ [sep]) ++ rest
  free : ∀ p ∈ pieces, sep ∉ p

/-- The pieces, with one separator or more between them. -/
inductive Joined (sep : α) : List (List α) → List α → Prop where
  | nil : Joined sep [] []
  | single (p : List α) : Joined sep [p] p
  | cons (p : List α) (n : Nat) {q : List α} {ps : List (List α)} {s : List α} (h : Joined sep (q :: ps) s) :
      Joined sep (p :: q :: ps) (p ++ List.replicate (n + 1) sep ++ s)

/-- And any number of separators before and after them. -/
def Spaced (sep : α) (ps : List (List α)) (s : List α) : Prop :=
  ∃ (a b : Nat) (t : List α), Joined sep ps t ∧ s = List.replicate a sep ++ t ++ List.replicate b sep

/-- From `r.1` to before `r.2` there is no separator, and it is not possible to go further. -/
structure IsRun (sep : α) (s : List α) (r : Nat × Nat) : Prop where
  lt : r.1 < r.2
  le : r.2 ≤ s.length
  free : ∀ i, r.1 ≤ i → i < r.2 → s[i]? ≠ some sep
  left : r.1 = 0 ∨ s[r.1 - 1]? = some sep
  right : r.2 = s.length ∨ s[r.2]? = some sep

variable {sep : α}

/-- Induction over the separators of a list. -/
theorem separators_induction (sep : α) {P : List α → Prop} (free : ∀ s, sep ∉ s → P s)
    (step : ∀ p s, sep ∉ p → P s → P (p ++ sep :: s)) (s : List α) : P s := by
  induction h : s.length using Nat.strong_induction_on generalizing s with
  | _ n ih =>
    by_cases hm : sep ∈ s
    · obtain ⟨p, t, rfl, hp⟩ := List.eq_append_cons_of_mem hm
      refine step p t hp (ih t.length ?_ t rfl)
      rw [← h, List.length_append, List.length_cons]
      omega
    · exact free s hm

/-! ## Cuts -/

theorem fields_free {s : List α} (h : sep ∉ s) : fields sep s = if s = [] then [] else [s] := by
  rw [fields, List.splitOn_eq_singleton h]
  by_cases hs : s = [] <;> simp [hs]

theorem fields_append {p : List α} (h : sep ∉ p) (s : List α) :
    fields sep (p ++ sep :: s) = if p = [] then fields sep s else p :: fields sep s := by
  rw [fields, List.splitOn_append_cons_self_of_not_mem h]
  by_cases hp : p = [] <;> simp [hp, fields]

/-- A list cut at all its separators. -/
theorem fields_of_cut {s rest : List α} {pieces : List (List α)} (h : Cut sep s pieces rest) (hrest : sep ∉ rest) :
    fields sep s = (pieces ++ [rest]).filter (· ≠ []) := by
  obtain ⟨rfl, hfree⟩ := h
  induction pieces with
  | nil => rw [List.flatMap_nil, List.nil_append, fields, List.splitOn_eq_singleton hrest, List.nil_append]
  | cons p pieces ih =>
    have hsplit : (p :: pieces).flatMap (· ++ [sep]) ++ rest = p ++ sep :: (pieces.flatMap (· ++ [sep]) ++ rest) := by
      simp
    have ih' := ih fun q hq => hfree q (List.mem_cons_of_mem _ hq)
    rw [hsplit, fields, List.splitOn_append_cons_self_of_not_mem (hfree p List.mem_cons_self), List.cons_append, List.filter_cons,
      List.filter_cons, ← ih', fields]

/-- A cut list has the separators that were cut at, and those of the rest. -/
theorem Cut.count_eq {s rest : List α} {pieces : List (List α)} (h : Cut sep s pieces rest) :
    s.count sep = pieces.length + rest.count sep := by
  obtain ⟨rfl, hfree⟩ := h
  induction pieces with
  | nil => simp
  | cons p pieces ih =>
    have ih' := ih fun q hq => hfree q (List.mem_cons_of_mem _ hq)
    rw [List.count_append] at ih'
    rw [List.flatMap_cons, List.append_assoc, List.count_append, List.count_append, List.count_append, ih',
      List.count_eq_zero.2 (hfree p List.mem_cons_self), List.count_singleton_self, List.length_cons]
    omega

/-- Fields are not empty and have no separator. -/
theorem mem_fields (s : List α) : ∀ p ∈ fields sep s, p ≠ [] ∧ sep ∉ p := by
  induction s using separators_induction sep with
  | free s h =>
    intro p hp
    rw [fields_free h] at hp
    split at hp
    · cases hp
    · rw [List.mem_singleton.1 hp]
      exact ⟨‹_›, h⟩
  | step q s hq ih =>
    intro p hp
    rw [fields_append hq] at hp
    split at hp
    · exact ih p hp
    · rcases List.mem_cons.1 hp with rfl | hp
      · exact ⟨‹_›, hq⟩
      · exact ih p hp

theorem mem_of_mem_fields (s : List α) : ∀ p ∈ fields sep s, ∀ x ∈ p, x ∈ s := by
  induction s using separators_induction sep with
  | free s h =>
    intro p hp x hx
    rw [fields_free h] at hp
    split at hp
    · cases hp
    · rwa [List.mem_singleton.1 hp] at hx
  | step q s hq ih =>
    intro p hp x hx
    rw [fields_append hq] at hp
    have hrest : p ∈ fields sep s → x ∈ q ++ sep :: s := fun h =>
      List.mem_append_right _ (List.mem_cons_of_mem _ (ih p h x hx))
    split at hp
    · exact hrest hp
    · rcases List.mem_cons.1 hp with rfl | hp
      · exact List.mem_append_left _ hx
      · exact hrest hp

/-! ## Joined pieces -/

omit [DecidableEq α] in
/-- Nothing is added to the pieces but separators. -/
theorem Joined.mem {ps : List (List α)} {s : List α} (h : Joined sep ps s) {x : α} (hx : x ∈ s) :
    x = sep ∨ ∃ p ∈ ps, x ∈ p := by
  induction h with
  | nil => cases hx
  | single p => exact .inr ⟨p, List.mem_cons_self, hx⟩
  | @cons p n q ps s _ ih =>
    rcases List.mem_append.1 hx with hx | hx
    · rcases List.mem_append.1 hx with hx | hx
      · exact .inr ⟨p, List.mem_cons_self, hx⟩
      · exact .inl (List.eq_of_mem_replicate hx)
    · rcases ih hx with he | ⟨r, hr, hx⟩
      · exact .inl he
      · exact .inr ⟨r, List.mem_cons_of_mem _ hr, hx⟩

omit [DecidableEq α] in
theorem Spaced.mem {ps : List (List α)} {s : List α} (h : Spaced sep ps s) {x : α} (hx : x ∈ s) :
    x = sep ∨ ∃ p ∈ ps, x ∈ p := by
  obtain ⟨a, b, t, ht, rfl⟩ := h
  rcases List.mem_append.1 hx with hx | hx
  · rcases List.mem_append.1 hx with hx | hx
    · exact .inl (List.eq_of_mem_replicate hx)
    · exact ht.mem hx
  · exact .inl (List.eq_of_mem_replicate hx)

theorem fields_replicate (n : Nat) (s : List α) : fields sep (List.replicate n sep ++ s) = fields sep s := by
  induction n with
  | zero => rfl
  | succ n ih =>
    rw [List.replicate_succ, List.cons_append, ← List.nil_append (sep :: _), fields_append List.not_mem_nil, if_pos rfl, ih]

theorem fields_replicate_right {p : List α} (hp : p ≠ [] ∧ sep ∉ p) (n : Nat) :
    fields sep (p ++ List.replicate n sep) = [p] := by
  cases n with
  | zero => rw [List.replicate_zero, List.append_nil, fields_free hp.2, if_neg hp.1]
  | succ n =>
    have hnone : fields sep (List.replicate n sep) = [] := by
      rw [← List.append_nil (List.replicate n sep), fields_replicate]
      rfl
    rw [List.replicate_succ, fields_append hp.2, if_neg hp.1, hnone]

/-- Joined pieces are the fields, with whatever many separators after them. -/
theorem fields_joined {ps : List (List α)} {s : List α} (h : Joined sep ps s) (hps : ∀ p ∈ ps, p ≠ [] ∧ sep ∉ p)
    (n : Nat) : fields sep (s ++ List.replicate n sep) = ps := by
  induction h with
  | nil =>
    rw [List.nil_append, ← List.append_nil (List.replicate n sep), fields_replicate]
    rfl
  | single p => exact fields_replicate_right (hps p List.mem_cons_self) n
  | @cons p m q ps s _ ih =>
    obtain ⟨hne, hfree⟩ := hps p List.mem_cons_self
    have hshape : p ++ List.replicate (m + 1) sep ++ s ++ List.replicate n sep =
        p ++ sep :: (List.replicate m sep ++ (s ++ List.replicate n sep)) := by
      simp [List.replicate_succ]
    rw [hshape, fields_append hfree, if_neg hne, fields_replicate, ih fun q hq => hps q (List.mem_cons_of_mem _ hq)]

theorem fields_spaced {ps : List (List α)} {s : List α} (h : Spaced sep ps s) (hps : ∀ p ∈ ps, p ≠ [] ∧ sep ∉ p) :
    fields sep s = ps := by
  obtain ⟨a, b, t, ht, rfl⟩ := h
  rw [List.append_assoc, fields_replicate, fields_joined ht hps]

/-! ## Runs -/

/-- The elements of a run. -/
def slice (s : List α) (r : Nat × Nat) : List α := (s.drop r.1).take (r.2 - r.1)

omit [DecidableEq α] in
theorem isRun_free {s : List α} (h : sep ∉ s) (r : Nat × Nat) : IsRun sep s r ↔ s ≠ [] ∧ r = (0, s.length) := by
  have hget : ∀ i, s[i]? ≠ some sep := fun i hi => h (List.mem_of_getElem? hi)
  constructor
  · rintro ⟨hlt, hle, -, hleft, hright⟩
    have h1 : r.1 = 0 := hleft.resolve_right (hget _)
    have h2 : r.2 = s.length := hright.resolve_right (hget _)
    refine ⟨?_, Prod.ext h1 h2⟩
    rintro rfl
    rw [List.length_nil] at h2
    omega
  · rintro ⟨hne, rfl⟩
    exact ⟨List.length_pos_iff.2 hne, Nat.le_refl _, fun i _ _ => hget i, .inl rfl, .inl rfl⟩

section
variable {p : List α} (h : sep ∉ p) (s : List α)
include h

omit [DecidableEq α] in
theorem getElem?_before {i : Nat} (hi : i < p.length) : (p ++ sep :: s)[i]? ≠ some sep := by
  intro he
  rw [List.getElem?_append_left hi] at he
  exact h (List.mem_of_getElem? he)

omit [DecidableEq α] in
/-- A run that ends before the separator is all that is before it. -/
theorem isRun_before {i j : Nat} (hj : j ≤ p.length) :
    IsRun sep (p ++ sep :: s) (i, j) ↔ p ≠ [] ∧ (i, j) = (0, p.length) := by
  constructor
  · rintro ⟨hlt, -, -, hleft, hright⟩
    dsimp only at hlt hleft hright
    have hi : i = 0 := hleft.resolve_right (getElem?_before h s (by omega))
    have hjp : j = p.length := by
      rcases hright with he | he
      · rw [List.length_append, List.length_cons] at he
        omega
      · by_contra hne
        exact getElem?_before h s (by omega) he
    refine ⟨?_, by rw [hi, hjp]⟩
    rintro rfl
    rw [List.length_nil] at hjp
    omega
  · rintro ⟨hne, he⟩
    cases he
    have hlength : p.length ≤ (p ++ sep :: s).length := by simp
    exact ⟨List.length_pos_iff.2 hne, hlength, fun i _ hi => getElem?_before h s hi, .inl rfl, .inr (by simp)⟩

end

omit [DecidableEq α] in
theorem getElem?_behind (p : List α) (s : List α) (i : Nat) : (p ++ sep :: s)[i + (p.length + 1)]? = s[i]? := by
  rw [List.getElem?_append_right (by omega), show i + (p.length + 1) - p.length = i + 1 by omega, List.getElem?_cons_succ]

omit [DecidableEq α] in
/-- A run behind the separator is a run of what is there. -/
theorem isRun_behind (p : List α) (s : List α) (r : Nat × Nat) :
    IsRun sep (p ++ sep :: s) (r.1 + (p.length + 1), r.2 + (p.length + 1)) ↔ IsRun sep s r := by
  have hlength : (p ++ sep :: s).length = s.length + (p.length + 1) := by simp; omega
  have hfree : (∀ k, r.1 + (p.length + 1) ≤ k → k < r.2 + (p.length + 1) → (p ++ sep :: s)[k]? ≠ some sep) ↔
      ∀ k, r.1 ≤ k → k < r.2 → s[k]? ≠ some sep := by
    constructor
    · intro hf k hk1 hk2
      rw [← getElem?_behind p s k]
      exact hf _ (Nat.add_le_add_right hk1 _) (Nat.add_lt_add_right hk2 _)
    · intro hf k hk1 hk2
      obtain ⟨k, rfl⟩ := Nat.exists_eq_add_of_le' (show p.length + 1 ≤ k by omega)
      rw [getElem?_behind]
      exact hf k (by omega) (by omega)
  -- the separator itself is the left end of a run at the beginning
  have hleft : (r.1 + (p.length + 1) = 0 ∨ (p ++ sep :: s)[r.1 + (p.length + 1) - 1]? = some sep) ↔
      (r.1 = 0 ∨ s[r.1 - 1]? = some sep) := by
    by_cases h0 : r.1 = 0
    · simp [h0]
    · rw [show r.1 + (p.length + 1) - 1 = r.1 - 1 + (p.length + 1) by omega, getElem?_behind]
      simp [h0]
  have hright : (r.2 + (p.length + 1) = (p ++ sep :: s).length ∨ (p ++ sep :: s)[r.2 + (p.length + 1)]? = some sep) ↔
      (r.2 = s.length ∨ s[r.2]? = some sep) := by
    rw [getElem?_behind, hlength, Nat.add_right_cancel_iff]
  constructor
  · rintro ⟨hlt, hle, h1, h2, h3⟩
    exact ⟨Nat.lt_of_add_lt_add_right hlt, Nat.le_of_add_le_add_right (hlength ▸ hle), hfree.1 h1, hleft.1 h2, hright.1 h3⟩
  · rintro ⟨hlt, hle, h1, h2, h3⟩
    exact ⟨Nat.add_lt_add_right hlt _, hlength ▸ Nat.add_le_add_right hle _, hfree.2 h1, hleft.2 h2, hright.2 h3⟩

omit [DecidableEq α] in
/-- A run of a list with a separator in it is before the first one or behind it. -/
theorem isRun_append {p : List α} (h : sep ∉ p) (s : List α) (r : Nat × Nat) :
    IsRun sep (p ++ sep :: s) r ↔
      p ≠ [] ∧ r = (0, p.length) ∨ ∃ r', IsRun sep s r' ∧ r = (r'.1 + (p.length + 1), r'.2 + (p.length + 1)) := by
  obtain ⟨i, j⟩ := r
  constructor
  · intro hrun
    by_cases hj : j ≤ p.length
    · exact .inl ((isRun_before h s hj).1 hrun)
    · have hi : p.length + 1 ≤ i := by
        by_contra hlt
        exact hrun.free p.length (by dsimp only; omega) (by dsimp only; omega) (by simp)
      have hlt : i < j := hrun.lt
      obtain ⟨i, rfl⟩ := Nat.exists_eq_add_of_le' hi
      obtain ⟨j, rfl⟩ := Nat.exists_eq_add_of_le' (show p.length + 1 ≤ j by omega)
      exact .inr ⟨(i, j), (isRun_behind p s (i, j)).1 hrun, rfl⟩
  · rintro (⟨hne, he⟩ | ⟨r', hrun, he⟩)
    · obtain ⟨-, rfl⟩ := Prod.mk.inj he
      exact (isRun_before h s (Nat.le_refl _)).2 ⟨hne, he⟩
    · rw [he]
      exact (isRun_behind p s r').2 hrun

omit [DecidableEq α] in
theorem slice_behind (p : List α) (s : List α) (r : Nat × Nat) :
    slice (p ++ sep :: s) (r.1 + (p.length + 1), r.2 + (p.length + 1)) = slice s r := by
  have hdrop : (p ++ sep :: s).drop (p.length + 1) = s := by simp
  rw [slice, Nat.add_sub_add_right, Nat.add_comm r.1, ← List.drop_drop, hdrop]
  rfl

/-- The fields are the maximal runs without a separator, from left to right. -/
theorem fields_runs (s : List α) : ∃ runs : List (Nat × Nat), runs.Pairwise (fun a b => a.2 < b.1) ∧
    (∀ r, r ∈ runs ↔ IsRun sep s r) ∧ fields sep s = runs.map (slice s) := by
  induction s using separators_induction sep with
  | free s h =>
    refine ⟨if s = [] then [] else [(0, s.length)], ?_, fun r => ?_, ?_⟩
    · split <;> simp
    · rw [isRun_free h]
      by_cases hs : s = [] <;> simp [hs]
    · rw [fields_free h]
      by_cases hs : s = [] <;> simp [hs, slice]
  | step p s hp ih =>
    obtain ⟨runs, hsorted, hruns, hfields⟩ := ih
    let shift (r : Nat × Nat) : Nat × Nat := (r.1 + (p.length + 1), r.2 + (p.length + 1))
    refine ⟨(if p = [] then [] else [(0, p.length)]) ++ runs.map shift, ?_, fun r => ?_, ?_⟩
    · rw [List.pairwise_append]
      refine ⟨by split <;> simp, ?_, ?_⟩
      · rw [List.pairwise_map]
        exact hsorted.imp fun h => Nat.add_lt_add_right h _
      · intro a ha b hb
        obtain ⟨c, -, rfl⟩ := List.mem_map.1 hb
        split at ha
        · cases ha
        · rw [List.mem_singleton.1 ha]
          show p.length < c.1 + (p.length + 1)
          omega
    · rw [isRun_append hp, List.mem_append]
      refine or_congr ?_ ?_
      · by_cases hne : p = [] <;> simp [hne]
      · simp only [List.mem_map, hruns, shift, eq_comm]
    · have hmap : runs.map (slice (p ++ sep :: s) ∘ shift) = runs.map (slice s) :=
        List.map_congr_left fun r _ => slice_behind p s r
      rw [fields_append hp, hfields, List.map_append, List.map_map, hmap]
      by_cases hne : p = [] <;> simp [hne, slice]

end Splitting
