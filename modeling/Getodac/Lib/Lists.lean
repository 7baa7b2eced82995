import Mathlib
/-!
# Lists with keys

Association lists as `lookup` sees them, lists whose elements have distinct keys, and
what joins the texts of a list.
-/

namespace Lists

variable {α β κ : Type}

section Lookup

variable [BEq κ] [LawfulBEq κ]

theorem lookup_eq_some_iff {l : List (κ × β)} (h : (l.map (·.1)).Nodup) {k : κ} {b : β} :
    l.lookup k = some b ↔ (k, b) ∈ l := by
  induction l with
  | nil => simp
  | cons e l ih =>
    obtain ⟨k', b'⟩ := e
    obtain ⟨hk', hl⟩ := List.nodup_cons.1 h
    rw [List.lookup_cons, List.mem_cons, Prod.mk.injEq]
    by_cases hk : k = k'
    · have hnot : (k, b) ∉ l := fun hm => hk' (List.mem_map.2 ⟨_, hm, hk⟩)
      rw [hk, beq_self_eq_true]
      simp [← hk, hnot, eq_comm]
    · rw [beq_eq_false_iff_ne.2 hk]
      simp [hk, ih hl]

/-- The value of one key is replaced where it stands. -/
theorem lookup_replace [DecidableEq κ] (l : List (κ × β)) (key : κ) (value : β) (k : κ) :
    (l.map fun e => if e.1 = key then (key, value) else e).lookup k =
      (l.lookup k).map fun old => if k = key then value else old := by
  induction l with
  | nil => rfl
  | cons e l ih =>
    obtain ⟨k', b⟩ := e
    have hkey : (if k' = key then (key, value) else (k', b)).1 = k' := by
      split
      · exact Eq.symm ‹_›
      · rfl
    rw [List.map_cons, List.lookup_cons, List.lookup_cons, hkey, ih]
    by_cases hk : k = k'
    · rw [hk, beq_self_eq_true]
      by_cases hkey : k' = key <;> simp [hkey]
    · rw [beq_eq_false_iff_ne.2 hk]

theorem lookup_concat [DecidableEq κ] (l : List (κ × β)) (key : κ) (value : β) (k : κ) :
    (l ++ [(key, value)]).lookup k = (l.lookup k).or (if k = key then some value else none) := by
  rw [List.lookup_append]
  by_cases hk : k = key
  · simp [hk]
  · simp [List.lookup_cons, beq_eq_false_iff_ne.2 hk, hk]

theorem lookup_reverse_eq_none {l : List (κ × β)} {k : κ} : l.reverse.lookup k = none ↔ k ∉ l.map (·.1) := by
  rw [List.lookup_eq_none_iff]
  simp only [List.mem_reverse, bne_iff_ne, List.mem_map, not_exists, not_and]
  exact forall₂_congr fun _ _ => ne_comm

end Lookup

section Distinct

variable [DecidableEq β] (f : α → β) {l : List α}

/-- In a list without repetitions an element is erased as all that are equal to it. -/
theorem eraseP_eq_filter (h : (l.map f).Nodup) (b : β) : l.eraseP (f · = b) = l.filter (f · ≠ b) := by
  induction l with
  | nil => rfl
  | cons x l ih =>
    obtain ⟨hx, hl⟩ := List.nodup_cons.1 h
    by_cases hb : f x = b
    · have hall : l.filter (f · ≠ b) = l := by
        refine List.filter_eq_self.2 fun y hy => decide_eq_true fun hyb => hx ?_
        exact List.mem_map.2 ⟨y, hy, hyb.trans hb.symm⟩
      rw [List.eraseP_cons_of_pos (by simpa using hb), List.filter_cons_of_neg (by simpa using hb), hall]
    · rw [List.eraseP_cons_of_neg (by simpa using hb), List.filter_cons_of_pos (by simpa using hb), ih hl]

theorem find_of_nodup (h : (l.map f).Nodup) {x : α} (hx : x ∈ l) : l.find? (f · = f x) = some x := by
  have hsome : (l.find? (f · = f x)).isSome = true := List.find?_isSome.2 ⟨x, hx, by simp⟩
  obtain ⟨y, hy⟩ := Option.isSome_iff_exists.1 hsome
  have hf : f y = f x := by simpa using List.find?_some hy
  rw [hy, List.inj_on_of_nodup_map h (List.mem_of_find?_eq_some hy) hx hf]

/-- The rest of the list from an element on. -/
theorem dropWhile_of_nodup {l₁ l₂ : List α} {x : α} (h : ((l₁ ++ x :: l₂).map f).Nodup) :
    (l₁ ++ x :: l₂).dropWhile (f · ≠ f x) = x :: l₂ := by
  rw [List.map_append, List.map_cons, List.nodup_middle, List.nodup_cons] at h
  have hbefore : ∀ y ∈ l₁, decide (f y ≠ f x) = true := by
    intro y hy
    refine decide_eq_true fun he => h.1 ?_
    rw [← he]
    exact List.mem_append_left _ (List.mem_map_of_mem hy)
  rw [List.dropWhile_append_of_pos hbefore, List.dropWhile_cons_of_neg (by simp)]

end Distinct

theorem nodup_eraseDups [BEq α] [LawfulBEq α] (l : List α) : l.eraseDups.Nodup := by
  induction h : l.length using Nat.strong_induction_on generalizing l with
  | _ n ih =>
    cases l with
    | nil => simp
    | cons a l =>
      rw [List.eraseDups_cons, List.nodup_cons]
      refine ⟨by simp [List.mem_eraseDups], ih _ ?_ _ rfl⟩
      rw [← h]
      exact Nat.lt_succ_of_le (List.length_filter_le _ _)

theorem intercalate_concat (sep x : List α) :
    ∀ xs : List (List α), sep.intercalate (xs ++ [x]) = if xs = [] then x else sep.intercalate xs ++ (sep ++ x)
  | [] => by simp [List.intercalate]
  | [y] => by simp [List.intercalate]
  | y :: z :: xs => by
    have ih := intercalate_concat sep x (z :: xs)
    rw [if_neg (List.cons_ne_nil _ _), List.cons_append] at ih
    rw [if_neg (List.cons_ne_nil _ _), List.cons_append, List.cons_append, List.intercalate_cons_cons,
      List.intercalate_cons_cons, ih, List.append_assoc _ (sep.intercalate _)]

theorem intercalate_eq_nil (sep : List α) {xs : List (List α)} (h : ∀ x ∈ xs, x ≠ []) :
    sep.intercalate xs = [] ↔ xs = [] := by
  match xs with
  | [] => simp [List.intercalate]
  | [y] => simpa [List.intercalate] using h y List.mem_cons_self
  | y :: z :: xs =>
    have hy := h y List.mem_cons_self
    simp [List.intercalate_cons_cons, hy]

theorem prefix_append_iff {α : Type*} {p a b : List α} : p <+: a ++ b ↔ p <+: a ∨ ∃ c, p = a ++ c ∧ c <+: b := by
  constructor
  · intro h
    rcases List.prefix_or_prefix_of_prefix h (List.prefix_append a b) with hp | ⟨c, rfl⟩
    · exact .inl hp
    · exact .inr ⟨c, rfl, (List.prefix_append_right_inj a).1 h⟩
  · rintro (h | ⟨c, rfl, h⟩)
    · exact h.trans (List.prefix_append a b)
    · exact (List.prefix_append_right_inj a).2 h

end Lists
