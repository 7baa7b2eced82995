import Mathlib
/-!
# A vector kept sorted

`std::upper_bound` as the binary search it is, over a vector that is sorted by
a key, and the vector that `insert` at that position builds up. Inserting
elements one by one this way is a stable sort (`sort_sorts`).
-/

namespace SortedVector

variable {α β : Type*} [LinearOrder β] (key : α → β)

/-- `std::upper_bound` of `v` among the `len` elements from `first` on. -/
def upperBound (v : α) (l : List α) (first len : Nat) : Nat :=
  if _h : len = 0 then first
  else
    match l[first + len / 2]? with
    | some middle =>
      if key v < key middle then upperBound v l first (len / 2)
      else upperBound v l (first + len / 2 + 1) (len - len / 2 - 1)
    | none => first
termination_by len
decreasing_by all_goals omega

/-- `l.insert(upper_bound(l.begin(), l.end(), v), v)`. -/
def insert (v : α) (l : List α) : List α :=
  l.take (upperBound key v l 0 l.length) ++ v :: l.drop (upperBound key v l 0 l.length)

def sort (l : List α) : List α := l.foldl (fun sorted v => insert key v sorted) []

def Sorted (l : List α) : Prop := l.Pairwise fun a b => key a ≤ key b

/-- `v` goes behind the first `first` elements and before those from `last` on. -/
structure Between (v : α) (l : List α) (first last : Nat) : Prop where
  before : ∀ x ∈ l.take first, key x ≤ key v
  behind : ∀ x ∈ l.drop last, key v < key x

variable {key} {v : α} {l : List α}

/-- The parts before and behind a position of a sorted vector. -/
theorem sorted_at {i : Nat} {m : α} (h : Sorted key l) (hi : l[i]? = some m) :
    (∀ x ∈ l.take i, key x ≤ key m) ∧ ∀ x ∈ l.drop (i + 1), key m ≤ key x := by
  obtain ⟨hlt, rfl⟩ := List.getElem?_eq_some_iff.1 hi
  have hsplit : l = l.take i ++ l[i] :: l.drop (i + 1) := by
    rw [← List.drop_eq_getElem_cons hlt, List.take_append_drop]
  have hpair : (l.take i ++ l[i] :: l.drop (i + 1)).Pairwise fun a b => key a ≤ key b := hsplit ▸ h
  obtain ⟨-, htail, hacross⟩ := List.pairwise_append.1 hpair
  exact ⟨fun x hx => hacross x hx _ List.mem_cons_self, (List.pairwise_cons.1 htail).1⟩

/-- The search keeps `v` between what it has left behind and what it has cut off. -/
theorem upperBound_between (hsorted : Sorted key l) (first len : Nat) (hlen : first + len ≤ l.length)
    (h : Between key v l first (first + len)) :
    Between key v l (upperBound key v l first len) (upperBound key v l first len) := by
  fun_induction upperBound key v l first len with
  | case1 => exact h
  | case2 first len hne m hm hlt ih =>
    refine ih (by omega) ⟨h.before, ?_⟩
    obtain ⟨hi, rfl⟩ := List.getElem?_eq_some_iff.1 hm
    rw [List.drop_eq_getElem_cons hi]
    refine List.forall_mem_cons.2 ⟨hlt, fun x hx => ?_⟩
    exact lt_of_lt_of_le hlt ((sorted_at hsorted hm).2 x hx)
  | case3 first len hne m hm hge ih =>
    refine ih (by omega) ⟨fun x hx => ?_, ?_⟩
    · rw [List.take_add_one, hm] at hx
      rcases List.mem_append.1 hx with hx | hx
      · exact ((sorted_at hsorted hm).1 x hx).trans (not_lt.1 hge)
      · rw [List.mem_singleton.1 hx]
        exact not_lt.1 hge
    · have hend : first + len / 2 + 1 + (len - len / 2 - 1) = first + len := by omega
      rw [hend]
      exact h.behind
  | case4 first len hne hm =>
    -- the middle lies inside the vector
    rw [List.getElem?_eq_none_iff] at hm
    omega

/-- An insertion puts the element behind those that are not greater and before those that are. -/
theorem insert_split (hsorted : Sorted key l) (v : α) : ∃ before behind, l = before ++ behind ∧
    insert key v l = before ++ v :: behind ∧ (∀ x ∈ before, key x ≤ key v) ∧ ∀ x ∈ behind, key v < key x := by
  have hall : Between key v l 0 (0 + l.length) := ⟨by simp, by simp⟩
  have hbetween := upperBound_between hsorted 0 l.length (by omega) hall
  exact ⟨_, _, (List.take_append_drop _ l).symm, rfl, hbetween.before, hbetween.behind⟩

theorem sorted_insert (hsorted : Sorted key l) (v : α) : Sorted key (insert key v l) := by
  obtain ⟨before, behind, rfl, hinsert, hbefore, hbehind⟩ := insert_split hsorted v
  obtain ⟨hb, ha, hacross⟩ := List.pairwise_append.1 hsorted
  rw [hinsert]
  refine List.pairwise_append.2 ⟨hb, List.pairwise_cons.2 ⟨fun x hx => (hbehind x hx).le, ha⟩, fun x hx y hy => ?_⟩
  rcases List.mem_cons.1 hy with rfl | hy
  · exact hbefore x hx
  · exact hacross x hx y hy

theorem insert_perm (hsorted : Sorted key l) (v : α) : (insert key v l).Perm (l ++ [v]) := by
  obtain ⟨before, behind, rfl, hinsert, -, -⟩ := insert_split hsorted v
  rw [hinsert, List.append_assoc]
  exact (List.perm_append_singleton v behind).symm.append_left before

/-- Among the elements of one key the new one comes last. -/
theorem insert_stable (hsorted : Sorted key l) (v : α) (k : β) :
    (insert key v l).filter (key · = k) = (l ++ [v]).filter (key · = k) := by
  obtain ⟨before, behind, rfl, hinsert, -, hbehind⟩ := insert_split hsorted v
  rw [hinsert, List.append_assoc, List.filter_append, List.filter_append before]
  by_cases hk : key v = k
  · have hnone : behind.filter (key · = k) = [] := by
      refine List.filter_eq_nil_iff.2 fun x hx => ?_
      simpa [← hk] using (hbehind x hx).ne'
    rw [List.filter_cons_of_pos (by simpa using hk), List.filter_append, hnone]
    simp [hk]
  · rw [List.filter_cons_of_neg (by simpa using hk), List.filter_append]
    simp [hk]

/-- What holds of the vector while the elements are inserted. -/
structure Sorts (key : α → β) (s l : List α) : Prop where
  sorted : Sorted key s
  perm : s.Perm l
  stable : ∀ k, s.filter (key · = k) = l.filter (key · = k)

theorem Sorts.insert {s : List α} (h : Sorts key s l) (v : α) : Sorts key (insert key v s) (l ++ [v]) where
  sorted := sorted_insert h.sorted v
  perm := (insert_perm h.sorted v).trans (h.perm.append_right [v])
  stable k := by rw [insert_stable h.sorted, List.filter_append, h.stable, List.filter_append]

/-- Inserting the elements of a list one by one sorts it, stably. -/
theorem sort_sorts (l : List α) : Sorts key (sort key l) l := by
  induction l using List.reverseRecOn with
  | nil => exact ⟨List.Pairwise.nil, .refl _, fun _ => rfl⟩
  | append_singleton l v ih =>
    rw [sort, List.foldl_append]
    exact ih.insert v

end SortedVector
