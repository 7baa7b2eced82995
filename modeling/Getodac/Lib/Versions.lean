import Mathlib
/-!
# Stores with a past

A store that changes one key at a time and stamps every value with the time at which
it was put there. All its past states are kept, so that one can say when a value was
the current one. `Steady.stamp_le`: the stamps of a key only grow, and two values with
the same stamp are one.
-/

namespace Versions

structure Stamped (α : Type) where
  time : Nat
  value : α

structure Store (K α : Type) where
  clock : Nat := 0
  /-- What was there at a time. -/
  past : Nat → K → Option (Stamped α) := fun _ _ => none

namespace Store

variable {K α : Type}

def current (s : Store K α) (k : K) : Option (Stamped α) := s.past s.clock k

/-- Every value was put there at its stamp and has been there ever since. -/
def Steady (s : Store K α) : Prop :=
  ∀ c ≤ s.clock, ∀ k e, s.past c k = some e → e.time ≤ c ∧ ∀ c', e.time ≤ c' → c' ≤ c → s.past c' k = some e

theorem steady_init : ({} : Store K α).Steady := fun _ _ _ _ h => nomatch h

variable {s : Store K α} {k : K} {c c' : Nat} {e e' : Stamped α}

theorem Steady.stamp_le (h : s.Steady) (hcc : c ≤ c') (hc' : c' ≤ s.clock) (he : s.past c k = some e)
    (he' : s.past c' k = some e') : e.time ≤ e'.time := by
  obtain ⟨hle, -⟩ := h c (hcc.trans hc') k e he
  obtain ⟨-, hsince⟩ := h c' hc' k e' he'
  rcases Nat.le_total e'.time c with hbefore | hafter
  · have heq := hsince c hbefore hcc
    rw [he] at heq
    cases heq
    exact Nat.le_refl _
  · exact hle.trans hafter

theorem Steady.eq_of_stamp (h : s.Steady) (hc : c ≤ s.clock) (hc' : c' ≤ s.clock) (he : s.past c k = some e)
    (he' : s.past c' k = some e') (heq : e.time = e'.time) : e = e' := by
  obtain ⟨hle, hsince⟩ := h c hc k e he
  obtain ⟨hle', hsince'⟩ := h c' hc' k e' he'
  have hthen := hsince e.time (Nat.le_refl _) hle
  have hthen' := hsince' e.time (Nat.le_of_eq heq.symm) (heq.trans_le hle')
  rw [hthen] at hthen'
  cases hthen'
  rfl

variable [DecidableEq K]

/-- A value is put under a key, or taken away. -/
def change (s : Store K α) (k : K) (v : Option α) : Store K α where
  clock := s.clock + 1
  past := Function.update s.past (s.clock + 1) (Function.update (s.past s.clock) k (v.map (⟨s.clock + 1, ·⟩)))

theorem change_past (s : Store K α) (k : K) (v : Option α) (hc : c ≤ s.clock) : (s.change k v).past c = s.past c :=
  Function.update_of_ne (by omega) _ _

theorem change_current (s : Store K α) (k : K) (v : Option α) :
    (s.change k v).past (s.clock + 1) = Function.update (s.past s.clock) k (v.map (⟨s.clock + 1, ·⟩)) :=
  Function.update_self _ _ _

theorem Steady.change (h : s.Steady) (k : K) (v : Option α) : (s.change k v).Steady := by
  intro c hc k' e he
  rcases Nat.lt_or_eq_of_le hc with hlt | rfl
  · have hc : c ≤ s.clock := Nat.le_of_lt_succ hlt
    rw [s.change_past k v hc] at he
    obtain ⟨hle, hsince⟩ := h c hc k' e he
    refine ⟨hle, fun c' h1 h2 => ?_⟩
    rw [s.change_past k v (h2.trans hc)]
    exact hsince c' h1 h2
  · have hnow : (s.change k v).clock = s.clock + 1 := rfl
    rw [hnow, s.change_current k v] at he
    by_cases hk : k' = k
    · subst hk
      rw [Function.update_self] at he
      obtain ⟨x, -, rfl⟩ := Option.map_eq_some_iff.1 he
      refine ⟨Nat.le_refl _, fun c' h1 h2 => ?_⟩
      obtain rfl : c' = s.clock + 1 := Nat.le_antisymm h2 h1
      rw [s.change_current k' v, Function.update_self, he]
    · -- the other keys are as they were
      rw [Function.update_of_ne hk] at he
      obtain ⟨hle, hsince⟩ := h s.clock (Nat.le_refl _) k' e he
      refine ⟨hle.trans (Nat.le_succ _), fun c' h1 h2 => ?_⟩
      rcases Nat.lt_or_eq_of_le h2 with hlt | rfl
      · rw [s.change_past k v (Nat.le_of_lt_succ hlt)]
        exact hsince c' h1 (Nat.le_of_lt_succ hlt)
      · rw [hnow, s.change_current k v, Function.update_of_ne hk]
        exact he

end Store

end Versions
