import Mathlib
/-!
# Runs of a transition system

A system is a partial step function: `step s a` is the state after action `a`,
or `none` where `a` cannot happen. A run is the list of its actions, in the
order in which the scheduler lets them happen, so a theorem about every list is
a theorem about every interleaving. `Along` restricts a run by a condition on
each step it takes, `Always` is about the states it goes through.
-/

namespace Runs

variable {σ α : Type}

/-- The state after the actions, if they can all happen in this order. -/
def exec (step : σ → α → Option σ) : σ → List α → Option σ
  | s, [] => some s
  | s, a :: as => (step s a).bind fun s' => exec step s' as

/-- Every step of the run meets `ok` in the state it starts from. -/
def Along (step : σ → α → Option σ) (ok : σ → α → Prop) : σ → List α → Prop
  | _, [] => True
  | s, a :: as => ok s a ∧ match step s a with
    | some s' => Along step ok s' as
    | none => True

/-- `P` holds in every state of the run. -/
def Always (step : σ → α → Option σ) (P : σ → Prop) : σ → List α → Prop
  | s, [] => P s
  | s, a :: as => P s ∧ match step s a with
    | some s' => Always step P s' as
    | none => True

instance decidableAlong (step : σ → α → Option σ) (ok : σ → α → Prop) [∀ s a, Decidable (ok s a)] :
    ∀ (s : σ) (as : List α), Decidable (Along step ok s as)
  | _, [] => isTrue trivial
  | s, a :: as =>
    haveI : ∀ s' : σ, Decidable (Along step ok s' as) := fun s' => decidableAlong step ok s' as
    match h : step s a with
    | some s' => decidable_of_iff (ok s a ∧ Along step ok s' as) (by simp only [Along, h])
    | none => decidable_of_iff (ok s a) (by simp only [Along, h, and_true])

theorem exec_cons {step : σ → α → Option σ} {s t : σ} {a : α} {as : List α}
    (h : exec step s (a :: as) = some t) : ∃ s', step s a = some s' ∧ exec step s' as = some t :=
  Option.bind_eq_some_iff.1 h

theorem Along.mono {step : σ → α → Option σ} {ok ok' : σ → α → Prop} (h : ∀ s a, ok s a → ok' s a) (as : List α) :
    ∀ {s : σ}, Along step ok s as → Along step ok' s as := by
  induction as with
  | nil => intro s _; trivial
  | cons a as ih =>
    intro s hok
    refine ⟨h s a hok.1, ?_⟩
    have hrest := hok.2
    cases hstep : step s a with
    | none => trivial
    | some s' =>
      rw [hstep] at hrest
      exact ih hrest

theorem along_of_forall {step : σ → α → Option σ} {ok : σ → α → Prop} (h : ∀ s a, ok s a) (as : List α) :
    ∀ s : σ, Along step ok s as := by
  induction as with
  | nil => intro s; trivial
  | cons a as ih =>
    intro s
    refine ⟨h s a, ?_⟩
    cases step s a with
    | none => trivial
    | some s' => exact ih s'

theorem along_append {step : σ → α → Option σ} {ok : σ → α → Prop} (as bs : List α) :
    ∀ {s : σ}, Along step ok s (as ++ bs) ↔ Along step ok s as ∧ ∀ t, exec step s as = some t → Along step ok t bs := by
  induction as with
  | nil => intro s; simp [Along, exec]
  | cons a as ih =>
    intro s
    rw [List.cons_append, Along, Along, exec, and_assoc]
    cases step s a with
    | none => simp
    | some s' => simp [ih]

/-- An invariant that every step meeting `ok` keeps holds after every run of such steps. -/
theorem exec_inv {step : σ → α → Option σ} {ok : σ → α → Prop} {I : σ → Prop}
    (hs : ∀ s a s', I s → ok s a → step s a = some s' → I s') (as : List α) :
    ∀ {s t : σ}, I s → Along step ok s as → exec step s as = some t → I t := by
  induction as with
  | nil => intro s t hi _ h; cases h; exact hi
  | cons a as ih =>
    intro s t hi hok h
    obtain ⟨s', h1, h2⟩ := exec_cons h
    simp only [Along, h1] at hok
    exact ih (hs s a s' hi hok.1 h1) hok.2 h2

/-- An invariant that every step keeps. -/
theorem exec_of_step {step : σ → α → Option σ} {I : σ → Prop} (hs : ∀ s a s', I s → step s a = some s' → I s')
    (as : List α) {s t : σ} (hi : I s) (h : exec step s as = some t) : I t := by
  have hany : Along step (fun _ _ => True) s as := along_of_forall (fun _ _ => trivial) as s
  exact exec_inv (fun s a s' hi _ => hs s a s' hi) as hi hany h

/-- If every step meeting `ok` can be taken and keeps an invariant, a run of such steps comes to its end. -/
theorem exec_total {step : σ → α → Option σ} {ok : σ → α → Prop} {I : σ → Prop}
    (hs : ∀ s a, I s → ok s a → ∃ s', step s a = some s' ∧ I s') (as : List α) :
    ∀ {s : σ}, I s → Along step ok s as → ∃ t, exec step s as = some t ∧ I t := by
  induction as with
  | nil => intro s hi _; exact ⟨s, rfl, hi⟩
  | cons a as ih =>
    intro s hi hok
    obtain ⟨s', hstep, hi'⟩ := hs s a hi hok.1
    simp only [Along, hstep] at hok
    obtain ⟨t, hexec, ht⟩ := ih hi' hok.2
    exact ⟨t, by rw [exec, hstep]; exact hexec, ht⟩

/-- If each step costs at most what it takes from a measure, up to what it may add, so does a run. -/
theorem exec_measure_le {step : σ → α → Option σ} {I : σ → Prop} {m : σ → Nat} {cost gain : α → Nat}
    (hs : ∀ s a s', I s → step s a = some s' → I s' ∧ cost a + m s' ≤ m s + gain a) (as : List α) :
    ∀ {s t : σ}, I s → exec step s as = some t → I t ∧ (as.map cost).sum + m t ≤ m s + (as.map gain).sum := by
  induction as with
  | nil => intro s t hi h; cases h; exact ⟨hi, by simp⟩
  | cons a as ih =>
    intro s t hi h
    obtain ⟨s', h1, h2⟩ := exec_cons h
    obtain ⟨hi', hlt⟩ := hs s a s' hi h1
    obtain ⟨ht, hle⟩ := ih hi' h2
    refine ⟨ht, ?_⟩
    rw [List.map_cons, List.sum_cons, List.map_cons, List.sum_cons]
    omega

/-- Where no step adds anything. -/
theorem exec_cost_le {step : σ → α → Option σ} {I : σ → Prop} {m : σ → Nat} {cost : α → Nat}
    (hs : ∀ s a s', I s → step s a = some s' → I s' ∧ cost a + m s' ≤ m s) (as : List α) {s t : σ} (hi : I s)
    (h : exec step s as = some t) : I t ∧ (as.map cost).sum + m t ≤ m s := by
  have hle := exec_measure_le (fun s a s' hi h => show I s' ∧ cost a + m s' ≤ m s + (fun _ => 0) a from hs s a s' hi h) as hi h
  simpa using hle

theorem Always.start {step : σ → α → Option σ} {P : σ → Prop} {s : σ} {as : List α} (h : Always step P s as) :
    P s := by
  cases as with
  | nil => exact h
  | cons a as => exact h.1

/-- And what follows from it holds in every state on the way. -/
theorem always_of_along {step : σ → α → Option σ} {ok : σ → α → Prop} {I P : σ → Prop}
    (hs : ∀ s a s', I s → ok s a → step s a = some s' → I s') (hp : ∀ s, I s → P s) (as : List α) :
    ∀ {s : σ}, I s → Along step ok s as → Always step P s as := by
  induction as with
  | nil => intro s hi _; exact hp s hi
  | cons a as ih =>
    intro s hi hok
    refine ⟨hp s hi, ?_⟩
    cases hstep : step s a with
    | none => trivial
    | some s' =>
      simp only [Along, hstep] at hok
      exact ih (hs s a s' hi hok.1 hstep) hok.2

theorem always_of_step {step : σ → α → Option σ} {I P : σ → Prop} (hs : ∀ s a s', I s → step s a = some s' → I s')
    (hp : ∀ s, I s → P s) (as : List α) {s : σ} (hi : I s) : Always step P s as := by
  have hany : Along step (fun _ _ => True) s as := along_of_forall (fun _ _ => trivial) as s
  exact always_of_along (fun s a s' hi _ h => hs s a s' hi h) hp as hi hany

/-- If, as long as `P` holds, exactly the steps that meet `ok` keep it, then `P`
holds throughout exactly the runs of such steps. -/
theorem always_iff_along {step : σ → α → Option σ} {ok : σ → α → Prop} {I P : σ → Prop}
    (hi : ∀ s a s', I s → step s a = some s' → I s')
    (hp : ∀ s a s', I s → P s → step s a = some s' → (P s' ↔ ok s a))
    (hn : ∀ s a, I s → step s a = none → ok s a) (as : List α) :
    ∀ {s : σ}, I s → P s → (Always step P s as ↔ Along step ok s as) := by
  induction as with
  | nil => intro s _ h; simpa [Always, Along] using h
  | cons a as ih =>
    intro s hs h
    simp only [Always, Along]
    cases hstep : step s a with
    | none => simp [h, hn s a hs hstep]
    | some s' =>
      have hs' := hi s a s' hs hstep
      have hiff := hp s a s' hs h hstep
      constructor
      · rintro ⟨-, hal⟩
        have h' := hal.start
        exact ⟨hiff.1 h', (ih hs' h').1 hal⟩
      · rintro ⟨hok, hal⟩
        have h' := hiff.2 hok
        exact ⟨h, (ih hs' h').2 hal⟩

end Runs
