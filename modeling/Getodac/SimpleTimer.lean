import Getodac.Lib.Runs
/-!
# `Dracon::SimpleTimer`

A thread that calls its callback each time `wait_for` ends without `m_quit`. The
destructor stores `m_quit` and notifies, and takes no lock for it, so the thread may
miss the notification: it has found `m_quit` false and is not yet blocked. But it waits
for no longer than the timeout. `timer_stops` says how the thread ends; `timer_paces`
is about the calls.

Only the thread takes `m_lock`, so it never waits for it.
-/

namespace Getodac.SimpleTimer

/-- Where the thread is. -/
inductive Pc where
  | starting
  /-- At `wait_for`. -/
  | entering
  /-- About to evaluate the predicate. -/
  | testing (deadline : Nat)
  /-- It was false; about to block. -/
  | waiting (deadline : Nat)
  | blocked (deadline : Nat)
  | woken (deadline : Nat)
  /-- The deadline is over; about to evaluate the predicate once more. -/
  | expired
  /-- `wait_for` has returned `false`. -/
  | due
  | calling
  /-- The callback has returned. -/
  | called
  | done
deriving DecidableEq, Repr

/-- Where the destructor is. -/
inductive Destructor where
  | idle
  | stored
  | notified
  | joined
deriving DecidableEq, Repr

structure State where
  /-- The steady clock, since the timer was made. -/
  now : Nat := 0
  quit : Bool := false
  pc : Pc := .starting
  destructor : Destructor := .idle
  -- history: when the callback was called, the last call first, and when the destructor stored `m_quit`
  calls : List Nat := []
  storedAt : Nat := 0
deriving DecidableEq, Repr

inductive Action where
  | tick
  /-- The next step of the thread. -/
  | thread
  /-- `m_waitCondition` wakes it without a notification. -/
  | wake
  -- the destructor
  | storeQuit
  | notifyOne
  | join
deriving DecidableEq, Repr

variable (timeout : Nat) (singleShot : Bool)

def threadStep (s : State) : Option State :=
  match s.pc with
  | .starting => some { s with pc := .entering }
  | .entering => some { s with pc := .testing (s.now + timeout) }
  | .testing deadline => some { s with pc := if s.quit then .done else .waiting deadline }
  | .waiting deadline => some { s with pc := .blocked deadline }
  | .blocked deadline => if deadline ≤ s.now then some { s with pc := .expired } else none
  | .woken deadline => some { s with pc := if deadline ≤ s.now then .expired else .testing deadline }
  | .expired => some { s with pc := if s.quit then .done else .due }
  | .due => some { s with pc := .calling, calls := s.now :: s.calls }
  | .calling => some { s with pc := .called }
  | .called => some { s with pc := .entering, quit := s.quit || singleShot }
  | .done => none

/-- A notification, or none. -/
def wakeup (s : State) : State :=
  match s.pc with
  | .blocked deadline => { s with pc := .woken deadline }
  | _ => s

def step (s : State) : Action → Option State
  | .tick => some { s with now := s.now + 1 }
  | .thread => threadStep timeout singleShot s
  | .wake => some (wakeup s)
  | .storeQuit =>
    if s.destructor = .idle then some { s with quit := true, destructor := .stored, storedAt := s.now } else none
  | .notifyOne => if s.destructor = .stored then some { wakeup s with destructor := .notified } else none
  | .join => if s.destructor = .notified ∧ s.pc = .done then some { s with destructor := .joined } else none

variable {timeout singleShot} {s s' : State}

@[simp] theorem wakeup_calls (s : State) : (wakeup s).calls = s.calls := by
  unfold wakeup
  split <;> rfl

@[simp] theorem wakeup_now (s : State) : (wakeup s).now = s.now := by
  unfold wakeup
  split <;> rfl

@[simp] theorem wakeup_quit (s : State) : (wakeup s).quit = s.quit := by
  unfold wakeup
  split <;> rfl

@[simp] theorem wakeup_destructor (s : State) : (wakeup s).destructor = s.destructor := by
  unfold wakeup
  split <;> rfl

@[simp] theorem wakeup_storedAt (s : State) : (wakeup s).storedAt = s.storedAt := by
  unfold wakeup
  split <;> rfl

/-- A notification only matters to a thread that is blocked. -/
theorem wakeup_pc (s : State) :
    (∃ deadline, s.pc = .blocked deadline ∧ (wakeup s).pc = .woken deadline) ∨ (wakeup s).pc = s.pc := by
  unfold wakeup
  split
  · rename_i deadline hpc
    exact .inl ⟨deadline, hpc, rfl⟩
  · exact .inr rfl

/-! ## The calls -/

/-- When the callback is called next, at the earliest. -/
def Pc.next (timeout now : Nat) : Pc → Nat
  | .testing deadline | .waiting deadline | .blocked deadline | .woken deadline => deadline
  | .expired | .due => now
  | .starting | .entering | .calling | .called | .done => now + timeout

/-- How many calls are left, if there is no new round. -/
def Pc.left (quit : Bool) : Pc → Nat
  | .due => 1
  | .calling | .called | .done => 0
  | .starting | .entering | .testing _ | .waiting _ | .blocked _ | .woken _ | .expired => if quit then 0 else 1

theorem wakeup_next (s : State) (now : Nat) : (wakeup s).pc.next timeout now = s.pc.next timeout now := by
  rcases wakeup_pc s with ⟨deadline, hpc, hw⟩ | hw
  · rw [hpc, hw]
    rfl
  · rw [hw]

theorem wakeup_left (s : State) (quit : Bool) : (wakeup s).pc.left quit = s.pc.left quit := by
  rcases wakeup_pc s with ⟨deadline, hpc, hw⟩ | hw
  · rw [hpc, hw]
    rfl
  · rw [hw]

/-- The calls, and the start of the timer, are a timeout apart, and so is the next one. -/
structure Paced (timeout : Nat) (s : State) : Prop where
  apart : (s.calls ++ [0]).Pairwise fun later earlier => earlier + timeout ≤ later
  past : ∀ call ∈ s.calls ++ [0], call ≤ s.now
  next : s.pc ≠ .done → ∀ call ∈ s.calls ++ [0], call + timeout ≤ s.pc.next timeout s.now

/-- A step without a call. -/
theorem Paced.quiet (h : Paced timeout s) (hc : s'.calls = s.calls) (hnow : s.now ≤ s'.now)
    (hnext : s'.pc ≠ .done → s.pc ≠ .done ∧ s.pc.next timeout s.now ≤ s'.pc.next timeout s'.now) : Paced timeout s' := by
  refine ⟨hc ▸ h.apart, fun call hm => ?_, fun hpc call hm => ?_⟩
  · rw [hc] at hm
    exact (h.past call hm).trans hnow
  · rw [hc] at hm
    obtain ⟨hpc', hle⟩ := hnext hpc
    exact (h.next hpc' call hm).trans hle

theorem threadStep_paced (h : Paced timeout s) (hs : threadStep timeout singleShot s = some s') : Paced timeout s' := by
  unfold threadStep at hs
  split at hs
  case h_1 hpc | h_2 hpc | h_4 hpc | h_9 hpc | h_10 hpc =>
    cases hs
    exact h.quiet rfl (Nat.le_refl _) fun _ => ⟨by simp [hpc], by simp [hpc, Pc.next]⟩
  case h_3 deadline hpc =>
    cases hs
    refine h.quiet rfl (Nat.le_refl _) fun hne => ⟨by simp [hpc], ?_⟩
    dsimp only at hne ⊢
    split at hne
    · exact absurd rfl hne
    · rw [if_neg ‹_›, hpc]
      exact Nat.le_refl _
  case h_5 deadline hpc =>
    split at hs
    · rename_i hle
      cases hs
      refine h.quiet rfl (Nat.le_refl _) fun _ => ⟨by simp [hpc], ?_⟩
      rw [hpc]
      exact hle
    · cases hs
  case h_6 deadline hpc =>
    cases hs
    refine h.quiet rfl (Nat.le_refl _) fun _ => ⟨by simp [hpc], ?_⟩
    rw [hpc]
    dsimp only
    split
    · assumption
    · exact Nat.le_refl _
  case h_7 hpc =>
    cases hs
    refine h.quiet rfl (Nat.le_refl _) fun hne => ⟨by simp [hpc], ?_⟩
    dsimp only at hne ⊢
    split at hne
    · exact absurd rfl hne
    · rw [if_neg ‹_›, hpc]
      exact Nat.le_refl _
  case h_8 hpc =>
    cases hs
    have hnext := h.next (by simp [hpc])
    rw [hpc] at hnext
    refine ⟨List.pairwise_cons.2 ⟨hnext, h.apart⟩, ?_, fun _ => ?_⟩
    · exact List.forall_mem_cons.2 ⟨Nat.le_refl _, h.past⟩
    · refine List.forall_mem_cons.2 ⟨Nat.le_refl _, fun call hm => ?_⟩
      exact Nat.add_le_add_right (h.past call hm) _
  case h_11 => cases hs

theorem step_paced (s : State) (a : Action) (s' : State) (h : Paced timeout s)
    (hs : step timeout singleShot s a = some s') : Paced timeout s' := by
  cases a with
  | tick =>
    cases hs
    refine h.quiet rfl (Nat.le_succ _) fun hne => ⟨hne, ?_⟩
    dsimp only
    cases s.pc <;> simp [Pc.next]
  | thread => exact threadStep_paced h hs
  | wake =>
    cases hs
    refine h.quiet (wakeup_calls s) (by simp) fun hne => ⟨fun hd => hne ?_, by simp [wakeup_next]⟩
    simp [wakeup, hd]
  | storeQuit =>
    simp only [step] at hs
    split at hs
    · cases hs
      exact ⟨h.apart, h.past, h.next⟩
    · cases hs
  | notifyOne =>
    simp only [step] at hs
    split at hs
    · cases hs
      refine h.quiet (wakeup_calls s) (by simp) fun hne => ⟨fun hd => hne ?_, by simp [wakeup_next]⟩
      simp [wakeup, hd]
    · cases hs
  | join =>
    simp only [step] at hs
    split at hs
    · cases hs
      exact ⟨h.apart, h.past, h.next⟩
    · cases hs

/-- `calls` with those that are left. -/
def State.budget (s : State) : Nat := s.calls.length + s.pc.left s.quit

/-- A round is the last one if `m_quit` is stored, or will be by the thread itself. -/
theorem step_budget (a : Action) (hlast : s.quit = true ∨ singleShot = true)
    (hs : step timeout singleShot s a = some s') : s'.budget ≤ s.budget := by
  unfold State.budget
  cases a with
  | tick => cases hs; exact Nat.le_refl _
  | thread =>
    simp only [step, threadStep] at hs
    split at hs
    case h_1 hpc | h_2 hpc | h_4 hpc | h_9 hpc => cases hs; simp [hpc, Pc.left]
    case h_3 hpc | h_7 hpc => cases hs; rw [hpc]; cases s.quit <;> simp [Pc.left]
    case h_5 hpc =>
      split at hs
      · cases hs; simp [hpc, Pc.left]
      · cases hs
    case h_6 hpc => cases hs; rw [hpc]; dsimp only; split <;> simp [Pc.left]
    case h_8 hpc => cases hs; simp [hpc, Pc.left]
    case h_10 hpc =>
      cases hs
      rcases hlast with hq | hq <;> simp [hpc, hq, Pc.left]
    case h_11 => cases hs
  | wake => cases hs; simp [wakeup_left]
  | storeQuit =>
    simp only [step] at hs
    split at hs
    · cases hs
      cases s.pc <;> simp [Pc.left]
    · cases hs
  | notifyOne =>
    simp only [step] at hs
    split at hs
    · cases hs; simp [wakeup_left]
    · cases hs
  | join =>
    simp only [step] at hs
    split at hs
    · cases hs; exact Nat.le_refl _
    · cases hs

/-- The destructor has returned only if the thread has. -/
def Joined (s : State) : Prop := s.destructor = .joined → s.pc = .done

theorem step_joined (s : State) (a : Action) (s' : State) (h : Joined s) (hs : step timeout singleShot s a = some s') :
    Joined s' := by
  intro hd
  cases a with
  | tick => cases hs; exact h hd
  | thread =>
    have hdone : s.destructor = .joined := by
      simp only [step, threadStep] at hs
      split at hs <;> first | (split at hs <;> cases hs <;> exact hd) | (cases hs; exact hd) | cases hs
    simp [step, threadStep, h hdone] at hs
  | wake =>
    cases hs
    rw [wakeup_destructor] at hd
    simp [wakeup, h hd]
  | storeQuit =>
    simp only [step] at hs
    split at hs
    · cases hs; cases hd
    · cases hs
  | notifyOne =>
    simp only [step] at hs
    split at hs
    · cases hs; cases hd
    · cases hs
  | join =>
    simp only [step] at hs
    split at hs
    · rename_i hj
      cases hs
      exact hj.2
    · cases hs

/-- The callback is called at most once in each interval of a timeout, at most once at all if the timer is a single shot
one, and not after the destructor has returned. -/
theorem timer_paces (as : List Action) : Runs.Always (step timeout singleShot)
    (fun s => (s.calls ++ [0]).Pairwise (fun later earlier => earlier + timeout ≤ later) ∧
      (singleShot = true → s.calls.length ≤ 1) ∧ (s.destructor = .joined → s.pc = .done)) {} as := by
  have hinit : Paced timeout {} ∧ (singleShot = true → ({} : State).budget ≤ 1) ∧ Joined {} :=
    ⟨⟨List.pairwise_singleton _ _, by simp, by simp [Pc.next]⟩, fun _ => by decide, fun h => nomatch h⟩
  refine Runs.always_of_step (I := fun s => Paced timeout s ∧ (singleShot = true → s.budget ≤ 1) ∧ Joined s) ?_ ?_ as
    hinit
  · rintro s a s' ⟨hp, hb, hj⟩ hs
    exact ⟨step_paced s a s' hp hs, fun hq => (step_budget a (.inr hq) hs).trans (hb hq), step_joined s a s' hj hs⟩
  · rintro s ⟨hp, hb, hj⟩
    exact ⟨hp.apart, fun hq => (Nat.le_add_right _ _).trans (hb hq), hj⟩

/-! ## The end -/

/-- How many steps the thread is from its end, if `m_quit` is stored. -/
def Pc.rank : Pc → Nat
  | .due => 5
  | .waiting _ | .calling => 4
  | .starting | .blocked _ | .called => 3
  | .entering | .woken _ => 2
  | .testing _ | .expired => 1
  | .done => 0

theorem rank_le (p : Pc) : p.rank ≤ 5 := by cases p <;> simp [Pc.rank]

/-- The thread goes to sleep with a deadline at most a timeout ahead, and not at all once `m_quit` is stored. -/
structure Stopping (timeout : Nat) (s : State) : Prop where
  ahead : ∀ deadline, s.pc = .testing deadline ∨ s.pc = .waiting deadline ∨ s.pc = .blocked deadline ∨
    s.pc = .woken deadline → deadline ≤ s.now + timeout
  quit : s.destructor ≠ .idle → s.quit = true
  sleeps : s.destructor ≠ .idle → ∀ deadline, s.pc = .waiting deadline ∨ s.pc = .blocked deadline →
    deadline ≤ s.storedAt + timeout

theorem stopping_init : Stopping timeout {} :=
  ⟨by simp, fun h => absurd rfl h, fun h => absurd rfl h⟩

theorem threadStep_stopping (h : Stopping timeout s) (hs : threadStep timeout singleShot s = some s') :
    Stopping timeout s' := by
  unfold threadStep at hs
  split at hs
  case h_1 hpc | h_8 hpc | h_9 hpc => cases hs; exact ⟨by simp, h.quit, by simp⟩
  case h_2 hpc => cases hs; exact ⟨by simp, h.quit, by simp⟩
  case h_3 deadline hpc =>
    cases hs
    refine ⟨fun d hd => ?_, h.quit, fun hne d hd => ?_⟩
    · dsimp only at hd
      split at hd
      · simp at hd
      · exact h.ahead d (.inl (by simp at hd; rw [hpc, hd]))
    · have hq := h.quit hne
      simp [hq] at hd
  case h_4 deadline hpc =>
    cases hs
    refine ⟨fun d hd => h.ahead d ?_, h.quit, fun hne d hd => h.sleeps hne d ?_⟩
    · exact .inr (.inl (by simp at hd; rw [hpc, hd]))
    · exact .inl (by simp at hd; rw [hpc, hd])
  case h_5 deadline hpc =>
    split at hs
    · cases hs; exact ⟨by simp, h.quit, by simp⟩
    · cases hs
  case h_6 deadline hpc =>
    cases hs
    refine ⟨fun d hd => ?_, h.quit, fun hne d hd => ?_⟩
    · dsimp only at hd
      split at hd
      · simp at hd
      · exact h.ahead d (.inr (.inr (.inr (by simp at hd; rw [hpc, hd]))))
    · dsimp only at hd
      split at hd <;> simp at hd
  case h_7 hpc =>
    cases hs
    refine ⟨fun d hd => ?_, h.quit, fun hne d hd => ?_⟩
    · dsimp only at hd
      split at hd <;> simp at hd
    · dsimp only at hd
      split at hd <;> simp at hd
  case h_10 hpc => cases hs; exact ⟨by simp, fun hne => by simp [h.quit hne], by simp⟩
  case h_11 => cases hs

/-- What a notification keeps. -/
theorem Stopping.wakeup (h : Stopping timeout s) : Stopping timeout (wakeup s) := by
  rcases wakeup_pc s with ⟨deadline, hpc, hw⟩ | hw
  · refine ⟨fun d hd => ?_, by simpa using h.quit, fun _ d hd => ?_⟩
    · rw [hw] at hd
      rw [wakeup_now]
      exact h.ahead d (.inr (.inr (.inl (by simp at hd; rw [hpc, hd]))))
    · rw [hw] at hd
      simp at hd
  · exact ⟨by simpa [hw] using h.ahead, by simpa using h.quit, by simpa [hw] using h.sleeps⟩

theorem step_stopping (s : State) (a : Action) (s' : State) (h : Stopping timeout s)
    (hs : step timeout singleShot s a = some s') : Stopping timeout s' := by
  cases a with
  | tick =>
    cases hs
    refine ⟨fun d hd => ?_, h.quit, h.sleeps⟩
    have hle := h.ahead d hd
    show d ≤ s.now + 1 + timeout
    omega
  | thread => exact threadStep_stopping h hs
  | wake => cases hs; exact h.wakeup
  | storeQuit =>
    simp only [step] at hs
    split at hs
    · cases hs
      refine ⟨h.ahead, fun _ => rfl, fun _ d hd => h.ahead d ?_⟩
      exact hd.elim (fun hd => .inr (.inl hd)) (fun hd => .inr (.inr (.inl hd)))
    · cases hs
  | notifyOne =>
    simp only [step] at hs
    split at hs
    · rename_i hd
      cases hs
      have hne : (SimpleTimer.wakeup s).destructor ≠ .idle := by simp [hd]
      exact ⟨h.wakeup.ahead, fun _ => h.wakeup.quit hne, fun _ => h.wakeup.sleeps hne⟩
    · cases hs
  | join =>
    simp only [step] at hs
    split at hs
    · rename_i hd
      cases hs
      have hne : s.destructor ≠ .idle := by simp [hd.1]
      exact ⟨h.ahead, fun _ => h.quit hne, fun _ => h.sleeps hne⟩
    · cases hs

/-- One for a step of the thread. -/
def Action.cost : Action → Nat
  | .thread => 1
  | .tick | .wake | .storeQuit | .notifyOne | .join => 0

/-- What a step does once the destructor has begun. -/
theorem step_rank (a : Action) (hd : s.destructor ≠ .idle) (hq : s.quit = true)
    (hs : step timeout singleShot s a = some s') :
    s'.destructor ≠ .idle ∧ s'.storedAt = s.storedAt ∧ a.cost + s'.pc.rank ≤ s.pc.rank := by
  cases a with
  | tick => cases hs; exact ⟨hd, rfl, Nat.le_of_eq (Nat.zero_add _)⟩
  | thread =>
    simp only [step, threadStep] at hs
    split at hs
    case h_5 hpc =>
      split at hs
      · cases hs; exact ⟨hd, rfl, by simp [hpc, Pc.rank, Action.cost]⟩
      · cases hs
    case h_6 hpc =>
      cases hs
      refine ⟨hd, rfl, ?_⟩
      rw [hpc]
      dsimp only
      split <;> simp [Pc.rank, Action.cost]
    case h_11 => cases hs
    all_goals
      rename_i hpc
      cases hs
      exact ⟨hd, rfl, by simp [hpc, hq, Pc.rank, Action.cost]⟩
  | wake =>
    cases hs
    refine ⟨by simpa using hd, by simp, ?_⟩
    rcases wakeup_pc s with ⟨deadline, hpc, hw⟩ | hw <;> simp [*, Pc.rank, Action.cost]
  | storeQuit => simp [step, hd] at hs
  | notifyOne =>
    simp only [step] at hs
    split at hs
    · cases hs
      refine ⟨by simp, by simp, ?_⟩
      rcases wakeup_pc s with ⟨deadline, hpc, hw⟩ | hw <;> simp [*, Pc.rank, Action.cost]
    · cases hs
  | join =>
    simp only [step] at hs
    split at hs
    · cases hs; exact ⟨by simp, rfl, Nat.le_of_eq (Nat.zero_add _)⟩
    · cases hs

/-- A thread that cannot go on has ended or sleeps. -/
theorem stuck_pc (h : threadStep timeout singleShot s = none) :
    s.pc = .done ∨ ∃ deadline, s.pc = .blocked deadline ∧ s.now < deadline := by
  unfold threadStep at h
  split at h
  case h_5 deadline hpc =>
    split at h
    · cases h
    · exact .inr ⟨deadline, hpc, by omega⟩
  case h_11 hpc => exact .inl hpc
  all_goals cases h

/-- Once the destructor has stored `m_quit` the thread takes at most five steps and starts at most one more call; and if
it cannot take the next one it has ended, or it sleeps, not longer than a timeout from then, whether or not it was
notified. -/
theorem timer_stops (as : List Action) (s : State) (hs : Runs.exec (step timeout singleShot) {} as = some s)
    (hd : s.destructor ≠ .idle) (bs : List Action) (t : State) (ht : Runs.exec (step timeout singleShot) s bs = some t) :
    (bs.map Action.cost).sum ≤ 5 ∧ t.calls.length ≤ s.calls.length + 1 ∧
    (threadStep timeout singleShot t = none → t.pc = .done ∨
      ∃ deadline, t.pc = .blocked deadline ∧ t.now < deadline ∧ deadline ≤ s.storedAt + timeout) := by
  have hstop : Stopping timeout s := Runs.exec_of_step step_stopping as stopping_init hs
  let I := fun t : State => Stopping timeout t ∧ t.destructor ≠ .idle ∧ t.storedAt = s.storedAt ∧ t.budget ≤ s.budget
  have hstep : ∀ t a t', I t → step timeout singleShot t a = some t' → I t' ∧ a.cost + t'.pc.rank ≤ t.pc.rank := by
    rintro t a t' ⟨hi, hd, hat, hb⟩ h
    obtain ⟨hd', hat', hle⟩ := step_rank a hd (hi.quit hd) h
    have hb' := step_budget a (.inl (hi.quit hd)) h
    exact ⟨⟨step_stopping t a t' hi h, hd', hat'.trans hat, hb'.trans hb⟩, hle⟩
  obtain ⟨⟨hstop', hd', hat, hb⟩, hle⟩ := Runs.exec_cost_le hstep bs ⟨hstop, hd, rfl, Nat.le_refl _⟩ ht
  refine ⟨(Nat.le_add_right _ _).trans (hle.trans (rank_le _)), ?_, fun hstuck => ?_⟩
  · have hleft : s.pc.left s.quit ≤ 1 := by
      rw [hstop.quit hd]
      cases s.pc <;> simp [Pc.left]
    unfold State.budget at hb
    omega
  · rcases stuck_pc hstuck with hdone | ⟨deadline, hpc, hlt⟩
    · exact .inl hdone
    · exact .inr ⟨deadline, hpc, hlt, hat ▸ hstop'.sleeps hd' deadline (.inr hpc)⟩

/-- The notification comes too early and the thread sleeps on; it ends when the timeout is over. -/
theorem timer_stops_unheard :
    let as : List Action := [.thread, .thread, .thread, .storeQuit]
    let bs : List Action := [.notifyOne, .thread, .tick]
    ∃ s t : State, Runs.exec (step 2 false) {} as = some s ∧ Runs.exec (step 2 false) s bs = some t ∧
      threadStep 2 false t = none ∧ (bs.map Action.cost).sum ≤ 5 ∧ t.calls.length ≤ s.calls.length + 1 ∧
      (t.pc = .done ∨ ∃ deadline, t.pc = .blocked deadline ∧ t.now < deadline ∧ deadline ≤ s.storedAt + 2) := by
  intro as bs
  have h := @timer_stops 2 false as _ rfl (by decide) bs _ rfl
  exact ⟨_, _, rfl, rfl, rfl, h.1, h.2.1, h.2.2 rfl⟩

end Getodac.SimpleTimer
