import Getodac.Lib.Runs
/-!
# `Dracon::ThreadWorker`

The worker threads wait for tasks on `m_waitCondition`, under `m_lock`. The destructor
stores `m_quit`, notifies all workers and joins them, and takes no lock for it. The
actions are those of the workers, of the callers of `insertTask` and of the
destructor, in any order.

A worker that has found nothing to do, and is about to block, misses the notification
(`sleeps_through`). `shuts_down` is about the runs in which the destructor notifies
while no worker is there; that a task is run once holds in all of them.
-/

namespace Getodac.ThreadWorker

/-- Where a worker is. -/
inductive Pc where
  /-- At `while (!m_quit)`. -/
  | loop
  /-- In `nextTask`, before it has `m_lock`. -/
  | entering
  /-- Has `m_lock` and is about to evaluate the predicate. -/
  | testing
  /-- The predicate is false; about to release `m_lock` and block, which is one step. -/
  | waiting
  | blocked
  /-- Woken, before it has `m_lock` again. -/
  | woken
  /-- The predicate is true. -/
  | taking
  | running (task : Nat)
  | done
deriving DecidableEq, Repr

inductive Owner (n : Nat) where
  | worker (i : Fin n)
  | inserter
deriving DecidableEq, Repr

/-- Where the destructor is. -/
inductive Destructor where
  | idle
  | stored
  /-- Past `notify_all`; so many workers are joined. -/
  | notified (joined : Nat)
deriving DecidableEq, Repr

/-- A task is named by its place in the order of insertion. -/
structure State (n : Nat) where
  quit : Bool := false
  pendingTasks : List Nat := []
  lock : Option (Owner n) := none
  workers : Fin n → Pc := fun _ => .loop
  destructor : Destructor := .idle
  inserted : Nat := 0
  /-- History: how often a task was run. -/
  runs : Nat → Nat := fun _ => 0

inductive Action (n : Nat) where
  /-- The next step of a worker. -/
  | worker (i : Fin n)
  /-- `m_waitCondition` wakes a worker without a notification. -/
  | wake (i : Fin n)
  -- `insertTask`
  | insert
  /-- `notify_one`, with the worker it wakes. -/
  | notifyOne (i : Option (Fin n))
  -- the destructor
  | storeQuit
  | notifyAll
  | join
deriving DecidableEq, Repr

variable {n : Nat}

namespace State

def setWorker (s : State n) (i : Fin n) (pc : Pc) : State n := { s with workers := Function.update s.workers i pc }

/-- `m_waitCondition` wakes those of the workers that are blocked. -/
def wakeAll (s : State n) : State n :=
  { s with workers := fun i => if s.workers i = .blocked then .woken else s.workers i }

end State

/-- The next step of a worker, unless it has to wait. -/
def workerStep (s : State n) (i : Fin n) : Option (State n) :=
  match s.workers i with
  | .loop => some (s.setWorker i (if s.quit then .done else .entering))
  | .entering | .woken =>
    if s.lock = none then some { s.setWorker i .testing with lock := some (.worker i) } else none
  | .testing => some (s.setWorker i (if s.quit = true ∨ s.pendingTasks ≠ [] then .taking else .waiting))
  | .waiting => some { s.setWorker i .blocked with lock := none }
  | .blocked => none
  | .taking =>
    if s.quit then some { s.setWorker i .loop with lock := none }
    else
      match s.pendingTasks with
      | task :: tasks => some { s.setWorker i (.running task) with lock := none, pendingTasks := tasks }
      -- `top()` of an empty stack, which `takes_task` excludes
      | [] => none
  | .running task =>
    some { s.setWorker i .loop with runs := Function.update s.runs task (s.runs task + 1) }
  | .done => none

def step (s : State n) : Action n → Option (State n)
  | .worker i => workerStep s i
  | .wake i => if s.workers i = .blocked then some (s.setWorker i .woken) else none
  | .insert =>
    if s.lock = none then
      some { s with lock := some .inserter, pendingTasks := s.inserted :: s.pendingTasks, inserted := s.inserted + 1 }
    else none
  | .notifyOne none =>
    if s.lock = some .inserter ∧ ∀ i, s.workers i ≠ .blocked then some { s with lock := none } else none
  | .notifyOne (some i) =>
    if s.lock = some .inserter ∧ s.workers i = .blocked then some { s.setWorker i .woken with lock := none } else none
  | .storeQuit => if s.destructor = .idle then some { s with quit := true, destructor := .stored } else none
  | .notifyAll => if s.destructor = .stored then some { s.wakeAll with destructor := .notified 0 } else none
  | .join =>
    match s.destructor with
    | .notified joined =>
      if h : joined < n then
        if s.workers ⟨joined, h⟩ = .done then some { s with destructor := .notified (joined + 1) } else none
      else none
    | _ => none

/-- Past `notify_all` no worker is blocked. -/
def NoneBlocked (s : State n) : Prop := ∀ joined, s.destructor = .notified joined → ∀ i, s.workers i ≠ .blocked

/-- No task is run twice. -/
def RunOnce (s : State n) : Prop := ∀ task, s.runs task ≤ 1

/-- The destructor does not notify while a worker has found nothing to do and is not yet blocked. -/
def Heard (s : State n) : Action n → Prop
  | .notifyAll => ∀ i, s.workers i ≠ .waiting
  | _ => True

instance (s : State n) : ∀ a, Decidable (Heard s a)
  | .notifyAll => inferInstanceAs (Decidable (∀ i, s.workers i ≠ .waiting))
  | .worker _ | .wake _ | .insert | .notifyOne _ | .storeQuit | .join => isTrue trivial

/-! ## What a step can do -/

inductive Takes (s : State n) : Action n → State n → Prop where
  | loop {i : Fin n} (h : s.workers i = .loop) :
      Takes s (.worker i) (s.setWorker i (if s.quit then .done else .entering))
  | lock {i : Fin n} (h : s.workers i = .entering ∨ s.workers i = .woken) (hl : s.lock = none) :
      Takes s (.worker i) { s.setWorker i .testing with lock := some (.worker i) }
  | found {i : Fin n} (h : s.workers i = .testing) (hp : s.quit = true ∨ s.pendingTasks ≠ []) :
      Takes s (.worker i) (s.setWorker i .taking)
  | nothing {i : Fin n} (h : s.workers i = .testing) (hq : s.quit = false) :
      Takes s (.worker i) (s.setWorker i .waiting)
  | block {i : Fin n} (h : s.workers i = .waiting) : Takes s (.worker i) { s.setWorker i .blocked with lock := none }
  | leave {i : Fin n} (h : s.workers i = .taking) : Takes s (.worker i) { s.setWorker i .loop with lock := none }
  | pop {i : Fin n} {task : Nat} {tasks : List Nat} (h : s.workers i = .taking) (hp : s.pendingTasks = task :: tasks) :
      Takes s (.worker i) { s.setWorker i (.running task) with lock := none, pendingTasks := tasks }
  | run {i : Fin n} {task : Nat} (h : s.workers i = .running task) :
      Takes s (.worker i) { s.setWorker i .loop with runs := Function.update s.runs task (s.runs task + 1) }
  | wake {i : Fin n} (h : s.workers i = .blocked) : Takes s (.wake i) (s.setWorker i .woken)
  | insert (hl : s.lock = none) : Takes s .insert
      { s with lock := some .inserter, pendingTasks := s.inserted :: s.pendingTasks, inserted := s.inserted + 1 }
  | notifyNone (hl : s.lock = some .inserter) : Takes s (.notifyOne none) { s with lock := none }
  | notifyOne {i : Fin n} (hl : s.lock = some .inserter) (h : s.workers i = .blocked) :
      Takes s (.notifyOne (some i)) { s.setWorker i .woken with lock := none }
  | storeQuit (h : s.destructor = .idle) : Takes s .storeQuit { s with quit := true, destructor := .stored }
  | notifyAll (h : s.destructor = .stored) : Takes s .notifyAll { s.wakeAll with destructor := .notified 0 }
  | join {joined : Nat} (h : s.destructor = .notified joined) :
      Takes s .join { s with destructor := .notified (joined + 1) }

variable {s s' : State n}

theorem workerStep_takes {i : Fin n} (h : workerStep s i = some s') : Takes s (.worker i) s' := by
  unfold workerStep at h
  split at h
  · cases h
    exact .loop ‹_›
  · split at h
    · cases h
      exact .lock (.inl ‹_›) ‹_›
    · cases h
  · split at h
    · cases h
      exact .lock (.inr ‹_›) ‹_›
    · cases h
  · rename_i hpc
    cases h
    split
    · exact .found hpc ‹_›
    · rename_i hno
      exact .nothing hpc (by simpa using (not_or.1 hno).1)
  · cases h
    exact .block ‹_›
  · cases h
  · rename_i hpc
    split at h
    · cases h
      exact .leave hpc
    · split at h
      · cases h
        exact .pop hpc ‹_›
      · cases h
  · cases h
    exact .run ‹_›
  · cases h

theorem step_takes {a : Action n} (h : step s a = some s') : Takes s a s' := by
  unfold step at h
  split at h
  · exact workerStep_takes h
  · split at h
    · cases h
      exact .wake ‹_›
    · cases h
  · split at h
    · cases h
      exact .insert ‹_›
    · cases h
  · split at h
    · rename_i hl
      cases h
      exact .notifyNone hl.1
    · cases h
  · split at h
    · rename_i hl
      cases h
      exact .notifyOne hl.1 hl.2
    · cases h
  · split at h
    · cases h
      exact .storeQuit ‹_›
    · cases h
  · split at h
    · cases h
      exact .notifyAll ‹_›
    · cases h
  · split at h
    · split at h
      · split at h
        · cases h
          exact .join ‹_›
        · cases h
      · cases h
    · cases h

theorem setWorker_same (s : State n) (i : Fin n) (pc : Pc) : (s.setWorker i pc).workers i = pc := by
  simp [State.setWorker]

theorem setWorker_other (s : State n) {i j : Fin n} (h : j ≠ i) (pc : Pc) : (s.setWorker i pc).workers j = s.workers j := by
  simp [State.setWorker, h]

/-! ## Tasks -/

/-- A task is pending, or run by one worker, or was run, and never two of these. -/
structure Tasks (s : State n) : Prop where
  nodup : s.pendingTasks.Nodup
  pending : ∀ task ∈ s.pendingTasks, task < s.inserted ∧ s.runs task = 0 ∧ ∀ i, s.workers i ≠ .running task
  running : ∀ i task, s.workers i = .running task →
    task < s.inserted ∧ s.runs task = 0 ∧ ∀ j, s.workers j = .running task → j = i
  fresh : ∀ task, s.inserted ≤ task → s.runs task = 0
  once : RunOnce s

/-- A step that starts and ends no task keeps this. -/
theorem Tasks.quiet (h : Tasks s) (hp : s'.pendingTasks = s.pendingTasks) (hi : s'.inserted = s.inserted)
    (hr : s'.runs = s.runs) (hw : ∀ i task, s'.workers i = .running task → s.workers i = .running task) : Tasks s' := by
  refine ⟨hp ▸ h.nodup, fun task ht => ?_, fun i task ht => ?_, fun task ht => ?_, fun task => ?_⟩
  · rw [hp] at ht
    obtain ⟨hlt, h0, hno⟩ := h.pending task ht
    rw [hi, hr]
    exact ⟨hlt, h0, fun i he => hno i (hw i task he)⟩
  · obtain ⟨hlt, h0, honly⟩ := h.running i task (hw i task ht)
    rw [hi, hr]
    exact ⟨hlt, h0, fun j hj => honly j (hw j task hj)⟩
  · rw [hi] at ht
    rw [hr]
    exact h.fresh task ht
  · rw [hr]
    exact h.once task

/-- A worker that is not started on a task has none. -/
theorem setWorker_running {i : Fin n} {p : Pc} (hpc : ∀ task, p ≠ .running task) (j : Fin n) (task : Nat)
    (h : (s.setWorker i p).workers j = .running task) : j ≠ i ∧ s.workers j = .running task := by
  by_cases hji : j = i
  · rw [hji, setWorker_same] at h
    exact absurd h (hpc task)
  · rw [setWorker_other s hji] at h
    exact ⟨hji, h⟩

theorem Tasks.pop (h : Tasks s) {task : Nat} {tasks : List Nat} (hp : s.pendingTasks = task :: tasks) (i : Fin n) :
    Tasks { s.setWorker i (.running task) with lock := none, pendingTasks := tasks } := by
  obtain ⟨hnotin, hnodup⟩ := List.nodup_cons.1 (hp ▸ h.nodup)
  have htask := h.pending task (by rw [hp]; exact List.mem_cons_self)
  -- who runs a task after the step
  have hruns : ∀ j k, (s.setWorker i (.running task)).workers j = .running k →
      (j = i ∧ k = task) ∨ (j ≠ i ∧ s.workers j = .running k) := by
    intro j k hj
    by_cases hji : j = i
    · rw [hji, setWorker_same] at hj
      exact .inl ⟨hji, (Pc.running.inj hj).symm⟩
    · rw [setWorker_other s hji] at hj
      exact .inr ⟨hji, hj⟩
  refine ⟨hnodup, fun k hk => ?_, fun j k hj => ?_, h.fresh, h.once⟩
  · obtain ⟨hlt, h0, hno⟩ := h.pending k (by rw [hp]; exact List.mem_cons_of_mem _ hk)
    refine ⟨hlt, h0, fun j hj => ?_⟩
    obtain ⟨-, rfl⟩ | ⟨-, hj⟩ := hruns j k hj
    · exact hnotin hk
    · exact hno j hj
  · obtain ⟨rfl, rfl⟩ | ⟨-, hj'⟩ := hruns j k hj
    · refine ⟨htask.1, htask.2.1, fun l hl => ?_⟩
      obtain ⟨hl, -⟩ | ⟨-, hl⟩ := hruns l k hl
      · exact hl
      · exact absurd hl (htask.2.2 l)
    · obtain ⟨hlt, h0, honly⟩ := h.running j k hj'
      refine ⟨hlt, h0, fun l hl => ?_⟩
      obtain ⟨-, rfl⟩ | ⟨-, hl⟩ := hruns l k hl
      · exact absurd hj' (htask.2.2 j)
      · exact honly l hl

theorem Tasks.run (h : Tasks s) {i : Fin n} {task : Nat} (hpc : s.workers i = .running task) :
    Tasks { s.setWorker i .loop with runs := Function.update s.runs task (s.runs task + 1) } := by
  obtain ⟨hlt, h0, honly⟩ := h.running i task hpc
  have hother : ∀ k, k ≠ task → Function.update s.runs task (s.runs task + 1) k = s.runs k :=
    fun k hk => Function.update_of_ne hk _ _
  have hruns := setWorker_running (s := s) (i := i) (p := .loop) (by simp)
  refine ⟨h.nodup, fun k hk => ?_, fun j k hj => ?_, fun k hk => ?_, fun k => ?_⟩
  · obtain ⟨hklt, hk0, hno⟩ := h.pending k hk
    refine ⟨hklt, ?_, fun j hj => hno j (hruns j k hj).2⟩
    dsimp only
    rw [hother k (by rintro rfl; exact hno i hpc)]
    exact hk0
  · obtain ⟨hji, hj'⟩ := hruns j k hj
    obtain ⟨hklt, hk0, hkonly⟩ := h.running j k hj'
    refine ⟨hklt, ?_, fun l hl => hkonly l (hruns l k hl).2⟩
    dsimp only
    rw [hother k (by rintro rfl; exact hji (honly j hj'))]
    exact hk0
  · dsimp only
    rw [hother k (by rintro rfl; exact absurd hlt (Nat.not_lt.2 hk))]
    exact h.fresh k hk
  · dsimp only
    by_cases hk : k = task
    · rw [hk, Function.update_self, h0]
    · rw [hother k hk]
      exact h.once k

theorem Tasks.insert (h : Tasks s) : Tasks
    { s with lock := some .inserter, pendingTasks := s.inserted :: s.pendingTasks, inserted := s.inserted + 1 } := by
  refine ⟨List.nodup_cons.2 ⟨fun hm => ?_, h.nodup⟩, fun task ht => ?_, fun i task hi => ?_, fun task ht => ?_, h.once⟩
  · exact Nat.lt_irrefl _ (h.pending _ hm).1
  · rcases List.mem_cons.1 ht with rfl | ht
    · exact ⟨Nat.lt_succ_self _, h.fresh _ (Nat.le_refl _), fun i hi => Nat.lt_irrefl _ (h.running i _ hi).1⟩
    · obtain ⟨hlt, h0, hno⟩ := h.pending task ht
      exact ⟨Nat.lt_succ_of_lt hlt, h0, hno⟩
  · obtain ⟨hlt, h0, honly⟩ := h.running i task hi
    exact ⟨Nat.lt_succ_of_lt hlt, h0, honly⟩
  · exact h.fresh task (Nat.le_of_succ_le ht)

theorem step_tasks (s : State n) (a : Action n) (s' : State n) (h : Tasks s) (hs : step s a = some s') : Tasks s' := by
  have hset : ∀ (i : Fin n) {pc : Pc}, (∀ task, pc ≠ .running task) → ∀ j task,
      (s.setWorker i pc).workers j = .running task → s.workers j = .running task :=
    fun i pc hpc j task hj => (setWorker_running hpc j task hj).2
  cases step_takes hs with
  | loop _ => exact h.quiet rfl rfl rfl (hset _ (by intro task; split <;> simp))
  | lock _ _ => exact h.quiet rfl rfl rfl (hset _ (by simp))
  | found _ _ => exact h.quiet rfl rfl rfl (hset _ (by simp))
  | nothing _ _ => exact h.quiet rfl rfl rfl (hset _ (by simp))
  | block _ => exact h.quiet rfl rfl rfl (hset _ (by simp))
  | leave _ => exact h.quiet rfl rfl rfl (hset _ (by simp))
  | pop _ hp => exact h.pop hp _
  | run hpc => exact h.run hpc
  | wake _ => exact h.quiet rfl rfl rfl (hset _ (by simp))
  | insert _ => exact h.insert
  | notifyNone _ => exact h.quiet rfl rfl rfl fun _ _ => id
  | notifyOne _ _ => exact h.quiet rfl rfl rfl (hset _ (by simp))
  | storeQuit _ => exact h.quiet rfl rfl rfl fun _ _ => id
  | notifyAll _ =>
    refine h.quiet rfl rfl rfl fun i task hi => ?_
    simp only [State.wakeAll] at hi
    split at hi
    · cases hi
    · exact hi
  | join _ => exact h.quiet rfl rfl rfl fun _ _ => id

theorem tasks_init : Tasks ({} : State n) :=
  ⟨List.nodup_nil, by simp, by simp, fun _ _ => rfl, fun _ => Nat.zero_le 1⟩

/-! ## The lock -/

/-- The worker has `m_lock`. -/
def Pc.locked : Pc → Prop
  | .testing | .waiting | .taking => True
  | .loop | .entering | .blocked | .woken | .running _ | .done => False

/-- One worker has the lock, and one that has found something to do still finds it. -/
structure Locks (s : State n) : Prop where
  owner : ∀ i, (s.workers i).locked → s.lock = some (.worker i)
  taking : ∀ i, s.workers i = .taking → s.quit = true ∨ s.pendingTasks ≠ []

theorem locks_init : Locks ({} : State n) := ⟨fun _ h => h.elim, fun _ h => by cases h⟩

/-- A worker that has the lock gives it up. -/
theorem Locks.release (h : Locks s) {i : Fin n} (hi : (s.workers i).locked) {p : Pc} (hpc : ¬ p.locked)
    (hw : s'.workers = (s.setWorker i p).workers) : Locks s' := by
  have hnone : ∀ j, ¬ (s'.workers j).locked := by
    intro j hj
    rw [hw] at hj
    by_cases hji : j = i
    · rw [hji, setWorker_same] at hj
      exact hpc hj
    · rw [setWorker_other s hji] at hj
      have := (h.owner j hj).symm.trans (h.owner i hi)
      cases this
      exact hji rfl
  exact ⟨fun j hj => absurd hj (hnone j), fun j hj => absurd (by rw [hj]; trivial) (hnone j)⟩

/-- No worker has it. -/
theorem Locks.free (h : ∀ i, ¬ (s.workers i).locked) : Locks s :=
  ⟨fun i hi => absurd hi (h i), fun i hi => absurd (by rw [hi]; trivial) (h i)⟩

theorem Locks.none_locked (h : Locks s) (hl : ∀ i, s.lock ≠ some (.worker i)) (i : Fin n) : ¬ (s.workers i).locked :=
  fun hi => hl i (h.owner i hi)

/-- A worker that does not have the lock goes on without it. -/
theorem Locks.outside (h : Locks s) {i : Fin n} {p : Pc} (hpc : ¬ p.locked)
    (hw : s'.workers = (s.setWorker i p).workers) (hl : s'.lock = s.lock) (hq : s'.quit = s.quit)
    (hp : s'.pendingTasks = s.pendingTasks) : Locks s' := by
  have hsame : ∀ j, (s'.workers j).locked → s'.workers j = s.workers j := by
    intro j hj
    rw [hw] at hj ⊢
    by_cases hji : j = i
    · rw [hji, setWorker_same] at hj
      exact absurd hj hpc
    · exact setWorker_other s hji p
  refine ⟨fun j hj => ?_, fun j hj => ?_⟩
  · rw [hl]
    exact h.owner j (hsame j hj ▸ hj)
  · rw [hq, hp]
    exact h.taking j ((hsame j (by rw [hj]; trivial)).symm.trans hj)

/-- The owner of the lock has evaluated the predicate. -/
theorem Locks.tested (h : Locks s) {i : Fin n} (hi : s.workers i = .testing) {pc : Pc}
    (hpc : pc = .taking → s.quit = true ∨ s.pendingTasks ≠ []) : Locks (s.setWorker i pc) := by
  have hown : s.lock = some (.worker i) := h.owner i (by rw [hi]; trivial)
  refine ⟨fun j hj => ?_, fun j hj => ?_⟩
  · by_cases hji : j = i
    · rw [hji]
      exact hown
    · rw [setWorker_other s hji] at hj
      exact h.owner j hj
  · by_cases hji : j = i
    · rw [hji, setWorker_same] at hj
      exact hpc hj
    · rw [setWorker_other s hji] at hj
      exact h.taking j hj

theorem step_locks (s : State n) (a : Action n) (s' : State n) (h : Locks s) (hs : step s a = some s') : Locks s' := by
  cases step_takes hs with
  | loop _ => exact h.outside (by split <;> exact id) rfl rfl rfl rfl
  | @lock i _ hl =>
    have hnone := h.none_locked (by simp [hl])
    refine ⟨fun j hj => ?_, fun j hj => ?_⟩
    · by_cases hji : j = i
      · rw [hji]
      · exact absurd (setWorker_other s hji _ ▸ hj) (hnone j)
    · by_cases hji : j = i
      · rw [hji] at hj
        have := (setWorker_same s i .testing).symm.trans hj
        cases this
      · have hj' := (setWorker_other s hji .testing).symm.trans hj
        exact absurd (by rw [hj']; trivial) (hnone j)
  | found hpc hp => exact h.tested hpc fun _ => hp
  | nothing hpc _ => exact h.tested hpc fun he => by cases he
  | block hpc => exact h.release (by rw [hpc]; trivial) (p := .blocked) id rfl
  | leave hpc => exact h.release (by rw [hpc]; trivial) (p := .loop) id rfl
  | pop hpc _ => exact h.release (by rw [hpc]; trivial) (p := .running _) id rfl
  | run _ => exact h.outside (p := .loop) id rfl rfl rfl rfl
  | wake _ => exact h.outside (p := .woken) id rfl rfl rfl rfl
  | insert hl => exact .free (h.none_locked (by simp [hl]))
  | notifyNone hl => exact .free (h.none_locked (by simp [hl]))
  | @notifyOne i hl _ =>
    refine .free fun j hj => ?_
    by_cases hji : j = i
    · have hw : Pc.locked .woken := setWorker_same s i .woken ▸ hji ▸ hj
      exact hw
    · exact h.none_locked (by simp [hl]) j (setWorker_other s hji .woken ▸ hj)
  | storeQuit _ => exact ⟨h.owner, fun _ _ => .inl rfl⟩
  | notifyAll _ =>
    have hsame : ∀ j, (s.wakeAll.workers j).locked → s.wakeAll.workers j = s.workers j := by
      intro j hj
      simp only [State.wakeAll] at hj ⊢
      split at hj
      · exact hj.elim
      · rw [if_neg ‹_›]
    refine ⟨fun j hj => h.owner j (hsame j hj ▸ hj), fun j hj => ?_⟩
    exact h.taking j ((hsame j (by rw [hj]; trivial)).symm.trans hj)
  | join _ => exact ⟨h.owner, h.taking⟩

/-- A worker never takes a task from an empty stack. -/
theorem takes_task (as : List (Action n)) : Runs.Always step
    (fun s => ∀ i, s.workers i = .taking → s.quit = true ∨ s.pendingTasks ≠ []) ({} : State n) as :=
  Runs.always_of_step step_locks (fun _ h => h.taking) as locks_init

/-! ## The end -/

/-- The destructor has stored `m_quit`, and once it has notified nobody is, or is about to be, blocked. -/
structure Quits (s : State n) : Prop where
  stored : s.destructor ≠ .idle → s.quit = true
  heard : ∀ joined, s.destructor = .notified joined → ∀ i, s.workers i ≠ .waiting ∧ s.workers i ≠ .blocked

theorem quits_init : Quits ({} : State n) := ⟨fun h => absurd rfl h, fun _ h => by cases h⟩

/-- A step that sends no worker there keeps this. -/
theorem Quits.quiet (h : Quits s) (hd : s'.destructor = s.destructor) (hq : s'.quit = s.quit)
    (hw : ∀ i, s'.workers i = .waiting ∨ s'.workers i = .blocked → s.workers i = .waiting ∨ s.workers i = .blocked) :
    Quits s' := by
  refine ⟨fun hne => ?_, fun joined hj i => ?_⟩
  · rw [hq]
    exact h.stored (hd ▸ hne)
  · have hs := h.heard joined (hd ▸ hj) i
    refine ⟨fun hi => ?_, fun hi => ?_⟩
    · exact (hw i (.inl hi)).elim hs.1 hs.2
    · exact (hw i (.inr hi)).elim hs.1 hs.2

theorem setWorker_sleeps {i : Fin n} {p : Pc} (hpc : ¬ (p = .waiting ∨ p = .blocked)) (j : Fin n)
    (h : (s.setWorker i p).workers j = .waiting ∨ (s.setWorker i p).workers j = .blocked) :
    s.workers j = .waiting ∨ s.workers j = .blocked := by
  by_cases hji : j = i
  · rw [hji, setWorker_same] at h
    exact absurd h hpc
  · rwa [setWorker_other s hji] at h

theorem step_quits (s : State n) (a : Action n) (s' : State n) (h : Quits s) (hok : Heard s a)
    (hs : step s a = some s') : Quits s' := by
  cases step_takes hs with
  | loop _ => exact h.quiet rfl rfl (setWorker_sleeps (by split <;> simp))
  | lock _ _ => exact h.quiet rfl rfl (setWorker_sleeps (p := .testing) (by simp))
  | found _ _ => exact h.quiet rfl rfl (setWorker_sleeps (by simp))
  | @nothing i hpc hq =>
    -- `m_quit` is not stored, so nobody is notified yet
    have hidle : s.destructor = .idle := by
      by_contra hne
      rw [h.stored hne] at hq
      cases hq
    exact ⟨h.stored, fun joined hj => by rw [State.setWorker, hidle] at hj; cases hj⟩
  | @block i hpc =>
    refine ⟨h.stored, fun joined hj => ?_⟩
    exact absurd hpc (h.heard joined hj i).1
  | leave _ => exact h.quiet rfl rfl (setWorker_sleeps (p := .loop) (by simp))
  | pop _ _ => exact h.quiet rfl rfl (setWorker_sleeps (p := .running _) (by simp))
  | run _ => exact h.quiet rfl rfl (setWorker_sleeps (p := .loop) (by simp))
  | wake _ => exact h.quiet rfl rfl (setWorker_sleeps (by simp))
  | insert _ => exact h.quiet rfl rfl fun _ => id
  | notifyNone _ => exact h.quiet rfl rfl fun _ => id
  | notifyOne _ _ => exact h.quiet rfl rfl (setWorker_sleeps (p := .woken) (by simp))
  | storeQuit _ => exact ⟨fun _ => rfl, fun _ hj => by cases hj⟩
  | notifyAll hd =>
    refine ⟨fun _ => h.stored (by rw [hd]; simp), fun _ _ i => ?_⟩
    have hi := hok i
    simp only [State.wakeAll]
    split
    · simp
    · exact ⟨hi, ‹_›⟩
  | join hd => exact ⟨fun _ => h.stored (by rw [hd]; simp), fun _ _ => h.heard _ hd⟩

/-- In no run is a task run twice; and in every run in which the destructor notifies while no worker is about to block, no
worker is blocked after it. -/
theorem shuts_down (as : List (Action n)) :
    Runs.Always step RunOnce ({} : State n) as ∧
    (Runs.Along step Heard ({} : State n) as → Runs.Always step NoneBlocked ({} : State n) as) := by
  constructor
  · exact Runs.always_of_step step_tasks (fun _ h => h.once) as tasks_init
  · exact Runs.always_of_along step_quits (fun _ h joined hj i => (h.heard joined hj i).2) as quits_init

/-- The worker finds nothing to do, is notified and then blocks. -/
theorem sleeps_through :
    ∃ s : State 1, Runs.exec step {} [.worker 0, .worker 0, .worker 0, .storeQuit, .notifyAll, .worker 0] = some s ∧
      s.destructor = .notified 0 ∧ s.workers 0 = .blocked ∧ workerStep s 0 = none ∧ step s .join = none :=
  ⟨_, rfl, rfl, rfl, rfl, rfl⟩

end Getodac.ThreadWorker
