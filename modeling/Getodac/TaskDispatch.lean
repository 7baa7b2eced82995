import Getodac.Lib.Components
import Getodac.ThreadWorker
/-!
# The tasks of a `ThreadWorker` are run

`insertTask` notifies one worker, and a worker that comes back from a task looks at the
stack before it waits. So as long as `m_quit` is not stored a worker sleeps only if each
task on the stack has an awake worker of its own (`Attended.cover`), and the workers
alone run all tasks, in whatever order they are scheduled: `drains`.

No task gets lost on the way (`accounts_for_tasks`): those that were not run when the
destructor returns are on the stack.
-/

namespace Getodac.ThreadWorker

open Finset

variable {n : Nat} {s s' : State n}

/-! ## Counting workers -/

theorem sum_setWorker (f : Pc → Nat) (s : State n) (i : Fin n) (p : Pc) :
    ∑ j, f ((s.setWorker i p).workers j) + f (s.workers i) = ∑ j, f (s.workers j) + f p :=
  Components.sum_update f s.workers i p

/-- One for a worker that is going to look at the stack. -/
def Pc.awake : Pc → Nat
  | .loop | .entering | .testing | .woken | .taking => 1
  | .waiting | .blocked | .running _ | .done => 0

def State.awake (s : State n) : Nat := ∑ i, (s.workers i).awake

theorem awake_setWorker (s : State n) (i : Fin n) (p : Pc) :
    (s.setWorker i p).awake + (s.workers i).awake = s.awake + p.awake :=
  sum_setWorker Pc.awake s i p

/-! ## What the tests of a step say -/

theorem testing_next {i : Fin n} (hi : s.workers i = .testing) :
    workerStep s i = some (s.setWorker i (if s.quit = true ∨ s.pendingTasks ≠ [] then .taking else .waiting)) := by
  simp only [workerStep, hi]

theorem nothing_pending {i : Fin n} (hi : s.workers i = .testing) (h : workerStep s i = some (s.setWorker i .waiting)) :
    s.pendingTasks = [] := by
  rw [testing_next hi] at h
  by_contra hne
  rw [if_pos (Or.inr hne)] at h
  have hw := congrArg (fun t : State n => t.workers i) (Option.some.inj h)
  simp only [setWorker_same] at hw
  cases hw

theorem leave_quit {i : Fin n} (hi : s.workers i = .taking)
    (h : workerStep s i = some { s.setWorker i .loop with lock := none }) : s.quit = true := by
  by_contra hne
  cases hp : s.pendingTasks with
  | nil => simp [workerStep, hi, hne, hp] at h
  | cons task tasks =>
    have hw : some (Pc.running task) = some .loop := by
      simpa [workerStep, hi, hne, hp, setWorker_same] using congrArg (·.map fun t : State n => t.workers i) h
    cases hw

theorem notifyOne_none (h : step s (.notifyOne none) = some s') (i : Fin n) : s.workers i ≠ .blocked := by
  simp only [step] at h
  split at h
  · rename_i hl
    exact hl.2 i
  · cases h

/-! ## Who has the lock -/

/-- A worker that owns the lock is at one of the steps made under it. -/
def Owned (s : State n) : Prop := ∀ i, s.lock = some (.worker i) → (s.workers i).locked

/-- A worker that does not own the lock moves. -/
theorem Owned.outside (h : Owned s) {i : Fin n} {p : Pc} (hi : ¬ (s.workers i).locked)
    (hw : s'.workers = (s.setWorker i p).workers) (hl : s'.lock = s.lock) : Owned s' := by
  intro j hj
  rw [hl] at hj
  have hji : j ≠ i := by
    rintro rfl
    exact hi (h j hj)
  rw [hw, setWorker_other s hji]
  exact h j hj

/-- One that owns it moves, and stays under it. -/
theorem Owned.inside (h : Owned s) {i : Fin n} {p : Pc} (hp : p.locked) : Owned (s.setWorker i p) := by
  intro j hj
  by_cases hji : j = i
  · rw [hji, setWorker_same]
    exact hp
  · rw [setWorker_other s hji]
    exact h j hj

theorem step_owned (s : State n) (a : Action n) (s' : State n) (h : Owned s) (hs : step s a = some s') : Owned s' := by
  have hfree : ∀ t : State n, t.lock = none → Owned t := fun t ht i hi => by rw [ht] at hi; cases hi
  cases step_takes hs with
  | loop hpc => exact h.outside (by rw [hpc]; exact id) rfl rfl
  | @lock i _ _ =>
    intro j hj
    cases hj
    show Pc.locked ((s.setWorker i .testing).workers i)
    rw [setWorker_same]
    trivial
  | found _ _ => exact h.inside trivial
  | nothing _ _ => exact h.inside trivial
  | block _ => exact hfree _ rfl
  | leave _ => exact hfree _ rfl
  | pop _ _ => exact hfree _ rfl
  | @run i task hpc => exact h.outside (i := i) (p := .loop) (by rw [hpc]; exact id) rfl rfl
  | wake hpc => exact h.outside (by rw [hpc]; exact id) rfl rfl
  | insert _ => exact fun j hj => by cases hj
  | notifyNone _ => exact hfree _ rfl
  | notifyOne _ _ => exact hfree _ rfl
  | storeQuit _ => exact h
  | notifyAll _ =>
    intro j hj
    have hlocked := h j hj
    simp only [State.wakeAll]
    split
    · rename_i hb
      rw [hb] at hlocked
      exact hlocked
    · exact hlocked
  | join _ => exact h

/-! ## A worker leaves its loop because of `m_quit` -/

structure Working (s : State n) : Prop where
  stored : s.destructor ≠ .idle → s.quit = true
  working : s.quit = false → ∀ i, s.workers i ≠ .done

theorem Working.moved (h : Working s) {i : Fin n} {p : Pc} (hp : s.quit = false → p ≠ .done)
    (hw : s'.workers = (s.setWorker i p).workers) (hd : s'.destructor = s.destructor) (hq : s'.quit = s.quit) :
    Working s' := by
  refine ⟨fun hne => hq ▸ h.stored (hd ▸ hne), fun hrun j => ?_⟩
  rw [hq] at hrun
  rw [hw]
  by_cases hji : j = i
  · rw [hji, setWorker_same]
    exact hp hrun
  · rw [setWorker_other s hji]
    exact h.working hrun j

theorem step_working (s : State n) (a : Action n) (s' : State n) (h : Working s) (hs : step s a = some s') :
    Working s' := by
  cases step_takes hs with
  | loop _ => exact h.moved (fun hq => by simp [hq]) rfl rfl rfl
  | lock _ _ => exact h.moved (p := .testing) (by simp) rfl rfl rfl
  | found _ _ => exact h.moved (by simp) rfl rfl rfl
  | nothing _ _ => exact h.moved (by simp) rfl rfl rfl
  | block _ => exact h.moved (p := .blocked) (by simp) rfl rfl rfl
  | leave _ => exact h.moved (p := .loop) (by simp) rfl rfl rfl
  | @pop _ task _ _ _ => exact h.moved (p := .running task) (by simp) rfl rfl rfl
  | run _ => exact h.moved (p := .loop) (by simp) rfl rfl rfl
  | wake _ => exact h.moved (by simp) rfl rfl rfl
  | insert _ => exact ⟨h.stored, h.working⟩
  | notifyNone _ => exact ⟨h.stored, h.working⟩
  | notifyOne _ _ => exact h.moved (p := .woken) (by simp) rfl rfl rfl
  | storeQuit _ => exact ⟨fun _ => rfl, fun hq => by cases hq⟩
  | notifyAll hd =>
    have hquit : s.quit = true := h.stored (by rw [hd]; simp)
    exact ⟨fun _ => hquit, fun hq => absurd (hquit.symm.trans hq) (by simp)⟩
  | join hd =>
    have hquit : s.quit = true := h.stored (by rw [hd]; simp)
    exact ⟨fun _ => hquit, h.working⟩

/-! ## A sleeping worker is not needed -/

/-- The tasks that have been pushed and not notified. -/
def State.unheard (s : State n) : Nat := if s.lock = some .inserter then 1 else 0

structure Attended (s : State n) : Prop where
  /-- A worker that is about to block has the lock, so nothing was pushed since it looked. -/
  idle : ∀ i, s.workers i = .waiting → s.pendingTasks = []
  cover : ∀ i, s.workers i = .blocked → s.pendingTasks.length ≤ s.awake + s.unheard

/-- A worker has moved, and the stack is as it was. -/
theorem Attended.moved (h : Attended s) {i : Fin n} {p : Pc} (hw : s'.workers = (s.setWorker i p).workers)
    (hp : s'.pendingTasks = s.pendingTasks) (hwait : p ≠ .waiting) (hblock : p ≠ .blocked)
    (hawake : (s.workers i).awake + s.unheard ≤ p.awake + s'.unheard) : Attended s' := by
  have hother : ∀ j q, q ≠ p → s'.workers j = q → s.workers j = q := by
    intro j q hq hj
    rw [hw] at hj
    by_cases hji : j = i
    · rw [hji, setWorker_same] at hj
      exact absurd hj.symm hq
    · rwa [setWorker_other s hji] at hj
  refine ⟨fun j hj => ?_, fun j hj => ?_⟩
  · rw [hp]
    exact h.idle j (hother j _ (Ne.symm hwait) hj)
  · have hle := h.cover j (hother j _ (Ne.symm hblock) hj)
    have hsum := awake_setWorker s i p
    have heq : s'.awake = (s.setWorker i p).awake := by simp only [State.awake, hw]
    rw [hp, heq]
    omega

theorem attended_nil (h : s.pendingTasks = []) : Attended s :=
  ⟨fun _ _ => h, fun _ _ => by rw [h]; exact Nat.zero_le _⟩

theorem Attended.pop (h : Attended s) (ho : Locks s) {i : Fin n} {task : Nat} {tasks : List Nat}
    (hi : s.workers i = .taking) (hp : s.pendingTasks = task :: tasks) :
    Attended { s.setWorker i (.running task) with lock := none, pendingTasks := tasks } := by
  have hlock : s.lock = some (.worker i) := ho.owner i (by rw [hi]; trivial)
  refine ⟨fun j hj => ?_, fun j hj => ?_⟩
  · have hji : j ≠ i := by
      rintro rfl
      simp [State.setWorker] at hj
    -- the other one would have found nothing
    rw [h.idle j (by simpa [State.setWorker, hji] using hj)] at hp
    cases hp
  · have hji : j ≠ i := by
      rintro rfl
      simp [State.setWorker] at hj
    have hle := h.cover j (by simpa [State.setWorker, hji] using hj)
    have hsum := awake_setWorker s i (.running task)
    have hu : s.unheard = 0 := by simp [State.unheard, hlock]
    rw [hp, hu, List.length_cons] at hle
    rw [hi] at hsum
    simp only [Pc.awake] at hsum
    show tasks.length ≤ (s.setWorker i (.running task)).awake + _
    omega

/-- As long as `m_quit` is not stored. -/
theorem step_attended (s : State n) (a : Action n) (s' : State n) (h : Attended s) (hl : Locks s) (hw : Working s)
    (hq : s'.quit = false) (hs : step s a = some s') : Attended s' := by
  have hlocked : ∀ i, (s.workers i).locked → s.unheard = 0 := fun i hi => by simp [State.unheard, hl.owner i hi]
  cases step_takes hs with
  | loop hpc => exact h.moved rfl rfl (by split <;> simp) (by split <;> simp) (by
      have hq : s.quit = false := hq
      rw [hpc]
      simp [hq, Pc.awake, State.unheard, State.setWorker])
  | @lock i hpc hn =>
    refine h.moved (i := i) (p := .testing) rfl rfl (by simp) (by simp) ?_
    have hu : s.unheard = 0 := by simp [State.unheard, hn]
    rw [hu]
    rcases hpc with hpc | hpc <;> simp [hpc, Pc.awake]
  | found hpc _ => exact h.moved rfl rfl (by simp) (by simp) (by rw [hpc]; exact Nat.le_refl _)
  | nothing hpc _ =>
    have hp : s.pendingTasks = [] := nothing_pending hpc hs
    exact attended_nil hp
  | @block i hpc => exact attended_nil (h.idle i hpc)
  | leave hpc => exact absurd ((leave_quit hpc hs).symm.trans hq) (by simp)
  | pop hpc hp => exact h.pop hl hpc hp
  | @run i task hpc =>
    refine h.moved (i := i) (p := .loop) rfl rfl (by simp) (by simp) ?_
    rw [hpc]
    exact Nat.add_le_add_right (Nat.zero_le 1) _
  | wake hpc =>
    refine h.moved rfl rfl (by simp) (by simp) ?_
    rw [hpc]
    exact Nat.add_le_add_right (Nat.zero_le 1) _
  | insert hn =>
    have hu : s.unheard = 0 := by simp [State.unheard, hn]
    refine ⟨fun j hj => ?_, fun j hj => ?_⟩
    · -- such a worker has the lock
      have := hl.owner j (by rw [show s.workers j = .waiting from hj]; trivial)
      rw [hn] at this
      cases this
    · have hle := h.cover j hj
      rw [hu] at hle
      exact Nat.succ_le_succ hle
  | notifyNone hn =>
    refine ⟨h.idle, fun j hj => absurd hj (notifyOne_none hs j)⟩
  | @notifyOne i hn hpc =>
    refine h.moved (i := i) (p := .woken) rfl rfl (by simp) (by simp) ?_
    rw [hpc, show s.unheard = 1 by simp [State.unheard, hn]]
    exact Nat.le_refl _
  | storeQuit _ => cases hq
  | notifyAll hd =>
    have hquit : s.quit = true := hw.stored (by rw [hd]; simp)
    exact absurd (hquit.symm.trans hq) (by simp)
  | join hd =>
    have hquit : s.quit = true := hw.stored (by rw [hd]; simp)
    exact absurd (hquit.symm.trans hq) (by simp)

/-! ## Every task has a place -/

/-- A task that was inserted is on the stack, or a worker runs it, or it was run. -/
def Placed (s : State n) : Prop :=
  ∀ task < s.inserted, task ∈ s.pendingTasks ∨ (∃ i, s.workers i = .running task) ∨ s.runs task = 1

/-- A step that starts and ends no task keeps this. -/
theorem Placed.quiet (h : Placed s) (hp : s'.pendingTasks = s.pendingTasks) (hi : s'.inserted = s.inserted)
    (hr : s'.runs = s.runs) (hw : ∀ i task, s.workers i = .running task → s'.workers i = .running task) : Placed s' := by
  intro task ht
  rw [hi] at ht
  rw [hp, hr]
  rcases h task ht with hm | ⟨i, hi⟩ | hone
  · exact .inl hm
  · exact .inr (.inl ⟨i, hw i task hi⟩)
  · exact .inr (.inr hone)

/-- A worker that runs no task moves. -/
theorem running_setWorker {i : Fin n} (p : Pc) (hi : ∀ task, s.workers i ≠ .running task) (j : Fin n) (task : Nat)
    (h : s.workers j = .running task) : (s.setWorker i p).workers j = .running task := by
  rw [setWorker_other s (by rintro rfl; exact hi task h)]
  exact h

theorem step_placed (s : State n) (a : Action n) (s' : State n) (h : Placed s) (ht : Tasks s)
    (hs : step s a = some s') : Placed s' := by
  have hset : ∀ {i : Fin n} {q : Pc} (p : Pc), s.workers i = q → (∀ task, q ≠ .running task) → ∀ j task,
      s.workers j = .running task → (s.setWorker i p).workers j = .running task :=
    fun p hi hq => running_setWorker p (fun task he => hq task (hi.symm.trans he))
  cases step_takes hs with
  | loop hpc => exact h.quiet rfl rfl rfl (hset _ hpc (by simp))
  | lock hpc _ =>
    refine h.quiet rfl rfl rfl ?_
    rcases hpc with hpc | hpc <;> exact hset _ hpc (by simp)
  | found hpc _ => exact h.quiet rfl rfl rfl (hset _ hpc (by simp))
  | nothing hpc _ => exact h.quiet rfl rfl rfl (hset _ hpc (by simp))
  | block hpc => exact h.quiet rfl rfl rfl (hset _ hpc (by simp))
  | leave hpc => exact h.quiet rfl rfl rfl (hset _ hpc (by simp))
  | @pop i task tasks hpc hp =>
    intro k hk
    rcases h k hk with hm | ⟨j, hj⟩ | hone
    · rw [hp] at hm
      rcases List.mem_cons.1 hm with rfl | hm
      · exact .inr (.inl ⟨i, setWorker_same s i _⟩)
      · exact .inl hm
    · exact .inr (.inl ⟨j, hset _ hpc (by simp) j k hj⟩)
    · exact .inr (.inr hone)
  | @run i task hpc =>
    intro k hk
    dsimp only
    by_cases hkt : k = task
    · rw [hkt, Function.update_self, (ht.running i task hpc).2.1]
      exact .inr (.inr rfl)
    · rw [Function.update_of_ne hkt]
      rcases h k hk with hm | ⟨j, hj⟩ | hone
      · exact .inl hm
      · have hji : j ≠ i := by
          rintro rfl
          rw [hpc] at hj
          cases hj
          exact hkt rfl
        exact .inr (.inl ⟨j, by rw [setWorker_other s hji]; exact hj⟩)
      · exact .inr (.inr hone)
  | wake hpc => exact h.quiet rfl rfl rfl (hset _ hpc (by simp))
  | insert _ =>
    intro k hk
    rcases Nat.lt_succ_iff_lt_or_eq.1 hk with hk | rfl
    · rcases h k hk with hm | hrest
      · exact .inl (List.mem_cons_of_mem _ hm)
      · exact .inr hrest
    · exact .inl List.mem_cons_self
  | notifyNone _ => exact h.quiet rfl rfl rfl fun _ _ => id
  | notifyOne _ hpc => exact h.quiet rfl rfl rfl (hset _ hpc (by simp))
  | storeQuit _ => exact h.quiet rfl rfl rfl fun _ _ => id
  | notifyAll _ =>
    refine h.quiet rfl rfl rfl fun i task hi => ?_
    simp [State.wakeAll, hi]
  | join _ => exact h.quiet rfl rfl rfl fun _ _ => id

/-! ## The workers alone -/

/-- What holds in every state. -/
structure Reached (s : State n) : Prop where
  tasks : Tasks s
  locks : Locks s
  owned : Owned s
  working : Working s
  placed : Placed s
  attended : s.quit = false → Attended s

theorem reached_init : Reached ({} : State n) where
  tasks := tasks_init
  locks := locks_init
  owned := fun _ h => nomatch h
  working := ⟨fun h => absurd rfl h, fun _ _ h => nomatch h⟩
  placed := fun _ h => absurd h (Nat.not_lt_zero _)
  attended := fun _ => attended_nil rfl

theorem quit_stays (s : State n) (a : Action n) (s' : State n) (hs : step s a = some s') (hq : s.quit = true) :
    s'.quit = true := by
  cases step_takes hs <;> first | exact hq | rfl

theorem step_reached (s : State n) (a : Action n) (s' : State n) (h : Reached s) (hs : step s a = some s') :
    Reached s' where
  tasks := step_tasks s a s' h.tasks hs
  locks := step_locks s a s' h.locks hs
  owned := step_owned s a s' h.owned hs
  working := step_working s a s' h.working hs
  placed := step_placed s a s' h.placed h.tasks hs
  attended := by
    intro hq
    have hq0 : s.quit = false := by
      by_contra hne
      exact absurd ((quit_stays s a s' hs (by simpa using hne)).symm.trans hq) (by simp)
    exact step_attended s a s' (h.attended hq0) h.locks h.working hq hs

/-- How many steps a worker is from blocking, if there is nothing to do. -/
def Pc.rank : Pc → Nat
  | .running _ => 5
  | .loop => 4
  | .entering | .woken => 3
  | .testing => 2
  | .waiting | .taking => 1
  | .blocked | .done => 0

/-- A task on the stack takes a worker back to its loop. -/
def State.work (s : State n) : Nat := 5 * s.pendingTasks.length + ∑ i, (s.workers i).rank

theorem work_le (s : State n) : s.work ≤ 5 * (s.pendingTasks.length + n) := by
  have hsum : ∑ i, (s.workers i).rank ≤ ∑ _i : Fin n, 5 :=
    sum_le_sum fun i _ => by cases s.workers i <;> simp [Pc.rank]
  simp only [sum_const, card_univ, Fintype.card_fin, smul_eq_mul] at hsum
  unfold State.work
  omega

theorem work_setWorker (s : State n) (i : Fin n) (p : Pc) :
    (s.setWorker i p).work + (s.workers i).rank = s.work + p.rank := by
  have hsum := sum_setWorker Pc.rank s i p
  have hp : (s.setWorker i p).pendingTasks = s.pendingTasks := rfl
  unfold State.work
  rw [hp]
  omega

/-- A worker that takes no task comes nearer to its rest. -/
theorem work_lt {i : Fin n} {p : Pc} (hw : s'.workers = (s.setWorker i p).workers)
    (hp : s'.pendingTasks = s.pendingTasks) (h : p.rank < (s.workers i).rank) : s'.work < s.work := by
  have hsum := work_setWorker s i p
  have heq : s'.work = (s.setWorker i p).work := by
    unfold State.work
    rw [hw, hp]
    rfl
  omega

theorem workerStep_work {i : Fin n} (hq : s.quit = false) (hs : workerStep s i = some s') :
    s'.quit = false ∧ s'.inserted = s.inserted ∧ (s.lock ≠ some .inserter → s'.lock ≠ some .inserter) ∧
      s'.work < s.work := by
  have hstep : step s (.worker i) = some s' := hs
  cases step_takes hstep with
  | loop hpc =>
    refine ⟨hq, rfl, id, work_lt rfl rfl ?_⟩
    rw [hpc, hq]
    decide
  | lock hpc _ =>
    refine ⟨hq, rfl, fun _ => by simp, work_lt (p := .testing) rfl rfl ?_⟩
    rcases hpc with hpc | hpc <;> rw [hpc] <;> decide
  | found hpc _ => exact ⟨hq, rfl, id, work_lt rfl rfl (by rw [hpc]; decide)⟩
  | nothing hpc _ => exact ⟨hq, rfl, id, work_lt rfl rfl (by rw [hpc]; decide)⟩
  | block hpc => exact ⟨hq, rfl, fun _ => by simp, work_lt (p := .blocked) rfl rfl (by rw [hpc]; decide)⟩
  | leave hpc => exact absurd ((leave_quit hpc hs).symm.trans hq) (by simp)
  | @pop _ task tasks hpc hp =>
    refine ⟨hq, rfl, fun _ => by simp, ?_⟩
    have hsum := sum_setWorker Pc.rank s i (.running task)
    have htaking : Pc.rank .taking = 1 := rfl
    have hrunning : Pc.rank (.running task) = 5 := rfl
    rw [hpc, htaking, hrunning] at hsum
    unfold State.work
    rw [hp, List.length_cons]
    dsimp only
    omega
  | run hpc => exact ⟨hq, rfl, id, work_lt (p := .loop) rfl rfl (by rw [hpc]; exact Nat.lt_succ_self 4)⟩

/-- If no worker can move, all of them sleep. -/
theorem all_blocked (h : Reached s) (hq : s.quit = false) (hl : s.lock ≠ some .inserter)
    (hstuck : ∀ i, workerStep s i = none) (i : Fin n) : s.workers i = .blocked := by
  -- the owner of the lock could move
  have hfree : s.lock = none := by
    cases hlock : s.lock with
    | none => rfl
    | some owner =>
      cases owner with
      | inserter => exact absurd hlock hl
      | worker j =>
        have hlocked := h.owned j hlock
        have hnone := hstuck j
        cases hpc : s.workers j with
        | testing | waiting => simp [workerStep, hpc] at hnone
        | taking =>
          rcases h.locks.taking j hpc with hq' | hne
          · exact absurd (hq'.symm.trans hq) (by simp)
          · cases hp : s.pendingTasks with
            | nil => exact absurd hp hne
            | cons task tasks => simp [workerStep, hpc, hq, hp] at hnone
        | loop | entering | blocked | woken | running | done => rw [hpc] at hlocked; exact hlocked.elim
  have hnone := hstuck i
  cases hpc : s.workers i with
  | blocked => rfl
  | done => exact absurd hpc (h.working.working hq i)
  | taking =>
    have := h.locks.owner i (by rw [hpc]; trivial)
    rw [hfree] at this
    cases this
  | loop | entering | woken | testing | waiting | running => simp [workerStep, hpc, hfree] at hnone

/-- Whatever the order in which the workers are scheduled, they come to rest by themselves, with nothing left on the
stack and every task run once. -/
theorem drains (hn : 0 < n) (as : List (Action n)) (s : State n) (hs : Runs.exec step {} as = some s)
    (hq : s.quit = false) (hl : s.lock ≠ some .inserter) (is : List (Fin n)) (t : State n)
    (ht : Runs.exec workerStep s is = some t) :
    is.length ≤ 5 * (s.pendingTasks.length + n) ∧
    ((∀ i, workerStep t i = none) → t.pendingTasks = [] ∧ ∀ task < s.inserted, t.runs task = 1) := by
  have hreached : Reached s := Runs.exec_of_step step_reached as reached_init hs
  let I := fun t : State n => Reached t ∧ t.quit = false ∧ t.lock ≠ some .inserter ∧ t.inserted = s.inserted
  have hstep : ∀ t i t', I t → workerStep t i = some t' → I t' ∧ 1 + t'.work ≤ t.work := by
    rintro t i t' ⟨hr, hq, hl, hi⟩ h
    obtain ⟨hq', hi', hl', hlt⟩ := workerStep_work hq h
    exact ⟨⟨step_reached t (.worker i) t' hr h, hq', hl' hl, hi'.trans hi⟩, by omega⟩
  obtain ⟨⟨hr, hq', hl', hi⟩, hle⟩ := Runs.exec_cost_le hstep is ⟨hreached, hq, hl, rfl⟩ ht
  have hwork := work_le s
  refine ⟨by simp at hle; omega, fun hstuck => ?_⟩
  have hall := all_blocked hr hq' hl' hstuck
  have hempty : t.pendingTasks = [] := by
    have hcover := (hr.attended hq').cover ⟨0, hn⟩ (hall _)
    have hawake : t.awake = 0 := sum_eq_zero fun i _ => by rw [hall i]; rfl
    have hun : t.unheard = 0 := if_neg hl'
    rw [hawake, hun] at hcover
    exact List.length_eq_zero_iff.1 (Nat.le_zero.1 hcover)
  refine ⟨hempty, fun task htask => ?_⟩
  rcases hr.placed task (hi ▸ htask) with hm | ⟨i, hi⟩ | hone
  · rw [hempty] at hm
    cases hm
  · rw [hall i] at hi
    cases hi
  · exact hone

/-- A task runs and one is on the stack; the other worker has been woken for it. -/
theorem drains_two :
    let as : List (Action 2) := [.worker 0, .worker 0, .worker 0, .worker 0, .worker 1, .worker 1, .worker 1, .worker 1,
      .insert, .notifyOne (some 0), .worker 0, .worker 0, .worker 0, .insert, .notifyOne (some 1)]
    let is : List (Fin 2) := [1, 1, 1, 0, 0, 0, 0, 0, 1, 1, 1, 1, 1]
    ∃ s t : State 2, Runs.exec step {} as = some s ∧ Runs.exec workerStep s is = some t ∧
      (∀ i, workerStep t i = none) ∧ t.pendingTasks = [] ∧ ∀ task < s.inserted, t.runs task = 1 := by
  intro as is
  refine ⟨_, _, rfl, rfl, ?_, ?_⟩
  · decide
  · exact (drains (by decide) as _ rfl rfl (by decide) is _ rfl).2 (by decide)

/-! ## Until the destructor returns -/

/-- Where a task can be. -/
inductive Place (n : Nat) where
  | stack
  | worker (i : Fin n)
  | ran
deriving DecidableEq, Repr

def State.At (s : State n) (task : Nat) : Place n → Prop
  | .stack => task ∈ s.pendingTasks
  | .worker i => s.workers i = .running task
  | .ran => s.runs task = 1

/-- The workers that have been joined are gone. -/
def Joined (s : State n) : Prop := ∀ joined, s.destructor = .notified joined → ∀ i : Fin n, i < joined → s.workers i = .done

theorem Joined.moved (h : Joined s) {i : Fin n} {p : Pc} (hi : s.workers i ≠ .done)
    (hw : s'.workers = (s.setWorker i p).workers) (hd : s'.destructor = s.destructor) : Joined s' := by
  intro joined hj k hk
  have hdone := h joined (hd ▸ hj) k hk
  rw [hw, setWorker_other s (by rintro rfl; exact hi hdone)]
  exact hdone

theorem step_joined (s : State n) (a : Action n) (s' : State n) (h : Joined s) (hs : step s a = some s') : Joined s' := by
  cases step_takes hs with
  | loop hpc => exact h.moved (by simp [hpc]) rfl rfl
  | @lock i hpc _ => exact h.moved (i := i) (p := .testing) (by rcases hpc with hpc | hpc <;> simp [hpc]) rfl rfl
  | found hpc _ => exact h.moved (by simp [hpc]) rfl rfl
  | nothing hpc _ => exact h.moved (by simp [hpc]) rfl rfl
  | @block i hpc => exact h.moved (i := i) (p := .blocked) (by simp [hpc]) rfl rfl
  | @leave i hpc => exact h.moved (i := i) (p := .loop) (by simp [hpc]) rfl rfl
  | @pop i task _ hpc _ => exact h.moved (i := i) (p := .running task) (by simp [hpc]) rfl rfl
  | @run i _ hpc => exact h.moved (i := i) (p := .loop) (by simp [hpc]) rfl rfl
  | wake hpc => exact h.moved (by simp [hpc]) rfl rfl
  | insert _ => exact h
  | notifyNone _ => exact h
  | @notifyOne i _ hpc => exact h.moved (i := i) (p := .woken) (by simp [hpc]) rfl rfl
  | storeQuit _ => exact fun _ hj => nomatch hj
  | notifyAll _ =>
    intro joined hj i hi
    cases hj
    exact absurd hi (Nat.not_lt_zero _)
  | @join joined hd =>
    intro k hk i hi
    cases hk
    rcases Nat.lt_succ_iff_lt_or_eq.1 hi with hlt | heq
    · exact h joined hd i hlt
    · simp only [step, hd] at hs
      split at hs
      · split at hs
        · rename_i hlt hdone
          rw [show i = ⟨joined, hlt⟩ from Fin.ext heq]
          exact hdone
        · cases hs
      · cases hs

theorem exists_place (h : Reached s) {task : Nat} (ht : task < s.inserted) : ∃! p : Place n, s.At task p := by
  have hzero : s.runs task = 0 → ¬ s.At task .ran := fun h0 h1 => by
    have h1 : s.runs task = 1 := h1
    omega
  rcases h.placed task ht with hm | ⟨i, hi⟩ | hone
  · obtain ⟨-, h0, hno⟩ := h.tasks.pending task hm
    refine ⟨.stack, hm, fun p hp => ?_⟩
    cases p with
    | stack => rfl
    | worker j => exact absurd hp (hno j)
    | ran => exact absurd hp (hzero h0)
  · obtain ⟨-, h0, honly⟩ := h.tasks.running i task hi
    refine ⟨.worker i, hi, fun p hp => ?_⟩
    cases p with
    | stack => exact absurd hi ((h.tasks.pending task hp).2.2 i)
    | worker j => rw [honly j hp]
    | ran => exact absurd hp (hzero h0)
  · refine ⟨.ran, hone, fun p hp => ?_⟩
    cases p with
    | stack => exact absurd hone (hzero (h.tasks.pending task hp).2.1)
    | worker j => exact absurd hone (hzero (h.tasks.running j task hp).2.1)
    | ran => rfl

/-- Every task that was inserted is in one place at every moment, and when the destructor has joined the workers none of
them still runs one: what was not run is on the stack. -/
theorem accounts_for_tasks (as : List (Action n)) : Runs.Always step
    (fun s => ∀ task < s.inserted, (∃! p : Place n, s.At task p) ∧
      (s.destructor = .notified n → s.At task .stack ∨ s.At task .ran)) ({} : State n) as := by
  refine Runs.always_of_step (I := fun s => Reached s ∧ Joined s)
    (fun s a s' h hs => ⟨step_reached s a s' h.1 hs, step_joined s a s' h.2 hs⟩) ?_ as
    ⟨reached_init, fun _ h => nomatch h⟩
  rintro s ⟨hr, hj⟩ task ht
  refine ⟨exists_place hr ht, fun hd => ?_⟩
  rcases hr.placed task ht with hm | ⟨i, hi⟩ | hone
  · exact .inl hm
  · rw [hj n hd i i.isLt] at hi
    cases hi
  · exact .inr hone

end Getodac.ThreadWorker
