import Getodac.Lib.Runs
import Getodac.Write
/-!
# The lock of the static content cache

`static_content_session` takes `s_filesCacheMutex` for its look-up and keeps it
until it returns, over the writes of the response. The state is one event-loop
thread with its coroutines, of which at most one runs; all others are suspended
in a yield. Other threads (another loop, the timer) take the lock too.

A coroutine suspended in one of these writes still owns the lock
(`suspended_owner`); `lock_free_iff` says that this is the only way.
-/

namespace Getodac.FilesCache

inductive Owner where
  | session (i : Nat)
  | other
deriving DecidableEq, Repr

/-- Where a coroutine is. -/
inductive Pc where
  /-- In `ioLoop`, but not in `static_content_session`. -/
  | outside
  /-- In `stream >> req`. -/
  | reading
  /-- From there to the lock: the path, the guard, the default file. -/
  | resolving
  /-- Looking up and mapping the file; owns the lock. -/
  | looking
  /-- In `BasicHttpSession::write` with `left` bytes to go and `body` bytes in the next
  buffer; owns the lock. -/
  | writing (left body : Nat)
deriving DecidableEq, Repr

def Pc.locked : Pc → Bool
  | .looking | .writing _ _ => true
  | _ => false

structure Thread where
  pc : Nat → Pc := fun _ => .outside
  running : Option Nat := none
  owner : Option Owner := none

inductive Action where
  /-- The loop resumes coroutine `i`, whose yield returns `ec`. -/
  | resume (i : Nat) (ec : Option ErrorCode)
  /-- The running coroutine yields outside the locked region. -/
  | yield
  /-- The handler starts, and `stream >> req` returns. -/
  | enter
  | readDone
  | lock
  /-- The file is mapped, and `stream << res` and `stream.write` have this much to send. -/
  | found (head body : Nat) (pos : 0 < head)
  | writeSome (r : WriteResult)
  | bufferSent
  /-- Any statement of the handler throws. -/
  | throw
  | otherLock
  | otherUnlock
deriving Repr

namespace Thread

def move (t : Thread) (i : Nat) (pc : Pc) : Thread := { t with pc := Function.update t.pc i pc }

/-- The handler is left, by its end or by an exception: `unique_lock` unlocks. -/
def leave (t : Thread) (i : Nat) : Thread :=
  { t.move i .outside with owner := if t.owner = some (.session i) then none else t.owner }

def suspend (t : Thread) : Thread := { t with running := none }

end Thread

/-- A step of the running coroutine `i`. -/
def stepOf (t : Thread) (i : Nat) : Action → Option Thread
  | .yield => if (t.pc i = .outside ∨ t.pc i = .reading) then some t.suspend else none
  | .enter => if t.pc i = .outside then some (t.move i .reading) else none
  | .readDone => if t.pc i = .reading then some (t.move i .resolving) else none
  | .lock =>
    if t.pc i = .resolving ∧ t.owner = none then some { t.move i .looking with owner := some (.session i) } else none
  | .found head body _ => if t.pc i = .looking then some (t.move i (.writing head body)) else none
  | .writeSome r =>
    match t.pc i with
    | .writing (left + 1) body =>
      match r with
      | .room k _ => some (t.move i (.writing (left + 1 - k) body))
      | .again _ => some t.suspend
      | .failed _ => some (t.leave i)
    | _ => none
  | .bufferSent =>
    match t.pc i with
    | .writing 0 0 => some (t.leave i)
    | .writing 0 (body + 1) => some (t.move i (.writing (body + 1) 0))
    | _ => none
  | .throw => if t.pc i = .outside then none else some (t.leave i)
  | _ => none

def step (t : Thread) (a : Action) : Option Thread :=
  match a, t.running with
  | .otherLock, _ => if t.owner = none then some { t with owner := some .other } else none
  | .otherUnlock, _ => if t.owner = some .other then some { t with owner := none } else none
  | .resume i ec, none =>
    -- a yield of `read` or `write` that returns an error throws it
    some { (if ec = none then t else t.leave i) with running := some i }
  | .resume _ _, some _ => none
  | a, some i => stepOf t i a
  | _, none => none

/-- No suspended coroutine owns the lock, so none that runs into `lock` waits for one that is suspended. -/
def LockFree (t : Thread) : Prop :=
  (∀ i, t.running ≠ some i → t.owner ≠ some (.session i)) ∧
  ∀ i, t.running = some i → t.pc i = .resolving → ∀ j, t.running ≠ some j → t.owner ≠ some (.session j)

/-- The step is not a would-block of a write made under the lock. -/
def NoBlock (t : Thread) : Action → Prop
  | .writeSome (.again _) => ∀ i, t.running = some i → ∀ left body, t.pc i ≠ .writing (left + 1) body
  | _ => True

/-! ## The coroutine inside the locked region owns the lock -/

def Owned (t : Thread) : Prop := ∀ i, t.owner = some (.session i) ↔ (t.pc i).locked = true

theorem owned_init : Owned {} := by intro i; simp [Pc.locked]

theorem owned_move {t : Thread} (h : Owned t) {i : Nat} {pc : Pc} (hp : pc.locked = (t.pc i).locked) :
    Owned (t.move i pc) := by
  intro j
  by_cases hj : j = i
  · subst hj; simpa [Thread.move, hp] using h j
  · simpa [Thread.move, Function.update_of_ne hj] using h j

theorem owned_leave {t : Thread} (h : Owned t) (i : Nat) : Owned (t.leave i) := by
  intro j
  by_cases hj : j = i
  · subst hj
    simp only [Thread.leave, Thread.move, Function.update_self, Pc.locked, Bool.false_eq_true, iff_false]
    split
    · simp
    · assumption
  · simp only [Thread.leave, Thread.move, Function.update_of_ne hj, ← h j]
    split
    · rename_i ho; simp [ho, Ne.symm hj]
    · exact Iff.rfl

/-- What a step of the running coroutine can do: it moves and keeps what it
owns, leaves the handler, takes the free lock, or is suspended. -/
theorem stepOf_cases {t t' : Thread} {i : Nat} {a : Action} (h : stepOf t i a = some t') :
    (∃ pc, t' = t.move i pc ∧ pc.locked = (t.pc i).locked ∧ NoBlock t a) ∨
    (t' = t.leave i ∧ NoBlock t a) ∨
    (t.owner = none ∧ t' = { t.move i .looking with owner := some (.session i) } ∧ NoBlock t a) ∨
    (t' = t.suspend ∧ (t.pc i).locked = false ∧ NoBlock t a) ∨
    (∃ resume left body, t' = t.suspend ∧ a = .writeSome (.again resume) ∧ t.pc i = .writing (left + 1) body) := by
  cases a with
  | yield =>
    simp only [stepOf] at h
    split at h
    · rename_i hp
      cases h
      exact .inr (.inr (.inr (.inl ⟨rfl, by rcases hp with h | h <;> simp [h, Pc.locked], trivial⟩)))
    · cases h
  | enter | readDone | found =>
    simp only [stepOf] at h
    split at h
    · rename_i hp; cases h; exact .inl ⟨_, rfl, by simp [hp, Pc.locked], trivial⟩
    · cases h
  | lock =>
    simp only [stepOf] at h
    split at h
    · rename_i hp; cases h; exact .inr (.inr (.inl ⟨hp.2, rfl, trivial⟩))
    · cases h
  | writeSome r =>
    simp only [stepOf] at h
    split at h
    case h_2 => cases h
    case h_1 left body hp =>
      cases r with
      | room k hk => cases h; exact .inl ⟨_, rfl, by simp [hp, Pc.locked], trivial⟩
      | again resume => cases h; exact .inr (.inr (.inr (.inr ⟨resume, left, body, rfl, rfl, hp⟩)))
      | failed ec => cases h; exact .inr (.inl ⟨rfl, trivial⟩)
  | bufferSent =>
    simp only [stepOf] at h
    split at h
    · cases h; exact .inr (.inl ⟨rfl, trivial⟩)
    · rename_i hp; cases h; exact .inl ⟨_, rfl, by simp [hp, Pc.locked], trivial⟩
    · cases h
  | throw =>
    simp only [stepOf] at h
    split at h
    · cases h
    · cases h; exact .inr (.inl ⟨rfl, trivial⟩)
  | resume | otherLock | otherUnlock => cases h

/-- What a step can do: a step of the running coroutine, a resumption, or a step of another thread. -/
theorem step_cases {t t' : Thread} {a : Action} (h : step t a = some t') :
    (∃ i, t.running = some i ∧ stepOf t i a = some t') ∨
    (∃ (i : Nat) (ec : Option ErrorCode), t.running = none ∧
      t' = { (if ec = none then t else t.leave i) with running := some i } ∧ NoBlock t a) ∨
    (t.owner = none ∧ t' = { t with owner := some .other } ∧ NoBlock t a) ∨
    (t.owner = some .other ∧ t' = { t with owner := none } ∧ NoBlock t a) := by
  unfold step at h
  split at h
  · split at h
    · rename_i ho; cases h; exact .inr (.inr (.inl ⟨ho, rfl, trivial⟩))
    · cases h
  · split at h
    · rename_i ho; cases h; exact .inr (.inr (.inr ⟨ho, rfl, trivial⟩))
    · cases h
  · rename_i hr; cases h; exact .inr (.inl ⟨_, _, hr, rfl, trivial⟩)
  · cases h
  · rename_i hr; exact .inl ⟨_, hr, h⟩
  · cases h

theorem step_owned {t t' : Thread} {a : Action} (ho : Owned t) (h : step t a = some t') : Owned t' := by
  rcases step_cases h with ⟨i, -, h⟩ | ⟨i, ec, -, rfl, -⟩ | ⟨hn, rfl, -⟩ | ⟨hn, rfl, -⟩
  · rcases stepOf_cases h with ⟨pc, rfl, hp, -⟩ | ⟨rfl, -⟩ | ⟨hn, rfl, -⟩ | ⟨rfl, -⟩ | ⟨_, _, _, rfl, -⟩
    · exact owned_move ho hp
    · exact owned_leave ho i
    · intro j
      have hj := ho j
      by_cases hji : j = i
      · subst hji; simp [Thread.move, Pc.locked]
      · rw [hn] at hj
        simpa [Thread.move, Function.update_of_ne hji, Ne.symm hji] using hj
    · exact ho
    · exact ho
  · split
    · exact ho
    · exact owned_leave ho i
  · intro j; have hj := ho j; rw [hn] at hj; simpa using hj
  · intro j; have hj := ho j; rw [hn] at hj; simpa using hj

theorem lockFree_iff {t : Thread} :
    LockFree t ↔ ∀ i, t.running ≠ some i → t.owner ≠ some (.session i) :=
  ⟨fun h => h.1, fun h => ⟨h, fun _ _ _ => h⟩⟩

/-- A step keeps the lock free of suspended owners exactly if it is no would-block under the lock. -/
theorem step_lockFree {t : Thread} {a : Action} {t' : Thread} (ho : Owned t) (hf : LockFree t)
    (h : step t a = some t') : LockFree t' ↔ NoBlock t a := by
  rw [lockFree_iff] at hf ⊢
  rcases step_cases h with ⟨i, hr, hs⟩ | ⟨i, ec, hr, rfl, hb⟩ | ⟨hn, rfl, hb⟩ | ⟨hn, rfl, hb⟩
  · rcases stepOf_cases hs with ⟨pc, rfl, hp, hb⟩ | ⟨rfl, hb⟩ | ⟨hn, rfl, hb⟩ | ⟨rfl, hl, hb⟩ |
      ⟨resume, left, body, rfl, rfl, hp⟩
    · exact iff_of_true hf hb
    · refine iff_of_true (fun j hj => ?_) hb
      simp only [Thread.leave]
      split
      · simp
      · exact hf j hj
    · refine iff_of_true (fun j hj => ?_) hb
      rintro ⟨⟩
      exact hj hr
    · refine iff_of_true (fun j _ hj => ?_) hb
      by_cases hji : j = i
      · subst hji
        have hjl := (ho j).mp hj
        rw [hl] at hjl
        cases hjl
      · exact hf j (by rw [hr]; simpa using Ne.symm hji) hj
    · -- the coroutine is at a write, so it owns the lock it is suspended with
      refine iff_of_false (fun hall => ?_) (fun hb => hb i hr left body hp)
      exact hall i (by simp [Thread.suspend]) ((ho i).mpr (by rw [hp]; rfl))
  · refine iff_of_true (fun j _ => ?_) hb
    have hj : t.owner ≠ some (.session j) := hf j (by rw [hr]; simp)
    split
    · exact hj
    · simp only [Thread.leave]
      split
      · simp
      · exact hj
  · exact iff_of_true (fun j _ => by simp) hb
  · exact iff_of_true (fun j _ => by simp) hb

theorem noBlock_of_disabled {t : Thread} {a : Action} (h : step t a = none) : NoBlock t a := by
  unfold NoBlock
  split
  · intro i hr left body hp
    simp [step, hr, stepOf, hp] at h
  · trivial

/-! ## Every run -/

/-- In a run, no coroutine is ever suspended with the lock exactly if no write made under the lock would block. -/
theorem lock_free_iff (acts : List Action) :
    Runs.Always step LockFree {} acts ↔ Runs.Along step NoBlock {} acts := by
  refine Runs.always_iff_along (I := Owned) (fun _ _ _ => step_owned) (fun _ _ _ => step_lockFree)
    (fun _ _ _ => noBlock_of_disabled) acts owned_init ?_
  exact lockFree_iff.mpr (fun i _ => by simp)

/-- One session and one write that would block: the coroutine is suspended with the lock. The next
session of the thread then runs up to the lock and cannot take it, and no other runs. -/
theorem suspended_owner :
    ∃ acts t, Runs.exec step {} acts = some t ∧ ¬ Runs.Always step LockFree {} acts ∧
      t.owner = some (.session 0) ∧ t.running = some 1 ∧ t.pc 1 = .resolving ∧ step t .lock = none := by
  refine ⟨[.resume 0 none, .enter, .readDone, .lock, .found 1 0 (by decide), .writeSome (.again none),
    .resume 1 none, .enter, .readDone], _, rfl, fun h => ?_, rfl, rfl, rfl, rfl⟩
  have hs := h.2.2.2.2.2.2.1.1
  exact hs 0 (fun h => by cases h) rfl

end Getodac.FilesCache
