import Getodac.Lib.Runs
/-!
# When sessions are deleted

A session that is over is put into `m_deleteLaterObjects`, by `processEvents`, `wakeup`,
`timeout` or from inside its own coroutine, and maybe more than once; the loop deletes
what is there at the end of its iteration. Until then it is still called: it may be in
the batch of `epoll_wait` or in the copy of `m_sessions`.

The state is one loop. The actions are those of its thread, with what the kernel
answers and how the coroutine of a session goes on, and those of the threads that
register sessions. The order of a batch is any order, so it does not matter if the
loop balances its workload.
-/

namespace Getodac.Deletion

variable {Ptr : Type} [DecidableEq Ptr]

/-- A `BasicServerSession`: which one it is and where it lives. An address is used again. -/
structure Ref (Ptr : Type) where
  id : Nat
  ptr : Ptr
deriving DecidableEq, Repr

/-- The bits of a record of `epoll_wait`. -/
structure Events where
  epollIn : Bool := false
  epollPri : Bool := false
  epollOut : Bool := false
  epollErr : Bool := false
  epollRdHup : Bool := false
  epollHup : Bool := false
deriving DecidableEq, Repr

def Events.closed (e : Events) : Bool := e.epollErr || e.epollRdHup || e.epollHup

def Events.ready (e : Events) : Bool := e.epollIn || e.epollPri || e.epollOut

/-- How the coroutine of a session goes on when it is resumed. -/
inductive Outcome where
  | suspended
  | returned
  /-- An exception reaches `ServerSession::ioLoop`, which catches it and calls `deleteLater`. -/
  | threw
deriving DecidableEq, Repr

/-- Where the thread of the loop is. -/
inductive Pc (Ptr : Type) where
  | waiting
  /-- Calling `processEvents`. -/
  | events (todo : List (Ref Ptr × Events))
  /-- In the loop over the copy of `m_sessions`, before `wakeup`. -/
  | visiting (wokeup_sessions : List Ptr) (todo : List (Ref Ptr))
  /-- After it. -/
  | checking (wokeup_sessions : List Ptr) (r : Ref Ptr) (todo : List (Ref Ptr))
  /-- In the loop over `m_deleteLaterObjects`, with `m_deleteLaterMutex`. -/
  | deleting (todo : List (Ref Ptr))
  | quit
deriving DecidableEq, Repr

def Pc.isDeleting : Pc Ptr → Bool
  | .deleting _ => true
  | _ => false

inductive Fault where
  /-- A session is called, or deleted, after its deletion. -/
  | deleted
  /-- The destructor resumes the coroutine. -/
  | resumed
  /-- `deleteLater` waits for `m_deleteLaterMutex`, which its own thread has. -/
  | reentered
deriving DecidableEq, Repr

structure State (Ptr : Type) where
  quit : Bool := false
  sessions : List (Ref Ptr) := []
  deleteLaterObjects : List (Ref Ptr) := []
  /-- The sessions that `epoll_wait` reports about. -/
  epoll : List (Ref Ptr) := []
  pc : Pc Ptr := .waiting
  /-- `!m_ioYield`, by session. -/
  finished : Nat → Bool := fun _ => false
  -- history: the sessions that exist, those that were deleted, and what went wrong
  alive : List (Ref Ptr) := []
  deleted : List (Ref Ptr) := []
  faults : List Fault := []

namespace State

def fault (s : State Ptr) (f : Fault) : State Ptr := { s with faults := f :: s.faults }

def finish (s : State Ptr) (r : Ref Ptr) : State Ptr := { s with finished := Function.update s.finished r.id true }

/-- `unregisterSession`, where `EPOLL_CTL_DEL` succeeds. -/
def unregisterSession (s : State Ptr) (r : Ref Ptr) : State Ptr :=
  if ∃ t ∈ s.sessions, t.ptr = r.ptr then
    { s with sessions := s.sessions.filter (·.ptr ≠ r.ptr), epoll := s.epoll.filter (· ≠ r) }
  else s

def deleteLater (s : State Ptr) (r : Ref Ptr) : State Ptr :=
  let s := s.unregisterSession r
  let s := if s.pc.isDeleting then s.fault .reentered else s
  if ∃ t ∈ s.deleteLaterObjects, t.ptr = r.ptr then s else { s with deleteLaterObjects := r :: s.deleteLaterObjects }

/-- `m_ioYield(ec)`. -/
def resume (s : State Ptr) (r : Ref Ptr) : Outcome → State Ptr
  | .suspended => s
  | .returned => s.finish r
  | .threw => (s.deleteLater r).finish r

/-- `quitIoLoop` resumes the coroutine until it is over; `o` is how it ends. -/
def quitIoLoop (s : State Ptr) (r : Ref Ptr) (o : Outcome) : State Ptr :=
  if s.finished r.id then s else s.resume r (if o = .suspended then .returned else o)

/-- `processEvents`. No exception leaves the coroutine. -/
def processEvents (s : State Ptr) (r : Ref Ptr) (e : Events) (o : Outcome) : State Ptr :=
  if e.closed then (s.quitIoLoop r o).deleteLater r
  else if e.ready then if s.finished r.id then s.deleteLater r else s.resume r o
  else s.deleteLater r

def wakeup (s : State Ptr) (r : Ref Ptr) (o : Outcome) : State Ptr :=
  if s.finished r.id then s.deleteLater r else s.resume r o

def timeout (s : State Ptr) (r : Ref Ptr) (o : Outcome) : State Ptr := (s.quitIoLoop r o).deleteLater r

/-- `~ServerSession`. -/
def destroy (s : State Ptr) (r : Ref Ptr) (o : Outcome) : State Ptr :=
  let s := if s.finished r.id then s else (s.quitIoLoop r o).fault .resumed
  let s := s.unregisterSession r
  { s with alive := s.alive.erase r, deleted := r :: s.deleted }

/-- A call of a member function of `r`. -/
def call (s : State Ptr) (r : Ref Ptr) (f : State Ptr → State Ptr) : State Ptr :=
  if r ∈ s.alive then f s else s.fault .deleted

end State

inductive Action (Ptr : Type) where
  -- any thread
  /-- `registerSession` returns. -/
  | registerSession (r : Ref Ptr)
  | storeQuit
  -- the thread of the loop
  | epollWait (batch : List (Ref Ptr × Events))
  | processEvents (o : Outcome)
  /-- The eventfd is read and `m_sessions` copied. -/
  | copySessions (wokeup_sessions : List Ptr)
  | wakeup (o : Outcome)
  /-- `nextTimeout`, and `timeout` if it is over. -/
  | nextTimeout (expired : Bool) (o : Outcome)
  | lockDeleteLater
  | delete (o : Outcome)
  | clear
deriving DecidableEq, Repr

def step (s : State Ptr) : Action Ptr → Option (State Ptr)
  | .registerSession r =>
    if (∀ t ∈ s.alive ++ s.deleted, t.id ≠ r.id) ∧ ∀ t ∈ s.alive, t.ptr ≠ r.ptr then
      some { s with
        alive := r :: s.alive
        finished := Function.update s.finished r.id false
        sessions := r :: s.sessions
        epoll := r :: s.epoll }
    else none
  | .storeQuit => some { s with quit := true }
  | .epollWait batch =>
    match s.pc with
    | .waiting =>
      if s.quit then some { s with pc := .quit }
      -- one record for each session at most, with some of the bits
      else if (∀ x ∈ batch, x.1 ∈ s.epoll ∧ (x.2.closed || x.2.ready)) ∧ (batch.map Prod.fst).Nodup then
        some { s with pc := .events batch }
      else none
    | _ => none
  | .processEvents o =>
    match s.pc with
    | .events ((r, e) :: todo) => some { s.call r (·.processEvents r e o) with pc := .events todo }
    | _ => none
  | .copySessions wokeup_sessions =>
    match s.pc with
    | .events [] => some { s with pc := .visiting wokeup_sessions s.sessions }
    | _ => none
  | .wakeup o =>
    match s.pc with
    | .visiting w (r :: todo) =>
      some { if r.ptr ∈ w then s.call r (·.wakeup r o) else s with pc := .checking w r todo }
    | _ => none
  | .nextTimeout expired o =>
    match s.pc with
    | .checking w r todo =>
      some { s.call r (fun s => if expired then s.timeout r o else s) with pc := .visiting w todo }
    | _ => none
  | .lockDeleteLater =>
    match s.pc with
    | .visiting _ [] => some { s with pc := .deleting s.deleteLaterObjects }
    | _ => none
  | .delete o =>
    match s.pc with
    | .deleting (r :: todo) => some { s.call r (·.destroy r o) with pc := .deleting todo }
    | _ => none
  | .clear =>
    match s.pc with
    | .deleting [] => some { s with deleteLaterObjects := [], pc := .waiting }
    | _ => none

/-- No session is deleted twice or called after its deletion, no destructor resumes a coroutine, `deleteLater` is not
called by a thread that has `m_deleteLaterMutex`, and what is deleted next has finished. -/
structure Safe (s : State Ptr) : Prop where
  faults : s.faults = []
  once : s.deleted.Nodup
  finished : ∀ r todo, s.pc = .deleting (r :: todo) → s.finished r.id = true

/-! ## What the code of a session can do -/

variable {s : State Ptr} {r : Ref Ptr}

/-- Only sessions that exist are registered, each at its own address, and none of them was deleted. -/
structure Core (s : State Ptr) : Prop where
  faults : s.faults = []
  once : s.deleted.Nodup
  place : (s.alive.map (·.ptr)).Nodup
  fresh : ∀ t ∈ s.alive, t ∉ s.deleted
  registered : ∀ t ∈ s.sessions, t ∈ s.alive
  reported : ∀ t ∈ s.epoll, t ∈ s.sessions

/-- The sessions of the list can be deleted. -/
structure Deletable (s : State Ptr) (rs : List (Ref Ptr)) : Prop where
  nodup : rs.Nodup
  alive : ∀ t ∈ rs, t ∈ s.alive
  finished : ∀ t ∈ rs, s.finished t.id = true
  unregistered : ∀ t ∈ rs, t ∉ s.sessions

omit [DecidableEq Ptr] in
theorem Core.eq_of_ptr (h : Core s) {t : Ref Ptr} (ht : t ∈ s.alive) (hr : r ∈ s.alive) (hp : t.ptr = r.ptr) : t = r :=
  List.inj_on_of_nodup_map h.place ht hr hp

/-- A session that is not registered by itself is not registered by its address. -/
theorem Core.unregisterSession_eq (h : Core s) (hr : r ∈ s.alive) (hn : r ∉ s.sessions) : s.unregisterSession r = s := by
  unfold State.unregisterSession
  rw [if_neg]
  rintro ⟨t, ht, hp⟩
  rw [h.eq_of_ptr (h.registered t ht) hr hp] at ht
  exact hn ht

theorem unregisterSession_sessions (s : State Ptr) (r : Ref Ptr) :
    (s.unregisterSession r).sessions = s.sessions.filter (·.ptr ≠ r.ptr) := by
  unfold State.unregisterSession
  split
  · rfl
  · rename_i hno
    refine (List.filter_eq_self.2 fun t ht => ?_).symm
    simpa using fun hp => hno ⟨t, ht, hp⟩

@[simp] theorem unregisterSession_alive (s : State Ptr) (r : Ref Ptr) : (s.unregisterSession r).alive = s.alive := by
  unfold State.unregisterSession
  split <;> rfl

@[simp] theorem unregisterSession_pc (s : State Ptr) (r : Ref Ptr) : (s.unregisterSession r).pc = s.pc := by
  unfold State.unregisterSession
  split <;> rfl

@[simp] theorem unregisterSession_finished (s : State Ptr) (r : Ref Ptr) : (s.unregisterSession r).finished = s.finished := by
  unfold State.unregisterSession
  split <;> rfl

@[simp] theorem unregisterSession_later (s : State Ptr) (r : Ref Ptr) :
    (s.unregisterSession r).deleteLaterObjects = s.deleteLaterObjects := by
  unfold State.unregisterSession
  split <;> rfl

theorem Core.unregisterSession (h : Core s) (hr : r ∈ s.alive) : Core (s.unregisterSession r) := by
  by_cases hmem : r ∈ s.sessions
  · unfold State.unregisterSession
    rw [if_pos ⟨r, hmem, rfl⟩]
    refine ⟨h.faults, h.once, h.place, h.fresh, fun t ht => ?_, fun t ht => ?_⟩
    · exact h.registered t (List.mem_filter.1 ht).1
    · obtain ⟨ht, hne⟩ := List.mem_filter.1 ht
      have hs := h.reported t ht
      refine List.mem_filter.2 ⟨hs, decide_eq_true fun hp => ?_⟩
      exact of_decide_eq_true hne (h.eq_of_ptr (h.registered t hs) hr hp)
  · rwa [h.unregisterSession_eq hr hmem]

/-- Outside of the loop over `m_deleteLaterObjects`, `deleteLater` is what it is meant to be. -/
theorem deleteLater_eq (hpc : s.pc.isDeleting = false) :
    s.deleteLater r = if ∃ t ∈ s.deleteLaterObjects, t.ptr = r.ptr then s.unregisterSession r
      else { s.unregisterSession r with deleteLaterObjects := r :: s.deleteLaterObjects } := by
  unfold State.deleteLater
  simp only [unregisterSession_pc, hpc, Bool.false_eq_true, if_false, unregisterSession_later]

theorem deleteLater_keeps (hpc : s.pc.isDeleting = false) :
    (s.deleteLater r).alive = s.alive ∧ (s.deleteLater r).pc = s.pc ∧ (s.deleteLater r).finished = s.finished := by
  rw [deleteLater_eq hpc]
  split <;> simp

/-- Between the iterations' loops over `m_deleteLaterObjects`. -/
structure Idle (s : State Ptr) : Prop extends Core s where
  later : Deletable s s.deleteLaterObjects

theorem Idle.deleteLater (h : Idle s) (hpc : s.pc.isDeleting = false) (hr : r ∈ s.alive) (hf : s.finished r.id = true) :
    Idle (s.deleteLater r) := by
  have hout : ∀ t ∈ (s.unregisterSession r).sessions, t ∈ s.sessions ∧ t.ptr ≠ r.ptr := by
    intro t ht
    rw [unregisterSession_sessions] at ht
    exact ⟨(List.mem_filter.1 ht).1, of_decide_eq_true (List.mem_filter.1 ht).2⟩
  have hcore := h.toCore.unregisterSession hr
  have hlater : Deletable (s.unregisterSession r) s.deleteLaterObjects := by
    refine ⟨h.later.nodup, fun t ht => ?_, fun t ht => ?_, fun t ht hmem => ?_⟩
    · rw [unregisterSession_alive]
      exact h.later.alive t ht
    · rw [unregisterSession_finished]
      exact h.later.finished t ht
    · exact h.later.unregistered t ht (hout t hmem).1
  rw [deleteLater_eq hpc]
  split
  · exact ⟨hcore, by rwa [unregisterSession_later]⟩
  · rename_i hnew
    refine ⟨⟨hcore.faults, hcore.once, hcore.place, hcore.fresh, hcore.registered, hcore.reported⟩, ?_⟩
    refine ⟨List.nodup_cons.2 ⟨fun hmem => hnew ⟨r, hmem, rfl⟩, hlater.nodup⟩, ?_, ?_, ?_⟩
    · exact List.forall_mem_cons.2 ⟨by rwa [← unregisterSession_alive s r] at hr, hlater.alive⟩
    · exact List.forall_mem_cons.2 ⟨by rwa [← unregisterSession_finished s r] at hf, hlater.finished⟩
    · exact List.forall_mem_cons.2 ⟨fun hmem => (hout r hmem).2 rfl, hlater.unregistered⟩

omit [DecidableEq Ptr] in
theorem Idle.finish (h : Idle s) (r : Ref Ptr) : Idle (s.finish r) := by
  refine ⟨⟨h.faults, h.once, h.place, h.fresh, h.registered, h.reported⟩, h.later.nodup, h.later.alive, fun t ht => ?_,
    h.later.unregistered⟩
  by_cases hid : t.id = r.id
  · simp [State.finish, hid]
  · simpa [State.finish, hid] using h.later.finished t ht

omit [DecidableEq Ptr] in
theorem finish_finished (s : State Ptr) (r : Ref Ptr) : (s.finish r).finished r.id = true := by
  simp [State.finish]

/-- It makes no difference that the coroutine calls `deleteLater` shortly before it is over. -/
theorem deleteLater_finish (s : State Ptr) (r : Ref Ptr) : (s.deleteLater r).finish r = (s.finish r).deleteLater r := by
  unfold State.deleteLater State.unregisterSession State.finish State.fault
  dsimp only
  split <;> split <;> split <;> simp_all

/-- Code of `r` has run in `s`, outside of the loop over `m_deleteLaterObjects`. -/
structure Ran (s s' : State Ptr) : Prop where
  idle : Idle s'
  alive : s'.alive = s.alive
  pc : s'.pc = s.pc

theorem Ran.deleteLater {s' : State Ptr} (h : Ran s s') (hpc : s.pc.isDeleting = false) (hr : r ∈ s.alive)
    (hf : s'.finished r.id = true) : Ran s (s'.deleteLater r) := by
  have hpc' : s'.pc.isDeleting = false := by rw [h.pc, hpc]
  obtain ⟨ha, hp, -⟩ := deleteLater_keeps (r := r) hpc'
  exact ⟨h.idle.deleteLater hpc' (h.alive ▸ hr) hf, ha.trans h.alive, hp.trans h.pc⟩

omit [DecidableEq Ptr] in
theorem Ran.finish {s' : State Ptr} (h : Ran s s') (r : Ref Ptr) : Ran s (s'.finish r) := ⟨h.idle.finish r, h.alive, h.pc⟩

omit [DecidableEq Ptr] in
theorem Idle.ran (h : Idle s) : Ran s s := ⟨h, rfl, rfl⟩

theorem Idle.resume (h : Idle s) (hpc : s.pc.isDeleting = false) (hr : r ∈ s.alive) (o : Outcome) : Ran s (s.resume r o) := by
  cases o with
  | suspended => exact h.ran
  | returned => exact h.ran.finish r
  | threw =>
    rw [State.resume, deleteLater_finish]
    exact (h.ran.finish r).deleteLater hpc hr (finish_finished s r)

/-- After `quitIoLoop` the coroutine is over. -/
theorem Idle.quitIoLoop (h : Idle s) (hpc : s.pc.isDeleting = false) (hr : r ∈ s.alive) (o : Outcome) :
    Ran s (s.quitIoLoop r o) ∧ (s.quitIoLoop r o).finished r.id = true := by
  unfold State.quitIoLoop
  split
  · exact ⟨h.ran, ‹_›⟩
  · refine ⟨h.resume hpc hr _, ?_⟩
    cases o <;> exact finish_finished _ r

theorem Idle.wakeup (h : Idle s) (hpc : s.pc.isDeleting = false) (hr : r ∈ s.alive) (o : Outcome) : Ran s (s.wakeup r o) := by
  unfold State.wakeup
  split
  · exact h.ran.deleteLater hpc hr ‹_›
  · exact h.resume hpc hr o

theorem Idle.timeout (h : Idle s) (hpc : s.pc.isDeleting = false) (hr : r ∈ s.alive) (o : Outcome) : Ran s (s.timeout r o) := by
  obtain ⟨hran, hf⟩ := h.quitIoLoop hpc hr o
  exact hran.deleteLater hpc hr hf

theorem Idle.processEvents (h : Idle s) (hpc : s.pc.isDeleting = false) (hr : r ∈ s.alive) {e : Events}
    (he : (e.closed || e.ready) = true) (o : Outcome) : Ran s (s.processEvents r e o) := by
  unfold State.processEvents
  split
  · exact h.timeout hpc hr o
  · split
    · exact h.wakeup hpc hr o
    · -- a record has some of the bits
      simp_all

theorem call_alive (hr : r ∈ s.alive) (f : State Ptr → State Ptr) : s.call r f = f s := if_pos hr

/-! ## Every run -/

/-- What holds where the loop is. -/
def Inv (s : State Ptr) : Prop :=
  match s.pc with
  | .waiting | .quit => Idle s
  | .events todo => Idle s ∧ ∀ x ∈ todo, x.1 ∈ s.alive ∧ (x.2.closed || x.2.ready) = true
  | .visiting _ todo => Idle s ∧ ∀ t ∈ todo, t ∈ s.alive
  | .checking _ r todo => Idle s ∧ ∀ t ∈ r :: todo, t ∈ s.alive
  | .deleting todo => Core s ∧ Deletable s todo

omit [DecidableEq Ptr] in
theorem inv_init : Inv ({} : State Ptr) where
  faults := rfl
  once := List.nodup_nil
  place := List.nodup_nil
  fresh := by simp
  registered := by simp
  reported := by simp
  later := ⟨List.nodup_nil, by simp, by simp, by simp⟩

/-! ### Registration -/

/-- A new session, with an address that no session has. -/
def State.register (s : State Ptr) (r : Ref Ptr) : State Ptr :=
  { s with
    alive := r :: s.alive
    finished := Function.update s.finished r.id false
    sessions := r :: s.sessions
    epoll := r :: s.epoll }

omit [DecidableEq Ptr] in
theorem Core.register (h : Core s) (hid : ∀ t ∈ s.alive ++ s.deleted, t.id ≠ r.id) (hptr : ∀ t ∈ s.alive, t.ptr ≠ r.ptr) :
    Core (s.register r) where
  faults := h.faults
  once := h.once
  place := List.nodup_cons.2 ⟨fun hmem => by
    obtain ⟨t, ht, hp⟩ := List.mem_map.1 hmem
    exact hptr t ht hp, h.place⟩
  fresh := List.forall_mem_cons.2 ⟨fun hmem => hid r (List.mem_append_right _ hmem) rfl, h.fresh⟩
  registered := List.forall_mem_cons.2 ⟨List.mem_cons_self, fun t ht => List.mem_cons_of_mem _ (h.registered t ht)⟩
  reported := List.forall_mem_cons.2 ⟨List.mem_cons_self, fun t ht => List.mem_cons_of_mem _ (h.reported t ht)⟩

omit [DecidableEq Ptr] in
theorem Deletable.register {rs : List (Ref Ptr)} (h : Deletable s rs) (hid : ∀ t ∈ s.alive ++ s.deleted, t.id ≠ r.id) :
    Deletable (s.register r) rs := by
  have hne : ∀ t ∈ rs, t.id ≠ r.id := fun t ht => hid t (List.mem_append_left _ (h.alive t ht))
  refine ⟨h.nodup, fun t ht => List.mem_cons_of_mem _ (h.alive t ht), fun t ht => ?_, fun t ht hmem => ?_⟩
  · simpa [State.register, hne t ht] using h.finished t ht
  · rcases List.mem_cons.1 hmem with rfl | hmem
    · exact hne t ht rfl
    · exact h.unregistered t ht hmem

omit [DecidableEq Ptr] in
theorem Inv.register (h : Inv s) (hid : ∀ t ∈ s.alive ++ s.deleted, t.id ≠ r.id) (hptr : ∀ t ∈ s.alive, t.ptr ≠ r.ptr) :
    Inv (s.register r) := by
  have hidle : Idle s → Idle (s.register r) := fun h => ⟨h.toCore.register hid hptr, h.later.register hid⟩
  have hpc : (s.register r).pc = s.pc := rfl
  unfold Inv at h ⊢
  rw [hpc]
  split at h
  · exact hidle h
  · exact hidle h
  · exact ⟨hidle h.1, fun x hx => ⟨List.mem_cons_of_mem _ (h.2 x hx).1, (h.2 x hx).2⟩⟩
  · exact ⟨hidle h.1, fun t ht => List.mem_cons_of_mem _ (h.2 t ht)⟩
  · exact ⟨hidle h.1, fun t ht => List.mem_cons_of_mem _ (h.2 t ht)⟩
  · exact ⟨h.1.register hid hptr, h.2.register hid⟩

/-! ### Deletion -/

/-- The destructor of a session that can be deleted only deletes it. -/
theorem destroy_eq {todo : List (Ref Ptr)} (h : Core s) (hd : Deletable s (r :: todo)) (o : Outcome) :
    s.destroy r o = { s with alive := s.alive.erase r, deleted := r :: s.deleted } := by
  unfold State.destroy
  simp only [hd.finished r List.mem_cons_self, if_true,
    h.unregisterSession_eq (hd.alive r List.mem_cons_self) (hd.unregistered r List.mem_cons_self)]

theorem Core.destroy {todo : List (Ref Ptr)} (h : Core s) (hd : Deletable s (r :: todo)) :
    Core { s with alive := s.alive.erase r, deleted := r :: s.deleted, pc := .deleting todo } ∧
    Deletable { s with alive := s.alive.erase r, deleted := r :: s.deleted, pc := .deleting todo } todo := by
  have hr : r ∈ s.alive := hd.alive r List.mem_cons_self
  have hnd : s.alive.Nodup := h.place.of_map
  have hgone : ∀ t ∈ s.alive.erase r, t ∈ s.alive ∧ t ≠ r := by
    intro t ht
    exact ⟨List.mem_of_mem_erase ht, (hnd.mem_erase_iff.1 ht).1⟩
  obtain ⟨hnot, htodo⟩ := List.nodup_cons.1 hd.nodup
  refine ⟨⟨h.faults, ?_, ?_, fun t ht hmem => ?_, fun t ht => ?_, h.reported⟩, htodo, fun t ht => ?_,
    fun t ht => hd.finished t (List.mem_cons_of_mem _ ht), fun t ht => hd.unregistered t (List.mem_cons_of_mem _ ht)⟩
  · exact List.nodup_cons.2 ⟨h.fresh r hr, h.once⟩
  · exact h.place.sublist (List.erase_sublist.map _)
  · rcases List.mem_cons.1 hmem with rfl | hmem
    · exact (hgone t ht).2 rfl
    · exact h.fresh t (hgone t ht).1 hmem
  · refine (List.mem_erase_of_ne ?_).2 (h.registered t ht)
    rintro rfl
    exact hd.unregistered t List.mem_cons_self ht
  · refine (List.mem_erase_of_ne ?_).2 (hd.alive t (List.mem_cons_of_mem _ ht))
    rintro rfl
    exact hnot ht

/-! ### All steps -/

omit [DecidableEq Ptr] in
theorem Core.set (h : Core s) (pc : Pc Ptr) (quit : Bool) : Core { s with pc := pc, quit := quit } :=
  ⟨h.faults, h.once, h.place, h.fresh, h.registered, h.reported⟩

omit [DecidableEq Ptr] in
theorem Deletable.set {rs : List (Ref Ptr)} (h : Deletable s rs) (pc : Pc Ptr) (quit : Bool) :
    Deletable { s with pc := pc, quit := quit } rs :=
  ⟨h.nodup, h.alive, h.finished, h.unregistered⟩

omit [DecidableEq Ptr] in
theorem Idle.setPc (h : Idle s) (pc : Pc Ptr) : Idle { s with pc := pc } := ⟨h.toCore.set pc s.quit, h.later.set pc s.quit⟩

omit [DecidableEq Ptr] in
theorem Inv.storeQuit (h : Inv s) : Inv { s with quit := true } := by
  have hidle : Idle s → Idle { s with quit := true } := fun h => ⟨h.toCore.set s.pc true, h.later.set s.pc true⟩
  unfold Inv at h ⊢
  dsimp only
  split at h
  · exact hidle h
  · exact hidle h
  · exact ⟨hidle h.1, h.2⟩
  · exact ⟨hidle h.1, h.2⟩
  · exact ⟨hidle h.1, h.2⟩
  · exact ⟨h.1.set s.pc true, h.2.set s.pc true⟩

theorem step_inv (s : State Ptr) (a : Action Ptr) (s' : State Ptr) (h : Inv s) (hs : step s a = some s') : Inv s' := by
  cases a with
  | registerSession r =>
    simp only [step] at hs
    split at hs
    · rename_i hnew
      cases hs
      exact h.register hnew.1 hnew.2
    · cases hs
  | storeQuit =>
    cases hs
    exact h.storeQuit
  | epollWait batch =>
    simp only [step] at hs
    split at hs
    · rename_i hpc
      have hidle : Idle s := by simpa only [Inv, hpc] using h
      split at hs
      · cases hs
        exact hidle.setPc .quit
      · split at hs
        · rename_i hbatch
          cases hs
          refine ⟨hidle.setPc (.events batch), fun x hx => ⟨?_, (hbatch.1 x hx).2⟩⟩
          exact hidle.registered _ (hidle.reported _ (hbatch.1 x hx).1)
        · cases hs
    · cases hs
  | processEvents o =>
    simp only [step] at hs
    split at hs
    · rename_i r e todo hpc
      cases hs
      obtain ⟨hidle, htodo⟩ : Idle s ∧ _ := by simpa only [Inv, hpc] using h
      obtain ⟨hr, he⟩ := htodo (r, e) List.mem_cons_self
      rw [call_alive hr]
      have hran := hidle.processEvents (by rw [hpc]; rfl) hr he o
      refine ⟨hran.idle.setPc (.events todo), fun x hx => ?_⟩
      rw [hran.alive]
      exact htodo x (List.mem_cons_of_mem _ hx)
    · cases hs
  | copySessions w =>
    simp only [step] at hs
    split at hs
    · rename_i hpc
      cases hs
      have hidle : Idle s := (by simpa only [Inv, hpc] using h : Idle s ∧ _).1
      exact ⟨hidle.setPc (.visiting w s.sessions), hidle.registered⟩
    · cases hs
  | wakeup o =>
    simp only [step] at hs
    split at hs
    · rename_i w r todo hpc
      cases hs
      obtain ⟨hidle, htodo⟩ : Idle s ∧ _ := by simpa only [Inv, hpc] using h
      have hr := htodo r List.mem_cons_self
      rw [call_alive hr]
      have hran : Ran s (if r.ptr ∈ w then s.wakeup r o else s) := by
        split
        · exact hidle.wakeup (by rw [hpc]; rfl) hr o
        · exact hidle.ran
      refine ⟨hran.idle.setPc (.checking w r todo), fun t ht => ?_⟩
      rw [hran.alive]
      exact htodo t ht
    · cases hs
  | nextTimeout expired o =>
    simp only [step] at hs
    split at hs
    · rename_i w r todo hpc
      cases hs
      obtain ⟨hidle, htodo⟩ : Idle s ∧ _ := by simpa only [Inv, hpc] using h
      have hr := htodo r List.mem_cons_self
      rw [call_alive hr]
      have hran : Ran s (if expired = true then s.timeout r o else s) := by
        split
        · exact hidle.timeout (by rw [hpc]; rfl) hr o
        · exact hidle.ran
      refine ⟨hran.idle.setPc (.visiting w todo), fun t ht => ?_⟩
      rw [hran.alive]
      exact htodo t (List.mem_cons_of_mem _ ht)
    · cases hs
  | lockDeleteLater =>
    simp only [step] at hs
    split at hs
    · rename_i w hpc
      cases hs
      have hidle : Idle s := (by simpa only [Inv, hpc] using h : Idle s ∧ _).1
      have hset := hidle.setPc (.deleting s.deleteLaterObjects)
      exact ⟨hset.toCore, hset.later⟩
    · cases hs
  | delete o =>
    simp only [step] at hs
    split at hs
    · rename_i r todo hpc
      cases hs
      obtain ⟨hcore, hdel⟩ : Core s ∧ Deletable s (r :: todo) := by simpa only [Inv, hpc] using h
      rw [call_alive (hdel.alive r List.mem_cons_self), destroy_eq hcore hdel]
      exact hcore.destroy hdel
    · cases hs
  | clear =>
    simp only [step] at hs
    split at hs
    · rename_i hpc
      cases hs
      have hcore : Core s := (by simpa only [Inv, hpc] using h : Core s ∧ _).1
      exact ⟨⟨hcore.faults, hcore.once, hcore.place, hcore.fresh, hcore.registered, hcore.reported⟩, List.nodup_nil,
        by simp, by simp, by simp⟩
    · cases hs

omit [DecidableEq Ptr] in
theorem Inv.safe (h : Inv s) : Safe s := by
  unfold Inv at h
  split at h
  · exact ⟨h.faults, h.once, fun r todo hpc => by simp_all⟩
  · exact ⟨h.faults, h.once, fun r todo hpc => by simp_all⟩
  · exact ⟨h.1.faults, h.1.once, fun r todo hpc => by simp_all⟩
  · exact ⟨h.1.faults, h.1.once, fun r todo hpc => by simp_all⟩
  · exact ⟨h.1.faults, h.1.once, fun r todo hpc => by simp_all⟩
  · rename_i todo' hpc'
    refine ⟨h.1.faults, h.1.once, fun r todo hpc => ?_⟩
    rw [hpc'] at hpc
    cases hpc
    exact h.2.finished r List.mem_cons_self

/-- Sessions are deleted once and last, and their coroutines have finished, in every run. -/
theorem deleted_last (as : List (Action Ptr)) : Runs.Always step Safe ({} : State Ptr) as :=
  Runs.always_of_step step_inv (fun _ h => h.safe) as inv_init

/-- A session dies in `wakeup`, is timed out as well, and is deleted once. -/
example : (Runs.exec step ({} : State Nat) [.registerSession ⟨0, 7⟩, .epollWait [], .copySessions [7], .wakeup .threw,
    .nextTimeout true .returned, .lockDeleteLater, .delete .returned, .clear]).map (fun s => (s.deleted, s.sessions, s.faults)) =
    some ([⟨0, 7⟩], [], []) := by
  decide

end Getodac.Deletion
