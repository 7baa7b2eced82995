import Getodac.Lib.Components
import Getodac.Lib.EdgeTriggered
import Getodac.Retention
import Getodac.Wakeups
/-!
# The end of `Server::exec`

When `m_shutdown` is set, `exec` calls `shutdown` of every event loop and destroys the
loops, the last one first. `~SessionsEventLoop` calls `shutdown` again, joins its
thread and deletes the sessions that are left; then `exec` deletes what is in
`m_activeSessions`, in a loop over the set itself, out of which every deletion takes an
element.

The state has the main thread, from its accept loop on, and all loops with their
threads and eventfds. A coroutine that is resumed may never come back, and then the
thread that resumed it is stuck. `shuts_down_cleanly`: every session is deleted once,
and the last loop has nothing to do.

`registerSession` lets go of the mutex of `m_sessions` before it asks the session for
its socket. A loop that has handed the session to `deleteLater` by then may have deleted
it; `Adds` leaves that out.
-/

namespace Getodac.Shutdown

open Deletion (Ref Events Sound)

variable {n : Nat} {Ptr : Type} [DecidableEq Ptr]

/-! ## One loop -/

/-- A `SessionsEventLoop`, its thread and its eventfd. -/
structure Loop (Ptr : Type) where
  /-- The thread looks at `m_quit` in `test`, so the state's own is not used. -/
  state : Deletion.State Ptr := {}
  quit : Bool := false
  /-- The thread is in `epoll_wait`. -/
  inside : Bool := false
  counter : Nat := 0
  /-- `epoll_wait` has not reported the last write to the eventfd. -/
  edge : Bool := false
  /-- The variable of the thread, as long as it has not read the eventfd until there was nothing. -/
  wokeup : Bool := false
  /-- The coroutine that the thread resumed last does not come back. -/
  stuck : Bool := false

inductive Thread (Ptr : Type) where
  /-- `while (!m_quit)`. -/
  | test
  | epollWait (wokeup : Bool) (batch : List (Ref Ptr × Events))
  /-- `epoll_wait` returns -1. -/
  | interrupted
  | eventfdRead
  | run (a : Deletion.Action Ptr)
  /-- The code of the next session never returns. -/
  | stall
deriving DecidableEq, Repr

namespace Loop

/-- `eventfd_write`, which is an event if it succeeds. -/
def write (l : Loop Ptr) (v : Nat) : Loop Ptr :=
  { l with
    counter := Wakeups.eventfdWrite l.counter v
    edge := l.edge || decide (l.counter + v ≤ 2 ^ 64 - 2) }

/-- The next step of a thread that is not stuck. -/
def act (l : Loop Ptr) : Thread Ptr → Option (Loop Ptr)
  | .test =>
    if l.state.pc = .waiting ∧ l.inside = false then
      if l.quit then some { l with state := { l.state with pc := .quit } } else some { l with inside := true }
    else none
  | .epollWait wokeup batch =>
    if l.inside = true ∧ (wokeup = true → l.edge = true) then
      (Deletion.step l.state (.epollWait batch)).map fun s =>
        { l with state := s, inside := false, wokeup := wokeup, edge := l.edge && !wokeup }
    else none
  | .interrupted => if l.inside = true then some { l with inside := false } else none
  | .eventfdRead =>
    if l.state.pc = .events [] ∧ l.wokeup = true then
      if l.counter = 0 then some { l with wokeup := false } else some { l with counter := 0 }
    else none
  | .run a =>
    match a with
    | .registerSession _ | .storeQuit | .epollWait _ => none
    | .copySessions _ =>
      if l.wokeup = false then (Deletion.step l.state a).map fun s => { l with state := s } else none
    | a => (Deletion.step l.state a).map fun s => { l with state := s }
  | .stall =>
    match l.state.pc with
    | .events (_ :: _) | .visiting _ (_ :: _) | .checking _ _ _ => some { l with stuck := true }
    | .waiting | .events [] | .visiting _ [] | .deleting _ | .quit => none

def step (l : Loop Ptr) (a : Thread Ptr) : Option (Loop Ptr) := if l.stuck then none else l.act a

end Loop

/-! ## The main thread -/

/-- Where `~SessionsEventLoop` is. -/
inductive Stage (Ptr : Type) where
  /-- In `shutdown`; `stored` says if `m_quit` is. -/
  | shutdown (stored : Bool)
  | joining
  /-- In the loop over `m_sessions`, with what its iterator has not passed. -/
  | destroying (todo : List (Ref Ptr))
deriving DecidableEq, Repr

/-- Where `exec` is. -/
inductive Main (n : Nat) (Ptr : Type) where
  | accepting
  /-- The base class of a session is built, for loop `i`. -/
  | created (i : Fin n) (r : Ref Ptr)
  /-- In `registerSession`, before `epoll_ctl`. -/
  | inserted (i : Fin n) (r : Ref Ptr)
  /-- Calling `shutdown` of these loops. -/
  | shutdown (todo : List (Fin n)) (stored : Bool)
  /-- In `eventLoops.reset()`, with these loops to destroy. -/
  | destructor (todo : List (Fin n)) (stage : Stage Ptr)
  /-- In the loop over `m_activeSessions`. -/
  | activeSessions
  | done
  /-- A coroutine that a destructor resumed does not come back. -/
  | stalled
  /-- An iterator was used whose element is gone, or a session that was deleted. -/
  | undefined
deriving DecidableEq, Repr

structure State (n : Nat) (Ptr : Type) where
  loops : Fin n → Loop Ptr := fun _ => {}
  main : Main n Ptr := .accepting
  activeSessions : Finset Ptr := ∅
  -- history: all objects whose base class was built, and those whose constructor threw
  created : List (Ref Ptr) := []
  thrown : List (Ref Ptr) := []

namespace State

def setLoop (s : State n Ptr) (i : Fin n) (l : Loop Ptr) : State n Ptr := { s with loops := Function.update s.loops i l }

def setMain (s : State n Ptr) (m : Main n Ptr) : State n Ptr := { s with main := m }

end State

inductive Action (n : Nat) (Ptr : Type) where
  -- the main thread, in its accept loop
  | create (i : Fin n) (r : Ref Ptr)
  /-- The constructor of `ServerSession` throws. -/
  | threw
  /-- `registerSession`, its two parts; `ok` is the answer of `epoll_ctl`. -/
  | insert
  | add (ok : Bool)
  /-- `while (!m_shutdown)` is over. -/
  | leave
  /-- Its next step after that; the order is that of `m_sessions`, and `o` how a coroutine ends. -/
  | main (order : List (Ref Ptr)) (o : Deletion.Outcome)
  /-- The coroutine of the session that it deletes next never returns. -/
  | stall
  -- the thread of a loop
  | thread (i : Fin n) (a : Thread Ptr)
  /-- Any thread calls `Wakeupper::wakeup`. -/
  | wakeup (i : Fin n) (v : Nat)
deriving DecidableEq, Repr

def mainStep (s : State n Ptr) (order : List (Ref Ptr)) (o : Deletion.Outcome) : Option (State n Ptr) :=
  match s.main with
  | .shutdown [] _ => some (s.setMain (.destructor (List.finRange n).reverse (.shutdown false)))
  | .shutdown (i :: todo) false =>
    some ((s.setLoop i { s.loops i with quit := true }).setMain (.shutdown (i :: todo) true))
  | .shutdown (i :: todo) true => some ((s.setLoop i ((s.loops i).write 1)).setMain (.shutdown todo false))
  | .destructor [] _ => some (s.setMain .activeSessions)
  | .destructor (i :: todo) (.shutdown false) =>
    some ((s.setLoop i { s.loops i with quit := true }).setMain (.destructor (i :: todo) (.shutdown true)))
  | .destructor (i :: todo) (.shutdown true) =>
    some ((s.setLoop i ((s.loops i).write 1)).setMain (.destructor (i :: todo) .joining))
  | .destructor (i :: todo) .joining =>
    if (s.loops i).state.pc = .quit ∧ order.Perm (s.loops i).state.sessions then
      some (s.setMain (.destructor (i :: todo) (.destroying order)))
    else none
  | .destructor (_ :: todo) (.destroying []) => some (s.setMain (.destructor todo (.shutdown false)))
  | .destructor (i :: todo) (.destroying (r :: rest)) =>
    if (s.loops i).state.sessions.contains r then
      some { s.setLoop i { s.loops i with state := (s.loops i).state.shutdownDestroy r o } with
        main := .destructor (i :: todo) (.destroying rest)
        activeSessions := s.activeSessions.erase r.ptr }
    else some (s.setMain .undefined)
  -- the first deletion would invalidate the iterator
  | .activeSessions => some (s.setMain (if s.activeSessions = ∅ then .done else .undefined))
  | .accepting | .created _ _ | .inserted _ _ | .done | .stalled | .undefined => none

/-- What `serverSessionDeleted` takes out of `m_activeSessions` when the thread of a loop deletes a session. -/
def deletes (l : Loop Ptr) : Thread Ptr → Finset Ptr
  | .run (.delete _) =>
    match l.state.pc with
    | .deleting (r :: _) => {r.ptr}
    | _ => ∅
  | _ => ∅

def step (s : State n Ptr) : Action n Ptr → Option (State n Ptr)
  | .create i r =>
    if s.main = .accepting ∧ (∀ t ∈ s.created, t.id ≠ r.id) ∧ ∀ j, ∀ t ∈ (s.loops j).state.alive, t.ptr ≠ r.ptr then
      some { s with
        main := .created i r
        activeSessions := insert r.ptr s.activeSessions
        created := r :: s.created }
    else none
  | .threw =>
    match s.main with
    | .created _ r =>
      some { s with main := .accepting, activeSessions := s.activeSessions.erase r.ptr, thrown := r :: s.thrown }
    | _ => none
  | .insert =>
    match s.main with
    | .created i r =>
      some ((s.setLoop i { s.loops i with state := (s.loops i).state.insert r }).setMain (.inserted i r))
    | _ => none
  | .add ok =>
    match s.main with
    | .inserted i r =>
      -- `session->sock()`
      if (s.loops i).state.alive.contains r then
        if ok then some ((s.setLoop i { s.loops i with state := (s.loops i).state.add r }).setMain .accepting)
        else some (s.setMain .accepting)
      else some (s.setMain .undefined)
    | _ => none
  | .leave => if s.main = .accepting then some (s.setMain (.shutdown (List.finRange n) false)) else none
  | .main order o => mainStep s order o
  | .stall =>
    match s.main with
    | .destructor (_ :: _) (.destroying (_ :: _)) => some (s.setMain .stalled)
    | _ => none
  | .thread i a =>
    ((s.loops i).step a).map fun l =>
      { s.setLoop i l with activeSessions := s.activeSessions \ deletes (s.loops i) a }
  | .wakeup i v => some (s.setLoop i ((s.loops i).write v))

/-- `epoll_ctl` is asked to add a session before its loop has taken it out of `m_sessions` again. -/
def Adds (s : State n Ptr) : Action n Ptr → Prop
  | .add _ => ∀ i r, s.main = .inserted i r → r ∈ (s.loops i).state.sessions
  | _ => True

/-! ## What a thread can do -/

variable {l l' : Loop Ptr}

inductive Loop.Takes (l : Loop Ptr) : Thread Ptr → Loop Ptr → Prop where
  | leave (hpc : l.state.pc = .waiting) (hin : l.inside = false) (hq : l.quit = true) :
      Takes l .test { l with state := { l.state with pc := .quit } }
  | enter (hpc : l.state.pc = .waiting) (hq : l.quit = false) : Takes l .test { l with inside := true }
  | wait {wokeup : Bool} {batch : List (Ref Ptr × Events)} {s : Deletion.State Ptr} (hin : l.inside = true)
      (he : wokeup = true → l.edge = true) (hs : Deletion.step l.state (.epollWait batch) = some s) :
      Takes l (.epollWait wokeup batch)
        { l with state := s, inside := false, wokeup := wokeup, edge := l.edge && !wokeup }
  | interrupted (hin : l.inside = true) : Takes l .interrupted { l with inside := false }
  | drained (hc : l.counter = 0) (hw : l.wokeup = true) : Takes l .eventfdRead { l with wokeup := false }
  | read (hw : l.wokeup = true) (hc : l.counter ≠ 0) : Takes l .eventfdRead { l with counter := 0 }
  | run {a : Deletion.Action Ptr} {s : Deletion.State Ptr} (hs : Deletion.step l.state a = some s)
      (hr : ∀ r, a ≠ .registerSession r) (hq : a ≠ .storeQuit) (he : ∀ batch, a ≠ .epollWait batch)
      (hc : ∀ w, a = .copySessions w → l.wokeup = false) : Takes l (.run a) { l with state := s }
  | stall (hw : l.state.pc ≠ .quit) : Takes l .stall { l with stuck := true }

theorem Loop.act_takes {a : Thread Ptr} (h : l.act a = some l') : l.Takes a l' := by
  cases a with
  | test =>
    simp only [Loop.act] at h
    split at h
    · rename_i hpc
      split at h
      · cases h
        exact .leave hpc.1 hpc.2 ‹_›
      · cases h
        exact .enter hpc.1 (Bool.eq_false_iff.2 ‹_›)
    · cases h
  | epollWait wokeup batch =>
    simp only [Loop.act] at h
    split at h
    · rename_i hin
      obtain ⟨s, hs, rfl⟩ := Option.map_eq_some_iff.1 h
      exact .wait hin.1 hin.2 hs
    · cases h
  | interrupted =>
    simp only [Loop.act] at h
    split at h
    · cases h
      exact .interrupted ‹_›
    · cases h
  | eventfdRead =>
    simp only [Loop.act] at h
    split at h
    · rename_i hpc
      split at h
      · cases h
        exact .drained ‹_› hpc.2
      · cases h
        exact .read hpc.2 ‹_›
    · cases h
  | run a =>
    simp only [Loop.act] at h
    split at h
    · cases h
    · cases h
    · cases h
    · split at h
      · rename_i hw
        obtain ⟨s, hs, rfl⟩ := Option.map_eq_some_iff.1 h
        exact .run hs (by simp) (by simp) (by simp) fun _ _ => hw
      · cases h
    · rename_i hr hq he hc
      obtain ⟨s, hs, rfl⟩ := Option.map_eq_some_iff.1 h
      exact .run hs hr hq he fun w hw => absurd hw (hc w)
  | stall =>
    simp only [Loop.act] at h
    split at h
    · rename_i hpc
      cases h
      exact .stall (by simp [hpc])
    · rename_i hpc
      cases h
      exact .stall (by simp [hpc])
    · rename_i hpc
      cases h
      exact .stall (by simp [hpc])
    all_goals cases h

theorem Loop.step_takes {a : Thread Ptr} (h : l.step a = some l') : l.Takes a l' := by
  unfold Loop.step at h
  split at h
  · cases h
  · exact Loop.act_takes h

/-- What a call from the loop does, by where the thread is. -/
theorem run_pc {s s' : Deletion.State Ptr} {a : Deletion.Action Ptr} (hi : Deletion.Inv s)
    (hs : Deletion.step s a = some s') (hr : ∀ r, a ≠ .registerSession r) (hq : a ≠ .storeQuit)
    (he : ∀ batch, a ≠ .epollWait batch) :
    s.pc ≠ .waiting ∧ s.pc ≠ .quit ∧ s'.pc ≠ .quit ∧ s'.quit = s.quit ∧
    ((∃ todo, s.pc = .events todo) → (∃ todo, s'.pc = .events todo) ∨ ∃ w, a = .copySessions w) := by
  cases Deletion.step_takes hi hs with
  | register => exact absurd rfl (hr _)
  | storeQuit => exact absurd rfl hq
  | leave => exact absurd rfl (he _)
  | wait => exact absurd rfl (he _)
  | code hra ha hv =>
    obtain ⟨hp, -, hw, -, hnq, hnq'⟩ := hv.pc
    refine ⟨hw, hnq, hnq', (ha.alive hp).2.2, ?_⟩
    rintro ⟨todo, htodo⟩
    rw [htodo] at hv
    cases hv
    exact .inl ⟨_, rfl⟩
  | @copy w hpc => exact ⟨by simp [hpc], by simp [hpc], by simp, rfl, fun _ => .inr ⟨w, rfl⟩⟩
  | lock hpc => exact ⟨by simp [hpc], by simp [hpc], by simp, rfl, by simp [hpc]⟩
  | delete hpc _ => exact ⟨by simp [hpc], by simp [hpc], by simp, rfl, by simp [hpc]⟩
  | clear hpc => exact ⟨by simp [hpc], by simp [hpc], by simp, rfl, by simp [hpc]⟩

/-! ## What holds of every loop -/

/-- The eventfd, as the thread watches it. -/
def Loop.eventFd (l : Loop Ptr) : EdgeTriggered.Watch := ⟨l.counter ≠ 0, l.edge = true, l.wokeup = true⟩

structure Loop.Ok (l : Loop Ptr) : Prop where
  sound : Sound l.state
  unused : l.state.quit = false
  attended : l.eventFd.Attended
  busy : l.wokeup = true → ∃ todo, l.state.pc = .events todo
  asleep : l.inside = true → l.state.pc = .waiting
  seen : l.state.pc = .quit → l.quit = true

omit [DecidableEq Ptr] in
theorem Loop.ok_init : ({} : Loop Ptr).Ok where
  sound := Deletion.sound_init
  unused := rfl
  attended := fun h => absurd rfl h
  busy := fun h => nomatch h
  asleep := fun h => nomatch h
  seen := fun h => nomatch h

omit [DecidableEq Ptr] in
theorem Loop.Ok.write (h : l.Ok) (v : Nat) : (l.write v).Ok := by
  refine ⟨h.sound, h.unused, h.attended.next ⟨fun hready => ?_, fun he _ => ?_, fun hb => .inl hb⟩, h.busy, h.asleep, h.seen⟩
  · -- a write that fails finds the counter as it was
    by_cases hv : l.counter + v ≤ 2 ^ 64 - 2
    · refine .inr ?_
      simp only [Loop.eventFd, Loop.write, hv, decide_true, Bool.or_true]
    · refine .inl ?_
      simpa only [Loop.eventFd, Loop.write, Wakeups.eventfdWrite, if_neg hv] using hready
  · exact .inl (by simp only [Loop.eventFd] at he; simp [Loop.eventFd, Loop.write, he])

omit [DecidableEq Ptr] in
theorem Loop.Ok.setQuit (h : l.Ok) : ({ l with quit := true } : Loop Ptr).Ok :=
  ⟨h.sound, h.unused, h.attended, h.busy, h.asleep, fun _ => rfl⟩

omit [DecidableEq Ptr] in
/-- A step that leaves the eventfd alone. -/
theorem Loop.Ok.run (h : l.Ok) {s : Deletion.State Ptr} (hs : Sound s) (hq : s.quit = l.state.quit)
    (hb : l.wokeup = true → ∃ todo, s.pc = .events todo) (hin : l.inside = true → s.pc = .waiting)
    (hpc : s.pc = .quit → l.quit = true) : ({ l with state := s } : Loop Ptr).Ok :=
  ⟨hs, hq.trans h.unused, h.attended, hb, hin, hpc⟩

theorem Loop.Ok.step (h : l.Ok) {a : Thread Ptr} (hs : l.step a = some l') : l'.Ok := by
  cases Loop.step_takes hs with
  | leave hpc hin hq =>
    refine h.run (h.sound.leave hpc) rfl (fun hw => ?_) (fun he => by rw [hin] at he; cases he) fun _ => hq
    obtain ⟨todo, htodo⟩ := h.busy hw
    rw [hpc] at htodo
    cases htodo
  | enter hpc hq => exact ⟨h.sound, h.unused, h.attended, h.busy, fun _ => hpc, h.seen⟩
  | @wait wokeup batch s hin he hstep =>
    have hpc := h.asleep hin
    obtain ⟨hi, -⟩ := h.sound.running (by simp [hpc])
    have hidle : l.wokeup = false := by
      by_contra hw
      obtain ⟨todo, htodo⟩ := h.busy (by simpa using hw)
      rw [hpc] at htodo
      cases htodo
    cases Deletion.step_takes hi hstep with
    | code _ _ hv => rw [hpc] at hv; cases hv
    | leave _ hq => rw [h.unused] at hq; cases hq
    | wait _ hb hn =>
      refine ⟨h.sound.step hstep (by simp [hpc]) (by simp), h.unused, ?_, fun _ => ⟨batch, rfl⟩, by simp, by simp⟩
      refine h.attended.next ⟨.inl, fun hedge _ => ?_, fun hb => ?_⟩
      · -- the edge is still there unless it is reported
        cases wokeup with
        | true => exact .inr rfl
        | false => exact .inl (by simpa [Loop.eventFd] using hedge)
      · simp [Loop.eventFd, hidle] at hb
  | interrupted hin =>
    exact ⟨h.sound, h.unused, h.attended, h.busy, fun he => by simp at he, h.seen⟩
  | drained hc hw =>
    refine ⟨h.sound, h.unused, fun hready => absurd hc hready, fun he => by simp at he, h.asleep, h.seen⟩
  | read hw hc => exact ⟨h.sound, h.unused, fun hready => absurd rfl hready, h.busy, h.asleep, h.seen⟩
  | stall => exact ⟨h.sound, h.unused, h.attended, h.busy, h.asleep, h.seen⟩
  | @run a s hstep hr hq he hc =>
    have hpc : l.state.pc ≠ .quit := by
      intro hpc
      cases a <;> simp [Deletion.step, hpc] at hstep hr hq
    obtain ⟨hi, -⟩ := h.sound.running hpc
    obtain ⟨hw, -, hnq, hquit, hevents⟩ := run_pc hi hstep hr hq he
    refine h.run (h.sound.step hstep hpc hnq) hquit (fun hwokeup => ?_) (fun hin => absurd (h.asleep hin) hw)
      fun he => absurd he hnq
    rcases hevents (h.busy hwokeup) with htodo | ⟨w, hw⟩
    · exact htodo
    · rw [hc w hw] at hwokeup
      cases hwokeup

/-- A thread that has left its loop does nothing more. -/
theorem Loop.Ok.step_quit (h : l.Ok) (hpc : l.state.pc = .quit) (a : Thread Ptr) : l.step a = none := by
  by_contra hne
  obtain ⟨l', hs⟩ := Option.ne_none_iff_exists'.1 hne
  have hin : l.inside = false := by
    by_contra hin
    have := h.asleep (by simpa using hin)
    rw [hpc] at this
    cases this
  have hw : l.wokeup = false := by
    by_contra hw
    obtain ⟨todo, htodo⟩ := h.busy (by simpa using hw)
    rw [hpc] at htodo
    cases htodo
  cases Loop.step_takes hs with
  | leave hpc' => rw [hpc] at hpc'; cases hpc'
  | enter hpc' => rw [hpc] at hpc'; cases hpc'
  | wait hin' => rw [hin] at hin'; cases hin'
  | interrupted hin' => rw [hin] at hin'; cases hin'
  | drained _ hw' => rw [hw] at hw'; cases hw'
  | read hw' => rw [hw] at hw'; cases hw'
  | stall hpc' => exact hpc' hpc
  | @run a s hstep hr hq he _ => cases a <;> simp [Deletion.step, hpc] at hstep hr hq

/-- The thread deletes one session, or none. -/
theorem Loop.Ok.step_objects (h : l.Ok) {a : Thread Ptr} (hs : l.step a = some l') :
    (deletes l a = ∅ ∧ l'.state.alive = l.state.alive ∧ l'.state.deleted = l.state.deleted) ∨
    ∃ r ∈ l.state.alive, deletes l a = {r.ptr} ∧ l'.state.alive = l.state.alive.erase r ∧
      l'.state.deleted = r :: l.state.deleted := by
  have hpc : l.state.pc ≠ .quit := by
    intro hpc
    rw [h.step_quit hpc] at hs
    cases hs
  obtain ⟨hi, -⟩ := h.sound.running hpc
  cases Loop.step_takes hs with
  | leave | enter | interrupted | drained | read | stall => exact .inl ⟨rfl, rfl, rfl⟩
  | wait hin _ hstep =>
    cases Deletion.step_takes hi hstep with
    | code _ _ hv => rw [h.asleep hin] at hv; cases hv
    | leave | wait => exact .inl ⟨rfl, rfl, rfl⟩
  | run hstep hr hq _ _ =>
    cases Deletion.step_takes hi hstep with
    | register => exact absurd rfl (hr _)
    | storeQuit => exact absurd rfl hq
    | leave | wait | copy | lock | clear => exact .inl ⟨rfl, rfl, rfl⟩
    | code hra ha hv =>
      have hp := hv.pc.1
      refine .inl ⟨?_, (ha.alive hp).1, (ha.core hi.core hra hp).2.1⟩
      generalize l.state.pc = pc at hv
      cases hv <;> rfl
    | @delete r _ _ hpc hmem => exact .inr ⟨r, hmem, by simp [deletes, hpc], rfl, rfl⟩

/-- `shutdown` has been called: the thread knows, or will. -/
structure Loop.Told (l : Loop Ptr) : Prop where
  quit : l.quit = true
  edge : l.inside = true → l.edge = true

omit [DecidableEq Ptr] in
/-- The write of `shutdown` wakes the thread, or fails because an earlier one will. -/
theorem Loop.Ok.told (h : l.Ok) (hq : l.quit = true) : (l.write 1).Told := by
  refine ⟨hq, fun hin => ?_⟩
  have hidle : ¬ l.wokeup = true := by
    intro hw
    obtain ⟨todo, htodo⟩ := h.busy hw
    rw [h.asleep hin] at htodo
    cases htodo
  by_cases hv : l.counter + 1 ≤ 2 ^ 64 - 2
  · simp only [Loop.write, hv, decide_true, Bool.or_true]
  · have hedge : l.edge = true := h.attended.edge hidle (show l.counter ≠ 0 by omega)
    simp [Loop.write, hedge]

omit [DecidableEq Ptr] in
theorem Loop.Told.write (h : l.Told) (v : Nat) : (l.write v).Told :=
  ⟨h.quit, fun hin => by simp [Loop.write, h.edge hin]⟩

omit [DecidableEq Ptr] in
theorem Loop.Told.setQuit (h : l.Told) : ({ l with quit := true } : Loop Ptr).Told := ⟨rfl, h.edge⟩

theorem Loop.Told.step (h : l.Told) {a : Thread Ptr} (hs : l.step a = some l') : l'.Told := by
  cases Loop.step_takes hs with
  | leave | drained | read | run | stall => exact ⟨h.quit, h.edge⟩
  | enter _ hq => rw [h.quit] at hq; cases hq
  | wait | interrupted => exact ⟨h.quit, fun hin => by cases hin⟩

/-! ## Every object is somewhere -/

namespace State

def alive (s : State n Ptr) (i : Fin n) : List (Ref Ptr) := (s.loops i).state.alive

def deleted (s : State n Ptr) (i : Fin n) : List (Ref Ptr) := (s.loops i).state.deleted

end State

/-- The sessions that a loop has or had. -/
def Loop.objects (l : Loop Ptr) : Multiset (Ref Ptr) := Multiset.ofList (l.state.alive ++ l.state.deleted)

/-- The session that is being created. -/
def Main.object : Main n Ptr → Multiset (Ref Ptr)
  | .created _ r => {r}
  | _ => 0

structure Objects (s : State n Ptr) : Prop where
  /-- Sessions that exist have different addresses. -/
  apart : ∀ i j t u, t ∈ s.alive i → u ∈ s.alive j → t.ptr = u.ptr → i = j ∧ t = u
  placed : ∀ r ∈ s.main.object, ∀ i, ∀ t ∈ s.alive i, t.ptr ≠ r.ptr
  active : ∀ p, p ∈ s.activeSessions ↔ (∃ i, ∃ t ∈ s.alive i, t.ptr = p) ∨ ∃ r ∈ s.main.object, r.ptr = p
  ids : (s.created.map (·.id)).Nodup
  accounted : Multiset.ofList s.created = Multiset.ofList s.thrown + s.main.object + ∑ i, (s.loops i).objects

variable {s s' : State n Ptr}

omit [DecidableEq Ptr] in
theorem Objects.same (h : Objects s) (ha : ∀ i, s'.alive i = s.alive i) (hd : ∀ i, s'.deleted i = s.deleted i)
    (hact : s'.activeSessions = s.activeSessions) (hc : s'.created = s.created) (ht : s'.thrown = s.thrown)
    (hm : s'.main.object = s.main.object) : Objects s' := by
  have hsum : ∑ i, (s'.loops i).objects = ∑ i, (s.loops i).objects :=
    Finset.sum_congr rfl fun i _ => congrArg Multiset.ofList (congrArg₂ (· ++ ·) (ha i) (hd i))
  refine ⟨?_, ?_, ?_, ?_, ?_⟩
  · simpa only [ha] using h.apart
  · simpa only [ha, hm] using h.placed
  · simpa only [ha, hm, hact] using h.active
  · simpa only [hc] using h.ids
  · rw [hc, ht, hm, hsum]
    exact h.accounted

/-- A session of loop `i` is deleted. -/
theorem Objects.remove (h : Objects s) {i : Fin n} {r : Ref Ptr} {l : Loop Ptr} (hr : r ∈ s.alive i)
    (hn : (s.alive i).Nodup) (ha : l.state.alive = (s.alive i).erase r) (hd : l.state.deleted = r :: s.deleted i)
    (hloops : s'.loops = Function.update s.loops i l) (hact : s'.activeSessions = s.activeSessions.erase r.ptr)
    (hc : s'.created = s.created) (ht : s'.thrown = s.thrown) (hm : s'.main.object = s.main.object) : Objects s' := by
  have halive : ∀ j, s'.alive j = if j = i then (s.alive i).erase r else s.alive j := by
    intro j
    by_cases hj : j = i
    · subst hj
      simp [State.alive, hloops, ha]
    · simp [State.alive, hloops, hj]
  have hmem : ∀ j t, t ∈ s'.alive j ↔ t ∈ s.alive j ∧ t ≠ r := by
    intro j t
    rw [halive]
    split
    · rename_i hj
      rw [hj, hn.mem_erase_iff]
      exact and_comm
    · rename_i hj
      refine ⟨fun hm => ⟨hm, ?_⟩, And.left⟩
      rintro rfl
      exact hj (h.apart j i t t hm hr rfl).1
  have hobjects : l.objects = (s.loops i).objects := by
    unfold Loop.objects
    rw [ha, hd]
    exact Multiset.coe_eq_coe.2 (List.perm_middle.trans ((List.perm_cons_erase hr).symm.append_right _))
  have hsum : ∑ j, (s'.loops j).objects = ∑ j, (s.loops j).objects := by
    rw [hloops]
    exact Components.sum_update_eq Loop.objects s.loops hobjects
  refine ⟨fun j k t u htm hum => h.apart j k t u ((hmem j t).1 htm).1 ((hmem k u).1 hum).1, ?_, fun p => ?_, ?_, ?_⟩
  · intro q hq j t htm
    rw [hm] at hq
    exact h.placed q hq j t ((hmem j t).1 htm).1
  · rw [hact, Finset.mem_erase, h.active, hm]
    constructor
    · rintro ⟨hp, ⟨j, t, htm, rfl⟩ | hobj⟩
      · exact .inl ⟨j, t, (hmem j t).2 ⟨htm, fun he => hp (by rw [he])⟩, rfl⟩
      · exact .inr hobj
    · rintro (⟨j, t, htm, rfl⟩ | ⟨q, hq, rfl⟩)
      · obtain ⟨htm, htr⟩ := (hmem j t).1 htm
        exact ⟨fun hp => htr (h.apart j i t r htm hr hp).2, .inl ⟨j, t, htm, rfl⟩⟩
      · exact ⟨fun hp => h.placed q hq i r hr hp.symm, .inr ⟨q, hq, rfl⟩⟩
  · rw [hc]
    exact h.ids
  · rw [hc, ht, hm, hsum]
    exact h.accounted

omit [DecidableEq Ptr] in
theorem Objects.known (h : Objects s) {i : Fin n} {t : Ref Ptr} (ht : t ∈ (s.loops i).objects) : t ∈ s.created := by
  have hle : (s.loops i).objects ≤ Multiset.ofList s.created := by
    rw [h.accounted]
    exact (Finset.single_le_sum (fun _ _ => Multiset.zero_le _) (Finset.mem_univ i)).trans (Multiset.le_add_left _ _)
  exact Multiset.mem_coe.1 (Multiset.mem_of_le hle ht)

omit [DecidableEq Ptr] in
/-- The session that is being created is a new one. -/
theorem Objects.new_id (h : Objects s) {r t : Ref Ptr} {i : Fin n} (hr : r ∈ s.main.object)
    (ht : t ∈ (s.loops i).objects) : t.id ≠ r.id := by
  intro he
  have hrc : r ∈ s.created := by
    rw [← Multiset.mem_coe, h.accounted]
    exact Multiset.mem_add.2 (.inl (Multiset.mem_add.2 (.inr hr)))
  have htr : t = r := List.inj_on_of_nodup_map h.ids (h.known ht) hrc he
  have hnodup : (Multiset.ofList s.created).Nodup := h.ids.of_map
  rw [h.accounted] at hnodup
  have hdisjoint := (Multiset.nodup_add.1 hnodup).2.2
  refine Multiset.disjoint_left.1 hdisjoint (Multiset.mem_add.2 (.inr hr)) ?_
  exact Multiset.mem_sum.2 ⟨i, Finset.mem_univ i, htr ▸ ht⟩

theorem Objects.create (h : Objects s) (hm : s.main = .accepting) (i : Fin n) {r : Ref Ptr}
    (hid : ∀ t ∈ s.created, t.id ≠ r.id) (hptr : ∀ j, ∀ t ∈ s.alive j, t.ptr ≠ r.ptr) :
    Objects { s with
      main := .created i r, activeSessions := insert r.ptr s.activeSessions, created := r :: s.created } := by
  have hobj : s.main.object = 0 := by rw [hm]; rfl
  refine ⟨h.apart, fun q hq j t ht => ?_, fun p => ?_, List.nodup_cons.2 ⟨fun hmem => ?_, h.ids⟩, ?_⟩
  · rw [Multiset.mem_singleton.1 hq]
    exact hptr j t ht
  · have hactive := h.active p
    rw [hobj] at hactive
    simp only [Multiset.notMem_zero, false_and, exists_false, or_false] at hactive
    rw [Finset.mem_insert, hactive]
    simp only [Main.object, Multiset.mem_singleton, exists_eq_left]
    exact or_comm.trans (or_congr Iff.rfl eq_comm)
  · obtain ⟨t, ht, he⟩ := List.mem_map.1 hmem
    exact hid t ht he
  · have hacc := h.accounted
    rw [hobj, add_zero] at hacc
    show Multiset.ofList (r :: s.created) = Multiset.ofList s.thrown + {r} + ∑ j, (s.loops j).objects
    rw [← Multiset.cons_coe, hacc, ← Multiset.singleton_add]
    abel

theorem Objects.threw (h : Objects s) {i : Fin n} {r : Ref Ptr} (hm : s.main = .created i r) :
    Objects { s with
      main := .accepting, activeSessions := s.activeSessions.erase r.ptr, thrown := r :: s.thrown } := by
  have hobj : s.main.object = {r} := by rw [hm]; rfl
  have hplaced := h.placed r (by rw [hobj]; exact Multiset.mem_singleton_self r)
  refine ⟨h.apart, fun q hq => absurd hq (Multiset.notMem_zero q), fun p => ?_, h.ids, ?_⟩
  · rw [Finset.mem_erase, h.active, hobj]
    simp only [Main.object, Multiset.mem_singleton, exists_eq_left, Multiset.notMem_zero, false_and, exists_false, or_false]
    constructor
    · rintro ⟨hp, hlive | hr⟩
      · exact hlive
      · exact absurd hr.symm hp
    · rintro ⟨j, t, ht, rfl⟩
      exact ⟨hplaced j t ht, .inl ⟨j, t, ht, rfl⟩⟩
  · have hacc := h.accounted
    rw [hobj] at hacc
    show Multiset.ofList s.created = Multiset.ofList (r :: s.thrown) + 0 + ∑ j, (s.loops j).objects
    rw [hacc, ← Multiset.cons_coe, ← Multiset.singleton_add]
    abel

omit [DecidableEq Ptr] in
theorem Objects.insert (h : Objects s) {i : Fin n} {r : Ref Ptr} (hm : s.main = .created i r) {l : Loop Ptr}
    (ha : l.state.alive = r :: s.alive i) (hd : l.state.deleted = s.deleted i) :
    Objects ((s.setLoop i l).setMain (.inserted i r)) := by
  have hobj : s.main.object = {r} := by rw [hm]; rfl
  have hplaced := h.placed r (by rw [hobj]; exact Multiset.mem_singleton_self r)
  have hmem : ∀ j t, t ∈ ((s.setLoop i l).setMain (.inserted i r)).alive j ↔ (j = i ∧ t = r) ∨ t ∈ s.alive j := by
    intro j t
    by_cases hj : j = i
    · subst hj
      simp [State.alive, State.setLoop, State.setMain, ha]
    · simp [State.alive, State.setLoop, State.setMain, hj]
  refine ⟨fun j k t u ht hu hp => ?_, fun q hq => absurd hq (Multiset.notMem_zero q), fun p => ?_, h.ids, ?_⟩
  · rcases (hmem j t).1 ht with ⟨hj, htr⟩ | htj
    · rcases (hmem k u).1 hu with ⟨hk, hur⟩ | huk
      · exact ⟨hj.trans hk.symm, htr.trans hur.symm⟩
      · exact absurd (hp.symm.trans (by rw [htr])) (hplaced k u huk)
    · rcases (hmem k u).1 hu with ⟨hk, hur⟩ | huk
      · exact absurd (hp.trans (by rw [hur])) (hplaced j t htj)
      · exact h.apart j k t u htj huk hp
  · show p ∈ s.activeSessions ↔ _
    rw [h.active, hobj]
    simp only [Multiset.mem_singleton, exists_eq_left]
    constructor
    · rintro (⟨j, t, ht, rfl⟩ | rfl)
      · exact .inl ⟨j, t, (hmem j t).2 (.inr ht), rfl⟩
      · exact .inl ⟨i, r, (hmem i r).2 (.inl ⟨rfl, rfl⟩), rfl⟩
    · rintro (⟨j, t, ht, rfl⟩ | ⟨q, hq, -⟩)
      · rcases (hmem j t).1 ht with ⟨-, rfl⟩ | ht
        · exact .inr rfl
        · exact .inl ⟨j, t, ht, rfl⟩
      · exact absurd hq (Multiset.notMem_zero q)
  · have hobjects : l.objects = {r} + (s.loops i).objects := by
      unfold Loop.objects
      rw [ha, hd, List.cons_append, ← Multiset.cons_coe, ← Multiset.singleton_add]
      rfl
    have hsum := Components.sum_update Loop.objects s.loops i l
    rw [hobjects, ← add_assoc] at hsum
    have hacc := h.accounted
    rw [hobj] at hacc
    show Multiset.ofList s.created = Multiset.ofList s.thrown + 0 + ∑ j, (Function.update s.loops i l j).objects
    rw [hacc, add_right_cancel hsum]
    abel

/-! ## What the main thread has done -/

def Phase (s : State n Ptr) : Prop :=
  match s.main with
  | .accepting | .created _ _ | .inserted _ _ => True
  | .shutdown todo stored => (∀ i ∉ todo, (s.loops i).Told) ∧ (stored = true → ∀ i ∈ todo.head?, (s.loops i).quit = true)
  | .destructor todo stage => (∀ i, (s.loops i).Told) ∧ (∀ i ∉ todo, s.alive i = []) ∧
    ∀ rest, stage = .destroying rest → ∀ i ∈ todo.head?, (s.loops i).state.pc = .quit ∧ rest.Nodup ∧
      ∀ t, t ∈ rest ↔ t ∈ (s.loops i).state.sessions
  | .activeSessions | .done => (∀ i, (s.loops i).Told) ∧ ∀ i, s.alive i = []
  | .stalled => ∀ i, (s.loops i).Told
  | .undefined => False

structure Inv (s : State n Ptr) : Prop where
  ok : ∀ i, (s.loops i).Ok
  objects : Objects s
  phase : Phase s

omit [DecidableEq Ptr] in
theorem inv_init : Inv ({} : State n Ptr) where
  ok := fun _ => Loop.ok_init
  objects := ⟨by simp [State.alive], by simp [Main.object], by simp [State.alive, Main.object], List.nodup_nil,
    by simp [Main.object, Loop.objects]⟩
  phase := trivial

omit [DecidableEq Ptr] in
/-- A thread, or a wakeup, leaves the loops as the main thread needs them. -/
theorem Phase.loop (h : Phase s) {i : Fin n} {l : Loop Ptr} (hloops : s'.loops = Function.update s.loops i l)
    (hm : s'.main = s.main) (htold : (s.loops i).Told → l.Told) (hquit : (s.loops i).quit = true → l.quit = true)
    (halive : (s.loops i).state.alive = [] → l.state.alive = [])
    (hover : (s.loops i).state.pc = .quit → l.state = (s.loops i).state) : Phase s' := by
  have hall : ∀ (P Q : Loop Ptr → Prop), (P (s.loops i) → Q l) → (∀ m, P m → Q m) → ∀ j, P (s.loops j) → Q (s'.loops j) := by
    intro P Q hl hpq j hp
    rw [hloops]
    by_cases hj : j = i
    · subst hj
      simpa using hl hp
    · simpa [hj] using hpq _ hp
  have htold' := hall Loop.Told Loop.Told htold fun _ => id
  have hquit' := hall (·.quit = true) (·.quit = true) hquit fun _ => id
  have halive' := hall (·.state.alive = []) (·.state.alive = []) halive fun _ => id
  unfold Phase at h ⊢
  rw [hm]
  split at h
  · trivial
  · trivial
  · trivial
  · exact ⟨fun j hj => htold' j (h.1 j hj), fun hs j hj => hquit' j (h.2 hs j hj)⟩
  · refine ⟨fun j => htold' j (h.1 j), fun j hj => halive' j (h.2.1 j hj), fun rest hrest j hj => ?_⟩
    obtain ⟨hpc, hn, hmem⟩ := h.2.2 rest hrest j hj
    have hsame : (s'.loops j).state = (s.loops j).state := by
      rw [hloops]
      by_cases hji : j = i
      · subst hji
        simpa using hover hpc
      · simp [hji]
    rw [hsame]
    exact ⟨hpc, hn, hmem⟩
  · exact ⟨fun j => htold' j (h.1 j), fun j => halive' j (h.2 j)⟩
  · exact ⟨fun j => htold' j (h.1 j), fun j => halive' j (h.2 j)⟩
  · exact fun j => htold' j (h j)
  · exact h

theorem Inv.thread (h : Inv s) {i : Fin n} {a : Thread Ptr} {l : Loop Ptr} (hs : (s.loops i).step a = some l) :
    Inv { s.setLoop i l with activeSessions := s.activeSessions \ deletes (s.loops i) a } := by
  have hobj := (h.ok i).step_objects hs
  refine ⟨Components.forall_update h.ok ((h.ok i).step hs), ?_, ?_⟩
  · rcases hobj with ⟨hd, ha, hdel⟩ | ⟨r, hr, hd, ha, hdel⟩
    · have hsame : ∀ j, (Function.update s.loops i l j).state.alive = s.alive j ∧
          (Function.update s.loops i l j).state.deleted = s.deleted j :=
        Components.forall_update (P := fun j (m : Loop Ptr) => m.state.alive = s.alive j ∧ m.state.deleted = s.deleted j)
          (fun _ => ⟨rfl, rfl⟩) ⟨ha, hdel⟩
      exact h.objects.same (fun j => (hsame j).1) (fun j => (hsame j).2) (by rw [hd]; exact Finset.sdiff_empty) rfl rfl rfl
    · refine h.objects.remove hr (h.ok i).sound.core.place.of_map ha hdel rfl ?_ rfl rfl rfl
      show s.activeSessions \ _ = _
      rw [hd, Finset.sdiff_singleton_eq_erase]
  · refine h.phase.loop (i := i) (l := l) rfl rfl (fun ht => ht.step hs) (fun hq => ?_) (fun ha => ?_) fun hpc => ?_
    · cases Loop.step_takes hs <;> exact hq
    · rcases hobj with ⟨-, ha', -⟩ | ⟨r, hr, -⟩
      · exact ha'.trans ha
      · rw [ha] at hr
        cases hr
    · rw [(h.ok i).step_quit hpc] at hs
      cases hs

omit [DecidableEq Ptr] in
/-- The main thread changes a loop but none of its sessions. -/
theorem Inv.setLoop (h : Inv s) {i : Fin n} {l : Loop Ptr} (hok : l.Ok) (hstate : l.state = (s.loops i).state) (m : Main n Ptr)
    (hm : m.object = s.main.object) (hp : Phase ((s.setLoop i l).setMain m)) : Inv ((s.setLoop i l).setMain m) := by
  have hsame : ∀ j, (Function.update s.loops i l j).state = (s.loops j).state :=
    Components.forall_update (P := fun j (k : Loop Ptr) => k.state = (s.loops j).state) (fun _ => rfl) hstate
  refine ⟨Components.forall_update h.ok hok, h.objects.same (fun j => ?_) (fun j => ?_) rfl rfl rfl hm, hp⟩
  · exact congrArg Deletion.State.alive (hsame j)
  · exact congrArg Deletion.State.deleted (hsame j)

omit [DecidableEq Ptr] in
theorem Inv.setMain (h : Inv s) (m : Main n Ptr) (hm : m.object = s.main.object) (hp : Phase (s.setMain m)) :
    Inv (s.setMain m) :=
  ⟨h.ok, h.objects.same (fun _ => rfl) (fun _ => rfl) rfl rfl rfl hm, hp⟩

omit [DecidableEq Ptr] in
/-- `shutdown` stores `m_quit` and then writes. -/
theorem Inv.shutdown (h : Inv s) {i : Fin n} {todo : List (Fin n)} :
    (s.main = .shutdown (i :: todo) false →
      Inv ((s.setLoop i { s.loops i with quit := true }).setMain (.shutdown (i :: todo) true))) ∧
    (s.main = .shutdown (i :: todo) true →
      Inv ((s.setLoop i ((s.loops i).write 1)).setMain (.shutdown todo false))) := by
  have hp := h.phase
  constructor
  · intro hm
    rw [Phase, hm] at hp
    refine h.setLoop (h.ok i).setQuit rfl _ (by rw [hm]; rfl) ⟨fun j hj => ?_, fun _ j hj => ?_⟩
    · have hji : j ≠ i := fun he => hj (he ▸ List.mem_cons_self)
      simpa [State.setLoop, State.setMain, hji] using hp.1 j hj
    · cases hj
      simp [State.setLoop, State.setMain]
  · intro hm
    rw [Phase, hm] at hp
    have hq : (s.loops i).quit = true := hp.2 rfl i rfl
    refine h.setLoop ((h.ok i).write 1) rfl _ (by rw [hm]; rfl) ⟨fun j hj => ?_, fun he => by cases he⟩
    by_cases hji : j = i
    · subst hji
      simpa [State.setLoop, State.setMain] using (h.ok j).told hq
    · have hnot : j ∉ i :: todo := by simp [hji, hj]
      simpa [State.setLoop, State.setMain, hji] using hp.1 j hnot

omit [DecidableEq Ptr] in
/-- And `~SessionsEventLoop` once more. -/
theorem Inv.shutdownAgain (h : Inv s) {i : Fin n} {todo : List (Fin n)} {stored : Bool}
    (hm : s.main = .destructor (i :: todo) (.shutdown stored)) {l : Loop Ptr} (hok : l.Ok)
    (hstate : l.state = (s.loops i).state) (htold : (s.loops i).Told → l.Told) {stage : Stage Ptr}
    (hstage : ∀ rest, stage ≠ .destroying rest) : Inv ((s.setLoop i l).setMain (.destructor (i :: todo) stage)) := by
  have hp := h.phase
  rw [Phase, hm] at hp
  refine h.setLoop hok hstate _ (by rw [hm]; rfl) ⟨?_, fun j hj => ?_, fun rest hrest => absurd hrest (hstage rest)⟩
  · exact Components.forall_update (P := fun _ (k : Loop Ptr) => k.Told) hp.1 (htold (hp.1 i))
  · have hji : j ≠ i := fun he => hj (he ▸ List.mem_cons_self)
    simpa [State.setLoop, State.setMain, State.alive, hji] using hp.2.1 j hj

/-- `~SessionsEventLoop` deletes the next session. -/
theorem Inv.destroy (h : Inv s) {i : Fin n} {todo : List (Fin n)} {r : Ref Ptr} {rest : List (Ref Ptr)}
    (hm : s.main = .destructor (i :: todo) (.destroying (r :: rest))) (o : Deletion.Outcome) :
    r ∈ (s.loops i).state.sessions ∧
    Inv { s.setLoop i { s.loops i with state := (s.loops i).state.shutdownDestroy r o } with
      main := .destructor (i :: todo) (.destroying rest), activeSessions := s.activeSessions.erase r.ptr } := by
  have hp := h.phase
  rw [Phase, hm] at hp
  obtain ⟨htold, hempty, hdestroying⟩ := hp
  obtain ⟨hpc, hnodup, hmem⟩ := hdestroying _ rfl i rfl
  have hr : r ∈ (s.loops i).state.sessions := (hmem r).1 List.mem_cons_self
  obtain ⟨hnot, hrest⟩ := List.nodup_cons.1 hnodup
  have hok := h.ok i
  obtain ⟨hsound, hpc', halive, hdeleted, hsessions⟩ := hok.sound.shutdownDestroy hpc hr o
  have hquit : ((s.loops i).state.shutdownDestroy r o).quit = (s.loops i).state.quit := by
    have hacts := (Deletion.Acts.nothing (r := r) (s := (s.loops i).state)).quitIoLoop o
    have hq := (hacts.alive (by rw [hpc]; rfl)).2.2
    show (((s.loops i).state.quitIoLoop r o).unregisterSession r).quit = _
    unfold Deletion.State.unregisterSession
    split <;> exact hq
  refine ⟨hr, ⟨?_, ?_, ?_, fun j hj => ?_, fun rest' hrest' j hj => ?_⟩⟩
  · refine Components.forall_update h.ok (hok.run hsound hquit (fun hw => ?_) ?_ fun _ => hok.seen hpc)
    · obtain ⟨todo', htodo⟩ := hok.busy hw
      rw [hpc] at htodo
      cases htodo
    · intro hin
      have hwait := hok.asleep hin
      rw [hpc] at hwait
      cases hwait
  · exact h.objects.remove (hok.sound.core.registered r hr) hok.sound.core.place.of_map halive hdeleted rfl rfl rfl rfl
      (by rw [hm]; rfl)
  · exact Components.forall_update (P := fun _ (k : Loop Ptr) => k.Told) htold ⟨(htold i).quit, (htold i).edge⟩
  · have hji : j ≠ i := fun he => hj (he ▸ List.mem_cons_self)
    simpa [State.setLoop, State.alive, hji] using hempty j hj
  · cases hrest'
    cases hj
    simp only [State.setLoop, Function.update_self]
    refine ⟨hpc', hrest, fun t => ?_⟩
    rw [hsessions, ← hmem, List.mem_cons]
    constructor
    · exact fun ht => ⟨fun he => hnot (he ▸ ht), .inr ht⟩
    · exact fun ht => ht.2.resolve_left ht.1

theorem mainStep_inv (h : Inv s) {order : List (Ref Ptr)} {o : Deletion.Outcome} (hs : mainStep s order o = some s') :
    Inv s' := by
  have hp := h.phase
  unfold mainStep at hs
  split at hs
  case h_1 hm =>
    cases hs
    rw [Phase, hm] at hp
    refine h.setMain _ (by rw [hm]; rfl) ⟨fun i => hp.1 i (by simp), fun i hi => absurd ?_ hi, fun rest hrest => by cases hrest⟩
    simp
  case h_2 hm => cases hs; exact h.shutdown.1 hm
  case h_3 hm => cases hs; exact h.shutdown.2 hm
  case h_4 hm =>
    cases hs
    rw [Phase, hm] at hp
    exact h.setMain _ (by rw [hm]; rfl) ⟨hp.1, fun i => hp.2.1 i (by simp)⟩
  case h_5 hm => cases hs; exact h.shutdownAgain hm (h.ok _).setQuit rfl (fun ht => ht.setQuit) (by simp)
  case h_6 hm => cases hs; exact h.shutdownAgain hm ((h.ok _).write 1) rfl (fun ht => ht.write 1) (by simp)
  case h_7 i todo hm =>
    split at hs
    · rename_i hjoin
      cases hs
      rw [Phase, hm] at hp
      refine h.setMain _ (by rw [hm]; rfl) ⟨hp.1, hp.2.1, fun rest hrest j hj => ?_⟩
      cases hrest
      cases hj
      have hn := ((h.ok i).sound.left hjoin.1).1
      exact ⟨hjoin.1, hjoin.2.nodup_iff.2 hn, fun t => hjoin.2.mem_iff⟩
    · cases hs
  case h_8 i todo hm =>
    cases hs
    rw [Phase, hm] at hp
    refine h.setMain _ (by rw [hm]; rfl) ⟨hp.1, fun j hj => ?_, fun rest hrest => by cases hrest⟩
    by_cases hji : j = i
    · subst hji
      -- nothing is left in `m_sessions`
      obtain ⟨hpc, -, hmem⟩ := hp.2.2 _ rfl j rfl
      have hall := ((h.ok j).sound.left hpc).2
      exact List.eq_nil_iff_forall_not_mem.2 fun t ht => absurd ((hmem t).2 (hall t ht)) (by simp)
    · exact hp.2.1 j (by simp [hji, hj])
  case h_9 i todo r rest hm =>
    obtain ⟨hr, hinv⟩ := h.destroy hm o
    rw [if_pos (List.contains_iff_mem.2 hr)] at hs
    cases hs
    exact hinv
  case h_10 hm =>
    cases hs
    rw [Phase, hm] at hp
    have hempty : s.activeSessions = ∅ := by
      refine Finset.eq_empty_iff_forall_notMem.2 fun p hmem => ?_
      rcases (h.objects.active p).1 hmem with ⟨i, t, ht, -⟩ | ⟨r, hr, -⟩
      · rw [hp.2 i] at ht
        cases ht
      · rw [hm] at hr
        exact Multiset.notMem_zero r hr
    rw [if_pos hempty]
    exact h.setMain _ (by rw [hm]; rfl) hp
  all_goals cases hs

theorem step_inv (s : State n Ptr) (a : Action n Ptr) (s' : State n Ptr) (h : Inv s) (hok : Adds s a)
    (hs : step s a = some s') : Inv s' := by
  cases a with
  | create i r =>
    simp only [step] at hs
    split at hs
    · rename_i hnew
      cases hs
      exact ⟨h.ok, h.objects.create hnew.1 i hnew.2.1 hnew.2.2, trivial⟩
    · cases hs
  | threw =>
    simp only [step] at hs
    split at hs
    · rename_i hm
      cases hs
      exact ⟨h.ok, h.objects.threw hm, trivial⟩
    · cases hs
  | insert =>
    simp only [step] at hs
    split at hs
    · rename_i i r hm
      cases hs
      have hmem : r ∈ s.main.object := by rw [hm]; exact Multiset.mem_singleton_self r
      have hptr := h.objects.placed r hmem i
      have hid : ∀ t ∈ s.alive i ++ s.deleted i, t.id ≠ r.id := fun t ht => h.objects.new_id hmem ht
      have hloop := h.ok i
      refine ⟨Components.forall_update h.ok ?_, h.objects.insert hm rfl rfl, trivial⟩
      exact hloop.run (hloop.sound.insert hid hptr) rfl hloop.busy hloop.asleep hloop.seen
    · cases hs
  | add ok =>
    simp only [step] at hs
    split at hs
    · rename_i i r hm
      have hr := hok i r hm
      have hloop := h.ok i
      rw [if_pos (List.contains_iff_mem.2 (hloop.sound.core.registered r hr))] at hs
      cases ok with
      | true =>
        cases hs
        have hadd := hloop.run (hloop.sound.add hr) rfl hloop.busy hloop.asleep hloop.seen
        have hsame : ∀ j, (Function.update s.loops i { s.loops i with state := (s.loops i).state.add r } j).state.alive =
            s.alive j ∧ (Function.update s.loops i { s.loops i with state := (s.loops i).state.add r } j).state.deleted =
            s.deleted j :=
          Components.forall_update (P := fun j (m : Loop Ptr) => m.state.alive = s.alive j ∧ m.state.deleted = s.deleted j)
            (fun _ => ⟨rfl, rfl⟩) ⟨rfl, rfl⟩
        refine ⟨Components.forall_update h.ok hadd, ?_, trivial⟩
        exact h.objects.same (fun j => (hsame j).1) (fun j => (hsame j).2) rfl rfl rfl (by rw [hm]; rfl)
      | false =>
        cases hs
        exact h.setMain _ (by rw [hm]; rfl) trivial
    · cases hs
  | leave =>
    simp only [step] at hs
    split at hs
    · rename_i hm
      cases hs
      exact h.setMain _ (by rw [hm]; rfl) ⟨fun i hi => absurd (List.mem_finRange i) hi, fun he => by cases he⟩
    · cases hs
  | main order o => exact mainStep_inv h hs
  | stall =>
    simp only [step] at hs
    split at hs
    · rename_i hm
      cases hs
      have hp := h.phase
      rw [Phase, hm] at hp
      exact h.setMain _ (by rw [hm]; rfl) hp.1
    · cases hs
  | thread i a =>
    simp only [step, Option.map_eq_some_iff] at hs
    obtain ⟨l, hl, rfl⟩ := hs
    exact h.thread hl
  | wakeup i v =>
    cases hs
    refine h.setLoop ((h.ok i).write v) rfl s.main rfl ?_
    exact h.phase.loop (i := i) (l := (s.loops i).write v) rfl rfl (fun ht => ht.write v) id id fun _ => rfl

/-- No session is called or deleted after its deletion, no loop locks against itself, no iterator outlives its element,
and when `exec` returns every object that was ever built has been destroyed once: its constructor threw, or one loop
deleted it. -/
structure Clean (s : State n Ptr) : Prop where
  faults : ∀ i, (s.loops i).state.faults = []
  defined : s.main ≠ .undefined
  destroyed : s.main = .done → s.created.Nodup ∧
    Multiset.ofList s.created = Multiset.ofList s.thrown + ∑ i, Multiset.ofList (s.deleted i)

omit [DecidableEq Ptr] in
theorem Inv.clean (h : Inv s) : Clean s := by
  have hp := h.phase
  refine ⟨fun i => (h.ok i).sound.core.faults, fun hm => ?_, fun hm => ?_⟩
  · rw [Phase, hm] at hp
    exact hp
  · rw [Phase, hm] at hp
    have hacc := h.objects.accounted
    have hobjects : ∀ i, (s.loops i).objects = Multiset.ofList (s.deleted i) := fun i => by
      have halive : (s.loops i).state.alive = [] := hp.2 i
      rw [Loop.objects, halive]
      rfl
    have hnothing : (Main.done : Main n Ptr).object = 0 := rfl
    rw [hm, hnothing, add_zero, Finset.sum_congr rfl fun i _ => hobjects i] at hacc
    exact ⟨h.objects.ids.of_map, hacc⟩

/-- The end of the server is clean in every run in which each session is still in `m_sessions` when `epoll_ctl` is asked
to add it. -/
theorem shuts_down_cleanly (as : List (Action n Ptr)) (hadds : Runs.Along step Adds {} as) :
    Runs.Always step Clean ({} : State n Ptr) as :=
  Runs.always_of_along step_inv (fun _ h => h.clean) as inv_init hadds

/-- A session is made and deleted by its loop; another one is left to the destructor, whose coroutine it ends. -/
def twoSessions (i : Fin n) : List (Action n Nat) :=
  [.create i ⟨0, 7⟩, .insert, .thread i .test, .add true, .thread i (.epollWait false [(⟨0, 7⟩, { epollHup := true })]),
    .thread i (.run (.processEvents .returned)), .thread i (.run (.copySessions [])), .thread i (.run .lockDeleteLater),
    .thread i (.run (.delete .returned)), .thread i (.run .clear), .create i ⟨1, 7⟩, .insert, .add false, .leave,
    .main [] .returned, .main [] .returned, .main [] .returned, .main [] .returned, .main [] .returned,
    .thread i .test, .main [⟨1, 7⟩] .returned, .main [] .threw, .main [] .returned, .main [] .returned, .main [] .returned]

theorem shuts_down_cleanly_two : ∃ s, Runs.exec step ({} : State 1 Nat) (twoSessions 0) = some s ∧ s.main = .done ∧
    Runs.Always step Clean ({} : State 1 Nat) (twoSessions 0) := by
  refine ⟨_, rfl, rfl, shuts_down_cleanly _ ?_⟩
  refine ⟨trivial, trivial, trivial, ?_, trivial, trivial, trivial, trivial, trivial, trivial, trivial, trivial, ?_, trivial,
    trivial, trivial, trivial, trivial, trivial, trivial, trivial, trivial, trivial, trivial, trivial, trivial⟩
  · rintro i r h
    cases h
    exact List.mem_cons_self
  · rintro i r h
    cases h
    exact List.mem_cons_self

-- a session that times out before `epoll_ctl` is asked for it may be gone by then
example : (Runs.exec step ({} : State 1 Nat) [.create 0 ⟨0, 7⟩, .thread 0 .test, .thread 0 (.epollWait false []), .insert,
    .thread 0 (.run (.copySessions [])), .thread 0 (.run (.wakeup .returned)),
    .thread 0 (.run (.nextTimeout true .returned)), .thread 0 (.run .lockDeleteLater), .thread 0 (.run (.delete .returned)),
    .add true]).map (·.main) = some .undefined :=
  rfl

end Getodac.Shutdown
