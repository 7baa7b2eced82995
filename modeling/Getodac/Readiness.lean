import Getodac.Coroutine
import Getodac.Lib.EdgeTriggered
import Getodac.Lib.Runs
/-!
# A session waits for its socket

`initSession` watches the socket of a session with `EPOLLET` for everything at once. An
event resumes the coroutine whatever it waits for, and is then gone. So the coroutine
must try before it yields, and the session must come to its end even though nothing in
the loop asks whether a coroutine is over.

The state has the socket, the coroutine and where the thread of the loop is with it; a
step is a system call of the coroutine, a call of `processEvents`, `wakeup` or
`timeout`, or something that happens to the socket. `never_stuck` is about every order
of these. Sessions without TLS.
-/

namespace Getodac.Readiness

open EdgeTriggered

variable {P : HttpParser}

/-! ## The socket -/

structure Sock where
  /-- Received and not read. -/
  rx : Bytes := []
  /-- What the kernel would take to send. -/
  room : Nat := 0
  /-- The peer has shut down its side. -/
  fin : Bool := false
  error : Option ErrorCode := none
  /-- `::shutdown` was called. -/
  shut : Bool := false
  /-- Something has happened since the last event. -/
  edge : Bool := false

namespace Sock

/-- `EPOLLERR | EPOLLRDHUP | EPOLLHUP`. -/
def hungUp (k : Sock) : Bool := k.fin || k.error.isSome || k.shut

/-- There is an event to report. -/
def reportable (k : Sock) : Bool := k.hungUp || !k.rx.isEmpty || 0 < k.room

/-- `EPOLL_CTL_ADD` reports what is there. -/
def register (k : Sock) : Sock := { k with edge := k.reportable }

end Sock

/-! ## The coroutine -/

/-- It has called `readSome`. -/
def Reading : Point P → Prop
  | .enter _ | .head _ _ | .body _ _ _ => True
  | _ => False

/-- It has called `writeSome` with something to send. A gathering write of nothing waits for an event with which it
does nothing. -/
def Writing : Point P → Prop
  | .write _ _ _ _ => True
  | .writev _ buffers _ _ => buffers.flatten ≠ []
  | _ => False

def isOver : Point P → Bool
  | .finished _ => true
  | _ => false

/-- The length that `readSome` is called with. Before it `readHeaders` copies a string whose end it may not find. -/
def space (mem : Memory) : Point P → Nat
  | .enter t | .head t _ =>
    match if t.httpParserBuffer = [] then some [] else Session.cString t.httpParserBuffer (mem.behindCarry 0) with
    | some carried => (Session.fill mem 0 carried).currentSize
    | none => 1
  | .body t _ _ => (Session.fill mem 0 t.httpParserBuffer).currentSize
  | _ => 0

/-- How many bytes a write offers. -/
def offered : Point P → Nat
  | .write _ buffer _ _ => buffer.length
  | .writev _ buffers _ _ => buffers.flatten.length
  | _ => 0

/-- What `read` returns, of at most `most + 1` bytes. -/
def readBytes (k : Sock) (mem : Memory) (p : Point P) (most : Nat) : Bytes := k.rx.take (min (space mem p) (most + 1))

theorem takes_pos {k : Sock} (h : 0 < k.room) (most : Nat) : 0 < min k.room (most + 1) :=
  Nat.lt_min.2 ⟨h, Nat.succ_pos most⟩

/-- What the system calls return at this moment. -/
def answers (k : Sock) (mem : Memory) (p : Point P) (most : Nat) : Env where
  mem := mem
  accept := .failed
  read :=
    match k.error with
    | some ec => .failed ec
    | none => if readBytes k mem p most = [] then .again none else .data (readBytes k mem p most)
  write :=
    match k.error with
    | some ec => .failed ec
    | none => if h : 0 < k.room then .room (min k.room (most + 1)) (takes_pos h most) else .again none
  yield := none
  shutdown := .other

/-- What they leave of the socket. -/
def after (k : Sock) (mem : Memory) (p : Point P) (most : Nat) : Sock :=
  match k.error with
  | some _ => k
  | none =>
    { k with
      rx := k.rx.drop (readBytes k mem p most).length
      room := k.room - min (min k.room (most + 1)) (offered p) }

/-- The call that found nothing, with what the yield after it returns. -/
def resumption (mem : Memory) (y : Option ErrorCode) : Env := ⟨mem, .want y, .again y, .again y, y, .zero y⟩

/-- An exception leaves `BasicHttpSession::ioLoop`: that of a write in a catch block. -/
def escapes (p : Point P) (e : Env) : Bool :=
  match p, e.write with
  | .write _ _ _ (.caught _), .again (some _) | .write _ _ _ (.caught _), .failed _ => true
  | _, _ => false

/-! ## The session -/

/-- Who has called `m_ioYield`. -/
inductive Call where
  /-- `processEvents` or `wakeup`. -/
  | resume
  | quitIoLoop (ec : ErrorCode)
deriving DecidableEq, Repr

def Call.code : Call → Option ErrorCode
  | .resume => none
  | .quitIoLoop ec => some ec

inductive Pc where
  /-- The coroutine has not begun. -/
  | created
  /-- It has yielded, or is over. -/
  | idle
  | running (c : Call)
deriving DecidableEq, Repr

structure State (P : HttpParser) where
  sock : Sock
  point : Point P
  pc : Pc := .created
  /-- It is in `m_deleteLaterObjects`. -/
  deleteLater : Bool := false

inductive Action where
  -- what happens to the socket
  | arrives (bs : Bytes)
  | sent (n : Nat)
  | peerShutdown
  | breaks (ec : ErrorCode)
  -- the thread of the loop
  /-- `epoll_wait` reports it. -/
  | processEvents (mem : Memory)
  /-- `epoll_wait` finds that there is no event any more. -/
  | noEvent
  | wakeup (mem : Memory)
  | timeout (mem : Memory)
  /-- The next system call of the coroutine. -/
  | call (mem : Memory) (most : Nat)
  /-- The coroutine is over. -/
  | returns

variable (srv : Server)

namespace State

/-- The coroutine goes on with an answer. At its end `ioLoop` calls `::shutdown`, or the `catch (...)` around it
`deleteLater`. -/
def goesOn (s : State P) (e : Env) : State P :=
  match s.point.step false srv e with
  | .finished t =>
    if escapes s.point e then { s with point := .finished t, deleteLater := true }
    else { s with point := .finished t, sock := { s.sock with shut := true, edge := true } }
  | p => { s with point := p }

/-- The value with which the coroutine is called first. -/
def begin (c : Call) : Point P → Point P
  | .enter t => .enter { t with yielded := c.code }
  | p => p

/-- A call of `processEvents`, `wakeup` or `timeout`. -/
def calls (s : State P) (mem : Memory) (c : Call) : State P :=
  if isOver s.point then { s with pc := .idle, deleteLater := true }
  else
    match s.pc with
    | .created => { s with pc := .running c, point := begin c s.point }
    | _ => ({ s with pc := .running c } : State P).goesOn srv (resumption mem c.code)

end State

def step (s : State P) : Action → Option (State P)
  | .arrives bs => some { s with sock := { s.sock with rx := s.sock.rx ++ bs, edge := true } }
  | .sent n => some { s with sock := { s.sock with room := s.sock.room + n, edge := true } }
  | .peerShutdown => some { s with sock := { s.sock with fin := true, edge := true } }
  | .breaks ec => some { s with sock := { s.sock with error := some ec, edge := true } }
  | .processEvents mem =>
    match s.pc with
    | .running _ => none
    | _ =>
      if s.sock.edge && s.sock.reportable then
        some (({ s with sock := { s.sock with edge := false } } : State P).calls srv mem
          (if s.sock.hungUp then .quitIoLoop .io_error else .resume))
      else none
  | .noEvent => if s.sock.reportable then none else some { s with sock := { s.sock with edge := false } }
  | .wakeup mem =>
    match s.pc with
    | .running _ => none
    | _ => some (s.calls srv mem .resume)
  | .timeout mem =>
    match s.pc with
    | .running _ => none
    | _ => some (s.calls srv mem (.quitIoLoop .timed_out))
  | .call mem most =>
    match s.pc with
    | .running c =>
      if isOver s.point then none
      else
        let e := answers s.sock mem s.point most
        if (s.point.resumed e).isSome then
          match c with
          | .resume => some { s with pc := .idle }
          -- `while (m_ioYield) m_ioYield(ec)`
          | .quitIoLoop ec => some (s.goesOn srv (resumption mem (some ec)))
        else some (({ s with sock := after s.sock mem s.point most } : State P).goesOn srv e)
    | _ => none
  | .returns =>
    match s.pc with
    | .running c =>
      if isOver s.point then
        match c with
        | .resume => some { s with pc := .idle }
        | .quitIoLoop _ => some { s with pc := .idle, deleteLater := true }
      else none
    | _ => none

/-! ## What a step can do -/

variable {srv} {s s' : State P}

/-- An answer, or a call, changes nothing of the socket but that the end of the coroutine is an event. -/
structure GoesOn (s s' : State P) : Prop where
  pc : s'.pc = s.pc
  rx : s'.sock.rx = s.sock.rx
  room : s'.sock.room = s.sock.room
  sock : s'.sock = s.sock ∨ s'.sock.edge = true
  later : s.deleteLater = true → s'.deleteLater = true
  ended : isOver s'.point = true → s'.sock.shut = true ∨ s'.deleteLater = true

variable (srv) in
theorem goesOn_spec (s : State P) (e : Env) : GoesOn s (s.goesOn srv e) := by
  unfold State.goesOn
  split
  · split
    · exact ⟨rfl, rfl, rfl, .inl rfl, fun _ => rfl, fun _ => .inr rfl⟩
    · exact ⟨rfl, rfl, rfl, .inr rfl, id, fun _ => .inl rfl⟩
  · rename_i hne
    refine ⟨rfl, rfl, rfl, .inl rfl, id, fun hover => ?_⟩
    cases hp : s.point.step false srv e with
    | finished t => exact absurd hp (hne t)
    | _ => simp [isOver, hp] at hover

theorem begin_over (c : Call) (p : Point P) : isOver (State.begin c p) = isOver p := by
  cases p <;> rfl

variable (srv) in
/-- A call finds the coroutine over, or it runs. -/
theorem calls_spec (s : State P) (mem : Memory) (c : Call) :
    isOver s.point = true ∧ s.calls srv mem c = { s with pc := .idle, deleteLater := true } ∨
      GoesOn { s with pc := .running c } (s.calls srv mem c) := by
  unfold State.calls
  cases hover : isOver s.point with
  | true => exact .inl ⟨rfl, rfl⟩
  | false =>
    refine .inr ?_
    rw [if_neg Bool.false_ne_true]
    split
    · refine ⟨rfl, rfl, rfl, .inl rfl, id, fun h => ?_⟩
      rw [begin_over, hover] at h
      cases h
    · exact goesOn_spec _ _ _

/-- The sockets that a system call of the coroutine leaves. -/
structure Sock.Used (k k' : Sock) : Prop where
  rx : k'.rx.length ≤ k.rx.length
  room : k'.room ≤ k.room
  hungUp : k'.hungUp = k.hungUp
  edge : k'.edge = k.edge

theorem after_used (k : Sock) (mem : Memory) (p : Point P) (most : Nat) : k.Used (after k mem p most) := by
  unfold after
  split
  · exact ⟨le_rfl, le_rfl, rfl, rfl⟩
  · exact ⟨by simp, Nat.sub_le _ _, rfl, rfl⟩

/-- `readSome` is never called with a full buffer, with which it returns 0 as it does when there is nothing. -/
def Spacious (s : State P) : Action → Prop
  | .call mem _ => Reading s.point → 0 < space mem s.point
  | _ => True

variable (srv) in
inductive Takes (s : State P) : State P → Prop where
  /-- Something happens to the socket. -/
  | world {k : Sock} (hedge : k.edge = true) (hshut : k.shut = s.sock.shut) : Takes s { s with sock := k }
  | noEvent (hnone : s.sock.reportable = false) : Takes s { s with sock := { s.sock with edge := false } }
  | called {k : Sock} {mem : Memory} {c : Call} (hidle : ∀ c', s.pc ≠ .running c')
      (hk : k = s.sock ∨ k = { s.sock with edge := false } ∧ (s.sock.hungUp = true → ∃ ec, c = .quitIoLoop ec)) :
      Takes s (({ s with sock := k } : State P).calls srv mem c)
  /-- The coroutine yields, and has found nothing. -/
  | yields (hpc : s.pc = .running .resume) (hread : Reading s.point → s.sock.rx = [])
      (hwrite : Writing s.point → s.sock.room = 0) : Takes s { s with pc := .idle }
  | goesOn {c : Call} {k : Sock} {e : Env} (hpc : s.pc = .running c) (hk : s.sock.Used k) :
      Takes s (({ s with sock := k } : State P).goesOn srv e)
  | returns {c : Call} (hpc : s.pc = .running c) (hover : isOver s.point = true) (later : Bool)
      (hlater : s.deleteLater = true ∨ c ≠ .resume → later = true) :
      Takes s { s with pc := .idle, deleteLater := later }

/-- A read that yields has found no byte. -/
theorem resumed_reading {k : Sock} {mem : Memory} {p : Point P} {most : Nat} (hp : Reading p)
    (hspace : 0 < space mem p) (hr : (p.resumed (answers k mem p most)).isSome = true) : k.rx = [] := by
  have hread : (answers k mem p most).read.resume?.isSome = true := by
    cases p <;> first | exact hr | exact hp.elim
  unfold answers at hread
  dsimp only at hread
  split at hread
  · cases hread
  · split at hread
    · rename_i hnone
      rw [readBytes, List.take_eq_nil_iff] at hnone
      rcases hnone with hzero | hnil
      · omega
      · exact hnil
    · cases hread

/-- A write that yields has found no room. -/
theorem resumed_writing {k : Sock} {mem : Memory} {p : Point P} {most : Nat} (hp : Writing p)
    (hr : (p.resumed (answers k mem p most)).isSome = true) : k.room = 0 := by
  have hwrite : (answers k mem p most).write.resume?.isSome = true := by
    cases p with
    | write => exact hr
    | writev t buffers req next =>
      have hne : buffers.flatten ≠ [] := hp
      revert hr
      simp only [Point.resumed, Point.answerTo]
      split
      · rw [if_neg hne]
        intro h
        cases h
      · exact id
    | _ => exact hp.elim
  unfold answers at hwrite
  dsimp only at hwrite
  split at hwrite
  · cases hwrite
  · split at hwrite
    · cases hwrite
    · omega

theorem step_takes {a : Action} (hok : Spacious s a) (h : step srv s a = some s') : Takes srv s s' := by
  cases a with
  | arrives bs | sent n | peerShutdown | breaks ec =>
    cases h
    exact .world rfl rfl
  | processEvents mem =>
    simp only [step] at h
    split at h
    · cases h
    · rename_i hpc
      split at h
      · cases h
        refine .called hpc (.inr ⟨rfl, fun hup => ⟨.io_error, ?_⟩⟩)
        rw [if_pos hup]
      · cases h
  | noEvent =>
    simp only [step] at h
    split at h
    · cases h
    · cases h
      exact .noEvent (Bool.eq_false_iff.2 ‹_›)
  | wakeup mem | timeout mem =>
    simp only [step] at h
    split at h
    · cases h
    · cases h
      exact .called (k := s.sock) ‹_› (.inl rfl)
  | call mem most =>
    simp only [step] at h
    split at h
    · rename_i c hpc
      split at h
      · cases h
      · split at h
        · rename_i hr
          split at h
          · cases h
            exact .yields hpc (fun hp => resumed_reading hp (hok hp) hr) fun hp => resumed_writing hp hr
          · cases h
            exact .goesOn (k := s.sock) hpc ⟨le_rfl, le_rfl, rfl, rfl⟩
        · cases h
          exact .goesOn hpc (after_used _ _ _ _)
    · cases h
  | returns =>
    simp only [step] at h
    split at h
    · rename_i c hpc
      split at h
      · rename_i hover
        split at h
        · cases h
          exact .returns hpc hover s.deleteLater (fun hl => hl.resolve_right fun hne => hne rfl)
        · cases h
          exact .returns hpc hover true fun _ => rfl
      · cases h
    · cases h

/-! ## What the coroutine waits for -/

/-- Something that a coroutine can wait for. -/
structure Demand (P : HttpParser) where
  ready : Sock → Prop
  asks : Point P → Prop
  reported : ∀ k, ready k → k.reportable = true
  used : ∀ k k', k'.rx.length ≤ k.rx.length → k'.room ≤ k.room → ready k' → ready k
  unfinished : ∀ p, asks p → isOver p = false
  /-- A coroutine that tried and yields has not found it. -/
  tried : ∀ k p, (Reading p → k.rx = []) → (Writing p → k.room = 0) → asks p → ¬ ready k

def input : Demand P where
  ready k := 0 < k.rx.length
  asks := Reading
  reported k h := by
    have hne : k.rx ≠ [] := List.ne_nil_of_length_pos h
    simp [Sock.reportable, hne]
  used _ _ hrx _ h := Nat.lt_of_lt_of_le h hrx
  unfinished p h := by cases p <;> first | rfl | exact h.elim
  tried k p hread _ h hready := by simp [hread h] at hready

def output : Demand P where
  ready k := 0 < k.room
  asks := Writing
  reported k h := by simp [Sock.reportable, h]
  used _ _ _ hroom h := Nat.lt_of_lt_of_le h hroom
  unfinished p h := by cases p <;> first | rfl | exact h.elim
  tried k p _ hwrite h hready := by simp [hwrite h] at hready

namespace Demand

variable (d : Demand P)

/-- It waits for this, or for anything. -/
def waits (s : State P) : Prop := s.pc = .created ∨ s.pc = .idle ∧ d.asks s.point

def watch (s : State P) : Watch := ⟨d.ready s.sock, s.sock.edge = true, ¬ d.waits s⟩

theorem not_waits_running {c : Call} (h : s.pc = .running c) : ¬ d.waits s := by
  rintro (hc | ⟨hi, -⟩)
  · rw [h] at hc
    cases hc
  · rw [h] at hi
    cases hi

theorem not_waits_over (h : s.pc = .idle) (hover : isOver s.point = true) : ¬ d.waits s := by
  rintro (hc | ⟨-, hasks⟩)
  · rw [h] at hc
    cases hc
  · rw [d.unfinished _ hasks] at hover
    cases hover

/-- After a step that leaves the coroutine busy and brings nothing. -/
theorem next_busy (hready : d.ready s'.sock → d.ready s.sock) (hbusy : ¬ d.waits s') : (d.watch s).Next (d.watch s') :=
  ⟨fun h => .inl (hready h), fun _ _ => .inr hbusy, fun _ => .inl hbusy⟩

theorem takes_next (h : Takes srv s s') : (d.watch s).Next (d.watch s') := by
  cases h with
  | world hedge _ => exact ⟨fun _ => .inr hedge, fun _ _ => .inl hedge, fun _ => .inr fun _ => hedge⟩
  | noEvent hnone =>
    have hready : ¬ d.ready { s.sock with edge := false } := fun h => by
      rw [← Bool.not_eq_true] at hnone
      exact hnone (d.reported { s.sock with edge := false } h)
    exact ⟨fun h => absurd h hready, fun _ h => absurd h hready, fun _ => .inr fun h => absurd h hready⟩
  | @called k mem c hidle hk =>
    have hused : k.rx = s.sock.rx ∧ k.room = s.sock.room := by
      rcases hk with rfl | ⟨rfl, -⟩ <;> exact ⟨rfl, rfl⟩
    rcases calls_spec srv { s with sock := k } mem c with ⟨hover, hs⟩ | hgo
    · rw [hs]
      refine d.next_busy (d.used _ _ ?_ hused.2.le) (d.not_waits_over rfl hover)
      rw [hused.1]
    · refine d.next_busy (d.used _ _ ?_ ?_) (d.not_waits_running hgo.pc)
      · rw [hgo.rx, hused.1]
      · rw [hgo.room, hused.2]
  | yields hpc hread hwrite =>
    refine ⟨.inl, fun he _ => .inl he, fun _ => ?_⟩
    by_cases hasks : d.asks s.point
    · exact .inr fun hready => absurd hready (d.tried _ _ hread hwrite hasks)
    · refine .inl ?_
      rintro (hc | ⟨-, h⟩)
      · cases hc
      · exact hasks h
  | @goesOn c k e hpc hk =>
    have hgo := goesOn_spec srv { s with sock := k } e
    refine d.next_busy (d.used _ _ ?_ ?_) (d.not_waits_running (hgo.pc.trans hpc))
    · rw [hgo.rx]
      exact hk.rx
    · rw [hgo.room]
      exact hk.room
  | returns hpc hover later _ => exact d.next_busy id (d.not_waits_over rfl hover)

end Demand

/-! ## The end of the session -/

/-- Both sides of a connection that is over, which the loop finds out with an event. -/
def hup (s : State P) : Watch where
  ready := s.sock.hungUp = true
  edge := s.sock.edge = true
  busy := (∃ ec, s.pc = .running (.quitIoLoop ec)) ∨ s.deleteLater = true

theorem GoesOn.hungUp (h : GoesOn s s') (hup : s'.sock.hungUp = true) : s.sock.hungUp = true ∨ s'.sock.edge = true :=
  h.sock.imp_left fun (hs : s'.sock = s.sock) => hs ▸ hup

theorem GoesOn.edge (h : GoesOn s s') (hedge : s.sock.edge = true) : s'.sock.edge = true :=
  h.sock.elim (fun hs => hs ▸ hedge) id

theorem takes_hup (h : Takes srv s s') : (hup s).Next (hup s') := by
  cases h with
  | world hedge _ => exact ⟨fun _ => .inr hedge, fun _ _ => .inl hedge, .inl⟩
  | noEvent hnone =>
    have hopen : s.sock.hungUp = false := by
      simp only [Sock.reportable, Bool.or_eq_false_iff] at hnone
      exact hnone.1.1
    have hready : ¬ (hup { s with sock := { s.sock with edge := false } }).ready :=
      fun h => Bool.false_ne_true (hopen.symm.trans h)
    exact ⟨fun h => absurd h hready, fun _ h => absurd h hready, .inl⟩
  | @called k mem c hidle hk =>
    rcases calls_spec srv { s with sock := k } mem c with ⟨-, hs⟩ | hgo
    · have hbusy : (hup (({ s with sock := k } : State P).calls srv mem c)).busy := by
        rw [hs]
        exact .inr rfl
      refine ⟨fun h => .inl ?_, fun _ _ => .inr hbusy, fun _ => .inl hbusy⟩
      rw [hs] at h
      rcases hk with rfl | ⟨rfl, -⟩ <;> exact h
    · have hkept : (hup s).busy → (hup (({ s with sock := k } : State P).calls srv mem c)).busy := by
        rintro (⟨ec, hec⟩ | hl)
        · exact absurd hec (hidle _)
        · exact .inr (hgo.later hl)
      rcases hk with rfl | ⟨rfl, hquit⟩
      · exact ⟨hgo.hungUp, fun he _ => .inl (hgo.edge he), fun hb => .inl (hkept hb)⟩
      · refine ⟨hgo.hungUp, fun _ h => ?_, fun hb => .inl (hkept hb)⟩
        rcases hgo.hungUp h with hup | he
        · obtain ⟨ec, rfl⟩ := hquit hup
          exact .inr (.inl ⟨ec, hgo.pc⟩)
        · exact .inl he
  | yields hpc _ _ =>
    refine ⟨.inl, fun he _ => .inl he, ?_⟩
    rintro (⟨ec, hec⟩ | hl)
    · rw [hpc] at hec
      cases hec
    · exact .inl (.inr hl)
  | @goesOn c k e hpc hk =>
    have hgo := goesOn_spec srv { s with sock := k } e
    refine ⟨fun h => ?_, fun he _ => .inl (hgo.edge (hk.edge.trans he)), ?_⟩
    · exact (hgo.hungUp h).imp_left fun hup => hk.hungUp.symm.trans hup
    · rintro (⟨ec, hec⟩ | hl)
      · exact .inl (.inl ⟨ec, hgo.pc.trans hec⟩)
      · exact .inl (.inr (hgo.later hl))
  | returns hpc _ later hlater =>
    refine ⟨.inl, fun he _ => .inl he, ?_⟩
    rintro (⟨ec, hec⟩ | hl)
    · rw [hpc] at hec
      cases hec
      exact .inl (.inr (hlater (.inr nofun)))
    · exact .inl (.inr (hlater (.inl hl)))

/-- A coroutine that is over has shut down the socket, or put the session into `m_deleteLaterObjects`. -/
def Ended (s : State P) : Prop := isOver s.point = true → s.sock.shut = true ∨ s.deleteLater = true

theorem takes_ended (hi : Ended s) (h : Takes srv s s') : Ended s' := by
  intro hover
  cases h with
  | world _ hshut => exact (hi hover).imp_left hshut.trans
  | noEvent | yields => exact hi hover
  | @called k mem c =>
    rcases calls_spec srv { s with sock := k } mem c with ⟨-, hs⟩ | hgo
    · rw [hs]
      exact .inr rfl
    · exact hgo.ended hover
  | goesOn => exact (goesOn_spec _ _ _).ended hover
  | returns _ _ later hlater => exact (hi hover).imp_right fun h => hlater (.inl h)

/-! ## Every run -/

structure Inv (s : State P) : Prop where
  input : (input.watch s).Attended
  output : (output.watch s).Attended
  hup : (hup s).Attended
  ended : Ended s

theorem step_inv (s : State P) (a : Action) (s' : State P) (hi : Inv s) (hok : Spacious s a)
    (h : step srv s a = some s') : Inv s' := by
  have ht := step_takes hok h
  exact ⟨hi.input.next (Demand.takes_next _ ht), hi.output.next (Demand.takes_next _ ht), hi.hup.next (takes_hup ht),
    takes_ended hi.ended ht⟩

/-- A session after `initSession`. -/
def init (k : Sock) (t : Session P) : State P := { sock := k.register, point := .enter t }

theorem inv_init (k : Sock) (t : Session P) : Inv (init k t) where
  input h := .inl ((Readiness.input : Demand P).reported k h)
  output h := .inl ((Readiness.output : Demand P).reported k h)
  hup h := .inl (by
    have hopen : k.hungUp = true := h
    simp [hup, init, Sock.register, Sock.reportable, hopen])
  ended h := nomatch h

/-- It has nothing to do. -/
structure Waits (s : State P) : Prop where
  hungUp : s.sock.hungUp = false
  unfinished : isOver s.point = false
  read : Reading s.point → s.sock.rx = []
  write : Writing s.point → s.sock.room = 0

/-- A session that has no event to come, that the loop is not busy with and will not delete, has nothing to do. -/
theorem never_stuck (srv : Server) (k : Sock) (t : Session P) (as : List Action)
    (hspace : Runs.Along (step srv) Spacious (init k t) as) (s : State P)
    (hs : Runs.exec (step srv) (init k t) as = some s) (hidle : ∀ c, s.pc ≠ .running c) (hlater : s.deleteLater = false)
    (hedge : s.sock.edge = false) : Waits s := by
  have hi : Inv s := Runs.exec_inv step_inv as (inv_init k t) hspace hs
  have hno : ¬ s.sock.edge = true := by simp [hedge]
  have hopen : s.sock.hungUp = false := by
    by_contra hup
    rw [Bool.not_eq_false] at hup
    rcases hi.hup hup with he | ⟨ec, hc⟩ | hl
    · exact hno he
    · exact hidle _ hc
    · rw [hlater] at hl
      cases hl
  have hpc : s.pc = .created ∨ s.pc = .idle := by
    cases hp : s.pc with
    | created => exact .inl rfl
    | idle => exact .inr rfl
    | running c => exact absurd hp (hidle c)
  have hasks : ∀ d : Demand P, (d.watch s).Attended → d.asks s.point → ¬ d.ready s.sock := by
    intro d hd ha hready
    rcases hd hready with he | hb
    · exact hno he
    · exact hb (hpc.imp_right fun h => ⟨h, ha⟩)
  refine ⟨hopen, ?_, fun hr => ?_, fun hw => ?_⟩
  · by_contra hover
    rw [Bool.not_eq_false] at hover
    rcases hi.ended hover with hshut | hl
    · simp [Sock.hungUp, hshut] at hopen
    · rw [hlater] at hl
      cases hl
  · exact List.eq_nil_of_length_eq_zero (Nat.eq_zero_of_not_pos (hasks input hi.input hr))
  · exact Nat.eq_zero_of_not_pos (hasks output hi.output hw)

/-- A connection that can send and has received nothing. -/
def fresh : Sock := { room := 1 }

/-- The first event, with which the coroutine begins, and its first `readSome`. -/
def firstEvent : List Action :=
  let mem : Memory := ⟨fun _ => [0], fun _ => none, fun _ => none⟩
  [.processEvents mem, .call mem 0]

def refusing : Server where
  headersTimeout := 5
  keepAliveTimeout := 10
  createSession _ := .ok none
  message _ := []

theorem never_stuck_fresh : ∃ s, Runs.exec (step refusing) (init fresh ({ reads := [] } : Session (replay true []))) firstEvent =
    some s ∧ s.sock.room = 1 ∧ Waits s := by
  have hspace : Runs.Along (step refusing) Spacious (init fresh ({ reads := [] } : Session (replay true []))) firstEvent := by
    refine ⟨trivial, (?_ : Runs.Along (step refusing) Spacious _ _)⟩
    exact ⟨fun _ => Nat.zero_lt_one, trivial⟩
  refine ⟨_, rfl, rfl, ?_⟩
  exact never_stuck refusing fresh _ firstEvent hspace _ rfl nofun rfl rfl

end Getodac.Readiness
