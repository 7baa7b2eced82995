import Getodac.ErrorResponses
import Getodac.Lib.Runs
/-!
# Every session has a deadline

A loop calls `timeout` on a session whose `nextTimeout()` has passed, and skips a session
whose `nextTimeout()` is `TimePoint{}`. Before a stream is made the deadline is the
one set by the constructor of the session; then it is the one of the last
`setSessionTimeout`, which takes 0 seconds for "none".

With `keepalive_timeout = 0`, the timeout that `ioLoop` sets for a handler is 0 if the
body is announced to be shorter than 512 KiB, and a peer that does not send it holds
the session for ever (`no_deadline`). `can_end` is about the runs without such a request.
-/

namespace Getodac

/-! ## `ServerSession` -/

/-- A time point is the nanoseconds since the epoch, so `TimePoint{}` is 0. -/
def nanoseconds (seconds : Int) : Int := seconds * 1000000000

/-- What `setSessionTimeout` puts into `m_sessionTimeoutTimePoint`. -/
def sessionTimeoutTimePoint (now : Int) (seconds : Int) : Int :=
  if seconds ≠ 0 then now + nanoseconds seconds else 0

/-- The server as it is configured, from when the process starts. -/
structure Configured extends Server where
  ssl : Bool
  sslAcceptTimeout : Int
  sslShutdownTimeout : Int
  /-- The clock shows no earlier time than this. -/
  start : Int
  headers_pos : 0 < headersTimeout
  accept_pos : 0 < sslAcceptTimeout
  shutdown_pos : 0 < sslShutdownTimeout
  keepAlive_nonneg : 0 ≤ keepAliveTimeout
  start_nonneg : 0 ≤ start

/-- What `SSL_accept` answers, and `m_yield()` after it. -/
inductive SslAccept where
  | accepted (initFinished : Bool)
  | want (resume : Option ErrorCode)
  | failed
deriving DecidableEq, Repr

/-- What `SSL_shutdown` answers: 0, and `m_yield()` after it, or something else. -/
inductive SslShutdown where
  | zero (resume : Option ErrorCode)
  | other
deriving DecidableEq, Repr

/-- What the environment has answered to a session since it was started. -/
structure Answers where
  /-- `m_yield.get()` when the coroutine starts. -/
  first : Option ErrorCode := none
  /-- `SSL_new` and `SSL_set_fd`. -/
  sslNew : Bool := true
  accepts : List SslAccept := []
  reads : List ReadResult := []
  writes : List WriteResult := []
  yields : List (Option ErrorCode) := []
  initFinished : Bool := true
  shutdowns : List SslShutdown := []

/-- There are more answers now. -/
def Answers.Extend (a b : Answers) : Prop :=
  a.first = b.first ∧ a.sslNew = b.sslNew ∧ a.initFinished = b.initFinished ∧ a.accepts <+: b.accepts ∧
  a.reads <+: b.reads ∧ a.writes <+: b.writes ∧ a.yields <+: b.yields ∧ a.shutdowns <+: b.shutdowns

instance (a b : Answers) : Decidable (a.Extend b) := by unfold Answers.Extend; infer_instance

inductive Coroutine where
  | notStarted
  | suspended
  | finished
deriving DecidableEq, Repr

structure ServerSession (P : HttpParser) where
  /-- `m_nextTimeout`. -/
  ownTimeout : Int
  stream : Option (Session P) := none
  /-- When `setSessionTimeout` was last called on the stream. -/
  timeoutSet : Int := 0
  coroutine : Coroutine := .notStarted
  answers : Answers := {}
  -- `::shutdown` and `deleteLater` were called
  isShutdown : Bool := false
  deleteLater : Bool := false

/-- The loop of `SslSocketSession::SslSocketSession`, with `m_yield.get()` at its end. -/
def sslAccept : List SslAccept → Option ErrorCode → Ended × Option ErrorCode
  | [], yielded => (.suspended, yielded)
  | .accepted true :: _, yielded => (.returned, yielded)
  | .accepted false :: _, yielded => (.threw (.error_code .connection_aborted), yielded)
  | .failed :: _, yielded => (.threw (.error_code .io_error), yielded)
  | .want (some ec) :: _, _ => (.threw (.error_code ec), some ec)
  | .want none :: rs, _ => sslAccept rs none

/-- The loop of `SslSocketSession::shutdown`: does it end? -/
def sslShutdown : Nat → List SslShutdown → Bool
  | 0, _ => true
  | _ + 1, [] => false
  | count + 1, .zero none :: rs => sslShutdown count rs
  | _ + 1, .zero (some _) :: _ => true
  | _ + 1, .other :: _ => true

variable {P : HttpParser}

namespace ServerSession

/-- `new ServerSession`. -/
def create (cfg : Configured) (now : Int) : ServerSession P := { ownTimeout := now + nanoseconds cfg.headersTimeout }

def nextTimeout (s : ServerSession P) : Int :=
  match s.stream with
  | some stream => sessionTimeoutTimePoint s.timeoutSet stream.sessionTimeout
  | none => s.ownTimeout

/-- The constructor of the stream. -/
def makeStream (cfg : Configured) (a : Answers) : Ended × Option ErrorCode :=
  if cfg.ssl then
    if a.sslNew then sslAccept a.accepts a.first else (.threw (.exception []), a.first)
  else (.returned, a.first)

/-- `SocketStream::shutdown`. -/
def shutdown (cfg : Configured) (s : ServerSession P) (stream : Session P) : ServerSession P :=
  if cfg.ssl then
    let stream := stream.setSessionTimeout cfg.sslShutdownTimeout
    if s.answers.initFinished && !sslShutdown 5 s.answers.shutdowns then
      { s with stream := some stream, coroutine := .suspended }
    else { s with stream := some stream, coroutine := .finished, isShutdown := true }
  else { s with stream := some stream, coroutine := .finished, isShutdown := true }

/-- `ServerSession::ioLoop` with these answers, unless memory is read that cannot be. -/
def ioLoop (cfg : Configured) (mem : Memory) (s : ServerSession P) : Option (ServerSession P) :=
  match makeStream cfg s.answers with
  | (.returned, yielded) =>
    let stream : Session P :=
      { sessionTimeout := if cfg.ssl then cfg.sslAcceptTimeout else 0
        yielded := yielded
        reads := s.answers.reads
        writes := s.answers.writes
        yields := s.answers.yields }
    let did := stream.ioLoop cfg.toServer mem
    match did.ended with
    | .returned => some (s.shutdown cfg did.session)
    | .threw _ => some { s with stream := some did.session, coroutine := .finished, deleteLater := true }
    | .suspended => some { s with stream := some did.session, coroutine := .suspended }
    | .crashed => none
  | (.threw _, _) => some { s with stream := none, coroutine := .finished, deleteLater := true }
  | (.suspended, _) => some { s with stream := none, coroutine := .suspended }
  | (.crashed, _) => none

/-- What a call on a session finds: the answers up to where the coroutine suspends again. -/
structure Env where
  /-- When `setSessionTimeout` is last called. -/
  now : Int
  mem : Memory
  answers : Answers

/-- `m_ioYield(ec)`. -/
def resume (cfg : Configured) (s : ServerSession P) (env : Env) : Option (ServerSession P) :=
  if s.answers.Extend env.answers ∧ cfg.start ≤ env.now then
    ioLoop cfg env.mem { s with answers := env.answers, timeoutSet := env.now }
  else none

/-- `quitIoLoop`, if the coroutine ends. -/
def quitIoLoop (cfg : Configured) (s : ServerSession P) (env : Env) : Option (ServerSession P) :=
  if s.coroutine = .finished then some s
  else (s.resume cfg env).bind fun s' => if s'.coroutine = .finished then some s' else none

/-- What the thread of the loop calls. -/
inductive Call where
  /-- `processEvents` with `EPOLLERR`, `EPOLLRDHUP` or `EPOLLHUP`. -/
  | hangup (env : Env)
  /-- `processEvents` with another event, or `wakeup`. -/
  | ready (env : Env)
  | timeout (env : Env)

def step (cfg : Configured) (s : ServerSession P) : Call → Option (ServerSession P)
  | .ready env => if s.coroutine = .finished then some { s with deleteLater := true } else s.resume cfg env
  | .hangup env | .timeout env => (s.quitIoLoop cfg env).map fun s => { s with deleteLater := true }

/-- A session that waits has a deadline; one that does not is shut down or will be deleted. -/
def CanEnd (s : ServerSession P) : Prop :=
  (s.coroutine ≠ .finished ∧ s.nextTimeout ≠ 0) ∨
  (s.coroutine = .finished ∧ (s.isShutdown = true ∨ s.deleteLater = true))

end ServerSession

/-! ## What handlers and requests may do -/

/-- A timeout of so many seconds does not end at the epoch or before it. -/
def AfterEpoch (start : Int) (seconds : Int) : Prop := seconds ≠ 0 → 0 < start + nanoseconds seconds

/-- The handler does not call `setSessionTimeout`, and every keep-alive it sets ends after the epoch. -/
def Handler.SetsNoTimeout (start : Int) : Handler → Prop
  | .ret | .throw _ => True
  | .modify _ next => next.SetsNoTimeout start
  | .receive next | .read next => ∀ e req, (next e req).SetsNoTimeout start
  | .write _ next | .writev _ next => ∀ e, (next e).SetsNoTimeout start
  | .respond res next => (res.keepAlive ≠ -1 → AfterEpoch start res.keepAlive) ∧ ∀ e, (next e).SetsNoTimeout start
  | .yield next => ∀ y, (next y).SetsNoTimeout start
  | .setKeepAlive seconds next => AfterEpoch start seconds ∧ next.SetsNoTimeout start
  | .setSessionTimeout _ _ => False

/-- So does every handler of the server. -/
def Configured.SetsNoTimeout (cfg : Configured) : Prop :=
  ∀ req handler, cfg.createSession req = .ok (some handler) → handler.SetsNoTimeout cfg.start

/-- A handler is only started for a request for which its timeout is not 0. -/
def Event.Timed (srv : Server) : Event → Prop
  | .created req => 0 < srv.keepAliveTimeout ∨ req.contentLength = chunkedData ∨ 512 * 1024 ≤ req.contentLength
  | _ => True

instance (srv : Server) : ∀ e : Event, Decidable (e.Timed srv)
  | .created _ => inferInstanceAs (Decidable (_ ∨ _ ∨ _))
  | .entered _ _ | .executed _ _ | .suspended _ _ | .served _ _ _ _ | .shutdown => isTrue trivial

/-- All of its requests are. -/
def ServerSession.Timed (srv : Server) (s : ServerSession P) : Prop :=
  ∀ stream ∈ s.stream, ∀ e ∈ stream.trace, e.Timed srv

instance (srv : Server) (s : ServerSession P) : Decidable (s.Timed srv) := by
  unfold ServerSession.Timed
  infer_instance

/-- The step leads to a session with such requests. -/
def ServerSession.StaysTimed (cfg : Configured) (s : ServerSession P) (call : ServerSession.Call) : Prop :=
  ∀ s' ∈ s.step cfg call, s'.Timed cfg.toServer

instance (cfg : Configured) (s : ServerSession P) (call : ServerSession.Call) : Decidable (s.StaysTimed cfg call) := by
  unfold ServerSession.StaysTimed
  infer_instance

/-! ## The stream keeps a deadline -/

/-- There is a timeout, and neither it nor the keep-alive ends at the epoch. -/
structure Armed (start : Int) (s : Session P) : Prop where
  ne_zero : s.sessionTimeout ≠ 0
  timeout : AfterEpoch start s.sessionTimeout
  keepAlive : AfterEpoch start s.keepAlive

/-- The session has the timeouts it had. -/
structure SameTimeouts (s t : Session P) : Prop where
  timeout : t.sessionTimeout = s.sessionTimeout
  keepAlive : t.keepAlive = s.keepAlive

theorem SameTimeouts.armed {s t : Session P} (h : SameTimeouts s t) {start : Int} (hs : Armed start s) : Armed start t := by
  obtain ⟨h₁, h₂⟩ := h
  exact ⟨h₁ ▸ hs.ne_zero, h₁ ▸ hs.timeout, h₂ ▸ hs.keepAlive⟩

theorem afterEpoch_of_nonneg {start : Int} (hstart : 0 ≤ start) {seconds : Int} (h : 0 ≤ seconds) :
    AfterEpoch start seconds := by
  intro hne
  unfold nanoseconds
  omega

theorem timePoint_ne_of_pos {now seconds : Int} (hnow : 0 ≤ now) (hpos : 0 < seconds) :
    sessionTimeoutTimePoint now seconds ≠ 0 := by
  unfold sessionTimeoutTimePoint nanoseconds
  split <;> omega

/-- Whenever it was set, such a timeout is a deadline. -/
theorem Armed.timePoint_ne {start now : Int} {s : Session P} (h : Armed start s) (hnow : start ≤ now) :
    sessionTimeoutTimePoint now s.sessionTimeout ≠ 0 := by
  have := h.timeout h.ne_zero
  rw [sessionTimeoutTimePoint, if_pos h.ne_zero]
  omega

theorem Reading.timeouts {s t : Session P} (h : Reading s t) : SameTimeouts s t := ⟨h.timeout, h.keepAlive⟩

section Handlers

variable {start : Int} {s : Session P}

theorem write_timeouts (s : Session P) (buffer : Bytes) : SameTimeouts s (s.write buffer).1 := ⟨rfl, rfl⟩

theorem writev_timeouts (s : Session P) (buffers : List Bytes) : SameTimeouts s (s.writev buffers).1 := ⟨rfl, rfl⟩

/-- `stream << res` only makes the timeout longer. -/
theorem respond_armed (hstart : 0 ≤ start) (h : Armed start s) (res : Response)
    (hres : res.keepAlive ≠ -1 → AfterEpoch start res.keepAlive) : Armed start (s.respond res).1 := by
  have hka : Armed start (if res.keepAlive ≠ -1 then s.setKeepAlive res.keepAlive else s) := by
    split
    · rename_i hne
      exact ⟨h.ne_zero, h.timeout, hres hne⟩
    · exact h
  unfold Session.respond
  dsimp only
  refine (write_timeouts _ _).armed ?_
  split
  · have hpos : 0 < max (if res.keepAlive ≠ -1 then s.setKeepAlive res.keepAlive else s).sessionTimeout
        (10 + res.contentLength / (512 * 1024) : Nat) := lt_max_of_lt_right (by omega)
    exact ⟨hpos.ne', afterEpoch_of_nonneg hstart hpos.le, hka.keepAlive⟩
  · exact hka

theorem receive_armed (hstart : 0 ≤ start) (mem : Memory) (h : Armed start s) (req : Request) :
    Armed start (s.receive mem req).session := by
  unfold Session.receive
  split
  · split
    · exact h
    · have hres := respond_armed hstart h { statusCode := 100 } fun hne => absurd rfl hne
      generalize s.respond { statusCode := 100 } = r at hres ⊢
      obtain ⟨s', ended⟩ := r
      cases ended with
      | returned => exact (read_reading mem s' req).timeouts.armed hres
      | threw e => exact hres
      | suspended => exact hres
      | crashed => exact hres
  · exact (read_reading mem s req).timeouts.armed h

theorem resume_armed {d : Did P} {next : Option Exc → Session P → Request → Did P} (h : Armed start d.session)
    (hnext : ∀ e t req, Armed start t → Armed start (next e t req).session) :
    Armed start (Handler.resume d next).session := by
  unfold Handler.resume
  split
  · exact hnext _ _ _ h
  · exact hnext _ _ _ h
  · exact h

theorem run_armed (hstart : 0 ≤ start) (mem : Memory) {handler : Handler} (hh : handler.SetsNoTimeout start)
    (h : Armed start s) (req : Request) : Armed start (handler.run mem s req).session := by
  induction handler generalizing s req with
  | ret => exact h
  | throw e => exact h
  | modify f next ih => exact ih hh h (f req)
  | receive next ih =>
    exact resume_armed (receive_armed hstart mem h req) fun e t req' ht => ih e req' (hh e req') ht req'
  | read next ih =>
    exact resume_armed ((read_reading mem s req).timeouts.armed h) fun e t req' ht => ih e req' (hh e req') ht req'
  | write buffer next ih =>
    exact resume_armed ((write_timeouts s buffer).armed h) fun e t req' ht => ih e (hh e) ht req'
  | writev buffers next ih =>
    exact resume_armed ((writev_timeouts s buffers).armed h) fun e t req' ht => ih e (hh e) ht req'
  | respond res next ih => exact resume_armed (respond_armed hstart h res hh.1) fun e t req' ht => ih e (hh.2 e) ht req'
  | yield next ih =>
    unfold Handler.run
    split
    · exact h
    · rename_i y ys _
      exact ih y (hh y) (s := { s with yields := ys, yielded := y }) ⟨h.ne_zero, h.timeout, h.keepAlive⟩ req
  | setKeepAlive seconds next ih => exact ih hh.2 (s := s.setKeepAlive seconds) ⟨h.ne_zero, h.timeout, hh.1⟩ req
  | setSessionTimeout seconds next ih => exact hh.elim

end Handlers

section Loop

variable {cfg : Configured} {mem : Memory} {s : Session P}

/-- The timeout of a handler. -/
theorem startHandler_armed {req : Request} (hreq : (Event.created req).Timed cfg.toServer) :
    Armed cfg.start (s.startHandler cfg.toServer req) := by
  have hnonneg := cfg.keepAlive_nonneg
  have hka : 0 ≤ (s.startHandler cfg.toServer req).keepAlive := by
    change 0 ≤ if req.keepAlive then cfg.keepAliveTimeout else 0
    split <;> omega
  have hpos : 0 < (s.startHandler cfg.toServer req).sessionTimeout := by
    change 0 < if req.contentLength ≠ chunkedData then cfg.keepAliveTimeout + (req.contentLength / (512 * 1024) : Nat)
      else 300
    split
    · rename_i hne
      rcases hreq with hpos | heq | hle
      · omega
      · exact absurd heq hne
      · have : 0 < req.contentLength / (512 * 1024) := Nat.div_pos hle (by decide)
        omega
    · decide
  exact ⟨hpos.ne', afterEpoch_of_nonneg cfg.start_nonneg hpos.le, afterEpoch_of_nonneg cfg.start_nonneg hka⟩

/-- A pass that goes on, waits or throws does so with a timeout. -/
theorem serve_armed (hsrv : cfg.SetsNoTimeout) (h : Armed cfg.start s)
    (htr : ∀ e ∈ (s.serve cfg.toServer mem).session.trace, e.Timed cfg.toServer)
    (hend : (s.serve cfg.toServer mem).again = true ∨ (s.serve cfg.toServer mem).ended ≠ .returned) :
    Armed cfg.start (s.serve cfg.toServer mem).session := by
  have hka : ∀ b : Bool, AfterEpoch cfg.start (if b then cfg.keepAliveTimeout else 0) := by
    intro b
    refine afterEpoch_of_nonneg cfg.start_nonneg ?_
    have := cfg.keepAlive_nonneg
    split <;> omega
  have hhead := (readHeaders_reading mem s).timeouts.armed h
  have hrun : ∀ (s' : Session P) {d : Data} {handler : Handler}, cfg.createSession d.req = .ok (some handler) →
      (∀ e ∈ (handler.run mem (s'.startHandler cfg.toServer d.req) d.req).session.trace, e.Timed cfg.toServer) →
      Armed cfg.start (handler.run mem (s'.startHandler cfg.toServer d.req) d.req).session := by
    intro s' d handler hcreate htr
    refine run_armed cfg.start_nonneg mem (hsrv _ _ hcreate) (startHandler_armed (htr _ ?_)) d.req
    exact (run_extends mem handler _ d.req).isPrefix.subset (List.mem_append.2 (.inr (List.mem_singleton.2 rfl)))
  generalize hpass : s.serve cfg.toServer mem = pass at htr hend ⊢
  cases hpass ▸ serve_serves cfg.toServer mem s with
  -- up to the handler the timeout is the one the pass started with
  | head _ => exact hhead
  | refused hread _ =>
    rw [hread] at hhead
    exact ⟨hhead.ne_zero, hhead.timeout, hka _⟩
  | unknown hread _ hr =>
    rw [hread] at hhead
    rw [hr]
    exact (write_timeouts _ _).armed ⟨hhead.ne_zero, hhead.timeout, hka _⟩
  | @done s' t d d' handler _ hcreate hret =>
    have ht := hrun s' hcreate (fun e he => htr e (by rw [hret] at he; exact List.mem_append.2 (.inl he)))
    rw [hret] at ht
    -- the loop goes on, so the keep-alive is not 0
    have hne : t.keepAlive ≠ 0 := by
      rcases hend with hagain | hne
      · exact of_decide_eq_true (Bool.and_eq_true_iff.1 hagain).2
      · exact absurd rfl hne
    exact ⟨hne, ht.keepAlive, ht.keepAlive⟩
  | left _ hcreate _ => exact hrun _ hcreate htr

theorem loop_armed (mem : Memory) (hsrv : cfg.SetsNoTimeout) (n : Nat) (h : Armed cfg.start s)
    (htr : ∀ e ∈ (s.loop cfg.toServer mem n).session.trace, e.Timed cfg.toServer)
    (hend : (s.loop cfg.toServer mem n).ended ≠ .returned) : Armed cfg.start (s.loop cfg.toServer mem n).session := by
  induction n generalizing s with
  | zero => exact h
  | succ n ih =>
    unfold Session.loop at htr hend ⊢
    dsimp only at htr hend ⊢
    split
    · rename_i hagain
      rw [if_pos hagain] at htr hend
      refine ih (serve_armed hsrv h (fun e he => htr e ((loop_isPrefix _ _ _ _).subset he)) (.inl hagain)) htr hend
    · rename_i hagain
      rw [if_neg hagain] at htr hend
      exact serve_armed hsrv h htr (.inr hend)

/-- A stream that waits has a timeout. -/
theorem ioLoop_armed (hsrv : cfg.SetsNoTimeout) (hka : s.keepAlive = 0)
    (htr : ∀ e ∈ (s.ioLoop cfg.toServer mem).session.trace, e.Timed cfg.toServer)
    (hend : (s.ioLoop cfg.toServer mem).ended = .suspended) : Armed cfg.start (s.ioLoop cfg.toServer mem).session := by
  have hpos := cfg.headers_pos
  have hfirst : Armed cfg.start (s.setSessionTimeout cfg.headersTimeout) :=
    ⟨hpos.ne', afterEpoch_of_nonneg cfg.start_nonneg hpos.le, fun hne => absurd hka hne⟩
  have hloop := loop_armed mem hsrv (s.reads.length + 1) hfirst
  have hio := Session.ioLoop.eq_def cfg.toServer mem s
  generalize (s.setSessionTimeout cfg.headersTimeout).loop cfg.toServer mem (s.reads.length + 1) = did at hloop hio
  dsimp only at hio
  cases hended : did.ended with
  | returned =>
    simp only [hended] at hio
    rw [hio] at hend
    cases hend
  | threw e =>
    simp only [hended] at hio
    generalize hr : (if did.session.canWriteError = true then did.session.write (Session.errorResponse cfg.toServer e)
      else (did.session, Ended.returned)) = r at hio
    have hsame : SameTimeouts did.session r.1 ∧ r.1.trace = did.session.trace := by
      rw [← hr]
      split <;> exact ⟨⟨rfl, rfl⟩, rfl⟩
    obtain ⟨s', ended⟩ := r
    cases ended with
    | suspended =>
      -- the error response is written with the timeout that was in force
      rw [hio] at htr ⊢
      exact hsame.1.armed (hloop (hsame.2 ▸ htr) (by rw [hended]; exact fun he => by cases he))
    | returned =>
      rw [hio] at hend
      cases hend
    | threw e =>
      rw [hio] at hend
      cases hend
    | crashed =>
      rw [hio] at hend
      cases hend
  | suspended =>
    simp only [hended] at hio
    rw [hio] at htr ⊢
    exact hloop htr (by rw [hended]; decide)
  | crashed =>
    simp only [hended] at hio
    rw [hio, hended] at hend
    cases hend

end Loop

/-! ## Every call keeps it -/

namespace ServerSession

variable {cfg : Configured} {mem : Memory} {s s' : ServerSession P}

/-- A session that `ioLoop` has shut down, or is shutting down, can end. -/
theorem shutdown_canEnd (stream : Session P) (hset : cfg.start ≤ s.timeoutSet) :
    (s.shutdown cfg stream).ownTimeout = s.ownTimeout ∧ (s.shutdown cfg stream).CanEnd := by
  unfold shutdown
  dsimp only
  split
  · split
    · have hne := timePoint_ne_of_pos (cfg.start_nonneg.trans hset) cfg.shutdown_pos
      exact ⟨rfl, .inl ⟨by simp, hne⟩⟩
    · exact ⟨rfl, .inr ⟨rfl, .inl rfl⟩⟩
  · exact ⟨rfl, .inr ⟨rfl, .inl rfl⟩⟩

section Steps

variable (hsrv : cfg.SetsNoTimeout)
include hsrv

theorem ioLoop_canEnd (hown : s.ownTimeout ≠ 0) (hset : cfg.start ≤ s.timeoutSet) (h : s.ioLoop cfg mem = some s')
    (ht : s'.Timed cfg.toServer) : s'.ownTimeout = s.ownTimeout ∧ s'.CanEnd := by
  unfold ioLoop at h
  split at h
  · rename_i yielded _
    dsimp only at h
    split at h
    · cases h
      exact shutdown_canEnd _ hset
    · cases h
      exact ⟨rfl, .inr ⟨rfl, .inr rfl⟩⟩
    · rename_i hsusp
      cases h
      exact ⟨rfl, .inl ⟨by simp, (ioLoop_armed hsrv rfl (ht _ rfl) hsusp).timePoint_ne hset⟩⟩
    · cases h
  · cases h
    exact ⟨rfl, .inr ⟨rfl, .inr rfl⟩⟩
  · -- `SSL_accept` waits; there is no stream yet
    cases h
    exact ⟨rfl, .inl ⟨by simp, hown⟩⟩
  · cases h

theorem resume_canEnd {env : Env} (hown : s.ownTimeout ≠ 0) (h : s.resume cfg env = some s') (ht : s'.Timed cfg.toServer) :
    s'.ownTimeout = s.ownTimeout ∧ s'.CanEnd := by
  unfold resume at h
  split at h
  · rename_i hext
    exact ioLoop_canEnd hsrv (s := { s with answers := env.answers, timeoutSet := env.now }) hown hext.2 h ht
  · cases h

/-- After `quitIoLoop` and `deleteLater`. -/
theorem quit_canEnd {env : Env} (hown : s.ownTimeout ≠ 0)
    (h : (s.quitIoLoop cfg env).map (fun s => { s with deleteLater := true }) = some s') (ht : s'.Timed cfg.toServer) :
    s'.ownTimeout = s.ownTimeout ∧ s'.CanEnd := by
  obtain ⟨q, hq, rfl⟩ := Option.map_eq_some_iff.1 h
  unfold quitIoLoop at hq
  split at hq
  · cases hq
    exact ⟨rfl, .inr ⟨‹_›, .inr rfl⟩⟩
  · obtain ⟨t, hresume, hq⟩ := Option.bind_eq_some_iff.1 hq
    split at hq
    · cases hq
      exact ⟨(resume_canEnd hsrv hown hresume ht).1, .inr ⟨‹_›, .inr rfl⟩⟩
    · cases hq

theorem step_canEnd (s : ServerSession P) (call : Call) (s' : ServerSession P) (hi : s.ownTimeout ≠ 0 ∧ s.CanEnd)
    (hok : s.StaysTimed cfg call) (h : s.step cfg call = some s') : s'.ownTimeout ≠ 0 ∧ s'.CanEnd := by
  have hkeep : s'.ownTimeout = s.ownTimeout ∧ s'.CanEnd := by
    have ht := hok s' h
    cases call with
    | ready env =>
      simp only [step] at h
      split at h
      · cases h
        exact ⟨rfl, .inr ⟨‹_›, .inr rfl⟩⟩
      · exact resume_canEnd hsrv hi.1 h ht
    | hangup env => exact quit_canEnd hsrv hi.1 h ht
    | timeout env => exact quit_canEnd hsrv hi.1 h ht
  exact ⟨hkeep.1 ▸ hi.1, hkeep.2⟩

end Steps

/-- In every run in which a handler is only started with a timeout, every session that waits has a deadline, and every other
one is shut down or handed to `deleteLater`. -/
theorem can_end (cfg : Configured) (hsrv : cfg.SetsNoTimeout) (now : Int) (hnow : cfg.start ≤ now) (calls : List Call)
    (h : Runs.Along (step cfg) (StaysTimed cfg) (create cfg now : ServerSession P) calls) :
    Runs.Always (step cfg) CanEnd (create cfg now : ServerSession P) calls := by
  have hown : (create cfg now : ServerSession P).ownTimeout ≠ 0 := by
    have := cfg.start_nonneg
    have := cfg.headers_pos
    unfold create nanoseconds
    dsimp only
    omega
  exact Runs.always_of_along (step_canEnd hsrv) (fun s hi => hi.2) calls ⟨hown, .inl ⟨by simp [create], hown⟩⟩ h

end ServerSession

/-! ## A server without keep-alive -/

/-- A handler that reads the body and then responds. -/
def bodyHandler : Handler := .receive (rethrow (.respond okResponse fun _ => .ret))

theorem bodyHandler_setsNoTimeout (start : Int) : bodyHandler.SetsNoTimeout start := by
  intro e req
  cases e with
  | none => exact ⟨fun h => absurd rfl h, fun _ => trivial⟩
  | some e => trivial

/-- A server with this handler and the default timeouts, but for `keepalive_timeout`. -/
def bodyServer (keepAliveTimeout : Nat) : Configured where
  headersTimeout := 5
  keepAliveTimeout := keepAliveTimeout
  createSession _ := .ok (some bodyHandler)
  message _ := []
  ssl := false
  sslAcceptTimeout := 5
  sslShutdownTimeout := 2
  start := 0
  headers_pos := by decide
  accept_pos := by decide
  shutdown_pos := by decide
  keepAlive_nonneg := Int.natCast_nonneg _
  start_nonneg := Int.le_refl 0

/-- The head arrives, and nothing after it. -/
def headOnly : ServerSession.Env where
  now := 7
  mem := plainMemory
  answers := { reads := [.data post.bytes] }

/-- The loop wakes the session up, with a timeout. -/
def timedOut : ServerSession.Env :=
  { headOnly with answers := { reads := postTimesOut.reads, writes := postTimesOut.writes } }

namespace ServerSession

theorem can_end_keepalive :
    Runs.Always (step (bodyServer 10)) CanEnd (create (bodyServer 10) 7 : ServerSession postParser)
      [.ready headOnly, .timeout timedOut] := by
  refine can_end (bodyServer 10) ?_ 7 (by decide) _ (by decide)
  intro req handler h
  cases h
  exact bodyHandler_setsNoTimeout _

/-- Without keep-alive, the session waits for the body and has no deadline. -/
theorem no_deadline :
    bodyHandler.SetsNoTimeout (bodyServer 0).start ∧
    ∃ s, step (bodyServer 0) (create (bodyServer 0) 7 : ServerSession postParser) (.ready headOnly) = some s ∧
      s.coroutine = .suspended ∧ s.nextTimeout = 0 ∧ ¬ s.CanEnd := by
  refine ⟨bodyHandler_setsNoTimeout _, ?_⟩
  have hrun : (step (bodyServer 0) (create (bodyServer 0) 7 : ServerSession postParser) (.ready headOnly)).map
      (fun s => (s.coroutine, s.nextTimeout)) = some (.suspended, 0) := by decide
  obtain ⟨s, hs, he⟩ := Option.map_eq_some_iff.1 hrun
  obtain ⟨hco, hnext⟩ := Prod.mk.inj he
  refine ⟨s, hs, hco, hnext, ?_⟩
  rintro (⟨-, hne⟩ | ⟨hfin, -⟩)
  · exact hne hnext
  · rw [hco] at hfin
    cases hfin

end ServerSession

end Getodac
