import Getodac.KeepAlive
import Getodac.Timeouts
/-!
# The coroutine of a session, answer by answer

`Session.ioLoop` runs over lists of answers. Here the coroutine is the state it
waits in for the next answer, and `step` is what it does with one: a call of
`readSome`, `writeSome`, `SSL_accept` or `SSL_shutdown` that comes back at once,
or one after which the coroutine yields and is resumed. What a single answer
does is what the functions of `Session` do with a list of one.
-/

namespace Getodac

variable {P : HttpParser}

/-- What follows a write. -/
inductive After where
  /-- A handler. -/
  | handler (req : Request) (next : Option Exc → Handler)
  /-- `stream >> req`, after its `100 Continue`. -/
  | expect (req : Request) (next : Option Exc → Request → Handler)
  /-- The end of the loop, after a 503. -/
  | refuse (d : Data)
  /-- The end of a catch block. -/
  | caught (d : Data)

/-- Where the coroutine of a session waits. -/
inductive Point (P : HttpParser) where
  /-- In the constructor of a TLS session. -/
  | accept (s : Session P)
  /-- In `readHeaders`, before its first answer. -/
  | enter (s : Session P)
  | head (s : Session P) (d : Data)
  /-- In `read`. -/
  | body (s : Session P) (d : Data) (next : Option Exc → Request → Handler)
  | write (s : Session P) (buffer : Bytes) (ne : buffer ≠ []) (after : After)
  | writev (s : Session P) (buffers : List Bytes) (req : Request) (next : Option Exc → Handler)
  | yield (s : Session P) (req : Request) (next : Option ErrorCode → Handler)
  /-- In `shutdown` of a TLS session, with `count` more calls of `SSL_shutdown`. -/
  | shutdown (s : Session P) (count : Nat)
  | finished (s : Session P)
  | crashed (s : Session P)

/-- What the environment answers at one moment to whatever the session asks. `yield` is what a yield of a handler
returns, and that of a write that had nothing to send. -/
structure Env where
  mem : Memory
  accept : SslAccept
  read : ReadResult
  write : WriteResult
  yield : Option ErrorCode
  shutdown : SslShutdown

/-! What a yield after the answer returns. -/

def SslAccept.resume? : SslAccept → Option (Option ErrorCode)
  | .want resume => some resume
  | _ => none

def ReadResult.resume? : ReadResult → Option (Option ErrorCode)
  | .again resume => some resume
  | _ => none

def WriteResult.resume? : WriteResult → Option (Option ErrorCode)
  | .again resume => some resume
  | _ => none

def SslShutdown.resume? : SslShutdown → Option (Option ErrorCode)
  | .zero resume => some resume
  | _ => none

theorem SslAccept.resume_eq {a : SslAccept} {y : Option ErrorCode} (h : a.resume? = some y) : a = .want y := by
  cases a <;> cases h
  rfl

theorem ReadResult.resume_eq {r : ReadResult} {y : Option ErrorCode} (h : r.resume? = some y) : r = .again y := by
  cases r <;> cases h
  rfl

theorem WriteResult.resume_eq {w : WriteResult} {y : Option ErrorCode} (h : w.resume? = some y) : w = .again y := by
  cases w <;> cases h
  rfl

theorem SslShutdown.resume_eq {r : SslShutdown} {y : Option ErrorCode} (h : r.resume? = some y) : r = .zero y := by
  cases r <;> cases h
  rfl

theorem Response.toString_ne_nil (res : Response) (keepAliveOverride : Int) : res.toString keepAliveOverride ≠ [] := by
  rw [res.toString_eq]
  simp [crlf]

theorem errorResponse_ne_nil (srv : Server) (e : Exc) : Session.errorResponse srv e ≠ [] := by
  rw [errorResponse_eq]
  exact Response.toString_ne_nil _ _

/-- A gathering write that goes on has not come to the end. -/
theorem reslice_open {buffers : List Bytes} {k : Nat}
    (h : (reslice buffers buffers (min k buffers.flatten.length)).2 ≠ 0) :
    (reslice buffers buffers (min k buffers.flatten.length)).1.flatten =
      buffers.flatten.drop (min k buffers.flatten.length) ∧ k < buffers.flatten.length := by
  obtain ⟨hzero, hrest⟩ := reslice_spec buffers buffers (min k buffers.flatten.length) (Nat.min_le_right _ _)
  have hinside : min k buffers.flatten.length ∉ bounds buffers := fun hb => h (hzero.2 hb)
  refine ⟨(hrest hinside).1, ?_⟩
  by_contra hle
  rw [Nat.min_eq_right (Nat.le_of_not_lt hle)] at hinside
  exact hinside (length_mem_bounds buffers)

namespace Point

variable (ssl : Bool) (srv : Server)

/-- `shutdown()`, at the end of `ioLoop`. A TLS session whose handshake is not finished is one whose first `SSL_shutdown`
is not 0: both end it. -/
def close (s : Session P) : Point P :=
  if ssl then .shutdown (s.log .shutdown) 5 else .finished (s.log .shutdown)

/-- The catch blocks of `ioLoop`. -/
def catching (s : Session P) (d : Data) (e : Exc) : Point P :=
  if s.canWriteError then .write s (Session.errorResponse srv e) (errorResponse_ne_nil srv e) (.caught d) else close ssl s

/-- The end of the body of the loop, after the handler. -/
def served (s : Session P) (req : Request) : Point P :=
  let s := (s.setSessionTimeout s.keepAlive).log (.served req s.reads s.keepAlive s.yielded)
  if s.yielded.isNone && s.keepAlive ≠ 0 then .enter s else close ssl s

/-- A `read` with the answers so far: it waits, or the handler goes on with what it threw. -/
def reading (next : Option Exc → Request → Handler) (goOn : Option Exc → Session P → Request → Point P) (did : Did P) :
    Point P :=
  match did.ended with
  | .returned => goOn none did.session did.data.req
  | .threw e => goOn (some e) did.session did.data.req
  | .suspended => .body did.session did.data next
  | .crashed => .crashed did.session

/-- A handler, up to the next answer it needs. -/
def goOn (mem : Memory) : Handler → Session P → Request → Point P
  | .ret, s, req => served ssl s req
  | .throw e, s, req => catching ssl srv s { req := req } e
  | .modify f next, s, req => goOn mem next s (f req)
  | .receive next, s, req =>
    if req.fields.find (bytes "Expect") = some (bytes "100-continue") then
      if req.contentLength ≠ chunkedData ∧ req.maxBodySize < req.contentLength then
        goOn mem (next (some (.int 417)) req) s req
      else
        let s := s.responding { statusCode := 100 }
        .write s (Response.toString { statusCode := 100 } s.keepAlive) (Response.toString_ne_nil _ _) (.expect req next)
    else reading next (fun e s req => goOn mem (next e req) s req) (Session.read mem { s with reads := [] } req)
  | .read next, s, req =>
    reading next (fun e s req => goOn mem (next e req) s req) (Session.read mem { s with reads := [] } req)
  | .write buffer next, s, req =>
    if h : buffer = [] then goOn mem (next none) s req else .write s buffer h (.handler req next)
  | .writev buffers next, s, req => .writev s buffers req next
  | .respond res next, s, req =>
    let s := s.responding res
    .write s (res.toString s.keepAlive) (res.toString_ne_nil _) (.handler req next)
  | .yield next, s, req => .yield s req next
  | .setKeepAlive seconds next, s, req => goOn mem next (s.setKeepAlive seconds) req
  | .setSessionTimeout seconds next, s, req => goOn mem next (s.setSessionTimeout seconds) req

/-- `create_session`, and the handler. -/
def create (mem : Memory) (s : Session P) (d : Data) : Point P :=
  let kept := s.setKeepAlive (if d.req.keepAlive then srv.keepAliveTimeout else 0)
  match srv.createSession d.req with
  | .error e => catching ssl srv kept d e
  | .ok none => .write kept ({ statusCode := 503 : Response }.toString) (Response.toString_ne_nil _ _) (.refuse d)
  | .ok (some handler) => goOn ssl srv mem handler (s.startHandler srv d.req) d.req

/-- `readHeaders` with the answers so far. -/
def readingHead (mem : Memory) (did : Did P) : Point P :=
  match did.ended with
  | .returned => create ssl srv mem did.session did.data
  | .threw e => catching ssl srv did.session did.data e
  | .suspended => .head did.session did.data
  | .crashed => .crashed did.session

/-- After a write, with the exception it threw. -/
def written (mem : Memory) (s : Session P) : After → Option Exc → Point P
  | .handler req next, e => goOn ssl srv mem (next e) s req
  | .expect req next, none => goOn ssl srv mem (.read next) s req
  | .expect req next, some e => goOn ssl srv mem (next (some e) req) s req
  | .refuse _, none => close ssl s
  | .refuse d, some e => catching ssl srv s d e
  | .caught _, none => close ssl s
  -- the exception leaves `ioLoop`
  | .caught _, some _ => .finished s

/-- `writeSome` of no bytes returns 0, which the loop takes for `EAGAIN`. -/
def answerTo (e : Env) (buffers : List Bytes) : WriteResult :=
  match e.write with
  | .room k pos => if buffers.flatten = [] then .again e.yield else .room k pos
  | w => w

/-- What a gathering write has left after this answer, unless it ends. -/
def unsent (buffers : List Bytes) : WriteResult → List Bytes
  | .room k _ => (reslice buffers buffers (min k buffers.flatten.length)).1
  | _ => buffers

/-- The coroutine with the next answer. -/
def step (p : Point P) (e : Env) : Point P :=
  match p with
  | .accept s =>
    match e.accept with
    | .accepted true => .enter (s.setSessionTimeout srv.headersTimeout)
    | .want none => .accept { s with yielded := none }
    -- exceptions of the constructor
    | .accepted false | .failed => .finished s
    | .want (some ec) => .finished { s with yielded := some ec }
  | .enter s => readingHead ssl srv e.mem (Session.readHeaders e.mem { s with reads := [e.read] })
  | .head s d => readingHead ssl srv e.mem (Session.readHeadersLoop e.mem [e.read] { s with reads := [e.read] } d)
  | .body s d next =>
    reading next (fun ex s req => goOn ssl srv e.mem (next ex req) s req)
      (Session.readLoop e.mem [e.read] { s with reads := [e.read] } d)
  | .write s buffer ne after =>
    let s := (Session.write { s with writes := [e.write] } buffer).1
    match e.write with
    | .room k _ =>
      if h : buffer.drop k = [] then written ssl srv e.mem s after none else .write s (buffer.drop k) h after
    | .again none => .write s buffer ne after
    | .again (some ec) | .failed ec => written ssl srv e.mem s after (some (.error_code ec))
  | .writev s buffers req next =>
    match Session.writev { s with writes := [answerTo e buffers] } buffers with
    | (s, .returned) => goOn ssl srv e.mem (next none) s req
    | (s, .threw ex) => goOn ssl srv e.mem (next (some ex)) s req
    | (s, _) => .writev s (unsent buffers (answerTo e buffers)) req next
  | .yield s req next => goOn ssl srv e.mem (next e.yield) { s with yielded := e.yield } req
  | .shutdown s count =>
    match e.shutdown with
    | .zero none => if count ≤ 1 then .finished { s with yielded := none } else .shutdown { s with yielded := none } (count - 1)
    | .zero (some ec) => .finished { s with yielded := some ec }
    | .other => .finished s
  | .finished s => .finished s
  | .crashed s => .crashed s

/-- What the yield after this answer returns, if there is one. -/
def resumed (p : Point P) (e : Env) : Option (Option ErrorCode) :=
  match p with
  | .accept _ => e.accept.resume?
  | .enter _ | .head _ _ | .body _ _ _ => e.read.resume?
  | .write _ _ _ _ => e.write.resume?
  | .writev _ buffers _ _ => (answerTo e buffers).resume?
  | .yield _ _ _ => some e.yield
  | .shutdown _ _ => e.shutdown.resume?
  | .finished _ | .crashed _ => none

/-- With this answer `ioLoop` calls `create_session`. -/
def createsSession (p : Point P) (e : Env) : Bool :=
  match p with
  | .enter s => (Session.readHeaders e.mem { s with reads := [e.read] }).ended = .returned
  | .head s d => (Session.readHeadersLoop e.mem [e.read] { s with reads := [e.read] } d).ended = .returned
  | _ => false

/-- The coroutine after the first `n` answers. -/
def after (env : Nat → Env) : Nat → Point P → Point P
  | 0, p => p
  | n + 1, p => after (fun k => env (k + 1)) n (p.step ssl srv (env 0))

end Point

end Getodac
