import Getodac.Buffer
import Getodac.Parser
import Getodac.Write
/-!
# `BasicHttpSession`

A session and the operations on it, as state passing over the answers of its
environment. The trace records what the statements about a session speak of.

Two things in memory are not the session's: `sharedReadBuffer`, which all
sessions of a loop use between two yields of this one, and what follows a heap
block that is read past its end.
-/

namespace Getodac

/-- What one call of `readSome` answers, and `m_yield()` after it. -/
inductive ReadResult where
  | data (bs : Bytes)
  /-- Nothing to read, or the peer has closed: `readSome` returns 0 and `m_yield()` returns `resume`. -/
  | again (resume : Option ErrorCode)
  | failed (ec : ErrorCode)
deriving DecidableEq, Repr

/-- What a session finds in memory when `n` answers of `readSome` are still to come. -/
structure Memory where
  shared : Nat → Bytes
  /-- Behind the block of `m_httpParserBuffer`; `none` cannot be read. -/
  behindCarry : Nat → Option Bytes
  behindShared : Nat → Option Bytes

inductive Phase where
  | readHeaders
  | read
deriving DecidableEq, Repr

inductive Event where
  /-- `readHeaders` is called with these bytes in `m_httpParserBuffer` and this answer to come. -/
  | entered (carried : Bytes) (answer : Option ReadResult)
  /-- `http_parser_execute`. -/
  | executed (phase : Phase) (bs : Bytes)
  | suspended (phase : Phase) (carried : Bytes)
  /-- The handler of the request starts. -/
  | created (req : Request)
  /-- It returns, with these answers of `readSome` still to come and what the loop then tests. -/
  | served (req : Request) (left : List ReadResult) (keepAlive : Int) (yielded : Option ErrorCode)
  | shutdown

/-- A session: `m_parser`, `m_httpParserBuffer`, `m_can_write_errror`, `m_keepAlive`, `m_sessionTimeout`,
`m_yield.get()`, and its environment. -/
structure Session (P : HttpParser) where
  parser : P.State := P.init
  httpParserBuffer : Bytes := []
  canWriteError : Bool := false
  keepAlive : Int := 0
  sessionTimeout : Int := 0
  yielded : Option ErrorCode := none
  -- the answers of `readSome`, `writeSome` and of the yields of handlers, and what was sent
  reads : List ReadResult
  writes : List WriteResult := []
  yields : List (Option ErrorCode) := []
  sent : Bytes := []
  trace : List Event := []

/-- How an operation ended. -/
inductive Ended where
  | returned
  | threw (e : Exc)
  /-- The environment has no more answers. -/
  | suspended
  /-- Memory was read that cannot be read. -/
  | crashed
deriving DecidableEq, Repr

/-- An operation on a session and a request. -/
structure Did (P : HttpParser) where
  ended : Ended
  session : Session P
  data : Data

variable {P : HttpParser}

namespace Session

def log (s : Session P) (e : Event) : Session P := { s with trace := s.trace ++ [e] }

/-! ## Parsing -/

/-- `http_parser_execute`, with the test of `http_errno` that follows it everywhere, and the bytes it used. -/
def execute (s : Session P) (phase : Phase) (d : Data) (bs : Bytes) : Did P × Nat :=
  let r := P.execute s.parser bs
  let s := s.log (.executed phase bs)
  match d.callAll r.calls with
  | (d', some (e, left)) => (⟨.threw e, { s with parser := P.thrown s.parser bs left }, d'⟩, 0)
  | (d', none) =>
    let s := { s with parser := r.state }
    if r.error then (⟨.threw (.error_code .bad_message), s, d'⟩, 0) else (⟨.returned, s, d'⟩, r.parsed)

/-- The string a `const char *` to these bytes makes: up to the first NUL, here or behind them. -/
def cString (bs : Bytes) (behind : Option Bytes) : Option Bytes :=
  if 0 ∈ bs then some (bs.takeWhile (· ≠ 0)) else behind.map fun g => bs ++ g.takeWhile (· ≠ 0)

end Session

/-- Cut after each CR LF. -/
def splitLines {α : Type} (byte : α → UInt8) : List α → List (List α)
  | [] => []
  | [a] => [[a]]
  | a :: b :: rest =>
    if byte a = 13 ∧ byte b = 10 then [a, b] :: splitLines byte rest
    else
      match splitLines byte (b :: rest) with
      | [] => [[a]]
      | l :: ls => (a :: l) :: ls

/-- The loops of `readHeaders` end. -/
def Data.headDone (d : Data) : Bool := d.req.state = .HeadersCompleted || d.req.state = .Completed

namespace Session

/-- The inner loop of `readHeaders` over the lines it cuts the buffer into. What it leaves goes to `m_httpParserBuffer`. -/
def feedLines (s : Session P) (d : Data) : List Bytes → Did P
  | [] => ⟨.returned, { s with httpParserBuffer := [] }, d⟩
  | l :: ls =>
    if d.headDone then ⟨.returned, { s with httpParserBuffer := (l :: ls).flatten }, d⟩
    else
      match s.execute .readHeaders d l with
      | (⟨.returned, s', d'⟩, parsed) =>
        if parsed ≠ l.length then ⟨.returned, { s' with httpParserBuffer := ls.flatten }, d'⟩
        else feedLines s' d' ls
      | (did, _) => did

/-- The shared buffer before `readSome`, with the bytes `carried` in front. -/
def fill (mem : Memory) (n : Nat) (carried : Bytes) : Buffer :=
  let buffer := Buffer.reset { mem := mem.shared n }
  if carried = [] then buffer else buffer.prepend carried

/-- The bytes to parse once `readSome` has put `bs` into the buffer. -/
def received (mem : Memory) (n : Nat) (buffer : Buffer) (bs : Bytes) (tempSize : Nat) : Option Bytes :=
  ((buffer.store buffer.current bs).reset.setCurrentSize (bs.length + tempSize)).currentString (mem.behindShared n)

/-- The outer loop of `readHeaders`, over the answers of `readSome`. -/
def readHeadersLoop (mem : Memory) : List ReadResult → Session P → Data → Did P
  | [], s, d => ⟨.suspended, s, d⟩
  | r :: rs, s, d =>
    let s := { s with reads := rs }
    -- `currentData()` is a pointer, not a string
    match if s.httpParserBuffer = [] then some [] else cString s.httpParserBuffer (mem.behindCarry rs.length) with
    | none => ⟨.crashed, s, d⟩
    | some carried =>
      let buffer := fill mem rs.length carried
      match r with
      | .failed ec => ⟨.threw (.error_code ec), s, d⟩
      | .again resume =>
        let s := { s.log (.suspended .readHeaders s.httpParserBuffer) with yielded := resume }
        match resume with
        | some ec => ⟨.threw (.error_code ec), s, d⟩
        | none => readHeadersLoop mem rs s d
      | .data bs =>
        -- `readSome` returns at least one byte and at most as many as there is room for
        if bs = [] ∨ buffer.currentSize < bs.length then ⟨.suspended, s, d⟩
        else
          match received mem rs.length buffer bs s.httpParserBuffer.length with
          | none => ⟨.crashed, { s with canWriteError := true }, d⟩
          | some window =>
            match feedLines { s with canWriteError := true } d (splitLines id window) with
            | ⟨.returned, s', d'⟩ => if d'.headDone then ⟨.returned, s', d'⟩ else readHeadersLoop mem rs s' d'
            | did => did

def readHeaders (mem : Memory) (s : Session P) : Did P :=
  readHeadersLoop mem s.reads { s.log (.entered s.httpParserBuffer s.reads.head?) with parser := P.init } {}

/-- The loop of `read`, entered with a request that is not completed. -/
def readLoop (mem : Memory) : List ReadResult → Session P → Data → Did P
  | [], s, d => ⟨.suspended, s, d⟩
  | r :: rs, s, d =>
    let s := { s with reads := rs }
    let buffer := fill mem rs.length s.httpParserBuffer
    match r with
    | .failed ec => ⟨.threw (.error_code ec), s, d⟩
    | .again resume =>
      let s := { s.log (.suspended .read s.httpParserBuffer) with yielded := resume }
      match resume with
      | some ec => ⟨.threw (.error_code ec), s, d⟩
      | none => readLoop mem rs s d
    | .data bs =>
      if bs = [] ∨ buffer.currentSize < bs.length then ⟨.suspended, s, d⟩
      else
        match received mem rs.length buffer bs s.httpParserBuffer.length with
        | none => ⟨.crashed, s, d⟩
        | some window =>
          match s.execute .read d window with
          | (⟨.returned, s', d'⟩, parsed) =>
            if d'.req.state = .Completed then ⟨.returned, { s' with httpParserBuffer := [] }, d'⟩
            else readLoop mem rs { s' with httpParserBuffer := window.drop parsed } d'
          | (did, _) => did

def read (mem : Memory) (s : Session P) (req : Request) : Did P :=
  if req.state = .Completed then ⟨.returned, s, { req := req }⟩
  else
    let s := { s with canWriteError := true }
    let (did, parsed) := if s.httpParserBuffer = [] then (⟨.returned, s, { req := req }⟩, 0)
      else s.execute .read { req := req } s.httpParserBuffer
    match did with
    | ⟨.returned, s', d'⟩ =>
      if d'.req.state = .Completed then ⟨.returned, { s' with httpParserBuffer := [] }, d'⟩
      else readLoop mem s'.reads { s' with httpParserBuffer := s'.httpParserBuffer.drop parsed } d'
    | did => did

/-! ## Writing -/

/-- `m_yield.get()` after these answers. -/
def lastYield (y : Option ErrorCode) (used : List WriteResult) : Option ErrorCode :=
  used.foldl (fun y r => match r with | .again resume => resume | _ => y) y

/-- `writeSome` accepted something, or had nothing to write. -/
def accepts : WriteResult → Bool
  | .room _ _ => true
  | _ => false

/-- The session after one of the two overloads of `write`, with what else they set. -/
def wrote (s : Session P) (w : Wrote) : Session P × Ended :=
  let used := s.writes.take (s.writes.length - w.left.length)
  ({ s with
      writes := w.left
      sent := s.sent ++ w.sent
      yielded := lastYield s.yielded used
      canWriteError := s.canWriteError && !used.any accepts },
    match w.outcome with
    | .returned => .returned
    | .threw ec => .threw (.error_code ec)
    | .suspended => .suspended)

def write (s : Session P) (buffer : Bytes) : Session P × Ended := s.wrote (Getodac.write buffer s.writes)

def writev (s : Session P) (buffers : List Bytes) : Session P × Ended := s.wrote (Getodac.writev buffers s.writes)

def setKeepAlive (s : Session P) (seconds : Int) : Session P := { s with keepAlive := seconds }

def setSessionTimeout (s : Session P) (seconds : Int) : Session P := { s with sessionTimeout := seconds }

/-- `stream << res`. -/
def respond (s : Session P) (res : Response) : Session P × Ended :=
  let s := if res.keepAlive ≠ -1 then s.setKeepAlive res.keepAlive else s
  let s := if res.contentLength ≠ chunkedData then
      s.setSessionTimeout (max s.sessionTimeout (10 + res.contentLength / (512 * 1024) : Nat))
    else s
  s.write (res.toString s.keepAlive)

/-- `stream >> req`. -/
def receive (mem : Memory) (s : Session P) (req : Request) : Did P :=
  if req.fields.find (bytes "Expect") = some (bytes "100-continue") then
    if req.contentLength ≠ chunkedData ∧ req.maxBodySize < req.contentLength then
      ⟨.threw (.int 417), s, { req := req }⟩
    else
      match s.respond { statusCode := 100 } with
      | (s', .returned) => s'.read mem req
      | (s', ended) => ⟨ended, s', { req := req }⟩
  else s.read mem req

end Session

/-! ## Handlers and the request loop -/

/-- A handler by the operations it makes on the stream and on the request, where the next one depends on
how the last one ended. An exception it does not catch it throws. -/
inductive Handler where
  | ret
  | throw (e : Exc)
  /-- A setter of the request. -/
  | modify (f : Request → Request) (next : Handler)
  /-- `stream >> req`. -/
  | receive (next : Option Exc → Request → Handler)
  | read (next : Option Exc → Request → Handler)
  | write (buffer : Bytes) (next : Option Exc → Handler)
  | writev (buffers : List Bytes) (next : Option Exc → Handler)
  /-- `stream << res`. -/
  | respond (res : Response) (next : Option Exc → Handler)
  | yield (next : Option ErrorCode → Handler)
  | setKeepAlive (seconds : Int) (next : Handler)
  | setSessionTimeout (seconds : Int) (next : Handler)

namespace Handler

/-- Go on after an operation that returned or threw. -/
def resume (d : Did P) (next : Option Exc → Session P → Request → Did P) : Did P :=
  match d.ended with
  | .returned => next none d.session d.data.req
  | .threw e => next (some e) d.session d.data.req
  | _ => d

def run (mem : Memory) : Handler → Session P → Request → Did P
  | .ret, s, req => ⟨.returned, s, { req := req }⟩
  | .throw e, s, req => ⟨.threw e, s, { req := req }⟩
  | .modify f next, s, req => next.run mem s (f req)
  | .receive next, s, req => resume (s.receive mem req) fun e s req => (next e req).run mem s req
  | .read next, s, req => resume (s.read mem req) fun e s req => (next e req).run mem s req
  | .write buffer next, s, req =>
    resume ⟨(s.write buffer).2, (s.write buffer).1, { req := req }⟩ fun e s req => (next e).run mem s req
  | .writev buffers next, s, req =>
    resume ⟨(s.writev buffers).2, (s.writev buffers).1, { req := req }⟩ fun e s req => (next e).run mem s req
  | .respond res next, s, req =>
    resume ⟨(s.respond res).2, (s.respond res).1, { req := req }⟩ fun e s req => (next e).run mem s req
  | .yield next, s, req =>
    match s.yields with
    | [] => ⟨.suspended, s, { req := req }⟩
    | y :: ys => (next y).run mem { s with yields := ys, yielded := y } req
  | .setKeepAlive seconds next, s, req => next.run mem (s.setKeepAlive seconds) req
  | .setSessionTimeout seconds next, s, req => next.run mem (s.setSessionTimeout seconds) req

end Handler

/-- What `ioLoop` needs of the server and of the C library. -/
structure Server where
  headersTimeout : Int
  keepAliveTimeout : Int
  /-- `create_session` of the plugins. -/
  createSession : Request → Except Exc (Option Handler)
  message : ErrorCode → Bytes

/-- One pass of the request loop; `again` is the test at its end. -/
structure Pass (P : HttpParser) extends Did P where
  again : Bool

namespace Session

/-- The body of the loop of `ioLoop`. -/
def serve (srv : Server) (mem : Memory) (s : Session P) : Pass P :=
  match s.readHeaders mem with
  | ⟨.returned, s, d⟩ =>
    let s := s.setKeepAlive (if d.req.keepAlive then srv.keepAliveTimeout else 0)
    match srv.createSession d.req with
    | .error e => { ended := .threw e, session := s, data := d, again := false }
    | .ok none =>
      let (s, ended) := s.write ({ statusCode := 503 : Response }.toString)
      { ended := ended, session := s, data := d, again := false }
    | .ok (some handler) =>
      let length := d.req.contentLength
      let s := s.setSessionTimeout
        (if length ≠ chunkedData then srv.keepAliveTimeout + (length / (512 * 1024) : Nat) else 300)
      match handler.run mem (s.log (.created d.req)) d.req with
      | ⟨.returned, s, d⟩ =>
        let s := (s.setSessionTimeout s.keepAlive).log (.served d.req s.reads s.keepAlive s.yielded)
        { ended := .returned, session := s, data := d, again := s.yielded.isNone && s.keepAlive ≠ 0 }
      | did => { did with again := false }
  | did => { did with again := false }

/-- The loop. Every pass takes an answer of `readSome`, so there is fuel for all of them. -/
def loop (srv : Server) (mem : Memory) : Nat → Session P → Did P
  | 0, s => ⟨.suspended, s, {}⟩
  | n + 1, s =>
    let pass := s.serve srv mem
    if pass.again then pass.session.loop srv mem n else pass.toDid

/-- The response to an exception. -/
def errorResponse (srv : Server) : Exc → Bytes
  | .int error => { statusCode := if 0 < error ∧ error < 65535 then error.toNat else 500 : Response }.toString
  | .response res => res.toString
  | .exception what => { statusCode := 500, body := what : Response }.toString
  | .error_code ec => { statusCode := 500, body := srv.message ec : Response }.toString
  | .other => ({} : Response).toString

def ioLoop (srv : Server) (mem : Memory) (s : Session P) : Did P :=
  let did := (s.setSessionTimeout srv.headersTimeout).loop srv mem (s.reads.length + 1)
  match did.ended with
  | .returned => { did with session := did.session.log .shutdown }
  | .threw e =>
    let (s, ended) := if did.session.canWriteError then did.session.write (errorResponse srv e)
      else (did.session, .returned)
    -- an exception of this write leaves `ioLoop`
    match ended with
    | .returned => ⟨.returned, s.log .shutdown, did.data⟩
    | ended => ⟨ended, s, did.data⟩
  | _ => did

end Session

end Getodac
