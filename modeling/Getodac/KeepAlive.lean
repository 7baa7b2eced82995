import Getodac.ErrorResponses
import Getodac.Pipeline
import Getodac.Replies
/-!
# What a response says of the connection

The head of a response says `Connection: keep-alive` if the keep-alive it is
written with is positive. `ioLoop` goes on if the keep-alive of the stream is not
0, and an exception always leaves the loop, whatever the response in it says.

`connection_agrees_iff`: without I/O errors the final response says what the
server does exactly if the keep-alive it was sent with is not negative and, for
one that was thrown or that the handler threw after, not positive.
-/

namespace Getodac

variable {P : HttpParser}

/-! ## A handler, operation by operation -/

/-- A handler, the session and the request it goes on with. -/
structure Place (P : HttpParser) where
  handler : Handler
  session : Session P
  req : Request

namespace Place

def run (mem : Memory) (p : Place P) : Did P := p.handler.run mem p.session p.req

/-- Behind an operation that returned or threw. -/
def behind (d : Did P) (next : Option Exc → Request → Handler) : Option (Place P) :=
  match d.ended with
  | .returned => some ⟨next none d.data.req, d.session, d.data.req⟩
  | .threw e => some ⟨next (some e) d.data.req, d.session, d.data.req⟩
  | _ => none

/-- One operation of the handler, if there is one and it ends. -/
def next (mem : Memory) : Place P → Option (Place P)
  | ⟨.ret, _, _⟩ | ⟨.throw _, _, _⟩ => none
  | ⟨.modify f next, s, req⟩ => some ⟨next, s, f req⟩
  | ⟨.receive next, s, req⟩ => behind (s.receive mem req) next
  | ⟨.read next, s, req⟩ => behind (s.read mem req) next
  | ⟨.write buffer next, s, req⟩ =>
    behind ⟨(s.write buffer).2, (s.write buffer).1, { req := req }⟩ fun e _ => next e
  | ⟨.writev buffers next, s, req⟩ =>
    behind ⟨(s.writev buffers).2, (s.writev buffers).1, { req := req }⟩ fun e _ => next e
  | ⟨.respond res next, s, req⟩ =>
    behind ⟨(s.respond res).2, (s.respond res).1, { req := req }⟩ fun e _ => next e
  | ⟨.yield next, s, req⟩ =>
    match s.yields with
    | [] => none
    | y :: ys => some ⟨next y, { s with yields := ys, yielded := y }, req⟩
  | ⟨.setKeepAlive seconds next, s, req⟩ => some ⟨next, s.setKeepAlive seconds, req⟩
  | ⟨.setSessionTimeout seconds next, s, req⟩ => some ⟨next, s.setSessionTimeout seconds, req⟩

/-- The handler at the first place comes to the second. -/
def Reaches (mem : Memory) : Place P → Place P → Prop := Relation.ReflTransGen fun p q => p.next mem = some q

theorem behind_eq_some {d : Did P} {next : Option Exc → Request → Handler} {q : Place P} (h : behind d next = some q) :
    ∃ e, q = ⟨next e d.data.req, d.session, d.data.req⟩ := by
  unfold behind at h
  split at h
  · cases h
    exact ⟨none, rfl⟩
  · cases h
    exact ⟨some _, rfl⟩
  · cases h

theorem resume_eq (mem : Memory) (d : Did P) (next : Option Exc → Request → Handler) :
    Handler.resume d (fun e s req => (next e req).run mem s req) = (behind d next).elim d (Place.run mem) := by
  unfold Handler.resume behind
  cases d.ended <;> rfl

theorem run_behind (mem : Memory) {d : Did P} {next : Option Exc → Request → Handler} {q : Place P}
    (h : behind d next = some q) : Handler.resume d (fun e s req => (next e req).run mem s req) = q.run mem := by
  rw [resume_eq, h]
  rfl

theorem run_next {mem : Memory} {p q : Place P} (h : p.next mem = some q) : p.run mem = q.run mem := by
  obtain ⟨handler, s, req⟩ := p
  cases handler with
  | ret => cases h
  | throw e => cases h
  | modify f next => cases h; rfl
  | receive next =>
    rw [Place.next] at h
    exact run_behind mem h
  | read next =>
    rw [Place.next] at h
    exact run_behind mem h
  | write buffer next =>
    rw [Place.next] at h
    exact run_behind mem h
  | writev buffers next =>
    rw [Place.next] at h
    exact run_behind mem h
  | respond res next =>
    rw [Place.next] at h
    exact run_behind mem h
  | yield next =>
    simp only [Place.next, Place.run, Handler.run] at h ⊢
    cases hy : s.yields with
    | nil =>
      rw [hy] at h
      cases h
    | cons y ys =>
      rw [hy] at h
      cases h
      rfl
  | setKeepAlive seconds next => cases h; rfl
  | setSessionTimeout seconds next => cases h; rfl

/-- What the handler does in the end is what it does from any place it comes to. -/
theorem Reaches.run {mem : Memory} {p q : Place P} (h : p.Reaches mem q) : p.run mem = q.run mem := by
  induction h with
  | refl => rfl
  | tail _ hnext ih => exact ih.trans (run_next hnext)

/-- From here on the handler does not set the keep-alive, and sends no further response but the interim one of `>>`. -/
def Quiet (mem : Memory) (p : Place P) : Prop :=
  ∀ q, p.Reaches mem q → (∀ res next, q.handler ≠ .respond res next) ∧ ∀ seconds next, q.handler ≠ .setKeepAlive seconds next

theorem Quiet.next {mem : Memory} {p q : Place P} (h : p.Quiet mem) (hnext : p.next mem = some q) : q.Quiet mem :=
  fun r hr => h r (.head hnext hr)

theorem quiet_ret (mem : Memory) (s : Session P) (req : Request) : Quiet mem ⟨.ret, s, req⟩ := by
  intro q hq
  rcases hq.cases_head with rfl | ⟨r, hr, -⟩
  · exact ⟨fun res next h => (by cases h), fun seconds next h => (by cases h)⟩
  · cases hr

end Place

theorem receive_keepAlive (mem : Memory) (s : Session P) (req : Request) :
    (s.receive mem req).session.keepAlive = s.keepAlive := by
  have hres : (s.respond { statusCode := 100 }).1.keepAlive = s.keepAlive := rfl
  unfold Session.receive
  split
  · split
    · rfl
    · split
      · rename_i s' he
        rw [he] at hres
        exact (read_reading mem s' req).keepAlive.trans hres
      · rename_i s' ended _ he
        rw [he] at hres
        exact hres
  · exact (read_reading mem s req).keepAlive

theorem resume_keepAlive (mem : Memory) {k : Int} {d : Did P} (next : Option Exc → Request → Handler)
    (hd : d.session.keepAlive = k) (hnext : ∀ q, Place.behind d next = some q → (q.run mem).session.keepAlive = k) :
    (Handler.resume d fun e s req => (next e req).run mem s req).session.keepAlive = k := by
  rw [Place.resume_eq]
  cases hq : Place.behind d next with
  | none => exact hd
  | some q => exact hnext q hq

theorem run_quiet (mem : Memory) {handler : Handler} {s : Session P} {req : Request} {k : Int}
    (h : Place.Quiet mem ⟨handler, s, req⟩) (hs : s.keepAlive = k) : (handler.run mem s req).session.keepAlive = k := by
  induction handler generalizing s req with
  | ret => exact hs
  | throw e => exact hs
  | modify f next ih => exact ih (h.next rfl) hs
  | receive next ih =>
    have hd := (receive_keepAlive mem s req).trans hs
    refine resume_keepAlive mem next hd fun q hq => ?_
    obtain ⟨e, rfl⟩ := Place.behind_eq_some hq
    exact ih e _ (h.next hq) hd
  | read next ih =>
    have hd := (read_reading mem s req).keepAlive.trans hs
    refine resume_keepAlive mem next hd fun q hq => ?_
    obtain ⟨e, rfl⟩ := Place.behind_eq_some hq
    exact ih e _ (h.next hq) hd
  | write buffer next ih =>
    refine resume_keepAlive mem (fun e _ => next e) hs fun q hq => ?_
    obtain ⟨e, rfl⟩ := Place.behind_eq_some hq
    exact ih e (h.next hq) hs
  | writev buffers next ih =>
    refine resume_keepAlive mem (fun e _ => next e) hs fun q hq => ?_
    obtain ⟨e, rfl⟩ := Place.behind_eq_some hq
    exact ih e (h.next hq) hs
  | yield next ih =>
    unfold Handler.run
    cases hy : s.yields with
    | nil => exact hs
    | cons y ys =>
      have hnext : Place.next mem ⟨.yield next, s, req⟩ = some ⟨next y, { s with yields := ys, yielded := y }, req⟩ := by
        rw [Place.next, hy]
      exact ih y (h.next hnext) hs
  | setSessionTimeout seconds next ih => exact ih (s := s.setSessionTimeout seconds) (h.next rfl) hs
  | respond res next => exact absurd rfl ((h _ .refl).1 res next)
  | setKeepAlive seconds next => exact absurd rfl ((h _ .refl).2 seconds next)

/-! ## Without I/O errors -/

/-- No answer to come is an error, and the last yield returned none. -/
structure Session.Calm (s : Session P) : Prop where
  yielded : s.yielded = none
  reads : ∀ r ∈ s.reads, r.Benign
  writes : ∀ w ∈ s.writes, w.Benign
  yields : ∀ y ∈ s.yields, y = none

namespace Session.Calm

variable {s t : Session P}

theorem of_eq (h : s.Calm) (hyd : t.yielded = s.yielded) (hr : t.reads = s.reads) (hw : t.writes = s.writes)
    (hy : t.yields = s.yields) : t.Calm :=
  ⟨hyd ▸ h.yielded, hr ▸ h.reads, hw ▸ h.writes, hy ▸ h.yields⟩

theorem reading (h : s.Calm) (hst : Reading s t) : t.Calm := by
  refine ⟨?_, fun r hr => h.reads r (hst.reads.subset hr), hst.writes ▸ h.writes, hst.yields ▸ h.yields⟩
  rcases hst.yielded with heq | hmem
  · exact heq.trans h.yielded
  · exact h.reads _ hmem

theorem wrote (h : s.Calm) {w : Wrote} (hw : ∃ used, s.writes = used ++ w.left) : (s.wrote w).1.Calm := by
  obtain ⟨used, hused⟩ := hw
  refine ⟨?_, h.reads, fun x hx => h.writes x (hused ▸ List.mem_append_right used hx), h.yields⟩
  simp only [Session.wrote, h.yielded]
  exact lastYield_benign fun x hx => h.writes x (List.mem_of_mem_take hx)

theorem write (h : s.Calm) (buffer : Bytes) : (s.write buffer).1.Calm :=
  h.wrote ((write_used s.writes buffer).imp fun _ hused => hused.1)

theorem writev (h : s.Calm) (buffers : List Bytes) : (s.writev buffers).1.Calm :=
  h.wrote ((writev_used s.writes buffers).imp fun _ hused => hused.1)

theorem respond (h : s.Calm) (res : Response) : (s.respond res).1.Calm := by
  unfold Session.respond
  refine write ?_ _
  split <;> split <;> exact h.of_eq rfl rfl rfl rfl

theorem receive (h : s.Calm) (mem : Memory) (req : Request) : (s.receive mem req).session.Calm := by
  have hres := h.respond { statusCode := 100 }
  unfold Session.receive
  split
  · split
    · exact h
    · split
      · rename_i s' he
        rw [he] at hres
        exact hres.reading (read_reading mem s' req)
      · rename_i s' ended _ he
        rw [he] at hres
        exact hres
  · exact h.reading (read_reading mem s req)

theorem resume {d : Did P} {next : Option Exc → Session P → Request → Did P} (h : d.session.Calm)
    (hnext : ∀ e t req, t.Calm → (next e t req).session.Calm) : (Handler.resume d next).session.Calm := by
  unfold Handler.resume
  split
  · exact hnext _ _ _ h
  · exact hnext _ _ _ h
  · exact h

theorem run (h : s.Calm) (mem : Memory) (handler : Handler) (req : Request) : (handler.run mem s req).session.Calm := by
  induction handler generalizing s req with
  | ret => exact h
  | throw e => exact h
  | modify f next ih => exact ih h (f req)
  | receive next ih => exact resume (h.receive mem req) fun e t req' ht => ih e req' ht req'
  | read next ih => exact resume (h.reading (read_reading mem s req)) fun e t req' ht => ih e req' ht req'
  | write buffer next ih => exact resume (h.write buffer) fun e t req' ht => ih e ht req'
  | writev buffers next ih => exact resume (h.writev buffers) fun e t req' ht => ih e ht req'
  | respond res next ih => exact resume (h.respond res) fun e t req' ht => ih e ht req'
  | yield next ih =>
    unfold Handler.run
    split
    · exact h
    · rename_i y ys hys
      have hy : ∀ x ∈ y :: ys, x = none := hys ▸ h.yields
      refine ih y (s := { s with yields := ys, yielded := y }) ⟨?_, h.reads, h.writes, ?_⟩ req
      · exact hy y List.mem_cons_self
      · exact fun x hx => hy x (List.mem_cons_of_mem _ hx)
  | setKeepAlive seconds next ih => exact ih (s := s.setKeepAlive seconds) (h.of_eq rfl rfl rfl rfl) req
  | setSessionTimeout seconds next ih => exact ih (s := s.setSessionTimeout seconds) (h.of_eq rfl rfl rfl rfl) req

end Session.Calm

/-! ## What the head says -/

/-- The head ends with this line. -/
def Says (line text body : Bytes) : Prop := line ++ crlf ++ crlf ++ body <:+ text

instance (line text body : Bytes) : Decidable (Says line text body) :=
  inferInstanceAs (Decidable (line ++ crlf ++ crlf ++ body <:+ text))

def keepAliveLine : Bytes := bytes "Connection: keep-alive"

def closeLine : Bytes := bytes "Connection: close"

theorem says_unique {line line' text body : Bytes} (h : Says line text body) (h' : Says line' text body)
    (hlen : line.length ≤ line'.length) : line <:+ line' := by
  have hsuffix := List.suffix_of_suffix_length_le h h' (by simpa using hlen)
  rw [List.append_assoc, List.append_assoc, List.append_assoc line', List.append_assoc line'] at hsuffix
  exact List.suffix_append_self_iff.1 hsuffix

theorem says_toString (res : Response) (keepAliveOverride : Int) :
    (Says keepAliveLine (res.toString keepAliveOverride) res.body ↔ 0 < res.effective keepAliveOverride) ∧
    (Says closeLine (res.toString keepAliveOverride) res.body ↔ res.effective keepAliveOverride ≤ 0) := by
  have hnot : ¬ closeLine <:+ keepAliveLine := by decide
  have hlen : closeLine.length ≤ keepAliveLine.length := by decide
  rw [res.toString_eq]
  generalize htext : (statusLine res.shown :: res.fieldLines (res.effective keepAliveOverride)).flatMap (· ++ crlf) ++ crlf ++
    res.body = text
  have hends : ∀ {l : List Bytes} {line : Bytes}, connectionLines (res.effective keepAliveOverride) = l ++ [line] →
      Says line text res.body := by
    intro l line hl
    rw [← htext, Response.fieldLines, hl, Says, ← List.cons_append, ← List.cons_append, ← List.append_assoc,
      List.flatMap_append]
    simp only [List.flatMap_singleton, List.append_assoc]
    exact List.suffix_append _ _
  by_cases hpos : 0 < res.effective keepAliveOverride
  · have hkeep : Says keepAliveLine text res.body := hends (l := [_]) (by rw [connectionLines, if_pos hpos]; rfl)
    exact ⟨iff_of_true hkeep hpos, iff_of_false (fun h => hnot (says_unique h hkeep hlen)) (by omega)⟩
  · have hclose : Says closeLine text res.body := hends (l := []) (by rw [connectionLines, if_neg hpos]; rfl)
    exact ⟨iff_of_false (fun h => hnot (says_unique hclose h hlen)) hpos, iff_of_true hclose (by omega)⟩

/-! ## What the server does -/

namespace Session

/-- `ioLoop` after its loop: the catch blocks and `shutdown`. -/
def leave (srv : Server) (did : Did P) : Did P :=
  match did.ended with
  | .returned => { did with session := did.session.log .shutdown }
  | .threw e =>
    let (s, ended) := if did.session.canWriteError then did.session.write (errorResponse srv e)
      else (did.session, .returned)
    match ended with
    | .returned => ⟨.returned, s.log .shutdown, did.data⟩
    | ended => ⟨ended, s, did.data⟩
  | _ => did

theorem ioLoop_eq_leave (srv : Server) (mem : Memory) (s : Session P) :
    s.ioLoop srv mem = leave srv (s.requests srv mem) := rfl

/-- Another pass follows, which reads the next request. -/
def GoesOn (srv : Server) (mem : Memory) (s : Session P) : Prop := (s.serve srv mem).again = true

/-- The pass is the last, and the socket is shut down after it. -/
def ShutsDown (srv : Server) (mem : Memory) (s : Session P) : Prop :=
  (s.serve srv mem).again = false ∧
    ∃ (t : Session P) (d : Data), leave srv (s.serve srv mem).toDid = ⟨.returned, t.log .shutdown, d⟩

end Session

/-! ## The final response of a pass -/

/-- The response that the catch blocks of `ioLoop` make of an exception. -/
def responseTo (srv : Server) : Exc → Response
  | .int error => { statusCode := if 0 < error ∧ error < 65535 then error.toNat else 500 }
  | .response res => res
  | .exception what => { statusCode := 500, body := what }
  | .error_code ec => { statusCode := 500, body := srv.message ec }
  | .other => {}

theorem errorResponse_eq (srv : Server) (e : Exc) : Session.errorResponse srv e = (responseTo srv e).toString := by
  cases e <;> rfl

/-- The keep-alive that `<<` writes a response with: its own, or that of the stream. -/
def Response.kept (res : Response) (keepAlive : Int) : Int := if res.keepAlive ≠ -1 then res.keepAlive else keepAlive

/-- How the final response comes to the peer: `stream << res`, by a handler that returns or by one that throws when no
error may be written any more; an exception; or the 503 where no plugin makes a session. -/
inductive Emission where
  | sent (res : Response)
  | sentThenThrew (res : Response)
  | thrown (e : Exc)
  | unknown

/-- In the state `t` the handler comes to `stream << res`, all of the response is written, and `rest` is what it does
after it. -/
inductive Session.Sends (srv : Server) (mem : Memory) (s : Session P) (res : Response) (t : Session P) : Did P → Prop where
  | intro {s' : Session P} {d : Data} {handler : Handler} {next : Option Exc → Handler} {req : Request}
      (hread : s.readHeaders mem = ⟨.returned, s', d⟩)
      (hcreate : srv.createSession d.req = .ok (some handler))
      (hreach : Place.Reaches mem ⟨handler, s'.startHandler srv d.req, d.req⟩ ⟨.respond res next, t, req⟩)
      (hsent : (t.respond res).2 = .returned)
      (hquiet : Place.Quiet mem ⟨next none, (t.respond res).1, req⟩) :
      Sends srv mem s res t ((next none).run mem (t.respond res).1 req)

/-- The pass ends with this emission, made in the state `t`: all of the response is written. -/
inductive Session.Answers (srv : Server) (mem : Memory) (s : Session P) : Emission → Session P → Prop where
  | sent {res : Response} {t : Session P} {rest : Did P} (hsends : s.Sends srv mem res t rest)
      (hret : rest.ended = .returned) : Answers srv mem s (.sent res) t
  | sentThenThrew {res : Response} {t : Session P} {rest : Did P} {e : Exc} (hsends : s.Sends srv mem res t rest)
      (hthrew : rest.ended = .threw e) (hflag : rest.session.canWriteError = false) :
      Answers srv mem s (.sentThenThrew res) t
  | thrown {e : Exc} (hthrown : (s.serve srv mem).ended = .threw e)
      (hflag : (s.serve srv mem).session.canWriteError = true)
      (hsent : ((s.serve srv mem).session.write (errorResponse srv e)).2 = .returned) :
      Answers srv mem s (.thrown e) (s.serve srv mem).session
  | unknown {s' : Session P} {d : Data} (hread : s.readHeaders mem = ⟨.returned, s', d⟩)
      (hcreate : srv.createSession d.req = .ok none) (hret : (s.serve srv mem).ended = .returned) :
      Answers srv mem s .unknown (s'.setKeepAlive (if d.req.keepAlive then srv.keepAliveTimeout else 0))

namespace Emission

/-- The bytes of it that the socket accepted. -/
def text (srv : Server) (t : Session P) : Emission → Bytes
  | .sent res | .sentThenThrew res => (t.respond res).1.sent.drop t.sent.length
  | .thrown e => (t.write (Session.errorResponse srv e)).1.sent.drop t.sent.length
  | .unknown => (t.write ({ statusCode := 503 : Response }.toString)).1.sent.drop t.sent.length

def body (srv : Server) : Emission → Bytes
  | .sent res | .sentThenThrew res => res.body
  | .thrown e => (responseTo srv e).body
  | .unknown => []

/-- The keep-alive that a response is sent with is not negative, and not positive if the handler throws after it; that of
a response that is thrown is not positive. -/
def Fits (keepAlive : Int) : Emission → Prop
  | .sent res => 0 ≤ res.kept keepAlive
  | .sentThenThrew res => res.kept keepAlive ≤ 0
  | .thrown (.response res) => res.keepAlive ≤ 0
  | .thrown _ | .unknown => True

end Emission

/-- The response says what the server does. -/
def Session.Agrees (srv : Server) (mem : Memory) (s : Session P) (text body : Bytes) : Prop :=
  (Says keepAliveLine text body ↔ s.GoesOn srv mem) ∧ (Says closeLine text body ↔ s.ShutsDown srv mem)

theorem write_text {t : Session P} {buffer : Bytes} (h : (t.write buffer).2 = .returned) :
    (t.write buffer).1.sent.drop t.sent.length = buffer := by
  have hret : (Getodac.write buffer t.writes).outcome = .returned := by
    unfold Session.write Session.wrote at h
    dsimp only at h
    split at h
    · assumption
    · cases h
    · cases h
  simp [Session.write, Session.wrote, write_sent t.writes buffer hret]

/-- What `stream << res` sets before it writes. -/
def Session.responding (s : Session P) (res : Response) : Session P :=
  let s := if res.keepAlive ≠ -1 then s.setKeepAlive res.keepAlive else s
  if res.contentLength ≠ chunkedData then
    s.setSessionTimeout (max s.sessionTimeout (10 + res.contentLength / (512 * 1024) : Nat))
  else s

/-- `<<` writes the head with the keep-alive it leaves in the stream. -/
theorem respond_eq_write (s : Session P) (res : Response) :
    s.respond res = (s.responding res).write (res.toString (s.responding res).keepAlive) := rfl

theorem responding_sent (s : Session P) (res : Response) : (s.responding res).sent = s.sent := by
  unfold Session.responding
  split_ifs <;> rfl

theorem responding_keepAlive (s : Session P) (res : Response) :
    (s.responding res).keepAlive = res.kept s.keepAlive := by
  unfold Session.responding Response.kept
  split_ifs <;> rfl

/-- The override that `<<` passes to `toString` is the one that counts. -/
theorem effective_kept (res : Response) (keepAlive : Int) : res.effective (res.kept keepAlive) = res.kept keepAlive := by
  unfold Response.effective Response.kept
  split_ifs <;> omega

section

variable {srv : Server} {mem : Memory} {s t : Session P}

/-- What a pass does whose handler sends `res` and goes on with `rest`. -/
structure Session.Sends.Spec (srv : Server) (mem : Memory) (s : Session P) (res : Response) (t : Session P) (rest : Did P) :
    Prop where
  saysKeepAlive : Says keepAliveLine ((t.respond res).1.sent.drop t.sent.length) res.body ↔ 0 < res.kept t.keepAlive
  saysClose : Says closeLine ((t.respond res).1.sent.drop t.sent.length) res.body ↔ res.kept t.keepAlive ≤ 0
  keepAlive : rest.session.keepAlive = res.kept t.keepAlive
  calm : rest.session.Calm
  serve : ∃ (s' : Session P) (d : Data) (handler : Handler), s.readHeaders mem = ⟨.returned, s', d⟩ ∧
    srv.createSession d.req = .ok (some handler) ∧ handler.run mem (s'.startHandler srv d.req) d.req = rest

theorem Session.Sends.spec {res : Response} {rest : Did P} (hcalm : s.Calm) (h : s.Sends srv mem res t rest) :
    Spec srv mem s res t rest := by
  cases h with
  | @intro s' d handler next req hread hcreate hreach hsent hquiet =>
    -- the head
    have hka := responding_keepAlive t res
    have htext : (t.respond res).1.sent.drop t.sent.length = res.toString (res.kept t.keepAlive) := by
      rw [respond_eq_write] at hsent ⊢
      rw [← responding_sent t res, write_text hsent, hka]
    obtain ⟨hline, hline'⟩ := says_toString res (res.kept t.keepAlive)
    rw [effective_kept, ← htext] at hline hline'
    -- the pass
    have hstart : (s'.startHandler srv d.req).Calm := by
      have hs' := hcalm.reading (readHeaders_reading mem s)
      rw [hread] at hs'
      exact hs'.of_eq rfl rfl rfl rfl
    have hrun : handler.run mem (s'.startHandler srv d.req) d.req = (next none).run mem (t.respond res).1 req := by
      refine hreach.run.trans ?_
      simp only [Place.run, Handler.run, Handler.resume, hsent]
    refine ⟨hline, hline', ?_, ?_, s', d, handler, hread, hcreate, hrun⟩
    · exact run_quiet mem hquiet hka
    · rw [← hrun]
      exact hstart.run mem handler d.req

theorem sent_agrees_iff {res : Response} (hcalm : s.Calm) (h : s.Answers srv mem (.sent res) t) :
    s.Agrees srv mem ((Emission.sent res).text srv t) res.body ↔ (Emission.sent res).Fits t.keepAlive := by
  cases h with
  | @sent _ _ rest hsends hret =>
    obtain ⟨hline, hline', hkeep, hrest, s', d, handler, hread, hcreate, hrun⟩ := hsends.spec hcalm
    have hserve := serve_returned hread hcreate (hrun.trans (Did.eq_returned hret))
    have hon : s.GoesOn srv mem ↔ res.kept t.keepAlive ≠ 0 := by
      simp [Session.GoesOn, hserve, hrest.yielded, hkeep]
    have hdown : s.ShutsDown srv mem ↔ res.kept t.keepAlive = 0 := by
      have hleave : ∃ (t : Session P) (d : Data),
          Session.leave srv (s.serve srv mem).toDid = ⟨.returned, t.log .shutdown, d⟩ := by
        rw [hserve]
        exact ⟨_, _, rfl⟩
      rw [Session.ShutsDown, and_iff_left hleave]
      simp [hserve, hrest.yielded, hkeep]
    rw [Session.Agrees, Emission.text, hline, hline', hon, hdown, Emission.Fits]
    omega

/-- A response that is the last, whatever it says. -/
theorem agrees_shutsDown {text body : Bytes} {k : Int} (hline : Says keepAliveLine text body ↔ 0 < k)
    (hline' : Says closeLine text body ↔ k ≤ 0) (hdown : s.ShutsDown srv mem) : s.Agrees srv mem text body ↔ k ≤ 0 := by
  have hon : ¬ s.GoesOn srv mem := by simp [Session.GoesOn, hdown.1]
  rw [Session.Agrees, hline, hline', iff_false_right hon, iff_true_right hdown]
  omega

theorem sentThenThrew_agrees_iff {res : Response} (hcalm : s.Calm) (h : s.Answers srv mem (.sentThenThrew res) t) :
    s.Agrees srv mem ((Emission.sentThenThrew res).text srv t) res.body ↔ (Emission.sentThenThrew res).Fits t.keepAlive := by
  cases h with
  | @sentThenThrew _ _ rest e hsends hthrew hflag =>
    obtain ⟨hline, hline', -, -, s', d, handler, hread, hcreate, hrun⟩ := hsends.spec hcalm
    have hserve : s.serve srv mem = { rest with again := false } := serve_notReturned hread hcreate hrun (by simp [hthrew])
    refine agrees_shutsDown hline hline' ⟨by rw [hserve], rest.session, rest.data, ?_⟩
    rw [hserve]
    simp only [Session.leave, hthrew, hflag, Bool.false_eq_true, if_false]

theorem serve_ended (h : (s.serve srv mem).again = true) : (s.serve srv mem).ended = .returned := by
  generalize hpass : s.serve srv mem = pass at h
  cases hpass ▸ serve_serves srv mem s with
  | done => rfl
  | head => cases h
  | refused => cases h
  | unknown => cases h
  | left => cases h

theorem thrown_agrees_iff {e : Exc} (h : s.Answers srv mem (.thrown e) t) :
    s.Agrees srv mem ((Emission.thrown e).text srv t) (responseTo srv e).body ↔ (Emission.thrown e).Fits t.keepAlive := by
  cases h with
  | thrown hthrown hflag hsent =>
    have htext : (Emission.thrown e).text srv (s.serve srv mem).session = (responseTo srv e).toString := by
      rw [Emission.text, write_text hsent, errorResponse_eq]
    have hlast : (s.serve srv mem).again = false := by
      by_contra hagain
      have hret := serve_ended (eq_true_of_ne_false hagain)
      rw [hthrown] at hret
      cases hret
    have hdown : s.ShutsDown srv mem := by
      refine ⟨hlast, ((s.serve srv mem).session.write (Session.errorResponse srv e)).1, (s.serve srv mem).data, ?_⟩
      simp only [Session.leave, hthrown, hflag, if_true, hsent]
    obtain ⟨hline, hline'⟩ := says_toString (responseTo srv e) (-1)
    rw [htext, agrees_shutsDown hline hline' hdown, Response.effective, if_pos rfl]
    have hneg : (-1 : Int) ≤ 0 := by decide
    cases e with
    | response res => exact Iff.rfl
    | int error => exact iff_of_true hneg trivial
    | exception what => exact iff_of_true hneg trivial
    | error_code ec => exact iff_of_true hneg trivial
    | other => exact iff_of_true hneg trivial

theorem unknown_agrees (h : s.Answers srv mem .unknown t) : s.Agrees srv mem (Emission.unknown.text srv t) [] := by
  cases h with
  | @unknown s' d hread hcreate hret =>
    have hserve := serve_unknown hread hcreate
    rw [hserve] at hret
    dsimp only at hret
    obtain ⟨hline, hline'⟩ := says_toString { statusCode := 503 } (-1)
    rw [← write_text hret] at hline hline'
    refine (agrees_shutsDown hline hline' ⟨by rw [hserve], (s.serve srv mem).session, d, ?_⟩).2 (by decide)
    rw [hserve]
    simp only [Session.leave, hret]

end

/-- Without I/O errors, however the final response of a request comes to the peer: it says `keep-alive` exactly if `ioLoop`
goes on, and `close` exactly if it shuts the socket down, if and only if its keep-alive fits. -/
theorem connection_agrees_iff {srv : Server} {mem : Memory} {s t : Session P} {em : Emission} (hcalm : s.Calm)
    (h : s.Answers srv mem em t) : s.Agrees srv mem (em.text srv t) (em.body srv) ↔ em.Fits t.keepAlive := by
  cases em with
  | sent res => exact sent_agrees_iff hcalm h
  | sentThenThrew res => exact sentThenThrew_agrees_iff hcalm h
  | thrown e => exact thrown_agrees_iff h
  | unknown => exact iff_of_true (unknown_agrees h) trivial

/-- A handler that sends a response and then does `post`. -/
def respondThen (res : Response) (post : Handler) : Handler :=
  .respond res fun
    | none => post
    | some e => .throw e

/-- Two requests, and room for the responses. -/
def twoGets : Session (replay true [getMessage.tape, getMessage.tape]) where
  reads := [.data getFoo.bytes, .data getFoo.bytes]
  writes := postTimesOut.writes

theorem connection_agrees_keepAlive : ∃ t, twoGets.Calm ∧
    twoGets.Answers (serverOf (respondThen okResponse .ret)) plainMemory (.sent okResponse) t ∧
    twoGets.Agrees (serverOf (respondThen okResponse .ret)) plainMemory
      ((Emission.sent okResponse).text (serverOf (respondThen okResponse .ret)) t) [] := by
  have hcalm : twoGets.Calm := by
    refine ⟨rfl, fun r hr => ?_, fun w hw => ?_, fun y hy => by cases hy⟩
    · have hne : getFoo.bytes ≠ [] := by decide
      have hr' : r = .data getFoo.bytes := by simpa [twoGets] using hr
      exact hr' ▸ hne
    · have hw' : w = .room 999 (by decide) := by simpa [twoGets, postTimesOut] using hw
      exact hw' ▸ trivial
  have hread : (twoGets.readHeaders plainMemory).ended = .returned := by decide
  have hsends : twoGets.Sends (serverOf (respondThen okResponse .ret)) plainMemory okResponse _ _ :=
    .intro (Did.eq_returned hread) rfl .refl (by decide) (Place.quiet_ret plainMemory _ _)
  have h : twoGets.Answers (serverOf (respondThen okResponse .ret)) plainMemory (.sent okResponse) _ := .sent hsends rfl
  exact ⟨_, hcalm, h, (connection_agrees_iff hcalm h).2 (show (0 : Int) ≤ _ by decide)⟩

/-- With a negative keep-alive both responses say `close`, and the second request is served. A response that says
`keep-alive` is thrown, or sent by a handler that throws after it, and the socket is shut down with the second request
unread. -/
theorem connection_differs :
    (let did := twoGets.ioLoop (serverOf (.setKeepAlive (-5) (respondThen okResponse .ret))) plainMemory
     Says closeLine (okResponse.toString (-5)) [] ∧
      did.session.sent = okResponse.toString (-5) ++ okResponse.toString (-5) ∧ (starts did.session.trace).length = 2) ∧
    (let res : Response := { statusCode := 400, keepAlive := 10 }
     let did := twoGets.ioLoop (serverOf (.throw (.response res))) plainMemory
     Says keepAliveLine res.toString [] ∧ did.session.sent = res.toString ∧ (starts did.session.trace).length = 1 ∧
      did.ended = .returned ∧ did.session.reads = [.data getFoo.bytes]) ∧
    (let did := twoGets.ioLoop (serverOf (.setKeepAlive 10 (respondThen okResponse (.throw .other)))) plainMemory
     Says keepAliveLine (okResponse.toString 10) [] ∧ did.session.sent = okResponse.toString 10 ∧
      (starts did.session.trace).length = 1 ∧ did.ended = .returned ∧ did.session.reads = [.data getFoo.bytes]) := by
  refine ⟨⟨by decide, by decide, by decide⟩, ?_, ?_⟩
  · exact ⟨by decide, by decide, by decide, by decide, by decide⟩
  · exact ⟨by decide, by decide, by decide, by decide, by decide⟩

end Getodac
