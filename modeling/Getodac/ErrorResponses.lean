import Getodac.Overrun
/-!
# When `ioLoop` answers an exception

A catch block of `ioLoop` writes an error response if `m_can_write_errror` is set.
Every byte the socket accepts clears it; the first bytes of a request set it, and so
does `read`. The acts of a run are what this depends on, apart from the flag
itself. `error_before_response` is about all runs in which no handler starts to read
a request after a byte of its final response was accepted.
-/

namespace Getodac

variable {P : HttpParser}

/-! ## The acts of a run -/

inductive Act where
  /-- The first bytes of a request arrive. -/
  | begun
  /-- The socket accepts `k` bytes, of a final response or of a `100 Continue`. -/
  | accepted (final : Bool) (k : Nat)
  /-- `read` starts to read a request that is not completed. -/
  | reading
deriving DecidableEq, Repr

/-- The bytes accepted of the final response to the current request, after `n` before these acts. -/
def finalBytes : Nat → List Act → Nat
  | n, [] => n
  | _, .begun :: as => finalBytes 0 as
  | n, .accepted final k :: as => finalBytes (if final then n + k else n) as
  | n, .reading :: as => finalBytes n as

/-- No request is read after a byte of its final response was accepted. -/
def ReadsFirst : Nat → List Act → Prop
  | _, [] => True
  | _, .begun :: as => ReadsFirst 0 as
  | n, .accepted final k :: as => ReadsFirst (if final then n + k else n) as
  | n, .reading :: as => n = 0 ∧ ReadsFirst n as

instance decidableReadsFirst : ∀ n as, Decidable (ReadsFirst n as)
  | _, [] => inferInstanceAs (Decidable True)
  | _, .begun :: as => decidableReadsFirst 0 as
  | n, .accepted final k :: as => decidableReadsFirst (if final then n + k else n) as
  | n, .reading :: as =>
    have := decidableReadsFirst n as
    inferInstanceAs (Decidable (n = 0 ∧ ReadsFirst n as))

theorem finalBytes_append (as bs : List Act) : ∀ n, finalBytes n (as ++ bs) = finalBytes (finalBytes n as) bs := by
  induction as with
  | nil => intro n; rfl
  | cons a as ih => intro n; cases a <;> exact ih _

theorem readsFirst_append {as bs : List Act} :
    ∀ {n}, ReadsFirst n (as ++ bs) ↔ ReadsFirst n as ∧ ReadsFirst (finalBytes n as) bs := by
  induction as with
  | nil => intro n; simp [ReadsFirst, finalBytes]
  | cons a as ih =>
    intro n
    cases a with
    | begun => exact ih
    | accepted final k => exact ih
    | reading =>
      rw [List.cons_append, ReadsFirst, ReadsFirst, ih, and_assoc]
      rfl

namespace Session

/-- The bytes a write got accepted. -/
def writeActs (s : Session P) (final : Bool) (r : Session P × Ended) : List Act :=
  [.accepted final (r.1.sent.length - s.sent.length)]

def readActs (req : Request) : List Act := if req.state = .Completed then [] else [.reading]

/-- `stream >> req`. -/
def receiveActs (s : Session P) (req : Request) : List Act :=
  if req.fields.find (bytes "Expect") = some (bytes "100-continue") then
    if req.contentLength ≠ chunkedData ∧ req.maxBodySize < req.contentLength then []
    else
      let r := s.respond { statusCode := 100 }
      s.writeActs false r ++ if r.2 = .returned then readActs req else []
  else readActs req

/-- Do these answers begin with bytes? -/
def begins : List ReadResult → Bool
  | .data _ :: _ => true
  | .again none :: rs => begins rs
  | _ => false

end Session

namespace Handler

def resumeActs (d : Did P) (next : Option Exc → Session P → Request → List Act) : List Act :=
  match d.ended with
  | .returned => next none d.session d.data.req
  | .threw e => next (some e) d.session d.data.req
  | _ => []

/-- What a handler writes is its final response, but for a `100 Continue`. -/
def acts (mem : Memory) : Handler → Session P → Request → List Act
  | .ret, _, _ => []
  | .throw _, _, _ => []
  | .modify f next, s, req => next.acts mem s (f req)
  | .receive next, s, req =>
    s.receiveActs req ++ resumeActs (s.receive mem req) fun e s req => (next e req).acts mem s req
  | .read next, s, req =>
    Session.readActs req ++ resumeActs (s.read mem req) fun e s req => (next e req).acts mem s req
  | .write buffer next, s, req =>
    s.writeActs true (s.write buffer) ++
      resumeActs ⟨(s.write buffer).2, (s.write buffer).1, { req := req }⟩ fun e s req => (next e).acts mem s req
  | .writev buffers next, s, req =>
    s.writeActs true (s.writev buffers) ++
      resumeActs ⟨(s.writev buffers).2, (s.writev buffers).1, { req := req }⟩ fun e s req => (next e).acts mem s req
  | .respond res next, s, req =>
    s.writeActs (res.statusCode ≠ 100) (s.respond res) ++
      resumeActs ⟨(s.respond res).2, (s.respond res).1, { req := req }⟩ fun e s req => (next e).acts mem s req
  | .yield next, s, req =>
    match s.yields with
    | [] => []
    | y :: ys => (next y).acts mem { s with yields := ys, yielded := y } req
  | .setKeepAlive seconds next, s, req => next.acts mem (s.setKeepAlive seconds) req
  | .setSessionTimeout seconds next, s, req => next.acts mem (s.setSessionTimeout seconds) req

end Handler

namespace Session

def serveActs (srv : Server) (mem : Memory) (s : Session P) : List Act :=
  (if begins s.reads then [.begun] else []) ++
  match s.readHeaders mem with
  | ⟨.returned, s, d⟩ =>
    match srv.createSession d.req with
    | .error _ => []
    | .ok none =>
      let s := s.setKeepAlive (if d.req.keepAlive then srv.keepAliveTimeout else 0)
      s.writeActs true (s.write ({ statusCode := 503 : Response }.toString))
    | .ok (some handler) => handler.acts mem (s.startHandler srv d.req) d.req
  | _ => []

def loopActs (srv : Server) (mem : Memory) : Nat → Session P → List Act
  | 0, _ => []
  | n + 1, s =>
    let pass := s.serve srv mem
    s.serveActs srv mem ++ if pass.again then pass.session.loopActs srv mem n else []

/-- The loop of `ioLoop`, up to its catch blocks. -/
def requests (srv : Server) (mem : Memory) (s : Session P) : Did P :=
  (s.setSessionTimeout srv.headersTimeout).loop srv mem (s.reads.length + 1)

/-- All acts of it. -/
def requestActs (srv : Server) (mem : Memory) (s : Session P) : List Act :=
  (s.setSessionTimeout srv.headersTimeout).loopActs srv mem (s.reads.length + 1)

/-- A catch block of `ioLoop` writes an error response. -/
def WritesError (srv : Server) (mem : Memory) (s : Session P) : Prop :=
  (∃ e, (s.requests srv mem).ended = .threw e) ∧ (s.requests srv mem).session.canWriteError = true

/-- Where none does, nothing is sent after the loop. -/
theorem ioLoop_sent (srv : Server) (mem : Memory) (s : Session P) (h : ¬ s.WritesError srv mem) :
    (s.ioLoop srv mem).session.sent = (s.requests srv mem).session.sent := by
  unfold WritesError at h
  have hloop := ioLoop.eq_def srv mem s
  rw [← requests] at hloop
  generalize s.requests srv mem = did at h hloop
  cases hended : did.ended with
  | threw e =>
    have hflag : did.session.canWriteError = false := by
      by_contra hf
      exact h ⟨⟨e, hended⟩, by simpa using hf⟩
    simp only [hended, hflag, Bool.false_eq_true, if_false] at hloop
    rw [hloop]
    rfl
  | returned =>
    simp only [hended] at hloop
    rw [hloop]
    rfl
  | suspended =>
    simp only [hended] at hloop
    rw [hloop]
  | crashed =>
    simp only [hended] at hloop
    rw [hloop]

end Session

/-! ## What an act says of the flag -/

/-- If no request was read late, the flag is only set where no byte of the final response is accepted. -/
def Guards (s : Session P) (as : List Act) (t : Session P) : Prop :=
  ∀ n, ReadsFirst n as → (s.canWriteError = true → n = 0) → t.canWriteError = true → finalBytes n as = 0

namespace Guards

theorem of_eq {s t : Session P} (h : t.canWriteError = s.canWriteError) : Guards s [] t :=
  fun _ _ hs ht => hs (h ▸ ht)

theorem trans {s t u : Session P} {as bs : List Act} (h : Guards s as t) (h' : Guards t bs u) : Guards s (as ++ bs) u := by
  intro n hr hs hu
  obtain ⟨hra, hrb⟩ := readsFirst_append.1 hr
  rw [finalBytes_append]
  exact h' _ hrb (h n hra hs) hu

theorem congr_left {s s' t : Session P} {as : List Act} (h : Guards s' as t) (hs : s'.canWriteError = s.canWriteError) :
    Guards s as t :=
  (of_eq hs).trans h

/-- A request that begins has no response yet. -/
theorem begun (s t : Session P) : Guards s [.begun] t := fun _ _ _ _ => rfl

theorem reading (s t : Session P) : Guards s [.reading] t := fun _ hr _ _ => hr.1

end Guards

theorem write_used (rs : List WriteResult) : ∀ buffer, ∃ used, rs = used ++ (write buffer rs).left ∧
    ((write buffer rs).sent ≠ [] → used.any Session.accepts = true) := by
  induction rs with
  | nil =>
    intro buffer
    cases buffer <;> exact ⟨[], rfl, fun h => absurd rfl h⟩
  | cons r rs ih =>
    intro buffer
    cases buffer with
    | nil => exact ⟨[], rfl, fun h => absurd rfl h⟩
    | cons b bs =>
      match r with
      | .again none =>
        obtain ⟨used, hused, h⟩ := ih (b :: bs)
        exact ⟨.again none :: used, congrArg _ hused, h⟩
      | .again (some ec) => exact ⟨[.again (some ec)], rfl, fun h => absurd rfl h⟩
      | .failed ec => exact ⟨[.failed ec], rfl, fun h => absurd rfl h⟩
      | .room k hk =>
        obtain ⟨used, hused, -⟩ := ih ((b :: bs).drop k)
        exact ⟨.room k hk :: used, congrArg _ hused, fun _ => rfl⟩

theorem writev_used (rs : List WriteResult) : ∀ buffers, ∃ used, rs = used ++ (writev buffers rs).left ∧
    ((writev buffers rs).sent ≠ [] → used.any Session.accepts = true) := by
  induction rs with
  | nil =>
    intro buffers
    exact ⟨[], rfl, fun h => absurd rfl h⟩
  | cons r rs ih =>
    intro buffers
    match r with
    | .again none =>
      obtain ⟨used, hused, h⟩ := ih buffers
      exact ⟨.again none :: used, congrArg _ hused, h⟩
    | .again (some ec) => exact ⟨[.again (some ec)], rfl, fun h => absurd rfl h⟩
    | .failed ec => exact ⟨[.failed ec], rfl, fun h => absurd rfl h⟩
    | .room k hk =>
      rw [writev]
      dsimp only
      split
      · obtain ⟨used, hused, -⟩ := ih buffers
        exact ⟨.room k hk :: used, congrArg _ hused, fun _ => rfl⟩
      · split
        · exact ⟨[.room k hk], rfl, fun _ => rfl⟩
        · obtain ⟨used, hused, -⟩ := ih (reslice buffers buffers (min k buffers.flatten.length)).1
          exact ⟨.room k hk :: used, congrArg _ hused, fun _ => rfl⟩

namespace Session

variable {s : Session P}

/-- A write that gets bytes accepted clears the flag, and none sets it. -/
theorem wrote_guards {w : Wrote} (h : ∃ used, s.writes = used ++ w.left ∧ (w.sent ≠ [] → used.any accepts = true))
    (final : Bool) : Guards s (s.writeActs final (s.wrote w)) (s.wrote w).1 := by
  obtain ⟨used, hused, hacc⟩ := h
  intro n _ hs ht
  have htake : s.writes.take (s.writes.length - w.left.length) = used := by
    rw [hused, List.length_append, Nat.add_sub_cancel, List.take_left]
  have hflag : (s.canWriteError && !used.any accepts) = true := by
    rw [← htake]
    exact ht
  rw [Bool.and_eq_true, Bool.not_eq_true'] at hflag
  have hsent : w.sent = [] := by
    by_contra hne
    rw [hacc hne] at hflag
    cases hflag.2
  simp [writeActs, finalBytes, wrote, hsent, hs hflag.1]

theorem write_guards (s : Session P) (buffer : Bytes) (final : Bool) :
    Guards s (s.writeActs final (s.write buffer)) (s.write buffer).1 :=
  wrote_guards (write_used s.writes buffer) final

theorem writev_guards (s : Session P) (buffers : List Bytes) (final : Bool) :
    Guards s (s.writeActs final (s.writev buffers)) (s.writev buffers).1 :=
  wrote_guards (writev_used s.writes buffers) final

theorem respond_guards (s : Session P) (res : Response) (final : Bool) :
    Guards s (s.writeActs final (s.respond res)) (s.respond res).1 := by
  obtain ⟨s', hflag, hsent, hres⟩ : ∃ s' : Session P, s'.canWriteError = s.canWriteError ∧ s'.sent = s.sent ∧
      s.respond res = s'.write (res.toString s'.keepAlive) := by
    refine ⟨_, ?_, ?_, rfl⟩ <;> split <;> split <;> rfl
  have h := write_guards s' (res.toString s'.keepAlive) final
  rw [hres, writeActs, ← hsent]
  exact h.congr_left hflag

theorem read_guards (mem : Memory) (s : Session P) (req : Request) : Guards s (readActs req) (s.read mem req).session := by
  unfold readActs
  split
  · rename_i hdone
    rw [read, if_pos hdone]
    exact .of_eq rfl
  · exact .reading _ _

theorem receive_guards (mem : Memory) (s : Session P) (req : Request) :
    Guards s (s.receiveActs req) (s.receive mem req).session := by
  unfold receiveActs receive
  split
  · split
    · exact .of_eq rfl
    · have h := respond_guards s { statusCode := 100 } false
      generalize s.respond { statusCode := 100 } = r at h ⊢
      obtain ⟨s', ended⟩ := r
      refine h.trans ?_
      cases ended with
      | returned => exact read_guards mem s' req
      | threw e => exact .of_eq rfl
      | suspended => exact .of_eq rfl
      | crashed => exact .of_eq rfl
  · exact read_guards mem s req

end Session

namespace Handler

theorem resume_guards {s : Session P} {as : List Act} {d : Did P} {next : Option Exc → Session P → Request → Did P}
    {nextActs : Option Exc → Session P → Request → List Act} (hd : Guards s as d.session)
    (h : ∀ e t req, Guards t (nextActs e t req) (next e t req).session) :
    Guards s (as ++ resumeActs d nextActs) (resume d next).session := by
  refine hd.trans ?_
  unfold resumeActs resume
  cases d.ended with
  | returned => exact h _ _ _
  | threw e => exact h _ _ _
  | suspended => exact .of_eq rfl
  | crashed => exact .of_eq rfl

theorem run_guards (mem : Memory) (h : Handler) :
    ∀ (s : Session P) (req : Request), Guards s (h.acts mem s req) (h.run mem s req).session := by
  induction h with
  | ret => exact fun _ _ => .of_eq rfl
  | throw e => exact fun _ _ => .of_eq rfl
  | modify f next ih => exact fun s req => ih s (f req)
  | receive next ih =>
    exact fun s req => resume_guards (Session.receive_guards mem s req) fun e t req => ih e req t req
  | read next ih => exact fun s req => resume_guards (Session.read_guards mem s req) fun e t req => ih e req t req
  | write buffer next ih => exact fun s req => resume_guards (s.write_guards buffer true) fun e t req => ih e t req
  | writev buffers next ih => exact fun s req => resume_guards (s.writev_guards buffers true) fun e t req => ih e t req
  | respond res next ih => exact fun s req => resume_guards (s.respond_guards res _) fun e t req => ih e t req
  | yield next ih =>
    intro s req
    rw [acts, run]
    cases s.yields with
    | nil => exact .of_eq rfl
    | cons y ys => exact (ih y { s with yields := ys, yielded := y } req).congr_left rfl
  | setKeepAlive seconds next ih => exact fun s req => (ih _ _).congr_left rfl
  | setSessionTimeout seconds next ih => exact fun s req => (ih _ _).congr_left rfl

end Handler

namespace Session

/-- Without bytes `readHeaders` leaves the flag as it is. -/
theorem readHeadersLoop_flag (mem : Memory) {rs : List ReadResult} (h : begins rs = false) (s : Session P) (d : Data) :
    (readHeadersLoop mem rs s d).session.canWriteError = s.canWriteError := by
  induction rs generalizing s d with
  | nil => rfl
  | cons r rs ih =>
    rw [readHeadersLoop]
    dsimp only
    split
    · rfl
    · cases r with
      | data bs => cases h
      | failed ec => rfl
      | again resume =>
        cases resume with
        | some ec => rfl
        | none => exact ih h _ _

theorem readHeaders_guards (mem : Memory) (s : Session P) :
    Guards s (if begins s.reads then [.begun] else []) (s.readHeaders mem).session := by
  split
  · exact .begun _ _
  · rename_i h
    exact .of_eq (readHeadersLoop_flag mem (by simpa using h) _ _)

theorem serve_guards (srv : Server) (mem : Memory) (s : Session P) :
    Guards s (s.serveActs srv mem) (s.serve srv mem).session := by
  have hhead := readHeaders_guards mem s
  generalize hpass : s.serve srv mem = pass
  unfold serveActs
  refine hhead.trans ?_
  cases hpass ▸ serve_serves srv mem s with
  | head hne =>
    split
    · rename_i hread
      rw [hread] at hne
      exact absurd rfl hne
    · exact .of_eq rfl
  | refused hread hcreate =>
    simp only [hread, hcreate]
    exact .of_eq rfl
  | unknown hread hcreate hr =>
    simp only [hread, hcreate, hr]
    exact (write_guards _ _ true).congr_left rfl
  | @done s' t d d' handler hread hcreate hrun =>
    simp only [hread, hcreate]
    have h := handler.run_guards mem (s'.startHandler srv d.req) d.req
    rw [hrun] at h
    have h' := (h.congr_left (s := s') rfl).trans
      (.of_eq (t := (t.setSessionTimeout t.keepAlive).log (.served d'.req t.reads t.keepAlive t.yielded)) rfl)
    rwa [List.append_nil] at h'
  | left hread hcreate _ =>
    simp only [hread, hcreate]
    exact (Handler.run_guards _ _ _ _).congr_left rfl

theorem loop_guards (srv : Server) (mem : Memory) (n : Nat) (s : Session P) :
    Guards s (s.loopActs srv mem n) (s.loop srv mem n).session := by
  induction n generalizing s with
  | zero => exact .of_eq rfl
  | succ n ih =>
    rw [loopActs, loop]
    refine (serve_guards srv mem s).trans ?_
    split
    · exact ih _
    · exact .of_eq rfl

end Session

/-- In every run in which no request is read after a byte of its final response was accepted, an error response is only
written if no such byte was accepted. -/
theorem error_before_response (srv : Server) (mem : Memory) (s : Session P)
    (hreads : ReadsFirst 0 (s.requestActs srv mem)) (herr : s.WritesError srv mem) :
    finalBytes 0 (s.requestActs srv mem) = 0 :=
  Session.loop_guards srv mem (s.reads.length + 1) (s.setSessionTimeout srv.headersTimeout) 0 hreads (fun _ => rfl) herr.2

/-! ## A peer that does not send its body -/

/-- Throw what `stream >> req` threw. -/
def rethrow (next : Handler) : Option Exc → Request → Handler
  | some e, _ => .throw e
  | none, _ => next

def okResponse : Response := { statusCode := 200 }

def serverOf (handler : Handler) : Server where
  headersTimeout := 5
  keepAliveTimeout := 10
  createSession _ := .ok (some handler)
  message _ := []

/-- The head arrives, and the wait for the body times out. -/
def postTimesOut : Session postParser where
  reads := [.data post.bytes, .again (some .timed_out)]
  writes := [.room 999 (by decide), .room 999 (by decide)]

/-- The handler reads first: the error response is all that is sent. -/
theorem error_before_response_reads_first :
    let srv := serverOf (.receive (rethrow (.respond okResponse fun _ => .ret)))
    postTimesOut.WritesError srv plainMemory ∧ finalBytes 0 (postTimesOut.requestActs srv plainMemory) = 0 := by
  intro srv
  have herr : postTimesOut.WritesError srv plainMemory := ⟨⟨.error_code .timed_out, by decide⟩, by decide⟩
  exact ⟨herr, error_before_response srv plainMemory postTimesOut (by decide) herr⟩

/-- The handler responds and then reads: the error response follows the other one. -/
theorem error_after_response :
    let srv := serverOf (.respond okResponse fun _ => .receive (rethrow .ret))
    postTimesOut.WritesError srv plainMemory ∧ finalBytes 0 (postTimesOut.requestActs srv plainMemory) ≠ 0 ∧
    (postTimesOut.ioLoop srv plainMemory).session.sent =
      okResponse.toString 10 ++ Session.errorResponse srv (.error_code .timed_out) := by
  refine ⟨⟨⟨.error_code .timed_out, by decide +kernel⟩, by decide +kernel⟩, by decide +kernel, by decide +kernel⟩

end Getodac
