import Getodac.Encoding
import Getodac.Http
import Getodac.Lib.HttpClient
/-!
# Responses one after the other, as a client reads them

A handler builds a response with the constructor and any setters, sends it with
`<<` and then writes what the response announced: so many bytes, chunks, or
nothing. `Reply` is that with the rule as a field.

`replies_recovered`: over a stream that loses nothing a client that reads heads
and bodies gets back the bodies, in order. The message that carries one reply is
`reply_sends`, and that its head announces what follows is `response_announces`:
the setters keep the length and the body in step.
-/

namespace Getodac

open HttpClient (IsLine Silent Framing Carries receive receiveAll)

/-! ## Building a response -/

/-- A `std::string`, which is shorter than `ChunkedData`. -/
abbrev Text := { bs : Bytes // bs.length < chunkedData }

/-- A call on a response. -/
inductive Setter where
  | setStatusCode (statusCode : Nat)
  | setContentLength (length : Nat)
  | setBody (body : Text)
  | setKeepAlive (seconds : Int)

def Response.call (res : Response) : Setter → Response
  | .setStatusCode statusCode => res.setStatusCode statusCode
  | .setContentLength length => res.setContentLength length
  | .setBody body => res.setBody body.1
  | .setKeepAlive seconds => res.setKeepAlive seconds

/-- The length that was set by `setContentLength`, if the body was not given after it. -/
def announce : Option Nat → Setter → Option Nat
  | _, .setContentLength length => some length
  | _, .setBody _ => none
  | length, _ => length

/-- What the handler writes behind a response: to the stream itself, or through a `ChunkedStream`. -/
inductive More where
  | writes (ops : List ChunkedOp)
  | chunked (ops : List ChunkedOp)

def More.payload : More → Bytes
  | .writes ops => ops.flatMap (·.payload)
  | .chunked ops => ops.flatMap (·.payload)

/-- As the length of the response asks for. -/
def More.Follows (more : More) : Option Nat → Prop
  | none => more = .writes []
  | some n =>
    if n = chunkedData then ∃ ops, more = .chunked ops
    else ∃ ops, more = .writes ops ∧ (ops.flatMap (·.payload)).length = n

/-- A response by the arguments of the constructor and the calls after it, and what the handler writes behind it. -/
structure Reply where
  statusCode : Nat := 500
  text : Text := ⟨[], by decide⟩
  fields : Fields := []
  setters : List Setter := []
  more : More
  follows : more.Follows (setters.foldl announce none)

namespace Reply

def response (r : Reply) : Response :=
  r.setters.foldl Response.call { statusCode := r.statusCode, body := r.text.1, fields := r.fields }

def announced (r : Reply) : Option Nat := r.setters.foldl announce none

/-- The body of the reply: what the handler writes if a length was announced, else what the response was given. -/
def body (r : Reply) : Bytes :=
  match r.announced with
  | none => r.response.body
  | some _ => r.more.payload

end Reply

/-- The length is the one announced, and the body is empty then; or it is that of the body. -/
def Response.InStep (res : Response) : Option Nat → Prop
  | none => res.contentLength = res.body.length ∧ res.body.length < chunkedData
  | some n => res.contentLength = n ∧ res.body = []

theorem Response.call_inStep {res : Response} {length : Option Nat} (h : res.InStep length) (c : Setter) :
    (res.call c).InStep (announce length c) ∧ (res.call c).fields = res.fields := by
  cases c with
  | setStatusCode => exact ⟨by cases length <;> exact h, rfl⟩
  | setContentLength => exact ⟨⟨rfl, rfl⟩, rfl⟩
  | setBody body => exact ⟨⟨rfl, body.2⟩, rfl⟩
  | setKeepAlive => exact ⟨by cases length <;> exact h, rfl⟩

theorem Response.calls_inStep {res : Response} {length : Option Nat} (h : res.InStep length) (cs : List Setter) :
    (cs.foldl call res).InStep (cs.foldl announce length) ∧ (cs.foldl call res).fields = res.fields := by
  induction cs generalizing res length with
  | nil => exact ⟨h, rfl⟩
  | cons c cs ih =>
    obtain ⟨hstep, hfields⟩ := call_inStep h c
    obtain ⟨hrest, hsame⟩ := ih hstep
    exact ⟨hrest, hsame.trans hfields⟩

theorem Reply.response_inStep (r : Reply) : r.response.InStep r.announced ∧ r.response.fields = r.fields := by
  have h : ({ statusCode := r.statusCode, body := r.text.1, fields := r.fields } : Response).InStep none :=
    ⟨rfl, r.text.2⟩
  exact Response.calls_inStep h r.setters

/-! ## A stream that loses nothing -/

structure Lossless where
  keepAlive : Int
  sessionTimeout : Int
  sent : Bytes := []

instance : AbstractStream Lossless where
  write buffer s := (.returned, buffer, { s with sent := s.sent ++ buffer })
  writev buffers s := (.returned, buffers.flatten, { s with sent := s.sent ++ buffers.flatten })

namespace Lossless

/-- `stream << res`. -/
def respond (s : Lossless) (res : Response) : Lossless :=
  let s := if res.keepAlive ≠ -1 then { s with keepAlive := res.keepAlive } else s
  let s := if res.contentLength ≠ chunkedData then
      { s with sessionTimeout := max s.sessionTimeout (10 + res.contentLength / (512 * 1024) : Nat) }
    else s
  (AbstractStream.write (res.toString s.keepAlive) s).2.2

/-- One of the two overloads of `write`. -/
def call (s : Lossless) : ChunkedOp → Lossless
  | .write buff => (AbstractStream.write buff s).2.2
  | .writev buffers => (AbstractStream.writev buffers s).2.2

def goOn (s : Lossless) : More → Lossless
  | .writes ops => ops.foldl call s
  | .chunked ops => (ChunkedStream.destroy (ops.foldl (fun s op => (ChunkedStream.call s op).left) s)).left

def reply (s : Lossless) (r : Reply) : Lossless := (s.respond r.response).goOn r.more

theorem call_sent (s : Lossless) (op : ChunkedOp) : (s.call op).sent = s.sent ++ op.payload := by
  cases op <;> rfl

theorem calls_sent (s : Lossless) (ops : List ChunkedOp) :
    (ops.foldl call s).sent = s.sent ++ ops.flatMap (·.payload) := by
  induction ops generalizing s with
  | nil => simp
  | cons op ops ih => rw [List.foldl_cons, ih, call_sent, List.flatMap_cons, List.append_assoc]

/-- A call of a `ChunkedStream` sends what it gives to the stream. -/
theorem chunk_sent (s : Lossless) (op : ChunkedOp) :
    (ChunkedStream.call s op).left.sent = s.sent ++ (ChunkedStream.call s op).offers.flatMap (·.given.flatten) := by
  have hwritev : ∀ buffers, (ChunkedStream.writev buffers s).left.sent =
      s.sent ++ (ChunkedStream.writev buffers s).offers.flatMap (·.given.flatten) := by
    intro buffers
    unfold ChunkedStream.writev
    dsimp only
    split
    · simp
    · simp [ChunkedStream.nextWritev, AbstractStream.writev]
  cases op with
  | write buff =>
    rw [ChunkedStream.call, ChunkedStream.write_eq]
    exact hwritev [buff]
  | writev buffers => exact hwritev buffers

/-- Calls of a `ChunkedStream` send chunks that carry what was written. -/
theorem chunks_sent (s : Lossless) (ops : List ChunkedOp) : ∃ os : List Offer, (∀ o ∈ os, o.IsChunk) ∧
    (ops.foldl (fun s op => (ChunkedStream.call s op).left) s).sent = s.sent ++ os.flatMap (·.given.flatten) ∧
    os.flatMap (·.payload) = ops.flatMap (·.payload) := by
  induction ops generalizing s with
  | nil => exact ⟨[], by simp, by simp, rfl⟩
  | cons op ops ih =>
    obtain ⟨os, hchunk, hsent, hpay⟩ := ih (ChunkedStream.call s op).left
    have hsends := ChunkedStream.call_sends s op
    refine ⟨(ChunkedStream.call s op).offers ++ os, ?_, ?_, ?_⟩
    · intro o ho
      rcases List.mem_append.1 ho with ho | ho
      · by_cases h0 : op.payload = []
        · rw [(hsends.nothing h0).2] at ho
          cases ho
        · obtain ⟨o', ho', hc, -⟩ := hsends.chunk h0
          rw [ho', List.mem_singleton] at ho
          exact ho ▸ hc
      · exact hchunk o ho
    · rw [List.foldl_cons, hsent, chunk_sent, List.flatMap_append, List.append_assoc]
    · rw [List.flatMap_append, List.flatMap_cons, hpay]
      by_cases h0 : op.payload = []
      · rw [(hsends.nothing h0).2, h0]
        rfl
      · obtain ⟨o', ho', -, hp, -⟩ := hsends.chunk h0
        rw [ho', List.flatMap_singleton, hp]

/-- A `ChunkedStream` over its life sends a chunked body. -/
theorem chunked_sent (s : Lossless) (ops : List ChunkedOp) : ∃ wire,
    (s.goOn (.chunked ops)).sent = s.sent ++ wire ∧ ChunkedCoding.IsBody wire (ops.flatMap (·.payload)) := by
  obtain ⟨os, hchunk, hsent, hpay⟩ := chunks_sent s ops
  refine ⟨os.flatMap (·.given.flatten) ++ ChunkedStream.endOfChunckedStream, ?_, hpay ▸ isBody_offers hchunk⟩
  rw [← List.append_assoc, ← hsent]
  rfl

theorem respond_sent (s : Lossless) (res : Response) : ∃ keepAlive,
    (s.respond res).sent = s.sent ++ res.toString keepAlive := by
  unfold respond
  refine ⟨_, congrArg (· ++ _) ?_⟩
  split_ifs <;> rfl

end Lossless

/-! ## The head -/

/-- How many seconds a connection is kept, as the head says it. -/
def connectionLines (keepAlive : Int) : List Bytes :=
  if 0 < keepAlive then [bytes "Keep-Alive: timeout=" ++ bytes (toString keepAlive), bytes "Connection: keep-alive"]
  else [bytes "Connection: close"]

def lengthLine (contentLength : Nat) : Bytes :=
  if contentLength = chunkedData then bytes "Transfer-Encoding: chunked"
  else bytes "Content-Length: " ++ bytes (toString contentLength)

def statusLine (statusCode : Nat) : Bytes := bytes "HTTP/1.1 " ++ (statusCodeString statusCode).dropLast.dropLast

/-- What `toString` makes of a status of 0. -/
def Response.shown (res : Response) : Nat := if res.statusCode = 0 then 500 else res.statusCode

/-- The keep-alive of the head. -/
def Response.effective (res : Response) (keepAliveOverride : Int) : Int :=
  if keepAliveOverride = -1 then res.keepAlive else keepAliveOverride

def Response.fieldLines (res : Response) (keepAlive : Int) : List Bytes :=
  res.fields.map (fun kv => kv.1 ++ bytes ": " ++ kv.2) ++ lengthLine res.contentLength :: connectionLines keepAlive

/-- What stands between the code and the end of the line. -/
def reason (text : Bytes) : Bytes := (text.drop 4).dropLast.dropLast

/-- A line with a code of three digits and a reason. -/
structure IsStatusText (code : Nat) (text : Bytes) : Prop where
  line : text = Decimal.decimal code ++ 32 :: reason text ++ crlf
  cr : 13 ∉ reason text
  digits : (Decimal.decimal code).length = 3

instance (code : Nat) (text : Bytes) : Decidable (IsStatusText code text) :=
  decidable_of_iff (text = Decimal.decimal code ++ 32 :: reason text ++ crlf ∧ 13 ∉ reason text ∧
      (Decimal.decimal code).length = 3)
    ⟨fun h => ⟨h.1, h.2.1, h.2.2⟩, fun h => ⟨h.line, h.cr, h.digits⟩⟩

/-- One text of the table has another number than its key. -/
theorem statusCodes_text : ∀ kv ∈ statusCodes, IsStatusText (if kv.1 = 416 then 415 else kv.1) (bytes kv.2) := by
  unfold statusCodes
  repeat' refine List.forall_mem_cons.2 ⟨?_, ?_⟩
  all_goals first | (rw [bytes_ofList]; decide) | simp

/-- The code that stands in the status line. -/
def codeShown (status : Nat) : Nat :=
  if status = 416 then 415 else if (statusCodes.lookup status).isSome then status else 500

theorem statusCodeString_text (status : Nat) : IsStatusText (codeShown status) (statusCodeString status) := by
  have hother : IsStatusText 500 (bytes "500 Internal Server Error\r\n") := by
    rw [bytes_ofList]
    decide
  unfold codeShown statusCodeString
  cases htext : statusCodes.lookup status with
  | some text =>
    obtain ⟨before, after, hmem, -⟩ := List.lookup_eq_some_iff.1 htext
    exact statusCodes_text (status, text) (by simp [hmem])
  | none =>
    have hne : status ≠ 416 := by
      rintro rfl
      exact absurd htext (by decide)
    rw [if_neg hne]
    exact hother

theorem statusCodeString_line (status : Nat) : statusCodeString status =
    (statusCodeString status).dropLast.dropLast ++ crlf ∧
    (statusCodeString status).dropLast.dropLast = Decimal.decimal (codeShown status) ++ 32 :: reason (statusCodeString status) := by
  have hline := (statusCodeString_text status).line
  have hdrop : ∀ line : Bytes, (line ++ crlf).dropLast.dropLast = line := by
    intro line
    rw [crlf, List.append_cons, List.dropLast_concat, List.dropLast_concat]
  have htext := congrArg (·.dropLast.dropLast) hline
  rw [hdrop] at htext
  exact ⟨by rw [htext]; exact hline, htext⟩

theorem Response.toString_eq (res : Response) (keepAliveOverride : Int) : res.toString keepAliveOverride =
    (statusLine res.shown :: res.fieldLines (res.effective keepAliveOverride)).flatMap (· ++ crlf) ++ crlf ++ res.body := by
  generalize hk : res.effective keepAliveOverride = keepAlive
  unfold Response.effective at hk
  have hlength : lengthLine res.contentLength ++ crlf =
      if res.contentLength = chunkedData then bytes "Transfer-Encoding: chunked\r\n"
      else bytes "Content-Length: " ++ bytes (ToString.toString res.contentLength) ++ crlf := by
    unfold lengthLine
    split
    · decide
    · rfl
  have hconnection : (connectionLines keepAlive).flatMap (· ++ crlf) =
      if 0 < keepAlive then bytes "Keep-Alive: timeout=" ++ bytes (ToString.toString keepAlive) ++ crlf ++
        bytes "Connection: keep-alive\r\n"
      else bytes "Connection: close\r\n" := by
    have hkeep : bytes "Connection: keep-alive\r\n" = bytes "Connection: keep-alive" ++ crlf := by decide
    have hclose : bytes "Connection: close\r\n" = bytes "Connection: close" ++ crlf := by decide
    unfold connectionLines
    rw [hkeep, hclose]
    split <;> simp
  unfold Response.toString Response.fieldLines statusLine
  dsimp only
  rw [hk, ← hlength, ← hconnection, (statusCodeString_line _).1]
  simp [Response.shown, List.flatMap_map, List.append_assoc]

/-! ### Its lines -/

theorem bytes_toString (n : Nat) : bytes (toString n) = Decimal.decimal n := by
  simp [bytes, Decimal.decimal, toString, Nat.repr]

theorem cr_not_mem_number (n : Nat) : 13 ∉ bytes (toString n) := by
  rw [bytes_toString]
  intro h
  exact absurd (Decimal.digit_of_mem_decimal h).1 (by decide)

theorem statusLine_isLine (statusCode : Nat) : IsLine (statusLine statusCode) := by
  have hhttp : bytes "HTTP/1.1 " ≠ [] ∧ 13 ∉ bytes "HTTP/1.1 " := by decide
  refine ⟨List.append_ne_nil_of_left_ne_nil hhttp.1 _, fun h => ?_⟩
  rcases List.mem_append.1 h with h | h
  · exact hhttp.2 h
  · rw [(statusCodeString_line statusCode).2] at h
    rcases List.mem_append.1 h with h | h
    · exact cr_not_mem_number (codeShown statusCode) (bytes_toString _ ▸ h)
    · exact (List.mem_cons.1 h).elim (by decide) (statusCodeString_text statusCode).cr

theorem lengthLine_isLine (contentLength : Nat) : IsLine (lengthLine contentLength) := by
  have hte : bytes "Transfer-Encoding: chunked" ≠ [] ∧ 13 ∉ bytes "Transfer-Encoding: chunked" := by decide
  have hcl : bytes "Content-Length: " ≠ [] ∧ 13 ∉ bytes "Content-Length: " := by decide
  unfold lengthLine
  split
  · exact hte
  · refine ⟨List.append_ne_nil_of_left_ne_nil hcl.1 _, fun h => ?_⟩
    exact (List.mem_append.1 h).elim hcl.2 (cr_not_mem_number contentLength)

theorem connectionLines_areLines {keepAlive : Int} {l : Bytes} (h : l ∈ connectionLines keepAlive) : IsLine l := by
  have hkeep : bytes "Connection: keep-alive" ≠ [] ∧ 13 ∉ bytes "Connection: keep-alive" := by decide
  have hclose : bytes "Connection: close" ≠ [] ∧ 13 ∉ bytes "Connection: close" := by decide
  have hname : bytes "Keep-Alive: timeout=" ≠ [] ∧ 13 ∉ bytes "Keep-Alive: timeout=" := by decide
  unfold connectionLines at h
  split at h
  · rename_i hpos
    obtain ⟨n, rfl⟩ := Int.eq_ofNat_of_zero_le (Int.le_of_lt hpos)
    rcases List.mem_cons.1 h with rfl | h
    · refine ⟨List.append_ne_nil_of_left_ne_nil hname.1 _, fun h => ?_⟩
      exact (List.mem_append.1 h).elim hname.2 (cr_not_mem_number n)
    · exact List.mem_singleton.1 h ▸ hkeep
  · exact List.mem_singleton.1 h ▸ hclose

theorem connectionLines_silent {keepAlive : Int} {l : Bytes} (h : l ∈ connectionLines keepAlive) :
    Silent (HttpClient.field l) := by
  have hkeep : Silent (HttpClient.field (bytes "Connection: keep-alive")) := by constructor <;> decide
  have hclose : Silent (HttpClient.field (bytes "Connection: close")) := by constructor <;> decide
  have hcolon : (58 : UInt8) ∉ bytes "Keep-Alive" := by decide
  have hname : bytes "Keep-Alive: timeout=" = bytes "Keep-Alive" ++ bytes ": " ++ bytes "timeout=" := by
    decide
  unfold connectionLines at h
  split at h
  · rcases List.mem_cons.1 h with rfl | h
    · rw [hname, List.append_assoc, Silent, HttpClient.field_name hcolon]
      constructor <;> decide
    · exact List.mem_singleton.1 h ▸ hkeep
  · exact List.mem_singleton.1 h ▸ hclose

/-! ## Replies -/

/-- A field that a caller may set: it stays on its line, and it says nothing about the body. -/
structure FieldOk (kv : Bytes × Bytes) : Prop where
  colon : 58 ∉ kv.1
  name : 13 ∉ kv.1 ∧ 10 ∉ kv.1
  value : 13 ∉ kv.2 ∧ 10 ∉ kv.2
  length : kv.1.map HttpClient.toLower ≠ bytes "content-length"
  encoding : kv.1.map HttpClient.toLower ≠ bytes "transfer-encoding"

instance (kv : Bytes × Bytes) : Decidable (FieldOk kv) :=
  decidable_of_iff (58 ∉ kv.1 ∧ (13 ∉ kv.1 ∧ 10 ∉ kv.1) ∧ (13 ∉ kv.2 ∧ 10 ∉ kv.2) ∧
      kv.1.map HttpClient.toLower ≠ bytes "content-length" ∧ kv.1.map HttpClient.toLower ≠ bytes "transfer-encoding")
    ⟨fun h => ⟨h.1, h.2.1, h.2.2.1, h.2.2.2.1, h.2.2.2.2⟩, fun h => ⟨h.colon, h.name, h.value, h.length, h.encoding⟩⟩

/-- A status after which there is no body. -/
def Bodiless (status : Nat) : Prop := 100 ≤ status ∧ status < 200 ∨ status = 204 ∨ status = 304

instance (status : Nat) : Decidable (Bodiless status) :=
  inferInstanceAs (Decidable (100 ≤ status ∧ status < 200 ∨ status = 204 ∨ status = 304))

structure Reply.WellFormed (r : Reply) : Prop where
  fields : ∀ kv ∈ r.fields, FieldOk kv
  bodiless : Bodiless r.response.statusCode → r.body = [] ∧ r.announced ≠ some chunkedData

instance (r : Reply) : Decidable r.WellFormed :=
  decidable_of_iff ((∀ kv ∈ r.fields, FieldOk kv) ∧
      (Bodiless r.response.statusCode → r.body = [] ∧ r.announced ≠ some chunkedData))
    ⟨fun h => ⟨h.1, h.2⟩, fun h => ⟨h.fields, h.bodiless⟩⟩

section
variable {res : Response} {keepAlive : Int}

theorem fieldLines_areLines (h : ∀ kv ∈ res.fields, FieldOk kv) : ∀ l ∈ res.fieldLines keepAlive, IsLine l := by
  intro l hl
  have hsep : bytes ": " ≠ [] ∧ 13 ∉ bytes ": " := by decide
  rcases List.mem_append.1 hl with hl | hl
  · obtain ⟨kv, hkv, rfl⟩ := List.mem_map.1 hl
    refine ⟨by simp [hsep.1], ?_⟩
    simp [(h kv hkv).name.1, (h kv hkv).value.1, hsep.2]
  · rcases List.mem_cons.1 hl with rfl | hl
    · exact lengthLine_isLine _
    · exact connectionLines_areLines hl

/-- The framing that the head announces. -/
theorem fieldLines_framing (h : ∀ kv ∈ res.fields, FieldOk kv) :
    HttpClient.framing ((res.fieldLines keepAlive).map HttpClient.field) =
      some (if res.contentLength = chunkedData then .chunked else .length res.contentLength) := by
  have hfields : ∀ f ∈ (res.fields.map fun kv => kv.1 ++ bytes ": " ++ kv.2).map HttpClient.field, Silent f := by
    intro f hf
    obtain ⟨l, hl, rfl⟩ := List.mem_map.1 hf
    obtain ⟨kv, hkv, rfl⟩ := List.mem_map.1 hl
    have hname := HttpClient.field_name (h kv hkv).colon kv.2
    exact ⟨hname ▸ (h kv hkv).encoding, hname ▸ (h kv hkv).length⟩
  have hconnection : ∀ g ∈ (connectionLines keepAlive).map HttpClient.field, Silent g := by
    intro g hg
    obtain ⟨l, hl, rfl⟩ := List.mem_map.1 hg
    exact connectionLines_silent hl
  rw [Response.fieldLines, List.map_append, HttpClient.framing_silent hfields, List.map_cons, lengthLine]
  split
  · exact HttpClient.framing_chunked _
  · rw [bytes_toString]
    exact HttpClient.framing_length _ hconnection

end

/-- The code of the status line is the one that is read. -/
theorem status_statusLine (statusCode : Nat) : HttpClient.status (statusLine statusCode) = codeShown statusCode := by
  have hhttp : bytes "HTTP/1.1 " = bytes "HTTP/1.1 " := rfl
  have hdigits := List.all_eq_true.1 (HttpClient.decimal_digits (codeShown statusCode))
  have hblank : isDigit 32 = false := by decide
  rw [HttpClient.status, statusLine, hhttp, List.drop_left, (statusCodeString_line statusCode).2,
    List.takeWhile_append_of_pos hdigits, List.takeWhile_cons, hblank]
  exact (congrArg _ (List.append_nil _)).trans (Decimal.value_decimal _)

/-- Whoever reads the status line as one without a body is right, although it shows 500 for a status it does not know. -/
theorem bodiless_of_statusLine {res : Response} (h : Bodiless (HttpClient.status (statusLine res.shown))) :
    Bodiless res.statusCode := by
  have hshown : Bodiless res.shown := by
    rw [status_statusLine, codeShown] at h
    split at h
    · exact absurd h (by decide)
    · split at h
      · exact h
      · exact absurd h (by decide)
  unfold Response.shown at hshown
  split at hshown
  · exact absurd hshown (by decide)
  · exact hshown

namespace Reply

/-- What the handler writes behind the response carries the body as the head announces it. -/
theorem response_announces (r : Reply) (s : Lossless) : ∃ wire, (s.goOn r.more).sent = s.sent ++ wire ∧
    Carries (if r.response.contentLength = chunkedData then .chunked else .length r.response.contentLength)
      (r.response.body ++ wire) r.body := by
  have hstep := r.response_inStep.1
  have hfollows : r.more.Follows r.announced := r.follows
  unfold body
  cases ha : r.announced with
  | none =>
    rw [ha] at hstep hfollows
    obtain ⟨hlength, hlt⟩ := hstep
    have hmore : r.more = .writes [] := hfollows
    refine ⟨[], by rw [hmore]; exact Lossless.calls_sent s [], ?_⟩
    rw [hlength, if_neg (Nat.ne_of_lt hlt), List.append_nil]
    exact .length _
  | some n =>
    rw [ha] at hstep hfollows
    obtain ⟨hlength, hbody⟩ := hstep
    rw [hlength, hbody]
    dsimp only [More.Follows] at hfollows
    by_cases hn : n = chunkedData
    · rw [if_pos hn] at hfollows ⊢
      obtain ⟨ops, hops⟩ := hfollows
      rw [hops]
      obtain ⟨wire, hsent, hwire⟩ := s.chunked_sent ops
      exact ⟨wire, hsent, .chunked hwire⟩
    · rw [if_neg hn] at hfollows ⊢
      obtain ⟨ops, hops, rfl⟩ := hfollows
      rw [hops]
      exact ⟨_, s.calls_sent ops, .length _⟩

/-- A reply without a body announces that. -/
theorem framing_of_empty {r : Reply} (hbody : r.body = []) (hlength : r.announced ≠ some chunkedData) :
    (if r.response.contentLength = chunkedData then Framing.chunked else .length r.response.contentLength) = .length 0 := by
  obtain ⟨wire, -, hcarries⟩ := r.response_announces { keepAlive := 0, sessionTimeout := 0 }
  have hne : r.response.contentLength ≠ chunkedData := by
    intro hchunked
    have hstep := r.response_inStep.1
    cases ha : r.announced with
    | none =>
      rw [ha] at hstep
      obtain ⟨hsize, hlt⟩ := hstep
      exact Nat.ne_of_lt hlt (hsize ▸ hchunked)
    | some n =>
      rw [ha] at hstep hlength
      exact hlength (congrArg some (hstep.1 ▸ hchunked))
  rw [if_neg hne] at hcarries ⊢
  rw [hcarries.length_eq, hbody]
  rfl

end Reply

/-- A reply is sent as a message that a client reads back as its body, whatever follows. -/
theorem reply_sends {bodiless : Nat → Bool} (hclient : ∀ status, bodiless status = true → Bodiless status) {r : Reply}
    (h : r.WellFormed) (s : Lossless) : ∃ message, message ≠ [] ∧ (s.reply r).sent = s.sent ++ message ∧
      ∀ rest, receive bodiless (message ++ rest) = some (r.body, rest) := by
  obtain ⟨override, hrespond⟩ := s.respond_sent r.response
  have hhead := r.response.toString_eq override
  obtain ⟨wire, hmore, hcarries⟩ := r.response_announces (s.respond r.response)
  have hfields : ∀ kv ∈ r.response.fields, FieldOk kv := r.response_inStep.2 ▸ h.fields
  refine ⟨r.response.toString override ++ wire, ?_, ?_, fun rest => ?_⟩
  · rw [hhead]
    simp [crlf]
  · rw [Lossless.reply, hmore, hrespond, List.append_assoc]
  · rw [hhead, List.append_assoc _ r.response.body wire]
    refine HttpClient.receive_message (statusLine_isLine _) (fieldLines_areLines hfields) (fieldLines_framing hfields)
      hcarries (fun hstatus => ?_) rest
    obtain ⟨hbody, hlength⟩ := h.bodiless (bodiless_of_statusLine (hclient _ hstatus))
    exact Reply.framing_of_empty hbody hlength

theorem replies_send {bodiless : Nat → Bool} (hclient : ∀ status, bodiless status = true → Bodiless status)
    {rs : List Reply} (h : ∀ r ∈ rs, r.WellFormed) (s : Lossless) : ∃ wire,
      (rs.foldl Lossless.reply s).sent = s.sent ++ wire ∧ rs.length ≤ wire.length ∧
      ∀ fuel, rs.length ≤ fuel → receiveAll bodiless fuel wire = some (rs.map (·.body)) := by
  induction rs generalizing s with
  | nil => exact ⟨[], by simp, Nat.le_refl 0, fun fuel _ => by cases fuel <;> rfl⟩
  | cons r rs ih =>
    obtain ⟨message, hne, hsent, hread⟩ := reply_sends hclient (h r List.mem_cons_self) s
    obtain ⟨wire, hrest, hlen, hreads⟩ := ih (fun r' hr' => h r' (List.mem_cons_of_mem _ hr')) (s.reply r)
    have hpos := List.length_pos_iff.2 hne
    refine ⟨message ++ wire, ?_, ?_, fun fuel hfuel => ?_⟩
    · rw [List.foldl_cons, hrest, hsent, List.append_assoc]
    · rw [List.length_append, List.length_cons]
      omega
    · obtain ⟨fuel, rfl⟩ := Nat.exists_eq_add_of_lt (Nat.lt_of_lt_of_le (Nat.zero_lt_succ _) hfuel)
      rw [Nat.zero_add] at hfuel ⊢
      rw [HttpClient.receiveAll_cons hne (hread wire), hreads fuel (Nat.le_of_succ_le_succ hfuel)]
      rfl

/-- A client reads back the bodies of all replies, in order, whether it reads by the fields alone or takes the head of some
statuses of the kind that has no body as the whole message. -/
theorem replies_recovered {bodiless : Nat → Bool} (hclient : ∀ status, bodiless status = true → Bodiless status)
    (keepAlive sessionTimeout : Int) (rs : List Reply) (h : ∀ r ∈ rs, r.WellFormed) :
    let wire := (rs.foldl Lossless.reply { keepAlive := keepAlive, sessionTimeout := sessionTimeout }).sent
    receiveAll bodiless wire.length wire = some (rs.map (·.body)) := by
  obtain ⟨wire, hsent, hlen, hreads⟩ := replies_send hclient h { keepAlive := keepAlive, sessionTimeout := sessionTimeout }
  rw [List.nil_append] at hsent
  dsimp only
  rw [hsent]
  exact hreads wire.length hlen

/-- A page, one with its length set, one in chunks, and one that is not modified. -/
def fourReplies : List Reply :=
  [{ statusCode := 200, text := ⟨bytes "page", by decide⟩, fields := [(bytes "Server", bytes "g: 1")],
     setters := [], more := .writes [], follows := rfl },
   { statusCode := 200, setters := [.setBody ⟨bytes "gone", by decide⟩, .setContentLength 3, .setKeepAlive 5],
     more := .writes [.write (bytes "a"), .writev [bytes "b", bytes "c"]], follows := ⟨_, rfl, rfl⟩ },
   { setters := [.setStatusCode 299, .setContentLength chunkedData],
     more := .chunked [.write (bytes "chu"), .write [], .writev [bytes "n", bytes "ks"]], follows := ⟨_, rfl⟩ },
   { statusCode := 304, setters := [], more := .writes [], follows := rfl }]

theorem replies_recovered_four :
    let wire := (fourReplies.foldl Lossless.reply { keepAlive := 10, sessionTimeout := 10 }).sent
    receiveAll (fun status => decide (Bodiless status)) wire.length wire =
      some [bytes "page", bytes "abc", bytes "chunks", []] := by
  have hbodies : fourReplies.map (·.body) = [bytes "page", bytes "abc", bytes "chunks", []] := by decide
  have h := replies_recovered (fun _ h => of_decide_eq_true h) 10 10 fourReplies (by decide)
  rw [hbodies] at h
  exact h

end Getodac
