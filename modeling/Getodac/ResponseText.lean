import Getodac.Replies
import Getodac.Lib.HttpMessage
/-!
# A response as text, read back

`Response::toString` writes a status line from the table, the fields, a length
and the connection fields, and behind the empty line the body.
`response_parses`: a reader of HTTP gets all of that back, the status excepted
where the text of the table is not that of its key.
-/

namespace Getodac

open HttpMessage (IsToken Message fieldLine statusOf trim parse)

/-! ## The fields of the head -/

/-- The fields that `toString` adds itself, in any case. -/
def Reserved (name : Bytes) : Prop :=
  name.map HttpClient.toLower ∈
    [bytes "content-length", bytes "transfer-encoding", bytes "connection", bytes "keep-alive"]

instance (name : Bytes) : Decidable (Reserved name) := inferInstanceAs (Decidable (_ ∈ _))

def framingField (contentLength : Nat) : Bytes × Bytes :=
  if contentLength = chunkedData then (bytes "Transfer-Encoding", bytes "chunked")
  else (bytes "Content-Length", bytes (toString contentLength))

def connectionFields (keepAlive : Int) : Fields :=
  if 0 < keepAlive then
    [(bytes "Keep-Alive", bytes "timeout=" ++ bytes (toString keepAlive)), (bytes "Connection", bytes "keep-alive")]
  else [(bytes "Connection", bytes "close")]

/-- What `toString` adds to the fields of the response. -/
def Response.added (res : Response) (keepAlive : Int) : Fields :=
  framingField res.contentLength :: connectionFields keepAlive

/-- A field that is read back as it was written. -/
structure Exact (f : Bytes × Bytes) : Prop where
  token : IsToken f.1
  reserved : Reserved f.1
  line : 13 ∉ f.2
  value : f.2.any HttpMessage.isBlank = false

instance (f : Bytes × Bytes) : Decidable (Exact f) :=
  decidable_of_iff (IsToken f.1 ∧ Reserved f.1 ∧ 13 ∉ f.2 ∧ f.2.any HttpMessage.isBlank = false)
    ⟨fun h => ⟨h.1, h.2.1, h.2.2.1, h.2.2.2⟩, fun h => ⟨h.token, h.reserved, h.line, h.value⟩⟩

theorem number_not_blank (n : Nat) : (bytes (toString n)).any HttpMessage.isBlank = false := by
  rw [bytes_toString]
  refine List.any_eq_false.2 fun b hb => ?_
  have hlo := (Decimal.digit_of_mem_decimal hb).1
  have hne : ∀ c : UInt8, c < 48 → b ≠ c := fun c hc he => absurd (he ▸ hlo) (UInt8.not_le.2 hc)
  simp [HttpMessage.isBlank, hne 32 (by decide), hne 9 (by decide)]

theorem framingField_exact (contentLength : Nat) : Exact (framingField contentLength) := by
  have hchunked : Exact (bytes "Transfer-Encoding", bytes "chunked") := by decide
  have hlength : IsToken (bytes "Content-Length") ∧ Reserved (bytes "Content-Length") := by decide
  unfold framingField
  split
  · exact hchunked
  · exact ⟨hlength.1, hlength.2, cr_not_mem_number contentLength, number_not_blank contentLength⟩

theorem connectionFields_exact {keepAlive : Int} {f : Bytes × Bytes} (h : f ∈ connectionFields keepAlive) : Exact f := by
  have hkeep : Exact (bytes "Connection", bytes "keep-alive") := by decide
  have hclose : Exact (bytes "Connection", bytes "close") := by decide
  have hname : IsToken (bytes "Keep-Alive") ∧ Reserved (bytes "Keep-Alive") := by decide
  have htimeout : 13 ∉ bytes "timeout=" ∧ (bytes "timeout=").any HttpMessage.isBlank = false := by decide
  unfold connectionFields at h
  split at h
  · rename_i hpos
    obtain ⟨n, rfl⟩ := Int.eq_ofNat_of_zero_le (Int.le_of_lt hpos)
    rcases List.mem_cons.1 h with rfl | h
    · refine ⟨hname.1, hname.2, fun hcr => ?_, ?_⟩
      · exact (List.mem_append.1 hcr).elim htimeout.1 (cr_not_mem_number n)
      · exact List.any_append.trans (Bool.or_eq_false_iff.2 ⟨htimeout.2, number_not_blank n⟩)
    · exact List.mem_singleton.1 h ▸ hkeep
  · exact List.mem_singleton.1 h ▸ hclose

theorem Response.added_exact {res : Response} {keepAlive : Int} {f : Bytes × Bytes} (h : f ∈ res.added keepAlive) :
    Exact f := by
  rcases List.mem_cons.1 h with rfl | h
  · exact framingField_exact _
  · exact connectionFields_exact h

theorem Response.added_trim (res : Response) (keepAlive : Int) :
    (res.added keepAlive).map (fun f => (f.1, trim f.2)) = res.added keepAlive := by
  refine List.map_congr_left (g := id) (fun f hf => ?_) |>.trans (List.map_id _)
  rw [HttpMessage.trim_free (added_exact hf).value]
  rfl

theorem lengthLine_eq (contentLength : Nat) : lengthLine contentLength = fieldLine (framingField contentLength) := by
  have hte : bytes "Transfer-Encoding: chunked" = fieldLine (bytes "Transfer-Encoding", bytes "chunked") := by
    decide
  have hcl : bytes "Content-Length: " = bytes "Content-Length" ++ bytes ": " := by decide
  unfold lengthLine framingField
  split
  · exact hte
  · rw [hcl, fieldLine]

theorem connectionLines_eq (keepAlive : Int) : connectionLines keepAlive = (connectionFields keepAlive).map fieldLine := by
  have hka : bytes "Keep-Alive: timeout=" = bytes "Keep-Alive" ++ bytes ": " ++ bytes "timeout=" := by
    decide
  have hkeep : bytes "Connection: keep-alive" = fieldLine (bytes "Connection", bytes "keep-alive") := by decide
  have hclose : bytes "Connection: close" = fieldLine (bytes "Connection", bytes "close") := by decide
  unfold connectionLines connectionFields
  split
  · rw [hka, hkeep, List.map_cons, List.map_singleton, List.append_assoc]
    rfl
  · rw [hclose, List.map_singleton]

/-- The lines of the head are those of the response's fields and of the added ones. -/
theorem Response.fieldLines_eq (res : Response) (keepAlive : Int) :
    res.fieldLines keepAlive = (res.fields ++ res.added keepAlive).map fieldLine := by
  have hsep : bytes ": " = bytes ": " := by decide
  rw [fieldLines, lengthLine_eq, connectionLines_eq, hsep, added, List.map_append, List.map_cons]
  rfl

/-! ## The status -/

/-- The status a reader should see. -/
def Response.known (res : Response) : Nat := if (statusCodes.lookup res.statusCode).isSome then res.statusCode else 500

theorem statusOf_statusLine (status : Nat) : statusOf (statusLine status) = some (codeShown status) := by
  have hhttp : bytes "HTTP/1.1 " = bytes "HTTP/1.1 " := rfl
  rw [statusLine, (statusCodeString_line status).2, hhttp,
    HttpMessage.statusOf_line (statusCodeString_text status).digits (HttpClient.decimal_digits _), Decimal.value_decimal]

theorem Response.statusOf_shown (res : Response) :
    statusOf (statusLine res.shown) = some (if res.statusCode = 416 then 415 else res.known) := by
  rw [statusOf_statusLine, shown, known, codeShown]
  by_cases h0 : res.statusCode = 0
  · rw [h0]
    rfl
  · rw [if_neg h0]

/-! ## The whole text -/

/-- A reader of HTTP gets back the fields of the response, the added ones and
the body, and it gets the status of the response unless that is 416. -/
theorem response_parses (res : Response) (keepAliveOverride : Int)
    (hnames : ∀ f ∈ res.fields, IsToken f.1 ∧ ¬ Reserved f.1) (hvalues : ∀ f ∈ res.fields, 13 ∉ f.2 ∧ 10 ∉ f.2) :
    ∃ m, parse (res.toString keepAliveOverride) = some m ∧
      (m.status = res.known ↔ res.statusCode ≠ 416) ∧
      m.fields = res.fields.map (fun f => (f.1, trim f.2)) ++ res.added (res.effective keepAliveOverride) ∧
      m.fields.filter (fun f => Reserved f.1) = res.added (res.effective keepAliveOverride) ∧
      m.rest = res.body := by
  generalize hk : res.effective keepAliveOverride = keepAlive
  have hfields : ∀ f ∈ res.fields ++ res.added keepAlive, IsToken f.1 ∧ 13 ∉ f.2 := by
    intro f hf
    rcases List.mem_append.1 hf with hf | hf
    · exact ⟨(hnames f hf).1, (hvalues f hf).1⟩
    · exact ⟨(Response.added_exact hf).token, (Response.added_exact hf).line⟩
  have hparse := HttpMessage.parse_text (statusLine_isLine res.shown) res.statusOf_shown hfields res.body
  rw [← Response.fieldLines_eq, List.map_append, res.added_trim] at hparse
  refine ⟨_, by rw [res.toString_eq, hk]; exact hparse, ?_, rfl, ?_, rfl⟩
  · dsimp only
    split
    · rename_i h416
      rw [Response.known, h416]
      decide
    · rename_i h416
      exact iff_of_true rfl h416
  · have hmine : (res.fields.map fun f => (f.1, trim f.2)).filter (fun f => Reserved f.1) = [] := by
      refine List.filter_eq_nil_iff.2 fun f hf => ?_
      obtain ⟨g, hg, rfl⟩ := List.mem_map.1 hf
      simpa using (hnames g hg).2
    have htheirs : (res.added keepAlive).filter (fun f => Reserved f.1) = res.added keepAlive :=
      List.filter_eq_self.2 fun f hf => decide_eq_true (Response.added_exact hf).reserved
    dsimp only
    rw [List.filter_append, hmine, htheirs, List.nil_append]

/-- A body with header-like text behind a 404. -/
theorem response_parses_notFound : ∃ m,
    parse (({ statusCode := 404, body := bytes "\r\n\r\nX-Body: 1\r\n",
              fields := [(bytes "Content-Type", bytes "text/plain")] } : Response).toString 10) = some m ∧
      m.status = 404 ∧ m.rest = bytes "\r\n\r\nX-Body: 1\r\n" := by
  obtain ⟨m, hm, hstatus, -, -, hrest⟩ := response_parses
    { statusCode := 404, body := bytes "\r\n\r\nX-Body: 1\r\n", fields := [(bytes "Content-Type", bytes "text/plain")] }
    10 (by decide) (by decide)
  exact ⟨m, hm, hstatus.2 (by decide), hrest⟩

/-- 416 is in the table, under a text that begins with 415. -/
theorem range_not_satisfiable : ({ statusCode := 416 } : Response).known = 416 ∧
    (parse (({ statusCode := 416 } : Response).toString)).map (·.status) = some 415 := by
  decide

end Getodac
