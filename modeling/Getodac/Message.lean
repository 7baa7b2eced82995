import Getodac.Waiting
/-!
# Messages one after the other

A message is a head and maybe a body. The tape of messages sent back to back is
that of one after the other: with the last byte of a message the request is
completed, and with the first byte of the next one it is begun again.
-/

namespace Getodac

open Tape Token

/-- A request that keeps the connection open. -/
structure Message where
  head : Head
  body : Option Body

namespace Message

def tape (m : Message) : List Token := m.head.tape (headDone true m.body.isSome) ++ m.body.elim [] Body.tape

def bytes (m : Message) : Bytes := wire m.tape

end Message

def tapes (ms : List Message) : List Token := ms.flatMap Message.tape

@[simp] theorem tapes_nil : tapes [] = [] := rfl

@[simp] theorem tapes_cons (m : Message) (ms : List Message) : tapes (m :: ms) = m.tape ++ tapes ms := List.flatMap_cons

@[simp] theorem tapes_append (a b : List Message) : tapes (a ++ b) = tapes a ++ tapes b := List.flatMap_append

/-! ## Where a message ends -/

/-- The byte completes a message. -/
def Token.Final (t : Token) : Prop := t.after.getLast? = some .messageComplete

/-- The byte does not. -/
abbrev Token.Inner (t : Token) : Prop := t.Satisfies (· ≠ Callback.messageComplete) (fun _ : Kind => True)

/-- What is left of a message. -/
structure Rest (R : List Token) : Prop where
  split : ∃ o t, R = o ++ [t] ∧ (∀ x ∈ o, Token.Inner x) ∧ Token.Final t

theorem Rest.ne_nil {R : List Token} (h : Rest R) : R ≠ [] := by
  obtain ⟨o, t, rfl, -⟩ := h.split
  simp

theorem Rest.suffix {a R : List Token} (h : Rest (a ++ R)) (hR : R ≠ []) : (∀ x ∈ a, Token.Inner x) ∧ Rest R := by
  obtain ⟨o, t, heq, ho, ht⟩ := h.split
  rcases List.eq_nil_or_concat R with rfl | ⟨o', t', rfl⟩
  · exact absurd rfl hR
  · rw [List.concat_eq_append, ← List.append_assoc] at heq
    obtain ⟨rfl, h'⟩ := List.append_inj' heq rfl
    cases h'
    refine ⟨fun x hx => ho x (List.mem_append_left _ hx), ⟨o', t, by simp, fun x hx => ho x (List.mem_append_right _ hx), ht⟩⟩

theorem skip_inner (bs : Bytes) : ∀ t ∈ skip bs, Token.Inner t := by
  intro t ht
  obtain ⟨b, -, rfl⟩ := List.mem_map.1 ht
  exact ⟨by simp, by simp, by simp⟩

theorem elem_inner (k : Kind) (bs : Bytes) : ∀ t ∈ elem k bs, Token.Inner t := by
  intro t ht
  obtain ⟨b, -, rfl⟩ := List.mem_map.1 ht
  exact ⟨by simp, by simp, by simp⟩

theorem inHead_inner {t : Token} (h : Token.InHead t) : Token.Inner t := by
  have hc : ∀ c : Callback, c.InHead → c ≠ .messageComplete := by
    rintro c hc rfl
    exact hc
  exact ⟨fun c h' => hc c (h.1 c h'), fun _ _ => trivial, fun c h' => hc c (h.2.2 c h')⟩

theorem chunks_inner (cs : List Chunk) : ∀ t ∈ cs.flatMap Chunk.tape, Token.Inner t := by
  intro t ht
  obtain ⟨c, -, hc⟩ := List.mem_flatMap.1 ht
  simp only [Chunk.tape, List.mem_append] at hc
  rcases hc with (hc | hc) | hc
  · exact skip_inner _ t hc
  · exact elem_inner _ _ t hc
  · exact skip_inner _ t hc

theorem last_split (cs : List Callback) {ts : List Token} (hne : ts ≠ []) :
    ∃ o t, ts = o ++ [t] ∧ last cs ts = o ++ [{ t with after := cs }] := by
  induction ts with
  | nil => exact absurd rfl hne
  | cons t ts ih =>
    cases ts with
    | nil => exact ⟨[], t, rfl, rfl⟩
    | cons u ts =>
      obtain ⟨o, x, h₁, h₂⟩ := ih (by simp)
      exact ⟨t :: o, x, by rw [h₁]; rfl, by rw [last, h₂] <;> simp⟩

theorem Body.tape_rest (b : Body) : Rest b.tape := by
  cases b with
  | identity data ne =>
    obtain ⟨o, t, h₁, h₂⟩ := last_split [.messageComplete] (show elem .body data ≠ [] by simpa [elem] using ne)
    refine ⟨o, _, h₂, fun x hx => ?_, rfl⟩
    exact elem_inner .body data x (by rw [h₁]; exact List.mem_append_left _ hx)
  | chunked chunks line ok trailers =>
    refine ⟨_, _, rfl, fun x hx => ?_, rfl⟩
    simp only [List.mem_append] at hx
    rcases hx with (hx | hx) | hx
    · exact chunks_inner _ x hx
    · exact skip_inner _ x hx
    · exact inHead_inner (openLines_inHead (by simp) _ x hx)

theorem Message.tape_rest (m : Message) : Rest m.tape := by
  have hopen : ∀ x ∈ m.head.openTape, Token.Inner x := fun x hx => inHead_inner (m.head.openTape_head.inHead x hx)
  unfold Message.tape
  cases m.body with
  | none =>
    refine ⟨m.head.openTape, lineFeed (headDone true false), ?_, hopen, rfl⟩
    rw [Option.elim_none, List.append_nil, Head.tape, Option.isSome_none]
  | some b =>
    obtain ⟨o, t, hb, ho, ht⟩ := b.tape_rest.split
    refine ⟨m.head.tape (headDone true true) ++ o, t, by simp [hb], fun x hx => ?_, ht⟩
    rcases List.mem_append.1 hx with hx | hx
    · rcases List.mem_append.1 hx with hx | hx
      · exact hopen x hx
      · rw [List.mem_singleton.1 hx]
        exact ⟨by simp [lineFeed], by simp [lineFeed], by simp [lineFeed, headDone]⟩
    · exact ho x hx

/-- With its first byte a message begins. -/
theorem Message.tape_begin (m : Message) : ∃ t ts, m.tape = t :: ts ∧ t.before = [.messageBegin] := by
  obtain ⟨b, bs, hb⟩ := List.exists_cons_of_ne_nil m.head.method_ne
  simp only [Message.tape, Head.tape, Head.openTape, Head.lineTape, hb, skip, List.map_cons, first, List.cons_append]
  exact ⟨_, _, rfl, rfl⟩

/-! ## What the callbacks make of it -/

/-- A body callback that does not throw is registered. -/
def Data.Silent (d : Data) : Prop := ∃ callback, d.req.callback = some callback ∧ ∀ a b, callback a b = none

theorem call_body {d : Data} (h : d.Silent) (piece : Bytes) :
    d.call (.data .body piece) = ({ d with req := { d.req with body := d.req.body ++ piece } }, none) := by
  obtain ⟨callback, hcb, hnone⟩ := h
  simp [Data.call, Request.appendBody, hcb, hnone]

theorem call_silent {d : Data} (h : d.Silent) (c : Callback) : ∃ d', d.call c = (d', none) ∧ d'.Silent := by
  cases c with
  | data k piece =>
    cases k with
    | body => exact ⟨_, call_body h piece, h⟩
    | url | headerField | headerValue => exact ⟨_, rfl, h⟩
  | messageBegin | headersComplete | messageComplete => exact ⟨_, rfl, h⟩

theorem callAll_silent {d : Data} (h : d.Silent) (cs : List Callback) : ∃ d', d.callAll cs = (d', none) ∧ d'.Silent := by
  induction cs generalizing d with
  | nil => exact ⟨d, rfl, h⟩
  | cons c cs ih =>
    obtain ⟨d₁, h₁, hs₁⟩ := call_silent h c
    obtain ⟨d₂, h₂, hs₂⟩ := ih hs₁
    exact ⟨d₂, by rw [Data.callAll, h₁]; exact h₂, hs₂⟩

theorem call_open {d d' : Data} {c : Callback} {e : Option Exc} (hd : d.req.state ≠ .Completed) (hc : c ≠ .messageComplete)
    (h : d.call c = (d', e)) : d'.req.state ≠ .Completed := by
  cases c with
  | data k piece =>
    cases k with
    | body =>
      cases h
      simp only [Request.appendBody]
      split <;> exact hd
    | url | headerField | headerValue => cases h; first | exact hd | simp
  | messageBegin | headersComplete => cases h; simp
  | messageComplete => exact absurd rfl hc

/-- Only `messageComplete` completes a request. -/
theorem callAll_open {d d' : Data} {cs : List Callback} (hd : d.req.state ≠ .Completed)
    (hc : ∀ c ∈ cs, c ≠ .messageComplete) (h : d.callAll cs = (d', none)) : d'.req.state ≠ .Completed := by
  induction cs generalizing d with
  | nil => cases h; exact hd
  | cons c cs ih =>
    rw [Data.callAll] at h
    split at h
    · rename_i d₁ hc₁
      exact ih (call_open hd (hc c List.mem_cons_self) hc₁) (fun x hx => hc x (List.mem_cons_of_mem _ hx)) h
    · cases h

variable {r : Run UInt8 Kind}

theorem calls_inner {ts : List Token} (h : ∀ t ∈ ts, Token.Inner t) : ∀ c ∈ calls Callback.data r ts, c ≠ .messageComplete :=
  calls_forall (q := fun _ => True) (fun _ _ _ => by simp) (fun _ _ => trivial) h

/-- The last byte of a message ends all runs, and completes the request. -/
theorem calls_final {o : List Token} {t : Token} (ht : Token.Final t) (rest : List Token) :
    calls Callback.data r (o ++ t :: rest) = calls .data r (o ++ [t]) ++ calls .data none rest ∧
    (calls Callback.data r (o ++ [t])).getLast? = some .messageComplete := by
  have hne : t.after.isEmpty = false := by
    cases ha : t.after with
    | nil => rw [Token.Final, ha] at ht; cases ht
    | cons c cs => rfl
  have hrun : (emit Callback.data r (o ++ [t])).2 = none := by
    simp [emit_append, emit, step, hne]
  have hcalls : calls Callback.data r (o ++ [t]) = (emit .data r (o ++ [t])).1 := by
    rw [calls, hrun, flush, List.append_nil]
  constructor
  · rw [List.append_cons, calls_append, hrun, hcalls]
  · obtain ⟨x, hx⟩ : ∃ x, (emit Callback.data r (o ++ [t])).1 = x ++ t.after := by
      simp only [emit_append, emit, step, hne, Bool.false_eq_true, if_false, List.append_nil, ← List.append_assoc]
      exact ⟨_, rfl⟩
    rw [hcalls, hx, List.getLast?_append, ht]
    rfl

theorem calls_before (u : Token) (ts : List Token) :
    calls Callback.data none (u :: ts) = u.before ++ calls .data none ({ u with before := [] } :: ts) := by
  have hstep : step Callback.data none u =
      (u.before ++ (step Callback.data none { u with before := [] }).1,
        (step Callback.data none { u with before := [] }).2) := by
    simp only [step, joins, join, flush, Bool.false_eq_true, if_false, List.nil_append]
    split <;> simp
  simp only [calls, emit, hstep, List.append_assoc]

theorem Rest.unbegun {u : Token} {ts : List Token} (h : Rest (u :: ts)) : Rest ({ u with before := [] } :: ts) := by
  obtain ⟨o, t, heq, ho, ht⟩ := h.split
  cases o with
  | nil =>
    obtain ⟨rfl, rfl⟩ := List.cons.inj heq
    exact ⟨[], _, rfl, by simp, ht⟩
  | cons x o =>
    obtain ⟨rfl, rfl⟩ := List.cons.inj heq
    refine ⟨{ u with before := [] } :: o, t, rfl, fun y hy => ?_, ht⟩
    rcases List.mem_cons.1 hy with rfl | hy
    · exact ⟨by simp, (ho u List.mem_cons_self).2⟩
    · exact ho y (List.mem_cons_of_mem _ hy)

/-- A call ends inside the message, or goes on after it. -/
theorem segment_cases {R c c' rest : List Token} {d d' : Data} (hR : Rest R) (h : c ++ c' = R ++ rest)
    (hd : d.req.state ≠ .Completed) (hs : d.Silent) (hcalls : d.callAll (calls .data r c) = (d', none)) :
    (d'.req.state ≠ .Completed ∧ ∃ R₂, Rest R₂ ∧ c' = R₂ ++ rest) ∨
    ∃ (c₂ : List Token) (d₁ : Data), rest = c₂ ++ c' ∧ d₁.req.state = .Completed ∧ d₁.Silent ∧
      d₁.callAll (calls .data none c₂) = (d', none) := by
  have hafter : ∀ c₂, c = R ++ c₂ → ∃ d₁ : Data, d₁.req.state = .Completed ∧ d₁.Silent ∧
      d₁.callAll (calls .data none c₂) = (d', none) := by
    rintro c₂ rfl
    obtain ⟨o, t, rfl, -, ht⟩ := hR.split
    obtain ⟨hsplit, hlast⟩ := calls_final (r := r) (o := o) ht c₂
    obtain ⟨d₁, h₁, hs₁⟩ := callAll_silent hs (calls Callback.data r (o ++ [t]))
    rw [List.append_assoc, List.singleton_append, hsplit, Data.callAll_append h₁] at hcalls
    exact ⟨d₁, callAll_messageComplete h₁ hlast, hs₁, hcalls⟩
  rcases List.append_eq_append_iff.1 h with ⟨R₂, rfl, rfl⟩ | ⟨c₂, hc₂, hrest⟩
  · by_cases hR₂ : R₂ = []
    · subst hR₂
      obtain ⟨d₁, h₁⟩ := hafter [] (by simp)
      exact .inr ⟨[], d₁, by simp, h₁⟩
    · obtain ⟨hinner, hR'⟩ := hR.suffix hR₂
      exact .inl ⟨callAll_open hd (calls_inner hinner) hcalls, R₂, hR', rfl⟩
  · obtain ⟨d₁, h₁⟩ := hafter c₂ hc₂
    exact .inr ⟨c₂, d₁, hrest, h₁⟩

/-- After a call the request is completed if the call ends where a message ends, and only then. -/
theorem segment_state {R c c' : List Token} {ms : List Message} {d d' : Data} (hR : Rest R)
    (h : c ++ c' = R ++ tapes ms) (hd : d.req.state ≠ .Completed) (hs : d.Silent)
    (hcalls : d.callAll (calls .data r c) = (d', none)) :
    (d'.req.state = .Completed ∧ ∃ ms₂, ms₂ <:+ ms ∧ c' = tapes ms₂) ∨
    (d'.req.state ≠ .Completed ∧ ∃ R₂ ms₂, Rest R₂ ∧ ms₂ <:+ ms ∧ c' = R₂ ++ tapes ms₂) := by
  induction ms generalizing R c r d with
  | nil =>
    rcases segment_cases hR h hd hs hcalls with ⟨hd', R₂, hR₂, rfl⟩ | ⟨c₂, d₁, hrest, hd₁, hs₁, hcalls₁⟩
    · exact .inr ⟨hd', R₂, [], hR₂, List.suffix_refl _, rfl⟩
    · obtain ⟨rfl, rfl⟩ := List.append_eq_nil_iff.1 hrest.symm
      cases hcalls₁
      exact .inl ⟨hd₁, [], List.suffix_refl _, rfl⟩
  | cons m ms ih =>
    rcases segment_cases hR h hd hs hcalls with ⟨hd', R₂, hR₂, rfl⟩ | ⟨c₂, d₁, hrest, hd₁, hs₁, hcalls₁⟩
    · exact .inr ⟨hd', R₂, m :: ms, hR₂, List.suffix_refl _, rfl⟩
    · cases c₂ with
      | nil =>
        cases hcalls₁
        exact .inl ⟨hd₁, m :: ms, List.suffix_refl _, hrest.symm⟩
      | cons u c₃ =>
        -- the call goes on with the next message, which begins the request again
        obtain ⟨u', ts, htape, hbegin⟩ := m.tape_begin
        have hrest' : u' :: (ts ++ tapes ms) = u :: (c₃ ++ c') := by
          rw [tapes_cons, htape] at hrest
          exact hrest
        obtain ⟨rfl, hts⟩ := List.cons.inj hrest'
        rw [calls_before, hbegin, List.singleton_append, Data.callAll] at hcalls₁
        have hR' := (htape ▸ m.tape_rest : Rest (u' :: ts)).unbegun
        have hs₂ : ({ d₁ with req := { d₁.req with state := .ProcessingUrl } } : Data).Silent := hs₁
        obtain ⟨hd', ms₂, hms₂, hc'⟩ | ⟨hd', R₂, ms₂, hR₂, hms₂, hc'⟩ :=
          ih (c := { u' with before := [] } :: c₃) hR' (by simpa using hts.symm) (by simp) hs₂ hcalls₁
        · exact .inl ⟨hd', ms₂, hms₂.trans (List.suffix_cons m ms), hc'⟩
        · exact .inr ⟨hd', R₂, ms₂, hR₂, hms₂.trans (List.suffix_cons m ms), hc'⟩

/-! ## What a handler sees of a message -/

namespace Body

def data : Body → Bytes
  | .identity data _ => data
  | .chunked chunks _ _ _ => chunks.flatMap Chunk.data

def trailers : Body → List Field
  | .identity _ _ => []
  | .chunked _ _ _ trailers => trailers

end Body

namespace Message

def data (m : Message) : Bytes := m.body.elim [] Body.data

/-- The header lines, and those after a chunked body. -/
def lines (m : Message) : List Field := m.head.fields ++ m.body.elim [] Body.trailers

/-- The request has the method, URL, fields and body of the message. A name has the value of its last line. -/
structure Sees (m : Message) (req : Request) : Prop where
  method : req.method = m.head.method
  url : req.url = m.head.target
  fields : ∀ name, req.fields.find name = (m.lines.reverse.find? (·.name = name)).map Field.value
  body : req.body = m.data

end Message

def Fields.setAll (fs : Fields) (lines : List Field) : Fields := lines.foldl (fun fs f => fs.set f.name f.value) fs

theorem Fields.find_setAll (fs : Fields) (lines : List Field) (name : Bytes) :
    (fs.setAll lines).find name = ((lines.reverse.find? (·.name = name)).map Field.value).or (fs.find name) := by
  induction lines generalizing fs with
  | nil => simp [Fields.setAll]
  | cons f lines ih =>
    have h := ih (fs.set f.name f.value)
    rw [Fields.find_set] at h
    rw [Fields.setAll, List.foldl_cons, ← Fields.setAll, h, List.reverse_cons, List.find?_append]
    cases lines.reverse.find? (·.name = name) with
    | some g => simp
    | none =>
      by_cases hf : f.name = name
      · simp [hf]
      · simp [hf, Ne.symm hf]

theorem callAll_fields (d : Data) (fs : List Field) :
    ∃ name, d.callAll (fs.flatMap Field.calls) =
      ({ req := { d.req with fields := d.req.fields.setAll fs }, headerField := name }, none) := by
  induction fs generalizing d with
  | nil => exact ⟨d.headerField, rfl⟩
  | cons f fs ih =>
    obtain ⟨name, h⟩ := ih (Data.headerValue { d with headerField := f.name } f.value)
    exact ⟨name, h⟩

/-- The request that a head makes. -/
def Head.request (h : Head) (hasBody : Bool) : Request where
  keepAlive := true
  url := h.target
  method := h.method
  fields := Fields.setAll [] h.fields
  state := if hasBody then .HeadersCompleted else .Completed

theorem callAll_head (h : Head) (hasBody : Bool) :
    ∃ name, ({} : Data).callAll (calls .data none (h.tape (headDone true hasBody))) =
      ({ req := h.request hasBody, headerField := name }, none) := by
  obtain ⟨name, hfields⟩ := callAll_fields (.ofLine h.method h.target) h.fields
  have hline : ({} : Data).callAll [.messageBegin, .data (.url h.method) h.target] = (.ofLine h.method h.target, none) := rfl
  refine ⟨name, ?_⟩
  rw [calls_tape]
  exact (Data.callAll_append hline _).trans
    ((Data.callAll_append hfields _).trans (Data.callAll_headDone _ true hasBody))

theorem callAll_body {d : Data} (hs : d.Silent) (ps : List Bytes) :
    d.callAll (ps.map (.data .body)) = ({ d with req := { d.req with body := d.req.body ++ ps.flatten } }, none) := by
  induction ps generalizing d with
  | nil => simp [Data.callAll]
  | cons p ps ih =>
    rw [List.map_cons, Data.callAll, call_body hs]
    refine (ih (d := { d with req := { d.req with body := d.req.body ++ p } }) hs).trans ?_
    simp

/-- A body in parts is the same body. -/
theorem callAll_refines {L L₀ : List Callback} (h : Refines Callback.data (· = .body) L L₀) {d : Data} (hs : d.Silent) :
    d.callAll L = d.callAll L₀ := by
  induction h generalizing d with
  | nil => rfl
  | event c _ ih =>
    obtain ⟨d', hc, hs'⟩ := call_silent hs c
    rw [Data.callAll, Data.callAll, hc]
    exact ih hs'
  | run k p hk _ ih =>
    subst hk
    have hone := callAll_body hs [p.whole]
    have hflat : p.all.flatten = [p.whole].flatten := by simp [Pieces.all, Pieces.whole]
    obtain ⟨d', hd', hs'⟩ := callAll_silent hs ([p.whole].map (.data .body))
    have hall := callAll_body hs p.all
    rw [hflat, ← hone, hd'] at hall
    rw [Data.callAll_append hall, ← List.singleton_append]
    exact (ih hs').trans (Data.callAll_append hd' _).symm

/-- The callbacks of a body, but for the last. -/
def Body.calls : Body → List Callback
  | .identity data _ => [.data .body data]
  | .chunked chunks _ _ trailers => chunks.map (fun c => .data .body c.data) ++ trailers.flatMap Field.calls

theorem emit_chunks (cs : List Chunk) :
    emit Callback.data none (cs.flatMap Chunk.tape) = (cs.map fun c => .data .body c.data, none) := by
  induction cs with
  | nil => rfl
  | cons c cs ih =>
    simp only [List.flatMap_cons, Chunk.tape, emit_append, emit_skip_bytes (c.line ++ crlf) (by simp [crlf]),
      emit_elem_bytes _ c.data_ne, emit_skip_bytes crlf (by simp [crlf]), ih]
    simp [flush]

theorem calls_body (b : Body) : Tape.calls .data none b.tape = b.calls ++ [Callback.messageComplete] := by
  cases b with
  | identity data ne =>
    obtain ⟨o, t, h₁, h₂⟩ := last_split [.messageComplete] (show elem .body data ≠ [] by simpa [elem] using ne)
    have hafter : t.after = [] := by
      obtain ⟨b, -, rfl⟩ := List.mem_map.1 (h₁ ▸ List.mem_append_right o List.mem_cons_self : t ∈ elem .body data)
      rfl
    have hstep : ∀ r : Run UInt8 Kind, step Callback.data r { t with after := [.messageComplete] } =
        ((step Callback.data r t).1 ++ flush .data (step Callback.data r t).2 ++ [.messageComplete], none) := by
      intro r
      simp [step, joins, join, hafter]
    have hemit := emit_elem_bytes .body ne
    rw [h₁, emit_append, emit, emit] at hemit
    obtain ⟨h₃, h₄⟩ := Prod.mk.inj hemit
    simp only [List.append_nil] at h₃ h₄
    rw [Body.tape, h₂, Tape.calls, emit_append, emit, emit, hstep, h₄]
    simp only [flush, List.append_nil, ← List.append_assoc, h₃]
    rfl
  | chunked chunks line ok trailers =>
    rw [Body.tape, calls_concat_skip _ _ rfl, Tape.calls]
    simp only [emit_append, emit_chunks, emit_skip_bytes (line ++ crlf) (by simp [crlf]), emit_openLines]
    simp [flush, lineFeed, Body.calls]

/-- The request with a body callback, after its body. -/
theorem callAll_message {m : Message} {b : Body} (hb : m.body = some b) {d : Data} (hs : d.Silent)
    (hm : d.req.method = m.head.method) (hu : d.req.url = m.head.target)
    (hf : d.req.fields = Fields.setAll [] m.head.fields) (hd : d.req.body = []) :
    ∃ d', d.callAll (b.calls ++ [.messageComplete]) = (d', none) ∧ m.Sees d'.req := by
  have hfields : ∀ fs : List Field, m.lines = m.head.fields ++ fs → ∀ name,
      ((Fields.setAll [] m.head.fields).setAll fs).find name = (m.lines.reverse.find? (·.name = name)).map Field.value := by
    intro fs hlines name
    rw [hlines, ← Option.or_none (o := Option.map _ _)]
    have := Fields.find_setAll [] (m.head.fields ++ fs) name
    rw [Fields.setAll, List.foldl_append] at this
    exact this
  cases b with
  | identity data ne =>
    refine ⟨_, Data.callAll_append (callAll_body hs [data]) _, hm, hu, ?_, ?_⟩
    · have := hfields [] (by simp [Message.lines, hb, Body.trailers])
      rw [← hf] at this
      exact this
    · simp [hd, Message.data, hb, Body.data]
  | chunked chunks line ok trailers =>
    have hchunks : chunks.map (fun c => Callback.data .body c.data) = (chunks.map Chunk.data).map (.data .body) := by
      rw [List.map_map]; rfl
    obtain ⟨name, hlines⟩ := callAll_fields
      { d with req := { d.req with body := d.req.body ++ (chunks.map Chunk.data).flatten } } trailers
    have hall : d.callAll ((chunks.map Chunk.data).map (.data .body) ++ trailers.flatMap Field.calls) = _ :=
      (Data.callAll_append (callAll_body hs _) _).trans hlines
    rw [Body.calls, hchunks]
    refine ⟨_, Data.callAll_append hall _, hm, hu, ?_, ?_⟩
    · have := hfields trailers (by simp [Message.lines, hb, Body.trailers])
      rw [← hf] at this
      exact this
    · simp [hd, Message.data, hb, Body.data, List.flatMap]

/-- A message without a body is seen with its head. -/
theorem Head.sees {m : Message} (hb : m.body = none) {req : Request} (hm : req.method = m.head.method)
    (hu : req.url = m.head.target) (hf : req.fields = Fields.setAll [] m.head.fields) (hd : req.body = []) : m.Sees req := by
  refine ⟨hm, hu, fun name => ?_, by rw [hd, Message.data, hb]; rfl⟩
  rw [hf, Fields.find_setAll, Message.lines, hb, Option.elim_none, List.append_nil]
  exact Option.or_none

/-! ## Reads and messages -/

/-- Reads up to the first that ends where a message ends. -/
structure UpToEnd (R : List Token) (ms : List Message) (cs : List (List Token)) : Prop where
  ne_nil : cs ≠ []
  flatten : cs.flatten = R ++ tapes ms
  first : ∀ x y ms', cs = x ++ y → x ≠ [] → y ≠ [] → ms' <:+ ms → y.flatten ≠ tapes ms'

theorem exists_upToEnd {R : List Token} (hR : Rest R) {ms : List Message} {cs : List (List Token)}
    (h : cs.flatten = R ++ tapes ms) :
    ∃ cs₁ cs₂ ms₁ ms₂, cs = cs₁ ++ cs₂ ∧ ms = ms₁ ++ ms₂ ∧ UpToEnd R ms₁ cs₁ ∧ cs₂.flatten = tapes ms₂ := by
  induction hn : cs.length using Nat.strong_induction_on generalizing cs ms with
  | _ n ih =>
    by_cases hfirst : ∀ x y ms', cs = x ++ y → x ≠ [] → y ≠ [] → ms' <:+ ms → y.flatten ≠ tapes ms'
    · refine ⟨cs, [], ms, [], by simp, by simp, ⟨?_, h, hfirst⟩, rfl⟩
      rintro rfl
      exact hR.ne_nil (List.append_eq_nil_iff.1 h.symm).1
    · push Not at hfirst
      obtain ⟨x, y, ms', rfl, -, hy, ⟨ms'', rfl⟩, hend⟩ := hfirst
      have hx : x.flatten = R ++ tapes ms'' := by
        rw [List.flatten_append, hend, tapes_append, ← List.append_assoc] at h
        exact List.append_cancel_right h
      have hlen : x.length < n := by
        have := List.length_pos_iff.2 hy
        rw [← hn, List.length_append]
        omega
      obtain ⟨cs₁, cs₂, ms₁, ms₂, rfl, rfl, h₁, h₂⟩ := ih x.length hlen hx rfl
      exact ⟨cs₁, cs₂ ++ y, ms₁, ms₂ ++ ms', by simp, by simp, h₁, by simp [h₂, hend]⟩

theorem tapes_eq_nil {ms : List Message} (h : tapes ms = []) : ms = [] := by
  cases ms with
  | nil => rfl
  | cons m ms => exact absurd (List.append_eq_nil_iff.1 h).1 m.tape_rest.ne_nil

/-- If a read ends where the message does, these are the reads up to there. -/
theorem UpToEnd.aligned {R : List Token} (hR : Rest R) {ms₁ ms₂ : List Message} {cs₁ cs₂ u v : List (List Token)}
    (h : UpToEnd R ms₁ cs₁) (h₂ : cs₂.flatten = tapes ms₂) (heq : cs₁ ++ cs₂ = u ++ v)
    (hv : v.flatten = tapes (ms₁ ++ ms₂)) : ms₁ = [] := by
  have hu : u.flatten = R := by
    have := congrArg List.flatten heq
    rw [List.flatten_append, List.flatten_append, h.flatten, h₂, hv, tapes_append, ← List.append_assoc] at this
    exact (List.append_cancel_right (List.append_cancel_right this)).symm
  rcases List.append_eq_append_iff.1 heq with ⟨w, rfl, -⟩ | ⟨w, rfl, rfl⟩
  · rw [List.flatten_append, h.flatten, List.append_assoc] at hu
    exact tapes_eq_nil (List.append_eq_nil_iff.1 (List.append_right_eq_self.1 hu)).1
  · by_contra hne
    have hw : w.flatten = tapes ms₁ := by
      rw [List.flatten_append, h₂, tapes_append] at hv
      exact List.append_cancel_right hv
    refine h.first u w ms₁ rfl ?_ ?_ (List.suffix_refl _) hw
    · rintro rfl
      exact hR.ne_nil hu.symm
    · rintro rfl
      exact hne (tapes_eq_nil hw.symm)

end Getodac
