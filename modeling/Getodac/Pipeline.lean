import Getodac.Receive
/-!
# Pipelined requests

What `ioLoop` makes of messages sent back to back. Each pass serves the message
it starts with. Where the end of a message is not the end of a read, the pass
after it finds the rest of the read in `m_httpParserBuffer`, or `read` has passed
it on as part of the message before.
-/

namespace Getodac

open Tape

variable {P : HttpParser} {tail : Bool}

/-! ## What a run did -/

/-- The requests whose handlers returned, and the answers of `readSome` that were still to come. -/
def serves (tr : List Event) : List (Request × List ReadResult) :=
  tr.filterMap fun
    | .served req left _ _ => some (req, left)
    | _ => none

/-- The requests whose handlers started. -/
def starts (tr : List Event) : List Request :=
  tr.filterMap fun
    | .created req => some req
    | _ => none

@[simp] theorem serves_append (a b : List Event) : serves (a ++ b) = serves a ++ serves b := List.filterMap_append

@[simp] theorem starts_append (a b : List Event) : starts (a ++ b) = starts a ++ starts b := List.filterMap_append

theorem inPhase_quiet {phase : Phase} {tr : List Event} (h : ∀ e ∈ tr, e.InPhase phase) : serves tr = [] ∧ starts tr = [] := by
  constructor <;> refine List.filterMap_eq_nil_iff.2 fun e he => ?_ <;>
  · rcases h e he with ⟨bs, rfl⟩ | ⟨c, rfl⟩ <;> rfl

/-! ## One pass -/

/-- A session between two passes, with these answers to come and room for `k` bytes. -/
structure Start (rs : List ReadResult) (k : Nat) (s : Session P) : Prop where
  reads : s.reads = rs
  yielded : s.yielded = none
  writes : Takes k s.writes

/-- The pass from `s` ended with a request for which `G` holds, and the next one starts with these bytes
in `m_httpParserBuffer`. -/
structure Passed (srv : Server) (mem : Memory) (s : Session P) (k : Nat) (carry : Bytes) (b : List ReadResult)
    (G : Request → Prop) : Prop where
  again : (s.serve srv mem).again = true
  start : Start b k (s.serve srv mem).session
  carry : (s.serve srv mem).session.httpParserBuffer = carry
  trace : ∃ tr req first, (s.serve srv mem).session.trace = s.trace ++ tr ∧ serves tr = [(req, b)] ∧
    starts tr = [first] ∧ G req

/-- The pass of a handler that registers, from the head on. -/
theorem passed_registers {srv : Server} {n : Nat} (hreg : Registers srv n) {mem : Memory} {s s₁ : Session P} {d : Data}
    {k : Nat} {B : Bytes} {b : List ReadResult} {G : Request → Prop}
    (hhead : s.readHeaders mem = ⟨.returned, s₁, d⟩) (hka : d.req.keepAlive = true) {bss : List Bytes}
    (hr : Reads .readHeaders (s.log (.entered [] s.reads.head?)) s₁ bss) (hy : s.yielded = none)
    (hw : Takes ((continueText srv.keepAliveTimeout).length + (n + k)) s.writes)
    (hread : ∀ (callback : BodyCallback) (s' : Session P), (∀ a b, callback a b = none) → s'.parser = s₁.parser →
      s'.httpParserBuffer = s₁.httpParserBuffer → s'.reads = s₁.reads →
      ∃ (s₂ : Session P) (d₂ : Data) (bss : List Bytes),
        s'.read mem (d.req.appendBodyCallback callback) = ⟨.returned, s₂, d₂⟩ ∧
        Reads .read s' s₂ bss ∧ s₂.httpParserBuffer = B ∧ s₂.reads = b ∧ G d₂.req) :
    Passed srv mem s k B b G := by
  obtain ⟨callback, next, hcreate, hsilent, hnext⟩ := hreg d.req
  have hws : s₁.writes = s.writes := hr.writes
  obtain ⟨s₃, req, hrun, hb, hleft, ⟨tr₂, htr₂, hin₂⟩, hy₃, hka₃, hw₃, hg⟩ := run_registers mem
    (s := s₁.startHandler srv d.req) callback d.req (G := G) (B := B) (b := b) hnext (if_pos hka) (hr.yielded hy) (hws ▸ hw)
    fun s' hk => hread callback s' hsilent hk.parser hk.buffer hk.reads
  have hserve := serve_returned hhead hcreate hrun
  obtain ⟨tr₁, htr₁, -, hin₁⟩ := hr.trace
  refine ⟨by rw [hserve]; simp [hy₃, hka₃],
    ⟨by rw [hserve]; exact hleft, by rw [hserve]; exact hy₃, by rw [hserve]; exact hw₃⟩, by rw [hserve]; exact hb, ?_⟩
  refine ⟨[Event.entered [] s.reads.head?] ++ tr₁ ++ [Event.created d.req] ++ tr₂ ++
    [Event.served req b s₃.keepAlive s₃.yielded], req, d.req, ?_, ?_, ?_, hg⟩
  · rw [hserve]
    simp only [Session.log, Session.setSessionTimeout, htr₂, Session.startHandler, Session.setKeepAlive, htr₁, hleft,
      List.append_assoc]
  · simp only [serves_append, (inPhase_quiet hin₁).1, (inPhase_quiet hin₂).1]
    rfl
  · simp only [starts_append, (inPhase_quiet hin₁).2, (inPhase_quiet hin₂).2]
    rfl

/-- `readHeaders` reads the head of the first message. -/
theorem readHeaders_message {tape : List Token} (hf : P.Follows tail tape) {h : Head} {hasBody : Bool}
    {cs : List (List Token)} {T' y : List Token} (hT : h.openTape = cs.flatten ++ T') (hends : ∀ c ∈ cs, ReadEnd c)
    (hp : h.tape (headDone true hasBody) ++ y <+: tape) {mem : Memory} {s : Session P} {a b : List ReadResult}
    (ha : datas a = cs.map wire) (hreads : s.reads = a ++ .data (wire (T' ++ lineFeed (headDone true hasBody) :: y)) :: b)
    (hdel : Delivers mem s.reads) (hb : s.httpParserBuffer = []) :
    ∃ (s' : Session P) (name : Bytes) (bss : List Bytes),
      s.readHeaders mem = ⟨.returned, s', { req := h.request hasBody, headerField := name }⟩ ∧
      Reads .readHeaders (s.log (.entered [] s.reads.head?)) s' bss ∧ s'.httpParserBuffer = wire y ∧ s'.reads = b ∧
      s'.At tail tape (h.tape (headDone true hasBody)) none := by
  have hp' : h.openTape ++ lineFeed (headDone true hasBody) :: y <+: tape := by simpa [Head.tape] using hp
  obtain ⟨s', d, hhead, hcalls, hr, hbuf, hleft, hat⟩ := readHeaders_head hf h.openTape_head (headEnd true hasBody) hp' ha hT
    hreads hdel hb (.inl (head_split hT hends))
  obtain ⟨name, hname⟩ := callAll_head h hasBody
  rw [feed_head hT hends, hname] at hcalls
  rw [← (Prod.mk.inj hcalls).1] at hhead
  exact ⟨s', name, _, hhead, hr, hbuf, hleft, hat⟩

theorem suffix_after {cs₁ cs₂ v : List (List Token)} {c : List Token} (hv : v <:+ cs₁ ++ c :: cs₂)
    (hlen : v.flatten.length < c.length + cs₂.flatten.length) : v <:+ cs₂ := by
  obtain ⟨u, hu⟩ := hv
  rcases List.append_eq_append_iff.1 hu with ⟨w, rfl, rfl⟩ | ⟨w, rfl, hw⟩
  · simp at hlen
  · cases w with
    | nil =>
      rw [List.nil_append] at hw
      rw [← hw] at hlen
      simp at hlen
    | cons x w =>
      obtain ⟨rfl, rfl⟩ := List.cons.inj hw
      exact List.suffix_append _ _

theorem mem_bodySegments {y c : List Token} {cs : List (List Token)} (h : c ∈ bodySegments y cs) :
    (c = y ∧ y ≠ []) ∨ c ∈ cs := by
  unfold bodySegments at h
  split at h
  · exact .inr h
  · rename_i hy
    exact (List.mem_cons.1 h).imp (⟨·, hy⟩) id

theorem bodySegments_append (y : List Token) (w v : List (List Token)) :
    bodySegments y (w ++ v) = bodySegments y w ++ v := by
  unfold bodySegments
  split <;> rfl

/-- The body is read up to a line end each time, as the head before it is. -/
theorem readEnd_bodySegments {u y : List Token} {t : Token} {cs : List (List Token)} (hfirst : ReadEnd (u ++ t :: y))
    (hrest : ∀ c ∈ cs, ReadEnd c) : ∀ c ∈ bodySegments y cs, ReadEnd c := by
  intro c hc
  rcases mem_bodySegments hc with ⟨rfl, hy⟩ | hc
  · exact ReadEnd.suffix (a := u ++ [t]) (by simpa using hfirst) hy
  · exact hrest c hc

/-- What a pass makes of the first message, whatever is in memory. -/
theorem exists_pass {m : Message} {ms : List Message} {rs : List ReadResult} {cs : List (List Token)}
    (hcs : datas rs = cs.map wire) (hflat : cs.flatten = m.tape ++ tapes ms) (hends : ∀ c ∈ cs, ReadEnd c)
    (hf : P.Follows tail (tapes (m :: ms))) {srv : Server} {n : Nat} (hreg : Registers srv n) :
    ∃ (y : List Token) (b : List ReadResult) (cs₂ : List (List Token)) (ms₂ : List Message),
      ms₂ <:+ ms ∧ cs₂ <:+ cs ∧ datas b = cs₂.map wire ∧ y ++ cs₂.flatten = tapes ms₂ ∧ (∃ a bs, rs = a ++ .data bs :: b) ∧
      ((∃ v, v <:+ cs ∧ v.flatten = tapes ms) → y = [] ∧ ms₂ = ms) ∧
      ∀ (mem : Memory) (s : Session P) (k : Nat), Delivers mem rs → s.httpParserBuffer = [] →
        Start rs ((continueText srv.keepAliveTimeout).length + (n + k)) s →
        Passed srv mem s k (wire y) b fun req => ms₂ = ms → m.Sees req := by
  have htape : m.tape ++ tapes ms =
      m.head.openTape ++ lineFeed (headDone true m.body.isSome) :: (m.body.elim [] Body.tape ++ tapes ms) := by
    simp [Message.tape, Head.tape]
  rw [htape] at hflat
  obtain ⟨cs₁, T', y, csb, rfl, hT, hrest⟩ := exists_segment hflat
  obtain ⟨a, b, rfl, ha, hb⟩ := datas_split (cs₁.map wire)
    (wire (T' ++ lineFeed (headDone true m.body.isSome) :: y)) (csb.map wire) (by simpa using hcs)
  have hends₁ : ∀ c ∈ cs₁, ReadEnd c := fun c hc => hends c (List.mem_append_left _ hc)
  have hsuf : csb <:+ cs₁ ++ (T' ++ lineFeed (headDone true m.body.isSome) :: y) :: csb :=
    (List.suffix_cons _ _).trans (List.suffix_append _ _)
  have hp : m.head.tape (headDone true m.body.isSome) ++ y <+: tapes (m :: ms) := by
    refine ⟨csb.flatten, ?_⟩
    rw [List.append_assoc, ← hrest, tapes_cons, Message.tape, List.append_assoc]
  have hlength : ∀ v : List (List Token), v.flatten.length ≤ (y ++ csb.flatten).length →
      v.flatten.length < (T' ++ lineFeed (headDone true m.body.isSome) :: y).length + csb.flatten.length := by
    intro v hv
    rw [List.length_append] at hv
    rw [List.length_append, List.length_cons]
    omega
  obtain hbody | ⟨body, hbody⟩ := Option.eq_none_or_eq_some m.body
  · rw [hbody, Option.elim_none, List.nil_append] at hrest
    refine ⟨y, b, csb, ms, List.suffix_refl _, hsuf, hb, hrest.symm, ⟨a, _, rfl⟩, ?_, ?_⟩
    · rintro ⟨v, hv, hvflat⟩
      rw [hrest] at hvflat
      obtain ⟨w, rfl⟩ := suffix_after hv (hlength v (by rw [hvflat]))
      have hlen := congrArg List.length hvflat
      rw [List.flatten_append, List.length_append, List.length_append] at hlen
      exact ⟨List.length_eq_zero_iff.1 (by omega), rfl⟩
    · intro mem s k hdel hbuf hstart
      obtain ⟨s₁, name, bss, hhead, hr, hb₁, hleft₁, -⟩ := readHeaders_message hf hT hends₁ hp ha hstart.reads
        (hstart.reads ▸ hdel) hbuf
      refine passed_registers hreg hhead rfl hr hstart.yielded hstart.writes fun callback s' _ _ hb' hleft' => ?_
      refine ⟨s', { req := (m.head.request m.body.isSome).appendBodyCallback callback }, [], ?_, .refl _ _, hb'.trans hb₁,
        hleft'.trans hleft₁, fun _ => Head.sees hbody rfl rfl rfl rfl⟩
      rw [Session.read, if_pos]
      rw [hbody]
      rfl
  · rw [hbody, Option.elim_some] at hrest
    obtain ⟨L, cs₂, ms₁, ms₂, b₂, hL, rfl, hup, h₂, hb₂, hsuf₂, hused, hread⟩ :=
      exists_read tail (tapes (m :: ms)) (P := P) hb body.tape_rest hrest.symm
    refine ⟨[], b₂, cs₂, ms₂, List.suffix_append _ _, hsuf₂.trans hsuf, hb₂, by simpa using h₂, ?_, ?_, ?_⟩
    · rcases hused with rfl | ⟨a', bs, rfl⟩
      · exact ⟨a, _, rfl⟩
      · exact ⟨a ++ .data (wire (T' ++ lineFeed (headDone true m.body.isSome) :: y)) :: a', bs, by simp⟩
    · rintro ⟨v, hv, hvflat⟩
      obtain ⟨w, rfl⟩ := suffix_after hv (hlength v (by rw [← hrest, hvflat, List.length_append]; exact Nat.le_add_left _ _))
      rw [bodySegments_append] at hL
      refine ⟨rfl, ?_⟩
      rw [hup.aligned body.tape_rest h₂ hL.symm hvflat, List.nil_append]
    · intro mem s k hdel hbuf hstart
      obtain ⟨s₁, name, bss, hhead, hr, hb₁, hleft₁, hat₁⟩ := readHeaders_message hf hT hends₁ hp ha hstart.reads
        (hstart.reads ▸ hdel) hbuf
      refine passed_registers hreg hhead rfl hr hstart.yielded hstart.writes fun callback s' hsilent hpar hb' hleft' => ?_
      have hs : ({ req := (m.head.request m.body.isSome).appendBodyCallback callback } : Data).Silent :=
        ⟨callback, rfl, hsilent⟩
      obtain ⟨s₂, d₂, hrd, hcalls, hr₂, hb₂', hleft₂⟩ := hread mem
        (m.head.tape (headDone true m.body.isSome)) s' ((m.head.request m.body.isSome).appendBodyCallback callback) hf
        (by rw [Session.At, hpar]; exact hat₁)
        (by simp [tapes_cons, Message.tape, hbody])
        hdel.right.2.2 (hb'.trans hb₁) (hleft'.trans hleft₁) (by rw [hbody]; intro h; cases h) hs
      refine ⟨s₂, d₂, _, hrd, hr₂, hb₂', hleft₂, fun hms => ?_⟩
      have hms₁ : ms₁ = [] := List.append_left_eq_self.1 hms.symm
      have hfirst : ReadEnd (T' ++ lineFeed (headDone true m.body.isSome) :: y) := hends _ (by simp)
      have hLends : ∀ c ∈ L, ReadEnd c := fun c hc =>
        readEnd_bodySegments hfirst (fun c hc => hends c (hsuf.subset hc)) c (hL ▸ List.mem_append_left _ hc)
      obtain ⟨d', hd', hsees⟩ := callAll_message hbody hs rfl rfl rfl rfl
      rw [callAll_feed_body (by rw [hup.flatten, hms₁, tapes_nil, List.append_nil]) hLends hs, hd'] at hcalls
      rw [← (Prod.mk.inj hcalls).1]
      exact hsees

/-! ## A whole run -/

/-- The last answer before `left` brings the `n`-th byte. -/
def Brings (n : Nat) (reads left : List ReadResult) : Prop :=
  ∃ a bs, reads = a ++ .data bs :: left ∧ (datas a).flatten.length < n ∧ n ≤ (datas a).flatten.length + bs.length

/-- There is one handler for each message. It sees that message, and has read up to its end when it returns. -/
structure Separate (ms : List Message) (reads : List ReadResult) (tr : List Event) : Prop where
  started : (starts tr).length = ms.length
  served : (serves tr).length = ms.length
  sees : ∀ i m, ms[i]? = some m → ∃ req left, (serves tr)[i]? = some (req, left) ∧ m.Sees req ∧
    Brings ((ms.take (i + 1)).flatMap Message.bytes).length reads left

theorem Brings.append {u b left : List ReadResult} {k n : Nat} (hu : (datas u).flatten.length = k) (h : Brings n b left) :
    Brings (k + n) (u ++ b) left := by
  obtain ⟨a, bs, rfl, h₁, h₂⟩ := h
  refine ⟨u ++ a, bs, by simp, ?_, ?_⟩ <;>
  · rw [datas_append, List.flatten_append, List.length_append]
    omega

theorem Separate.cons {m : Message} {ms : List Message} {a b : List ReadResult} {bs : Bytes} {tr tr' : List Event}
    {req first : Request} (hlen : (datas a).flatten.length + bs.length = m.bytes.length) (hbs : bs ≠ [])
    (hserves : serves tr = [(req, b)]) (hstarts : starts tr = [first]) (hsees : m.Sees req) (h : Separate ms b tr') :
    Separate (m :: ms) (a ++ .data bs :: b) (tr ++ tr') := by
  refine ⟨by simp [hstarts, h.started], by simp [hserves, h.served], fun i x hx => ?_⟩
  have hpos := List.length_pos_iff.2 hbs
  cases i with
  | zero =>
    cases hx
    have hone : ((m :: ms).take 1).flatMap Message.bytes = m.bytes := by simp
    refine ⟨req, b, by simp [hserves], hsees, a, bs, rfl, ?_, ?_⟩ <;> rw [Nat.zero_add, hone] <;> omega
  | succ i =>
    obtain ⟨req', left, hi, hs, hbr⟩ := h.sees i x hx
    refine ⟨req', left, by simpa [hserves] using hi, hs, ?_⟩
    have := hbr.append (u := a ++ [.data bs]) (k := m.bytes.length) (by simpa using hlen)
    simpa using this

/-- A pass that does not get a head is the last one. -/
theorem loop_last (srv : Server) {mem : Memory} {s : Session P} (h : (s.readHeaders mem).ended ≠ .returned) (N : Nat) :
    ∃ tr, (s.loop srv mem (N + 1)).session.trace = s.trace ++ tr ∧ serves tr = [] ∧ starts tr = [] := by
  have hserve : s.serve srv mem = { s.readHeaders mem with again := false } := by
    unfold Session.serve
    split
    · rename_i he
      rw [he] at h
      exact absurd rfl h
    · rfl
  obtain ⟨tr, htr, hin⟩ := (readHeaders_extends mem s).1.trace
  refine ⟨[Event.entered s.httpParserBuffer s.reads.head?] ++ tr, ?_, ?_⟩
  · simp only [Session.loop, hserve, Bool.false_eq_true, if_false, htr, Session.log, List.append_assoc]
  · rw [serves_append, starts_append, (inPhase_quiet hin).1, (inPhase_quiet hin).2]
    exact ⟨rfl, rfl⟩

theorem readHeadersLoop_quiet {mem : Memory} {rs : List ReadResult} (hdel : Delivers mem rs) (hrs : datas rs = [])
    (s : Session P) (d : Data) (hb : s.httpParserBuffer = []) : (s.readHeadersLoop mem rs d).ended = .suspended := by
  induction rs generalizing s with
  | nil => rfl
  | cons r rs ih =>
    cases r with
    | failed ec => exact hdel.elim
    | data bs => cases hrs
    | again resume =>
      obtain ⟨rfl, hdel⟩ := hdel
      rw [readHeadersLoop_again hb]
      exact ih hdel hrs _ hb

theorem Passed.loop {srv : Server} {mem : Memory} {s : Session P} {k : Nat} {B : Bytes} {b : List ReadResult}
    {G : Request → Prop} (h : Passed srv mem s k B b G) (N : Nat) :
    s.loop srv mem (N + 1) = (s.serve srv mem).session.loop srv mem N := by
  simp only [Session.loop, h.again, if_true]

/-- The reads that are left when the message is over bring the others. -/
theorem used_length {m : Message} {ms : List Message} {rs a b : List ReadResult} {bs : Bytes}
    {cs cs₂ : List (List Token)} (hcs : datas rs = cs.map wire) (hflat : cs.flatten = m.tape ++ tapes ms)
    (hb : datas b = cs₂.map wire) (h₂ : cs₂.flatten = tapes ms) (hrs : rs = a ++ .data bs :: b) :
    (datas a).flatten.length + bs.length = m.bytes.length := by
  have h := congrArg (fun x : List Bytes => x.flatten.length) hcs
  have h' := congrArg (fun x : List Bytes => x.flatten.length) hb
  simp only [← List.map_flatten, hflat, h₂, List.length_map, List.length_append] at h h'
  subst hrs
  rw [datas_append, datas_data, List.flatten_append, List.flatten_cons, List.length_append, List.length_append, h'] at h
  rw [Message.bytes, List.length_map]
  omega

theorem suffix_of_length {cs v w : List (List Token)} (hv : v <:+ cs) (hw : w <:+ cs) (hne : ∀ c ∈ cs, c ≠ [])
    (hlen : v.flatten.length ≤ w.flatten.length) : v <:+ w := by
  rcases List.suffix_or_suffix_of_suffix hv hw with h | ⟨x, rfl⟩
  · exact h
  · cases x with
    | nil => exact List.suffix_refl _
    | cons c x =>
      have := List.length_pos_iff.2 (hne c (hv.subset (by simp)))
      simp at hlen
      omega

variable {srv : Server} {n : Nat}

/-- The bytes that the server may write while it serves one message. -/
abbrev reply (srv : Server) (n : Nat) : Nat := (continueText srv.keepAliveTimeout).length + n

/-- If every message ends where a read ends, the messages stay separate. -/
theorem loop_separate (hreg : Registers srv n) {mem : Memory} {ms : List Message} {rs : List ReadResult}
    {cs : List (List Token)} (hcs : datas rs = cs.map wire) (hflat : cs.flatten = tapes ms) (hends : ∀ c ∈ cs, ReadEnd c)
    (hal : ∀ ms₂, ms₂ <:+ ms → ∃ v, v <:+ cs ∧ v.flatten = tapes ms₂)
    (hf : ∀ ms', ms' <:+ ms → P.Follows tail (tapes ms')) (hdel : Delivers mem rs) {s : Session P}
    (hb : s.httpParserBuffer = []) (hs : Start rs (ms.length * reply srv n) s) {N : Nat} (hN : rs.length < N) :
    ∃ tr, (s.loop srv mem N).session.trace = s.trace ++ tr ∧ Separate ms rs tr := by
  obtain ⟨N, rfl⟩ := Nat.exists_eq_add_one_of_ne_zero (Nat.ne_of_gt (Nat.zero_lt_of_lt hN))
  induction ms generalizing rs cs s N with
  | nil =>
    have hnil : cs = [] := by
      rw [List.eq_nil_iff_forall_not_mem]
      intro c hc
      exact (hends c hc).ne_nil (List.flatten_eq_nil_iff.1 hflat c hc)
    subst hnil
    have hquiet : (s.readHeaders mem).ended = .suspended := by
      rw [readHeaders_eq hb, hs.reads]
      exact readHeadersLoop_quiet hdel hcs _ _ hb
    obtain ⟨tr, htr, hserves, hstarts⟩ := loop_last srv (by rw [hquiet]; nofun) N
    exact ⟨tr, htr, by simp [hstarts], by simp [hserves], fun i m hm => by cases hm⟩
  | cons m ms ih =>
    obtain ⟨y, b, cs₂, ms₂, -, hsuf, hb₂, h₂, ⟨a, bs, rfl⟩, hend, hpass⟩ :=
      exists_pass hcs hflat hends (hf _ (List.suffix_refl _)) hreg
    obtain ⟨rfl, rfl⟩ := hend (hal ms (List.suffix_cons m ms))
    have hwrites := hs.writes
    rw [List.length_cons, Nat.succ_mul, Nat.add_comm, reply, Nat.add_assoc] at hwrites
    have hp := hpass mem s (ms₂.length * reply srv n) hdel hb ⟨hs.reads, hs.yielded, hwrites⟩
    obtain ⟨tr, req, first, htr, hserves, hstarts, hsees⟩ := hp.trace
    have hfuel : b.length < N := by
      rw [List.length_append, List.length_cons] at hN
      omega
    obtain ⟨N, rfl⟩ := Nat.exists_eq_add_one_of_ne_zero (Nat.ne_of_gt (Nat.zero_lt_of_lt hfuel))
    rw [List.nil_append] at h₂
    have hal₂ : ∀ ms₃, ms₃ <:+ ms₂ → ∃ v, v <:+ cs₂ ∧ v.flatten = tapes ms₃ := by
      intro ms₃ h₃
      obtain ⟨v, hv, hvflat⟩ := hal ms₃ (h₃.trans (List.suffix_cons m ms₂))
      refine ⟨v, suffix_of_length hv hsuf (fun c hc => (hends c hc).ne_nil) ?_, hvflat⟩
      obtain ⟨x, rfl⟩ := h₃
      simp [hvflat, h₂]
    obtain ⟨tr', htr', hsep⟩ := ih hb₂ h₂ (fun c hc => hends c (hsuf.subset hc)) hal₂
      (fun ms' h' => hf ms' (h'.trans (List.suffix_cons m ms₂))) hdel.right.2.2 hp.carry hp.start N hfuel
    refine ⟨tr ++ tr', ?_, hsep.cons ?_ hdel.right.1 hserves hstarts (hsees rfl)⟩
    · rw [hp.loop, htr', htr, List.append_assoc]
    · exact used_length hcs hflat hb₂ h₂ rfl

/-! ## Messages that end inside a read -/

/-- A read that brings bytes, or none for now. -/
def ReadResult.Benign : ReadResult → Prop
  | .data bs => bs ≠ []
  | .again resume => resume = none
  | .failed _ => False

/-- Memory in which nothing can be read behind a block. The shared buffer has room for each read, and for `k` bytes more
while fewer than `p` answers are to come. -/
structure Tight (rs : List ReadResult) (p k : Nat) (mem : Memory) : Prop where
  shared : ∀ a bs b, rs = a ++ .data bs :: b → (mem.shared b.length).length = bs.length + if b.length < p then k else 0
  behindCarry : ∀ n, mem.behindCarry n = none
  behindShared : ∀ n, mem.behindShared n = none

/-- As many bytes as the answer brings that has `n` behind it. -/
def roomAt (rs : List ReadResult) (n : Nat) : Nat :=
  match rs[rs.length - 1 - n]? with
  | some (.data bs) => bs.length
  | _ => 0

theorem exists_tight (rs : List ReadResult) (p k : Nat) : ∃ mem, Tight rs p k mem := by
  refine ⟨⟨fun n => List.replicate (roomAt rs n + if n < p then k else 0) 0, fun _ => none, fun _ => none⟩, ?_,
    fun _ => rfl, fun _ => rfl⟩
  rintro a bs b rfl
  have hpos : (a ++ ReadResult.data bs :: b)[(a ++ ReadResult.data bs :: b).length - 1 - b.length]? = some (.data bs) := by
    rw [List.length_append, List.length_cons, show a.length + (b.length + 1) - 1 - b.length = a.length by omega]
    simp
  simp only [List.length_replicate, roomAt, hpos]

theorem Tight.right {a b : List ReadResult} {p k : Nat} {mem : Memory} (h : Tight (a ++ b) p k mem) : Tight b p k mem := by
  refine ⟨fun x bs y hy => ?_, h.behindCarry, h.behindShared⟩
  exact h.shared (a ++ x) bs y (by rw [hy, List.append_assoc])

theorem Tight.delivers {rs : List ReadResult} {p k : Nat} {mem : Memory} (h : Tight rs p k mem)
    (hrs : ∀ r ∈ rs, r.Benign) : Delivers mem rs := by
  induction rs with
  | nil => exact trivial
  | cons r rs ih =>
    have ih' := ih (Tight.right (a := [r]) h) fun x hx => hrs x (List.mem_cons_of_mem _ hx)
    have hr := hrs r List.mem_cons_self
    cases r with
    | data bs => exact ⟨hr, by rw [h.shared [] bs rs rfl]; exact Nat.le_add_right _ _, ih'⟩
    | again resume => exact ⟨hr, ih'⟩
    | failed ec => exact hr.elim

/-- What is kept in `m_httpParserBuffer` is not a C string, or shorter than it seems. -/
theorem readHeadersLoop_stuck {mem : Memory} {rs : List ReadResult} {p : Nat} {carry : Bytes} (hne : carry ≠ [])
    (hp : rs.length ≤ p) (hm : Tight rs p (carry.takeWhile (· ≠ 0)).length mem) (hrs : ∀ r ∈ rs, r.Benign) (s : Session P)
    (d : Data) (hb : s.httpParserBuffer = carry) : (s.readHeadersLoop mem rs d).ended ≠ .returned := by
  induction rs generalizing s with
  | nil => intro h; cases h
  | cons r rs ih =>
    have hr := hrs r List.mem_cons_self
    by_cases h0 : (0 : UInt8) ∈ carry
    · rw [Session.readHeadersLoop]
      simp only [hb, hne, if_false, Session.cString, h0, if_true]
      cases r with
      | failed ec => exact hr.elim
      | again resume =>
        cases hr
        exact ih (by simp at hp; omega) (Tight.right (a := [.again none]) hm)
          (fun x hx => hrs x (List.mem_cons_of_mem _ hx)) _ rfl
      | data bs =>
        have hsize := hm.shared [] bs rs rfl
        rw [if_pos (by simp at hp; omega)] at hsize
        have hpre := List.takeWhile_prefix (l := carry) (· ≠ 0)
        have hshort : (carry.takeWhile (· ≠ 0)).length < carry.length := by
          refine Nat.lt_of_le_of_ne hpre.length_le fun heq => ?_
          rw [← hpre.eq_of_length heq] at h0
          simpa using List.all_eq_true.1 List.all_takeWhile 0 h0
        simp only [received_past hr hsize hshort (hm.behindShared _)]
        split <;> intro h <;> cases h
    · rw [Session.readHeadersLoop]
      simp only [hb, hne, if_false, Session.cString, h0, hm.behindCarry, Option.map_none]
      intro h
      cases h

/-- A pass serves one request, and the rest of the run the others. -/
theorem Passed.served {srv : Server} {mem : Memory} {s : Session P} {k : Nat} {B : Bytes} {b : List ReadResult}
    {G : Request → Prop} (h : Passed srv mem s k B b G) {N : Nat} {tr' : List Event}
    (hrest : ((s.serve srv mem).session.loop srv mem N).session.trace = (s.serve srv mem).session.trace ++ tr') :
    ∃ tr, (s.loop srv mem (N + 1)).session.trace = s.trace ++ tr ∧ (serves tr).length = (serves tr').length + 1 := by
  obtain ⟨tr, req, first, htr, hserves, -⟩ := h.trace
  refine ⟨tr ++ tr', by rw [h.loop, hrest, htr, List.append_assoc], ?_⟩
  rw [serves_append, hserves, List.singleton_append, List.length_cons]

/-- After a pass that leaves bytes behind, a tight memory lets no other request through. -/
theorem Passed.stuck {srv : Server} {mem : Memory} {s : Session P} {k : Nat} {B : Bytes} {b : List ReadResult}
    {G : Request → Prop} (h : Passed srv mem s k B b G) (hne : B ≠ [])
    (hm : Tight b b.length (B.takeWhile (· ≠ 0)).length mem) (hrs : ∀ r ∈ b, r.Benign) {N : Nat} (hN : b.length < N) :
    ∃ tr, (s.loop srv mem (N + 1)).session.trace = s.trace ++ tr ∧ (serves tr).length = 1 := by
  have hended : ((s.serve srv mem).session.readHeaders mem).ended ≠ .returned := by
    rw [Session.readHeaders, h.start.reads]
    exact readHeadersLoop_stuck hne (Nat.le_refl _) hm hrs _ _ h.carry
  obtain ⟨N, rfl⟩ := Nat.exists_eq_add_one_of_ne_zero (Nat.ne_of_gt (Nat.zero_lt_of_lt hN))
  obtain ⟨tr', htr', hserves', -⟩ := loop_last srv hended N
  obtain ⟨tr, htr, hcount⟩ := h.served htr'
  exact ⟨tr, htr, by rw [hcount, hserves', List.length_nil]⟩

/-- If a message ends inside a read, some message is not served. -/
theorem loop_fewer (hreg : Registers srv n) {ms : List Message} {rs : List ReadResult} {cs : List (List Token)}
    (hcs : datas rs = cs.map wire) (hflat : cs.flatten = tapes ms) (hends : ∀ c ∈ cs, ReadEnd c)
    (hf : ∀ ms', ms' <:+ ms → P.Follows tail (tapes ms')) (hrs : ∀ r ∈ rs, r.Benign) :
    ∃ p k, ∀ mem, Tight rs p k mem → ∀ (s : Session P) (N : Nat), s.httpParserBuffer = [] →
      Start rs (ms.length * reply srv n) s → rs.length < N →
      ∃ tr, (s.loop srv mem N).session.trace = s.trace ++ tr ∧ (serves tr).length ≤ ms.length ∧
        ((∃ ms₂, ms₂ <:+ ms ∧ ∀ v, v <:+ cs → v.flatten ≠ tapes ms₂) → (serves tr).length < ms.length) := by
  induction hlen : ms.length using Nat.strong_induction_on generalizing ms rs cs with
  | _ l ih =>
    subst hlen
    cases ms with
    | nil =>
      have hal : ∀ ms₂ : List Message, ms₂ <:+ [] → ∃ v, v <:+ cs ∧ v.flatten = tapes ms₂ := by
        intro ms₂ h₂
        rw [List.suffix_nil.1 h₂]
        exact ⟨[], List.nil_suffix, rfl⟩
      refine ⟨0, 0, fun mem hm s N hb hs hN => ?_⟩
      obtain ⟨tr, htr, hsep⟩ := loop_separate hreg hcs hflat hends hal hf (hm.delivers hrs) hb hs hN
      refine ⟨tr, htr, Nat.le_of_eq hsep.served, ?_⟩
      rintro ⟨ms₂, h₂, hno⟩
      obtain ⟨v, hv, hvflat⟩ := hal ms₂ h₂
      exact absurd hvflat (hno v hv)
    | cons m ms =>
      obtain ⟨y, b, cs₂, ms₂, hms, hsuf, hb₂, h₂, ⟨a, bs, rfl⟩, -, hpass⟩ :=
        exists_pass hcs hflat hends (hf _ (List.suffix_refl _)) hreg
      have hrs₂ : ∀ r ∈ b, r.Benign := fun r hr => hrs r (by simp [hr])
      have hfirst : ∀ {p k : Nat} {mem : Memory}, Tight (a ++ .data bs :: b) p k mem → Tight b p k mem :=
        fun h => Tight.right (a := a ++ [.data bs]) (by simpa using h)
      have hN' : ∀ {N : Nat}, (a ++ .data bs :: b).length < N → ∃ N', N = N' + 1 ∧ b.length < N' := by
        intro N hN
        rw [List.length_append, List.length_cons] at hN
        exact ⟨N - 1, by omega, by omega⟩
      have hone : ∀ (mem : Memory) (s : Session P), Delivers mem (a ++ .data bs :: b) → s.httpParserBuffer = [] →
          Start (a ++ .data bs :: b) ((m :: ms).length * reply srv n) s →
          Passed srv mem s (ms.length * reply srv n) (wire y) b fun req => ms₂ = ms → m.Sees req := by
        intro mem s hdel hb hs
        refine hpass mem s _ hdel hb ⟨hs.reads, hs.yielded, ?_⟩
        have := hs.writes
        rwa [List.length_cons, Nat.succ_mul, Nat.add_comm, reply, Nat.add_assoc] at this
      by_cases hy : y = []
      · subst hy
        rw [List.nil_append] at h₂
        obtain ⟨p, k, hrest⟩ := ih ms₂.length (by have := hms.length_le; simp; omega) hb₂ h₂
          (fun c hc => hends c (hsuf.subset hc)) (fun ms' h' => hf ms' ((h'.trans hms).trans (List.suffix_cons m ms))) hrs₂ rfl
        refine ⟨p, k, fun mem hm s N hb hs hN => ?_⟩
        have hp := hone mem s (hm.delivers hrs) hb hs
        obtain ⟨N, rfl, hfuel⟩ := hN' hN
        obtain ⟨tr', htr', hle, hlt⟩ := hrest mem (hfirst hm) _ N hp.carry
          ⟨hp.start.reads, hp.start.yielded, hp.start.writes.mono (Nat.mul_le_mul_right _ hms.length_le)⟩ hfuel
        obtain ⟨tr, htr, hcount⟩ := hp.served htr'
        have hlen := hms.length_le
        refine ⟨tr, htr, by rw [hcount, List.length_cons]; omega, ?_⟩
        rintro ⟨ms₃, h₃, hno⟩
        rw [hcount, List.length_cons]
        by_cases heq : ms₂ = ms
        · subst heq
          rcases List.suffix_cons_iff.1 h₃ with rfl | h₃
          · exact absurd hflat (hno cs (List.suffix_refl _))
          · have := hlt ⟨ms₃, h₃, fun v hv => hno v (hv.trans hsuf)⟩
            omega
        · have : ms₂.length ≠ ms.length := fun h => heq (hms.eq_of_length h)
          omega
      · refine ⟨b.length, ((wire y).takeWhile (· ≠ 0)).length, fun mem hm s N hb hs hN => ?_⟩
        obtain ⟨N, rfl, hfuel⟩ := hN' hN
        obtain ⟨tr, htr, hcount⟩ := (hone mem s (hm.delivers hrs) hb hs).stuck (by simpa using hy) (hfirst hm) hrs₂ hfuel
        have hmore : 0 < ms.length := by
          refine Nat.lt_of_lt_of_le (List.length_pos_iff.2 ?_) hms.length_le
          rintro rfl
          exact hy (List.append_eq_nil_iff.1 h₂).1
        refine ⟨tr, htr, ?_, fun _ => ?_⟩ <;>
        · rw [hcount, List.length_cons]
          omega

/-! ## Separate exactly if aligned -/

/-- Every read ends where a line or a message ends. -/
def EndsAtLines (ms : List Message) (reads : List Bytes) : Prop :=
  ∀ j ≤ reads.length, crlf <:+ (reads.take j).flatten ∨
    ∃ i ≤ ms.length, (reads.take j).flatten = (ms.take i).flatMap Message.bytes

/-- Every message ends where a read ends. -/
def Aligned (ms : List Message) (reads : List Bytes) : Prop :=
  ∀ i ≤ ms.length, ∃ j ≤ reads.length, (reads.take j).flatten = (ms.take i).flatMap Message.bytes

instance (ms : List Message) (reads : List Bytes) : Decidable (EndsAtLines ms reads) :=
  inferInstanceAs (Decidable (∀ j ≤ reads.length, _ ∨ ∃ i ≤ ms.length, _))

instance (ms : List Message) (reads : List Bytes) : Decidable (Aligned ms reads) :=
  inferInstanceAs (Decidable (∀ i ≤ ms.length, ∃ j ≤ reads.length, _))

theorem bytes_tapes (ms : List Message) : ms.flatMap Message.bytes = wire (tapes ms) := by
  rw [wire, tapes, List.map_flatMap]
  rfl

theorem take_wire (cs : List (List Token)) (j : Nat) : ((cs.map wire).take j).flatten = wire (cs.take j).flatten := by
  rw [← List.map_take, wire, List.map_flatten]

/-- Beginnings of one tape with the same bytes are the same. -/
theorem prefix_of_wire {a b t : List Token} (ha : a <+: t) (hb : b <+: t) (h : wire a = wire b) : a = b :=
  List.IsPrefix.eq_of_length (List.prefix_of_prefix_length_le ha hb (by simpa using (congrArg List.length h).le))
    (by simpa using congrArg List.length h)

theorem tapes_final {ms : List Message} {o : List Token} {t : Token} (h : tapes ms = o ++ [t]) : Token.Final t := by
  rcases List.eq_nil_or_concat ms with rfl | ⟨ms, m, rfl⟩
  · simp at h
  · obtain ⟨o', t', hm, -, ht'⟩ := m.tape_rest.split
    rw [List.concat_eq_append, tapes_append, tapes_cons, tapes_nil, List.append_nil, hm, ← List.append_assoc] at h
    cases (List.append_inj' h rfl).2
    exact ht'

theorem EndsAtLines.readEnd {ms : List Message} {cs : List (List Token)} (h : EndsAtLines ms (cs.map wire))
    (hflat : cs.flatten = tapes ms) (hne : ∀ c ∈ cs, c ≠ []) : ∀ c ∈ cs, ReadEnd c := by
  intro c hc
  obtain ⟨x, z, rfl⟩ := List.append_of_mem hc
  rcases List.eq_nil_or_concat c with rfl | ⟨o, t, rfl⟩
  · exact absurd rfl (hne [] hc)
  rw [List.concat_eq_append] at hflat h ⊢
  have htake : (x ++ (o ++ [t]) :: z).take (x.length + 1) = x ++ [o ++ [t]] := by simp [List.take_append]
  have hj := h (x.length + 1) (by simp)
  rw [take_wire, htake] at hj
  rw [readEnd_concat]
  rcases hj with ⟨w, hw⟩ | ⟨i, -, hi⟩
  · left
    have := congrArg List.getLast? hw
    simpa [crlf] using this.symm
  · right
    rw [bytes_tapes] at hi
    have hpre : (x ++ [o ++ [t]]).flatten <+: tapes ms := by
      rw [← hflat]
      exact ⟨z.flatten, by simp⟩
    have hpre' : tapes (ms.take i) <+: tapes ms := ⟨tapes (ms.drop i), by rw [← tapes_append, List.take_append_drop]⟩
    have heq := prefix_of_wire hpre hpre' hi
    exact tapes_final (o := x.flatten ++ o) (by rw [← heq]; simp)

theorem aligned_iff {ms : List Message} {cs : List (List Token)} (hflat : cs.flatten = tapes ms) :
    Aligned ms (cs.map wire) ↔ ∀ ms₂, ms₂ <:+ ms → ∃ v, v <:+ cs ∧ v.flatten = tapes ms₂ := by
  constructor
  · rintro h ms₂ ⟨ms₁, rfl⟩
    obtain ⟨j, -, hj⟩ := h ms₁.length (by simp)
    rw [take_wire, bytes_tapes, List.take_left] at hj
    have hsplit : (cs.take j).flatten ++ (cs.drop j).flatten = tapes ms₁ ++ tapes ms₂ := by
      rw [← List.flatten_append, List.take_append_drop, hflat, tapes_append]
    have heq := prefix_of_wire (hsplit ▸ List.prefix_append _ _) (List.prefix_append _ _) hj
    rw [heq] at hsplit
    exact ⟨cs.drop j, List.drop_suffix j cs, List.append_cancel_left hsplit⟩
  · intro h i _
    obtain ⟨v, ⟨u, rfl⟩, hv⟩ := h (ms.drop i) (List.drop_suffix i ms)
    refine ⟨u.length, by simp, ?_⟩
    rw [take_wire, List.take_left, bytes_tapes]
    have hsplit : u.flatten ++ tapes (ms.drop i) = tapes (ms.take i) ++ tapes (ms.drop i) := by
      rw [← tapes_append, List.take_append_drop, ← hflat, List.flatten_append, hv]
    rw [List.append_cancel_right hsplit]

theorem ioLoop_serves (srv : Server) (mem : Memory) (s : Session P) :
    serves (s.ioLoop srv mem).session.trace =
        serves ((s.setSessionTimeout srv.headersTimeout).loop srv mem (s.reads.length + 1)).session.trace ∧
      starts (s.ioLoop srv mem).session.trace =
        starts ((s.setSessionTimeout srv.headersTimeout).loop srv mem (s.reads.length + 1)).session.trace := by
  obtain ⟨tr, htr, h⟩ := ioLoop_trace srv mem s
  rw [htr, serves_append, starts_append]
  rcases h with rfl | rfl <;> exact ⟨List.append_nil _, List.append_nil _⟩

/-- For messages sent back to back, in reads that end where lines or messages end, to handlers that read them:
each handler gets its own message, whatever is in memory, exactly if every message ends where a read ends. -/
theorem separate_iff (ms : List Message) (hf : ∀ ms', ms' <:+ ms → P.Follows tail (tapes ms')) (hreg : Registers srv n)
    {s : Session P} (hb : s.httpParserBuffer = []) (hy : s.yielded = none) (htr : s.trace = [])
    (hw : Takes (ms.length * reply srv n) s.writes) (hrs : ∀ r ∈ s.reads, r.Benign)
    (hbytes : (datas s.reads).flatten = ms.flatMap Message.bytes) (hends : EndsAtLines ms (datas s.reads)) :
    (∀ mem, Delivers mem s.reads → Separate ms s.reads (s.ioLoop srv mem).session.trace) ↔
      Aligned ms (datas s.reads) := by
  obtain ⟨cs, hflat, hcs⟩ := exists_tokens ((bytes_tapes ms).symm.trans hbytes.symm)
  have hne : ∀ c ∈ cs, c ≠ [] := by
    intro c hc
    obtain ⟨mem, hm⟩ := exists_tight s.reads 0 0
    have := (hm.delivers hrs).ne_nil (wire c) (by rw [hcs]; exact List.mem_map_of_mem hc)
    simpa using this
  rw [hcs] at hends
  have hends' := hends.readEnd hflat hne
  have hs : Start s.reads (ms.length * reply srv n) (s.setSessionTimeout srv.headersTimeout) := ⟨rfl, hy, hw⟩
  rw [hcs, aligned_iff hflat]
  constructor
  · intro h
    by_contra hal
    push Not at hal
    obtain ⟨p, k, hfew⟩ := loop_fewer hreg hcs hflat hends' hf hrs
    obtain ⟨mem, hm⟩ := exists_tight s.reads p k
    obtain ⟨tr, hloop, -, hlt⟩ := hfew mem hm (s.setSessionTimeout srv.headersTimeout) (s.reads.length + 1) hb hs
      (Nat.lt_succ_self _)
    have hserved := (h mem (hm.delivers hrs)).served
    rw [(ioLoop_serves srv mem s).1, hloop] at hserved
    have hnil : (s.setSessionTimeout srv.headersTimeout).trace = [] := htr
    rw [hnil, List.nil_append] at hserved
    exact absurd hserved (Nat.ne_of_lt (hlt hal))
  · intro hal mem hdel
    obtain ⟨tr, hloop, hsep⟩ := loop_separate hreg hcs hflat hends' hal hf hdel
      (s := s.setSessionTimeout srv.headersTimeout) hb hs (Nat.lt_succ_self _)
    have hnil : (s.setSessionTimeout srv.headersTimeout).trace = [] := htr
    rw [hnil, List.nil_append] at hloop
    obtain ⟨hserves, hstarts⟩ := ioLoop_serves srv mem s
    rw [hloop] at hserves hstarts
    refine ⟨by rw [hstarts]; exact hsep.started, by rw [hserves]; exact hsep.served, fun i m hm => ?_⟩
    rw [hserves]
    exact hsep.sees i m hm

/-! ## Two requests on one connection -/

theorem respond_leaves {keepAlive : Int} (hka : keepAlive ≠ 0) {res : Response} (hres : res.keepAlive = -1) :
    (Handler.respond res fun _ => .ret).Leaves keepAlive (res.toString keepAlive).length := by
  rintro P mem s req k rfl hy hw
  generalize ht : (if res.contentLength ≠ chunkedData then
      s.setSessionTimeout (max s.sessionTimeout (10 + res.contentLength / (512 * 1024) : Nat)) else s) = t
  have hst : Kept s t ∧ t.writes = s.writes := by
    rw [← ht]
    split <;> exact ⟨⟨rfl, rfl, rfl, id, rfl, rfl⟩, rfl⟩
  obtain ⟨hk, hws⟩ := hst
  obtain ⟨s', hwr, hk', hw'⟩ := session_write_takes (res.toString s.keepAlive) (s := t) (k := k) (by rw [hws]; exact hw)
  refine ⟨s', ?_, hk'.buffer.trans hk.buffer, hk'.reads.trans hk.reads, hk'.trace.trans hk.trace, hk'.yielded (hk.yielded hy),
    by rw [hk'.keepAlive, hk.keepAlive]; exact hka, hw'⟩
  have hrespond : s.respond res = (s', .returned) := by
    rw [Session.respond, hres]
    simp only [ne_eq, not_true_eq_false, if_false]
    rw [← hwr, ← hk.keepAlive, ← ht]
  simp only [Handler.run, hrespond, Handler.resume]

theorem replicate_takes (n : Nat) : Takes n (List.replicate n (.room 1 Nat.one_pos)) := by
  refine ⟨fun w hw => ?_, ?_⟩
  · rw [List.eq_of_mem_replicate hw]
    trivial
  · rw [List.countP_replicate]
    exact Nat.le_refl n

/-- Every request is received and answered. -/
def echoServer : Server :=
  { plainServer with
    createSession _ := .ok (some (.modify (·.appendBodyCallback fun _ _ => none)
      (.receive fun _ _ => .respond { statusCode := 200 } fun _ => .ret))) }

def okLength : Nat := (Response.toString { statusCode := 200 } 10).length

theorem echoServer_registers : Registers echoServer okLength :=
  fun _ => ⟨_, _, rfl, fun _ _ => rfl, fun _ => respond_leaves (by decide) rfl⟩

/-- A request with the body `abc`. -/
def postAbc : Message := ⟨post, some abc⟩

/-- The parser for these messages, their reads, and room for the answers. -/
def pipelined (ms : List Message) (reads : List Bytes) : Session (replay false [tapes ms]) where
  reads := reads.map .data
  writes := List.replicate (ms.length * reply echoServer okLength) (.room 1 Nat.one_pos)

theorem separate_posts :
    Aligned [postAbc, postAbc] [post.bytes, bytes "abc", postAbc.bytes] ∧
    ∀ mem, Delivers mem (pipelined [postAbc, postAbc] [post.bytes, bytes "abc", postAbc.bytes]).reads →
      Separate [postAbc, postAbc] (pipelined [postAbc, postAbc] [post.bytes, bytes "abc", postAbc.bytes]).reads
        ((pipelined [postAbc, postAbc] [post.bytes, bytes "abc", postAbc.bytes]).ioLoop echoServer mem).session.trace := by
  have hal : Aligned [postAbc, postAbc] [post.bytes, bytes "abc", postAbc.bytes] := by decide
  have hf : (replay false [tapes [postAbc, postAbc]]).Follows false (tapes [postAbc, postAbc]) := replay_follows _ _ _
  refine ⟨hal, (separate_iff [postAbc, postAbc] (fun ms' h => hf.of_prefix ?_) echoServer_registers rfl rfl rfl
    (replicate_takes _) ?_ ?_ ?_).2 hal⟩
  · rcases List.suffix_cons_iff.1 h with rfl | h
    · exact List.prefix_rfl
    · rcases List.suffix_cons_iff.1 h with rfl | h
      · exact ⟨tapes [postAbc], by simp⟩
      · rw [List.suffix_nil.1 h]
        exact List.nil_prefix
  · intro r hr
    obtain ⟨bs, hbs, rfl⟩ := List.mem_map.1 hr
    exact (by decide : ∀ bs ∈ [post.bytes, bytes "abc", postAbc.bytes], bs ≠ []) bs hbs
  · decide
  · decide

def getMessage : Message := ⟨getFoo, none⟩

def wideMemory : Memory := { plainMemory with shared := fun _ => List.replicate 128 0 }

def merged : Did (replay false [tapes [postAbc, getMessage]]) :=
  (pipelined [postAbc, getMessage] [postAbc.bytes ++ getMessage.bytes]).ioLoop echoServer wideMemory

/-- Both requests in one read: the only handler gets the URL of the second with the body of the first. -/
theorem requests_merged :
    (replay false [tapes [postAbc, getMessage]]).Follows false (tapes [postAbc, getMessage]) ∧
    Registers echoServer okLength ∧
    Delivers wideMemory [.data (postAbc.bytes ++ getMessage.bytes)] ∧
    EndsAtLines [postAbc, getMessage] [postAbc.bytes ++ getMessage.bytes] ∧
    (serves merged.session.trace).map (fun x => (x.1.method, x.1.url, x.1.body)) =
      [(bytes "GET", bytes "/foo", bytes "abc")] ∧
    ¬ Separate [postAbc, getMessage] [.data (postAbc.bytes ++ getMessage.bytes)] merged.session.trace := by
  have hserves : (serves merged.session.trace).map (fun x => (x.1.method, x.1.url, x.1.body)) =
      [(bytes "GET", bytes "/foo", bytes "abc")] := by decide +kernel
  refine ⟨replay_follows _ _ _, echoServer_registers, ⟨by decide +kernel, by decide +kernel, trivial⟩, by decide +kernel,
    hserves, fun h => ?_⟩
  have := congrArg List.length hserves
  rw [List.length_map, h.served] at this
  cases this

end Getodac
