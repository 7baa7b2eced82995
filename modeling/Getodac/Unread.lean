import Getodac.Pipeline
/-!
# Bodies that are not read

`ioLoop` does not look at the request when its handler returns. If the handler
has not read the body and the connection stays open, the next `readHeaders` takes
what is left of the body for a head.
-/

namespace Getodac

variable {P : HttpParser}

namespace Event

/-- A handler returns, and its request is not completed. -/
def Unread : Event → Prop
  | .served req _ _ _ => req.state ≠ .Completed
  | _ => False

/-- In that case the loop ends. -/
def Closes : Event → Prop
  | .served req _ keepAlive yielded => req.state ≠ .Completed → keepAlive = 0 ∨ yielded ≠ none
  | _ => True

/-- A head is read. -/
def ReadsHead : Event → Prop
  | .entered _ _ => True
  | .executed .readHeaders _ => True
  | _ => False

end Event

namespace Event

instance : DecidablePred Unread
  | .served req _ _ _ => inferInstanceAs (Decidable (req.state ≠ .Completed))
  | .entered _ _ | .executed _ _ | .suspended _ _ | .created _ | .shutdown => isFalse id

instance : DecidablePred Closes
  | .served req _ keepAlive yielded =>
    inferInstanceAs (Decidable (req.state ≠ .Completed → keepAlive = 0 ∨ yielded ≠ none))
  | .entered _ _ | .executed _ _ | .suspended _ _ | .created _ | .shutdown => isTrue trivial

instance : DecidablePred ReadsHead
  | .entered _ _ | .executed .readHeaders _ => isTrue trivial
  | .executed .read _ | .suspended _ _ | .created _ | .served _ _ _ _ | .shutdown => isFalse id

end Event

/-- After a body was not read, no head is read. -/
def Abandons (tr : List Event) : Prop := tr.Pairwise fun a b => a.Unread → ¬ b.ReadsHead

instance (tr : List Event) : Decidable (Abandons tr) :=
  inferInstanceAs (Decidable (tr.Pairwise fun a b => a.Unread → ¬ b.ReadsHead))

/-! ## Passes -/

theorem not_unread {e : Event} (h : e.InPhase .readHeaders ∨ e.InPhase .read ∨ ∃ req, e = .created req) : ¬ e.Unread := by
  rcases h with (⟨_, rfl⟩ | ⟨_, rfl⟩) | (⟨_, rfl⟩ | ⟨_, rfl⟩) | ⟨_, rfl⟩ <;> exact id

/-- A handler runs after the head is read. -/
theorem run_read (srv : Server) {mem : Memory} {s s' : Session P} {d : Data}
    (h : s.readHeaders mem = ⟨.returned, s', d⟩) (handler : Handler) : ∃ tr, (∀ e ∈ tr, ¬ e.Unread) ∧
      (handler.run mem (s'.startHandler srv d.req) d.req).session.trace =
        s.trace ++ .entered s.httpParserBuffer s.reads.head? :: tr := by
  obtain ⟨tr₁, htr₁, hin₁⟩ := (readHeaders_extends mem s).1.trace
  obtain ⟨tr₂, htr₂, hin₂⟩ := (run_extends mem handler (s'.startHandler srv d.req) d.req).trace
  have hstart : (s'.startHandler srv d.req).trace = s'.trace ++ [.created d.req] := rfl
  rw [h] at htr₁
  refine ⟨tr₁ ++ [Event.created d.req] ++ tr₂, fun e he => ?_, ?_⟩
  · rcases List.mem_append.1 he with he | he
    · rcases List.mem_append.1 he with he | he
      · exact not_unread (.inl (hin₁ e he))
      · rw [List.mem_singleton.1 he]
        exact id
    · exact not_unread (.inr (.inl (hin₂ e he)))
  · rw [htr₂, hstart, htr₁]
    simp [Session.log]

/-- A pass enters `readHeaders`, and if its handler returns the loop goes on by what it has left. -/
theorem serve_served (srv : Server) (mem : Memory) (s : Session P) : ∃ tr : List Event, (∀ e ∈ tr, ¬ e.Unread) ∧
    ((s.serve srv mem).again = false ∧
      (s.serve srv mem).session.trace = s.trace ++ .entered s.httpParserBuffer s.reads.head? :: tr ∨
    ∃ (req : Request) (left : List ReadResult) (keepAlive : Int) (yielded : Option ErrorCode),
      (s.serve srv mem).again = (yielded.isNone && decide (keepAlive ≠ 0)) ∧
      (s.serve srv mem).session.trace =
        s.trace ++ .entered s.httpParserBuffer s.reads.head? :: (tr ++ [.served req left keepAlive yielded])) := by
  obtain ⟨tr, htr, hin⟩ := (readHeaders_extends mem s).1.trace
  have hhead : ∀ e ∈ tr, ¬ e.Unread := fun e he => not_unread (.inl (hin e he))
  have hentered : (s.readHeaders mem).session.trace = s.trace ++ .entered s.httpParserBuffer s.reads.head? :: tr := by
    rw [htr]
    simp [Session.log]
  generalize hpass : s.serve srv mem = pass
  cases hpass ▸ serve_serves srv mem s with
  | head _ => exact ⟨tr, hhead, .inl ⟨rfl, hentered⟩⟩
  | refused h _ =>
    rw [h] at hentered
    exact ⟨tr, hhead, .inl ⟨rfl, hentered⟩⟩
  | unknown h _ hr =>
    rw [h] at hentered
    exact ⟨tr, hhead, .inl ⟨rfl, hr ▸ hentered⟩⟩
  | @done s' t d d' handler h _ hrun =>
    obtain ⟨tr', hall, htr'⟩ := run_read srv h handler
    rw [hrun] at htr'
    refine ⟨tr', hall, .inr ⟨d'.req, t.reads, t.keepAlive, t.yielded, rfl, ?_⟩⟩
    exact (congrArg (· ++ _) htr').trans (by simp)
  | left h _ _ =>
    obtain ⟨tr', hall, htr'⟩ := run_read srv h _
    exact ⟨tr', hall, .inl ⟨rfl, htr'⟩⟩

/-! ## Runs -/

theorem closes_of_read {e : Event} (h : ¬ e.Unread) : e.Closes := by
  cases e with
  | served req left keepAlive yielded => exact fun hreq => absurd hreq h
  | entered | executed | suspended | created | shutdown => trivial

/-- Only the last event can be one after which no head may be read. -/
theorem abandons_concat {a : List Event} (h : ∀ e ∈ a, ¬ e.Unread) (x : Event) : Abandons (a ++ [x]) := by
  refine List.pairwise_append.2 ⟨?_, List.pairwise_singleton _ _, fun e he _ _ hu => absurd hu (h e he)⟩
  exact List.pairwise_of_forall_mem_list fun e he _ _ hu => absurd hu (h e he)

/-- The loop reads no head after an unread body exactly if it is left each time. -/
theorem loop_abandons (srv : Server) (mem : Memory) {N : Nat} {s : Session P} (hN : s.reads.length < N) :
    ∃ tr, (s.loop srv mem N).session.trace = s.trace ++ .entered s.httpParserBuffer s.reads.head? :: tr ∧
      ((∀ e ∈ tr, e.Closes) ↔ Abandons tr) := by
  induction N generalizing s with
  | zero => exact absurd hN (Nat.not_lt_zero _)
  | succ N ih =>
    obtain ⟨tr, hread, ⟨hagain, htr⟩ | ⟨req, left, keepAlive, yielded, hagain, htr⟩⟩ := serve_served srv mem s
    · refine ⟨tr, by simp only [Session.loop, hagain, Bool.false_eq_true, if_false, htr], ?_⟩
      refine iff_of_true (fun e he => closes_of_read (hread e he)) ?_
      exact List.pairwise_of_forall_mem_list fun e he _ _ hu => absurd hu (hread e he)
    · have hlast := abandons_concat hread (.served req left keepAlive yielded)
      by_cases hgo : (s.serve srv mem).again = true
      · have hfuel := serve_left srv mem s hgo
        obtain ⟨tr', htr', ih'⟩ := ih (s := (s.serve srv mem).session) (by omega)
        rw [hgo] at hagain
        have hopen : keepAlive ≠ 0 ∧ yielded = none := by simpa [and_comm] using hagain.symm
        refine ⟨tr ++ [Event.served req left keepAlive yielded] ++ .entered (s.serve srv mem).session.httpParserBuffer
          (s.serve srv mem).session.reads.head? :: tr', ?_, ?_⟩
        · simp only [Session.loop, hgo, if_true, htr', htr, List.append_assoc, List.cons_append]
        · constructor
          · intro h
            have hall : ∀ e ∈ tr ++ [Event.served req left keepAlive yielded], ¬ e.Unread := by
              intro e he hu
              rcases List.mem_append.1 he with he' | he'
              · exact hread e he' hu
              · have hclose := h e (List.mem_append_left _ he)
                rw [List.mem_singleton.1 he'] at hu hclose
                exact (hclose hu).elim hopen.1 (absurd hopen.2)
            refine List.pairwise_append.2 ⟨hlast, List.pairwise_cons.2 ⟨fun _ _ => False.elim, ?_⟩,
              fun e he _ _ hu => absurd hu (hall e he)⟩
            exact ih'.1 fun e he => h e (List.mem_append_right _ (List.mem_cons_of_mem _ he))
          · intro h e he
            obtain ⟨-, hcons, hcross⟩ := List.pairwise_append.1 h
            rcases List.mem_append.1 he with he | he
            · exact closes_of_read fun hu => hcross e he _ List.mem_cons_self hu trivial
            · rcases List.mem_cons.1 he with rfl | he
              · trivial
              · exact ih'.2 (List.pairwise_cons.1 hcons).2 e he
      · have hgo' : (s.serve srv mem).again = false := by simpa using hgo
        rw [hgo'] at hagain
        refine ⟨tr ++ [Event.served req left keepAlive yielded],
          by simp only [Session.loop, hgo', Bool.false_eq_true, if_false, htr], ?_⟩
        refine iff_of_true (fun e he => ?_) hlast
        rcases List.mem_append.1 he with he | he
        · exact closes_of_read (hread e he)
        · rw [List.mem_singleton.1 he]
          intro _
          by_contra h
          push Not at h
          simp [h.1, h.2] at hagain

/-! ## What is read otherwise -/

theorem readHeadersLoop_first (mem : Memory) {s : Session P} {d : Data} (bs : Bytes) {carried window l : Bytes}
    (rs : List ReadResult) {ls : List Bytes} (hd : d.headDone = false)
    (hcarried : (if s.httpParserBuffer = [] then some [] else Session.cString s.httpParserBuffer (mem.behindCarry rs.length)) =
      some carried)
    (hroom : ¬ (bs = [] ∨ (Session.fill mem rs.length carried).currentSize < bs.length))
    (hwindow : Session.received mem rs.length (Session.fill mem rs.length carried) bs s.httpParserBuffer.length = some window)
    (hl : splitLines id window = l :: ls) :
    s.trace ++ [.executed .readHeaders l] <+: (s.readHeadersLoop mem (.data bs :: rs) d).session.trace := by
  have hfirst := feedLines_first (s := { s with reads := rs, canWriteError := true }) hd l ls
  have hleft := feedLines_left { s with reads := rs, canWriteError := true } d (l :: ls)
  rw [Session.readHeadersLoop]
  simp only [hcarried, hroom, if_false, hwindow, hl]
  split
  · rename_i s' d' he
    rw [he] at hfirst hleft
    split
    · exact hfirst
    · exact hfirst.trans (readHeadersLoop_isPrefix mem s' d' hleft)
  · exact hfirst

/-- Whatever comes next, there is memory in which the loop parses it as a head, after the bytes that were left. -/
def ParsesLeft (srv : Server) (s : Session P) : Prop :=
  ∀ bs rs, bs ≠ [] → ∃ mem l, l ≠ [] ∧ (0 ∉ s.httpParserBuffer → l <+: s.httpParserBuffer ++ bs) ∧ ∀ N,
    s.trace ++ [.entered s.httpParserBuffer (some (.data bs)), .executed .readHeaders l] <+:
      (Session.loop srv mem (N + 1) { s with reads := .data bs :: rs }).session.trace

theorem loop_parses (srv : Server) (s : Session P) : ParsesLeft srv s := by
  intro bs rs hbs
  obtain ⟨parser, carry, canWriteError, keepAlive, sessionTimeout, yielded, reads, writes, yields, sent, trace⟩ := s
  dsimp only
  let mem : Memory := ⟨fun _ => List.replicate (bs.length + carry.length) 0, fun _ => some [0], fun _ => none⟩
  -- the bytes in front are those up to the first NUL
  obtain ⟨carried, hcarried, hlen, hnul⟩ : ∃ carried,
      (if carry = [] then some [] else Session.cString carry (mem.behindCarry rs.length)) = some carried ∧
      carried.length ≤ carry.length ∧ (0 ∉ carry → carried = carry) := by
    by_cases hnil : carry = []
    · exact ⟨[], by rw [if_pos hnil], Nat.zero_le _, fun _ => hnil.symm⟩
    · rw [if_neg hnil]
      by_cases h0 : (0 : UInt8) ∈ carry
      · exact ⟨_, by rw [Session.cString, if_pos h0], (List.takeWhile_prefix _).length_le, fun h => absurd h0 h⟩
      · refine ⟨carry, ?_, Nat.le_refl _, fun _ => rfl⟩
        rw [Session.cString, if_neg h0]
        simp [mem]
  have hpos := List.length_pos_iff.2 hbs
  have hshared : (mem.shared rs.length).length = bs.length + carry.length := List.length_replicate
  obtain ⟨-, hcur, hstop⟩ := fill_room (show carried.length < (mem.shared rs.length).length by omega)
  have hroom : ¬ (bs = [] ∨ (Session.fill mem rs.length carried).currentSize < bs.length) := by
    rw [Buffer.currentSize, hcur, hstop]
    rintro (h | h)
    · exact hbs h
    · omega
  obtain ⟨window, hwindow, hne, hexact⟩ : ∃ window,
      Session.received mem rs.length (Session.fill mem rs.length carried) bs carry.length = some window ∧ window ≠ [] ∧
      (0 ∉ carry → window = carry ++ bs) := by
    rw [received_eq hbs (by omega), Buffer.currentString,
      if_pos (by simp only [Buffer.size, List.length_append, List.length_drop]; omega)]
    refine ⟨_, rfl, ?_, fun h0 => ?_⟩
    · apply List.ne_nil_of_length_pos
      simp only [Buffer.currentSize, List.length_take, List.length_drop, List.length_append]
      omega
    · rw [hnul h0]
      exact List.take_left' (by simp only [Buffer.currentSize, List.length_append]; omega)
  obtain ⟨l, ls, hl⟩ := List.exists_cons_of_ne_nil (splitLines_ne id hne)
  have hflat := splitLines_flatten id window
  rw [hl, List.flatten_cons] at hflat
  refine ⟨mem, l, splitLines_ne_nil id window l (by rw [hl]; exact List.mem_cons_self), fun h0 => ?_, fun N => ?_⟩
  · rw [← hexact h0, ← hflat]
    exact List.prefix_append _ _
  · generalize ht : (⟨parser, carry, canWriteError, keepAlive, sessionTimeout, yielded, .data bs :: rs, writes, yields, sent,
      trace⟩ : Session P) = t
    have hread := readHeadersLoop_first mem (d := {}) bs rs
      (s := { t.log (.entered carry (some (.data bs))) with parser := P.init }) rfl (by rw [← ht]; exact hcarried) hroom
      (by rw [← ht]; exact hwindow) hl
    have hhead : (t.readHeaders mem).session.trace <+: (t.loop srv mem (N + 1)).session.trace := by
      have hserve := (serve_extends srv mem t).isPrefix
      simp only [Session.loop]
      split
      · exact hserve.trans (loop_isPrefix srv mem N _)
      · exact hserve
    refine List.IsPrefix.trans ?_ hhead
    subst ht
    simpa [Session.log, Session.readHeaders] using hread

/-- The handler of the pass has not read its request, and does not close the connection. -/
def LeavesOpen (srv : Server) (mem : Memory) (s : Session P) : Prop :=
  ∃ e, (s.serve srv mem).session.trace.getLast? = some e ∧ e.Unread ∧ ¬ e.Closes

/-- Then the loop goes on. -/
theorem LeavesOpen.again {srv : Server} {mem : Memory} {s : Session P} (h : LeavesOpen srv mem s) :
    (s.serve srv mem).again = true := by
  obtain ⟨e, hlast, hu, hc⟩ := h
  obtain ⟨tr, hread, ⟨-, htr⟩ | ⟨req, left, keepAlive, yielded, hagain, htr⟩⟩ := serve_served srv mem s
  · rw [htr, List.getLast?_append_cons] at hlast
    rcases List.mem_cons.1 (List.mem_of_getLast? hlast) with rfl | he
    · exact hu.elim
    · exact absurd hu (hread e he)
  · rw [htr, List.getLast?_append_cons, ← List.cons_append, List.getLast?_concat] at hlast
    cases hlast
    have hopen : ¬ (req.state ≠ .Completed → keepAlive = 0 ∨ yielded ≠ none) := hc
    push Not at hopen
    rw [hagain]
    simp [hopen.2.1, hopen.2.2]

/-- No handler reads. -/
def Ignores (srv : Server) (n : Nat) : Prop :=
  ∀ req, ∃ handler, srv.createSession req = .ok (some handler) ∧ handler.Leaves srv.keepAliveTimeout n

/-- Then the whole body is left. -/
theorem ignored_body {m : Message} {body : Body} (hbody : m.body = some body) {tail : Bool} (hf : P.Follows tail m.tape)
    {srv : Server} {n : Nat} (hsrv : Ignores srv n) {mem : Memory} {s : Session P} (hdel : Delivers mem s.reads)
    (hbytes : (datas s.reads).flatten = m.bytes)
    (hcut : ¬ CutBeforeEnd m.head (datas s.reads)) (hb : s.httpParserBuffer = []) (hy : s.yielded = none)
    (hw : Takes n s.writes) :
    LeavesOpen srv mem s ∧
    (s.serve srv mem).session.httpParserBuffer ++ (datas (s.serve srv mem).session.reads).flatten = wire body.tape := by
  have htape : m.tape = m.head.openTape ++ lineFeed (headDone true true) :: body.tape := by
    simp [Message.tape, Head.tape, hbody]
  rw [Message.bytes, htape] at hbytes
  rw [htape] at hf
  obtain ⟨a, cs, T', y, R', b, hreads, hcs, hT, hR, hrest⟩ := exists_end_read hbytes
  rw [hreads, cutBeforeEnd_iff hcs hT] at hcut
  have hy' : T' ≠ [] ∨ y = [] := by
    by_contra h
    rw [not_or, not_not] at h
    exact hcut h
  have hp : m.head.openTape ++ lineFeed (headDone true true) :: y <+:
      m.head.openTape ++ lineFeed (headDone true true) :: body.tape := ⟨R', by rw [hR]; simp⟩
  obtain ⟨s₁, d, hhead, -, hr, hbuf, hleft, -⟩ := readHeaders_head hf m.head.openTape_head (headEnd true true) hp hcs hT hreads
    hdel hb hy'
  obtain ⟨handler, hcreate, hleaves⟩ := hsrv (d.finish true true).req
  obtain ⟨s₂, hrun, hbuf₂, hleft₂, -, hy₂, hka₂, -⟩ := hleaves P mem (s₁.startHandler srv (d.finish true true).req)
    (d.finish true true).req 0 rfl (hr.yielded hy)
    (by have hws : s₁.writes = s.writes := hr.writes; rw [← hws] at hw; exact hw)
  have hserve := serve_returned hhead hcreate hrun
  refine ⟨⟨.served (d.finish true true).req s₂.reads s₂.keepAlive s₂.yielded, ?_, (by intro h; cases h), fun hc => ?_⟩, ?_⟩
  · rw [hserve]
    exact List.getLast?_concat
  · have hc' := hc (by intro h; cases h)
    exact hc'.elim hka₂ (absurd hy₂)
  · rw [hserve]
    have hbuf' : s₂.httpParserBuffer = wire y := hbuf₂.trans hbuf
    have hleft' : s₂.reads = b := hleft₂.trans hleft
    simp only [Session.log, Session.setSessionTimeout, hbuf', hleft', hrest, hR, List.map_append]

/-- On every connection: `ioLoop` reads no further head after a handler that has not read its request exactly if
that handler leaves no time to keep the connection alive, or an error of `m_yield`. Otherwise the loop goes on, and a
head is parsed from what is left in `m_httpParserBuffer` and comes next. For a handler that does not read this is the body. -/
theorem abandons_iff (srv : Server) (mem : Memory) (s : Session P) (htr : s.trace = []) :
    ((∀ e ∈ (s.ioLoop srv mem).session.trace, e.Closes) ↔ Abandons (s.ioLoop srv mem).session.trace) ∧
    (∀ (mem : Memory) (s : Session P), LeavesOpen srv mem s →
      (s.serve srv mem).again = true ∧ ParsesLeft srv (s.serve srv mem).session) ∧
    ∀ (m : Message) (body : Body) (tail : Bool) (n : Nat) (mem : Memory) (s : Session P), m.body = some body →
      P.Follows tail m.tape → Ignores srv n → Delivers mem s.reads → (datas s.reads).flatten = m.bytes →
      ¬ CutBeforeEnd m.head (datas s.reads) → s.httpParserBuffer = [] → s.yielded = none → Takes n s.writes →
      LeavesOpen srv mem s ∧
      (s.serve srv mem).session.httpParserBuffer ++ (datas (s.serve srv mem).session.reads).flatten = wire body.tape := by
  refine ⟨?_, fun mem s h => ⟨h.again, loop_parses srv _⟩,
    fun m body tail n mem s hbody hf hsrv hdel hbytes hcut hb hy hw => ignored_body hbody hf hsrv hdel hbytes hcut hb hy hw⟩
  obtain ⟨tr', htr', hend⟩ := ioLoop_trace srv mem s
  obtain ⟨tr, hloop, hiff⟩ := loop_abandons srv mem (s := s.setSessionTimeout srv.headersTimeout) (N := s.reads.length + 1)
    (Nat.lt_succ_self _)
  have hnil : (s.setSessionTimeout srv.headersTimeout).trace = [] := htr
  rw [hnil, List.nil_append] at hloop
  have hlast : ∀ e ∈ tr', e.Closes ∧ ¬ e.ReadsHead ∧ ¬ e.Unread := by
    rcases hend with rfl | rfl
    · nofun
    · simp [Event.Closes, Event.ReadsHead, Event.Unread]
  rw [htr', hloop, List.cons_append]
  constructor
  · intro h
    refine List.pairwise_cons.2 ⟨fun _ _ => False.elim, List.pairwise_append.2 ⟨?_, ?_, fun _ _ b hb _ => (hlast b hb).2.1⟩⟩
    · exact hiff.1 fun e he => h e (List.mem_cons_of_mem _ (List.mem_append_left _ he))
    · exact List.pairwise_of_forall_mem_list fun e he _ _ hu => absurd hu (hlast e he).2.2
  · intro h e he
    rcases List.mem_cons.1 he with rfl | he
    · trivial
    · rcases List.mem_append.1 he with he | he
      · exact hiff.2 (List.pairwise_append.1 (List.pairwise_cons.1 h).2).1 e he
      · exact (hlast e he).1

/-! ## A request in a body -/

/-- A request whose body looks like a request. -/
def smuggler : Message where
  head :=
    { post with
      fields := [{ contentLength with
        value := bytes "30"
        value_ok := by decide +kernel
        value_start := by decide +kernel }] }
  body := some (.identity getFoo.bytes (by decide))

/-- Its head and its body, as two reads, to a server whose handlers do not read. -/
def smuggled (srv : Server) : Did (replay true [smuggler.tape, getMessage.tape]) :=
  Session.ioLoop srv plainMemory { reads := [.data smuggler.head.bytes, .data getFoo.bytes] }

/-- Every handler closes the connection. -/
def closingServer : Server := { plainServer with createSession _ := .ok (some (.setKeepAlive 0 .ret)) }

theorem abandons_closing : Abandons (smuggled closingServer).session.trace :=
  (abandons_iff closingServer plainMemory _ rfl).1.1 (by decide)

/-- The body is served as a request of its own. -/
theorem body_served :
    (replay true [smuggler.tape, getMessage.tape]).Follows true smuggler.tape ∧
    smuggler.head.bytes ++ getFoo.bytes = smuggler.bytes ∧
    (starts (smuggled plainServer).session.trace).map (fun req => (req.method, req.url)) =
      [(bytes "POST", bytes "/"), (bytes "GET", bytes "/foo")] ∧
    (∃ e ∈ (smuggled plainServer).session.trace, e.Unread) ∧
    ¬ Abandons (smuggled plainServer).session.trace :=
  ⟨replay_follows _ _ _, by decide, by decide, by decide, by decide⟩

end Getodac
