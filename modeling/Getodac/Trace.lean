import Getodac.Session
/-!
# What an operation adds to the trace

Every operation of a session adds to its trace, and takes answers of `readSome`
from the front. For each operation: which events it adds, and for those that read
what else they leave as it is (`Reading`).
-/

namespace Getodac

variable {P : HttpParser}

/-- The event is one of the phase. -/
def Event.InPhase (phase : Phase) (e : Event) : Prop := (∃ bs, e = .executed phase bs) ∨ ∃ c, e = .suspended phase c

/-- From `s` to `s'` the trace grew by events that satisfy `p`, and answers of `readSome` were taken. -/
structure Extends (p : Event → Prop) (s s' : Session P) : Prop where
  trace : ∃ tr, s'.trace = s.trace ++ tr ∧ ∀ e ∈ tr, p e
  reads : s'.reads <:+ s.reads

namespace Extends

variable {p q : Event → Prop} {s t u : Session P}

theorem of_eq (htr : t.trace = s.trace) (hrd : t.reads = s.reads) : Extends p s t :=
  ⟨⟨[], by simp [htr], by simp⟩, hrd ▸ List.suffix_refl _⟩

theorem refl (s : Session P) : Extends p s s := .of_eq rfl rfl

theorem trans (h : Extends p s t) (h' : Extends p t u) : Extends p s u := by
  obtain ⟨tr, htr, hp⟩ := h.trace
  obtain ⟨tr', htr', hp'⟩ := h'.trace
  refine ⟨⟨tr ++ tr', by rw [htr', htr, List.append_assoc], fun e he => ?_⟩, h'.reads.trans h.reads⟩
  exact (List.mem_append.1 he).elim (hp e) (hp' e)

theorem mono (h : Extends p s t) (hpq : ∀ e, p e → q e) : Extends q s t := by
  obtain ⟨tr, htr, hp⟩ := h.trace
  exact ⟨⟨tr, htr, fun e he => hpq e (hp e he)⟩, h.reads⟩

theorem isPrefix (h : Extends p s t) : s.trace <+: t.trace := by
  obtain ⟨tr, htr, -⟩ := h.trace
  exact htr ▸ List.prefix_append _ _

/-- Fields other than the trace and the answers do not count. -/
theorem congr {s₁ t₁ : Session P} (h : Extends p s t) (hs : s₁.trace = s.trace) (hs' : s₁.reads = s.reads)
    (ht : t₁.trace = t.trace) (ht' : t₁.reads = t.reads) : Extends p s₁ t₁ := by
  refine ⟨?_, ?_⟩
  · rw [ht, hs]
    exact h.trace
  · rw [ht', hs']
    exact h.reads

theorem log {e : Event} (he : p e) (s : Session P) : Extends p s (s.log e) :=
  ⟨⟨[e], rfl, fun x hx => by rw [List.mem_singleton.1 hx]; exact he⟩, List.suffix_refl _⟩

end Extends

section Parsing

variable {s : Session P} {d : Data}

theorem execute_extends (s : Session P) (phase : Phase) (d : Data) (bs : Bytes) :
    Extends (fun e => e = .executed phase bs) s (s.execute phase d bs).1.session := by
  have h : Extends (fun e => e = .executed phase bs) s (s.log (.executed phase bs)) := .log (p := (· = _)) rfl s
  unfold Session.execute
  dsimp only
  split
  · exact h.congr rfl rfl rfl rfl
  · split <;> exact h.congr rfl rfl rfl rfl

theorem execute_left (s : Session P) (phase : Phase) (d : Data) (bs : Bytes) :
    (s.execute phase d bs).1.session.reads = s.reads := by
  unfold Session.execute
  dsimp only
  split
  · rfl
  · split <;> rfl

theorem feedLines_left (s : Session P) (d : Data) (ls : List Bytes) : (s.feedLines d ls).session.reads = s.reads := by
  induction ls generalizing s d with
  | nil => rfl
  | cons l ls ih =>
    have hex := execute_left s .readHeaders d l
    unfold Session.feedLines
    split
    · rfl
    · split
      · rename_i s' d' parsed he
        rw [he] at hex
        split
        · exact hex
        · exact (ih s' d').trans hex
      · rename_i did n he
        rw [he] at hex
        exact hex

theorem feedLines_extends (s : Session P) (d : Data) (ls : List Bytes) :
    Extends (fun e => ∃ l ∈ ls, e = .executed .readHeaders l) s (s.feedLines d ls).session := by
  induction ls generalizing s d with
  | nil => exact .of_eq rfl rfl
  | cons l ls ih =>
    have hex : Extends (fun e => ∃ l' ∈ l :: ls, e = .executed .readHeaders l') s (s.execute .readHeaders d l).1.session :=
      (execute_extends s .readHeaders d l).mono fun e he => ⟨l, List.mem_cons_self, he⟩
    unfold Session.feedLines
    split
    · exact .of_eq rfl rfl
    · split
      · rename_i s' d' parsed he
        rw [he] at hex
        split
        · exact hex.congr rfl rfl rfl rfl
        · refine hex.trans ((ih s' d').mono ?_)
          rintro e ⟨l', hl', rfl⟩
          exact ⟨l', List.mem_cons_of_mem _ hl', rfl⟩
      · rename_i did n he
        rw [he] at hex
        exact hex

/-- The loop suspends only with bytes in `m_httpParserBuffer` that it found there or left there, and takes
an answer if it returns. -/
theorem readHeadersLoop_extends (mem : Memory) {I : Bytes → Prop}
    (hI : ∀ (s s' : Session P) d d' ls, s.feedLines d ls = ⟨.returned, s', d'⟩ → d'.headDone = false → I s'.httpParserBuffer)
    {rs : List ReadResult} (s : Session P) (d : Data) (hs : s.reads = rs) (hb : I s.httpParserBuffer) :
    Extends (fun e => e.InPhase .readHeaders ∧ ∀ c, e = .suspended .readHeaders c → I c) s
      (s.readHeadersLoop mem rs d).session ∧
    ((s.readHeadersLoop mem rs d).ended = .returned → (s.readHeadersLoop mem rs d).session.reads.length < rs.length) := by
  induction rs generalizing s d with
  | nil => exact ⟨.refl s, by simp [Session.readHeadersLoop]⟩
  | cons r rs ih =>
    generalize hp : (fun e : Event => e.InPhase .readHeaders ∧ ∀ c, e = .suspended .readHeaders c → I c) = p at ih ⊢
    have hr : Extends p s { s with reads := rs } := ⟨⟨[], by simp, by simp⟩, by rw [hs]; exact List.suffix_cons r rs⟩
    have hrec : ∀ s' d', Extends p s s' → s'.reads = rs → I s'.httpParserBuffer →
        Extends p s (s'.readHeadersLoop mem rs d').session ∧ ((s'.readHeadersLoop mem rs d').ended = .returned →
          (s'.readHeadersLoop mem rs d').session.reads.length < (r :: rs).length) := by
      intro s' d' h hleft hb'
      obtain ⟨h₁, h₂⟩ := ih s' d' hleft hb'
      exact ⟨h.trans h₁, fun he => Nat.lt_succ_of_lt (h₂ he)⟩
    unfold Session.readHeadersLoop
    dsimp only
    split
    · exact ⟨hr, nofun⟩
    · split
      · exact ⟨hr, nofun⟩
      · rename_i resume
        have hsus : Extends p s
            { Session.log { s with reads := rs } (.suspended .readHeaders s.httpParserBuffer) with yielded := resume } := by
          refine hr.trans ((Extends.log ?_ _).congr rfl rfl rfl rfl)
          rw [← hp]
          exact ⟨.inr ⟨_, rfl⟩, fun c hc => by cases hc; exact hb⟩
        split
        · exact ⟨hsus, nofun⟩
        · exact hrec _ _ hsus rfl hb
      · split
        · exact ⟨hr, nofun⟩
        · split
          · exact ⟨hr.congr rfl rfl rfl rfl, nofun⟩
          · rename_i window _
            have hlines := (feedLines_extends { s with reads := rs, canWriteError := true } d (splitLines id window)).mono
              (q := p) (by rintro e ⟨l, -, rfl⟩; rw [← hp]; exact ⟨.inl ⟨l, rfl⟩, nofun⟩)
            have hfed := hr.trans (hlines.congr rfl rfl rfl rfl)
            have hleft := feedLines_left { s with reads := rs, canWriteError := true } d (splitLines id window)
            split
            · rename_i s' d' he
              rw [he] at hfed hleft
              split
              · exact ⟨hfed, fun _ => by rw [hleft]; exact Nat.lt_succ_self _⟩
              · rename_i hdone
                exact hrec s' d' hfed hleft (hI _ _ _ _ _ he (by simpa using hdone))
            · rename_i hnr
              exact ⟨hfed, fun hret => (hnr _ _ (congrArg (Did.mk · _ _) hret)).elim⟩

theorem readHeadersLoop_isPrefix (mem : Memory) {rs : List ReadResult} (s : Session P) (d : Data) (hs : s.reads = rs) :
    s.trace <+: (s.readHeadersLoop mem rs d).session.trace :=
  (readHeadersLoop_extends mem (I := fun _ => True) (fun _ _ _ _ _ _ _ => trivial) s d hs trivial).1.isPrefix

theorem readHeaders_extends (mem : Memory) (s : Session P) :
    Extends (Event.InPhase .readHeaders) (s.log (.entered s.httpParserBuffer s.reads.head?)) (s.readHeaders mem).session ∧
    ((s.readHeaders mem).ended = .returned → (s.readHeaders mem).session.reads.length < s.reads.length) := by
  obtain ⟨h₁, h₂⟩ := readHeadersLoop_extends mem (I := fun _ => True) (fun _ _ _ _ _ _ _ => trivial)
    { s.log (.entered s.httpParserBuffer s.reads.head?) with parser := P.init } {} rfl trivial
  exact ⟨(h₁.mono fun e he => he.1).congr rfl rfl rfl rfl, h₂⟩

theorem readLoop_extends (mem : Memory) {rs : List ReadResult} (s : Session P) (d : Data) (hs : s.reads = rs) :
    Extends (Event.InPhase .read) s (s.readLoop mem rs d).session := by
  induction rs generalizing s d with
  | nil => exact .refl s
  | cons r rs ih =>
    have hr : Extends (Event.InPhase .read) s { s with reads := rs } :=
      ⟨⟨[], by simp, by simp⟩, by rw [hs]; exact List.suffix_cons r rs⟩
    unfold Session.readLoop
    dsimp only
    split
    · exact hr
    · rename_i resume
      have hsus : Extends (Event.InPhase .read) s
          { Session.log { s with reads := rs } (.suspended .read s.httpParserBuffer) with yielded := resume } :=
        hr.trans ((Extends.log (.inr ⟨s.httpParserBuffer, rfl⟩) _).congr rfl rfl rfl rfl)
      split
      · exact hsus
      · exact hsus.trans (ih _ _ rfl)
    · split
      · exact hr
      · split
        · exact hr
        · rename_i window _
          have hex := hr.trans ((execute_extends { s with reads := rs } .read d window).mono fun e he => .inl ⟨_, he⟩)
          have hleft := execute_left { s with reads := rs } .read d window
          split
          · rename_i s' d' parsed he
            rw [he] at hex hleft
            split
            · exact hex.congr rfl rfl rfl rfl
            · exact hex.trans ((ih { s' with httpParserBuffer := window.drop parsed } d' hleft).congr rfl rfl rfl rfl)
          · rename_i did n he
            rw [he] at hex
            exact hex

theorem read_extends (mem : Memory) (s : Session P) (req : Request) :
    Extends (Event.InPhase .read) s (s.read mem req).session := by
  have hloop : ∀ (s' : Session P) (d : Data) (n : Nat), Extends (Event.InPhase .read) s s' →
      Extends (Event.InPhase .read) s (Session.readLoop mem s'.reads
        { s' with httpParserBuffer := s'.httpParserBuffer.drop n } d).session := fun s' d n h =>
    h.trans ((readLoop_extends mem { s' with httpParserBuffer := s'.httpParserBuffer.drop n } d rfl).congr rfl rfl rfl rfl)
  have hex : Extends (Event.InPhase .read) s
      (Session.execute { s with canWriteError := true } .read { req := req } s.httpParserBuffer).1.session :=
    ((execute_extends { s with canWriteError := true } .read { req := req } s.httpParserBuffer).mono
      fun e he => .inl ⟨_, he⟩).congr rfl rfl rfl rfl
  unfold Session.read
  split
  · exact .refl s
  · dsimp only
    by_cases hb : s.httpParserBuffer = []
    · rw [if_pos hb]
      dsimp only
      split
      · exact .of_eq rfl rfl
      · exact hloop { s with canWriteError := true } _ 0 (.of_eq rfl rfl)
    · rw [if_neg hb]
      split
      · rename_i s' d' he
        rw [he] at hex
        split
        · exact hex.congr rfl rfl rfl rfl
        · exact hloop s' d' _ hex
      · exact hex

end Parsing

/-! ## What reading leaves as it is -/

/-- From `s` to `t` answers of `readSome` were taken, and nothing was written or set. -/
structure Reading (s t : Session P) : Prop where
  keepAlive : t.keepAlive = s.keepAlive
  timeout : t.sessionTimeout = s.sessionTimeout
  writes : t.writes = s.writes
  yields : t.yields = s.yields
  sent : t.sent = s.sent
  reads : t.reads <:+ s.reads
  yielded : t.yielded = s.yielded ∨ .again t.yielded ∈ s.reads

namespace Reading

variable {s t u : Session P}

/-- Fields that are not among these do not count. -/
theorem of_eq (hka : t.keepAlive = s.keepAlive) (hto : t.sessionTimeout = s.sessionTimeout) (hw : t.writes = s.writes)
    (hy : t.yields = s.yields) (hsent : t.sent = s.sent) (hr : t.reads = s.reads) (hyd : t.yielded = s.yielded) :
    Reading s t :=
  ⟨hka, hto, hw, hy, hsent, hr ▸ List.suffix_refl _, .inl hyd⟩

theorem refl (s : Session P) : Reading s s := .of_eq rfl rfl rfl rfl rfl rfl rfl

theorem trans (h : Reading s t) (h' : Reading t u) : Reading s u := by
  refine ⟨h'.keepAlive.trans h.keepAlive, h'.timeout.trans h.timeout, h'.writes.trans h.writes, h'.yields.trans h.yields,
    h'.sent.trans h.sent, h'.reads.trans h.reads, ?_⟩
  rcases h'.yielded with heq | hmem
  · rw [heq]
    exact h.yielded
  · exact .inr (h.reads.subset hmem)

theorem take {r : ReadResult} {rs : List ReadResult} (hs : s.reads = r :: rs) : Reading s { s with reads := rs } :=
  ⟨rfl, rfl, rfl, rfl, rfl, hs ▸ List.suffix_cons r rs, .inl rfl⟩

theorem again {resume : Option ErrorCode} {rs : List ReadResult} (hs : s.reads = .again resume :: rs) (e : Event) :
    Reading s { Session.log { s with reads := rs } e with yielded := resume } :=
  ⟨rfl, rfl, rfl, rfl, rfl, hs ▸ List.suffix_cons _ rs, .inr (hs ▸ List.mem_cons_self)⟩

/-- What is kept for later is not among these. -/
theorem keep (h : Reading s t) (bs : Bytes) : Reading s { t with httpParserBuffer := bs } :=
  h.trans (.of_eq rfl rfl rfl rfl rfl rfl rfl)

end Reading

section Reading

theorem execute_reading (s : Session P) (phase : Phase) (d : Data) (bs : Bytes) :
    Reading s (s.execute phase d bs).1.session := by
  unfold Session.execute
  dsimp only
  split
  · exact .of_eq rfl rfl rfl rfl rfl rfl rfl
  · split <;> exact .of_eq rfl rfl rfl rfl rfl rfl rfl

theorem feedLines_reading (s : Session P) (d : Data) (ls : List Bytes) : Reading s (s.feedLines d ls).session := by
  induction ls generalizing s d with
  | nil => exact (Reading.refl s).keep []
  | cons l ls ih =>
    have hex := execute_reading s .readHeaders d l
    unfold Session.feedLines
    split
    · exact (Reading.refl s).keep _
    · split
      · rename_i s' d' parsed he
        rw [he] at hex
        split
        · exact hex.keep _
        · exact hex.trans (ih s' d')
      · rename_i did n he
        rw [he] at hex
        exact hex

theorem readHeadersLoop_reading (mem : Memory) {rs : List ReadResult} (s : Session P) (d : Data) (hs : s.reads = rs) :
    Reading s (s.readHeadersLoop mem rs d).session := by
  induction rs generalizing s d with
  | nil => exact .refl s
  | cons r rs ih =>
    have hr := Reading.take hs
    unfold Session.readHeadersLoop
    dsimp only
    split
    · exact hr
    · split
      · exact hr
      · have hagain := Reading.again hs (.suspended .readHeaders s.httpParserBuffer)
        split
        · exact hagain
        · exact hagain.trans (ih _ _ rfl)
      · split
        · exact hr
        · have hflag : Reading s { s with reads := rs, canWriteError := true } := hr.trans (.of_eq rfl rfl rfl rfl rfl rfl rfl)
          split
          · exact hflag
          · rename_i window _
            have hleft := feedLines_left { s with reads := rs, canWriteError := true } d (splitLines id window)
            have hfed := hflag.trans (feedLines_reading _ d (splitLines id window))
            split
            · rename_i s' d' he
              rw [he] at hfed hleft
              split
              · exact hfed
              · exact hfed.trans (ih s' d' hleft)
            · exact hfed

theorem readHeaders_reading (mem : Memory) (s : Session P) : Reading s (s.readHeaders mem).session := by
  refine Reading.trans (t := { s.log (.entered s.httpParserBuffer s.reads.head?) with parser := P.init }) ?_
    (readHeadersLoop_reading mem _ {} rfl)
  exact .of_eq rfl rfl rfl rfl rfl rfl rfl

theorem readLoop_reading (mem : Memory) {rs : List ReadResult} (s : Session P) (d : Data) (hs : s.reads = rs) :
    Reading s (s.readLoop mem rs d).session := by
  induction rs generalizing s d with
  | nil => exact .refl s
  | cons r rs ih =>
    have hr := Reading.take hs
    unfold Session.readLoop
    dsimp only
    split
    · exact hr
    · have hagain := Reading.again hs (.suspended .read s.httpParserBuffer)
      split
      · exact hagain
      · exact hagain.trans (ih _ _ rfl)
    · split
      · exact hr
      · split
        · exact hr
        · rename_i window _
          have hleft := execute_left { s with reads := rs } .read d window
          have hex := hr.trans (execute_reading { s with reads := rs } .read d window)
          split
          · rename_i s' d' parsed he
            rw [he] at hex hleft
            split
            · exact hex.keep []
            · exact (hex.keep _).trans (ih _ d' hleft)
          · rename_i did n he
            rw [he] at hex
            exact hex

theorem read_reading (mem : Memory) (s : Session P) (req : Request) : Reading s (s.read mem req).session := by
  have hflag : Reading s { s with canWriteError := true } := .of_eq rfl rfl rfl rfl rfl rfl rfl
  have hloop : ∀ (s' : Session P) (d : Data) (n : Nat), Reading s s' →
      Reading s (Session.readLoop mem s'.reads { s' with httpParserBuffer := s'.httpParserBuffer.drop n } d).session :=
    fun s' d n h => (h.keep _).trans (readLoop_reading mem _ d rfl)
  have hex := hflag.trans (execute_reading _ .read { req := req } s.httpParserBuffer)
  unfold Session.read
  split
  · exact .refl s
  · dsimp only
    by_cases hb : s.httpParserBuffer = []
    · rw [if_pos hb]
      dsimp only
      split
      · exact hflag.keep []
      · exact hloop _ _ 0 hflag
    · rw [if_neg hb]
      split
      · rename_i s' d' he
        rw [he] at hex
        split
        · exact hex.keep []
        · exact hloop s' d' _ hex
      · exact hex

end Reading

/-! ## Handlers and passes -/

section Handlers

variable {p : Event → Prop} {s : Session P}

theorem respond_extends (s : Session P) (res : Response) : Extends p s (s.respond res).1 := by
  unfold Session.respond
  dsimp only
  split <;> split <;> exact .of_eq rfl rfl

theorem receive_extends (mem : Memory) (s : Session P) (req : Request) :
    Extends (Event.InPhase .read) s (s.receive mem req).session := by
  have hres := respond_extends (p := Event.InPhase .read) s { statusCode := 100 }
  unfold Session.receive
  split
  · split
    · exact .refl s
    · split
      · rename_i s' he
        rw [he] at hres
        exact hres.trans (read_extends mem s' req)
      · rename_i s' ended _ he
        rw [he] at hres
        exact hres
  · exact read_extends mem s req

theorem resume_extends {d : Did P} {next : Option Exc → Session P → Request → Did P} (h : Extends p s d.session)
    (hnext : ∀ e s' req, Extends p s s' → Extends p s (next e s' req).session) :
    Extends p s (Handler.resume d next).session := by
  unfold Handler.resume
  split
  · exact hnext _ _ _ h
  · exact hnext _ _ _ h
  · exact h

theorem run_extends (mem : Memory) (handler : Handler) (s : Session P) (req : Request) :
    Extends (Event.InPhase .read) s (handler.run mem s req).session := by
  induction handler generalizing s req with
  | ret => exact .refl s
  | throw e => exact .refl s
  | modify f next ih => exact ih s (f req)
  | receive next ih => exact resume_extends (receive_extends mem s req) fun e s' req' h => h.trans (ih e req' s' req')
  | read next ih => exact resume_extends (read_extends mem s req) fun e s' req' h => h.trans (ih e req' s' req')
  | write buffer next ih =>
    exact resume_extends (.of_eq rfl rfl) fun e s' req' h => h.trans (ih e s' req')
  | writev buffers next ih =>
    exact resume_extends (.of_eq rfl rfl) fun e s' req' h => h.trans (ih e s' req')
  | respond res next ih => exact resume_extends (respond_extends s res) fun e s' req' h => h.trans (ih e s' req')
  | yield next ih =>
    unfold Handler.run
    split
    · exact .refl s
    · rename_i y ys _
      exact (ih y { s with yields := ys, yielded := y } req).congr rfl rfl rfl rfl
  | setKeepAlive seconds next ih => exact (ih (s.setKeepAlive seconds) req).congr rfl rfl rfl rfl
  | setSessionTimeout seconds next ih =>
    exact (ih (s.setSessionTimeout seconds) req).congr rfl rfl rfl rfl

/-- The event is one of a handler, its start or its end. -/
def Event.InHandler (e : Event) : Prop :=
  e.InPhase .read ∨ (∃ req, e = .created req) ∨ ∃ req left k y, e = .served req left k y

/-- The session in which the handler of a request starts. -/
def Session.startHandler (srv : Server) (s : Session P) (req : Request) : Session P :=
  ((s.setKeepAlive (if req.keepAlive then srv.keepAliveTimeout else 0)).setSessionTimeout
    (if req.contentLength ≠ chunkedData then srv.keepAliveTimeout + (req.contentLength / (512 * 1024) : Nat)
      else 300)).log (.created req)

/-- The ways a pass can go: no request, no handler for it by an exception or by a null session, and a handler that
returns or does not. -/
inductive Session.Serves (srv : Server) (mem : Memory) (s : Session P) : Pass P → Prop where
  | head (h : (s.readHeaders mem).ended ≠ .returned) : Serves srv mem s { s.readHeaders mem with again := false }
  | refused {s' : Session P} {d : Data} {e : Exc} (h : s.readHeaders mem = ⟨.returned, s', d⟩)
      (hcreate : srv.createSession d.req = .error e) :
      Serves srv mem s { ended := .threw e, session := s'.setKeepAlive (if d.req.keepAlive then srv.keepAliveTimeout else 0),
                         data := d, again := false }
  | unknown {s' : Session P} {d : Data} {r : Session P × Ended} (h : s.readHeaders mem = ⟨.returned, s', d⟩)
      (hcreate : srv.createSession d.req = .ok none)
      (hr : r = (s'.setKeepAlive (if d.req.keepAlive then srv.keepAliveTimeout else 0)).write
        ({ statusCode := 503 : Response }.toString)) :
      Serves srv mem s { ended := r.2, session := r.1, data := d, again := false }
  | done {s' t : Session P} {d d' : Data} {handler : Handler} (h : s.readHeaders mem = ⟨.returned, s', d⟩)
      (hcreate : srv.createSession d.req = .ok (some handler))
      (hrun : handler.run mem (s'.startHandler srv d.req) d.req = ⟨.returned, t, d'⟩) :
      Serves srv mem s
        { ended := .returned
          session := (t.setSessionTimeout t.keepAlive).log (.served d'.req t.reads t.keepAlive t.yielded)
          data := d'
          again := t.yielded.isNone && t.keepAlive ≠ 0 }
  | left {s' : Session P} {d : Data} {handler : Handler} (h : s.readHeaders mem = ⟨.returned, s', d⟩)
      (hcreate : srv.createSession d.req = .ok (some handler))
      (hrun : (handler.run mem (s'.startHandler srv d.req) d.req).ended ≠ .returned) :
      Serves srv mem s { handler.run mem (s'.startHandler srv d.req) d.req with again := false }

theorem Did.eq_returned {d : Did P} (h : d.ended = .returned) : d = ⟨.returned, d.session, d.data⟩ := by
  rw [← h]

theorem serve_serves (srv : Server) (mem : Memory) (s : Session P) : s.Serves srv mem (s.serve srv mem) := by
  unfold Session.serve
  split
  · rename_i s' d hread
    dsimp only
    split
    · exact .refused hread ‹_›
    · exact .unknown hread ‹_› rfl
    · rename_i handler hcreate
      split
      · exact .done hread hcreate ‹_›
      · rename_i hne
        exact .left hread hcreate fun h => hne _ _ (Did.eq_returned h)
  · rename_i hne
    exact .head fun h => hne _ _ (Did.eq_returned h)

theorem serve_returned {srv : Server} {mem : Memory} {s s' t : Session P} {d d' : Data} {handler : Handler}
    (hread : s.readHeaders mem = ⟨.returned, s', d⟩) (hcreate : srv.createSession d.req = .ok (some handler))
    (hrun : handler.run mem (s'.startHandler srv d.req) d.req = ⟨.returned, t, d'⟩) :
    s.serve srv mem =
      { ended := .returned
        session := (t.setSessionTimeout t.keepAlive).log (.served d'.req t.reads t.keepAlive t.yielded)
        data := d'
        again := t.yielded.isNone && t.keepAlive ≠ 0 } := by
  unfold Session.startHandler at hrun
  rw [Session.serve, hread]
  dsimp only
  rw [hcreate]
  dsimp only
  rw [hrun]
  rfl

theorem serve_notReturned {srv : Server} {mem : Memory} {s s' : Session P} {d : Data} {handler : Handler} {did : Did P}
    (hread : s.readHeaders mem = ⟨.returned, s', d⟩) (hcreate : srv.createSession d.req = .ok (some handler))
    (hrun : handler.run mem (s'.startHandler srv d.req) d.req = did) (hleft : did.ended ≠ .returned) :
    s.serve srv mem = { did with again := false } := by
  unfold Session.startHandler at hrun
  rw [Session.serve, hread]
  dsimp only
  rw [hcreate]
  dsimp only
  rw [hrun]
  split
  · exact absurd rfl hleft
  · rfl

theorem serve_unknown {srv : Server} {mem : Memory} {s s' : Session P} {d : Data}
    (hread : s.readHeaders mem = ⟨.returned, s', d⟩) (hcreate : srv.createSession d.req = .ok none) :
    s.serve srv mem =
      let r := (s'.setKeepAlive (if d.req.keepAlive then srv.keepAliveTimeout else 0)).write
        ({ statusCode := 503 : Response }.toString)
      { ended := r.2, session := r.1, data := d, again := false } := by
  rw [Session.serve, hread]
  dsimp only
  rw [hcreate]

theorem serve_extends (srv : Server) (mem : Memory) (s : Session P) :
    Extends Event.InHandler (s.readHeaders mem).session (s.serve srv mem).session := by
  have hstart : ∀ (s' : Session P) req, Extends Event.InHandler s' (s'.startHandler srv req) := fun s' req =>
    (Extends.log (.inr (.inl ⟨_, rfl⟩)) s').congr rfl rfl rfl rfl
  have hrun : ∀ (handler : Handler) s' req,
      Extends Event.InHandler s' (handler.run mem (s'.startHandler srv req) req).session :=
    fun handler s' req => (hstart s' req).trans ((run_extends mem handler _ req).mono fun e => Or.inl)
  generalize hpass : s.serve srv mem = pass
  cases hpass ▸ serve_serves srv mem s with
  | head _ => exact .refl _
  | refused h _ =>
    rw [h]
    exact .of_eq rfl rfl
  | unknown h _ hr =>
    rw [h, hr]
    exact .of_eq rfl rfl
  | @done s' t d d' handler h _ hret =>
    have h' := hrun handler s' d.req
    rw [hret] at h'
    rw [h]
    exact h'.trans ((Extends.log (.inr (.inr ⟨_, _, _, _, rfl⟩)) t).congr rfl rfl rfl rfl)
  | left h _ _ =>
    rw [h]
    exact hrun _ _ _

theorem serve_isPrefix (srv : Server) (mem : Memory) (s : Session P) : s.trace <+: (s.serve srv mem).session.trace :=
  ((List.prefix_append _ _).trans (readHeaders_extends mem s).1.isPrefix).trans (serve_extends srv mem s).isPrefix

theorem loop_isPrefix (srv : Server) (mem : Memory) (N : Nat) (s : Session P) :
    s.trace <+: (s.loop srv mem N).session.trace := by
  induction N generalizing s with
  | zero => exact List.prefix_rfl
  | succ N ih =>
    simp only [Session.loop]
    split
    · exact (serve_isPrefix srv mem s).trans (ih _)
    · exact serve_isPrefix srv mem s

/-- A pass that is followed by another one has taken an answer. -/
theorem serve_left (srv : Server) (mem : Memory) (s : Session P) (h : (s.serve srv mem).again = true) :
    (s.serve srv mem).session.reads.length < s.reads.length := by
  refine Nat.lt_of_le_of_lt (serve_extends srv mem s).reads.length_le ((readHeaders_extends mem s).2 ?_)
  generalize hpass : s.serve srv mem = pass at h
  cases hpass ▸ serve_serves srv mem s with
  | done hread _ _ => rw [hread]
  | head _ => cases h
  | refused _ _ => cases h
  | unknown _ _ _ => cases h
  | left _ _ _ => cases h

/-- So the loop does not run out of fuel. -/
theorem loop_fuel (srv : Server) (mem : Memory) {n m : Nat} {s : Session P} (hn : s.reads.length < n)
    (hm : s.reads.length < m) : s.loop srv mem n = s.loop srv mem m := by
  induction n generalizing s m with
  | zero => exact absurd hn (Nat.not_lt_zero _)
  | succ n ih =>
    obtain ⟨m, rfl⟩ := Nat.exists_eq_add_one_of_ne_zero (Nat.ne_of_gt (Nat.zero_lt_of_lt hm))
    simp only [Session.loop]
    split
    · rename_i h
      have := serve_left srv mem s h
      exact ih (by omega) (by omega)
    · rfl

end Handlers

end Getodac
