import Getodac.Carried
/-!
# What `readHeaders` passes to the parser

`readHeaders` cuts what each read brings into lines and passes them on one by
one, until the head is complete.
-/

namespace Getodac

open Tape

variable {P : HttpParser}

/-! ## Lines -/

section Lines

variable {α : Type} (byte : α → UInt8)

theorem splitLines_flatten (l : List α) : (splitLines byte l).flatten = l := by
  fun_induction splitLines byte l with
  | case1 => rfl
  | case2 => rfl
  | case3 a b rest h ih => simp [ih]
  | case4 a b rest h hs ih => simp [hs] at ih
  | case5 a b rest h l ls hs ih => rw [hs] at ih; simpa using ih

theorem splitLines_ne_nil (l : List α) : ∀ p ∈ splitLines byte l, p ≠ [] := by
  fun_induction splitLines byte l with
  | case1 => simp
  | case2 => simp
  | case3 a b rest h ih => simpa using ih
  | case4 a b rest h hs ih => simp
  | case5 a b rest h l ls hs ih =>
    intro p hp
    rcases List.mem_cons.1 hp with rfl | hp
    · simp
    · exact ih p (by rw [hs]; exact List.mem_cons_of_mem _ hp)

theorem splitLines_map (l : List α) : splitLines id (l.map byte) = (splitLines byte l).map (List.map byte) := by
  fun_induction splitLines byte l with
  | case1 => rfl
  | case2 => rfl
  | case3 a b rest h ih => simp [splitLines, h, ih]
  | case4 a b rest h hs ih => rw [hs] at ih; simp only [List.map_cons] at ih ⊢; simp [splitLines, h, ih]
  | case5 a b rest h l ls hs ih => rw [hs] at ih; simp only [List.map_cons] at ih ⊢; simp [splitLines, h, ih]

theorem splitLines_ne {l : List α} (hl : l ≠ []) : splitLines byte l ≠ [] := by
  intro h
  have := splitLines_flatten byte l
  rw [h] at this
  exact hl this.symm

/-- A byte that is not the CR of a line end goes to the line of the byte after it. -/
theorem splitLines_cons {a b : α} (rest : List α) (h : ¬ (byte a = 13 ∧ byte b = 10)) :
    ∃ l ls, splitLines byte (b :: rest) = l :: ls ∧ splitLines byte (a :: b :: rest) = (a :: l) :: ls := by
  cases hs : splitLines byte (b :: rest) with
  | nil => exact absurd hs (splitLines_ne byte (by simp))
  | cons l ls => exact ⟨l, ls, rfl, by simp [splitLines, h, hs]⟩

/-- A line end separates what is before it from what is after it. -/
theorem splitLines_append {c e : α} (hc : byte c = 13) (he : byte e = 10) (a v : List α) :
    splitLines byte (a ++ c :: e :: v) = splitLines byte (a ++ [c, e]) ++ splitLines byte v := by
  fun_induction splitLines byte a with
  | case1 => simp [splitLines, hc, he]
  | case2 a => simp [splitLines, hc, he]
  | case3 a b rest h ih => simp [splitLines, h, ih]
  | case4 a b rest h hs ih => exact absurd hs (splitLines_ne byte (by simp))
  | case5 a b rest h l ls hs ih =>
    obtain ⟨p, ps, hp, hap⟩ := splitLines_cons byte (rest ++ c :: e :: v) h
    obtain ⟨p', ps', hp', hap'⟩ := splitLines_cons byte (rest ++ [c, e]) h
    simp only [List.cons_append] at ih ⊢
    rw [hp, hp'] at ih
    rw [hap, hap']
    obtain ⟨rfl, rfl⟩ := List.cons.inj ih
    rfl

/-- Nonempty lines of which the last byte is known. -/
theorem exists_last_line {ls : List (List α)} (hne : ∀ p ∈ ls, p ≠ []) {a : List α} {e : α} (h : ls.flatten = a ++ [e]) :
    ∃ ps p, ls = ps ++ [p ++ [e]] ∧ ps.flatten ++ p = a := by
  rcases List.eq_nil_or_concat ls with rfl | ⟨ps, q, rfl⟩
  · simp at h
  · rcases List.eq_nil_or_concat q with rfl | ⟨p, x, rfl⟩
    · exact absurd rfl (hne [] (by simp))
    · simp only [List.concat_eq_append, List.flatten_append, List.flatten_cons, List.flatten_nil, List.append_nil,
        ← List.append_assoc] at h
      obtain ⟨h1, h2⟩ := List.append_inj' h rfl
      cases h2
      exact ⟨ps, p, by simp, h1⟩

end Lines

/-! ## Callbacks within a head -/

/-- A callback that leaves the head open. -/
def Callback.InHead : Callback → Prop
  | .messageBegin => True
  | .data k _ => k ≠ .body
  | _ => False

/-- Only such callbacks are made at the byte. -/
abbrev Token.InHead (t : Token) : Prop := t.Satisfies Callback.InHead (· ≠ Kind.body)

theorem Data.call_inHead {d : Data} {c : Callback} (hc : c.InHead) (hd : d.headDone = false) :
    ∃ d', d.call c = (d', none) ∧ d'.headDone = false := by
  cases c with
  | messageBegin => exact ⟨_, rfl, rfl⟩
  | data k piece =>
    cases k with
    | url method => exact ⟨_, rfl, rfl⟩
    | headerField => exact ⟨_, rfl, hd⟩
    | headerValue => exact ⟨_, rfl, hd⟩
    | body => exact absurd rfl hc
  | headersComplete keepAlive => exact hc.elim
  | messageComplete => exact hc.elim

theorem Data.callAll_inHead {d : Data} {cs : List Callback} (hc : ∀ c ∈ cs, c.InHead) (hd : d.headDone = false) :
    ∃ d', d.callAll cs = (d', none) ∧ d'.headDone = false := by
  induction cs generalizing d with
  | nil => exact ⟨d, rfl, hd⟩
  | cons c cs ih =>
    obtain ⟨d₁, h₁, hd₁⟩ := Data.call_inHead (hc c List.mem_cons_self) hd
    obtain ⟨d₂, h₂, hd₂⟩ := ih (fun x hx => hc x (List.mem_cons_of_mem _ hx)) hd₁
    exact ⟨d₂, by rw [Data.callAll, h₁]; exact h₂, hd₂⟩

/-- The request at the end of its head. -/
def Data.finish (d : Data) (keepAlive hasBody : Bool) : Data :=
  { d with req := { d.req with state := if hasBody then .HeadersCompleted else .Completed, keepAlive := keepAlive } }

theorem Data.callAll_headDone (d : Data) (keepAlive hasBody : Bool) :
    d.callAll (Getodac.headDone keepAlive hasBody) = (d.finish keepAlive hasBody, none) := by
  cases hasBody <;> rfl

/-! ## What a session read -/

/-- The bytes of the tokens. -/
abbrev wire (ts : List Token) : Bytes := ts.map (·.byte)

theorem splitLines_wire (ts : List Token) : splitLines id (wire ts) = (splitLines (·.byte) ts).map wire :=
  splitLines_map _ ts

/-- What the calls of `http_parser_execute` in the phase were given. -/
def execs (phase : Phase) (tr : List Event) : List Bytes :=
  tr.filterMap fun
    | .executed p bs => if p = phase then some bs else none
    | _ => none

/-- From `s` to `s'` the session only read, and passed these bytes to the parser. -/
structure Reads (phase : Phase) (s s' : Session P) (bss : List Bytes) : Prop where
  keepAlive : s'.keepAlive = s.keepAlive
  writes : s'.writes = s.writes
  yields : s'.yields = s.yields
  sent : s'.sent = s.sent
  yielded : s.yielded = none → s'.yielded = none
  trace : ∃ tr, s'.trace = s.trace ++ tr ∧ execs phase tr = bss ∧
    ∀ e ∈ tr, (∃ bs, e = .executed phase bs) ∨ ∃ c, e = .suspended phase c

theorem Reads.refl (phase : Phase) (s : Session P) : Reads phase s s [] :=
  ⟨rfl, rfl, rfl, rfl, id, [], by simp, rfl, by simp⟩

theorem Reads.trans {phase : Phase} {s t u : Session P} {a b : List Bytes} (h : Reads phase s t a)
    (h' : Reads phase t u b) : Reads phase s u (a ++ b) := by
  obtain ⟨tr, ht, he, hall⟩ := h.trace
  obtain ⟨tr', ht', he', hall'⟩ := h'.trace
  refine ⟨h'.keepAlive.trans h.keepAlive, h'.writes.trans h.writes, h'.yields.trans h.yields, h'.sent.trans h.sent,
    fun hy => h'.yielded (h.yielded hy), tr ++ tr', by rw [ht', ht, List.append_assoc], ?_, ?_⟩
  · rw [execs, List.filterMap_append]
    exact congrArg₂ (· ++ ·) he he'
  · intro e hm
    exact (List.mem_append.1 hm).elim (hall e) (hall' e)

namespace Session

/-- The session after successful calls of `http_parser_execute`. -/
def fed (s : Session P) (phase : Phase) : List Bytes → Session P
  | [] => s
  | bs :: bss => fed { s.log (.executed phase bs) with parser := (P.execute s.parser bs).state } phase bss

theorem fed_reads (s : Session P) (phase : Phase) (bss : List Bytes) : Reads phase s (s.fed phase bss) bss := by
  induction bss generalizing s with
  | nil => exact .refl phase s
  | cons bs bss ih =>
    refine Reads.trans (a := [bs]) ?_ (ih _)
    exact ⟨rfl, rfl, rfl, rfl, id, [.executed phase bs], rfl, by simp [execs],
      fun e he => .inl ⟨bs, List.mem_singleton.1 he⟩⟩

theorem fed_append (s : Session P) (phase : Phase) (a b : List Bytes) :
    s.fed phase (a ++ b) = (s.fed phase a).fed phase b := by
  induction a generalizing s with
  | nil => rfl
  | cons bs a ih => exact ih _

@[simp] theorem fed_buffer (s : Session P) (phase : Phase) (bss : List Bytes) :
    (s.fed phase bss).httpParserBuffer = s.httpParserBuffer := by
  induction bss generalizing s with
  | nil => rfl
  | cons bs bss ih => exact ih _

@[simp] theorem fed_left (s : Session P) (phase : Phase) (bss : List Bytes) : (s.fed phase bss).reads = s.reads := by
  induction bss generalizing s with
  | nil => rfl
  | cons bs bss ih => exact ih _

end Session

section Follows

variable {tail : Bool} {tape : List Token}

/-- The session's parser has read the bytes of `done`. -/
abbrev Session.At (tail : Bool) (tape : List Token) (s : Session P) (done : List Token) (r : Run UInt8 Kind) : Prop :=
  Reached Callback.data (tails tail) P.toMachine tape s.parser done r

variable {s : Session P} {done : List Token} {r : Run UInt8 Kind} {d d' : Data}

/-- A call on the tape makes its callbacks and uses all its bytes. -/
theorem execute_follows (hf : P.Follows tail tape) (hr : s.At tail tape done r) {seg : List Token} (hs : seg ≠ [])
    (hp : done ++ seg <+: tape) (phase : Phase) (hc : d.callAll (calls .data r seg) = (d', none)) :
    s.execute phase d (wire seg) = (⟨.returned, s.fed phase [wire seg], d'⟩, seg.length) := by
  obtain ⟨h1, h2, h3⟩ := hf s.parser done r seg hr hs hp
  simp only [Session.execute, h1, h2, h3, hc, Bool.false_eq_true, if_false]
  rfl

theorem fed_at (hr : s.At tail tape done r) {segs : List (List Token)} (hs : ∀ p ∈ segs, p ≠ [])
    (hp : done ++ segs.flatten <+: tape) (phase : Phase) :
    (s.fed phase (segs.map wire)).At tail tape (done ++ segs.flatten) (after .data (tails tail) r segs) := by
  induction segs generalizing s done r with
  | nil => simpa [Session.fed, Tape.after] using hr
  | cons seg segs ih =>
    have hp' : done ++ seg ++ segs.flatten <+: tape := by simpa using hp
    have := ih (s := s.fed phase [wire seg])
      (.call seg hr (hs seg List.mem_cons_self) ((List.prefix_append _ _).trans hp'))
      (fun p h => hs p (List.mem_cons_of_mem _ h)) hp'
    simpa [Session.fed, Tape.after] using this

/-- The lines of a head that do not complete it are passed on, all of them. -/
theorem feedLines_inHead (hf : P.Follows tail tape) {segs : List (List Token)} (hr : s.At tail tape done r)
    (hs : ∀ p ∈ segs, p ≠ []) (hp : done ++ segs.flatten <+: tape) (hin : ∀ t ∈ done ++ segs.flatten, Token.InHead t)
    (hd : d.headDone = false) :
    ∃ d', d.callAll (feed .data (tails tail) r segs) = (d', none) ∧ d'.headDone = false ∧
      ∀ more, s.feedLines d (segs.map wire ++ more) = (s.fed .readHeaders (segs.map wire)).feedLines d' more := by
  induction segs generalizing s done r d with
  | nil => exact ⟨d, rfl, hd, fun more => rfl⟩
  | cons seg segs ih =>
    have hs₁ := hs seg List.mem_cons_self
    have hp' : done ++ seg ++ segs.flatten <+: tape := by simpa using hp
    have hp₁ : done ++ seg <+: tape := (List.prefix_append _ _).trans hp'
    have hmk : ∀ (k : Kind) (bs : Bytes), k ≠ .body → (Callback.data k bs).InHead := fun _ _ h => h
    have hcalls : ∀ c ∈ calls Callback.data r seg, c.InHead := by
      apply calls_forall hmk
      · exact hr.run_forall hmk fun t ht => hin t (List.mem_append_left _ ht)
      · exact fun t ht => hin t (by simp [ht])
    obtain ⟨d₁, h₁, hd₁⟩ := Data.callAll_inHead hcalls hd
    obtain ⟨d₂, h₂, hd₂, hmore⟩ := ih (s := s.fed .readHeaders [wire seg]) (.call seg hr hs₁ hp₁)
      (fun p h => hs p (List.mem_cons_of_mem _ h)) hp' (by simpa using hin) hd₁
    refine ⟨d₂, by rw [feed, Data.callAll_append h₁, h₂], hd₂, fun more => ?_⟩
    have hex := execute_follows hf hr hs₁ hp₁ .readHeaders h₁
    simp only [List.map_cons, List.cons_append, Session.feedLines, hd, Bool.false_eq_true, if_false, hex,
      List.length_map, ne_eq, not_true_eq_false]
    exact hmore more

/-- The last byte of a head: the LF of the empty line. -/
structure HeadEnd (keepAlive hasBody : Bool) (l : Token) : Prop where
  byte : l.byte = 10
  before : l.before = []
  run : l.run = none
  after : l.after = headDone keepAlive hasBody

theorem Data.finish_headDone (d : Data) (keepAlive hasBody : Bool) : (d.finish keepAlive hasBody).headDone = true := by
  cases hasBody <;> rfl

/-- A line that ends the head is the last one passed on. -/
theorem feedLines_end (hf : P.Follows tail tape) (hr : s.At tail tape done r) {seg : List Token} {l : Token}
    {keepAlive hasBody : Bool} (hl : HeadEnd keepAlive hasBody l) (hp : done ++ (seg ++ [l]) <+: tape)
    (hc : d.callAll (calls .data r seg) = (d', none)) (hd : d.headDone = false) (more : List Bytes) :
    s.feedLines d (wire (seg ++ [l]) :: more) =
      ⟨.returned, { s.fed .readHeaders [wire (seg ++ [l])] with httpParserBuffer := more.flatten },
        d'.finish keepAlive hasBody⟩ := by
  have hcalls : d.callAll (calls .data r (seg ++ [l])) = (d'.finish keepAlive hasBody, none) := by
    rw [calls_concat_skip r seg hl.run, hl.before, hl.after, Data.callAll_append hc]
    exact Data.callAll_headDone d' keepAlive hasBody
  have hex := execute_follows hf hr (by simp) hp .readHeaders hcalls
  rw [Session.feedLines]
  simp only [hd, Bool.false_eq_true, if_false, hex, List.length_map, ne_eq, not_true_eq_false]
  cases more with
  | nil => rfl
  | cons m ms => simp [Session.feedLines, Data.finish_headDone]

/-! ## The answers of the socket -/

/-- The bytes that the answers bring, read by read. -/
def datas (rs : List ReadResult) : List Bytes :=
  rs.filterMap fun
    | .data bs => some bs
    | _ => none

@[simp] theorem datas_nil : datas [] = [] := rfl

@[simp] theorem datas_data (bs : Bytes) (rs : List ReadResult) : datas (.data bs :: rs) = bs :: datas rs := rfl

@[simp] theorem datas_again (resume : Option ErrorCode) (rs : List ReadResult) : datas (.again resume :: rs) = datas rs := rfl

@[simp] theorem datas_append (a b : List ReadResult) : datas (a ++ b) = datas a ++ datas b := List.filterMap_append

/-- The socket delivers: no error, and each read brings some bytes and no more than the shared buffer takes. -/
def Delivers (mem : Memory) : List ReadResult → Prop
  | [] => True
  | .data bs :: rs => bs ≠ [] ∧ bs.length ≤ (mem.shared rs.length).length ∧ Delivers mem rs
  | .again resume :: rs => resume = none ∧ Delivers mem rs
  | .failed _ :: _ => False

variable {mem : Memory}

/-- What fits into the shared buffer, with nothing in front. -/
theorem fits_fresh {bs : Bytes} {n : Nat} (hne : bs ≠ []) (hfit : bs.length ≤ (mem.shared n).length) :
    0 < (mem.shared n).length ∧ (Session.fill mem n []).Fits bs := by
  have hpos : 0 < (mem.shared n).length := (List.length_pos_iff.2 hne).trans_le hfit
  exact ⟨hpos, (fits_iff (show ([] : Bytes).length < _ from hpos)).2 ⟨hne, hfit⟩⟩

theorem readHeadersLoop_data {bs : Bytes} {rs : List ReadResult} (hb : s.httpParserBuffer = []) (hne : bs ≠ [])
    (hfit : bs.length ≤ (mem.shared rs.length).length) :
    s.readHeadersLoop mem (.data bs :: rs) d =
      match Session.feedLines { s with reads := rs, canWriteError := true } d (splitLines id bs) with
      | ⟨.returned, s', d'⟩ => if d'.headDone then ⟨.returned, s', d'⟩ else s'.readHeadersLoop mem rs d'
      | did => did := by
  obtain ⟨hpos, hfits⟩ := fits_fresh hne hfit
  have hloop := readHeadersLoop_passes (s := s) (d := d) (by rw [hb]; rfl) hfits (by rw [hb]; exact passes_self hpos hfits)
  have hnil : s.httpParserBuffer ++ bs = bs := by rw [hb, List.nil_append]
  rwa [hnil] at hloop

theorem readHeadersLoop_again {rs : List ReadResult} (hb : s.httpParserBuffer = []) :
    s.readHeadersLoop mem (.again none :: rs) d =
      Session.readHeadersLoop mem rs
        { Session.log { s with reads := rs } (.suspended .readHeaders []) with yielded := none } d := by
  rw [Session.readHeadersLoop]
  simp only [hb, if_true]

/-- The lines that `readHeaders` cuts the reads into. -/
def linesOf (cs : List (List Token)) : List (List Token) := cs.flatMap (splitLines (·.byte))

theorem linesOf_cons (c : List Token) (cs : List (List Token)) :
    linesOf (c :: cs) = splitLines (·.byte) c ++ linesOf cs := List.flatMap_cons

theorem linesOf_concat (cs : List (List Token)) (c : List Token) :
    linesOf (cs ++ [c]) = linesOf cs ++ splitLines (·.byte) c := by
  simp [linesOf]

theorem linesOf_flatten (cs : List (List Token)) : (linesOf cs).flatten = cs.flatten := by
  induction cs with
  | nil => rfl
  | cons c cs ih => rw [linesOf_cons, List.flatten_append, splitLines_flatten, ih, List.flatten_cons]

/-- The reads of a head that do not complete it are passed on, line by line. -/
theorem readHeadersLoop_inHead (hf : P.Follows tail tape) {rs rest : List ReadResult} {cs : List (List Token)}
    (hdel : Delivers mem (rs ++ rest)) (hcs : datas rs = cs.map wire) (hr : s.At tail tape done r)
    (hp : done ++ cs.flatten <+: tape) (hin : ∀ t ∈ done ++ cs.flatten, Token.InHead t) (hd : d.headDone = false)
    (hb : s.httpParserBuffer = []) (hleft : s.reads = rs ++ rest) :
    ∃ s' d', s.readHeadersLoop mem (rs ++ rest) d = s'.readHeadersLoop mem rest d' ∧
      s'.httpParserBuffer = [] ∧ s'.reads = rest ∧ d'.headDone = false ∧
      d.callAll (feed .data (tails tail) r (linesOf cs)) = (d', none) ∧
      s'.At tail tape (done ++ cs.flatten) (after .data (tails tail) r (linesOf cs)) ∧
      Reads .readHeaders s s' ((linesOf cs).map wire) := by
  induction rs generalizing s done r d cs with
  | nil =>
    cases cs with
    | nil => exact ⟨s, d, rfl, hb, hleft, hd, rfl, by simpa [Tape.after, linesOf] using hr, .refl _ _⟩
    | cons c cs => cases hcs
  | cons a rs ih =>
    rw [List.cons_append] at hdel
    cases a with
    | failed ec => exact hdel.elim
    | again resume =>
      obtain ⟨rfl, hdel⟩ := hdel
      obtain ⟨s', d', hloop, hb', hleft', hd', hcalls, hat, hreads⟩ :=
        ih (s := { Session.log { s with reads := rs ++ rest } (.suspended .readHeaders []) with yielded := none })
          hdel hcs hr hp hin hd hb rfl
      refine ⟨s', d', by rw [List.cons_append, readHeadersLoop_again hb, hloop], hb', hleft', hd', hcalls, hat, ?_⟩
      refine Reads.trans (a := []) ?_ hreads
      exact ⟨rfl, rfl, rfl, rfl, fun _ => rfl, [.suspended .readHeaders []], rfl, rfl,
        fun e he => .inr ⟨[], List.mem_singleton.1 he⟩⟩
    | data bs =>
      obtain ⟨hne, hfit, hdel⟩ := hdel
      cases cs with
      | nil => cases hcs
      | cons c cs =>
        have hcs' : datas rs = cs.map wire := (List.cons.inj hcs).2
        obtain rfl : bs = wire c := (List.cons.inj hcs).1
        have hp' : done ++ c ++ cs.flatten <+: tape := by simpa using hp
        have hflat := splitLines_flatten (·.byte) c
        have hs := splitLines_ne_nil (α := Token) (·.byte) c
        have hp₁ : done ++ (splitLines (·.byte) c).flatten <+: tape := by
          rw [hflat]; exact (List.prefix_append _ _).trans hp'
        obtain ⟨d₁, hc₁, hd₁, hmore⟩ := feedLines_inHead hf (s := { s with reads := rs ++ rest, canWriteError := true })
          hr hs hp₁ (by rw [hflat]; intro t ht; exact hin t (by simp at ht ⊢; tauto)) hd
        have hat₁ := fed_at (s := { s with reads := rs ++ rest, canWriteError := true }) hr hs hp₁ .readHeaders
        rw [hflat] at hat₁
        obtain ⟨s', d', hloop, hb', hleft', hd', hcalls, hat, hreads⟩ :=
          ih (s := { Session.fed { s with reads := rs ++ rest, canWriteError := true } .readHeaders
              ((splitLines (·.byte) c).map wire) with httpParserBuffer := [] })
            hdel hcs' hat₁ hp' (by simpa using hin) hd₁ rfl (by simp)
        refine ⟨s', d', ?_, hb', hleft', hd', ?_, ?_, ?_⟩
        · have hlines : splitLines id (wire c) = (splitLines (·.byte) c).map wire ++ [] := by
            rw [List.append_nil, splitLines_wire]
          rw [List.cons_append, readHeadersLoop_data hb hne hfit, hlines, hmore []]
          simp only [Session.feedLines, hd₁, Bool.false_eq_true, if_false]
          exact hloop
        · rw [linesOf_cons, feed_append, Data.callAll_append hc₁, hcalls]
        · rw [linesOf_cons, after_append, List.flatten_cons, ← List.append_assoc]
          exact hat
        · rw [linesOf_cons, List.map_append]
          have h₁ := Session.fed_reads { s with reads := rs ++ rest, canWriteError := true } .readHeaders
            ((splitLines (·.byte) c).map wire)
          refine Reads.trans ?_ hreads
          exact ⟨h₁.keepAlive, h₁.writes, h₁.yields, h₁.sent, h₁.yielded, h₁.trace⟩

/-! ## The read that brings the end of the head -/

/-- One of the reads brings the byte at position `n`. -/
theorem exists_read_at {rs : List ReadResult} {n : Nat} (h : n < (datas rs).flatten.length) :
    ∃ a bs b, rs = a ++ .data bs :: b ∧ (datas a).flatten.length ≤ n ∧ n < (datas a).flatten.length + bs.length := by
  induction rs generalizing n with
  | nil => simp at h
  | cons r rs ih =>
    have hskip : (∀ x, datas (r :: x) = datas x) →
        ∃ a bs b, r :: rs = a ++ .data bs :: b ∧ (datas a).flatten.length ≤ n ∧
          n < (datas a).flatten.length + bs.length := by
      intro hr
      obtain ⟨a, bs, b, rfl, h₁, h₂⟩ := ih (n := n) (by rwa [hr] at h)
      exact ⟨r :: a, bs, b, rfl, by rwa [hr], by rwa [hr]⟩
    cases r with
    | again resume => exact hskip fun x => rfl
    | failed ec => exact hskip fun x => rfl
    | data bs =>
      by_cases hn : n < bs.length
      · exact ⟨[], bs, rs, rfl, Nat.zero_le _, by simpa using hn⟩
      · have hlen : ∀ x, (datas (.data bs :: x)).flatten.length = bs.length + (datas x).flatten.length := by
          intro x; simp
        rw [hlen] at h
        obtain ⟨a, bs', b, rfl, h₁, h₂⟩ := ih (n := n - bs.length) (by omega)
        exact ⟨.data bs :: a, bs', b, rfl, by rw [hlen]; omega, by rw [hlen]; omega⟩

/-- Tokens can be cut as their bytes are. -/
theorem exists_tokens {bss : List Bytes} {ts : List Token} (h : wire ts = bss.flatten) :
    ∃ cs : List (List Token), cs.flatten = ts ∧ bss = cs.map wire := by
  induction bss generalizing ts with
  | nil => exact ⟨[], by simpa using h, rfl⟩
  | cons bs bss ih =>
    obtain ⟨c, ts', rfl, hc, ht⟩ := List.map_eq_append_iff.1 h
    obtain ⟨cs, rfl, rfl⟩ := ih ht
    exact ⟨c :: cs, rfl, by rw [← hc]; rfl⟩

theorem exists_end_read {rs : List ReadResult} {T R : List Token} {l : Token} (h : (datas rs).flatten = wire (T ++ l :: R)) :
    ∃ (a : List ReadResult) (cs : List (List Token)) (T' y R' : List Token) (b : List ReadResult),
      rs = a ++ .data (wire (T' ++ l :: y)) :: b ∧ datas a = cs.map wire ∧ T = cs.flatten ++ T' ∧ R = y ++ R' ∧
      (datas b).flatten = wire R' := by
  obtain ⟨a, bs, b, rfl, h₁, h₂⟩ := exists_read_at (show T.length < (datas rs).flatten.length by rw [h]; simp)
  have hsplit : datas (a ++ .data bs :: b) = datas a ++ bs :: datas b := by simp
  rw [hsplit, List.flatten_append, List.flatten_cons] at h
  obtain ⟨X, YZ, hXYZ, hX, hYZ⟩ := List.map_eq_append_iff.1 h.symm
  obtain ⟨Y, Z, rfl, hY, hZ⟩ := List.map_eq_append_iff.1 hYZ
  obtain ⟨cs, rfl, hcs⟩ := exists_tokens hX
  have hlenX : cs.flatten.length ≤ T.length := by rw [← List.length_map (f := (·.byte)), hX]; exact h₁
  have hlenY : T.length < cs.flatten.length + Y.length := by
    have hwire : ∀ ts : List Token, ts.length = (ts.map (·.byte)).length := fun ts => (List.length_map _).symm
    rw [hwire cs.flatten, hX, hwire Y, hY]
    exact h₂
  obtain ⟨T', rfl⟩ : cs.flatten <+: T :=
    List.prefix_of_prefix_length_le (List.prefix_append _ _) (hXYZ ▸ List.prefix_append _ _) hlenX
  rw [List.append_assoc] at hXYZ
  have hTY := List.append_cancel_left hXYZ
  obtain ⟨y', hy'⟩ : T' ++ [l] <+: Y := by
    have hpre : T' ++ [l] <+: T' ++ l :: R := ⟨R, by simp⟩
    refine List.prefix_of_prefix_length_le hpre (hTY ▸ List.prefix_append _ _) ?_
    simp at hlenY ⊢; omega
  subst hy'
  refine ⟨a, cs, T', y', Z, b, by rw [← hY]; simp, hcs, rfl, ?_, hZ.symm⟩
  simpa using hTY

/-- A head up to its last byte. -/
structure HeadTape (T : List Token) : Prop where
  inHead : ∀ t ∈ T, Token.InHead t
  cr : ∃ T₀ c, T = T₀ ++ [c] ∧ c.byte = 13

theorem HeadTape.suffix_cr {T A T' : List Token} (hT : HeadTape T) (h : T = A ++ T') (hne : T' ≠ []) :
    ∃ T₀ c, T' = T₀ ++ [c] ∧ c.byte = 13 := by
  obtain ⟨T₀, c, h₁, hc⟩ := hT.cr
  obtain ⟨T₁, c', rfl⟩ : ∃ T₁ c', T' = T₁ ++ [c'] := by
    rcases List.eq_nil_or_concat T' with h' | ⟨T₁, c', h'⟩
    · exact absurd h' hne
    · exact ⟨T₁, c', by rw [h', List.concat_eq_append]⟩
  rw [h₁, ← List.append_assoc] at h
  have : c = c' := by simpa using (List.append_inj' h rfl).2
  exact ⟨T₁, c', rfl, this ▸ hc⟩

/-- If the read that brings the last byte brings the CR before it too, or nothing after it, a line ends there. -/
theorem splitLines_end {T A T' y : List Token} {l : Token} (hT : HeadTape T) (h : T = A ++ T') (hl : l.byte = 10)
    (hy : T' ≠ [] ∨ y = []) :
    splitLines (·.byte) (T' ++ l :: y) = splitLines (·.byte) (T' ++ [l]) ++ splitLines (·.byte) y := by
  by_cases hne : T' = []
  · rcases hy with hy | rfl
    · exact absurd hne hy
    · simp [splitLines]
  · obtain ⟨T₀, c, rfl, hc⟩ := hT.suffix_cr h hne
    simpa using splitLines_append (·.byte) hc hl T₀ y

theorem Delivers.right {a b : List ReadResult} (h : Delivers mem (a ++ b)) : Delivers mem b := by
  induction a with
  | nil => exact h
  | cons r a ih =>
    cases r with
    | data bs => exact ih h.2.2
    | again resume => exact ih h.2
    | failed ec => exact h.elim

/-- The lines up to the end of the head are passed on. -/
theorem feedLines_head (hf : P.Follows tail tape) (hr : s.At tail tape done r) {T' : List Token} {l : Token}
    {keepAlive hasBody : Bool} (hin : ∀ t ∈ done ++ T', Token.InHead t) (hl : HeadEnd keepAlive hasBody l)
    (hp : done ++ (T' ++ [l]) <+: tape) (hd : d.headDone = false) {segs : List (List Token)} (hs : ∀ q ∈ segs, q ≠ [])
    (hsegs : segs.flatten = T' ++ [l]) :
    ∃ d' : Data, d.callAll (feed .data (tails tail) r segs) = (d'.finish keepAlive hasBody, none) ∧
      (s.fed .readHeaders (segs.map wire)).At tail tape (done ++ (T' ++ [l])) none ∧
      ∀ more, s.feedLines d (segs.map wire ++ more) =
        ⟨.returned, { s.fed .readHeaders (segs.map wire) with httpParserBuffer := more.flatten },
          d'.finish keepAlive hasBody⟩ := by
  obtain ⟨ps, p, rfl, rfl⟩ := exists_last_line hs hsegs
  have hin' : ∀ t ∈ done ++ ps.flatten, Token.InHead t := fun t ht => hin t (by
    rw [← List.append_assoc]; exact List.mem_append_left _ ht)
  have hp' : done ++ ps.flatten ++ (p ++ [l]) <+: tape := by simpa using hp
  have hps : done ++ ps.flatten <+: tape := (List.prefix_append _ _).trans hp'
  obtain ⟨d₂, hc₂, hd₂, hmore⟩ := feedLines_inHead hf hr (fun q hq => hs q (List.mem_append_left _ hq)) hps hin' hd
  have hat := fed_at hr (fun q hq => hs q (List.mem_append_left _ hq)) hps .readHeaders
  have hmk : ∀ (k : Kind) (bs : Bytes), k ≠ .body → (Callback.data k bs).InHead := fun _ _ h => h
  have hcalls : ∀ c ∈ calls .data (after .data (tails tail) r ps) p, Callback.InHead c := by
    apply calls_forall hmk (hat.run_forall hmk hin')
    exact fun t ht => hin t (by simp [ht])
  obtain ⟨d₃, hc₃, -⟩ := Data.callAll_inHead hcalls hd₂
  refine ⟨d₃, ?_, ?_, fun more => ?_⟩
  · rw [feed_append, Data.callAll_append hc₂, feed, feed, List.append_nil, calls_concat_skip _ p hl.run, hl.before,
      hl.after, Data.callAll_append hc₃]
    exact Data.callAll_headDone d₃ keepAlive hasBody
  · have hend := fed_at hr hs (by rw [hsegs]; exact hp) .readHeaders
    rwa [hsegs, after_append, Tape.after, Tape.after, emit_skip _ p hl.run] at hend
  · rw [List.map_append, List.append_assoc, hmore]
    rw [List.map_singleton, List.singleton_append, feedLines_end hf hat hl hp' hc₃ hd₂ more, Session.fed_append]

/-- The read that brings the end of the head, where that is a line end. -/
theorem readHeadersLoop_end (hf : P.Follows tail tape) (hr : s.At tail tape done r) {T T' y : List Token} {l : Token}
    {keepAlive hasBody : Bool} (hT : HeadTape T) (hdone : T = done ++ T') (hl : HeadEnd keepAlive hasBody l)
    (htape : T ++ l :: y <+: tape) (hd : d.headDone = false) (hb : s.httpParserBuffer = []) {b : List ReadResult}
    (hdel : Delivers mem (.data (wire (T' ++ l :: y)) :: b)) (hy : T' ≠ [] ∨ y = []) :
    ∃ (s' : Session P) (d' : Data),
      s.readHeadersLoop mem (.data (wire (T' ++ l :: y)) :: b) d = ⟨.returned, s', d'.finish keepAlive hasBody⟩ ∧
      d.callAll (feed .data (tails tail) r (splitLines (·.byte) (T' ++ [l]))) = (d'.finish keepAlive hasBody, none) ∧
      Reads .readHeaders s s' ((splitLines (·.byte) (T' ++ [l])).map wire) ∧
      s'.httpParserBuffer = wire y ∧ s'.reads = b ∧ s'.At tail tape (T ++ [l]) none := by
  have hp : done ++ (T' ++ [l]) <+: tape := by
    rw [← List.append_assoc, ← hdone]
    exact List.IsPrefix.trans ⟨y, by simp⟩ htape
  obtain ⟨d', hc, hat, hmore⟩ := feedLines_head (s := { s with reads := b, canWriteError := true }) hf hr
    (by rw [← hdone]; exact hT.inHead) hl hp hd (splitLines_ne_nil (α := Token) (·.byte) (T' ++ [l]))
    (splitLines_flatten (·.byte) (T' ++ [l]))
  have hlines : splitLines id (wire (T' ++ l :: y)) =
      (splitLines (·.byte) (T' ++ [l])).map wire ++ (splitLines (·.byte) y).map wire := by
    rw [splitLines_wire, splitLines_end hT hdone hl.byte hy, List.map_append]
  have hread := Session.fed_reads { s with reads := b, canWriteError := true } .readHeaders
    ((splitLines (·.byte) (T' ++ [l])).map wire)
  refine ⟨{ Session.fed { s with reads := b, canWriteError := true } .readHeaders
      ((splitLines (·.byte) (T' ++ [l])).map wire) with httpParserBuffer := ((splitLines (·.byte) y).map wire).flatten },
    d', ?_, hc, ⟨hread.keepAlive, hread.writes, hread.yields, hread.sent, hread.yielded, hread.trace⟩, ?_, ?_, ?_⟩
  · rw [readHeadersLoop_data hb hdel.1 hdel.2.1, hlines, hmore]
    simp only [Data.finish_headDone, if_true]
  · rw [wire, ← List.map_flatten, splitLines_flatten]
  · exact Session.fed_left _ _ _
  · rw [← List.append_assoc, ← hdone] at hat
    exact hat

theorem readHeaders_eq (hb : s.httpParserBuffer = []) :
    s.readHeaders mem =
      Session.readHeadersLoop mem s.reads { s.log (.entered [] s.reads.head?) with parser := P.init } {} := by
  rw [Session.readHeaders, hb]

/-- If the end of the head is a line end for the read that brings it, `readHeaders` passes on the
head and keeps the rest. -/
theorem readHeaders_head (hf : P.Follows tail tape) {T T' y : List Token} {l : Token} {keepAlive hasBody : Bool}
    (hT : HeadTape T) (hl : HeadEnd keepAlive hasBody l) (htape : T ++ l :: y <+: tape) {a b : List ReadResult}
    {cs : List (List Token)} (hcs : datas a = cs.map wire) (hTcs : T = cs.flatten ++ T')
    (hreads : s.reads = a ++ .data (wire (T' ++ l :: y)) :: b) (hdel : Delivers mem s.reads)
    (hb : s.httpParserBuffer = []) (hy : T' ≠ [] ∨ y = []) :
    ∃ (s' : Session P) (d' : Data), s.readHeaders mem = ⟨.returned, s', d'.finish keepAlive hasBody⟩ ∧
      ({} : Data).callAll (feed .data (tails tail) none (linesOf (cs ++ [T' ++ [l]]))) =
        (d'.finish keepAlive hasBody, none) ∧
      Reads .readHeaders (s.log (.entered [] s.reads.head?)) s' ((linesOf (cs ++ [T' ++ [l]])).map wire) ∧
      s'.httpParserBuffer = wire y ∧ s'.reads = b ∧ s'.At tail tape (T ++ [l]) none := by
  rw [hreads] at hdel
  have hpT : cs.flatten <+: tape := by
    refine List.IsPrefix.trans ?_ htape
    rw [hTcs, List.append_assoc]
    exact List.prefix_append _ _
  obtain ⟨s₁, d₁, hloop, hb₁, hleft₁, hd₁, hc₁, hat₁, hr₁⟩ := readHeadersLoop_inHead hf
    (s := { s.log (.entered [] s.reads.head?) with parser := P.init }) (r := none) (d := {}) hdel hcs
    .init hpT (fun t ht => hT.inHead t (by rw [hTcs]; exact List.mem_append_left _ ht)) rfl hb hreads
  obtain ⟨s₂, d₂, hend, hc₂, hr₂, hb₂, hleft₂, hat₂⟩ := readHeadersLoop_end hf hat₁ hT hTcs hl htape hd₁ hb₁ hdel.right hy
  refine ⟨s₂, d₂, ?_, ?_, ?_, hb₂, hleft₂, hat₂⟩
  · rw [readHeaders_eq hb, ← hend, ← hloop, hreads]
  · rw [linesOf_concat, feed_append, Data.callAll_append hc₁, hc₂]
  · rw [linesOf_concat, List.map_append]
    exact Reads.trans ⟨hr₁.keepAlive, hr₁.writes, hr₁.yields, hr₁.sent, hr₁.yielded, hr₁.trace⟩ hr₂

end Follows

/-! ## Heads -/

theorem skip_inHead (bs : Bytes) : ∀ t ∈ Token.skip bs, Token.InHead t := by
  intro t ht
  obtain ⟨b, -, rfl⟩ := List.mem_map.1 ht
  exact ⟨by simp, by simp, by simp⟩

theorem elem_inHead {k : Kind} (hk : k ≠ .body) (bs : Bytes) : ∀ t ∈ Token.elem k bs, Token.InHead t := by
  intro t ht
  obtain ⟨b, -, rfl⟩ := List.mem_map.1 ht
  exact ⟨by simp, by simpa using hk, by simp⟩

theorem first_inHead {cs : List Callback} (hc : ∀ c ∈ cs, c.InHead) {ts : List Token} (ht : ∀ t ∈ ts, Token.InHead t) :
    ∀ t ∈ Token.first cs ts, Token.InHead t := by
  cases ts with
  | nil => exact ht
  | cons t ts =>
    intro x hx
    rcases List.mem_cons.1 hx with rfl | hx
    · exact ⟨hc, (ht t List.mem_cons_self).2⟩
    · exact ht x (List.mem_cons_of_mem _ hx)

theorem openLines_inHead {pending : List Callback} (hc : ∀ c ∈ pending, c.InHead) (fs : List Field) :
    ∀ t ∈ openLines pending fs, Token.InHead t := by
  induction fs generalizing pending with
  | nil => exact first_inHead hc (skip_inHead _)
  | cons f fs ih =>
    intro t ht
    simp only [openLines, List.mem_append] at ht
    rcases ht with (((ht | ht) | ht) | ht) | ht
    · exact first_inHead hc (elem_inHead (by simp) _) t ht
    · exact skip_inHead _ t ht
    · exact elem_inHead (by simp) _ t ht
    · exact skip_inHead _ t ht
    · refine ih (fun c hc => ?_) t ht
      split at hc
      · rw [List.mem_singleton.1 hc]; simp [Callback.InHead]
      · cases hc

theorem openLines_cr (pending : List Callback) (fs : List Field) :
    ∃ T₀ c, openLines pending fs = T₀ ++ [c] ∧ c.byte = 13 := by
  induction fs generalizing pending with
  | nil => exact ⟨[], _, rfl, rfl⟩
  | cons f fs ih =>
    obtain ⟨T₀, c, h, hc⟩ := ih (if f.value = [] then [.data .headerValue []] else [])
    exact ⟨_, c, by rw [openLines, h, ← List.append_assoc], hc⟩

theorem Head.openTape_head (h : Head) : HeadTape h.openTape := by
  constructor
  · intro t ht
    simp only [Head.openTape, Head.lineTape, List.mem_append] at ht
    rcases ht with (((ht | ht) | ht) | ht) | ht
    · exact first_inHead (by simp [Callback.InHead]) (skip_inHead _) t ht
    · exact skip_inHead _ t ht
    · exact elem_inHead (by simp) _ t ht
    · exact skip_inHead _ t ht
    · exact openLines_inHead (by simp) _ t ht
  · obtain ⟨T₀, c, hT, hc⟩ := openLines_cr [] h.fields
    exact ⟨_, c, by rw [Head.openTape, hT, ← List.append_assoc], hc⟩

theorem headEnd (keepAlive hasBody : Bool) : HeadEnd keepAlive hasBody (lineFeed (headDone keepAlive hasBody)) :=
  ⟨rfl, rfl, rfl, rfl⟩

/-! ## The tape of a head has its bytes -/

@[simp] theorem wire_skip (bs : Bytes) : wire (Token.skip bs) = bs := by
  simp [Token.skip, Function.comp_def]

@[simp] theorem wire_elem (k : Kind) (bs : Bytes) : wire (Token.elem k bs) = bs := by
  simp [Token.elem, Function.comp_def]

@[simp] theorem wire_first (cs : List Callback) (ts : List Token) : wire (Token.first cs ts) = wire ts := by
  cases ts <;> rfl

theorem wire_openLines (pending : List Callback) (fs : List Field) :
    wire (openLines pending fs) = fs.flatMap Field.bytes ++ [13] := by
  induction fs generalizing pending with
  | nil => simp [openLines]
  | cons f fs ih => simp [openLines, ih, Field.bytes]

theorem wire_tape (h : Head) (done : List Callback) : wire (h.tape done) = h.bytes := by
  simp [Head.tape, Head.openTape, Head.lineTape, wire_openLines, lineFeed, Head.bytes, crlf]

end Getodac
