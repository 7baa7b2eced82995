import Getodac.Cuts
import Getodac.Trace
/-!
# Where `readHeaders` stops

`readHeaders` looks for a line end in what the last read brought. If a read ends
between the CR and the LF of the empty line, the LF is not a line end for the
next one, and what comes with it in the same read is passed on as part of the
head: the body, before anyone could ask for it.
-/

namespace Getodac

open Tape

variable {P : HttpParser} {tail : Bool} {mem : Memory} {s : Session P} {d : Data}

/-! ## What is passed on -/

theorem execute_trace (s : Session P) (phase : Phase) (d : Data) (bs : Bytes) :
    (s.execute phase d bs).1.session.trace = s.trace ++ [.executed phase bs] := by
  unfold Session.execute
  dsimp only
  split
  · rfl
  · split <;> rfl

/-- The first line is passed on. -/
theorem feedLines_first (hd : d.headDone = false) (l : Bytes) (ls : List Bytes) :
    s.trace ++ [.executed .readHeaders l] <+: (s.feedLines d (l :: ls)).session.trace := by
  have hex := execute_trace s .readHeaders d l
  unfold Session.feedLines
  rw [hd, if_neg (by simp)]
  split
  · rename_i s' d' parsed he
    rw [he] at hex
    split
    · exact hex ▸ List.prefix_refl _
    · exact hex ▸ (feedLines_extends s' d' ls).isPrefix
  · rename_i did n he
    rw [he] at hex
    exact hex ▸ List.prefix_refl _

theorem execs_prefix (phase : Phase) {tr tr' : List Event} (h : tr <+: tr') : execs phase tr <+: execs phase tr' := by
  obtain ⟨x, rfl⟩ := h
  rw [execs, execs, List.filterMap_append]
  exact List.prefix_append _ _

theorem execs_append (phase : Phase) (tr tr' : List Event) : execs phase (tr ++ tr') = execs phase tr ++ execs phase tr' := by
  simp only [execs, List.filterMap_append]

theorem Reads.execs {phase : Phase} {s s' : Session P} {bss : List Bytes} (h : Reads phase s s' bss) :
    Getodac.execs phase s'.trace = Getodac.execs phase s.trace ++ bss := by
  obtain ⟨tr, htr, he, -⟩ := h.trace
  rw [htr, execs_append, he]

/-! ## The end of the head -/

/-- `readHeaders` returns, and has passed nothing to the parser that is not part of the head. -/
def StopsAtHead (h : Head) (mem : Memory) (s : Session P) : Prop :=
  (s.readHeaders mem).ended = .returned ∧
  ∃ calls, execs .readHeaders (s.readHeaders mem).session.trace = execs .readHeaders s.trace ++ calls ∧
    calls.flatten <+: h.bytes

/-- A read ends before the last byte of the head, and the next one brings more than that byte. -/
def CutBeforeEnd (h : Head) (reads : List Bytes) : Prop :=
  ∃ pre c post, reads = pre ++ c :: post ∧ pre.flatten.length + 1 = h.bytes.length ∧ 1 < c.length

/-- The byte at position `n` comes with one of the reads only. -/
theorem read_unique {xs xs' ys ys' : List Bytes} {x y : Bytes} {n : Nat} (h : xs ++ x :: xs' = ys ++ y :: ys')
    (hx : xs.flatten.length ≤ n) (hx' : n < xs.flatten.length + x.length) (hy : ys.flatten.length ≤ n)
    (hy' : n < ys.flatten.length + y.length) : xs = ys ∧ x = y := by
  induction xs generalizing ys n with
  | nil =>
    cases ys with
    | nil => exact ⟨rfl, (List.cons.inj h).1⟩
    | cons z ys =>
      obtain ⟨rfl, -⟩ := List.cons.inj h
      simp at hx' hy
      omega
  | cons z xs ih =>
    cases ys with
    | nil =>
      obtain ⟨rfl, -⟩ := List.cons.inj h
      simp at hy' hx
      omega
    | cons w ys =>
      obtain ⟨rfl, h'⟩ := List.cons.inj h
      simp only [List.flatten_cons, List.length_append] at hx hx' hy hy'
      obtain ⟨rfl, rfl⟩ := ih (n := n - z.length) h' (by omega) (by omega) (by omega) (by omega)
      exact ⟨rfl, rfl⟩

/-- An LF at the start of a read does not end a line. -/
theorem splitLines_lf {l : Token} {y : List Token} (hl : l.byte = 10) (hy : y ≠ []) :
    ∃ x ls, x ≠ [] ∧ x <+: y ∧ splitLines (·.byte) (l :: y) = (l :: x) :: ls := by
  obtain ⟨t, y, rfl⟩ := List.exists_cons_of_ne_nil hy
  obtain ⟨x, ls, hx, hlx⟩ := splitLines_cons (fun t : Token => t.byte) (a := l) (b := t) y
    (by rw [hl]; simp)
  refine ⟨x, ls, splitLines_ne_nil _ _ x (by rw [hx]; simp), ?_, hlx⟩
  have hflat := splitLines_flatten (fun t : Token => t.byte) (t :: y)
  rw [hx] at hflat
  exact ⟨ls.flatten, hflat⟩

variable {tape done : List Token} {r : Run UInt8 Kind}

/-- The LF is passed on with what follows it. -/
theorem readHeadersLoop_overrun {l : Token} {y : List Token} (hl : l.byte = 10) (hy : y ≠ []) (hd : d.headDone = false)
    (hb : s.httpParserBuffer = []) {b : List ReadResult} (hdel : Delivers mem (.data (wire (l :: y)) :: b)) :
    ∃ x, x ≠ [] ∧ s.trace ++ [.executed .readHeaders (wire (l :: x))] <+:
      (s.readHeadersLoop mem (.data (wire (l :: y)) :: b) d).session.trace := by
  obtain ⟨x, ls, hx, -, hlines⟩ := splitLines_lf hl hy
  refine ⟨x, hx, ?_⟩
  have hfirst := feedLines_first (s := { s with reads := b, canWriteError := true }) hd (wire (l :: x)) (ls.map wire)
  have hleft := feedLines_left { s with reads := b, canWriteError := true } d (wire (l :: x) :: ls.map wire)
  rw [readHeadersLoop_data hb hdel.1 hdel.2.1, splitLines_wire, hlines, List.map_cons]
  refine hfirst.trans ?_
  split
  · rename_i s' d' he
    rw [he] at hleft ⊢
    split
    · exact List.prefix_refl _
    · exact readHeadersLoop_isPrefix mem s' d' hleft
  · exact List.prefix_refl _

/-- Callbacks do not touch the registered body callback. -/
theorem callAll_callback (d : Data) (cs : List Callback) : (d.callAll cs).1.req.callback = d.req.callback := by
  have hone : ∀ (d : Data) (c : Callback), (d.call c).1.req.callback = d.req.callback := by
    intro d c
    cases c with
    | data k piece =>
      cases k with
      | body =>
        simp only [Data.call, Request.appendBody]
        split <;> simp [*]
      | url | headerField | headerValue => rfl
    | messageBegin | headersComplete | messageComplete => rfl
  induction cs generalizing d with
  | nil => rfl
  | cons c cs ih =>
    have h := hone d c
    unfold Data.callAll
    split
    · rename_i d' he
      rw [he] at h
      rw [ih d', h]
    · rename_i d' e he
      rw [he] at h
      exact h

/-- The response to a body that nobody has asked for. -/
def unexpectedBody : Exc := .response { statusCode := 400, body := bytes "unexpected body" }

theorem call_body_none {d : Data} (h : d.req.callback = none) (piece : Bytes) :
    d.call (.data .body piece) = (d, some unexpectedBody) := by
  simp [Data.call, Request.appendBody, h, unexpectedBody]

/-- If a body follows, its first byte ends the request. -/
theorem readHeadersLoop_unexpected (hf : P.Follows tail tape) (hr : s.At tail tape done r) {l t : Token} {y : List Token}
    {keepAlive hasBody : Bool} (hin : ∀ t ∈ done, Token.InHead t) (hl : HeadEnd keepAlive hasBody l)
    (ht : t.run = some .body) (htb : t.before = []) (hp : done ++ l :: t :: y <+: tape) (hd : d.headDone = false)
    (hcb : d.req.callback = none) (hb : s.httpParserBuffer = []) {b : List ReadResult}
    (hdel : Delivers mem (.data (wire (l :: t :: y)) :: b)) :
    (s.readHeadersLoop mem (.data (wire (l :: t :: y)) :: b) d).ended = .threw unexpectedBody := by
  obtain ⟨x, ls, hx, hxy, hlines⟩ := splitLines_lf (y := t :: y) hl.byte (by simp)
  obtain ⟨x, rfl⟩ : ∃ x', x = t :: x' := by
    obtain ⟨z, hz⟩ := hxy
    cases x with
    | nil => exact absurd rfl hx
    | cons t' x => exact ⟨x, by rw [(List.cons.inj hz).1]⟩
  have hp' : done ++ l :: t :: x <+: tape := by
    obtain ⟨z, hz⟩ := hxy
    refine List.IsPrefix.trans ⟨z, ?_⟩ hp
    rw [← hz]; simp
  have hmk : ∀ (k : Kind) (bs : Bytes), k ≠ .body → (Callback.data k bs).InHead := fun _ _ h => h
  obtain ⟨d₁, hc₁, -⟩ := Data.callAll_inHead (flush_forall hmk (hr.run_forall hmk hin)) hd
  obtain ⟨bs, cs, hbody⟩ := calls_start Callback.data ht htb x
  have hcb' : (d₁.finish keepAlive hasBody).req.callback = none := by
    have h := callAll_callback d (flush .data r)
    rw [hc₁, hcb] at h
    exact h
  have hcalls : d.callAll (calls .data r (l :: t :: x)) = (d₁.finish keepAlive hasBody, some (unexpectedBody, cs.length)) := by
    have hskip : calls Callback.data r (l :: t :: x) = _ := calls_skip r [] hl.run (t :: x)
    rw [hskip, hl.before, hl.after, List.append_nil, List.append_assoc]
    have hflush : calls Callback.data r [] = flush .data r := rfl
    rw [hflush, Data.callAll_append hc₁, Data.callAll_append (Data.callAll_headDone d₁ keepAlive hasBody), hbody,
      Data.callAll, call_body_none hcb']
  have hcalls_eq := (hf s.parser done r (l :: t :: x) hr (by simp) hp').1
  rw [readHeadersLoop_data hb hdel.1 hdel.2.1, splitLines_wire, hlines, List.map_cons, Session.feedLines, hd,
    if_neg (by simp)]
  have hex : (Session.execute { s with reads := b, canWriteError := true } .readHeaders d (wire (l :: t :: x))).1.ended =
      .threw unexpectedBody := by
    unfold Session.execute
    dsimp only
    rw [hcalls_eq, hcalls]
  revert hex
  generalize Session.execute { s with reads := b, canWriteError := true } .readHeaders d (wire (l :: t :: x)) = did
  rintro hex
  obtain ⟨⟨ended, s', d'⟩, n⟩ := did
  dsimp only at hex
  subst hex
  rfl

/-- The read that brings the end of the head decides. -/
theorem cutBeforeEnd_iff {h : Head} {a b : List ReadResult} {cs : List (List Token)} {T' y : List Token} {done : List Callback}
    (hcs : datas a = cs.map wire) (hT : h.openTape = cs.flatten ++ T') :
    CutBeforeEnd h (datas (a ++ .data (wire (T' ++ lineFeed done :: y)) :: b)) ↔ T' = [] ∧ y ≠ [] := by
  have hlen : h.bytes.length = (datas a).flatten.length + T'.length + 1 := by
    have hw := congrArg List.length (wire_tape h done)
    rw [List.length_map, Head.tape, hT] at hw
    rw [hcs, ← List.map_flatten, List.length_map, ← hw]
    simp only [List.length_append, List.length_singleton]
  have hdatas : datas (a ++ .data (wire (T' ++ lineFeed done :: y)) :: b) =
      datas a ++ wire (T' ++ lineFeed done :: y) :: datas b := by simp
  rw [hdatas]
  constructor
  · rintro ⟨pre, c, post, hsplit, hpre, hc⟩
    obtain ⟨rfl, rfl⟩ := read_unique (n := pre.flatten.length) hsplit (by omega)
      (by simp only [List.length_map, List.length_append, List.length_cons]; omega) (by omega) (by omega)
    have h0 : T' = [] := List.length_eq_zero_iff.1 (by omega)
    subst h0
    refine ⟨rfl, ?_⟩
    rintro rfl
    simp at hc
  · rintro ⟨rfl, hy⟩
    refine ⟨datas a, _, datas b, rfl, by simpa using hlen.symm, ?_⟩
    have := List.length_pos_iff.2 hy
    simp
    omega

theorem execs_entered (s : Session P) (c : Bytes) (answer : Option ReadResult) (phase : Phase) :
    execs phase (s.log (.entered c answer)).trace = execs phase s.trace := by
  simp [Session.log, execs]

/-- The first byte of a body of known length belongs to it. -/
theorem identity_tape {data : Bytes} (ne : data ≠ []) :
    ∃ t ts, (Body.identity data ne).tape = t :: ts ∧ t.run = some .body ∧ t.before = [] := by
  cases data with
  | nil => exact absurd rfl ne
  | cons b bs =>
    cases bs with
    | nil => exact ⟨_, _, rfl, rfl, rfl⟩
    | cons c bs => exact ⟨_, _, rfl, rfl, rfl⟩

/-- However a request with a body is cut into reads, `readHeaders` stops at the end of its head exactly if
no read ends between the CR and the LF of the empty line while the next one brings more than
the LF. Otherwise a body of known length is answered with 400. -/
theorem stops_at_head_iff (h : Head) (keepAlive : Bool) (body : Body)
    (hf : P.Follows tail (h.tape (headDone keepAlive true) ++ body.tape)) (hdel : Delivers mem s.reads)
    (hbytes : (datas s.reads).flatten = h.bytes ++ wire body.tape) (hb : s.httpParserBuffer = []) :
    (StopsAtHead h mem s ↔ ¬ CutBeforeEnd h (datas s.reads)) ∧
    ∀ data ne, body = .identity data ne → CutBeforeEnd h (datas s.reads) →
      (s.readHeaders mem).ended = .threw unexpectedBody := by
  have hT := h.openTape_head
  have hl := headEnd keepAlive true
  have htape : h.tape (headDone keepAlive true) ++ body.tape =
      h.openTape ++ lineFeed (headDone keepAlive true) :: body.tape := by simp [Head.tape]
  rw [← wire_tape h (headDone keepAlive true), ← List.map_append, htape] at hbytes
  rw [htape] at hf
  obtain ⟨a, cs, T', y, R', b, hreads, hcs, hTcs, hR, -⟩ := exists_end_read hbytes
  have hp : h.openTape ++ lineFeed (headDone keepAlive true) :: y <+:
      h.openTape ++ lineFeed (headDone keepAlive true) :: body.tape := ⟨R', by rw [hR]; simp⟩
  rw [hreads, cutBeforeEnd_iff hcs hTcs]
  by_cases hy : T' ≠ [] ∨ y = []
  · have hgood : ¬ (T' = [] ∧ y ≠ []) := by
      rintro ⟨h₁, h₂⟩
      exact hy.elim (· h₁) (h₂ ·)
    refine ⟨iff_of_true ?_ hgood, fun _ _ _ hbad => absurd hbad hgood⟩
    obtain ⟨s', d', hrun, -, hrd, -⟩ := readHeaders_head hf hT hl hp hcs hTcs hreads hdel hb hy
    refine ⟨by rw [hrun], _, by rw [hrun, hrd.execs, execs_entered], ?_⟩
    rw [← List.map_flatten, linesOf_flatten, ← wire_tape h (headDone keepAlive true), Head.tape, hTcs]
    simp
  · obtain ⟨rfl, hy'⟩ : T' = [] ∧ y ≠ [] := by
      rw [not_or, not_not] at hy
      exact hy
    rw [List.append_nil] at hTcs
    rw [hreads] at hdel
    -- the reads before bring all of the head but its last byte
    have hpT : cs.flatten <+: h.openTape ++ lineFeed (headDone keepAlive true) :: body.tape := by
      rw [← hTcs]; exact List.prefix_append _ _
    obtain ⟨s₁, d₁, hloop, hb₁, -, hd₁, hc₁, hat₁, hr₁⟩ := readHeadersLoop_inHead hf
      (s := { s.log (.entered [] s.reads.head?) with parser := P.init }) (r := none) (d := {}) hdel hcs
      .init hpT (fun t ht => hT.inHead t (by rw [hTcs]; exact ht)) rfl hb hreads
    have hrun : s.readHeaders mem =
        s₁.readHeadersLoop mem (.data (wire (lineFeed (headDone keepAlive true) :: y)) :: b) d₁ := by
      rw [readHeaders_eq hb, ← List.nil_append (lineFeed _ :: y), ← hloop, hreads]
    refine ⟨iff_of_false ?_ (fun hn => hn ⟨rfl, hy'⟩), fun data ne hbody _ => ?_⟩
    · rintro ⟨-, calls, hcalls, hpre⟩
      obtain ⟨x, hx, htr⟩ := readHeadersLoop_overrun hl.byte hy' hd₁ hb₁ hdel.right
      have hex := execs_prefix .readHeaders htr
      rw [← hrun, hcalls, execs_append, hr₁.execs] at hex
      change execs .readHeaders (s.log (.entered [] s.reads.head?)).trace ++ _ ++ _ <+: _ at hex
      rw [execs_entered, List.append_assoc, List.prefix_append_right_inj] at hex
      obtain ⟨z, hz⟩ := hex
      have hlen := hpre.length_le
      rw [← hz, ← wire_tape h (headDone keepAlive true), Head.tape, hTcs] at hlen
      simp only [List.flatten_append, ← List.map_flatten, linesOf_flatten, List.length_append, List.length_map] at hlen
      simp [execs] at hlen
      exact hx (List.length_eq_zero_iff.1 (by omega))
    · obtain ⟨t, ts, hbt, htrun, htbefore⟩ := identity_tape ne
      obtain ⟨t', y, rfl⟩ := List.exists_cons_of_ne_nil hy'
      rw [hbody, hbt, List.cons_append] at hR
      obtain ⟨rfl, -⟩ := List.cons.inj hR
      have hcb₁ := callAll_callback {} (feed .data (tails tail) none (linesOf cs))
      rw [hc₁] at hcb₁
      rw [hrun]
      refine readHeadersLoop_unexpected hf hat₁ ?_ hl htrun htbefore ?_ hd₁ hcb₁ hb₁ hdel.right
      · exact fun t ht => hT.inHead t (by rw [hTcs]; exact ht)
      · rw [List.nil_append, ← hTcs]; exact hp

/-! ## A request with a body of three bytes -/

def contentLength : Field :=
  { host with
    name := bytes "Content-Length"
    value := bytes "3"
    name_ne := by decide
    name_ok := by decide +kernel
    name_colon := by decide
    value_ok := by decide +kernel
    value_start := by decide +kernel }

def post : Head where
  method := bytes "POST"
  target := bytes "/"
  fields := [contentLength]
  method_ne := by decide
  method_ok := by decide +kernel
  method_word := by decide
  target_ne := by decide
  target_ok := by decide +kernel
  target_word := by decide

def abc : Body := .identity (bytes "abc") (by decide)

def postParser : HttpParser := replay false [post.tape (headDone true true) ++ abc.tape]

theorem stops_at_head_post :
    StopsAtHead post plainMemory ({ reads := [.data (post.bytes ++ bytes "abc")] } : Session postParser) := by
  have hf : postParser.Follows false (post.tape (headDone true true) ++ abc.tape) := replay_follows _ _ _
  refine (stops_at_head_iff post true abc hf ?_ ?_ rfl).1.2 ?_
  · exact ⟨by decide, by decide, trivial⟩
  · decide
  · rintro ⟨pre, c, post', hsplit, hlen, -⟩
    cases pre with
    | nil => exact absurd hlen (by decide)
    | cons x pre => simp at hsplit

/-- The LF of the empty line comes with the body. -/
theorem lf_with_body :
    let s : Session postParser := { reads := [.data post.bytes.dropLast, .data (10 :: bytes "abc")] }
    execs .readHeaders (s.readHeaders plainMemory).session.trace =
      [bytes "POST / HTTP/1.1\r\n", bytes "Content-Length: 3\r\n", [13], 10 :: bytes "abc"] ∧
    (s.readHeaders plainMemory).ended = .threw unexpectedBody ∧ ¬ StopsAtHead post plainMemory s := by
  exact ⟨by decide, by decide, fun h => absurd h.1 (by decide)⟩

end Getodac
