import Getodac.Message
/-!
# What `stream >> req` reads

`read` passes on what `readHeaders` kept, and then one read after the other, each
in one call. A call that goes beyond the end of the message begins the request
again, so `read` returns at the first call that ends where some message ends.
-/

namespace Getodac

open Tape

variable {P : HttpParser} {mem : Memory} {tail : Bool} {tape done : List Token} {r : Run UInt8 Kind}
  {s : Session P} {d : Data}

/-! ## `read` -/

theorem readLoop_data {bs : Bytes} {rs : List ReadResult} (hb : s.httpParserBuffer = []) (hne : bs ≠ [])
    (hfit : bs.length ≤ (mem.shared rs.length).length) :
    s.readLoop mem (.data bs :: rs) d =
      match Session.execute { s with reads := rs } .read d bs with
      | (⟨.returned, s', d'⟩, parsed) =>
        if d'.req.state = .Completed then ⟨.returned, { s' with httpParserBuffer := [] }, d'⟩
        else Session.readLoop mem rs { s' with httpParserBuffer := bs.drop parsed } d'
      | (did, _) => did := by
  obtain ⟨hpos, hfits⟩ := fits_fresh hne hfit
  have hloop := readLoop_passes (s := s) (d := d) (by rw [hb]; exact hfits) (by rw [hb]; exact passes_self hpos hfits)
  have hnil : s.httpParserBuffer ++ bs = bs := by rw [hb, List.nil_append]
  rwa [hnil] at hloop

theorem readLoop_again {rs : List ReadResult} (hb : s.httpParserBuffer = []) :
    s.readLoop mem (.again none :: rs) d =
      Session.readLoop mem rs { Session.log { s with reads := rs } (.suspended .read []) with yielded := none } d := by
  rw [Session.readLoop]
  simp only [hb]

/-- A call of those up to the end of a message completes the request if it is the last of them. -/
theorem UpToEnd.call {R c : List Token} {ms : List Message} {cs : List (List Token)} {d' : Data}
    (hup : UpToEnd R ms (c :: cs)) (hR : Rest R) (hd : d.req.state ≠ .Completed) (hs : d.Silent)
    (hcalls : d.callAll (calls .data r c) = (d', none)) :
    (cs = [] ∧ d'.req.state = .Completed) ∨
    (cs ≠ [] ∧ d'.req.state ≠ .Completed ∧ ∃ R₂ ms₂, Rest R₂ ∧ UpToEnd R₂ ms₂ cs) := by
  have hflat : c ++ cs.flatten = R ++ tapes ms := hup.flatten
  rcases segment_state hR hflat hd hs hcalls with ⟨hd', ms₂, hms₂, hend⟩ | ⟨hd', R₂, ms₂, hR₂, hms₂, hrest⟩
  · refine .inl ⟨?_, hd'⟩
    by_contra hne
    exact hup.first [c] cs ms₂ rfl (by simp) hne hms₂ hend
  · have hne : cs ≠ [] := by
      rintro rfl
      exact hR₂.ne_nil (List.append_eq_nil_iff.1 hrest.symm).1
    refine .inr ⟨hne, hd', R₂, ms₂, hR₂, hne, hrest, fun x y ms' hxy hx hy hms' => ?_⟩
    exact hup.first (c :: x) y ms' (by rw [hxy, List.cons_append]) (by simp) hy (hms'.trans hms₂)

/-- `read` goes on up to the first read that ends where a message ends. -/
theorem readLoop_upToEnd (hf : P.Follows tail tape) {a b : List ReadResult} {cs : List (List Token)} {c R : List Token}
    {ms : List Message} (hdel : Delivers mem (a ++ .data (wire c) :: b)) (hcs : datas a = cs.map wire) (hR : Rest R)
    (hup : UpToEnd R ms (cs ++ [c])) (hr : s.At tail tape done r) (hp : done ++ (cs ++ [c]).flatten <+: tape)
    (hd : d.req.state ≠ .Completed) (hs : d.Silent) (hb : s.httpParserBuffer = []) :
    ∃ (s' : Session P) (d' : Data), s.readLoop mem (a ++ .data (wire c) :: b) d = ⟨.returned, s', d'⟩ ∧
      d.callAll (feed .data (tails tail) r (cs ++ [c])) = (d', none) ∧ Reads .read s s' ((cs ++ [c]).map wire) ∧
      s'.httpParserBuffer = [] ∧ s'.reads = b := by
  induction a generalizing s done r d cs R ms with
  | nil =>
    obtain rfl : cs = [] := by simpa using hcs.symm
    obtain ⟨hne, hfit, hdel⟩ := hdel
    have hc : c ≠ [] := by simpa using hne
    simp only [List.nil_append, List.flatten_singleton] at hp
    obtain ⟨d', hcalls, -⟩ := callAll_silent hs (calls .data r c)
    have hex := execute_follows (s := { s with reads := b }) hf hr hc hp .read hcalls
    obtain ⟨-, hstate⟩ | ⟨hnil, -⟩ := hup.call hR hd hs hcalls
    case inr => exact absurd rfl hnil
    refine ⟨{ Session.fed { s with reads := b } .read [wire c] with httpParserBuffer := [] }, d', ?_, ?_, ?_, rfl, ?_⟩
    · rw [List.nil_append, readLoop_data hb hne hfit, hex]
      simp only [hstate, if_true]
    · simpa [feed] using hcalls
    · have h₁ := Session.fed_reads { s with reads := b } .read [wire c]
      exact ⟨h₁.keepAlive, h₁.writes, h₁.yields, h₁.sent, h₁.yielded, h₁.trace⟩
    · exact Session.fed_left _ _ _
  | cons x a ih =>
    rw [List.cons_append] at hdel
    cases x with
    | failed ec => exact hdel.elim
    | again resume =>
      obtain ⟨rfl, hdel⟩ := hdel
      obtain ⟨s', d', hloop, hcalls, hreads, hb', hleft⟩ :=
        ih (s := { Session.log { s with reads := a ++ .data (wire c) :: b } (.suspended .read []) with yielded := none })
          hdel hcs hR hup hr hp hd hs hb
      refine ⟨s', d', by rw [List.cons_append, readLoop_again hb, hloop], hcalls, ?_, hb', hleft⟩
      refine Reads.trans (a := []) ?_ hreads
      exact ⟨rfl, rfl, rfl, rfl, fun _ => rfl, [.suspended .read []], rfl, rfl,
        fun e he => .inr ⟨[], List.mem_singleton.1 he⟩⟩
    | data bs =>
      obtain ⟨hne, hfit, hdel⟩ := hdel
      cases cs with
      | nil => cases hcs
      | cons c₀ cs =>
        obtain ⟨rfl, hcs'⟩ : bs = wire c₀ ∧ datas a = cs.map wire := List.cons.inj hcs
        have hc₀ : c₀ ≠ [] := by simpa using hne
        have hp' : done ++ c₀ ++ (cs ++ [c]).flatten <+: tape := by simpa using hp
        have hp₀ : done ++ c₀ <+: tape := (List.prefix_append _ _).trans hp'
        obtain ⟨d₁, hcalls, hs₁⟩ := callAll_silent hs (calls .data r c₀)
        have hex := execute_follows (s := { s with reads := a ++ .data (wire c) :: b }) hf hr hc₀ hp₀ .read hcalls
        obtain ⟨hnil, -⟩ | ⟨-, hd₁, R₂, ms₂, hR₂, hup₂⟩ := hup.call hR hd hs hcalls
        case inl => exact absurd hnil (by simp)
        obtain ⟨s', d', hloop, hcalls', hreads, hb', hleft⟩ :=
          ih (s := { Session.fed { s with reads := a ++ .data (wire c) :: b } .read [wire c₀] with httpParserBuffer := [] })
            hdel hcs' hR₂ hup₂ (.call c₀ hr hc₀ hp₀) hp' hd₁ hs₁ rfl
        refine ⟨s', d', ?_, ?_, ?_, hb', hleft⟩
        · have hdrop : (wire c₀).drop c₀.length = [] := by simp
          rw [List.cons_append, readLoop_data hb hne hfit, hex]
          simp only [hd₁, if_false, hdrop]
          exact hloop
        · rw [List.cons_append, feed, Data.callAll_append hcalls, hcalls']
        · have h₁ := Session.fed_reads { s with reads := a ++ .data (wire c) :: b } .read [wire c₀]
          refine Reads.trans (a := [wire c₀]) ?_ hreads
          exact ⟨h₁.keepAlive, h₁.writes, h₁.yields, h₁.sent, h₁.yielded, h₁.trace⟩

theorem datas_split {rs : List ReadResult} (x : List Bytes) (bs : Bytes) (z : List Bytes) (h : datas rs = x ++ bs :: z) :
    ∃ a b, rs = a ++ .data bs :: b ∧ datas a = x ∧ datas b = z := by
  obtain ⟨a, b', rfl, ha, hb'⟩ := List.filterMap_eq_append_iff.1 h
  obtain ⟨a', e, b, rfl, ha', he, hb⟩ := List.filterMap_eq_cons_iff.1 hb'
  cases e with
  | data bs' =>
    cases he
    refine ⟨a ++ a', b, by simp, ?_, hb⟩
    rw [datas_append, show datas a = x from ha, show datas a' = [] from List.filterMap_eq_nil_iff.2 ha', List.append_nil]
  | again resume => cases he
  | failed ec => cases he

theorem read_fresh {req : Request} {rs : List ReadResult} (hb : s.httpParserBuffer = []) (hleft : s.reads = rs)
    (hstate : req.state ≠ .Completed) :
    s.read mem req = Session.readLoop mem rs { s with canWriteError := true } { req := req } := by
  obtain ⟨parser, buffer, canWriteError, keepAlive, sessionTimeout, yielded, reads, writes, yields, sent, trace⟩ := s
  cases hb
  cases hleft
  simp [Session.read, hstate]

theorem read_carried {req : Request} {s' : Session P} {bs : Bytes} (hb : s.httpParserBuffer = bs) (hne : bs ≠ [])
    (hstate : req.state ≠ .Completed)
    (hex : Session.execute { s with canWriteError := true } .read { req := req } bs = (⟨.returned, s', d⟩, bs.length))
    (hb' : s'.httpParserBuffer = bs) :
    s.read mem req = if d.req.state = .Completed then ⟨.returned, { s' with httpParserBuffer := [] }, d⟩
      else Session.readLoop mem s'.reads { s' with httpParserBuffer := [] } d := by
  subst hb
  rw [Session.read, if_neg hstate]
  simp only [hne, if_false, hex, hb', List.drop_length]

/-- What `readHeaders` kept is passed on first. -/
theorem read_kept (hf : P.Follows tail tape) (hr : s.At tail tape done none) {y : List Token} (hy : y ≠ [])
    (hp : done ++ y <+: tape) (hb : s.httpParserBuffer = wire y) {rs : List ReadResult} (hleft : s.reads = rs)
    {req : Request} (hstate : req.state ≠ .Completed)
    (hcalls : ({ req := req } : Data).callAll (calls .data none y) = (d, none)) :
    s.read mem req = if d.req.state = .Completed then
        ⟨.returned, { Session.fed { s with canWriteError := true } .read [wire y] with httpParserBuffer := [] }, d⟩
      else Session.readLoop mem rs
        { Session.fed { s with canWriteError := true } .read [wire y] with httpParserBuffer := [] } d := by
  subst hleft
  have hex := execute_follows (s := { s with canWriteError := true }) hf hr hy hp .read hcalls
  rw [← List.length_map (f := (·.byte))] at hex
  exact read_carried hb (by simpa using hy) hstate hex hb

/-- The segments that `read` finds, what `readHeaders` kept first. -/
def bodySegments (y : List Token) (cs : List (List Token)) : List (List Token) := if y = [] then cs else y :: cs

theorem bodySegments_flatten (y : List Token) (cs : List (List Token)) : (bodySegments y cs).flatten = y ++ cs.flatten := by
  unfold bodySegments
  split
  · rename_i h
    rw [h, List.nil_append]
  · rfl

variable (tail tape) in
/-- `read` uses the segments up to the first that ends where a message ends, whatever is in memory. -/
theorem exists_read {y R : List Token} {ms : List Message} {b : List ReadResult} {cs : List (List Token)}
    (hb : datas b = cs.map wire) (hR : Rest R) (hflat : y ++ cs.flatten = R ++ tapes ms) :
    ∃ L cs₂ ms₁ ms₂ b₂, bodySegments y cs = L ++ cs₂ ∧ ms = ms₁ ++ ms₂ ∧ UpToEnd R ms₁ L ∧ cs₂.flatten = tapes ms₂ ∧
      datas b₂ = cs₂.map wire ∧ cs₂ <:+ cs ∧ (b = b₂ ∨ ∃ a bs, b = a ++ .data bs :: b₂) ∧
      ∀ (mem : Memory) (done : List Token) (s : Session P) (req : Request), P.Follows tail tape →
        s.At tail tape done none → done ++ (R ++ tapes ms) <+: tape → Delivers mem b → s.httpParserBuffer = wire y →
        s.reads = b → req.state ≠ .Completed → ({ req := req } : Data).Silent →
        ∃ (s' : Session P) (d' : Data), s.read mem req = ⟨.returned, s', d'⟩ ∧
          ({ req := req } : Data).callAll (feed .data (tails tail) none L) = (d', none) ∧
          Reads .read s s' (L.map wire) ∧ s'.httpParserBuffer = [] ∧ s'.reads = b₂ := by
  rw [← bodySegments_flatten] at hflat
  obtain ⟨L, cs₂, ms₁, ms₂, hL, rfl, hup, h₂⟩ := exists_upToEnd hR hflat
  have hpre : ∀ {done : List Token}, done ++ (R ++ tapes (ms₁ ++ ms₂)) <+: tape → done ++ L.flatten <+: tape := by
    intro done hp
    refine List.IsPrefix.trans ⟨tapes ms₂, ?_⟩ hp
    rw [hup.flatten, tapes_append]
    simp
  by_cases hy : y = []
  · subst hy
    rw [bodySegments, if_pos rfl] at hL
    obtain ⟨L₀, c, rfl⟩ : ∃ L₀ c, L = L₀ ++ [c] := by
      rcases List.eq_nil_or_concat L with h | ⟨L₀, c, h⟩
      · exact absurd h hup.ne_nil
      · exact ⟨L₀, c, by rw [h, List.concat_eq_append]⟩
    subst hL
    obtain ⟨a, b₂, rfl, ha, hb₂⟩ := datas_split (L₀.map wire) (wire c) (cs₂.map wire) (by simpa using hb)
    refine ⟨L₀ ++ [c], cs₂, ms₁, ms₂, b₂, by simp [bodySegments], rfl, hup, h₂, hb₂, List.suffix_append _ _,
      .inr ⟨a, wire c, rfl⟩, ?_⟩
    intro mem done s req hf hr hp hdel hbuf hreads hstate hs
    obtain ⟨s', d', hloop, hcalls, hrd, hb', hleft⟩ := readLoop_upToEnd (s := { s with canWriteError := true }) hf hdel ha
      hR hup hr (hpre hp) hstate hs hbuf
    refine ⟨s', d', ?_, hcalls, ⟨hrd.keepAlive, hrd.writes, hrd.yields, hrd.sent, hrd.yielded, hrd.trace⟩, hb', hleft⟩
    rw [read_fresh hbuf hreads hstate, hloop]
  · rw [bodySegments, if_neg hy] at hL
    cases L with
    | nil => exact absurd rfl hup.ne_nil
    | cons y' L =>
      obtain ⟨rfl, rfl⟩ := List.cons.inj hL
      have hp' : ∀ {done : List Token}, done ++ (R ++ tapes (ms₁ ++ ms₂)) <+: tape → done ++ y ++ L.flatten <+: tape := by
        intro done hp
        simpa using hpre hp
      have hkept : ∀ s : Session P, Reads .read s
          { Session.fed { s with canWriteError := true } .read [wire y] with httpParserBuffer := [] } [wire y] := by
        intro s
        have h₁ := Session.fed_reads { s with canWriteError := true } .read [wire y]
        exact ⟨h₁.keepAlive, h₁.writes, h₁.yields, h₁.sent, h₁.yielded, h₁.trace⟩
      rcases List.eq_nil_or_concat L with rfl | ⟨L₀, c, rfl⟩
      · refine ⟨[y], cs₂, ms₁, ms₂, b, by simp [bodySegments, hy], rfl, hup, h₂, hb, List.suffix_refl _, .inl rfl, ?_⟩
        intro mem done s req hf hr hp hdel hbuf hreads hstate hs
        obtain ⟨d₁, hcalls, -⟩ := callAll_silent hs (calls .data none y)
        obtain ⟨-, hstate₁⟩ | ⟨hnil, -⟩ := hup.call hR hstate hs hcalls
        case inr => exact absurd rfl hnil
        refine ⟨_, d₁, ?_, by simpa [feed] using hcalls, hkept s, rfl, hreads⟩
        rw [read_kept hf hr hy (by simpa using hp' hp) hbuf hreads hstate hcalls, if_pos hstate₁]
      · rw [List.concat_eq_append] at hup hp' hb ⊢
        obtain ⟨a, b₂, rfl, ha, hb₂⟩ := datas_split (L₀.map wire) (wire c) (cs₂.map wire) (by simpa using hb)
        refine ⟨y :: (L₀ ++ [c]), cs₂, ms₁, ms₂, b₂, by simp [bodySegments, hy], rfl, hup, h₂, hb₂, List.suffix_append _ _,
          .inr ⟨a, wire c, rfl⟩, ?_⟩
        intro mem done s req hf hr hp hdel hbuf hreads hstate hs
        obtain ⟨d₁, hcalls, hs₁⟩ := callAll_silent hs (calls .data none y)
        obtain ⟨hnil, -⟩ | ⟨-, hstate₁, R₂, ms', hR₂, hup₂⟩ := hup.call hR hstate hs hcalls
        case inl => exact absurd hnil (by simp)
        have hpy := (List.prefix_append _ _).trans (hp' hp)
        obtain ⟨s', d', hloop, hcalls', hrd, hb', hleft⟩ := readLoop_upToEnd
          (s := { Session.fed { s with canWriteError := true } .read [wire y] with httpParserBuffer := [] })
          hf hdel ha hR₂ hup₂ (.call y hr hy hpy) (hp' hp) hstate₁ hs₁ rfl
        refine ⟨s', d', ?_, ?_, (hkept s).trans hrd, hb', hleft⟩
        · rw [read_kept hf hr hy hpy hbuf hreads hstate hcalls, if_neg hstate₁, hloop]
        · rw [feed, Data.callAll_append hcalls, hcalls']

/-! ## Where reads may end -/

/-- The last byte ends a line or a message. -/
def ReadEnd (c : List Token) : Prop := ∃ o t, c = o ++ [t] ∧ (t.byte = 10 ∨ Token.Final t)

theorem ReadEnd.ne_nil {c : List Token} (h : ReadEnd c) : c ≠ [] := by
  obtain ⟨o, t, rfl, -⟩ := h
  simp

theorem readEnd_concat {o : List Token} {t : Token} : ReadEnd (o ++ [t]) ↔ t.byte = 10 ∨ Token.Final t := by
  constructor
  · rintro ⟨o', t', heq, h⟩
    obtain ⟨-, h'⟩ := List.append_inj' heq rfl
    cases h'
    exact h
  · exact fun h => ⟨o, t, rfl, h⟩

theorem ReadEnd.suffix {a y : List Token} (h : ReadEnd (a ++ y)) (hy : y ≠ []) : ReadEnd y := by
  rcases List.eq_nil_or_concat y with rfl | ⟨o, t, rfl⟩
  · exact absurd rfl hy
  · rw [List.concat_eq_append] at h ⊢
    rw [← List.append_assoc, readEnd_concat] at h
    exact readEnd_concat.2 h

theorem Token.Final.not_inner {t : Token} (h : Token.Final t) : ¬ Token.Inner t :=
  fun hi => hi.2.2 _ (List.mem_of_getLast? h) rfl

theorem exists_segment {cs : List (List Token)} {T R : List Token} {l : Token} (h : cs.flatten = T ++ l :: R) :
    ∃ cs₁ T' y cs₂, cs = cs₁ ++ (T' ++ l :: y) :: cs₂ ∧ T = cs₁.flatten ++ T' ∧ R = y ++ cs₂.flatten := by
  rcases List.flatten_eq_append_iff.1 h with ⟨cs₁, bs, rfl, rfl, hbs⟩ | ⟨cs₁, T', l', y, cs₂, rfl, rfl, heq⟩
  · obtain ⟨as, y, cs₂, rfl, has, rfl⟩ := List.flatten_eq_cons_iff.1 hbs.symm
    refine ⟨cs₁ ++ as, [], y, cs₂, by simp, ?_, rfl⟩
    rw [List.flatten_append, List.flatten_eq_nil_iff.2 has, List.append_nil, List.append_nil]
  · obtain ⟨rfl, rfl⟩ := List.cons.inj heq
    exact ⟨cs₁, T', y, cs₂, rfl, rfl, rfl⟩

/-- No read ends right before the last byte of a head. -/
theorem head_split {h : Head} {cs : List (List Token)} {T' : List Token} (hT : h.openTape = cs.flatten ++ T')
    (hends : ∀ c ∈ cs, ReadEnd c) : T' ≠ [] := by
  rintro rfl
  obtain ⟨T₀, c, hcr, hc⟩ := h.openTape_head.cr
  rw [List.append_nil, hcr] at hT
  obtain ⟨ps, p, rfl, -⟩ := exists_last_line (fun q hq => (hends q hq).ne_nil) hT.symm
  rcases readEnd_concat.1 (hends (p ++ [c]) (by simp)) with hlf | hfinal
  · rw [hc] at hlf
    cases hlf
  · exact hfinal.not_inner (inHead_inner (h.openTape_head.inHead c (by rw [hcr]; simp)))

/-- A head whose reads end at line ends is reported as it is. -/
theorem feed_head {h : Head} {cs : List (List Token)} {T' : List Token} {done : List Callback}
    (hT : h.openTape = cs.flatten ++ T') (hends : ∀ c ∈ cs, ReadEnd c) :
    feed .data (tails tail) none (linesOf (cs ++ [T' ++ [lineFeed done]])) = calls Callback.data none (h.tape done) := by
  have hflat : (cs ++ [T' ++ [lineFeed done]]).flatten = h.tape done := by
    rw [Head.tape, hT]
    simp
  rw [← hflat]
  refine feed_lines_uncut (hflat ▸ h.tape_lineEnds done) (by simp) fun hcut => ?_
  obtain ⟨a, b, k, hab, hk⟩ := (cutsElement_iff _).1 hcut
  rcases List.eq_nil_or_concat b with rfl | ⟨b, x, rfl⟩
  · simp [cutRun] at hk
  rcases List.eq_nil_or_concat a with rfl | ⟨a, p, rfl⟩
  · simp [cutRun] at hk
  rw [List.concat_eq_append, List.concat_eq_append, ← List.append_assoc] at hab
  have hcs : cs = a ++ [p] ++ b := (List.append_inj' hab rfl).1
  obtain ⟨o, t, rfl, ht⟩ := hends p (by simp [hcs])
  have hmem : t ∈ h.openTape := by
    rw [hT, hcs]
    simp
  have hlast : t ∈ (a.concat (o ++ [t])).flatten.getLast? := by simp
  rcases ht with hlf | hfinal
  · rw [cutRun_closed hlast (h.tape_lineEnds done t (List.mem_append_left _ hmem) hlf)] at hk
    cases hk
  · exact hfinal.not_inner (inHead_inner (h.openTape_head.inHead t hmem))

theorem last_run (cs : List Callback) {ts : List Token} : ∀ t ∈ Token.last cs ts, ∃ u ∈ ts, u.run = t.run := by
  intro t ht
  by_cases hne : ts = []
  · subst hne
    cases ht
  · obtain ⟨o, u, h₁, h₂⟩ := last_split cs hne
    rw [h₂] at ht
    rcases List.mem_append.1 ht with ht | ht
    · exact ⟨t, by rw [h₁]; exact List.mem_append_left _ ht, rfl⟩
    · rw [List.mem_singleton.1 ht]
      exact ⟨u, by rw [h₁]; simp, rfl⟩

/-- A line feed in a body is in its data, or outside all parts. -/
theorem body_lf (b : Body) : ∀ t ∈ b.tape, t.byte = 10 → ∀ k ∈ t.run, k = .body := by
  have hskip : ∀ {bs : Bytes} {t : Token}, t ∈ Token.skip bs → ∀ k ∈ t.run, k = .body := by
    intro bs t ht k hk
    obtain ⟨x, -, rfl⟩ := List.mem_map.1 ht
    cases hk
  have helem : ∀ {bs : Bytes} {t : Token}, t ∈ Token.elem .body bs → ∀ k ∈ t.run, k = .body := by
    intro bs t ht k hk
    obtain ⟨x, -, rfl⟩ := List.mem_map.1 ht
    cases hk
    rfl
  intro t ht hlf
  cases b with
  | identity data ne =>
    obtain ⟨u, hu, hrun⟩ := last_run _ t ht
    rw [← hrun]
    exact helem hu
  | chunked chunks line ok trailers =>
    simp only [Body.tape, List.mem_append, List.mem_flatMap, Chunk.tape, List.mem_singleton] at ht
    rcases ht with ((⟨c, -, (ht | ht) | ht⟩ | ht) | ht) | rfl
    · exact hskip ht
    · exact helem ht
    · exact hskip ht
    · exact hskip ht
    · intro k hk
      rw [openLines_lineEnds [] trailers t ht hlf] at hk
      cases hk
    · exact fun k hk => by cases hk

theorem cutRun_last {a b : List Token} {t : Token} {k : Kind} (ht : a.getLast? = some t)
    (h : cutRun (tails tail) a b = some k) : t.runAfter = some k := by
  rw [cutRun, ht] at h
  split at h
  · rename_i u hu _
    cases hu
    exact (Option.filter_eq_some_iff.1 h).1
  · cases h

/-- A body whose reads end at line ends is received as it is. -/
theorem callAll_feed_body {b : Body} {L : List (List Token)} (hL : L.flatten = b.tape) (hends : ∀ c ∈ L, ReadEnd c)
    (hs : d.Silent) :
    d.callAll (feed .data (tails tail) none L) = d.callAll (b.calls ++ [.messageComplete]) := by
  have hne : L ≠ [] := by
    rintro rfl
    exact b.tape_rest.ne_nil hL.symm
  rw [← calls_body, ← hL]
  refine callAll_refines (feed_refines data_inj none hne (fun c hc => (hends c hc).ne_nil) fun x y k hxy hk => ?_) hs
  rcases List.eq_nil_or_concat x with rfl | ⟨x, p, rfl⟩
  · simp [cutRun] at hk
  obtain ⟨o, t, rfl, ht⟩ := hends p (by simp [hxy])
  have hafter := cutRun_last (t := t) (by simp) hk
  rw [Token.runAfter] at hafter
  split at hafter
  · rename_i hnil
    rcases ht with hlf | hfinal
    · exact body_lf b t (by rw [← hL, hxy]; simp) hlf k hafter
    · rw [Token.Final, List.isEmpty_iff.1 hnil] at hfinal
      cases hfinal
  · cases hafter

/-! ## Handlers -/

/-- The socket takes at least `n` bytes, at its own pace. -/
def Takes (n : Nat) (ws : List WriteResult) : Prop := (∀ w ∈ ws, w.Benign) ∧ n ≤ ws.countP Session.accepts

theorem Takes.mono {n m : Nat} {ws : List WriteResult} (h : Takes n ws) (hm : m ≤ n) : Takes m ws := ⟨h.1, hm.trans h.2⟩

theorem write_takes {buffer : Bytes} {ws : List WriteResult} {k : Nat} (h : Takes (buffer.length + k) ws) :
    (write buffer ws).outcome = .returned ∧ Takes k (write buffer ws).left := by
  induction ws generalizing buffer with
  | nil =>
    cases buffer with
    | nil => exact ⟨rfl, h.1, by simpa [write] using h.2⟩
    | cons b bs => simp [Takes] at h
  | cons w ws ih =>
    cases buffer with
    | nil => exact ⟨rfl, h.1, by simpa [write] using h.2⟩
    | cons b bs =>
      have hben : ∀ w ∈ ws, w.Benign := fun x hx => h.1 x (List.mem_cons_of_mem _ hx)
      have hw := h.1 w List.mem_cons_self
      have hcount := h.2
      rw [List.countP_cons] at hcount
      cases w with
      | failed ec => exact hw.elim
      | again resume =>
        cases resume with
        | some ec => cases hw
        | none =>
          simp only [Session.accepts, Bool.false_eq_true, if_false] at hcount
          exact ih ⟨hben, hcount⟩
      | room j pos =>
        refine ih ⟨hben, ?_⟩
        simp only [Session.accepts, if_true, List.length_cons, List.length_drop] at hcount ⊢
        omega

theorem lastYield_benign {ws : List WriteResult} (h : ∀ w ∈ ws, w.Benign) : Session.lastYield none ws = none := by
  induction ws with
  | nil => rfl
  | cons w ws ih =>
    have ih' := ih fun x hx => h x (List.mem_cons_of_mem _ hx)
    have hw := h w List.mem_cons_self
    match w with
    | .failed ec => exact hw.elim
    | .again none => exact ih'
    | .room j pos => exact ih'

/-- What a write leaves as it is. -/
structure Kept (s s' : Session P) : Prop where
  parser : s'.parser = s.parser
  buffer : s'.httpParserBuffer = s.httpParserBuffer
  keepAlive : s'.keepAlive = s.keepAlive
  yielded : s.yielded = none → s'.yielded = none
  reads : s'.reads = s.reads
  trace : s'.trace = s.trace

theorem session_write_takes (buffer : Bytes) {k : Nat} (h : Takes (buffer.length + k) s.writes) :
    ∃ s', s.write buffer = (s', .returned) ∧ Kept s s' ∧ Takes k s'.writes := by
  obtain ⟨hret, hleft⟩ := write_takes h
  refine ⟨_, Prod.ext rfl (by simp only [Session.write, Session.wrote, hret]), ⟨rfl, rfl, rfl, fun hy => ?_, rfl, rfl⟩, hleft⟩
  simp only [Session.write, Session.wrote, hy]
  exact lastYield_benign fun w hw => h.1 w (List.mem_of_mem_take hw)

/-- The answer to `Expect: 100-continue`. -/
def continueText (keepAlive : Int) : Bytes := Response.toString { statusCode := 100 } keepAlive

theorem contentLength_le (req : Request) : req.contentLength ≤ chunkedData := by
  have hull : ∀ v, (strtoull v).1 ≤ chunkedData := by
    intro v
    unfold strtoull
    dsimp only
    split
    · exact Nat.zero_le _
    · dsimp only
      split
      · exact Nat.le_refl _
      · split
        · exact Nat.le_sub_one_of_lt (Nat.mod_lt _ (by decide))
        · rename_i h _
          exact Nat.le_sub_one_of_lt (Nat.lt_of_not_le h)
  unfold Request.contentLength
  split
  · split
    · exact hull _
    · exact Nat.le_refl _
  · exact Nat.le_refl _

theorem receive_read (mem : Memory) {req : Request} {k : Nat} (hsize : req.maxBodySize = 2 ^ 64 - 2)
    (hw : Takes ((continueText s.keepAlive).length + k) s.writes) :
    ∃ s', s.receive mem req = s'.read mem req ∧ Kept s s' ∧ Takes k s'.writes := by
  have hlength : ¬ (req.contentLength ≠ chunkedData ∧ req.maxBodySize < req.contentLength) := by
    have := contentLength_le req
    rw [chunkedData] at this ⊢
    omega
  unfold Session.receive
  split
  · obtain ⟨s', hwr, hk, ht⟩ := session_write_takes _ (s := s.setSessionTimeout (max s.sessionTimeout (10 : Nat))) hw
    have hres : s.respond { statusCode := 100 } = (s', .returned) := hwr
    refine ⟨s', by rw [hres], ?_, ht⟩
    exact ⟨hk.parser, hk.buffer, hk.keepAlive, hk.yielded, hk.reads, hk.trace⟩
  · exact ⟨s, rfl, ⟨rfl, rfl, rfl, id, rfl, rfl⟩, hw.mono (Nat.le_add_left _ _)⟩

/-- Where the socket takes `n` bytes, the handler returns and keeps the connection open. It does not read. -/
def Handler.Leaves (keepAlive : Int) (n : Nat) (handler : Handler) : Prop :=
  ∀ (P : HttpParser) (mem : Memory) (s : Session P) (req : Request) (k : Nat), s.keepAlive = keepAlive →
    s.yielded = none → Takes (n + k) s.writes →
    ∃ s' : Session P, handler.run mem s req = ⟨.returned, s', { req := req }⟩ ∧
      s'.httpParserBuffer = s.httpParserBuffer ∧ s'.reads = s.reads ∧ s'.trace = s.trace ∧ s'.yielded = none ∧
      s'.keepAlive ≠ 0 ∧ Takes k s'.writes

/-- Every handler registers a body callback that does not throw, calls `stream >> req` and goes on with
a handler that leaves the body alone. -/
def Registers (srv : Server) (n : Nat) : Prop :=
  ∀ req, ∃ callback next, srv.createSession req =
      .ok (some (.modify (·.appendBodyCallback callback) (.receive next))) ∧
    (∀ a b, callback a b = none) ∧ ∀ req', (next none req').Leaves srv.keepAliveTimeout n

/-- A handler that registers runs as its `read` does. -/
theorem run_registers (mem : Memory) {next : Option Exc → Request → Handler} (callback : BodyCallback) (req : Request)
    {K : Int} {n k : Nat} {B : Bytes} {b : List ReadResult} {G : Request → Prop}
    (hnext : ∀ req, (next none req).Leaves K n) (hK : s.keepAlive = K) (hy : s.yielded = none)
    (hw : Takes ((continueText K).length + (n + k)) s.writes)
    (hread : ∀ s₁, Kept s s₁ → ∃ (s₂ : Session P) (d₂ : Data) (bss : List Bytes),
      s₁.read mem (req.appendBodyCallback callback) = ⟨.returned, s₂, d₂⟩ ∧ Reads .read s₁ s₂ bss ∧
      s₂.httpParserBuffer = B ∧ s₂.reads = b ∧ G d₂.req) :
    ∃ (s' : Session P) (req' : Request),
      (Handler.modify (·.appendBodyCallback callback) (.receive next)).run mem s req = ⟨.returned, s', { req := req' }⟩ ∧
      s'.httpParserBuffer = B ∧ s'.reads = b ∧ (∃ tr, s'.trace = s.trace ++ tr ∧ ∀ e ∈ tr, e.InPhase .read) ∧
      s'.yielded = none ∧ s'.keepAlive ≠ 0 ∧ Takes k s'.writes ∧ G req' := by
  obtain ⟨s₁, hrec, hk, hw₁⟩ :=
    receive_read mem (show (req.appendBodyCallback callback).maxBodySize = 2 ^ 64 - 2 from rfl) (hK ▸ hw)
  obtain ⟨s₂, d₂, bss, hrd, hr, hb, hleft, hg⟩ := hread s₁ hk
  obtain ⟨s₃, hrun, hb₃, hleft₃, htr₃, hy₃, hka₃, hw₃⟩ := hnext d₂.req P mem s₂ d₂.req k
    (by rw [hr.keepAlive, hk.keepAlive, hK]) (hr.yielded (hk.yielded hy)) (hr.writes ▸ hw₁)
  obtain ⟨tr, htr, -, hin⟩ := hr.trace
  refine ⟨s₃, d₂.req, ?_, hb₃.trans hb, hleft₃.trans hleft, ⟨tr, by rw [htr₃, htr, hk.trace], hin⟩, hy₃, hka₃, hw₃, hg⟩
  simp only [Handler.run, hrec, hrd, Handler.resume, hrun]

end Getodac
