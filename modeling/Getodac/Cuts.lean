import Getodac.ReadHeaders
/-!
# Heads that arrive in several reads

`url`, `headerField` and `headerValue` take what they are given for the whole of
the URL, of a name or of a value. The parser gives them a part of it wherever a
read ends inside, so that the request depends on where that is.
-/

namespace Getodac

open Tape Token

/-! ## The callbacks of a head in one call -/

section Emit

variable {r : Run UInt8 Kind}

theorem first_skip (bs : Bytes) : first [] (skip bs) = skip bs := by
  cases bs <;> rfl

theorem first_elem (k : Kind) (bs : Bytes) : first [] (elem k bs) = elem k bs := by
  cases bs <;> rfl

theorem emit_skip_first (cs : List Callback) {bs : Bytes} (hne : bs ≠ []) :
    emit Callback.data r (first cs (skip bs)) = (flush .data r ++ cs, none) := by
  have hnone : ∀ bs : Bytes, emit Callback.data none (skip bs) = ([], none) := by
    intro bs
    induction bs with
    | nil => rfl
    | cons b bs ih =>
      simp only [skip, List.map_cons, emit, step_skip] at ih ⊢
      simp [ih, flush]
  obtain ⟨b, bs, rfl⟩ := List.exists_cons_of_ne_nil hne
  have h := hnone bs
  simp only [skip] at h
  simp [skip, first, emit, step_skip, h]

theorem emit_skip_bytes (bs : Bytes) (hne : bs ≠ []) : emit Callback.data r (skip bs) = (flush .data r, none) := by
  rw [← first_skip, emit_skip_first [] hne, List.append_nil]

theorem emit_elem (k : Kind) (cur bs : Bytes) :
    emit Callback.data (some (k, cur)) (elem k bs) = ([], some (k, cur ++ bs)) := by
  induction bs generalizing cur with
  | nil => simp [elem, emit]
  | cons b bs ih =>
    have h := ih (cur ++ [b])
    simp only [elem] at h
    simp [elem, emit, step, joins, join, h]

theorem emit_elem_first (cs : List Callback) (k : Kind) {bs : Bytes} (hne : bs ≠ []) :
    emit Callback.data none (first cs (elem k bs)) = (cs, some (k, bs)) := by
  obtain ⟨b, bs, rfl⟩ := List.exists_cons_of_ne_nil hne
  have h := emit_elem k [b] bs
  simp only [elem] at h
  simp [elem, first, emit, step, joins, join, flush, h]

theorem emit_elem_bytes (k : Kind) {bs : Bytes} (hne : bs ≠ []) :
    emit Callback.data none (elem k bs) = ([], some (k, bs)) := by
  rw [← first_elem, emit_elem_first [] k hne]

end Emit

/-- The callbacks of a header line. -/
def Field.calls (f : Field) : List Callback := [.data .headerField f.name, .data .headerValue f.value]

theorem emit_openLines (pending : List Callback) (fs : List Field) :
    emit Callback.data none (openLines pending fs) = (pending ++ fs.flatMap Field.calls, none) := by
  induction fs generalizing pending with
  | nil =>
    rw [openLines, emit_skip_first pending (by simp)]
    simp [flush]
  | cons f fs ih =>
    rw [openLines]
    simp only [emit_append, emit_elem_first pending .headerField f.name_ne, ih,
      emit_skip_bytes (58 :: f.blanks) (by simp), emit_skip_bytes crlf (by simp [crlf])]
    by_cases hv : f.value = []
    · simp [hv, elem, emit, flush, Field.calls]
    · simp [emit_elem_bytes _ hv, hv, flush, Field.calls]

/-- The callbacks of a head. -/
theorem calls_tape (h : Head) (done : List Callback) :
    calls Callback.data none (h.tape done) =
      .messageBegin :: .data (.url h.method) h.target :: (h.fields.flatMap Field.calls ++ done) := by
  have hline : emit Callback.data none h.lineTape = ([.messageBegin, .data (.url h.method) h.target], none) := by
    simp only [Head.lineTape, emit_append, emit_skip_first _ h.method_ne, emit_skip_bytes [32] (by simp),
      emit_elem_bytes _ h.target_ne, emit_skip_bytes (bytes " HTTP/1.1\r\n") (by decide), flush, List.nil_append,
      List.append_nil, List.cons_append]
  rw [Head.tape, calls_concat_skip _ _ rfl, Head.openTape, calls, emit_append, hline, emit_openLines]
  simp [flush, lineFeed]

/-! ## Reads and lines -/

/-- A line that is not the last ends with LF. -/
theorem splitLines_dropLast {α : Type} (byte : α → UInt8) (l : List α) :
    ∀ p ∈ (splitLines byte l).dropLast, ∃ e ∈ p.getLast?, byte e = 10 := by
  fun_induction splitLines byte l with
  | case1 => simp
  | case2 => simp
  | case3 a b rest h ih =>
    intro p hp
    cases hs : splitLines byte rest with
    | nil => simp [hs] at hp
    | cons l ls =>
      rw [hs, List.dropLast_cons_of_ne_nil (by simp)] at hp
      rcases List.mem_cons.1 hp with rfl | hp
      · exact ⟨b, by simp, h.2⟩
      · exact ih p (by rw [hs]; exact hp)
  | case4 a b rest h hs ih => simp
  | case5 a b rest h l ls hs ih =>
    intro p hp
    cases ls with
    | nil => simp at hp
    | cons l' ls =>
      rw [List.dropLast_cons_of_ne_nil (by simp)] at hp
      rw [hs, List.dropLast_cons_of_ne_nil (by simp)] at ih
      rcases List.mem_cons.1 hp with rfl | hp
      · obtain ⟨e, he, hb⟩ := ih l List.mem_cons_self
        refine ⟨e, ?_, hb⟩
        rw [List.getLast?_cons, Option.mem_def.1 he]
        rfl
      · exact ih p (List.mem_cons_of_mem _ hp)

/-- No run goes over a line end. -/
def LineEnds (ts : List Token) : Prop := ∀ t ∈ ts, t.byte = 10 → t.run = none

variable {tail : Bool}

/-- Where a run is cut, a read ends. -/
theorem linesOf_cut {cs : List (List Token)} (hlf : LineEnds cs.flatten) {a b : List (List Token)} {k : Kind}
    (hab : linesOf cs = a ++ b) (hk : cutRun (tails tail) a.flatten b.flatten = some k) :
    ∃ cs₁ cs₂, cs = cs₁ ++ cs₂ ∧ cutRun (tails tail) cs₁.flatten cs₂.flatten = some k := by
  induction cs generalizing a with
  | nil =>
    have : a = [] := (List.append_eq_nil_iff.1 hab.symm).1
    simp [this, cutRun] at hk
  | cons c cs ih =>
    rw [linesOf_cons] at hab
    rcases List.append_eq_append_iff.1 hab with ⟨a', rfl, ha'⟩ | ⟨x, hx, rfl⟩
    · rw [List.flatten_append, splitLines_flatten] at hk
      by_cases hne : a'.flatten = []
      · refine ⟨[c], cs, rfl, ?_⟩
        have hcs : cs.flatten = b.flatten := by
          rw [← linesOf_flatten cs, ha', List.flatten_append, hne, List.nil_append]
        rw [hcs]
        simpa [hne] using hk
      · rw [cutRun_cons hne] at hk
        obtain ⟨cs₁, cs₂, rfl, hcut⟩ := ih (fun t ht => hlf t (by simp [List.mem_flatten.1 ht])) ha' hk
        refine ⟨c :: cs₁, cs₂, rfl, ?_⟩
        by_cases h₁ : cs₁.flatten = []
        · simp [h₁, cutRun] at hcut
        · rw [List.flatten_cons, cutRun_cons h₁, hcut]
    · by_cases hx₀ : x = []
      · subst hx₀
        rw [List.append_nil] at hx
        refine ⟨[c], cs, rfl, ?_⟩
        rw [← hx, splitLines_flatten, List.nil_append, linesOf_flatten] at hk
        simpa using hk
      · -- inside a read a line ends with LF
        rcases List.eq_nil_or_concat a with rfl | ⟨a', p, rfl⟩
        · simp [cutRun] at hk
        · rw [List.concat_eq_append] at hx hk
          have hp : p ∈ (splitLines (·.byte) c).dropLast := by
            rw [hx, List.dropLast_append_of_ne_nil hx₀]
            simp
          obtain ⟨e, he, hlf'⟩ := splitLines_dropLast _ c p hp
          have hpne : p ≠ [] := by
            rintro rfl
            cases he
          have hec : e ∈ c := by
            rw [← splitLines_flatten (fun t : Token => t.byte) c]
            exact List.mem_flatten.2 ⟨p, List.dropLast_subset _ hp, List.mem_of_getLast? he⟩
          rw [List.flatten_append, List.flatten_singleton, cutRun_cons hpne,
            cutRun_closed he (hlf e (by simp [hec]) hlf')] at hk
          cases hk

theorem skip_lineEnds (bs : Bytes) : LineEnds (skip bs) := by
  intro t ht _
  obtain ⟨b, -, rfl⟩ := List.mem_map.1 ht
  rfl

theorem elem_lineEnds (k : Kind) {bs : Bytes} (h : InLine bs) : LineEnds (elem k bs) := by
  intro t ht hb
  obtain ⟨b, hm, rfl⟩ := List.mem_map.1 ht
  exact absurd hb (h b hm).2

theorem first_lineEnds (cs : List Callback) {ts : List Token} (h : LineEnds ts) : LineEnds (first cs ts) := by
  cases ts with
  | nil => exact h
  | cons t ts =>
    intro x hx hb
    rcases List.mem_cons.1 hx with rfl | hx
    · exact h t List.mem_cons_self hb
    · exact h x (List.mem_cons_of_mem _ hx) hb

theorem LineEnds.append {a b : List Token} (ha : LineEnds a) (hb : LineEnds b) : LineEnds (a ++ b) :=
  fun t ht => (List.mem_append.1 ht).elim (ha t) (hb t)

theorem openLines_lineEnds (pending : List Callback) (fs : List Field) : LineEnds (openLines pending fs) := by
  induction fs generalizing pending with
  | nil => exact first_lineEnds _ (skip_lineEnds _)
  | cons f fs ih =>
    refine .append (.append (.append (.append ?_ (skip_lineEnds _)) ?_) (skip_lineEnds _)) (ih _)
    · exact first_lineEnds _ (elem_lineEnds _ f.name_ok)
    · exact elem_lineEnds _ f.value_ok

theorem Head.tape_lineEnds (h : Head) (done : List Callback) : LineEnds (h.tape done) := by
  refine .append (.append (.append (.append (.append ?_ (skip_lineEnds _)) ?_) (skip_lineEnds _)) ?_) ?_
  · exact first_lineEnds _ (skip_lineEnds _)
  · exact elem_lineEnds _ h.target_ok
  · exact openLines_lineEnds _ _
  · intro t ht _
    rw [List.mem_singleton.1 ht]
    rfl

variable {P : HttpParser} {mem : Memory} {s : Session P}

theorem Delivers.ne_nil {rs : List ReadResult} (h : Delivers mem rs) : ∀ bs ∈ datas rs, bs ≠ [] := by
  induction rs with
  | nil => simp
  | cons r rs ih =>
    cases r with
    | data bs =>
      intro x hx
      rcases List.mem_cons.1 hx with rfl | hx
      · exact h.1
      · exact ih h.2.2 x hx
    | again resume => exact ih h.2
    | failed ec => exact h.elim

/-- What `readHeaders` makes of a head. -/
theorem readHeaders_cut (h : Head) {keepAlive hasBody : Bool} (hf : P.Follows tail (h.tape (headDone keepAlive hasBody)))
    (hdel : Delivers mem s.reads) (hbytes : (datas s.reads).flatten = h.bytes) (hb : s.httpParserBuffer = []) :
    ∃ (cs : List (List Token)) (s' : Session P) (d' : Data), datas s.reads = cs.map wire ∧
      cs.flatten = h.tape (headDone keepAlive hasBody) ∧ s.readHeaders mem = ⟨.returned, s', d'⟩ ∧
      ({} : Data).callAll (feed .data (tails tail) none (linesOf cs)) = (d', none) := by
  rw [← wire_tape h (headDone keepAlive hasBody), Head.tape] at hbytes
  obtain ⟨a, cs, T', y, R', b, hreads, hcs, hTcs, hR, hb'⟩ := exists_end_read hbytes
  obtain ⟨rfl, rfl⟩ := List.append_eq_nil_iff.1 hR.symm
  have hnil : datas b = [] := by
    rw [hreads] at hdel
    have hne := (hdel.right (b := .data (wire (T' ++ [lineFeed (headDone keepAlive hasBody)])) :: b)).2.2.ne_nil
    rw [List.eq_nil_iff_forall_not_mem]
    exact fun bs hbs => hne bs hbs (List.flatten_eq_nil_iff.1 hb' bs hbs)
  obtain ⟨s', d', hrun, hcalls, -⟩ := readHeaders_head hf h.openTape_head (headEnd keepAlive hasBody)
    (List.prefix_refl _) hcs hTcs hreads hdel hb (.inr rfl)
  refine ⟨cs ++ [T' ++ [lineFeed (headDone keepAlive hasBody)]], s', _, ?_, ?_, hrun, hcalls⟩
  · rw [hreads, datas_append, datas_data, hnil, hcs]
    simp
  · simp [Head.tape, hTcs]

/-! ## Parts of a head -/

/-- What is reported of a header line. -/
structure Report where
  name : Pieces UInt8
  value : Pieces UInt8

def Report.calls (r : Report) : List Callback :=
  r.name.all.map (.data .headerField) ++ r.value.all.map (.data .headerValue)

/-- The request after a report. -/
def Data.report (d : Data) (r : Report) : Data := r.value.all.foldl Data.headerValue { d with headerField := r.name.last }

theorem callAll_report (d : Data) (r : Report) : d.callAll r.calls = (d.report r, none) := by
  have hname : ∀ (d : Data) (ps : List Bytes) (p : Bytes),
      d.callAll ((ps ++ [p]).map (.data .headerField)) = ({ d with headerField := p }, none) := by
    intro d ps p
    induction ps generalizing d with
    | nil => rfl
    | cons q ps ih => exact ih { d with headerField := q }
  have hvalue : ∀ (d : Data) (ps : List Bytes),
      d.callAll (ps.map (.data .headerValue)) = (ps.foldl Data.headerValue d, none) := by
    intro d ps
    induction ps generalizing d with
    | nil => rfl
    | cons p ps ih => exact ih (d.headerValue p)
  rw [Report.calls, Pieces.all, Data.callAll_append (hname d r.name.init r.name.last), hvalue]
  rfl

theorem callAll_reports (d : Data) (rs : List Report) :
    d.callAll (rs.flatMap Report.calls) = (rs.foldl Data.report d, none) := by
  induction rs generalizing d with
  | nil => rfl
  | cons r rs ih =>
    rw [List.flatMap_cons, Data.callAll_append (callAll_report d r)]
    exact ih (d.report r)

theorem callAll_url (d : Data) (method : Bytes) (p : Pieces UInt8) :
    d.callAll (p.all.map (.data (.url method))) =
      ({ d with req := { d.req with url := p.last, method := method, state := .ProcessingHeader } }, none) := by
  have h : ∀ (d : Data) (ps : List Bytes) (q : Bytes), d.callAll ((ps ++ [q]).map (.data (.url method))) =
      ({ d with req := { d.req with url := q, method := method, state := .ProcessingHeader } }, none) := by
    intro d ps q
    induction ps generalizing d with
    | nil => rfl
    | cons q' ps ih => exact ih _
  exact h d p.init p.last

/-- The callbacks of a head in parts. -/
def partCalls (method : Bytes) (u : Pieces UInt8) (rs : List Report) (keepAlive hasBody : Bool) : List Callback :=
  [.messageBegin] ++ (u.all.map (.data (.url method)) ++ (rs.flatMap Report.calls ++ headDone keepAlive hasBody))

/-- The request after its first line. -/
def Data.ofLine (method url : Bytes) : Data := { req := { url := url, method := method, state := .ProcessingHeader } }

/-- The request that they make. -/
def partData (method : Bytes) (u : Pieces UInt8) (rs : List Report) (keepAlive hasBody : Bool) : Data :=
  (rs.foldl Data.report (.ofLine method u.last)).finish keepAlive hasBody

theorem callAll_parts (method : Bytes) (u : Pieces UInt8) (rs : List Report) (keepAlive hasBody : Bool) :
    ({} : Data).callAll (partCalls method u rs keepAlive hasBody) = (partData method u rs keepAlive hasBody, none) := by
  have hbegin : ({} : Data).callAll [.messageBegin] = ({ req := { state := .ProcessingUrl } }, none) := rfl
  rw [partCalls, Data.callAll_append hbegin,
    Data.callAll_append (callAll_url _ method u), Data.callAll_append (callAll_reports _ rs)]
  exact Data.callAll_headDone _ keepAlive hasBody

theorem data_inj (k k' : Kind) (a b : Bytes) (h : Callback.data k a = .data k' b) : k = k' ∧ a = b := by
  cases h
  exact ⟨rfl, rfl⟩

theorem fields_parts {q : Kind → Prop} {L rest : List Callback} {fs : List Field}
    (h : Refines Callback.data q L (fs.flatMap Field.calls ++ rest)) :
    ∃ (rs : List Report) (L' : List Callback), L = rs.flatMap Report.calls ++ L' ∧ Refines Callback.data q L' rest ∧
      rs.map (·.name.whole) = fs.map Field.name ∧ rs.map (·.value.whole) = fs.map Field.value := by
  induction fs generalizing L with
  | nil => exact ⟨[], L, rfl, h, rfl, rfl⟩
  | cons f fs ih =>
    obtain ⟨n, L₁, rfl, hn, h₁⟩ := h.run_inv data_inj
    obtain ⟨v, L₂, rfl, hv, h₂⟩ := h₁.run_inv data_inj
    obtain ⟨rs, L₃, rfl, h₃, hns, hvs⟩ := ih h₂
    exact ⟨⟨n, v⟩ :: rs, L₃, by simp [Report.calls], h₃, by simp [hn, hns], by simp [hv, hvs]⟩

/-- However a head is cut, its URL, names and values are reported in parts. -/
theorem head_parts {q : Kind → Prop} {h : Head} {keepAlive hasBody : Bool} {L : List Callback}
    (hL : Refines Callback.data q L (calls .data none (h.tape (headDone keepAlive hasBody)))) :
    ∃ (u : Pieces UInt8) (rs : List Report), L = partCalls h.method u rs keepAlive hasBody ∧ u.whole = h.target ∧
      rs.map (·.name.whole) = h.fields.map Field.name ∧ rs.map (·.value.whole) = h.fields.map Field.value := by
  rw [calls_tape] at hL
  have hbegin : ∀ c ∈ [Callback.messageBegin], ∀ k bs, c ≠ .data k bs := by simp
  obtain ⟨L₁, rfl, h₁⟩ := hL.events_inv hbegin
  obtain ⟨u, L₂, rfl, hu, h₂⟩ := h₁.run_inv data_inj
  obtain ⟨rs, L₃, rfl, h₃, hns, hvs⟩ := fields_parts h₂
  rw [← List.append_nil (headDone keepAlive hasBody)] at h₃
  obtain ⟨L₄, rfl, h₄⟩ := h₃.events_inv (by cases hasBody <;> simp [headDone])
  cases h₄
  exact ⟨u, rs, by simp [partCalls], hu, hns, hvs⟩

/-! ## Which names a request has -/

def Data.Has (d : Data) (x : Bytes) : Prop := (d.req.fields.find x).isSome

theorem headerValue_has (d : Data) (v x : Bytes) : (d.headerValue v).Has x ↔ d.Has x ∨ x = d.headerField := by
  unfold Data.Has Data.headerValue
  dsimp only
  rw [Fields.find_set]
  by_cases hx : x = d.headerField <;> simp [hx]

/-- The parts of a value after the first go to the empty name, if the name is a new one. -/
theorem values_has (d : Data) (v : Bytes) (vs : List Bytes) (x : Bytes) :
    ((v :: vs).foldl Data.headerValue d).Has x ↔
      d.Has x ∨ x = d.headerField ∨ (x = [] ∧ vs ≠ [] ∧ ¬ d.Has d.headerField) := by
  induction vs generalizing d v with
  | nil => simp [headerValue_has]
  | cons w vs ih =>
    rw [List.foldl_cons, ih, headerValue_has, headerValue_has]
    by_cases hd : d.Has d.headerField
    · have hfield : (d.headerValue v).headerField = d.headerField := if_pos hd
      rw [hfield]
      simp [hd]
    · have hfield : (d.headerValue v).headerField = [] := if_neg hd
      rw [hfield]
      simp [hd]
      tauto

theorem report_has (d : Data) (r : Report) (x : Bytes) :
    (d.report r).Has x ↔ d.Has x ∨ x = r.name.last ∨ (x = [] ∧ r.value.init ≠ [] ∧ ¬ d.Has r.name.last) := by
  unfold Data.report Pieces.all
  cases hv : r.value.init with
  | nil =>
    rw [List.nil_append, values_has]
    simp [Data.Has]
  | cons v vs =>
    rw [List.cons_append, values_has]
    simp [Data.Has]

theorem reports_has_ne (d : Data) (rs : List Report) {x : Bytes} (hx : x ≠ []) :
    (rs.foldl Data.report d).Has x ↔ d.Has x ∨ x ∈ rs.map (·.name.last) := by
  induction rs generalizing d with
  | nil => simp
  | cons r rs ih =>
    rw [List.foldl_cons, ih, report_has]
    simp [hx, or_assoc]

/-- With new names, the empty name is there if a value was cut. -/
theorem reports_has_nil (d : Data) (rs : List Report) (hnd : (rs.map (·.name.last)).Nodup)
    (hne : ∀ r ∈ rs, r.name.last ≠ []) (hnew : ∀ r ∈ rs, ¬ d.Has r.name.last) :
    (rs.foldl Data.report d).Has [] ↔ d.Has [] ∨ ∃ r ∈ rs, r.value.init ≠ [] := by
  induction rs generalizing d with
  | nil => simp
  | cons r rs ih =>
    rw [List.map_cons, List.nodup_cons] at hnd
    have hr := hne r List.mem_cons_self
    have hd := hnew r List.mem_cons_self
    rw [List.foldl_cons, ih (d.report r) hnd.2 (fun x hx => hne x (List.mem_cons_of_mem _ hx)), report_has]
    · simp [hd, hr.symm, or_assoc]
    · intro x hx
      have hxr : x.name.last ≠ r.name.last := fun h => hnd.1 (h ▸ List.mem_map_of_mem hx)
      simp [report_has, hnew x (List.mem_cons_of_mem _ hx), hxr, hne x (List.mem_cons_of_mem _ hx)]

/-- If the names of the request are those of the head, none was cut. -/
theorem names_whole {rs : List Report} (hnd : (rs.map (·.name.whole)).Nodup)
    (hsub : rs.map (·.name.whole) ⊆ rs.map (·.name.last)) : ∀ r ∈ rs, r.name.init = [] := by
  have hperm : (rs.map (·.name.whole)).Perm (rs.map (·.name.last)) :=
    (List.subperm_of_subset hnd hsub).perm_of_length_le (by simp)
  have hsum := (hperm.map List.length).sum_eq
  rw [List.map_map, List.map_map] at hsum
  -- a part is no longer than the whole, and together they are as long
  by_contra hcut
  push Not at hcut
  obtain ⟨r, hr, hne⟩ := hcut
  refine absurd hsum (ne_of_gt (List.sum_lt_sum _ _ (fun r _ => ?_) ⟨r, hr, ?_⟩))
  · simp [Pieces.whole]
  · exact Nat.lt_of_not_le fun h => hne (Pieces.init_eq_nil h)

/-! ## Cut and uncut heads -/

/-- The two requests have the same head. -/
structure SameHead (a b : Request) : Prop where
  method : a.method = b.method
  url : a.url = b.url
  keepAlive : a.keepAlive = b.keepAlive
  fields : ∀ name, a.fields.find name = b.fields.find name

/-- A read ends inside a URL, a name or a value, or right after one whose end the parser reports by an empty part. -/
def CutsElement (tail : Bool) (tape : List Token) (reads : List Bytes) : Prop :=
  ∃ i < reads.length, (cutRun (tails tail) (tape.take (reads.take i).flatten.length)
    (tape.drop (reads.take i).flatten.length)).isSome

instance (tail : Bool) (tape : List Token) (reads : List Bytes) : Decidable (CutsElement tail tape reads) :=
  inferInstanceAs (Decidable (∃ i < reads.length, _))

theorem cutsElement_iff (cs : List (List Token)) :
    CutsElement tail cs.flatten (cs.map wire) ↔
      ∃ a b k, cs = a ++ b ∧ cutRun (tails tail) a.flatten b.flatten = some k := by
  have hlen : ∀ a : List (List Token), (a.map wire).flatten.length = a.flatten.length := by
    intro a
    rw [← List.map_flatten, List.length_map]
  constructor
  · rintro ⟨i, -, hi⟩
    obtain ⟨k, hk⟩ := Option.isSome_iff_exists.1 hi
    refine ⟨cs.take i, cs.drop i, k, (List.take_append_drop i cs).symm, ?_⟩
    rw [← List.map_take, hlen] at hk
    have hflat : cs.flatten = (cs.take i).flatten ++ (cs.drop i).flatten := by
      rw [← List.flatten_append, List.take_append_drop]
    rwa [hflat, List.take_left, List.drop_left] at hk
  · rintro ⟨a, b, k, rfl, hk⟩
    refine ⟨a.length, ?_, ?_⟩
    · have hb : b ≠ [] := by
        rintro rfl
        simp [cutRun] at hk
      have := List.length_pos_iff.2 hb
      simp
      omega
    · have htake : ((a ++ b).map wire).take a.length = a.map wire := by
        rw [List.map_append, List.take_left' (by simp)]
      rw [htake, hlen, List.flatten_append, List.take_left, List.drop_left, hk]
      rfl

theorem linesOf_ne_nil (cs : List (List Token)) : ∀ l ∈ linesOf cs, l ≠ [] := by
  intro l hl
  obtain ⟨c, -, hc⟩ := List.mem_flatMap.1 hl
  exact splitLines_ne_nil _ c l hc

/-- If no read cuts an element, the parser reports what it reports of one read. -/
theorem feed_lines_uncut {cs : List (List Token)} (hlf : LineEnds cs.flatten) (hne : cs.flatten ≠ [])
    (hcut : ¬ CutsElement tail cs.flatten (cs.map wire)) :
    feed .data (tails tail) none (linesOf cs) = calls Callback.data none cs.flatten := by
  have hlines : linesOf cs ≠ [] := by
    intro h
    rw [← linesOf_flatten, h] at hne
    exact hne rfl
  have hparts : Refines Callback.data (fun _ => False) (feed .data (tails tail) none (linesOf cs))
      (calls .data none (linesOf cs).flatten) := by
    refine feed_refines data_inj none hlines (linesOf_ne_nil cs) fun a b k hab hk => ?_
    obtain ⟨cs₁, cs₂, rfl, hk'⟩ := linesOf_cut hlf hab hk
    exact hcut ((cutsElement_iff _).2 ⟨cs₁, cs₂, k, rfl, hk'⟩)
  rw [linesOf_flatten] at hparts
  exact hparts.eq_of_uncut fun _ => id

/-- A header line in one part. -/
def Field.report (f : Field) : Report := ⟨⟨[], f.name, by simp⟩, ⟨[], f.value, by simp⟩⟩

theorem calls_tape_parts (h : Head) (keepAlive hasBody : Bool) :
    calls Callback.data none (h.tape (headDone keepAlive hasBody)) =
      partCalls h.method ⟨[], h.target, by simp⟩ (h.fields.map Field.report) keepAlive hasBody := by
  rw [calls_tape, partCalls, List.flatMap_map]
  rfl

theorem partData_url (method : Bytes) (u : Pieces UInt8) (rs : List Report) (keepAlive hasBody : Bool) :
    (partData method u rs keepAlive hasBody).req.url = u.last := by
  have hvalues : ∀ (vs : List Bytes) (d : Data), (vs.foldl Data.headerValue d).req.url = d.req.url := by
    intro vs
    induction vs with
    | nil => exact fun _ => rfl
    | cons v vs ih => exact fun d => ih (d.headerValue v)
  have hreports : ∀ (rs : List Report) (d : Data), (rs.foldl Data.report d).req.url = d.req.url := by
    intro rs
    induction rs with
    | nil => exact fun _ => rfl
    | cons r rs ih => exact fun d => (ih (d.report r)).trans (hvalues _ _)
  exact hreports rs _

theorem partCalls_length {method : Bytes} {u : Pieces UInt8} {rs : List Report} {keepAlive hasBody : Bool}
    (hu : u.init = []) (hrs : ∀ r ∈ rs, r.name.init = [] ∧ r.value.init = []) :
    (partCalls method u rs keepAlive hasBody).length = 2 + 2 * rs.length + (headDone keepAlive hasBody).length := by
  have hlen : (rs.flatMap Report.calls).length = 2 * rs.length := by
    induction rs with
    | nil => rfl
    | cons r rs ih =>
      obtain ⟨h₁, h₂⟩ := hrs r List.mem_cons_self
      rw [List.flatMap_cons, List.length_append, ih fun x hx => hrs x (List.mem_cons_of_mem _ hx)]
      simp [Report.calls, Pieces.all, h₁, h₂]
      omega
  simp only [partCalls, List.length_append, hlen, Pieces.all, hu, List.nil_append, List.map_singleton, List.length_singleton]
  omega

/-- Parts that make the same request are no parts. -/
theorem parts_whole {h : Head} {u : Pieces UInt8} {rs : List Report} {keepAlive hasBody : Bool} (hu : u.whole = h.target)
    (hns : rs.map (·.name.whole) = h.fields.map Field.name) (hnd : (h.fields.map Field.name).Nodup)
    (hsame : SameHead (partData h.method u rs keepAlive hasBody).req
      (partData h.method ⟨[], h.target, by simp⟩ (h.fields.map Field.report) keepAlive hasBody).req) :
    u.init = [] ∧ ∀ r ∈ rs, r.name.init = [] ∧ r.value.init = [] := by
  have hurl : u.last = h.target := by
    have := hsame.url
    rwa [partData_url, partData_url] at this
  have hhas : ∀ x, (rs.foldl Data.report (.ofLine h.method u.last)).Has x ↔
      ((h.fields.map Field.report).foldl Data.report (.ofLine h.method h.target)).Has x := by
    intro x
    have := hsame.fields x
    unfold Data.Has
    exact this ▸ Iff.rfl
  have hnames : (h.fields.map Field.report).map (·.name.last) = h.fields.map Field.name := by
    rw [List.map_map]; rfl
  have hnone : ∀ url x, ¬ (Data.ofLine h.method url).Has x := by
    simp [Data.Has, Data.ofLine, Fields.find]
  have hne : ∀ x ∈ h.fields.map Field.name, x ≠ [] := by
    intro x hx
    obtain ⟨f, -, rfl⟩ := List.mem_map.1 hx
    exact f.name_ne
  have hwhole : ∀ r ∈ rs, r.name.init = [] := by
    apply names_whole (by rwa [hns])
    rw [hns]
    intro x hx
    have h₀ := (reports_has_ne (.ofLine h.method h.target)
      (h.fields.map Field.report) (hne x hx)).2 (.inr (by rwa [hnames]))
    exact ((reports_has_ne _ rs (hne x hx)).1 ((hhas x).2 h₀)).resolve_left (hnone _ _)
  have hlast : rs.map (·.name.last) = h.fields.map Field.name := by
    rw [← hns]
    apply List.map_congr_left
    intro r hr
    simp [Pieces.whole, hwhole r hr]
  have hmem : ∀ r ∈ rs, r.name.last ∈ h.fields.map Field.name := fun r hr => hlast ▸ List.mem_map_of_mem hr
  refine ⟨Pieces.init_eq_nil (by rw [hu, hurl]), fun r hr => ⟨hwhole r hr, ?_⟩⟩
  have hnil₀ := reports_has_nil (.ofLine h.method h.target)
    (h.fields.map Field.report) (by rwa [hnames]) (by simpa using fun f _ => f.name_ne) (fun _ _ => hnone _ _)
  have hnil := reports_has_nil (.ofLine h.method u.last) rs
    (by rwa [hlast]) (fun r hr => hne _ (hmem r hr)) (fun _ _ => hnone _ _)
  by_contra hcut
  rcases hnil₀.1 ((hhas []).1 (hnil.2 (.inr ⟨r, hr, hcut⟩))) with h₁ | ⟨r', hr', h₁⟩
  · exact hnone _ _ h₁
  · obtain ⟨f, -, rfl⟩ := List.mem_map.1 hr'
    exact h₁ rfl

variable {mem₁ : Memory} {s₁ : Session P}

/-- `readHeaders` returns for every cutting of a head into reads. The request is that of one read if no read
ends inside an element, and, where no name is there twice, only then. -/
theorem same_head_iff (h : Head) {keepAlive hasBody : Bool} (hf : P.Follows tail (h.tape (headDone keepAlive hasBody)))
    (hdel : Delivers mem s.reads) (hbytes : (datas s.reads).flatten = h.bytes) (hb : s.httpParserBuffer = [])
    (hdel₁ : Delivers mem₁ s₁.reads) (hone : datas s₁.reads = [h.bytes]) (hb₁ : s₁.httpParserBuffer = []) :
    (s.readHeaders mem).ended = .returned ∧
    (¬ CutsElement tail (h.tape (headDone keepAlive hasBody)) (datas s.reads) →
      SameHead (s.readHeaders mem).data.req (s₁.readHeaders mem₁).data.req) ∧
    ((h.fields.map Field.name).Nodup → SameHead (s.readHeaders mem).data.req (s₁.readHeaders mem₁).data.req →
      ¬ CutsElement tail (h.tape (headDone keepAlive hasBody)) (datas s.reads)) := by
  have hne : h.tape (headDone keepAlive hasBody) ≠ [] := by simp [Head.tape]
  have hlf := h.tape_lineEnds (headDone keepAlive hasBody)
  obtain ⟨cs, s', d', hcs, hflat, hrun, hd⟩ := readHeaders_cut h hf hdel hbytes hb
  obtain ⟨cs₁, s₁', d₁, hcs₁, hflat₁, hrun₁, hd₁⟩ := readHeaders_cut h hf hdel₁ (by simp [hone]) hb₁
  -- one read cuts nothing
  have huncut₁ : ¬ CutsElement tail cs₁.flatten (cs₁.map wire) := by
    rw [← hcs₁, hone]
    rintro ⟨i, hi, hcut⟩
    obtain rfl : i = 0 := by simpa using hi
    simp [cutRun] at hcut
  rw [feed_lines_uncut (hflat₁ ▸ hlf) (hflat₁ ▸ hne) huncut₁, hflat₁, calls_tape_parts, callAll_parts] at hd₁
  obtain rfl := (Prod.mk.inj hd₁).1
  rw [hcs, hrun, hrun₁, ← hflat]
  refine ⟨rfl, fun hcut => ?_, fun hnd hsame hcut => ?_⟩
  · rw [feed_lines_uncut (hflat ▸ hlf) (hflat ▸ hne) hcut, hflat, calls_tape_parts, callAll_parts] at hd
    obtain rfl := (Prod.mk.inj hd).1
    exact ⟨rfl, rfl, rfl, fun _ => rfl⟩
  · have hlines : linesOf cs ≠ [] := by
      intro h₀
      rw [← hflat, ← linesOf_flatten, h₀] at hne
      exact hne rfl
    have href : Refines Callback.data (fun _ => True) (feed .data (tails tail) none (linesOf cs))
        (calls .data none (linesOf cs).flatten) :=
      feed_refines data_inj none hlines (linesOf_ne_nil cs) fun _ _ _ _ _ => trivial
    rw [linesOf_flatten, hflat] at href
    obtain ⟨u, rs, hL, hu, hns, -⟩ := head_parts href
    rw [hL, callAll_parts] at hd
    obtain rfl := (Prod.mk.inj hd).1
    obtain ⟨huinit, hrs⟩ := parts_whole hu hns hnd hsame
    -- there are no more callbacks than for one read
    obtain ⟨a, b, k, rfl, hk⟩ := (cutsElement_iff cs).1 hcut
    have happ : linesOf (a ++ b) = linesOf a ++ linesOf b := List.flatMap_append
    have hlt : (calls Callback.data none (linesOf a ++ linesOf b).flatten).length <
        (feed .data (tails tail) none (linesOf a ++ linesOf b)).length :=
      feed_cut_length data_inj none (happ ▸ linesOf_ne_nil (a ++ b)) (k := k) (by rwa [linesOf_flatten, linesOf_flatten])
    rw [← happ, linesOf_flatten, hflat, hL, calls_tape_parts, partCalls_length huinit hrs, partCalls_length rfl] at hlt
    · have hlen := congrArg List.length hns
      simp only [List.length_map] at hlen hlt
      omega
    · intro r hr
      obtain ⟨f, -, rfl⟩ := List.mem_map.1 hr
      exact ⟨rfl, rfl⟩

/-! ## A request for `/foo` -/

def host : Field where
  name := bytes "Host"
  blanks := bytes " "
  value := bytes "a"
  name_ne := by decide
  name_ok := by decide +kernel
  name_colon := by decide
  blanks_ok := by decide +kernel
  value_ok := by decide +kernel
  value_start := by decide +kernel

def getFoo : Head where
  method := bytes "GET"
  target := bytes "/foo"
  fields := [host]
  method_ne := by decide
  method_ok := by decide +kernel
  method_word := by decide
  target_ne := by decide
  target_ok := by decide +kernel
  target_word := by decide

/-- Buffers of 64 bytes, and behind them nothing that can be read. -/
def plainMemory : Memory where
  shared _ := List.replicate 64 0
  behindCarry _ := none
  behindShared _ := none

def getFooParser : HttpParser := replay true [getFoo.tape (headDone true false)]

/-- The head in these reads. -/
def getFooReads (reads : List Bytes) : Did getFooParser :=
  Session.readHeaders plainMemory { reads := reads.map .data }

theorem same_head_lines :
    SameHead (getFooReads [bytes "GET /foo HTTP/1.1\r\n", bytes "Host: a\r\n\r\n"]).data.req
      (getFooReads [getFoo.bytes]).data.req := by
  have hf : getFooParser.Follows true (getFoo.tape (headDone true false)) := replay_follows _ _ _
  refine (same_head_iff getFoo hf ?_ ?_ rfl ?_ rfl rfl).2.1 ?_
  · exact ⟨by decide, by decide, by decide, by decide, trivial⟩
  · decide
  · exact ⟨by decide, by decide, trivial⟩
  · decide

/-- Cut inside the URL, the head asks for another one. -/
theorem url_cut :
    (getFooReads [bytes "GET /f", bytes "oo HTTP/1.1\r\nHost: a\r\n\r\n"]).ended = .returned ∧
    (getFooReads [bytes "GET /f", bytes "oo HTTP/1.1\r\nHost: a\r\n\r\n"]).data.req.url = bytes "oo" ∧
    (getFooReads [getFoo.bytes]).data.req.url = bytes "/foo" ∧
    ¬ SameHead (getFooReads [bytes "GET /f", bytes "oo HTTP/1.1\r\nHost: a\r\n\r\n"]).data.req
      (getFooReads [getFoo.bytes]).data.req := by
  refine ⟨by decide, by decide, by decide, fun h => ?_⟩
  exact absurd h.url (by decide)

end Getodac
