import Getodac.Cuts
import Getodac.Lib.Decimal
/-!
# `Request::contentLength`

The length of a body is read twice: by the parser, which frames the body by it, and by
`contentLength()`, from the field as the callbacks have stored it. The parser ignores
the case of a name and the spaces after a number; the map does not ignore the case, and
`contentLength()` wants nothing after the number (`other_spellings`).
-/

namespace Getodac

open Tape

/-! ## How the parser frames a body -/

def lower (b : UInt8) : UInt8 := if 65 ≤ b ∧ b ≤ 90 then b + 32 else b

namespace Field

def isContentLength (f : Field) : Bool := f.name.map lower = Getodac.bytes "content-length"

/-- The value is the number in decimal digits, with only spaces behind them. Those in front are not part of it. -/
def Reads (f : Field) (n : Nat) : Prop :=
  ∃ ds rest, f.value = ds ++ rest ∧ ds ≠ [] ∧ (∀ b ∈ ds, isDigit b = true) ∧ (∀ b ∈ rest, b = 32) ∧ n = Decimal.value ds

/-- The spelling that `contentLength()` looks up, and nothing after the number. -/
def Plain (f : Field) : Prop := f.name = Getodac.bytes "Content-Length" ∧ f.value.all isDigit = true

end Field

/-- What is assumed of the length by which the parser frames the body of a head that it accepts, `some none` without a
Content-Length. -/
structure Framing (framing : Head → Option (Option Nat)) : Prop where
  /-- A name is matched whatever its case. -/
  anyCase : ∀ {h length}, framing h = some length → (length.isSome = true ↔ ∃ f ∈ h.fields, f.isContentLength = true)
  /-- A second Content-Length is rejected. -/
  once : ∀ {h length}, framing h = some length → (h.fields.filter Field.isContentLength).length ≤ 1
  digits : ∀ {h n f}, framing h = some (some n) → f ∈ h.fields → f.isContentLength = true → f.Reads n
  /-- A number that needs more than 64 bits is rejected. -/
  fits : ∀ {h n}, framing h = some (some n) → n < 2 ^ 64

/-! ## The number -/

theorem strtoull_digits {ds rest : Bytes} (hne : ds ≠ []) (hd : ∀ b ∈ ds, isDigit b = true)
    (hrest : ∀ b ∈ rest.head?, isDigit b = false) (hlt : Decimal.value ds < 2 ^ 64) :
    strtoull (ds ++ rest) = (Decimal.value ds, ds.length) := by
  obtain ⟨c, cs, rfl⟩ := List.exists_cons_of_ne_nil hne
  have hc : isDigit c = true := hd c List.mem_cons_self
  have hclass : isSpace c = false ∧ (c = 43 || c = 45) = false := by
    simp only [isDigit, Bool.and_eq_true, decide_eq_true_eq] at hc
    have hne : ∀ k : UInt8, k < 48 → c ≠ k := fun k hk he => absurd (he ▸ hc.1) (UInt8.not_le.2 hk)
    have hgt : ¬ c ≤ 13 := fun hle => absurd (UInt8.le_trans hc.1 hle) (by decide)
    simp [isSpace, hne 32 (by decide), hne 43 (by decide), hne 45 (by decide), hgt]
  have htake : (c :: cs ++ rest).takeWhile isDigit = c :: cs := by
    rw [List.takeWhile_append_of_pos hd]
    cases rest with
    | nil => simp
    | cons b rest => simp [hrest b rfl]
  unfold strtoull
  simp only [List.cons_append, List.takeWhile_cons, List.dropWhile_cons, hclass.1, Bool.false_eq_true, if_false,
    List.take_succ_cons, List.take_zero, List.filter_cons, hclass.2, List.filter_nil, List.length_nil, List.drop_zero,
    Nat.zero_add] at htake ⊢
  rw [htake]
  simp only [reduceCtorEq, if_false]
  rw [Decimal.value] at hlt
  rw [if_neg (Nat.not_le.2 hlt)]
  rfl

/-! ## The request of a head in one read -/

variable {P : HttpParser} {tail : Bool} {mem : Memory} {s : Session P}

theorem readHeaders_one (h : Head) {keepAlive hasBody : Bool} {following y : List Token}
    (hf : P.Follows tail (h.tape (headDone keepAlive hasBody) ++ following)) (hy : y <+: following)
    {a b : List ReadResult} (hreads : s.reads = a ++ .data (h.bytes ++ wire y) :: b) (ha : datas a = [])
    (hdel : Delivers mem s.reads) (hb : s.httpParserBuffer = []) :
    ∃ s', s.readHeaders mem = ⟨.returned, s',
      partData h.method ⟨[], h.target, by simp⟩ (h.fields.map Field.report) keepAlive hasBody⟩ := by
  have hT := h.openTape_head
  have htape : h.openTape ++ lineFeed (headDone keepAlive hasBody) :: y <+: h.tape (headDone keepAlive hasBody) ++ following := by
    rw [Head.tape, List.append_assoc, List.singleton_append, List.prefix_append_right_inj, List.cons_prefix_cons]
    exact ⟨rfl, hy⟩
  have hwire : h.bytes ++ wire y = wire (h.openTape ++ lineFeed (headDone keepAlive hasBody) :: y) := by
    rw [← wire_tape h (headDone keepAlive hasBody), Head.tape]
    simp
  rw [hwire] at hreads
  have hopen : h.openTape ≠ [] := by
    obtain ⟨T₀, c, he, -⟩ := hT.cr
    simp [he]
  have hcs : datas a = ([] : List (List Token)).map wire := ha
  obtain ⟨s', d', hrun, hcalls, -⟩ := readHeaders_head hf hT (headEnd keepAlive hasBody) htape hcs
    (List.nil_append _).symm hreads hdel hb (.inl hopen)
  have hlf := h.tape_lineEnds (headDone keepAlive hasBody)
  have hflat : [h.tape (headDone keepAlive hasBody)].flatten = h.tape (headDone keepAlive hasBody) := List.flatten_singleton
  have huncut : ¬ CutsElement tail [h.tape (headDone keepAlive hasBody)].flatten ([h.tape (headDone keepAlive hasBody)].map wire) := by
    rintro ⟨i, hi, hcut⟩
    obtain rfl : i = 0 := by simpa using hi
    simp [cutRun] at hcut
  rw [List.nil_append, ← Head.tape, feed_lines_uncut (by rwa [hflat]) (by simp [Head.tape]) huncut, hflat,
    calls_tape_parts, callAll_parts] at hcalls
  exact ⟨s', by rw [hrun, (Prod.mk.inj hcalls).1]⟩

/-- The last of several values of a name stays. -/
theorem find_reports (fs : List Field) (d : Data) (x : Bytes) :
    ((fs.map Field.report).foldl Data.report d).req.fields.find x =
      (((fs.filter (·.name = x)).getLast?).map (·.value)).or (d.req.fields.find x) := by
  induction fs generalizing d with
  | nil => simp
  | cons f fs ih =>
    have hone : (d.report f.report).req.fields.find x = if x = f.name then some f.value else d.req.fields.find x :=
      Fields.find_set _ _ _ _
    rw [List.map_cons, List.foldl_cons, ih, hone, List.filter_cons]
    by_cases hx : f.name = x
    · rw [if_pos hx.symm, if_pos (by simpa using hx), List.getLast?_cons]
      cases (fs.filter (·.name = x)).getLast? <;> rfl
    · rw [if_neg (Ne.symm hx), if_neg (by simpa using hx)]

theorem isContentLength_of_name {f : Field} (h : f.name = bytes "Content-Length") : f.isContentLength = true := by
  rw [Field.isContentLength, h]
  decide

/-- The map has the value of the Content-Length if it is spelled that way. -/
theorem filter_name {fs gs : List Field} (h : fs.filter Field.isContentLength = gs) :
    fs.filter (·.name = bytes "Content-Length") = gs.filter (·.name = bytes "Content-Length") := by
  rw [← h, List.filter_filter]
  refine List.filter_congr fun f _ => ?_
  by_cases hn : f.name = bytes "Content-Length"
  · simp [hn, isContentLength_of_name hn]
  · simp [hn]

theorem Field.Reads.strtoull {f : Field} {n : Nat} (h : f.Reads n) (hn : n < 2 ^ 64) :
    ∃ ds rest, f.value = ds ++ rest ∧ (∀ b ∈ ds, isDigit b = true) ∧ (∀ b ∈ rest, b = 32) ∧
      Getodac.strtoull f.value = (n, ds.length) := by
  obtain ⟨ds, rest, hv, hne, hds, hrest, rfl⟩ := h
  refine ⟨ds, rest, hv, hds, hrest, ?_⟩
  have hhead : ∀ b ∈ rest.head?, isDigit b = false := by
    intro b hb
    rw [hrest b (List.mem_of_mem_head? hb)]
    decide
  rw [hv]
  exact strtoull_digits hne hds hhead hn

/-- The field as `contentLength()` reads it. -/
theorem contentLength_field {req : Request} {f : Field} {n : Nat} (hreads : f.Reads n) (hn : n < 2 ^ 64)
    (hfind : req.fields.find (bytes "Content-Length") = if f.name = bytes "Content-Length" then some f.value else none) :
    req.contentLength = n ↔ f.Plain ∨ n = chunkedData := by
  obtain ⟨ds, rest, hv, hds, hrest, hstr⟩ := hreads.strtoull hn
  unfold Request.contentLength
  by_cases hname : f.name = bytes "Content-Length"
  · rw [hfind, if_pos hname]
    simp only [hstr]
    have hplain : f.Plain ↔ rest = [] := by
      constructor
      · rintro ⟨-, hall⟩
        refine List.eq_nil_iff_forall_not_mem.2 fun b hb => ?_
        have hdig := List.all_eq_true.1 hall b (hv ▸ List.mem_append_right _ hb)
        rw [hrest b hb] at hdig
        exact absurd hdig (by decide)
      · rintro rfl
        exact ⟨hname, List.all_eq_true.2 (by simpa [hv] using hds)⟩
    rw [hplain, hv, List.length_append]
    by_cases hr : rest = []
    · simp [hr]
    · have hpos := List.length_pos_iff.2 hr
      rw [if_neg (by omega)]
      exact ⟨fun h => .inr h.symm, fun h => (h.resolve_left hr).symm⟩
  · rw [hfind, if_neg hname]
    exact ⟨fun h => .inr h.symm, fun h => (h.resolve_left fun hp => hname hp.1).symm⟩

/-- For a head that the parser accepts, in one read: `contentLength()` is the length the parser frames the body by, or
`ChunkedData` if there is none, exactly if the Content-Length is spelled as in the source and nothing follows its
number (or the number is that of `ChunkedData`). -/
theorem contentLength_agrees_iff (h : Head) {keepAlive hasBody : Bool} {following y : List Token}
    (hf : P.Follows tail (h.tape (headDone keepAlive hasBody) ++ following)) (hy : y <+: following)
    {a b : List ReadResult} (hreads : s.reads = a ++ .data (h.bytes ++ wire y) :: b) (ha : datas a = [])
    (hdel : Delivers mem s.reads) (hb : s.httpParserBuffer = []) {framing : Head → Option (Option Nat)}
    (hframing : Framing framing) {length : Option Nat} (hacc : framing h = some length) :
    (s.readHeaders mem).ended = .returned ∧
    ((s.readHeaders mem).data.req.contentLength = length.getD chunkedData ↔
      (∀ f ∈ h.fields, f.isContentLength = true → f.Plain) ∨ length = some chunkedData) := by
  obtain ⟨s', hrun⟩ := readHeaders_one h hf hy hreads ha hdel hb
  rw [hrun]
  refine ⟨rfl, ?_⟩
  have hfind := find_reports h.fields (Data.ofLine h.method h.target) (bytes "Content-Length")
  have hnone : (Data.ofLine h.method h.target).req.fields.find (bytes "Content-Length") = none := rfl
  cases length with
  | none =>
    have hfilter : h.fields.filter Field.isContentLength = [] := by
      refine List.filter_eq_nil_iff.2 fun f hf hcl => ?_
      exact absurd ((hframing.anyCase hacc).2 ⟨f, hf, hcl⟩) (by simp)
    rw [filter_name hfilter, hnone] at hfind
    have hlen : (partData h.method ⟨[], h.target, by simp⟩ (h.fields.map Field.report) keepAlive hasBody).req.contentLength =
        chunkedData := by
      unfold Request.contentLength
      rw [show (partData h.method ⟨[], h.target, by simp⟩ (h.fields.map Field.report) keepAlive hasBody).req.fields.find
        (bytes "Content-Length") = none from hfind]
    refine iff_of_true hlen (.inl fun f hf hcl => ?_)
    exact absurd (List.filter_eq_nil_iff.1 hfilter f hf) (by simp [hcl])
  | some n =>
    obtain ⟨f, hmem, hcl⟩ := (hframing.anyCase hacc).1 rfl
    -- there is no second one
    have hfilter : h.fields.filter Field.isContentLength = [f] := by
      have hin : f ∈ h.fields.filter Field.isContentLength := List.mem_filter.2 ⟨hmem, hcl⟩
      have hone := Nat.le_antisymm (hframing.once hacc) (List.length_pos_of_mem hin)
      obtain ⟨g, hg⟩ := List.length_eq_one_iff.1 hone
      rw [hg, List.mem_singleton] at hin
      rw [hg, hin]
    have hplain : (∀ g ∈ h.fields, g.isContentLength = true → g.Plain) ↔ f.Plain := by
      constructor
      · exact fun hall => hall f hmem hcl
      · intro hp g hg hgcl
        have hin : g ∈ h.fields.filter Field.isContentLength := List.mem_filter.2 ⟨hg, hgcl⟩
        rw [hfilter, List.mem_singleton] at hin
        rwa [hin]
    rw [hplain, Option.getD_some, Option.some.injEq]
    refine contentLength_field (hframing.digits hacc hmem hcl) (hframing.fits hacc) (hfind.trans ?_)
    rw [filter_name hfilter, hnone, List.filter_cons, List.filter_nil]
    by_cases hname : f.name = bytes "Content-Length"
    · simp [hname]
    · simp [hname]

/-! ## Spellings -/

/-- The number of a value: digits, then spaces. -/
def Field.length (f : Field) : Option Nat :=
  let ds := f.value.takeWhile isDigit
  if ds ≠ [] ∧ (f.value.dropWhile isDigit).all (· = 32) ∧ Decimal.value ds < 2 ^ 64 then some (Decimal.value ds) else none

/-- The framing of the parser's documentation. -/
def Head.framing (h : Head) : Option (Option Nat) :=
  match h.fields.filter Field.isContentLength with
  | [] => some none
  | [f] => f.length.map some
  | _ => none

theorem Field.reads_of_length {f : Field} {n : Nat} (h : f.length = some n) : f.Reads n ∧ n < 2 ^ 64 := by
  unfold Field.length at h
  simp only at h
  split at h
  · rename_i hc
    obtain rfl := Option.some.inj h
    refine ⟨⟨_, _, List.takeWhile_append_dropWhile.symm, hc.1, fun b hb => List.mem_takeWhile_imp hb, ?_, rfl⟩, hc.2.2⟩
    simpa using hc.2.1
  · cases h

/-- What the head is like if it is accepted. -/
theorem Head.framing_cases {h : Head} {length : Option Nat} (hacc : h.framing = some length) :
    (h.fields.filter Field.isContentLength = [] ∧ length = none) ∨
    ∃ f n, h.fields.filter Field.isContentLength = [f] ∧ length = some n ∧ f.Reads n ∧ n < 2 ^ 64 := by
  unfold Head.framing at hacc
  split at hacc
  · rename_i hfilter
    exact .inl ⟨hfilter, (Option.some.inj hacc).symm⟩
  · rename_i f hfilter
    obtain ⟨n, hn, rfl⟩ := Option.map_eq_some_iff.1 hacc
    exact .inr ⟨f, n, hfilter, rfl, Field.reads_of_length hn⟩
  · cases hacc

theorem framing_framing : Framing Head.framing where
  anyCase {h length} hacc := by
    obtain ⟨hfilter, rfl⟩ | ⟨f, n, hfilter, rfl, -⟩ := Head.framing_cases hacc
    · exact iff_of_false (by simp) fun ⟨f, hf, hcl⟩ => List.filter_eq_nil_iff.1 hfilter f hf hcl
    · have hmem : f ∈ h.fields.filter Field.isContentLength := by simp [hfilter]
      exact iff_of_true rfl ⟨f, List.mem_filter.1 hmem⟩
  once hacc := by
    obtain ⟨hfilter, -⟩ | ⟨f, n, hfilter, -⟩ := Head.framing_cases hacc <;> simp [hfilter]
  digits hacc hf hcl := by
    obtain ⟨-, he⟩ | ⟨g, n, hfilter, he, hreads, -⟩ := Head.framing_cases hacc
    · cases he
    · cases he
      have hmem := List.mem_filter.2 ⟨hf, hcl⟩
      rw [hfilter, List.mem_singleton] at hmem
      rwa [hmem]
  fits hacc := by
    obtain ⟨-, he⟩ | ⟨g, n, -, he, -, hlt⟩ := Head.framing_cases hacc
    · cases he
    · cases he
      exact hlt

/-- A line with this name and value. -/
def lengthField (name value : Bytes) (hn : name ≠ [] ∧ InLine name ∧ 58 ∉ name)
    (hv : InLine value ∧ ∀ b ∈ value.head?, b ≠ 32 ∧ b ≠ 9) : Field where
  name := name
  blanks := host.blanks
  value := value
  name_ne := hn.1
  name_ok := hn.2.1
  name_colon := hn.2.2
  blanks_ok := host.blanks_ok
  value_ok := hv.1
  value_start := hv.2

/-- A request with the line. -/
def withField (f : Field) : Head := { getFoo with fields := [f] }

/-- What `contentLength()` says of it, received in one read. -/
def lengthOf (f : Field) : Nat :=
  (Session.readHeaders plainMemory ({ reads := [.data (withField f).bytes] } :
    Session (replay true [(withField f).tape (headDone true true)]))).data.req.contentLength

def sourceSpelling : Field :=
  lengthField (bytes "Content-Length") (bytes "5") (by decide +kernel) (by decide +kernel)

theorem contentLength_source : lengthOf sourceSpelling = 5 := by
  have hf := replay_follows true ((withField sourceSpelling).tape (headDone true true) ++ []) []
  rw [List.append_nil] at hf
  refine (contentLength_agrees_iff (withField sourceSpelling) (y := []) (a := []) (b := [])
    (by rwa [List.append_nil]) (List.prefix_refl []) ?_ rfl ?_ rfl framing_framing (?_ : _ = some (some 5))).2.2 (.inl ?_)
  · simp
  · exact ⟨by decide, by decide, trivial⟩
  · decide
  · intro f hf _
    rw [List.mem_singleton.1 hf]
    exact ⟨by decide, by decide⟩

def lowerCase : Field := lengthField (bytes "content-length") (bytes "5") (by decide +kernel) (by decide +kernel)

def spaceAfter : Field := lengthField (bytes "Content-Length") (bytes "5 ") (by decide +kernel) (by decide +kernel)

/-- The parser frames the body by 5 bytes. -/
theorem other_spellings : Framing Head.framing ∧
    (withField lowerCase).framing = some (some 5) ∧ lengthOf lowerCase = chunkedData ∧
    (withField spaceAfter).framing = some (some 5) ∧ lengthOf spaceAfter = chunkedData :=
  ⟨framing_framing, by decide⟩

end Getodac
