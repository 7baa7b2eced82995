import Getodac.Lib.Percent
import Getodac.Lib.Splitting
import Getodac.Utils
/-!
# `split` and `unescapeUrl`

`split_spec` is about `split` with its limit: the cuts at the first separators,
the maximal runs for the default limit, and that joined pieces are taken apart
again. The other modules use `split`, which has no limit, and `split_eq_fields`.

`unescapeUrl_spec` is about the loop of `unescapeUrl`, by positions; the other modules
use the recursion over the bytes, which `unescapeUrlChecked_eq` compares with it.
-/

namespace Getodac

open Splitting (Cut Joined IsRun fields slice)

variable {str : Bytes} {ch : UInt8}

/-! ## The loop -/

theorem find_eq_none {pos : Nat} (h : ch ∉ str.drop pos) : find str ch pos = none := if_neg h

theorem find_eq_some {pos : Nat} {p t : Bytes} (h : str.drop pos = p ++ ch :: t) (hp : ch ∉ p) :
    find str ch pos = some (pos + p.length) := by
  have hmem : ch ∈ str.drop pos := by simp [h]
  rw [find, if_pos hmem, h, List.idxOf_append_of_notMem hp, List.idxOf_cons_self, Nat.add_zero]

/-- From `pos` on, the loop cuts at the first `count` separators. -/
theorem splitLoop_cuts (str : Bytes) (ch : UInt8) (count pos : Nat) : ∃ pieces rest, Cut ch (str.drop pos) pieces rest ∧
    pieces.length = min count ((str.drop pos).count ch) ∧ (splitLoop str ch count pos).1 = pieces.filter (· ≠ []) ∧
    str.drop (splitLoop str ch count pos).2 = rest := by
  induction count generalizing pos with
  | zero => exact ⟨[], str.drop pos, ⟨rfl, by simp⟩, by simp, rfl, rfl⟩
  | succ count ih =>
    by_cases hm : ch ∈ str.drop pos
    · obtain ⟨p, t, hdrop, hp⟩ := List.eq_append_cons_of_mem hm
      have hnext : str.drop (pos + p.length + 1) = t := by
        rw [Nat.add_assoc, ← List.drop_drop, hdrop]
        simp
      obtain ⟨pieces, rest, ⟨hcut, hfree⟩, hlen, hret, hlast⟩ := ih (pos + p.length + 1)
      rw [hnext] at hcut hlen
      refine ⟨p :: pieces, rest, ⟨by rw [hdrop, hcut]; simp, List.forall_mem_cons.2 ⟨hp, hfree⟩⟩, ?_, ?_, ?_⟩
      · rw [hdrop, List.count_append, List.count_cons_self, List.count_eq_zero.2 hp, List.length_cons, hlen]
        omega
      · rw [splitLoop, find_eq_some hdrop hp]
        dsimp only
        rw [hret, Nat.add_sub_cancel_left, hdrop, List.take_left, List.filter_cons]
        by_cases hne : p = [] <;> simp [hne]
      · rw [splitLoop, find_eq_some hdrop hp]
        exact hlast
    · have hloop : splitLoop str ch (count + 1) pos = ([], pos) := by rw [splitLoop, find_eq_none hm]
      rw [hloop, List.count_eq_zero.2 hm]
      exact ⟨[], str.drop pos, ⟨rfl, by simp⟩, rfl, rfl, rfl⟩

/-- The pieces before the first `count` separators, and the rest. -/
theorem splitCount_cuts (str : Bytes) (ch : UInt8) (count : Nat) : ∃ pieces rest, Cut ch str pieces rest ∧
    pieces.length = min count (str.count ch) ∧ splitCount str ch count = (pieces ++ [rest]).filter (· ≠ []) := by
  obtain ⟨pieces, rest, hcut, hlen, hret, hlast⟩ := splitLoop_cuts str ch count 0
  rw [List.drop_zero] at hcut hlen
  refine ⟨pieces, rest, hcut, hlen, ?_⟩
  by_cases hstr : str = []
  · have hnil : pieces.flatMap (· ++ [ch]) ++ rest = [] := hcut.eq.symm.trans hstr
    obtain ⟨hpieces, hrest⟩ := List.append_eq_nil_iff.1 hnil
    rw [splitCount, if_pos hstr, hrest]
    cases pieces with
    | nil => rfl
    | cons p pieces => simp at hpieces
  · rw [splitCount, if_neg hstr]
    dsimp only
    rw [hret, hlast, List.filter_append]
    by_cases hend : (splitLoop str ch count 0).2 < str.length
    · have hne : rest ≠ [] := by
        rw [← hlast]
        exact mt List.drop_eq_nil_iff.1 (Nat.not_le.2 hend)
      simp [hend, hne]
    · have hnil : rest = [] := by
        rw [← hlast]
        exact List.drop_eq_nil_of_le (Nat.not_lt.1 hend)
      simp [hend, hnil]

/-! ## Without a limit -/

/-- A string has a size of 64 bits, so the default limit is none. -/
theorem splitCount_default (h : str.length < 2 ^ 64) : splitCount str ch = fields ch str := by
  obtain ⟨pieces, rest, hcut, hlen, hsplit⟩ := splitCount_cuts str ch npos
  have hcount : str.count ch ≤ npos := Nat.le_trans List.count_le_length (Nat.le_sub_one_of_lt h)
  have hrest : ch ∉ rest := by
    have := hcut.count_eq
    exact List.count_eq_zero.1 (by omega)
  rw [hsplit, Splitting.fields_of_cut hcut hrest]

theorem splitFrom_eq (piece s : Bytes) :
    splitFrom ch piece s = ((s.splitOn ch).modifyHead (piece ++ ·)).filter (· ≠ []) := by
  induction s generalizing piece with
  | nil =>
    rw [splitFrom, List.splitOn_nil]
    by_cases hp : piece = [] <;> simp [hp]
  | cons c cs ih =>
    rw [splitFrom]
    by_cases hc : c = ch
    · have hcons : (c :: cs).splitOn ch = [] :: cs.splitOn ch := by
        rw [hc]
        exact List.splitOn_append_cons_self_of_not_mem (List.not_mem_nil) cs
      have hempty : (cs.splitOn ch).modifyHead ([] ++ ·) = cs.splitOn ch := congrFun List.modifyHead_id _
      rw [if_pos hc, ih [], hcons, hempty]
      by_cases hp : piece = [] <;> simp [hp]
    · have hcons : (c :: cs).splitOn ch = (cs.splitOn ch).modifyHead (c :: ·) := by
        simp [List.splitOn, List.splitOnP_cons_eq_if_modifyHead, hc]
      rw [if_neg hc, ih, hcons, List.modifyHead_modifyHead]
      congr 2
      funext x
      simp

theorem split_eq_fields (str : Bytes) (ch : UInt8) : split str ch = fields ch str := by
  have hempty : (str.splitOn ch).modifyHead ([] ++ ·) = str.splitOn ch := congrFun List.modifyHead_id _
  rw [split, splitFrom_eq, hempty, fields]

/-- `split` and the function with the default limit agree. -/
theorem splitCount_eq_split (h : str.length < 2 ^ 64) : splitCount str ch = split str ch := by
  rw [splitCount_default h, split_eq_fields]

/-! ## All of it -/

/-- A `std::string_view`, whose size is a `size_t`. -/
abbrev StringView := { s : Bytes // s.length < 2 ^ 64 }

/-- `split` cuts at the first separators, as many as the limit allows, and drops what is empty; without a limit that
leaves the maximal runs without a separator, and they come back however they are joined. -/
theorem split_spec (str : StringView) (ch : UInt8) :
    (∀ count, ∃ pieces rest, Cut ch str.1 pieces rest ∧ pieces.length = min count (str.1.count ch) ∧
      splitCount str.1 ch count = (pieces ++ [rest]).filter (· ≠ [])) ∧
    (∃ runs : List (Nat × Nat), runs.Pairwise (fun a b => a.2 < b.1) ∧ (∀ r, r ∈ runs ↔ IsRun ch str.1 r) ∧
      splitCount str.1 ch = runs.map (slice str.1)) ∧
    ∀ joined : StringView, Joined ch (splitCount str.1 ch) joined.1 → splitCount joined.1 ch = splitCount str.1 ch := by
  refine ⟨fun count => splitCount_cuts str.1 ch count, ?_, fun joined hj => ?_⟩
  · rw [splitCount_default str.2]
    exact Splitting.fields_runs str.1
  · rw [splitCount_default str.2] at hj ⊢
    have hfields := Splitting.fields_joined hj (Splitting.mem_fields str.1) 0
    rwa [List.replicate_zero, List.append_nil, ← splitCount_default joined.2] at hfields

theorem split_spec_slashes : splitCount (bytes "a//b") 47 = splitCount (bytes "/a/b/") 47 :=
  (split_spec ⟨bytes "/a/b/", by decide⟩ 47).2.2 ⟨bytes "a//b", by decide⟩ (by
    have hpieces : splitCount (bytes "/a/b/") 47 = [bytes "a", bytes "b"] := by decide
    rw [hpieces]
    exact .cons (bytes "a") 1 (.single (bytes "b")))

/-! ## `unescapeUrl` -/

theorem fromHex_of_hexDigit {c : UInt8} {n : Nat} (h : Octets.hexDigit c = some n) :
    fromHex c = .ok (UInt8.ofNat n) := by
  unfold Octets.hexDigit at h
  unfold fromHex
  split_ifs at h ⊢ with h1 h2 h3
  all_goals
    obtain rfl := Option.some.inj h
    refine congrArg Except.ok (UInt8.toNat_inj.1 ?_)
    simp only [UInt8.le_iff_toNat_le] at *
    simp only [UInt8.toNat_sub, UInt8.toNat_add, UInt8.toNat_ofNat']
    simp at *
    omega

theorem fromHex_of_none {c : UInt8} (h : Octets.hexDigit c = none) : fromHex c = .error "Bad hex value" := by
  unfold Octets.hexDigit at h
  unfold fromHex
  split_ifs at h ⊢
  rfl

theorem escaped_byte {hi lo : Nat} (hhi : hi < 16) (hlo : lo < 16) :
    (UInt8.ofNat hi <<< 4 ||| UInt8.ofNat lo) = UInt8.ofNat (16 * hi + lo) := by
  have hor : hi <<< 4 + lo = hi <<< 4 ||| lo := Nat.shiftLeft_add_eq_or_of_lt hlo hi
  have hshift : hi <<< 4 = 16 * hi := by rw [Nat.shiftLeft_eq, Nat.mul_comm]
  apply UInt8.toNat_inj.1
  simp only [UInt8.toNat_or, UInt8.toNat_shiftLeft, UInt8.toNat_ofNat', UInt8.reduceToNat]
  rw [Nat.mod_eq_of_lt (a := hi) (by omega), Nat.mod_eq_of_lt (a := lo) (by omega)]
  change hi <<< 4 % 2 ^ 8 ||| lo = _
  rw [Nat.mod_eq_of_lt (by omega), ← hor, hshift, Nat.mod_eq_of_lt (by omega)]

theorem unescapeUrl_cons {c : UInt8} (hc : c ≠ percent) (cs : Bytes) :
    unescapeUrl (c :: cs) = (unescapeUrl cs).map ((if c = plus then space else c) :: ·) := by
  rw [unescapeUrl.eq_def]
  simp only [if_neg hc]
  rfl

theorem unescapeUrl_escape {x y : UInt8} {hi lo : Nat} (hx : Octets.hexDigit x = some hi) (hy : Octets.hexDigit y = some lo)
    (cs : Bytes) : unescapeUrl (percent :: x :: y :: cs) = (unescapeUrl cs).map (UInt8.ofNat (16 * hi + lo) :: ·) := by
  rw [unescapeUrl, if_pos rfl, fromHex_of_hexDigit hx, fromHex_of_hexDigit hy,
    ← escaped_byte (Octets.hexDigit_lt hx) (Octets.hexDigit_lt hy)]
  rfl

theorem unescapeUrl_badDigit {x y : UInt8} (h : Octets.hexDigit x = none ∨ Octets.hexDigit y = none) (cs : Bytes) :
    unescapeUrl (percent :: x :: y :: cs) = .error "Bad hex value" := by
  rw [unescapeUrl, if_pos rfl]
  rcases h with h | h
  · rw [fromHex_of_none h]
    rfl
  · rw [fromHex_of_none h]
    cases hx : Octets.hexDigit x with
    | none =>
      rw [fromHex_of_none hx]
      rfl
    | some n =>
      rw [fromHex_of_hexDigit hx]
      rfl

theorem unescapeUrl_short {cs : Bytes} (h : cs.length < 2) : unescapeUrl (percent :: cs) = .error "Malformated URL" := by
  match cs, h with
  | [], _ => rfl
  | [_], _ => rfl

/-- The source decodes what can be decoded, and to the same bytes. -/
theorem unescapeUrl_toOption (text : Bytes) : (unescapeUrl text).toOption = Percent.decode text := by
  induction text using Percent.scan_induction with
  | nil => rfl
  | byte c text hc ih =>
    rw [unescapeUrl_cons hc, Percent.decode_cons hc, ← ih]
    cases unescapeUrl text <;> rfl
  | escape x y text ih =>
    cases hx : Octets.hexDigit x with
    | none =>
      rw [Percent.decode_badDigit (.inl hx)]
      exact congrArg Except.toOption (unescapeUrl_badDigit (.inl hx) text)
    | some hi =>
      cases hy : Octets.hexDigit y with
      | none =>
        rw [Percent.decode_badDigit (.inr hy)]
        exact congrArg Except.toOption (unescapeUrl_badDigit (.inr hy) text)
      | some lo =>
        rw [Percent.decode_escape hx hy, ← ih]
        refine (congrArg Except.toOption (unescapeUrl_escape hx hy text)).trans ?_
        cases unescapeUrl text <;> rfl
  | short text h =>
    rw [Percent.decode_short h]
    exact congrArg Except.toOption (unescapeUrl_short h)

theorem unescapeUrl_ok_iff {text out : Bytes} : unescapeUrl text = .ok out ↔ Percent.decode text = some out := by
  rw [← unescapeUrl_toOption]
  cases unescapeUrl text <;> simp [Except.toOption]

theorem unescapeUrl_encodes {plain : UInt8 → Prop} (hplain : ∀ c, plain c → c ≠ percent ∧ c ≠ plus) {text bs : Bytes}
    (h : Percent.Encodes plain text bs) : unescapeUrl text = .ok bs :=
  unescapeUrl_ok_iff.2 (h.decode_eq hplain)

theorem unescapeUrl_append {a b x y : Bytes} (ha : unescapeUrl a = .ok x) (hb : unescapeUrl b = .ok y) :
    unescapeUrl (a ++ b) = .ok (x ++ y) := by
  rw [unescapeUrl_ok_iff] at ha hb ⊢
  rw [Percent.decode_append ha, hb]
  rfl

/-! ## `unescapeUrl` by positions -/

theorem byteAt_append (pre : Bytes) (c : UInt8) (cs : Bytes) : byteAt (pre ++ c :: cs) pre.length = .ok c := by
  rw [byteAt, List.getElem?_append_right (Nat.le_refl _), Nat.sub_self]
  rfl

theorem fromHexAt_append (pre : Bytes) (c : UInt8) (cs : Bytes) :
    fromHexAt (pre ++ c :: cs) pre.length = (fromHex c).mapError .invalidArgument := by
  rw [fromHexAt, byteAt_append]
  rfl

/-- The positions of an escape are inside the text. -/
theorem unescapeUrlLoop_escape (pre : Bytes) (x y : UInt8) (cs out : Bytes) :
    unescapeUrlLoop (pre ++ percent :: x :: y :: cs) pre.length out = (do
      let hi ← (fromHex x).mapError .invalidArgument
      let lo ← (fromHex y).mapError .invalidArgument
      unescapeUrlLoop (pre ++ percent :: x :: y :: cs) (pre.length + 3) (out ++ [hi <<< 4 ||| lo])) := by
  have hlen : (pre ++ percent :: x :: y :: cs).length = pre.length + (cs.length + 3) := List.length_append
  have hx := fromHexAt_append (pre ++ [percent]) x (y :: cs)
  have hy := fromHexAt_append (pre ++ [percent, x]) y cs
  rw [List.append_assoc, List.length_append] at hx hy
  rw [unescapeUrlLoop, if_pos (by omega), byteAt_append]
  simp only [bind, Except.bind, if_true]
  rw [if_pos (by omega)]
  rw [show fromHexAt (pre ++ percent :: x :: y :: cs) (pre.length + 1) = _ from hx,
    show fromHexAt (pre ++ percent :: x :: y :: cs) (pre.length + 2) = _ from hy]

/-- From a position on, the loop does what the recursion does with the rest, and reads nothing outside. -/
theorem unescapeUrlLoop_eq (rest : Bytes) : ∀ pre out,
    unescapeUrlLoop (pre ++ rest) pre.length out =
      ((unescapeUrl rest).map (out ++ ·)).mapError UrlFault.invalidArgument := by
  induction rest using Percent.scan_induction with
  | nil =>
    intro pre out
    rw [unescapeUrlLoop, List.append_nil, if_neg (Nat.lt_irrefl _), unescapeUrl]
    exact congrArg Except.ok (List.append_nil out).symm
  | byte c rest hc ih =>
    intro pre out
    have hpercent : c ≠ percent := hc
    have hin : pre.length < (pre ++ c :: rest).length := by simp
    have hnext (b : UInt8) : unescapeUrlLoop (pre ++ c :: rest) (pre.length + 1) (out ++ [b]) =
        ((unescapeUrl rest).map (out ++ b :: ·)).mapError UrlFault.invalidArgument := by
      have := ih (pre ++ [c]) (out ++ [b])
      simpa using this
    rw [unescapeUrlLoop, if_pos hin, byteAt_append, unescapeUrl_cons hpercent]
    simp only [bind, Except.bind, if_neg hpercent, hnext]
    by_cases hplus : c = plus
    · rw [if_pos hplus, if_pos hplus]
      cases unescapeUrl rest <;> rfl
    · rw [if_neg hplus, if_neg hplus]
      cases unescapeUrl rest <;> rfl
  | escape x y rest ih =>
    intro pre out
    have hnext (b : UInt8) : unescapeUrlLoop (pre ++ percent :: x :: y :: rest) (pre.length + 3) (out ++ [b]) =
        ((unescapeUrl rest).map (out ++ b :: ·)).mapError UrlFault.invalidArgument := by
      have := ih (pre ++ [percent, x, y]) (out ++ [b])
      simpa using this
    refine (unescapeUrlLoop_escape pre x y rest out).trans ?_
    simp only [hnext]
    change _ = ((unescapeUrl (percent :: x :: y :: rest)).map (out ++ ·)).mapError UrlFault.invalidArgument
    rw [unescapeUrl, if_pos rfl]
    cases fromHex x <;> cases fromHex y <;> cases unescapeUrl rest <;> rfl
  | short rest h =>
    intro pre out
    have hlen : (pre ++ percent :: rest).length = pre.length + (rest.length + 1) := List.length_append
    refine Eq.trans ?_ (congrArg (fun r => (r.map (out ++ ·)).mapError UrlFault.invalidArgument) (unescapeUrl_short h).symm)
    change unescapeUrlLoop (pre ++ percent :: rest) pre.length out = _
    rw [unescapeUrlLoop, if_pos (by omega), byteAt_append]
    simp only [bind, Except.bind, if_true]
    rw [if_neg (by omega)]
    rfl

theorem unescapeUrlChecked_eq (text : Bytes) :
    unescapeUrlChecked text = (unescapeUrl text).mapError UrlFault.invalidArgument := by
  have h := unescapeUrlLoop_eq text [] []
  rw [unescapeUrlChecked]
  refine h.trans ?_
  cases unescapeUrl text <;> rfl

theorem unescapeUrlChecked_ok_iff {text out : Bytes} : unescapeUrlChecked text = .ok out ↔ Percent.decode text = some out := by
  rw [unescapeUrlChecked_eq, ← unescapeUrl_ok_iff]
  cases unescapeUrl text <;> simp [Except.mapError]

/-- `unescapeUrl` accepts exactly the texts in which every escape is complete, decodes them as the reference does, never
reads outside of the text, and takes back every encoding in which `%` and `+` are escaped. -/
theorem unescapeUrl_spec (text : Bytes) :
    ((∃ out, unescapeUrlChecked text = .ok out) ↔ Percent.WellEscaped text) ∧
    (∀ out, unescapeUrlChecked text = .ok out → Percent.decode text = some out) ∧
    unescapeUrlChecked text ≠ .error .outside ∧
    ∀ bs, Percent.Encodes (fun c => c ≠ percent ∧ c ≠ plus) text bs → unescapeUrlChecked text = .ok bs := by
  refine ⟨?_, fun out h => unescapeUrlChecked_ok_iff.1 h, ?_, ?_⟩
  · rw [← Percent.decode_isSome_iff, Option.isSome_iff_exists]
    exact exists_congr fun _ => unescapeUrlChecked_ok_iff
  · rw [unescapeUrlChecked_eq]
    cases unescapeUrl text <;> simp [Except.mapError]
  · intro bs h
    exact unescapeUrlChecked_ok_iff.2 (h.decode_eq fun _ hc => hc)

/-- An escaped `%` is not the start of another escape. -/
theorem unescapeUrl_spec_once : Percent.Encodes (fun c => c ≠ percent ∧ c ≠ plus) (bytes "%252B") (bytes "%2B") ∧
    unescapeUrlChecked (bytes "%252B") = .ok (bytes "%2B") := by
  have hencodes : Percent.Encodes (fun c => c ≠ percent ∧ c ≠ plus) (bytes "%252B") (bytes "%2B") :=
    .escape (x := 50) (y := 53) rfl rfl (.plain (by decide) (.plain (by decide) .nil))
  exact ⟨hencodes, (unescapeUrl_spec _).2.2.2 _ hencodes⟩

end Getodac
