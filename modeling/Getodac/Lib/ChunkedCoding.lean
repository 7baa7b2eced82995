import Getodac.Lib.Lists
import Getodac.Lib.Octets
/-!
# The chunked transfer coding

The grammar of RFC 7230, 4.1, without extensions and trailers, as a relation
between the bytes on the wire and the body (`IsBody`), and a decoder for it
(`decode_of_isBody`). Chunks that are broken off decode to nothing, also if a few
bytes follow that have too few line ends (`decode_broken_off`).
-/

namespace ChunkedCoding

open Octets (crlf hexDigit hex)

/-- The number that digits make, after others that make `n`. -/
def hexNum : Nat → Octets → Option Nat
  | n, [] => some n
  | n, b :: bs => (hexDigit b).bind fun v => hexNum (16 * n + v) bs

/-- A size line without its end. -/
def IsSize (ds : Octets) (n : Nat) : Prop := ds ≠ [] ∧ hexNum 0 ds = some n

/-- The wire carries the body: chunks that are not empty, the last chunk and an empty line. -/
inductive IsBody : Octets → Octets → Prop where
  | last {ds : Octets} (hs : IsSize ds 0) : IsBody (ds ++ crlf ++ crlf) []
  | chunk {ds data wire body : Octets} (hs : IsSize ds data.length) (hne : data ≠ []) (h : IsBody wire body) :
      IsBody (ds ++ crlf ++ data ++ crlf ++ wire) (data ++ body)

/-! ## The decoder -/

/-- What the decoder has seen of the part it is in. -/
inductive State where
  | start
  | size (n : Nat)
  | sizeLf (n : Nat)
  /-- So many bytes of data to come, and the end of the chunk. -/
  | data (n : Nat)
  | dataLf
  | endCr
  | endLf
deriving DecidableEq, Repr

/-- The body and what follows it, if the wire has all of it. -/
def decodeFrom : State → Octets → Option (Octets × Octets)
  | _, [] => none
  | .start, b :: bs => (hexDigit b).bind fun v => decodeFrom (.size v) bs
  | .size n, b :: bs =>
    match hexDigit b with
    | some v => decodeFrom (.size (16 * n + v)) bs
    | none => if b = 13 then decodeFrom (.sizeLf n) bs else none
  | .sizeLf n, b :: bs => if b = 10 then decodeFrom (if n = 0 then .endCr else .data n) bs else none
  | .data 0, b :: bs => if b = 13 then decodeFrom .dataLf bs else none
  | .data (n + 1), b :: bs => (decodeFrom (.data n) bs).map fun r => (b :: r.1, r.2)
  | .dataLf, b :: bs => if b = 10 then decodeFrom .start bs else none
  | .endCr, b :: bs => if b = 13 then decodeFrom .endLf bs else none
  | .endLf, b :: bs => if b = 10 then some ([], bs) else none

def decode (wire : Octets) : Option (Octets × Octets) := decodeFrom .start wire

/-! ## One byte -/

section Byte

variable (n : Nat) (b : UInt8) (bs : Octets)

theorem decodeFrom_nil (st : State) : decodeFrom st [] = none := by
  rcases st with _ | _ | _ | (_ | _) | _ | _ | _ <;> rfl

theorem decodeFrom_start : decodeFrom .start (b :: bs) = (hexDigit b).bind fun v => decodeFrom (.size v) bs := rfl

theorem decodeFrom_size : decodeFrom (.size n) (b :: bs) =
    (hexDigit b).elim (if b = 13 then decodeFrom (.sizeLf n) bs else none) fun v => decodeFrom (.size (16 * n + v)) bs := by
  rw [decodeFrom]
  cases hexDigit b <;> rfl

theorem decodeFrom_sizeLf : decodeFrom (.sizeLf n) (b :: bs) =
    if b = 10 then decodeFrom (if n = 0 then .endCr else .data n) bs else none := rfl

theorem decodeFrom_data_zero : decodeFrom (.data 0) (b :: bs) = if b = 13 then decodeFrom .dataLf bs else none := rfl

theorem decodeFrom_data_succ : decodeFrom (.data (n + 1)) (b :: bs) =
    (decodeFrom (.data n) bs).map fun r => (b :: r.1, r.2) := rfl

theorem decodeFrom_dataLf : decodeFrom .dataLf (b :: bs) = if b = 10 then decodeFrom .start bs else none := rfl

theorem decodeFrom_endCr : decodeFrom .endCr (b :: bs) = if b = 13 then decodeFrom .endLf bs else none := rfl

theorem decodeFrom_endLf : decodeFrom .endLf (b :: bs) = if b = 10 then some ([], bs) else none := rfl

end Byte

/-! ## The decoder reads the grammar -/

theorem hexDigit_cr : hexDigit 13 = none := by decide

theorem hexDigit_lf : hexDigit 10 = none := by decide

theorem decodeFrom_digits {n m : Nat} {ds : Octets} (h : hexNum n ds = some m) (wire : Octets) :
    decodeFrom (.size n) (ds ++ wire) = decodeFrom (.size m) wire := by
  induction ds generalizing n with
  | nil =>
    cases h
    rfl
  | cons b bs ih =>
    obtain ⟨v, hv, h⟩ := Option.bind_eq_some_iff.1 h
    rw [List.cons_append, decodeFrom_size, hv]
    exact ih h

theorem decode_digits {n : Nat} {ds : Octets} (h : IsSize ds n) (wire : Octets) :
    decode (ds ++ wire) = decodeFrom (.size n) wire := by
  obtain ⟨hne, hn⟩ := h
  obtain ⟨b, bs, rfl⟩ := List.exists_cons_of_ne_nil hne
  obtain ⟨v, hv, hn⟩ := Option.bind_eq_some_iff.1 hn
  rw [Nat.mul_zero, Nat.zero_add] at hn
  rw [decode, List.cons_append, decodeFrom_start, hv]
  exact decodeFrom_digits hn wire

theorem decode_size {n : Nat} {ds : Octets} (h : IsSize ds n) (wire : Octets) :
    decode (ds ++ crlf ++ wire) = decodeFrom (if n = 0 then .endCr else .data n) wire := by
  rw [List.append_assoc, decode_digits h]
  simp [crlf, decodeFrom_size, decodeFrom_sizeLf, hexDigit_cr]

theorem decodeFrom_data (data : Octets) (n : Nat) (wire : Octets) :
    decodeFrom (.data (data.length + n)) (data ++ wire) =
      (decodeFrom (.data n) wire).map fun r => (data ++ r.1, r.2) := by
  induction data with
  | nil => simp
  | cons b bs ih =>
    rw [List.length_cons, show bs.length + 1 + n = bs.length + n + 1 by omega, List.cons_append,
      decodeFrom_data_succ, ih, Option.map_map]
    rfl

theorem decode_chunk {ds data : Octets} (hs : IsSize ds data.length) (hne : data ≠ []) (wire : Octets) :
    decode (ds ++ crlf ++ data ++ crlf ++ wire) = (decode wire).map fun r => (data ++ r.1, r.2) := by
  have hlen : data.length ≠ 0 := fun h => hne (List.length_eq_zero_iff.1 h)
  rw [List.append_assoc, List.append_assoc, decode_size hs, if_neg hlen]
  refine (decodeFrom_data data 0 (crlf ++ wire)).trans ?_
  simp [crlf, decodeFrom_data_zero, decodeFrom_dataLf, decode]

theorem decode_of_isBody {wire body : Octets} (h : IsBody wire body) (rest : Octets) :
    decode (wire ++ rest) = some (body, rest) := by
  induction h with
  | last hs =>
    rw [List.append_assoc, decode_size hs, if_pos rfl]
    simp [crlf, decodeFrom_endCr, decodeFrom_endLf]
  | chunk hs hne _ ih =>
    rw [List.append_assoc, decode_chunk hs hne, ih]
    rfl

/-! ## Encoding -/

/-- Chunks one after the other, without the last. -/
def encodeChunk (size : Nat → Octets) (data : Octets) : Octets := size data.length ++ crlf ++ data ++ crlf

theorem isBody_encode {size : Nat → Octets} (hsize : ∀ n, IsSize (size n) n) {chunks : List Octets}
    (hne : ∀ c ∈ chunks, c ≠ []) {wire body : Octets} (h : IsBody wire body) :
    IsBody (chunks.flatMap (encodeChunk size) ++ wire) (chunks.flatten ++ body) := by
  induction chunks with
  | nil => exact h
  | cons c cs ih =>
    rw [List.flatMap_cons, List.flatten_cons, List.append_assoc, List.append_assoc]
    exact .chunk (hsize _) (hne c List.mem_cons_self) (ih fun d hd => hne d (List.mem_cons_of_mem _ hd))

/-! ## Sizes as `Nat.toDigits` prints them -/

theorem hexNum_append (n : Nat) (as bs : Octets) : hexNum n (as ++ bs) = (hexNum n as).bind fun m => hexNum m bs := by
  induction as generalizing n with
  | nil => rfl
  | cons a as ih =>
    rw [List.cons_append, hexNum, hexNum]
    cases hexDigit a with
    | none => rfl
    | some v => exact ih _

theorem hexNum_digit (n : Nat) {d : Nat} (hd : d < 16) : hexNum n (hex d) = some (16 * n + d) := by
  have hv : ∀ d < 16, hex d = [UInt8.ofNat d.digitChar.toNat] ∧ hexDigit (UInt8.ofNat d.digitChar.toNat) = some d := by
    decide
  obtain ⟨hb, hv⟩ := hv d hd
  rw [hb, hexNum, hv]
  rfl

theorem hex_split {n : Nat} (h : 16 ≤ n) : hex n = hex (n / 16) ++ hex (n % 16) := by
  rw [hex, hex, hex, ← List.map_append,
    Nat.toDigits_append_toDigits (by decide) (by omega) (Nat.mod_lt _ (by decide)), Nat.div_add_mod]

theorem hex_isSize (n : Nat) : IsSize (hex n) n := by
  induction n using Nat.strong_induction_on with
  | _ n ih =>
    by_cases h : n < 16
    · refine ⟨?_, by simpa using hexNum_digit 0 h⟩
      have hne : ∀ d < 16, hex d ≠ [] := by decide
      exact hne n h
    · obtain ⟨hne, hnum⟩ := ih (n / 16) (by omega)
      rw [hex_split (by omega)]
      refine ⟨by simp [hne], ?_⟩
      rw [hexNum_append, hnum, Option.bind_some, hexNum_digit _ (Nat.mod_lt _ (by decide)), Nat.div_add_mod]

/-! ## Chunks that are broken off -/

/-- After `p` the decoder goes on from the second state. -/
def Reads (st : State) (p : Octets) (st' : State) : Prop :=
  ∀ q, (decodeFrom st (p ++ q)).isSome = (decodeFrom st' q).isSome

theorem Reads.nil (st : State) : Reads st [] st := fun _ => rfl

theorem Reads.trans {st st' st'' : State} {p p' : Octets} (h : Reads st p st') (h' : Reads st' p' st'') :
    Reads st (p ++ p') st'' := by
  intro q
  rw [List.append_assoc, h, h']

theorem reads_size {ds : Octets} {n : Nat} (h : IsSize ds n) : Reads .start ds (.size n) :=
  fun q => congrArg Option.isSome (decode_digits h q)

theorem reads_cr (n : Nat) : Reads (.size n) [13] (.sizeLf n) := by
  intro q
  simp [decodeFrom_size, hexDigit_cr]

theorem reads_lf {n : Nat} (h : n ≠ 0) : Reads (.sizeLf n) [10] (.data n) := by
  intro q
  simp [decodeFrom_sizeLf, h]

theorem reads_data (data : Octets) (n : Nat) : Reads (.data (data.length + n)) data (.data n) := by
  intro q
  rw [decodeFrom_data, Option.isSome_map]

theorem reads_dataCr : Reads (.data 0) [13] .dataLf := by
  intro q
  simp [decodeFrom_data_zero]

theorem reads_dataLf : Reads .dataLf [10] .start := by
  intro q
  simp [decodeFrom_dataLf]

theorem hexNum_count {n m : Nat} {ds : Octets} (h : hexNum n ds = some m) : ds.count 10 = 0 := by
  induction ds generalizing n with
  | nil => rfl
  | cons b bs ih =>
    obtain ⟨v, hv, h⟩ := Option.bind_eq_some_iff.1 h
    have hb : b ≠ 10 := by
      rintro rfl
      rw [hexDigit_lf] at hv
      cases hv
    rw [List.count_cons_of_ne hb, ih h]

/-- How many line ends there are at least before the body is complete. -/
def State.lines : State → Nat
  | .endCr | .endLf => 1
  | _ => 2

theorem isSome_of_ite {α : Type} {c : Prop} [Decidable c] {x : Option α} (h : (if c then x else none).isSome) :
    c ∧ x.isSome := by
  by_cases hc : c
  · rw [if_pos hc] at h
    exact ⟨hc, h⟩
  · rw [if_neg hc] at h
    cases h

theorem lines_le {q : Octets} : ∀ st, (decodeFrom st q).isSome → st.lines ≤ q.count 10 := by
  induction q with
  | nil => intro st h; simp [decodeFrom_nil] at h
  | cons b bs ih =>
    intro st h
    have hle : bs.count 10 ≤ (b :: bs).count 10 := List.count_le_count_cons
    cases st with
    | start =>
      rw [decodeFrom_start] at h
      cases hv : hexDigit b with
      | none => simp [hv] at h
      | some v =>
        rw [hv] at h
        exact (ih (.size v) h).trans hle
    | size n =>
      rw [decodeFrom_size] at h
      cases hv : hexDigit b with
      | some v =>
        rw [hv] at h
        exact (ih (.size (16 * n + v)) h).trans hle
      | none =>
        rw [hv] at h
        exact (ih (.sizeLf n) (isSome_of_ite h).2).trans hle
    | sizeLf n =>
      rw [decodeFrom_sizeLf] at h
      obtain ⟨hb, h⟩ := isSome_of_ite h
      have hrest := ih _ h
      have hone : 1 ≤ (if n = 0 then State.endCr else .data n).lines := by split <;> simp [State.lines]
      rw [hb, List.count_cons_self]
      change 2 ≤ _
      omega
    | data n =>
      cases n with
      | zero =>
        rw [decodeFrom_data_zero] at h
        exact (ih .dataLf (isSome_of_ite h).2).trans hle
      | succ n =>
        rw [decodeFrom_data_succ, Option.isSome_map] at h
        exact (ih (.data n) h).trans hle
    | dataLf =>
      rw [decodeFrom_dataLf] at h
      exact (ih .start (isSome_of_ite h).2).trans hle
    | endCr =>
      rw [decodeFrom_endCr] at h
      exact (ih .endLf (isSome_of_ite h).2).trans hle
    | endLf =>
      rw [decodeFrom_endLf] at h
      rw [(isSome_of_ite h).1, List.count_cons_self]
      exact Nat.le_add_left 1 _

/-- The decoder is at a place where two line ends are still to come. -/
def Open (p : Octets) : Prop := ∃ st, Reads .start p st ∧ st.lines = 2

theorem hexNum_isPrefix {ds p : Octets} {n m : Nat} (h : hexNum n ds = some m) (hp : p <+: ds) :
    ∃ m', hexNum n p = some m' := by
  obtain ⟨rest, rfl⟩ := hp
  rw [hexNum_append] at h
  obtain ⟨m', hm', -⟩ := Option.bind_eq_some_iff.1 h
  exact ⟨m', hm'⟩

/-- All of a chunk and any part of it. -/
theorem chunk_reads {ds data : Octets} (hs : IsSize ds data.length) (hne : data ≠ []) :
    Reads .start (ds ++ crlf ++ data ++ crlf) .start ∧ ∀ p, p <+: ds ++ crlf ++ data ++ crlf → Open p := by
  have hlen : data.length ≠ 0 := fun h => hne (List.length_eq_zero_iff.1 h)
  have hsize := reads_size hs
  have hline : Reads .start (ds ++ [13]) _ := hsize.trans (reads_cr _)
  have hhead : Reads .start (ds ++ [13] ++ [10]) _ := hline.trans (reads_lf hlen)
  have hdata : Reads .start (ds ++ [13] ++ [10] ++ data) _ := hhead.trans (reads_data data 0)
  have hcr : Reads .start (ds ++ [13] ++ [10] ++ data ++ [13]) _ := hdata.trans reads_dataCr
  have hall : Reads .start (ds ++ [13] ++ [10] ++ data ++ [13] ++ [10]) _ := hcr.trans reads_dataLf
  have hsplit : ds ++ crlf ++ data ++ crlf = ds ++ [13] ++ [10] ++ data ++ [13] ++ [10] := by simp [crlf]
  rw [hsplit]
  refine ⟨hall, fun p hp => ?_⟩
  rcases List.prefix_concat_iff.1 hp with rfl | hp
  · exact ⟨_, hall, rfl⟩
  rcases List.prefix_concat_iff.1 hp with rfl | hp
  · exact ⟨_, hcr, rfl⟩
  rcases Lists.prefix_append_iff.1 hp with hp | ⟨p', rfl, hp'⟩
  · rcases List.prefix_concat_iff.1 hp with rfl | hp
    · exact ⟨_, hhead, rfl⟩
    rcases List.prefix_concat_iff.1 hp with rfl | hp
    · exact ⟨_, hline, rfl⟩
    -- a part of the digits is a number as well
    by_cases h0 : p = []
    · exact ⟨.start, h0 ▸ .nil _, rfl⟩
    · obtain ⟨m, hm⟩ := hexNum_isPrefix hs.2 hp
      exact ⟨_, reads_size ⟨h0, hm⟩, rfl⟩
  · obtain ⟨rest, rfl⟩ := hp'
    have hpart := reads_data p' rest.length
    rw [← List.length_append] at hpart
    exact ⟨_, hhead.trans hpart, rfl⟩

theorem open_chunks {size : Nat → Octets} (hsize : ∀ n, IsSize (size n) n) {chunks : List Octets} (hne : ∀ c ∈ chunks, c ≠ [])
    {p : Octets} (hp : p <+: chunks.flatMap (encodeChunk size)) : Open p := by
  induction chunks generalizing p with
  | nil => exact ⟨.start, List.prefix_nil.1 hp ▸ .nil _, rfl⟩
  | cons c cs ih =>
    obtain ⟨hall, hpart⟩ := chunk_reads (hsize c.length) (hne c List.mem_cons_self)
    rw [List.flatMap_cons] at hp
    rcases Lists.prefix_append_iff.1 hp with hp | ⟨p', rfl, hp'⟩
    · exact hpart p hp
    · obtain ⟨st, hst, hlines⟩ := ih (fun d hd => hne d (List.mem_cons_of_mem _ hd)) hp'
      exact ⟨st, hall.trans hst, hlines⟩

/-- Chunks that are broken off anywhere, and then bytes with less than two line ends, are no body and have none in them. -/
theorem decode_broken_off {size : Nat → Octets} (hsize : ∀ n, IsSize (size n) n) (chunks : List Octets)
    (hne : ∀ c ∈ chunks, c ≠ []) {p q : Octets} (hp : p <+: chunks.flatMap (encodeChunk size)) (hq : q.count 10 < 2) :
    decode (p ++ q) = none := by
  obtain ⟨st, hst, hlines⟩ := open_chunks hsize hne hp
  by_contra hd
  have hsome := Option.isSome_iff_ne_none.2 hd
  rw [decode, hst] at hsome
  have hle := lines_le st hsome
  omega

end ChunkedCoding
