import Getodac.Lib.ChunkedCoding
import Getodac.Lib.Decimal
/-!
# Responses as a client reads them

The message format of RFC 7230 from the side of the receiver: the lines of a
head up to the empty one, the fields among them, and the body by its length or
by the chunked coding. `receiveAll` reads the bodies of a connection, and
`receiveAll_cons` is the rule by which a sequence of messages is read back.
-/

namespace HttpClient

open Octets (bytes crlf isDigit)
open ChunkedCoding (decode IsBody decode_of_isBody)

/-! ## Heads -/

/-- The lines up to the empty one, where `line` is what has been read of the first, and what follows. -/
def readLines (line : Octets) : Octets → Option (List Octets × Octets)
  | [] => none
  | [_] => none
  | b :: c :: bs =>
    if b = 13 ∧ c = 10 then
      if line = [] then some ([], bs) else (readLines [] bs).map fun r => (line :: r.1, r.2)
    else readLines (line ++ [b]) (c :: bs)

/-- A line that can stand in a head. -/
def IsLine (l : Octets) : Prop := l ≠ [] ∧ 13 ∉ l

theorem readLines_line {l : Octets} (hl : 13 ∉ l) (line : Octets) (hne : line ++ l ≠ []) (bs : Octets) :
    readLines line (l ++ crlf ++ bs) = (readLines [] bs).map fun r => ((line ++ l) :: r.1, r.2) := by
  induction l generalizing line with
  | nil =>
    rw [List.append_nil] at hne
    simp [crlf, readLines, hne]
  | cons b l ih =>
    have hb : b ≠ 13 := (List.ne_of_not_mem_cons hl).symm
    obtain ⟨c, cs, hc⟩ : ∃ c cs, l ++ crlf ++ bs = c :: cs := List.exists_cons_of_ne_nil (by simp [crlf])
    have hnot : ¬ (b = 13 ∧ c = 10) := fun h => hb h.1
    have happ : line ++ b :: l = line ++ [b] ++ l := by simp
    rw [List.cons_append, List.cons_append, hc, readLines, if_neg hnot, ← hc, happ]
    exact ih (List.not_mem_of_not_mem_cons hl) (line ++ [b]) (by simp)

theorem readLines_head {ls : List Octets} (h : ∀ l ∈ ls, IsLine l) (bs : Octets) :
    readLines [] (ls.flatMap (· ++ crlf) ++ crlf ++ bs) = some (ls, bs) := by
  induction ls with
  | nil => simp [crlf, readLines]
  | cons l ls ih =>
    obtain ⟨hne, hcr⟩ := h l List.mem_cons_self
    have hls := ih fun l' hl' => h l' (List.mem_cons_of_mem _ hl')
    rw [List.append_assoc] at hls
    rw [List.flatMap_cons, List.append_assoc, List.append_assoc, readLines_line hcr [] hne, hls]
    rfl

/-! ## Fields -/

def toLower (b : UInt8) : UInt8 := if 65 ≤ b ∧ b ≤ 90 then b + 32 else b

/-- A field's name, in lower case, and its value without the blanks before it. -/
def field (line : Octets) : Octets × Octets :=
  ((line.takeWhile (· != 58)).map toLower, ((line.dropWhile (· != 58)).drop 1).dropWhile (· == 32))

theorem field_name {name : Octets} (h : 58 ∉ name) (value : Octets) :
    (field (name ++ bytes ": " ++ value)).1 = name.map toLower := by
  have hall : ∀ b ∈ name, (b != 58) = true := fun b hb => bne_iff_ne.2 fun he => h (he ▸ hb)
  rw [field, List.append_assoc, List.takeWhile_append_of_pos hall]
  simp [bytes]

theorem field_value {name : Octets} (h : 58 ∉ name) (value : Octets) :
    (field (name ++ bytes ": " ++ value)).2 = value.dropWhile (· == 32) := by
  have hall : ∀ b ∈ name, (b != 58) = true := fun b hb => bne_iff_ne.2 fun he => h (he ▸ hb)
  rw [field, List.append_assoc, List.dropWhile_append_of_pos hall]
  simp [bytes]

/-- How the end of a body is found. -/
inductive Framing where
  | length (n : Nat)
  | chunked
deriving DecidableEq, Repr

def number (value : Octets) : Option Nat :=
  if value ≠ [] ∧ value.all isDigit then some (Decimal.value value) else none

def framing (fields : List (Octets × Octets)) : Option Framing :=
  if fields.lookup (bytes "transfer-encoding") = some (bytes "chunked") then some .chunked
  else ((fields.lookup (bytes "content-length")).bind number).map .length

/-- A field that says nothing about the body. -/
def Silent (f : Octets × Octets) : Prop := f.1 ≠ bytes "transfer-encoding" ∧ f.1 ≠ bytes "content-length"

theorem lookup_silent {fs : List (Octets × Octets)} (h : ∀ f ∈ fs, Silent f) (gs : List (Octets × Octets)) :
    (fs ++ gs).lookup (bytes "transfer-encoding") = gs.lookup (bytes "transfer-encoding") ∧
      (fs ++ gs).lookup (bytes "content-length") = gs.lookup (bytes "content-length") := by
  induction fs with
  | nil => exact ⟨rfl, rfl⟩
  | cons f fs ih =>
    obtain ⟨hte, hcl⟩ := h f List.mem_cons_self
    obtain ⟨ihte, ihcl⟩ := ih fun g hg => h g (List.mem_cons_of_mem _ hg)
    rw [List.cons_append, List.lookup_cons, List.lookup_cons, beq_eq_false_iff_ne.2 hte.symm,
      beq_eq_false_iff_ne.2 hcl.symm]
    exact ⟨ihte, ihcl⟩

theorem framing_silent {fs : List (Octets × Octets)} (h : ∀ f ∈ fs, Silent f) (gs : List (Octets × Octets)) :
    framing (fs ++ gs) = framing gs := by
  obtain ⟨hte, hcl⟩ := lookup_silent h gs
  rw [framing, framing, hte, hcl]

theorem framing_chunked (gs : List (Octets × Octets)) :
    framing (field (bytes "Transfer-Encoding: chunked") :: gs) = some .chunked := by
  have hf : field (bytes "Transfer-Encoding: chunked") = (bytes "transfer-encoding", bytes "chunked") := by decide
  rw [framing, hf, List.lookup_cons, beq_self_eq_true, if_pos rfl]

theorem decimal_digits (n : Nat) : (Decimal.decimal n).all isDigit = true := by
  refine List.all_eq_true.2 fun b hb => ?_
  obtain ⟨hlo, hhi⟩ := Decimal.digit_of_mem_decimal hb
  simp [isDigit, hlo, hhi]

theorem number_decimal (n : Nat) : number (Decimal.decimal n) = some n := by
  rw [number, if_pos ⟨Decimal.decimal_ne_nil n, decimal_digits n⟩, Decimal.value_decimal]

theorem framing_length (n : Nat) {gs : List (Octets × Octets)} (h : ∀ g ∈ gs, Silent g) :
    framing (field (bytes "Content-Length: " ++ Decimal.decimal n) :: gs) = some (.length n) := by
  have hname : bytes "Content-Length: " = bytes "Content-Length" ++ bytes ": " := by decide
  have hcolon : (58 : UInt8) ∉ bytes "Content-Length" := by decide
  have hlower : (bytes "Content-Length").map toLower = bytes "content-length" := by decide
  have hne : (bytes "transfer-encoding" == bytes "content-length") = false := by decide
  have hvalue : (Decimal.decimal n).dropWhile (· == 32) = Decimal.decimal n := by
    obtain ⟨b, bs, hb⟩ := List.exists_cons_of_ne_nil (Decimal.decimal_ne_nil n)
    have hdigit := (Decimal.digit_of_mem_decimal (n := n) (b := b) (by rw [hb]; exact List.mem_cons_self)).1
    have h32 : (b == 32) = false := beq_eq_false_iff_ne.2 fun he => absurd (he ▸ hdigit) (by decide)
    rw [hb, List.dropWhile_cons, h32]
    rfl
  obtain ⟨f, hf⟩ : ∃ f, f = field (bytes "Content-Length: " ++ Decimal.decimal n) := ⟨_, rfl⟩
  have hf1 : f.1 = bytes "content-length" := by rw [hf, hname, field_name hcolon, hlower]
  have hf2 : f.2 = Decimal.decimal n := by rw [hf, hname, field_value hcolon, hvalue]
  obtain ⟨hte, -⟩ := lookup_silent h []
  rw [List.append_nil] at hte
  obtain ⟨k, v⟩ := f
  dsimp only at hf1 hf2
  rw [← hf, hf1, hf2, framing, List.lookup_cons, List.lookup_cons, hne, beq_self_eq_true, hte, if_neg (by simp [List.lookup])]
  simp [number_decimal]

/-! ## Messages -/

/-- The number of a status line. -/
def status (line : Octets) : Nat := Decimal.value ((line.drop (bytes "HTTP/1.1 ").length).takeWhile isDigit)

/-- The body of the first message and what follows it. After a status in `bodiless` there is no body, whatever the fields
say. -/
def receive (bodiless : Nat → Bool) (wire : Octets) : Option (Octets × Octets) :=
  match readLines [] wire with
  | some (line :: fields, rest) =>
    if bodiless (status line) then some ([], rest)
    else
      match framing (fields.map field) with
      | some (.length n) => if n ≤ rest.length then some (rest.take n, rest.drop n) else none
      | some .chunked => decode rest
      | none => none
  | _ => none

/-- The bodies of all messages, `fuel` of them at most. -/
def receiveAll (bodiless : Nat → Bool) : Nat → Octets → Option (List Octets)
  | _, [] => some []
  | 0, _ :: _ => none
  | fuel + 1, b :: bs =>
    match receive bodiless (b :: bs) with
    | some (body, rest) => (receiveAll bodiless fuel rest).map (body :: ·)
    | none => none

/-- The bytes behind a head carry the body as its fields say. -/
inductive Carries : Framing → Octets → Octets → Prop where
  | length (body : Octets) : Carries (.length body.length) body body
  | chunked {wire body : Octets} (h : IsBody wire body) : Carries .chunked wire body

theorem Carries.length_eq {n : Nat} {wire body : Octets} (h : Carries (.length n) wire body) : n = body.length := by
  cases h
  rfl

variable {bodiless : Nat → Bool} {line : Octets} {fields : List Octets} {fr : Framing} {wire body : Octets}

/-- A message is read back, whatever follows it. -/
theorem receive_message (hline : IsLine line) (hfields : ∀ l ∈ fields, IsLine l)
    (hfr : framing (fields.map field) = some fr) (hwire : Carries fr wire body)
    (hstatus : bodiless (status line) = true → fr = .length 0) (rest : Octets) :
    receive bodiless ((line :: fields).flatMap (· ++ crlf) ++ crlf ++ wire ++ rest) = some (body, rest) := by
  have hall : ∀ l ∈ line :: fields, IsLine l := List.forall_mem_cons.2 ⟨hline, hfields⟩
  rw [receive, List.append_assoc _ wire rest, readLines_head hall]
  dsimp only
  rw [hfr]
  split
  · rename_i hs
    cases hwire with
    | length =>
      have h0 : wire = [] := List.length_eq_zero_iff.1 (Framing.length.inj (hstatus hs))
      rw [h0, List.nil_append]
    | chunked => exact absurd (hstatus hs) (by decide)
  · cases hwire with
    | length => simp
    | chunked h => exact decode_of_isBody h rest

theorem receiveAll_cons {message rest : Octets} (hne : message ≠ []) (h : receive bodiless (message ++ rest) = some (body, rest))
    (fuel : Nat) : receiveAll bodiless (fuel + 1) (message ++ rest) = (receiveAll bodiless fuel rest).map (body :: ·) := by
  obtain ⟨b, bs, hb⟩ := List.exists_cons_of_ne_nil hne
  rw [hb, List.cons_append] at h ⊢
  rw [receiveAll, h]

end HttpClient
