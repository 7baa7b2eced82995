import Getodac.Lib.HttpClient
/-!
# Responses as RFC 7230 writes them

The strict reading of a response: a status line with a code of three digits,
fields whose names are tokens and whose values are taken without the blanks
around them, and what follows the empty line. `parse_text` reads back a head
that is written line by line.
-/

namespace HttpMessage

open Octets (bytes crlf isDigit)
open HttpClient (readLines readLines_head IsLine)

/-! ## Fields -/

/-- `tchar` of RFC 7230, 3.2.6. -/
def isTchar (b : UInt8) : Bool :=
  isDigit b || (65 ≤ b && b ≤ 90) || (97 ≤ b && b ≤ 122) || (bytes "!#$%&'*+-.^_`|~").contains b

def IsToken (name : Octets) : Prop := name ≠ [] ∧ name.all isTchar = true

instance (name : Octets) : Decidable (IsToken name) := inferInstanceAs (Decidable (_ ∧ _))

/-- Blanks may stand around a value and are not part of it. -/
def isBlank (b : UInt8) : Bool := b == 32 || b == 9

def trim (value : Octets) : Octets := (value.dropWhile isBlank).rdropWhile isBlank

/-- A field as a line of the head. -/
def fieldLine (f : Octets × Octets) : Octets := f.1 ++ bytes ": " ++ f.2

def fieldOf (line : Octets) : Option (Octets × Octets) :=
  match line.dropWhile (· != 58) with
  | [] => none
  | _ :: value => if IsToken (line.takeWhile (· != 58)) then some (line.takeWhile (· != 58), trim value) else none

theorem IsToken.not_mem {name : Octets} (h : IsToken name) {b : UInt8} (hb : isTchar b = false) : b ∉ name := by
  intro hmem
  rw [List.all_eq_true.1 h.2 b hmem] at hb
  cases hb

theorem trim_free {value : Octets} (hblank : value.any isBlank = false) : trim value = value := by
  have h : ∀ b ∈ value, isBlank b = false := fun b hb => by simpa using List.any_eq_false.1 hblank b hb
  have hdrop : value.dropWhile isBlank = value := by
    cases value with
    | nil => rfl
    | cons b bs => rw [List.dropWhile_cons_of_neg (by simp [h b List.mem_cons_self])]
  rw [trim, hdrop, List.rdropWhile_eq_self_iff]
  intro hne hlast
  rw [h _ (List.getLast_mem hne)] at hlast
  cases hlast

theorem fieldOf_fieldLine {f : Octets × Octets} (h : IsToken f.1) : fieldOf (fieldLine f) = some (f.1, trim f.2) := by
  have hcolon : (58 : UInt8) ∉ f.1 := h.not_mem (by decide)
  have hall : ∀ b ∈ f.1, (b != 58) = true := fun b hb => bne_iff_ne.2 fun he => hcolon (he ▸ hb)
  have hsep : bytes ": " = [58, 32] := by decide
  have hname : (fieldLine f).takeWhile (· != 58) = f.1 := by
    rw [fieldLine, List.append_assoc, List.takeWhile_append_of_pos hall, hsep]
    simp
  have hvalue : (fieldLine f).dropWhile (· != 58) = 58 :: 32 :: f.2 := by
    rw [fieldLine, List.append_assoc, List.dropWhile_append_of_pos hall, hsep]
    simp
  have htrim : trim (32 :: f.2) = trim f.2 := by
    rw [trim, List.dropWhile_cons_of_pos (by decide), trim]
  rw [fieldOf, hname, hvalue]
  dsimp only
  rw [if_pos h, htrim]

theorem fieldLine_isLine {f : Octets × Octets} (hname : IsToken f.1) (hvalue : 13 ∉ f.2) : IsLine (fieldLine f) := by
  have hsep : (13 : UInt8) ∉ bytes ": " := by decide
  have hcr : (13 : UInt8) ∉ f.1 := hname.not_mem (by decide)
  exact ⟨by simp [fieldLine, hname.1], by simp [fieldLine, hcr, hsep, hvalue]⟩

/-! ## Messages -/

/-- `HTTP/1.1`, a code of three digits and a blank before the reason. -/
def statusOf (line : Octets) : Option Nat :=
  let code := (line.drop 9).take 3
  if bytes "HTTP/1.1 " <+: line ∧ code.length = 3 ∧ code.all isDigit = true ∧ (line.drop 12).head? = some 32 then
    some (Decimal.value code)
  else none

theorem statusOf_line {code : Octets} (hlength : code.length = 3) (hdigits : code.all isDigit = true) (reason : Octets) :
    statusOf (bytes "HTTP/1.1 " ++ (code ++ 32 :: reason)) = some (Decimal.value code) := by
  have hhttp : (bytes "HTTP/1.1 ").length = 9 := by decide
  have hcode : ((bytes "HTTP/1.1 " ++ (code ++ 32 :: reason)).drop 9).take 3 = code := by
    rw [List.drop_left' hhttp, List.take_left' hlength]
  have hblank : ((bytes "HTTP/1.1 " ++ (code ++ 32 :: reason)).drop 12).head? = some 32 := by
    rw [← List.append_assoc, List.drop_left' (by rw [List.length_append, hhttp, hlength])]
    rfl
  rw [statusOf, hcode]
  exact if_pos ⟨List.prefix_append _ _, hlength, hdigits, hblank⟩

structure Message where
  status : Nat
  fields : List (Octets × Octets)
  /-- What follows the empty line. -/
  rest : Octets
deriving DecidableEq, Repr

def parse (wire : Octets) : Option Message :=
  match readLines [] wire with
  | some (line :: lines, rest) => do
    let status ← statusOf line
    let fields ← lines.mapM fieldOf
    some ⟨status, fields, rest⟩
  | _ => none

theorem mapM_fieldOf {fs : List (Octets × Octets)} (h : ∀ f ∈ fs, IsToken f.1) :
    (fs.map fieldLine).mapM fieldOf = some (fs.map fun f => (f.1, trim f.2)) := by
  induction fs with
  | nil => rfl
  | cons f fs ih =>
    obtain ⟨hf, hfs⟩ := List.forall_mem_cons.1 h
    rw [List.map_cons, List.mapM_cons, fieldOf_fieldLine hf, ih hfs]
    rfl

/-- A message written line by line is read back, whatever follows its head. -/
theorem parse_text {line : Octets} {status : Nat} {fs : List (Octets × Octets)} (hline : IsLine line)
    (hstatus : statusOf line = some status) (hfs : ∀ f ∈ fs, IsToken f.1 ∧ 13 ∉ f.2) (rest : Octets) :
    parse ((line :: fs.map fieldLine).flatMap (· ++ crlf) ++ crlf ++ rest) =
      some ⟨status, fs.map fun f => (f.1, trim f.2), rest⟩ := by
  have hlines : ∀ l ∈ line :: fs.map fieldLine, IsLine l := by
    refine List.forall_mem_cons.2 ⟨hline, fun l hl => ?_⟩
    obtain ⟨f, hf, rfl⟩ := List.mem_map.1 hl
    exact fieldLine_isLine (hfs f hf).1 (hfs f hf).2
  rw [parse, readLines_head hlines]
  dsimp only
  rw [hstatus, mapM_fieldOf fun f hf => (hfs f hf).1]
  rfl

end HttpMessage
