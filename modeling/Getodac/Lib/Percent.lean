import Getodac.Lib.Octets
/-!
# Percent-encoded bytes

A text in the form of `application/x-www-form-urlencoded`: a byte stands for
itself, `+` for a blank, and `%` with two hexadecimal digits for any byte. Which
bytes may stand for themselves is a parameter.
-/

namespace Percent

open Octets (hexDigit hexDigit_lt)

/-- The text encodes the bytes, those of `plain` as they are or in any other way. -/
inductive Encodes (plain : UInt8 → Prop) : Octets → Octets → Prop where
  | nil : Encodes plain [] []
  | plain {c : UInt8} {text bs : Octets} (hc : plain c) (h : Encodes plain text bs) :
      Encodes plain (c :: text) (c :: bs)
  | plus {text bs : Octets} (h : Encodes plain text bs) : Encodes plain (43 :: text) (32 :: bs)
  | escape {x y : UInt8} {hi lo : Nat} {text bs : Octets} (hx : hexDigit x = some hi) (hy : hexDigit y = some lo)
      (h : Encodes plain text bs) : Encodes plain (37 :: x :: y :: text) (UInt8.ofNat (16 * hi + lo) :: bs)

variable {plain : UInt8 → Prop} {text bs : Octets}

/-- A byte that has to be escaped does not occur, unless it is part of an escape. -/
theorem Encodes.not_mem {c : UInt8} (h : Encodes plain text bs) (hc : ¬ plain c) (hdigit : hexDigit c = none)
    (hpercent : c ≠ 37) (hplus : c ≠ 43) : c ∉ text := by
  have hother : ∀ {x : UInt8} {n : Nat}, hexDigit x = some n → c ≠ x := by
    rintro x n hx rfl
    rw [hdigit] at hx
    cases hx
  induction h with
  | nil => exact List.not_mem_nil
  | @plain d text bs hd _ ih =>
    have hne : c ≠ d := fun he => hc (he ▸ hd)
    simp [hne, ih]
  | plus _ ih => simp [hplus, ih]
  | escape hx hy _ ih => simp [hpercent, hother hx, hother hy, ih]

theorem Encodes.nil_iff (h : Encodes plain text bs) : text = [] ↔ bs = [] := by
  cases h <;> simp

/-! ## Decoding -/

/-- A text is read byte by byte, an escape at a time. -/
@[elab_as_elim]
theorem scan_induction {motive : Octets → Prop} (nil : motive [])
    (byte : ∀ c text, c ≠ 37 → motive text → motive (c :: text))
    (escape : ∀ x y text, motive text → motive (37 :: x :: y :: text))
    (short : ∀ text, text.length < 2 → motive (37 :: text)) : ∀ text, motive text
  | [] => nil
  | c :: text => by
    by_cases hc : c = 37
    · subst hc
      match text with
      | [] => exact short [] (by decide)
      | [x] => exact short [x] (Nat.lt_succ_self 1)
      | x :: y :: rest => exact escape x y rest (scan_induction nil byte escape short rest)
    · exact byte c text hc (scan_induction nil byte escape short text)

/-- The decoding of a text; there is none if a `%` is not followed by two digits. -/
def decode : Octets → Option Octets
  | [] => some []
  | c :: text =>
    if c = 37 then
      match text with
      | x :: y :: rest => do
        let hi ← hexDigit x
        let lo ← hexDigit y
        let bs ← decode rest
        some (UInt8.ofNat (16 * hi + lo) :: bs)
      | _ => none
    else do
      let bs ← decode text
      some ((if c = 43 then 32 else c) :: bs)

theorem decode_cons {c : UInt8} (hc : c ≠ 37) (text : Octets) :
    decode (c :: text) = (decode text).map ((if c = 43 then 32 else c) :: ·) := by
  rw [decode.eq_def]
  simp only [if_neg hc]
  cases decode text <;> rfl

theorem decode_escape {x y : UInt8} {hi lo : Nat} (hx : hexDigit x = some hi) (hy : hexDigit y = some lo) (text : Octets) :
    decode (37 :: x :: y :: text) = (decode text).map (UInt8.ofNat (16 * hi + lo) :: ·) := by
  rw [decode, if_pos rfl, hx, hy]
  cases decode text <;> rfl

theorem decode_badDigit {x y : UInt8} (h : hexDigit x = none ∨ hexDigit y = none) (text : Octets) :
    decode (37 :: x :: y :: text) = none := by
  rw [decode, if_pos rfl]
  rcases h with h | h
  · rw [h]
    rfl
  · rw [h]
    cases hexDigit x <;> rfl

theorem decode_short (h : text.length < 2) : decode (37 :: text) = none := by
  match text, h with
  | [], _ => rfl
  | [_], _ => rfl

theorem decode_append {x : Octets} (h : decode text = some x) (more : Octets) :
    decode (text ++ more) = (decode more).map (x ++ ·) := by
  induction text using scan_induction generalizing x with
  | nil =>
    cases h
    simp
  | byte c text hc ih =>
    rw [decode_cons hc] at h
    obtain ⟨y, hy, rfl⟩ := Option.map_eq_some_iff.1 h
    rw [List.cons_append, decode_cons hc, ih hy]
    cases decode more <;> rfl
  | escape x' y' text ih =>
    cases hx : hexDigit x' with
    | none =>
      rw [decode_badDigit (.inl hx)] at h
      cases h
    | some hi =>
      cases hy : hexDigit y' with
      | none =>
        rw [decode_badDigit (.inr hy)] at h
        cases h
      | some lo =>
        rw [decode_escape hx hy] at h
        obtain ⟨y, hdec, rfl⟩ := Option.map_eq_some_iff.1 h
        rw [List.cons_append, List.cons_append, List.cons_append, decode_escape hx hy, ih hdec]
        cases decode more <;> rfl
  | short text hlen =>
    rw [decode_short hlen] at h
    cases h

/-- An encoding is decoded to what it encodes, if `%` and `+` are always escaped. -/
theorem Encodes.decode_eq (h : Encodes plain text bs) (hplain : ∀ c, plain c → c ≠ 37 ∧ c ≠ 43) : decode text = some bs := by
  induction h with
  | nil => rfl
  | plain hc _ ih =>
    obtain ⟨hpercent, hplus⟩ := hplain _ hc
    rw [decode_cons hpercent, ih, if_neg hplus]
    rfl
  | plus _ ih =>
    rw [decode_cons (by decide), ih]
    rfl
  | escape hx hy _ ih =>
    rw [decode_escape hx hy, ih]
    rfl

/-! ## Texts that can be decoded -/

/-- How far a scan goes on at a byte: an escape takes the two bytes behind its `%`. -/
def stride (c : UInt8) : Nat := if c = 37 then 3 else 1

/-- The positions a scan from the left stops at. -/
inductive Scanned (text : Octets) : Nat → Prop where
  | start : Scanned text 0
  | step {i : Nat} {c : UInt8} (h : Scanned text i) (hc : text[i]? = some c) : Scanned text (i + stride c)

/-- Behind the position are two hexadecimal digits. -/
def DigitsBehind (text : Octets) (i : Nat) : Prop :=
  ∃ x y, text[i + 1]? = some x ∧ text[i + 2]? = some y ∧ (hexDigit x).isSome ∧ (hexDigit y).isSome

/-- Every `%` that starts an escape is followed by two digits. -/
def WellEscaped (text : Octets) : Prop := ∀ i, Scanned text i → text[i]? = some 37 → DigitsBehind text i

/-- The scan after its first step is a scan of the rest. -/
theorem scanned_iff {c : UInt8} {front rest : Octets} (h : (c :: front).length = stride c) {i : Nat} :
    Scanned (c :: front ++ rest) i ↔ i = 0 ∨ ∃ j, Scanned rest j ∧ i = (c :: front).length + j := by
  constructor
  · intro hi
    induction hi with
    | start => exact .inl rfl
    | @step i d _ hd ih =>
      rcases ih with rfl | ⟨j, hj, rfl⟩
      · obtain rfl : c = d := Option.some.inj hd
        exact .inr ⟨0, .start, by rw [Nat.zero_add, h, Nat.add_zero]⟩
      · rw [List.getElem?_append_right (Nat.le_add_right _ _), Nat.add_sub_cancel_left] at hd
        exact .inr ⟨j + stride d, hj.step hd, by rw [Nat.add_assoc]⟩
  · rintro (rfl | ⟨j, hj, rfl⟩)
    · exact .start
    · induction hj with
      | start =>
        have hfirst : Scanned (c :: front ++ rest) (0 + stride c) := .step .start rfl
        rwa [Nat.zero_add, ← h] at hfirst
      | @step j d _ hd ih =>
        rw [← Nat.add_assoc]
        refine ih.step ?_
        rwa [List.getElem?_append_right (Nat.le_add_right _ _), Nat.add_sub_cancel_left]

theorem digitsBehind_append {front rest : Octets} {j : Nat} :
    DigitsBehind (front ++ rest) (front.length + j) ↔ DigitsBehind rest j := by
  have hget (k : Nat) : (front ++ rest)[front.length + j + k]? = rest[j + k]? := by
    rw [Nat.add_assoc, List.getElem?_append_right (Nat.le_add_right _ _), Nat.add_sub_cancel_left]
  simp only [DigitsBehind, hget]

theorem wellEscaped_append (c : UInt8) (front rest : Octets) (h : (c :: front).length = stride c) :
    WellEscaped (c :: front ++ rest) ↔ (c = 37 → DigitsBehind (c :: front ++ rest) 0) ∧ WellEscaped rest := by
  constructor
  · intro hw
    refine ⟨fun hc => hw 0 .start (congrArg some hc), fun j hj hp => ?_⟩
    refine digitsBehind_append.1 (hw _ ((scanned_iff h).2 (.inr ⟨j, hj, rfl⟩)) ?_)
    rwa [List.getElem?_append_right (Nat.le_add_right _ _), Nat.add_sub_cancel_left]
  · rintro ⟨hfirst, hrest⟩ i hi hp
    rcases (scanned_iff h).1 hi with rfl | ⟨j, hj, rfl⟩
    · exact hfirst (Option.some.inj hp)
    · rw [List.getElem?_append_right (Nat.le_add_right _ _), Nat.add_sub_cancel_left] at hp
      exact digitsBehind_append.2 (hrest j hj hp)

theorem wellEscaped_nil : WellEscaped [] := by
  intro i _ hp
  simp at hp

theorem wellEscaped_cons {c : UInt8} (hc : c ≠ 37) (text : Octets) : WellEscaped (c :: text) ↔ WellEscaped text := by
  have hstep := wellEscaped_append c [] text (if_neg hc).symm
  simpa [hc] using hstep

theorem wellEscaped_escape (x y : UInt8) (text : Octets) :
    WellEscaped (37 :: x :: y :: text) ↔ ((hexDigit x).isSome ∧ (hexDigit y).isSome) ∧ WellEscaped text := by
  have hstep := wellEscaped_append 37 [x, y] text rfl
  simpa [DigitsBehind] using hstep

theorem not_wellEscaped_short (h : text.length < 2) : ¬ WellEscaped (37 :: text) := by
  intro hw
  obtain ⟨x, y, -, hy, -⟩ := hw 0 .start rfl
  have hlen := (List.getElem?_eq_some_iff.1 hy).1
  simp only [List.length_cons] at hlen
  omega

/-- The texts with a decoding are the well-escaped ones. -/
theorem decode_isSome_iff (text : Octets) : (decode text).isSome ↔ WellEscaped text := by
  induction text using scan_induction with
  | nil => exact ⟨fun _ => wellEscaped_nil, fun _ => rfl⟩
  | byte c text hc ih => rw [decode_cons hc, wellEscaped_cons hc, Option.isSome_map, ih]
  | escape x y text ih =>
    rw [wellEscaped_escape]
    cases hx : hexDigit x with
    | none => simp [decode_badDigit (.inl hx)]
    | some hi =>
      cases hy : hexDigit y with
      | none => simp [decode_badDigit (.inr hy)]
      | some lo => simp [decode_escape hx hy, ih]
  | short text h => simp [decode_short h, not_wellEscaped_short h]

end Percent
