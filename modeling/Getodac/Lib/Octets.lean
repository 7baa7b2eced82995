import Mathlib
/-!
# Bytes as text

Lists of bytes that stand for ASCII characters: texts, the end of a line, decimal and
hexadecimal digits.
-/

abbrev Octets := List UInt8

namespace Octets

/-- The bytes of a text (ASCII). -/
def bytes (s : String) : Octets := s.toList.map fun c => UInt8.ofNat c.toNat

/-- A literal is the list of its characters, so this makes its bytes ones that `decide` need not decode. -/
theorem bytes_ofList (l : List Char) : bytes (String.ofList l) = l.map fun c => UInt8.ofNat c.toNat :=
  congrArg _ String.toList_ofList

def crlf : Octets := [13, 10]

def isDigit (b : UInt8) : Bool := 48 ≤ b && b ≤ 57

/-- The value of a hexadecimal digit of either case. -/
def hexDigit (c : UInt8) : Option Nat :=
  if 48 ≤ c ∧ c ≤ 57 then some (c.toNat - 48)
  else if 97 ≤ c ∧ c ≤ 102 then some (c.toNat - 87)
  else if 65 ≤ c ∧ c ≤ 70 then some (c.toNat - 55)
  else none

theorem hexDigit_lt {c : UInt8} {n : Nat} (h : hexDigit c = some n) : n < 16 := by
  simp only [hexDigit, UInt8.le_iff_toNat_le] at h
  split_ifs at h with h1 h2 h3 <;> cases h
  · change 48 ≤ c.toNat ∧ c.toNat ≤ 57 at h1
    omega
  · change 97 ≤ c.toNat ∧ c.toNat ≤ 102 at h2
    omega
  · change 65 ≤ c.toNat ∧ c.toNat ≤ 70 at h3
    omega

/-- A number in hexadecimal digits, without leading zeros. -/
def hex (n : Nat) : Octets := (Nat.toDigits 16 n).map fun c => UInt8.ofNat c.toNat

end Octets
