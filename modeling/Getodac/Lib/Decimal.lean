import Mathlib
/-!
# Decimal numbers as bytes

`value` reads digits and `decimal` writes them, without leading zeros.
-/

namespace Decimal

/-- The number that the digits write. -/
def value (ds : List UInt8) : Nat := ds.foldl (fun n d => n * 10 + (d.toNat - 48)) 0

/-- The digits of a number. -/
def decimal (n : Nat) : List UInt8 := (Nat.toDigits 10 n).map fun c => UInt8.ofNat c.toNat

theorem value_concat (ds : List UInt8) (d : UInt8) : value (ds ++ [d]) = value ds * 10 + (d.toNat - 48) := by
  simp [value]

theorem digitChar_byte {n : Nat} (h : n < 10) : (UInt8.ofNat n.digitChar.toNat).toNat = 48 + n := by
  interval_cases n <;> rfl

theorem value_decimal (n : Nat) : value (decimal n) = n := by
  induction n using Nat.strong_induction_on with
  | _ n ih =>
    rw [decimal, Nat.toDigits_eq_if (by omega)]
    split
    · rename_i h
      have hd := digitChar_byte h
      simp only [List.map_cons, List.map_nil, value, List.foldl_cons, List.foldl_nil, hd]
      omega
    · have hd := digitChar_byte (Nat.mod_lt n (show 0 < 10 by omega))
      rw [List.map_append, List.map_cons, List.map_nil, value_concat, hd]
      have hi : value (decimal (n / 10)) = n / 10 := ih (n / 10) (by omega)
      rw [decimal] at hi
      rw [hi]
      omega

theorem decimal_ne_nil (n : Nat) : decimal n ≠ [] := by
  rw [decimal, Nat.toDigits_eq_if (by omega)]
  split <;> simp

theorem digit_of_mem_decimal {n : Nat} {b : UInt8} (h : b ∈ decimal n) : 48 ≤ b ∧ b ≤ 57 := by
  induction n using Nat.strong_induction_on with
  | _ n ih =>
    have hbyte : ∀ m, m < 10 → 48 ≤ UInt8.ofNat m.digitChar.toNat ∧ UInt8.ofNat m.digitChar.toNat ≤ 57 := by
      intro m hm
      rw [UInt8.le_iff_toNat_le, UInt8.le_iff_toNat_le, digitChar_byte hm]
      constructor
      · exact Nat.le_add_right 48 m
      · exact Nat.add_le_add_left (Nat.le_of_lt_succ hm) 48
    rw [decimal, Nat.toDigits_eq_if (by omega)] at h
    split at h
    · rename_i hlt
      obtain rfl := List.mem_singleton.1 h
      exact hbyte n hlt
    · rw [List.map_append, List.mem_append] at h
      rcases h with h | h
      · exact ih (n / 10) (by omega) h
      · obtain rfl := List.mem_singleton.1 h
        exact hbyte _ (Nat.mod_lt n (by omega))

end Decimal
