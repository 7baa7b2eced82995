import Getodac.Lib.Octets
/-!
# Bytes, error codes and what an operation of a session ends in

A session runs as a coroutine. Its operations on the socket end in one of three
ways: they return, they throw, or the run is over while they are still
suspended. What the socket and the scheduler answer is a script, a list of
results that the operation takes from the front; a statement about every script
is a statement about every run.
-/

namespace Getodac

abbrev Bytes := Octets

-- `crlf` is `Dracon::CrlfString`
export Octets (bytes bytes_ofList crlf isDigit)

/-- The `std::error_code` values that reach a session. -/
inductive ErrorCode where
  | bad_message
  | io_error
  | timed_out
  | operation_canceled
  | connection_aborted
  | os (errno : Nat)
deriving DecidableEq, Repr

/-- How an operation ended. -/
inductive Outcome where
  | returned
  | threw (ec : ErrorCode)
  /-- The script is over and the coroutine still waits in `m_yield()`. -/
  | suspended
deriving DecidableEq, Repr

/-! ## `uint32_t` -/

namespace U32

def size : Nat := 2 ^ 32

def inc (n : Nat) : Nat := (n + 1) % size

def dec (n : Nat) : Nat := (n + size - 1) % size

variable {n : Nat}

theorem inc_lt : inc n < size := Nat.mod_lt _ (by decide)

theorem dec_lt : dec n < size := Nat.mod_lt _ (by decide)

theorem inc_eq (h : n + 1 < size) : inc n = n + 1 := Nat.mod_eq_of_lt h

theorem dec_eq (h0 : 0 < n) (h : n < size) : dec n = n - 1 := by
  rw [dec, show n + size - 1 = n - 1 + size by omega, Nat.add_mod_right, Nat.mod_eq_of_lt (by omega)]

theorem inc_max (h : n + 1 = size) : inc n = 0 := by
  rw [inc, h, Nat.mod_self]

end U32

end Getodac
