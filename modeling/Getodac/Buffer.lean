import Getodac.Basic
/-!
# `Dracon::Buffer<char>`

A heap block with a window in it. Nothing keeps the window inside the block, so
what it shows may go past the end of the block, into whatever memory follows.
-/

namespace Getodac

/-- The `m_size` bytes of `m_buffer`, and `m_current` and `m_end` as positions in it. -/
structure Buffer where
  mem : Bytes := []
  current : Nat := 0
  stop : Nat := 0
deriving DecidableEq, Repr

namespace Buffer

def size (b : Buffer) : Nat := b.mem.length

def reset (b : Buffer) : Buffer := { b with current := 0, stop := b.size }

/-- A block that grows gets zero bytes (`make_unique` initialises it). -/
def resize (b : Buffer) (size : Nat) : Buffer :=
  if size = b.size then b.reset
  else { b with mem := b.mem.take size ++ List.replicate (size - b.size) 0 }.reset

def advance (b : Buffer) (size : Nat) : Buffer := { b with current := min (b.current + size) b.stop }

def currentSize (b : Buffer) : Nat := b.stop - b.current

def setCurrentSize (b : Buffer) (size : Nat) : Buffer := { b with stop := b.current + size }

/-- Bytes are written from the position `pos` on. -/
def store (b : Buffer) (pos : Nat) (bs : Bytes) : Buffer :=
  { b with mem := b.mem.take pos ++ bs ++ b.mem.drop (pos + bs.length) }

/-- `operator=`. -/
def assign (b : Buffer) (buff : Bytes) : Buffer :=
  ((b.resize buff.length).store 0 buff).setCurrentSize buff.length

/-- `operator*=`: put the bytes at the front and the window after them. -/
def prepend (b : Buffer) (buff : Bytes) : Buffer :=
  if b.size ≤ buff.length then b.assign buff
  else (b.reset.store 0 buff).advance buff.length

/-- `currentString`. What follows the block is `beyond`; `none` is memory that cannot be read. -/
def currentString (b : Buffer) (beyond : Option Bytes) : Option Bytes :=
  if b.stop ≤ b.size then some ((b.mem.drop b.current).take b.currentSize)
  else beyond.bind fun g =>
    if b.stop ≤ b.size + g.length then some (((b.mem ++ g).drop b.current).take b.currentSize) else none

theorem store_size {b : Buffer} {pos : Nat} {bs : Bytes} (h : pos + bs.length ≤ b.size) :
    (b.store pos bs).size = b.size := by
  simp only [size, store] at h ⊢
  simp only [List.length_append, List.length_take, List.length_drop]
  omega

theorem resize_size (b : Buffer) (n : Nat) : (b.resize n).size = n := by
  unfold resize
  split
  · rename_i h
    exact h.symm
  · simp only [reset, size, List.length_append, List.length_take, List.length_replicate]
    omega

theorem resize_current (b : Buffer) (n : Nat) : (b.resize n).current = 0 := by
  unfold resize
  split <;> rfl

/-! ## `operator*=` -/

theorem prepend_room {b : Buffer} {s : Bytes} (h : s.length < b.size) :
    b.prepend s = ⟨s ++ b.mem.drop s.length, s.length, b.size⟩ := by
  rw [prepend, if_neg (Nat.not_le.2 h), reset, store, advance]
  simp only [List.take_zero, List.nil_append, Nat.zero_add, Nat.min_eq_left (Nat.le_of_lt h)]

/-- Bytes that leave no room become the whole block, with the window at their start. -/
theorem prepend_full {b : Buffer} {s : Bytes} (h : b.size ≤ s.length) : b.prepend s = ⟨s, 0, s.length⟩ := by
  have hmem : (b.resize s.length).mem.drop s.length = [] := List.drop_eq_nil_of_le (Nat.le_of_eq (resize_size b s.length))
  rw [prepend, if_pos h, assign, store, setCurrentSize]
  simp only [hmem, resize_current, List.take_zero, List.nil_append, List.append_nil, Nat.zero_add]

/-- What both reading loops rely on: the bytes are at the front, what is received goes behind them, and the two are
then read as one, all inside a block of the same size. -/
structure Prepends (b : Buffer) (s : Bytes) : Prop where
  front : (b.reset.prepend s).mem.take s.length = s
  behind : (b.reset.prepend s).current = s.length
  room : (b.reset.prepend s).currentSize = b.size - s.length
  sameSize : (b.reset.prepend s).size = b.size
  joined (r : Bytes) (h : r.length ≤ (b.reset.prepend s).currentSize) :
    let p := b.reset.prepend s
    let q := (p.store p.current r).reset.setCurrentSize (s.length + r.length)
    q.currentString none = some (s ++ r) ∧ q.stop ≤ q.size ∧ q.size = b.size

/-- Bytes received behind the first ones, and the window set over both. -/
theorem received_joined {s rest : Bytes} (r : Bytes) (current stop : Nat) (h : r.length ≤ rest.length) :
    let q := ((Buffer.mk (s ++ rest) current stop).store s.length r).reset.setCurrentSize (s.length + r.length)
    q.currentString none = some (s ++ r) ∧ q.stop ≤ q.size ∧ q.size = s.length + rest.length := by
  intro q
  have hmem : (s ++ rest).take s.length ++ r ++ (s ++ rest).drop (s.length + r.length) = (s ++ r) ++ rest.drop r.length := by
    rw [List.take_left, List.drop_append, List.drop_eq_nil_of_le (Nat.le_add_right _ _), Nat.add_sub_cancel_left,
      List.nil_append]
  have hq : q = ⟨(s ++ r) ++ rest.drop r.length, 0, s.length + r.length⟩ := by
    simp only [q, store, reset, setCurrentSize, hmem, Nat.zero_add]
  have hsize : q.size = s.length + rest.length := by
    simp only [hq, size, List.length_append, List.length_drop]
    omega
  have hin : q.stop ≤ q.size := by
    rw [hsize, hq]
    exact Nat.add_le_add_left h _
  refine ⟨?_, hin, hsize⟩
  rw [currentString, if_pos hin, currentSize, hq]
  dsimp only
  rw [List.drop_zero, Nat.sub_zero, ← List.length_append, List.take_left]

theorem prepends_room {b : Buffer} {s : Bytes} (h : s.length < b.size) : Prepends b s := by
  have hp : b.reset.prepend s = ⟨s ++ b.mem.drop s.length, s.length, b.size⟩ := prepend_room h
  have hrest : (b.mem.drop s.length).length = b.size - s.length := List.length_drop
  have hsize : s.length + (b.mem.drop s.length).length = b.size := by omega
  refine ⟨?_, ?_, ?_, ?_, ?_⟩
  · rw [hp, List.take_left]
  · rw [hp]
  · rw [hp, currentSize]
  · rw [hp, size, List.length_append, hsize]
  · intro r hr
    rw [hp, currentSize, ← hrest] at hr
    rw [hp, ← hsize]
    exact received_joined r _ _ hr

theorem prepends_nothing {b : Buffer} (h : b.size = 0) : Prepends b [] := by
  have hp : b.reset.prepend [] = ⟨[] ++ [], 0, 0⟩ := prepend_full (Nat.le_of_eq h)
  refine ⟨rfl, ?_, ?_, ?_, ?_⟩
  · rw [hp, List.length_nil]
  · rw [hp, h]
    rfl
  · rw [hp, h]
    rfl
  · intro r hr
    rw [hp] at hr
    rw [hp, h]
    exact received_joined r 0 0 hr

/-- A string no longer than the buffer can be prepended, except one that fills it: there `operator*=` hands over to
`operator=`, which leaves the window over the string and not behind it. -/
theorem prepends_iff (b : Buffer) (s : Bytes) (h : s.length ≤ b.size) : Prepends b s ↔ s.length < b.size ∨ b.size = 0 := by
  constructor
  · intro hp
    by_contra hne
    push Not at hne
    have hfull : b.size ≤ s.length := hne.1
    have hfront : (b.reset.prepend s).current = 0 := by
      rw [prepend_full (b := b.reset) hfull]
    rw [hp.behind] at hfront
    omega
  · rintro (hroom | hzero)
    · exact prepends_room hroom
    · rw [List.length_eq_zero_iff.1 (show s.length = 0 by omega)]
      exact prepends_nothing hzero

theorem prepends_three :
    (bytes "GET").length ≤ (Buffer.mk (List.replicate 8 0) 0 8).size ∧ Prepends (.mk (List.replicate 8 0) 0 8) (bytes "GET") :=
  ⟨by decide, (prepends_iff _ _ (by decide)).2 (.inl (by decide))⟩

/-- Four bytes in a buffer of four: the window is over them, the byte received next replaces the first of them, and the
window over all five ends behind the block. -/
theorem prepend_fills :
    let b := Buffer.mk (List.replicate 4 0) 0 4
    let p := b.reset.prepend (bytes "GET ")
    let q := (p.store p.current (bytes "/")).reset.setCurrentSize (4 + 1)
    (bytes "GET ").length ≤ b.size ∧ p.current = 0 ∧ p.currentSize = 4 ∧ (bytes "/").length ≤ p.currentSize ∧
      q.mem = bytes "/ET " ∧ q.size < q.stop ∧ q.currentString none = none ∧ ¬ Prepends b (bytes "GET ") := by
  refine ⟨by decide, by decide, by decide, by decide, by decide, by decide, by decide, fun hp => ?_⟩
  exact absurd hp.behind (by decide)

end Buffer

end Getodac
