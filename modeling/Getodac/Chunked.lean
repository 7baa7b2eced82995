import Getodac.Lib.Runs
import Getodac.Write
/-!
# `OStreamBuffer` over `ChunkedStream`

A handler writes characters and blocks into an `OStreamBuffer`, which collects
them and sends them as chunks. A call that throws leaves its bytes in the
buffer; what the handler or `std::ostream` then does is any further sequence of
calls. At the end of the block `~OStreamBuffer` sends what is left, outside any
`try`, and `~ChunkedStream` the last chunk, inside one.

The stream below is any `AbstractStream`; a `Stream` is over a session.
`destructors_safe_iff`: an exception escapes from the destructors exactly if the
buffer is not empty and the connection fails before the write of its chunk stops.
-/

namespace Getodac

/-! ## The stream below -/

/-- `AbstractStream`, by its two overloads of `write`: how they end, the bytes they took and the stream after it. -/
class AbstractStream (σ : Type) where
  write : Bytes → σ → Outcome × Bytes × σ
  writev : List Bytes → σ → Outcome × Bytes × σ

/-- `BasicHttpSession`, by the answers of the socket to come. -/
instance : AbstractStream (List WriteResult) where
  write buffer rs := ((Getodac.write buffer rs).outcome, (Getodac.write buffer rs).sent, (Getodac.write buffer rs).left)
  writev buffers rs := ((Getodac.writev buffers rs).outcome, (Getodac.writev buffers rs).sent, (Getodac.writev buffers rs).left)

/-- A call of a `write` of the stream below: the buffers, what was taken of them and how it ended. -/
structure Offer where
  given : List Bytes
  taken : Bytes
  outcome : Outcome
  /-- How many of the bytes an `OStreamBuffer` holds, and keeps if the call does not return. -/
  kept : Option Nat := none
deriving DecidableEq, Repr

/-- What a `ChunkedStream` did: how it ended, its calls of the stream below, and that stream after it. -/
structure Forwarded (σ : Type) where
  outcome : Outcome
  offers : List Offer
  left : σ

variable {σ : Type} [AbstractStream σ]

/-! ## `ChunkedStream` -/

namespace ChunkedStream

/-- `EndOfChunckedStream`. -/
def endOfChunckedStream : Bytes := bytes "0\r\n\r\n"

def chunkHeader (size : Nat) : Bytes := Octets.hex size ++ crlf

/-- `m_nextLayer.write` of these buffers. -/
def nextWritev (buffers : List Bytes) (next : σ) : Forwarded σ :=
  let (outcome, taken, left) := AbstractStream.writev buffers next
  ⟨outcome, [⟨buffers, taken, outcome, none⟩], left⟩

/-- `write(ConstBuffer)`. -/
def write (buff : Bytes) (next : σ) : Forwarded σ :=
  if buff.length = 0 then ⟨.returned, [], next⟩
  else nextWritev [chunkHeader buff.length, buff, crlf] next

/-- `write(std::vector<ConstBuffer>)`. -/
def writev (buffers : List Bytes) (next : σ) : Forwarded σ :=
  let size := buffers.flatten.length
  if size = 0 then ⟨.returned, [], next⟩
  else nextWritev (chunkHeader size :: (buffers ++ [crlf])) next

/-- `~ChunkedStream`, whose `catch (...)` takes every exception. -/
def destroy (next : σ) : Forwarded σ :=
  let (outcome, taken, left) := AbstractStream.write endOfChunckedStream next
  ⟨match outcome with | .threw _ => .returned | o => o, [⟨[endOfChunckedStream], taken, outcome, none⟩], left⟩

end ChunkedStream

/-! ## `OStreamBuffer` -/

/-- `m_buffer`, which always has room for one byte. -/
structure OStreamBuffer where
  buffer : Bytes
  capacity : Nat
  fits : buffer.length ≤ capacity
  pos : 0 < capacity

namespace OStreamBuffer

/-- `m_buffer.clear()` and `reserveBuffer()`, where `reserve`, which may also shrink, ends with room for `cap` bytes. -/
def renew (cap : Nat) : OStreamBuffer where
  buffer := []
  capacity := max 1 cap
  fits := Nat.zero_le _
  pos := by omega

def append (b : OStreamBuffer) (bs : Bytes) : OStreamBuffer where
  buffer := b.buffer ++ bs
  capacity := max b.capacity (b.buffer ++ bs).length
  fits := Nat.le_max_right _ _
  pos := by have := b.pos; omega

end OStreamBuffer

/-- The buffer and the stream under it, with the capacities later calls of `reserve` end with. -/
structure Buffered (σ : Type) where
  buf : OStreamBuffer
  rs : σ
  caps : List Nat
  -- history: the calls of the stream below
  offers : List Offer

/-- Over a session. -/
abbrev Stream := Buffered (List WriteResult)

/-- How a call ended, what it returned, and the stream after it. -/
structure Called (σ : Type) where
  outcome : Outcome
  count : Nat
  stream : Buffered σ

namespace Buffered

/-- What the stream below took. -/
def sent (s : Buffered σ) : Bytes := s.offers.flatMap (·.taken)

/-- The rest of `sync` and of `xsputn` after a write: an exception leaves the buffer as it is. -/
def wrote (s : Buffered σ) (w : Forwarded σ) (count : Nat) : Called σ :=
  let s' := { s with rs := w.left, offers := s.offers ++ w.offers.map ({ · with kept := some s.buf.buffer.length }) }
  match w.outcome with
  | .returned => ⟨.returned, count, { s' with buf := .renew (s.caps.headD 0), caps := s.caps.tail }⟩
  | o => ⟨o, 0, s'⟩

def sync (s : Buffered σ) : Called σ :=
  if s.buf.buffer = [] then ⟨.returned, 0, s⟩
  else s.wrote (ChunkedStream.write s.buf.buffer s.rs) 0

/-- `if (m_buffer.size() >= m_buffer.capacity()) sync();` -/
def makeRoom (s : Buffered σ) : Called σ :=
  if s.buf.capacity ≤ s.buf.buffer.length then s.sync else ⟨.returned, 0, s⟩

def append (s : Buffered σ) (bs : Bytes) : Buffered σ := { s with buf := s.buf.append bs }

def overflow (s : Buffered σ) (c : UInt8) : Called σ :=
  match s.makeRoom with
  | ⟨.returned, _, s'⟩ => ⟨.returned, 1, s'.append [c]⟩
  | d => d

theorem makeRoom_room {s : Buffered σ} (h : s.makeRoom.outcome = .returned) :
    s.makeRoom.stream.buf.buffer.length < s.makeRoom.stream.buf.capacity := by
  unfold makeRoom at h ⊢
  split
  · rename_i hc
    have hp := s.buf.pos
    have hne : s.buf.buffer ≠ [] := by rintro h0; rw [h0] at hc; simp at hc; omega
    simp only [hc, if_true, sync, hne, if_false, wrote] at h ⊢
    split at h
    · simp only [OStreamBuffer.renew, List.length_nil]; omega
    · rename_i ho; exact absurd h ho
  · rename_i hc
    exact Nat.lt_of_not_le hc

/-- The loop of `xsputn` over what is left of its `n` bytes. -/
def xsputnLoop (n : Nat) (s : Buffered σ) (data : Bytes) : Called σ :=
  if _hd : data = [] then ⟨.returned, n, s⟩
  else if s.buf.capacity < data.length then
    s.wrote (if s.buf.buffer = [] then ChunkedStream.write data s.rs
      else ChunkedStream.writev [s.buf.buffer, data] s.rs) data.length
  else if _h : s.makeRoom.outcome = .returned then
    let s' := s.makeRoom.stream
    let len := min data.length (s'.buf.capacity - s'.buf.buffer.length)
    xsputnLoop n (s'.append (data.take len)) (data.drop len)
  else s.makeRoom
termination_by data.length
decreasing_by
  have := makeRoom_room _h
  have := List.length_pos_iff.2 _hd
  simp only [List.length_drop]
  omega

def xsputn (s : Buffered σ) (data : Bytes) : Called σ := xsputnLoop data.length s data

end Buffered

/-! ## The handler's block -/

/-- What the handler, through `std::ostream` or not, calls on the buffer. -/
inductive Op where
  | put (c : UInt8)
  | write (data : Bytes)
  | flush
deriving DecidableEq, Repr

namespace Buffered

def call (s : Buffered σ) : Op → Called σ
  | .put c => s.overflow c
  | .write data => s.xsputn data
  | .flush => s.sync

/-- A call that throws is over as well: the handler catches, or its next step is the end of the block. -/
def step (s : Buffered σ) (op : Op) : Option (Buffered σ) :=
  if (s.call op).outcome = .suspended then none else some (s.call op).stream

/-- `~OStreamBuffer`. -/
def destroyOStreamBuffer (s : Buffered σ) : Called σ := s.sync

/-- `~ChunkedStream`. -/
def destroyChunkedStream (s : Buffered σ) : Called σ :=
  let w := ChunkedStream.destroy s.rs
  ⟨w.outcome, 0, { s with rs := w.left, offers := s.offers ++ w.offers }⟩

/-- At the end of the block an exception leaves one of the two destructors, run in this order. -/
def Escapes (s : Buffered σ) : Prop :=
  (∃ ec, s.destroyOStreamBuffer.outcome = .threw ec) ∨
  (s.destroyOStreamBuffer.outcome = .returned ∧ ∃ ec, s.destroyOStreamBuffer.stream.destroyChunkedStream.outcome = .threw ec)

end Buffered

abbrev Stream.step : Stream → Op → Option Stream := Buffered.step

/-- Nothing is buffered, or no answer of the socket is an error before the bytes it accepted
end where a part of the buffered chunk (its header, its data, its line end) ends. -/
def Buffered.Drains (s : Stream) : Prop :=
  s.buf.buffer = [] ∨
  ∀ pre r post, s.rs = pre ++ r :: post → ¬ r.Benign →
    let parts := [ChunkedStream.chunkHeader s.buf.buffer.length, s.buf.buffer, crlf]
    ∃ p ∈ accepted parts.flatten.length 0 pre, p ∈ bounds parts

/-! ## When a destructor throws -/

/-- A gathering write throws exactly if an error answers before it stops. -/
theorem progress_threw_iff {bnd : List Nat} {total : Nat} (rs : List WriteResult) :
    ∀ pos, (∃ ec, (progress bnd total pos rs).1 = .threw ec) ↔
      ∃ pre r post, rs = pre ++ r :: post ∧ ¬ r.Benign ∧ ∀ p ∈ accepted total pos pre, p ∉ bnd := by
  induction rs with
  | nil => intro pos; simp [progress]
  | cons r rs ih =>
    intro pos
    have split_cons : ∀ P : List WriteResult → WriteResult → Prop,
        (∃ pre r' post, r :: rs = pre ++ r' :: post ∧ P pre r') ↔
          P [] r ∨ ∃ pre r' post, rs = pre ++ r' :: post ∧ P (r :: pre) r' := by
      intro P
      constructor
      · rintro ⟨pre, r', post, he, hp⟩
        cases pre with
        | nil => cases he; exact .inl hp
        | cons q pre => cases he; exact .inr ⟨pre, r', post, rfl, hp⟩
      · rintro (hp | ⟨pre, r', post, rfl, hp⟩)
        · exact ⟨[], r, rs, rfl, hp⟩
        · exact ⟨r :: pre, r', post, rfl, hp⟩
    rw [split_cons]
    cases r with
    | again resume =>
      cases resume with
      | none => simpa [progress, WriteResult.Benign, accepted] using ih pos
      | some ec => simp [progress, WriteResult.Benign, accepted]
    | failed ec => simp [progress, WriteResult.Benign, accepted]
    | room k hk =>
      have hb : (WriteResult.room k hk).Benign := trivial
      simp only [progress, hb, accepted, List.mem_cons, forall_eq_or_imp]
      by_cases hm : min (pos + k) total ∈ bnd
      · simp [hm]
      · simpa [hm] using ih (min (pos + k) total)

omit [AbstractStream σ] in
@[simp] theorem Buffered.wrote_outcome (s : Buffered σ) (w : Forwarded σ) (count : Nat) :
    (s.wrote w count).outcome = w.outcome := by
  unfold Buffered.wrote
  cases w.outcome <;> rfl

theorem destroyOStreamBuffer_threw_iff (s : Stream) : (∃ ec, s.destroyOStreamBuffer.outcome = .threw ec) ↔ ¬ s.Drains := by
  unfold Buffered.destroyOStreamBuffer Buffered.sync Buffered.Drains
  by_cases h0 : s.buf.buffer = []
  · simp [h0]
  · have hlen : s.buf.buffer.length ≠ 0 := by simpa using h0
    rw [if_neg h0, Buffered.wrote_outcome, ChunkedStream.write, if_neg hlen]
    change (∃ ec, (writev [_, _, _] s.rs).outcome = _) ↔ _
    rw [(writev_progress _ _ (by grind [crlf])).1, progress_threw_iff]
    simp [h0]

theorem destroyChunkedStream_safe (s : Buffered σ) (ec : ErrorCode) : s.destroyChunkedStream.outcome ≠ .threw ec := by
  unfold Buffered.destroyChunkedStream ChunkedStream.destroy
  dsimp only
  split <;> simp_all

/-- Whatever a handler does and the socket answers, no exception escapes at the end of its block
exactly if the buffer it leaves drains. -/
theorem destructors_safe_iff (s : Stream) (ops : List Op) :
    (∀ t, Runs.exec Stream.step s ops = some t → ¬ t.Escapes) ↔
      ∀ t, Runs.exec Stream.step s ops = some t → t.Drains := by
  refine forall_congr' fun t => imp_congr_right fun _ => ?_
  rw [Buffered.Escapes, destroyOStreamBuffer_threw_iff, not_or, not_not]
  constructor
  · exact fun h => h.1
  · exact fun h => ⟨h, fun ⟨_, ec, he⟩ => destroyChunkedStream_safe _ ec he⟩

/-- One character is buffered and the peer resets the connection: `~OStreamBuffer` throws. -/
theorem destructor_throws :
    ∃ t, Runs.exec Stream.step ⟨⟨[], 16, by decide, by decide⟩, [.failed .io_error], [], []⟩ [.put 97] = some t ∧
      t.destroyOStreamBuffer.outcome = .threw .io_error ∧ t.Escapes :=
  ⟨_, rfl, rfl, .inl ⟨.io_error, rfl⟩⟩

end Getodac
