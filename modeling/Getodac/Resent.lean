import Getodac.Encoding
import Getodac.WriteAnswers
/-!
# Payload bytes that are sent a second time

`OStreamBuffer` clears its buffer only when a write has returned, so what a write
that threw was given of it goes out again with the next chunk. `sends_resent`: none
of these bytes is sent a second time exactly if, whenever a call begins to send
such a buffer, the socket takes no more than the size line.
-/

namespace Getodac

/-! ## Bytes that are sent again -/

/-- How many payload bytes the stream below takes that a write that threw was given before. The first `stale` bytes of
`m_buffer` are such bytes; a write of the buffer that returns clears it. -/
def resent (stale : Nat) : List Offer → Nat
  | [] => 0
  | o :: os =>
    match o.kept with
    | none => resent stale os
    | some kept =>
      min stale (o.taken.length - (o.given.headD []).length) + resent (if o.outcome = .returned then 0 else kept) os

/-- How many bytes of `m_buffer` a write that threw was given, after these calls. -/
def stale (k : Nat) : List Offer → Nat
  | [] => k
  | o :: os =>
    match o.kept with
    | none => stale k os
    | some kept => stale (if o.outcome = .returned then 0 else kept) os

theorem stale_append (k : Nat) (os os' : List Offer) : stale k (os ++ os') = stale (stale k os) os' := by
  induction os generalizing k with
  | nil => rfl
  | cons o os ih =>
    rw [List.cons_append, stale, stale]
    split
    · exact ih k
    · exact ih _

theorem resent_append (k : Nat) (os os' : List Offer) :
    resent k (os ++ os') = resent k os + resent (stale k os) os' := by
  induction os generalizing k with
  | nil => simp [resent, stale]
  | cons o os ih =>
    rw [List.cons_append, resent, resent, stale]
    split
    · exact ih k
    · rw [ih, Nat.add_assoc]

/-- Only the buffer's bytes count. -/
theorem resent_of_direct {os : List Offer} (h : ∀ o ∈ os, o.kept = none) (k : Nat) : resent k os = 0 := by
  induction os with
  | nil => rfl
  | cons o os ih =>
    rw [resent, h o List.mem_cons_self]
    exact ih fun x hx => h x (List.mem_cons_of_mem _ hx)

/-- Where no call follows one that does not return. -/
def Consecutive (os : List Offer) : Prop := os.Pairwise fun o _ => o.outcome = .returned

theorem resent_consecutive {os : List Offer} (h : Consecutive os) : resent 0 os = 0 := by
  induction os with
  | nil => rfl
  | cons o os ih =>
    obtain ⟨hret, hrest⟩ := List.pairwise_cons.1 h
    cases os with
    | nil =>
      rw [resent]
      split <;> simp [resent]
    | cons o' os =>
      rw [resent]
      split
      · exact ih hrest
      · rw [if_pos (hret o' List.mem_cons_self), ih hrest]
        simp

/-! ## How a call begins -/

variable {σ : Type} [AbstractStream σ]

theorem Buffered.Does.consecutive {s : Buffered σ} {data : Bytes} {d : Called σ} (h : s.Does data d) :
    ∃ os, d.stream.offers = s.offers ++ os ∧ (∀ o ∈ os, o.IsChunk ∧ o.IsAnswer σ) ∧ Consecutive os ∧
      (d.outcome = .returned → ∀ o ∈ os, o.outcome = .returned) := by
  obtain ⟨os, hos, hchunk, hret, hnot⟩ := h
  refine ⟨os, hos, hchunk, ?_, fun hd => (hret hd).1⟩
  by_cases hd : d.outcome = .returned
  · exact List.pairwise_of_forall_mem_list fun o ho _ _ => (hret hd).1 o ho
  · obtain ⟨init, o, rfl, hinit, -⟩ := hnot hd
    refine List.pairwise_append.2 ⟨?_, List.pairwise_singleton _ _, fun x hx _ _ => hinit x hx⟩
    exact List.pairwise_of_forall_mem_list fun x hx _ _ => hinit x hx

theorem ChunkedStream.call_kept (next : σ) (op : ChunkedOp) : ∀ o ∈ (call next op).offers, o.kept = none := by
  have hwritev : ∀ buffers, ∀ o ∈ (writev buffers next).offers, o.kept = none := by
    intro buffers o ho
    unfold writev at ho
    dsimp only at ho
    split at ho
    · cases ho
    · rw [List.mem_singleton.1 ho]
  cases op with
  | write buff =>
    rw [call, write_eq]
    exact hwritev [buff]
  | writev buffers => exact hwritev buffers

namespace Buffered

/-- The size of the chunk with which a call begins to send the buffer. -/
def firstChunk (s : Buffered σ) : Send → Option Nat
  | .buffered .flush => if s.buf.buffer = [] then none else some s.buf.buffer.length
  | .buffered (.put _) => if s.buf.capacity < s.buf.buffer.length + 1 then some s.buf.capacity else none
  | .buffered (.write data) =>
    if s.buf.capacity < data.length then some (s.buf.buffer.length + data.length)
    else if s.buf.capacity < s.buf.buffer.length + data.length then some s.buf.capacity
    else none
  | .direct _ => none

/-- The first of the new calls is a write of a chunk of this size from the buffer, in the state the stream below is in. -/
def Begins (s : Buffered σ) (d : Called σ) : Option Nat → Prop
  | none => d.stream.offers = s.offers
  | some n => ∃ parts o rest, d.stream.offers = s.offers ++ o :: rest ∧ o.given = ChunkedStream.chunkHeader n :: parts ∧
      parts.flatten ≠ [] ∧ o.taken = (AbstractStream.writev o.given s.rs).2.1 ∧ o.kept.isSome

theorem Begins.extend {s : Buffered σ} {c d : Called σ} {n : Nat} (h : s.Begins c (some n)) (os : List Offer)
    (hd : d.stream.offers = c.stream.offers ++ os) : s.Begins d (some n) := by
  obtain ⟨parts, o, rest, hoffers, hfirst⟩ := h
  exact ⟨parts, o, rest ++ os, by rw [hd, hoffers]; simp, hfirst⟩

omit [AbstractStream σ] in
theorem wrote_offers (s : Buffered σ) (w : Forwarded σ) (count : Nat) :
    (s.wrote w count).stream.offers = s.offers ++ w.offers.map ({ · with kept := some s.buf.buffer.length }) := by
  unfold wrote
  dsimp only
  split <;> rfl

theorem wrote_begins (s : Buffered σ) (buffers : List Bytes) (hne : buffers.flatten ≠ []) (count : Nat) :
    s.Begins (s.wrote (ChunkedStream.writev buffers s.rs) count) (some buffers.flatten.length) := by
  have hlen : buffers.flatten.length ≠ 0 := fun h => hne (List.length_eq_zero_iff.1 h)
  rw [ChunkedStream.writev, if_neg hlen]
  exact ⟨buffers ++ [crlf], _, [], wrote_offers s _ count, rfl, by simp [crlf], rfl, rfl⟩

theorem sync_begins {s : Buffered σ} (hne : s.buf.buffer ≠ []) : s.Begins s.sync (some s.buf.buffer.length) := by
  have h := wrote_begins s [s.buf.buffer] (by simpa using hne) 0
  rw [← ChunkedStream.write_eq] at h
  rw [sync, if_neg hne]
  simpa using h

omit [AbstractStream σ] in
theorem full_ne {s : Buffered σ} (h : s.buf.capacity ≤ s.buf.buffer.length) : s.buf.buffer ≠ [] := by
  have hpos := s.buf.pos
  exact List.ne_nil_of_length_pos (by omega)

theorem overflow_begins (s : Buffered σ) (c : UInt8) : s.Begins (s.overflow c) (s.firstChunk (.buffered (.put c))) := by
  have hfits := s.buf.fits
  rw [firstChunk]
  by_cases hfull : s.buf.capacity ≤ s.buf.buffer.length
  · have hroom : s.makeRoom = s.sync := if_pos hfull
    have hcap : s.buf.buffer.length = s.buf.capacity := by omega
    rw [if_pos (by omega), ← hcap]
    refine (sync_begins (full_ne hfull)).extend [] ?_
    rw [overflow, hroom]
    split
    · rename_i he
      rw [he]
      simp [append]
    · simp
  · have hroom : s.makeRoom = ⟨.returned, 0, s⟩ := if_neg hfull
    rw [if_neg (by omega), Begins, overflow, hroom]
    rfl

/-- A block that fits into the buffer, which is full. -/
theorem xsputnLoop_full (s : Buffered σ) (data : Bytes) (hd : data ≠ []) (hcap : ¬ s.buf.capacity < data.length)
    (hfull : s.buf.capacity ≤ s.buf.buffer.length) (n : Nat) : s.Begins (s.xsputnLoop n data) (some s.buf.capacity) := by
  have hroom : s.makeRoom = s.sync := if_pos hfull
  have hlen : s.buf.buffer.length = s.buf.capacity := Nat.le_antisymm s.buf.fits hfull
  have hbegin := sync_begins (full_ne hfull)
  rw [hlen] at hbegin
  rw [xsputnLoop, dif_neg hd, if_neg hcap]
  split
  · obtain ⟨os, hos, -⟩ := xsputnLoop_does n
      (s.makeRoom.stream.append (data.take (min data.length (s.makeRoom.stream.buf.capacity - s.makeRoom.stream.buf.buffer.length))))
      (data.drop (min data.length (s.makeRoom.stream.buf.capacity - s.makeRoom.stream.buf.buffer.length)))
    exact hbegin.extend os (hos.trans (by rw [hroom]; rfl))
  · rw [hroom]
    exact hbegin

omit [AbstractStream σ] in
/-- The buffer takes what there is room for. -/
theorem append_full (s : Buffered σ) {data : Bytes} (h : s.buf.capacity ≤ s.buf.buffer.length + data.length) :
    (s.append (data.take (s.buf.capacity - s.buf.buffer.length))).buf.capacity = s.buf.capacity ∧
      (s.append (data.take (s.buf.capacity - s.buf.buffer.length))).buf.buffer.length = s.buf.capacity := by
  have hfits := s.buf.fits
  simp only [append, OStreamBuffer.append, List.length_append, List.length_take]
  omega

theorem xsputnLoop_nil (s : Buffered σ) (n : Nat) : s.xsputnLoop n [] = ⟨.returned, n, s⟩ := by
  rw [xsputnLoop, dif_pos rfl]

theorem xsputn_begins (s : Buffered σ) (data : Bytes) :
    s.Begins (s.xsputn data) (s.firstChunk (.buffered (.write data))) := by
  have hfits := s.buf.fits
  rw [xsputn, firstChunk]
  by_cases hcap : s.buf.capacity < data.length
  · have hd : data ≠ [] := List.ne_nil_of_length_pos (by omega)
    rw [if_pos hcap, xsputnLoop, dif_neg hd, if_pos hcap]
    by_cases h0 : s.buf.buffer = []
    · rw [if_pos h0, ChunkedStream.write_eq, h0]
      simpa using wrote_begins s [data] (by simpa using hd) data.length
    · rw [if_neg h0]
      simpa using wrote_begins s [s.buf.buffer, data] (by simp [hd]) data.length
  rw [if_neg hcap]
  by_cases hd : data = []
  · rw [hd, if_neg (by simp; omega), xsputnLoop_nil]
    rfl
  have hpos := List.length_pos_iff.2 hd
  by_cases hfull : s.buf.capacity ≤ s.buf.buffer.length
  · rw [if_pos (by omega)]
    exact xsputnLoop_full s data hd hcap hfull _
  · have hroom : s.makeRoom = ⟨.returned, 0, s⟩ := if_neg hfull
    rw [xsputnLoop, dif_neg hd, if_neg hcap, hroom, dif_pos rfl]
    dsimp only
    by_cases hover : s.buf.capacity < s.buf.buffer.length + data.length
    · obtain ⟨hcap', hbuf'⟩ := append_full s (Nat.le_of_lt hover)
      rw [if_pos hover, Nat.min_eq_right (by omega)]
      have hfirst := xsputnLoop_full _ (data.drop (s.buf.capacity - s.buf.buffer.length))
        (List.ne_nil_of_length_pos (by rw [List.length_drop]; omega)) (by rw [hcap', List.length_drop]; omega)
        (by rw [hcap', hbuf']) data.length
      rwa [hcap'] at hfirst
    · rw [if_neg hover, Nat.min_eq_left (by omega), List.drop_length, xsputnLoop_nil]
      rfl

theorem call_begins (s : Buffered σ) (op : Op) : s.Begins (s.call op) (s.firstChunk (.buffered op)) := by
  cases op with
  | put c => exact overflow_begins s c
  | write data => exact xsputn_begins s data
  | flush =>
    rw [firstChunk]
    by_cases h0 : s.buf.buffer = []
    · rw [if_pos h0, Begins, call, sync, if_pos h0]
    · rw [if_neg h0]
      exact sync_begins h0

/-- A call, unless it is suspended. -/
def sendStep (s : Buffered σ) (op : Send) : Option (Buffered σ) :=
  if (s.send op).outcome = .suspended then none else some (s.send op).stream

def staleBytes (s : Buffered σ) : Nat := stale 0 s.offers

/-- No byte of the buffer was given to a write that threw, or the answers spare all that is behind the size line of the chunk
with which the call begins. -/
def Spared (s : Stream) (op : Send) : Prop :=
  s.staleBytes = 0 ∨ ∀ n ∈ s.firstChunk op, Spares (ChunkedStream.chunkHeader n).length s.rs

theorem chunkHeader_ne (n : Nat) : ChunkedStream.chunkHeader n ≠ [] := by
  simp [ChunkedStream.chunkHeader, crlf]

theorem begins_resent {s : Stream} {d : Called (List WriteResult)} {first : Option Nat} (hb : s.Begins d first)
    {os : List Offer} (hos : d.stream.offers = s.offers ++ os) (hc : Consecutive os) :
    resent s.staleBytes os = 0 ↔ s.staleBytes = 0 ∨ ∀ n ∈ first, Spares (ChunkedStream.chunkHeader n).length s.rs := by
  cases first with
  | none =>
    have hnil : os = [] := by
      rw [Begins, hos] at hb
      simpa using hb
    rw [hnil]
    exact iff_of_true rfl (.inr fun n hn => by cases hn)
  | some n =>
    obtain ⟨parts, o, rest, hoffers, hgiven, hparts, htaken, hkept⟩ := hb
    obtain rfl : os = o :: rest := List.append_cancel_left (hos.symm.trans hoffers)
    obtain ⟨kept, hkept⟩ := Option.isSome_iff_exists.1 hkept
    obtain ⟨hret, hrest⟩ := List.pairwise_cons.1 hc
    -- what follows the first write follows one that returned
    have hzero : resent (if o.outcome = .returned then 0 else kept) rest = 0 := by
      cases rest with
      | nil => rfl
      | cons o' rest =>
        rw [if_pos (hret o' List.mem_cons_self)]
        exact resent_consecutive hrest
    have hiff : o.taken.length ≤ (ChunkedStream.chunkHeader n).length ↔ Spares (ChunkedStream.chunkHeader n).length s.rs := by
      rw [htaken, hgiven]
      exact writev_spares_iff (chunkHeader_ne n) hparts s.rs
    rw [resent, hkept]
    dsimp only
    rw [hzero, hgiven, List.headD_cons]
    simp only [Option.mem_def, Option.some.injEq, forall_eq', ← hiff]
    omega

/-- One call: the bytes it sends again are none exactly if they are spared. -/
theorem send_resent (s : Stream) (op : Send) :
    ∃ os, (s.send op).stream.offers = s.offers ++ os ∧ (resent s.staleBytes os = 0 ↔ s.Spared op) := by
  cases op with
  | buffered op =>
    obtain ⟨os, hos, -, hc, -⟩ := (call_does s op).consecutive
    exact ⟨os, hos, begins_resent (call_begins s op) hos hc⟩
  | direct op =>
    exact ⟨_, rfl, iff_of_true (resent_of_direct (ChunkedStream.call_kept s.rs op) _) (.inr fun n hn => by cases hn)⟩

/-- And of all calls. -/
theorem sends_resent (s : Stream) (ops : List Send) :
    ∃ os, (s.sends ops).stream.offers = s.offers ++ os ∧
      (resent s.staleBytes os = 0 ↔ Runs.Along sendStep Spared s ops) := by
  induction ops generalizing s with
  | nil => exact ⟨[], by simp [sends], iff_of_true rfl trivial⟩
  | cons op ops ih =>
    obtain ⟨os, hos, hiff⟩ := send_resent s op
    rw [sends, Runs.Along, sendStep]
    split
    · exact ⟨os, hos, by simpa using hiff⟩
    · obtain ⟨os', hos', hiff'⟩ := ih (s.send op).stream
      have hstale : (s.send op).stream.staleBytes = stale s.staleBytes os := by
        rw [staleBytes, hos, stale_append]
        rfl
      refine ⟨os ++ os', by rw [hos', hos, List.append_assoc], ?_⟩
      rw [resent_append, Nat.add_eq_zero_iff, hiff, ← hstale, hiff']

end Buffered

end Getodac
