import Getodac.Lib.ChunkedCoding
import Getodac.Chunked
/-!
# What is given to the stream below is the chunked coding of what was written

`Does` says what any call on an `OStreamBuffer` does, wherever it takes its
chunks from: it gives whole chunks to the stream below, one after the other until
one does not return, and nothing is lost between these, the buffer before and the
buffer after. `chunked_decodes` is the round trip, over any stream below that does
not fail.
-/
open ChunkedCoding (IsBody decode encodeChunk)

namespace Getodac

variable {σ : Type} [AbstractStream σ]

/-! ## One chunk -/

namespace Offer

/-- What a chunk carries: the buffers between its size line and its end. -/
def payload (o : Offer) : Bytes := o.given.tail.dropLast.flatten

structure IsChunk (o : Offer) : Prop where
  ne : o.payload ≠ []
  flatten : o.given.flatten = encodeChunk Octets.hex o.payload

end Offer

omit [AbstractStream σ] in
theorem isChunk_vector {buffers : List Bytes} (h : buffers.flatten ≠ []) (taken : Bytes) (outcome : Outcome)
    (kept : Option Nat) :
    (Offer.mk (ChunkedStream.chunkHeader buffers.flatten.length :: (buffers ++ [crlf])) taken outcome kept).IsChunk := by
  constructor
  · simpa [Offer.payload] using h
  · simp [Offer.payload, encodeChunk, ChunkedStream.chunkHeader, crlf]

/-- The stream below, in some state, did this with the buffers. -/
def Offer.IsAnswer (σ : Type) [AbstractStream σ] (o : Offer) : Prop :=
  ∃ next : σ, o.outcome = (AbstractStream.writev o.given next).1 ∧ o.taken = (AbstractStream.writev o.given next).2.1

/-- What a `ChunkedStream` does with the bytes `data`: nothing if there are none, else it gives one chunk to the stream
below. -/
structure Forwarded.Sends (w : Forwarded σ) (data : Bytes) : Prop where
  nothing : data = [] → w.outcome = .returned ∧ w.offers = []
  chunk : data ≠ [] → ∃ o, w.offers = [o] ∧ o.IsChunk ∧ o.payload = data ∧ o.outcome = w.outcome ∧ o.IsAnswer σ

namespace ChunkedStream

theorem writev_sends (buffers : List Bytes) (next : σ) : (writev buffers next).Sends buffers.flatten := by
  unfold writev
  constructor
  · intro h
    simp [h]
  · intro h
    have hlen : buffers.flatten.length ≠ 0 := fun h0 => h (List.length_eq_zero_iff.1 h0)
    simp only [hlen, if_false]
    exact ⟨_, rfl, isChunk_vector h _ _ _, by simp [Offer.payload], rfl, next, rfl, rfl⟩

theorem write_eq (buff : Bytes) (next : σ) : write buff next = writev [buff] next := by
  simp [write, writev]

theorem write_sends (buff : Bytes) (next : σ) : (write buff next).Sends buff := by
  rw [write_eq]
  simpa using writev_sends [buff] next

end ChunkedStream

/-! ## What a call does -/

/-- The bytes an operation writes. -/
def Op.payload : Op → Bytes
  | .put c => [c]
  | .write data => data
  | .flush => []

/-- From `s`, with `data` to write, to where the call ended: the chunks it gave to the stream below, all of which returned
but the last if the call did not, and nothing is lost. -/
def Buffered.Does (s : Buffered σ) (data : Bytes) (d : Called σ) : Prop :=
  ∃ os, d.stream.offers = s.offers ++ os ∧
    (∀ o ∈ os, o.IsChunk ∧ o.IsAnswer σ) ∧
    (d.outcome = .returned →
      (∀ o ∈ os, o.outcome = .returned) ∧ s.buf.buffer ++ data = os.flatMap (·.payload) ++ d.stream.buf.buffer) ∧
    (d.outcome ≠ .returned → ∃ init o, os = init ++ [o] ∧ (∀ x ∈ init, x.outcome = .returned) ∧ o.outcome = d.outcome)

namespace Buffered

variable {s : Buffered σ} {data data' : Bytes} {d : Called σ}

theorem does_nothing (s : Buffered σ) (n : Nat) : s.Does [] ⟨.returned, n, s⟩ :=
  ⟨[], by simp, by simp, fun _ => ⟨by simp, by simp⟩, fun h => absurd rfl h⟩

theorem does_append (s : Buffered σ) (bs : Bytes) (n : Nat) : s.Does bs ⟨.returned, n, s.append bs⟩ :=
  ⟨[], by simp [append], by simp, fun _ => ⟨by simp, rfl⟩, fun h => absurd rfl h⟩

theorem Does.trans {n : Nat} {s' : Buffered σ} (h : s.Does data ⟨.returned, n, s'⟩) (h' : s'.Does data' d) :
    s.Does (data ++ data') d := by
  obtain ⟨os, hos, hchunk, hret, -⟩ := h
  obtain ⟨os', hos', hchunk', hret', hthrew'⟩ := h'
  obtain ⟨hall, hbuf⟩ := hret rfl
  refine ⟨os ++ os', by rw [hos', hos, List.append_assoc], ?_, fun hd => ?_, fun hd => ?_⟩
  · intro o ho
    exact (List.mem_append.1 ho).elim (hchunk o) (hchunk' o)
  · obtain ⟨hall', hbuf'⟩ := hret' hd
    refine ⟨fun o ho => (List.mem_append.1 ho).elim (hall o) (hall' o), ?_⟩
    rw [← List.append_assoc, hbuf, List.append_assoc, hbuf', List.flatMap_append, List.append_assoc]
  · obtain ⟨init, o, rfl, hinit, ho⟩ := hthrew' hd
    exact ⟨os ++ init, o, by simp, fun x hx => (List.mem_append.1 hx).elim (hall x) (hinit x), ho⟩

theorem wrote_does (s : Buffered σ) (data : Bytes) {w : Forwarded σ} (hne : s.buf.buffer ++ data ≠ [])
    (hw : w.Sends (s.buf.buffer ++ data)) (n : Nat) : s.Does data (s.wrote w n) := by
  obtain ⟨o, ho, hchunk, hpay, hout, hans⟩ := hw.chunk hne
  -- the history has the call with what the buffer keeps
  obtain ⟨o', hpay', hchunk', hans', hout', hoffers⟩ : ∃ o', o'.payload = o.payload ∧ o'.IsChunk ∧ o'.IsAnswer σ ∧
      o'.outcome = o.outcome ∧ (s.wrote w n).stream.offers = s.offers ++ [o'] := by
    refine ⟨{ o with kept := some s.buf.buffer.length }, rfl, ⟨hchunk.ne, hchunk.flatten⟩, hans, rfl, ?_⟩
    unfold wrote
    cases w.outcome <;> simp [ho]
  refine ⟨[o'], hoffers, ?_, ?_, ?_⟩
  · intro x hx
    rw [List.mem_singleton.1 hx]
    exact ⟨hchunk', hans'⟩
  · intro h
    rw [wrote_outcome] at h
    refine ⟨by simp [hout', hout, h], ?_⟩
    have hbuf : (s.wrote w n).stream.buf.buffer = [] := by
      unfold wrote
      rw [h]
      rfl
    rw [hbuf, List.append_nil, List.flatMap_singleton, hpay', hpay]
  · intro _
    exact ⟨[], o', rfl, by simp, by rw [wrote_outcome, hout', hout]⟩

theorem sync_does (s : Buffered σ) : s.Does [] s.sync := by
  unfold sync
  split
  · exact does_nothing s 0
  · rename_i hne
    refine wrote_does s [] (by simpa using hne) ?_ 0
    simpa using ChunkedStream.write_sends s.buf.buffer s.rs

theorem makeRoom_does (s : Buffered σ) : s.Does [] s.makeRoom := by
  unfold makeRoom
  split
  · exact sync_does s
  · exact does_nothing s 0

theorem overflow_does (s : Buffered σ) (c : UInt8) : s.Does [c] (s.overflow c) := by
  have h := makeRoom_does s
  unfold overflow
  split
  · rename_i n s' he
    rw [he] at h
    exact h.trans (does_append s' [c] 1)
  · rename_i d hd
    obtain ⟨os, hos, hchunk, -, hthrew⟩ := h
    have hne : s.makeRoom.outcome ≠ .returned := fun h => hd _ _ (by rw [← h])
    exact ⟨os, hos, hchunk, fun h => absurd h hne, hthrew⟩

theorem xsputnLoop_does (n : Nat) (s : Buffered σ) (data : Bytes) : s.Does data (s.xsputnLoop n data) := by
  induction hlen : data.length using Nat.strong_induction_on generalizing s data with
  | _ l ih =>
    subst hlen
    rw [xsputnLoop]
    by_cases hd : data = []
    · rw [dif_pos hd, hd]
      exact does_nothing s n
    rw [dif_neg hd]
    by_cases hcap : s.buf.capacity < data.length
    · rw [if_pos hcap]
      refine wrote_does s data (by simp [hd]) ?_ data.length
      split
      · rename_i h0
        rw [h0, List.nil_append]
        exact ChunkedStream.write_sends data s.rs
      · simpa using ChunkedStream.writev_sends [s.buf.buffer, data] s.rs
    rw [if_neg hcap]
    have hroom := makeRoom_does s
    by_cases h : s.makeRoom.outcome = .returned
    · rw [dif_pos h]
      have hlt := makeRoom_room h
      have hpos := List.length_pos_iff.2 hd
      obtain ⟨len, hlen⟩ : ∃ len, len = min data.length
        (s.makeRoom.stream.buf.capacity - s.makeRoom.stream.buf.buffer.length) := ⟨_, rfl⟩
      dsimp only
      rw [← hlen]
      have hrest := ih (data.drop len).length (by rw [List.length_drop]; omega)
        (s.makeRoom.stream.append (data.take len)) (data.drop len) rfl
      have happ := (h ▸ hroom : s.Does [] ⟨.returned, s.makeRoom.count, s.makeRoom.stream⟩).trans
        (does_append s.makeRoom.stream (data.take len) 0)
      have hall := happ.trans hrest
      rwa [List.nil_append, List.take_append_drop] at hall
    · rw [dif_neg h]
      obtain ⟨os, hos, hchunk, -, hthrew⟩ := hroom
      exact ⟨os, hos, hchunk, fun h' => absurd h' h, hthrew⟩

theorem call_does (s : Buffered σ) (op : Op) : s.Does op.payload (s.call op) := by
  cases op with
  | put c => exact overflow_does s c
  | write data => exact xsputnLoop_does data.length s data
  | flush => exact sync_does s

theorem sync_empty {s : Buffered σ} (h : s.sync.outcome = .returned) : s.sync.stream.buf.buffer = [] := by
  unfold sync at h ⊢
  split
  · assumption
  · rename_i hne
    rw [if_neg hne, wrote_outcome] at h
    unfold wrote
    rw [h]
    rfl

/-- What the stream below was given. -/
def given (s : Buffered σ) : Bytes := s.offers.flatMap (·.given.flatten)

end Buffered

/-! ## A handler's block -/

/-- Operations on a `ChunkedStream` itself. -/
inductive ChunkedOp where
  | write (buff : Bytes)
  | writev (buffers : List Bytes)
deriving DecidableEq, Repr

def ChunkedOp.payload : ChunkedOp → Bytes
  | .write buff => buff
  | .writev buffers => buffers.flatten

namespace ChunkedStream

def call (next : σ) : ChunkedOp → Forwarded σ
  | .write buff => write buff next
  | .writev buffers => writev buffers next

theorem call_sends (next : σ) (op : ChunkedOp) : (call next op).Sends op.payload := by
  cases op with
  | write buff => exact write_sends buff next
  | writev buffers => exact writev_sends buffers next

end ChunkedStream

/-- What a handler calls: the buffer, or the `ChunkedStream` under it. -/
inductive Send where
  | buffered (op : Op)
  | direct (op : ChunkedOp)
deriving DecidableEq, Repr

namespace Buffered

def send (s : Buffered σ) : Send → Called σ
  | .buffered op => s.call op
  | .direct op =>
    let w := ChunkedStream.call s.rs op
    ⟨w.outcome, 0, { s with rs := w.left, offers := s.offers ++ w.offers }⟩

/-- Calls one after the other. One that throws is over as well: the handler catches, or it was the last. -/
def sends (s : Buffered σ) : List Send → Called σ
  | [] => ⟨.returned, 0, s⟩
  | op :: ops => if (s.send op).outcome = .suspended then s.send op else (s.send op).stream.sends ops

/-- The end of the block. An exception of `~OStreamBuffer` ends the process. -/
def close (s : Buffered σ) : Called σ :=
  match s.destroyOStreamBuffer with
  | ⟨.returned, _, s'⟩ => s'.destroyChunkedStream
  | d => d

def block (s : Buffered σ) (ops : List Send) : Called σ :=
  match s.sends ops with
  | ⟨.returned, _, s'⟩ => s'.close
  | d => d

end Buffered

/-! ## Over a stream that does not fail -/

/-- Every write of the stream returns. -/
structure NeverFails (σ : Type) [AbstractStream σ] : Prop where
  write : ∀ buffer (next : σ), (AbstractStream.write buffer next).1 = .returned
  writev : ∀ buffers (next : σ), (AbstractStream.writev buffers next).1 = .returned

theorem Buffered.Does.returned (hσ : NeverFails σ) {s : Buffered σ} {data : Bytes} {d : Called σ} (h : s.Does data d) :
    d.outcome = .returned := by
  obtain ⟨os, -, hchunk, -, hthrew⟩ := h
  by_contra hne
  obtain ⟨init, o, rfl, -, ho⟩ := hthrew hne
  obtain ⟨next, hans, -⟩ := (hchunk o (by simp)).2
  rw [← ho, hans, hσ.writev] at hne
  exact hne rfl

theorem isBody_end : IsBody ChunkedStream.endOfChunckedStream [] :=
  .last (ChunkedCoding.hex_isSize 0)

/-- Chunks and the last chunk are a body. -/
theorem isBody_offers {os : List Offer} (h : ∀ o ∈ os, o.IsChunk) :
    IsBody (os.flatMap (·.given.flatten) ++ ChunkedStream.endOfChunckedStream) (os.flatMap (·.payload)) := by
  have hne : ∀ c ∈ os.map (·.payload), c ≠ [] := by
    intro c hc
    obtain ⟨o, ho, rfl⟩ := List.mem_map.1 hc
    exact (h o ho).ne
  have hbody := ChunkedCoding.isBody_encode ChunkedCoding.hex_isSize hne isBody_end
  have hwire : os.flatMap (·.given.flatten) = (os.map (·.payload)).flatMap (encodeChunk Octets.hex) := by
    rw [List.flatMap_map]
    exact List.flatMap_congr fun o ho => (h o ho).flatten
  rw [hwire]
  simpa [List.flatMap_def] using hbody

theorem sends_buffered (hσ : NeverFails σ) (s : Buffered σ) (ops : List Op) :
    ∃ t, s.sends (ops.map .buffered) = ⟨.returned, 0, t⟩ ∧ s.Does (ops.flatMap (·.payload)) ⟨.returned, 0, t⟩ := by
  induction ops generalizing s with
  | nil => exact ⟨s, rfl, Buffered.does_nothing s 0⟩
  | cons op ops ih =>
    have hop := Buffered.call_does s op
    have hret := hop.returned hσ
    obtain ⟨t, ht, hrest⟩ := ih (s.call op).stream
    refine ⟨t, ?_, ?_⟩
    · rw [List.map_cons, Buffered.sends, if_neg, Buffered.send]
      · exact ht
      · rw [Buffered.send, hret]
        intro h
        cases h
    · exact (hret ▸ hop : s.Does op.payload ⟨.returned, (s.call op).count, (s.call op).stream⟩).trans hrest

theorem sends_direct (hσ : NeverFails σ) (s : Buffered σ) (ops : List ChunkedOp) :
    ∃ t os, s.sends (ops.map .direct) = ⟨.returned, 0, t⟩ ∧ t.buf = s.buf ∧ t.offers = s.offers ++ os ∧
      (∀ o ∈ os, o.IsChunk) ∧ os.flatMap (·.payload) = ops.flatMap (·.payload) := by
  induction ops generalizing s with
  | nil => exact ⟨s, [], rfl, rfl, by simp, by simp, rfl⟩
  | cons op ops ih =>
    have hsend := ChunkedStream.call_sends s.rs op
    obtain ⟨os, hos, hret, hchunk, hpay⟩ : ∃ os, (ChunkedStream.call s.rs op).offers = os ∧
        (ChunkedStream.call s.rs op).outcome = .returned ∧ (∀ o ∈ os, o.IsChunk) ∧ os.flatMap (·.payload) = op.payload := by
      by_cases h0 : op.payload = []
      · obtain ⟨hret, hnone⟩ := hsend.nothing h0
        exact ⟨[], hnone, hret, by simp, by simp [h0]⟩
      · obtain ⟨o, ho, hchunk, hpay, hout, next, hans, -⟩ := hsend.chunk h0
        exact ⟨[o], ho, by rw [← hout, hans, hσ.writev], by simpa using hchunk, by simpa using hpay⟩
    obtain ⟨t, os', ht, hbuf, hoffers, hchunk', hpay'⟩ := ih (s.send (.direct op)).stream
    refine ⟨t, os ++ os', ?_, hbuf, ?_, ?_, ?_⟩
    · rw [List.map_cons, Buffered.sends, if_neg]
      · exact ht
      · rw [Buffered.send, hret]
        intro h
        cases h
    · rw [hoffers, Buffered.send, hos, List.append_assoc]
    · exact fun o ho => (List.mem_append.1 ho).elim (hchunk o) (hchunk' o)
    · rw [List.flatMap_append, List.flatMap_cons, hpay, hpay']

/-- The destructors send what is buffered and the last chunk. -/
theorem close_isBody (hσ : NeverFails σ) {s : Buffered σ} (h : ∀ o ∈ s.offers, o.IsChunk) :
    s.close.outcome = .returned ∧ IsBody s.close.stream.given (s.offers.flatMap (·.payload) ++ s.buf.buffer) := by
  have hsync := Buffered.sync_does s
  have hret := hsync.returned hσ
  have hempty := Buffered.sync_empty hret
  obtain ⟨os, hos, hchunk, hthen, -⟩ := hsync
  obtain ⟨-, hbuf⟩ := hthen hret
  rw [hempty, List.append_nil, List.append_nil] at hbuf
  have hclose : s.close = s.sync.stream.destroyChunkedStream := by
    unfold Buffered.close Buffered.destroyOStreamBuffer
    split
    · rename_i he
      rw [he]
    · rename_i d hd
      exact absurd hret fun h => hd _ _ (by rw [← h])
  have hend : s.sync.stream.destroyChunkedStream.outcome = .returned ∧
      s.sync.stream.destroyChunkedStream.stream.given =
        (s.offers ++ os).flatMap (·.given.flatten) ++ ChunkedStream.endOfChunckedStream := by
    unfold Buffered.destroyChunkedStream ChunkedStream.destroy Buffered.given
    simp [hσ.write, hos]
  rw [hclose, hend.2, hbuf, ← List.flatMap_append]
  refine ⟨hend.1, isBody_offers fun o ho => ?_⟩
  exact (List.mem_append.1 ho).elim (h o) fun ho => (hchunk o ho).1

/-- Over a stream that does not fail, whatever is written through an `OStreamBuffer` with any capacities, or directly to the
`ChunkedStream`, ends and is given to that stream as one chunked body that decodes to exactly what was written. -/
theorem chunked_decodes (hσ : NeverFails σ) (cap : Nat) (next : σ) (caps : List Nat) :
    (∀ ops : List Op,
      let d := Buffered.block ⟨.renew cap, next, caps, []⟩ (ops.map .buffered)
      d.outcome = .returned ∧ IsBody d.stream.given (ops.flatMap (·.payload)) ∧
        decode d.stream.given = some (ops.flatMap (·.payload), [])) ∧
    ∀ ops : List ChunkedOp,
      let d := Buffered.block ⟨.renew cap, next, caps, []⟩ (ops.map .direct)
      d.outcome = .returned ∧ IsBody d.stream.given (ops.flatMap (·.payload)) ∧
        decode d.stream.given = some (ops.flatMap (·.payload), []) := by
  have hdecode : ∀ {wire body : Bytes}, IsBody wire body → decode wire = some (body, []) := by
    intro wire body h
    simpa using ChunkedCoding.decode_of_isBody h []
  constructor
  · intro ops
    obtain ⟨t, ht, os, hos, hchunk, hret, -⟩ := sends_buffered hσ ⟨.renew cap, next, caps, []⟩ ops
    obtain ⟨-, hbuf⟩ := hret rfl
    rw [show (OStreamBuffer.renew cap).buffer = [] from rfl, List.nil_append] at hbuf
    rw [List.nil_append] at hos
    obtain ⟨hclose, hbody⟩ := close_isBody hσ (s := t) (by rw [hos]; exact fun o ho => (hchunk o ho).1)
    rw [hos, ← hbuf] at hbody
    unfold Buffered.block
    rw [ht]
    exact ⟨hclose, hbody, hdecode hbody⟩
  · intro ops
    obtain ⟨t, os, ht, hbuf, hos, hchunk, hpay⟩ := sends_direct hσ ⟨.renew cap, next, caps, []⟩ ops
    rw [List.nil_append] at hos
    obtain ⟨hclose, hbody⟩ := close_isBody hσ (s := t) (by rw [hos]; exact hchunk)
    rw [hos, hpay, hbuf, show (OStreamBuffer.renew cap).buffer = [] from rfl, List.append_nil] at hbody
    unfold Buffered.block
    rw [ht]
    exact ⟨hclose, hbody, hdecode hbody⟩

/-- A stream that takes everything. -/
structure Recorder where
  taken : Bytes

instance : AbstractStream Recorder where
  write buffer r := (.returned, buffer, ⟨r.taken ++ buffer⟩)
  writev buffers r := (.returned, buffers.flatten, ⟨r.taken ++ buffers.flatten⟩)

theorem recorder_neverFails : NeverFails Recorder := ⟨fun _ _ => rfl, fun _ _ => rfl⟩

/-- A put, an empty block, a block longer than the buffer and a flush; and a vector with empty buffers. -/
theorem chunked_decodes_recorder :
    decode (Buffered.block ⟨.renew 2, (⟨[]⟩ : Recorder), [3], []⟩
      ([Op.put 72, .write [], .write (bytes "ello"), .flush].map .buffered)).stream.given = some (bytes "Hello", []) ∧
    decode (Buffered.block ⟨.renew 2, (⟨[]⟩ : Recorder), [3], []⟩
      ([ChunkedOp.write [], .writev [[], bytes "Hel", [], bytes "lo"]].map .direct)).stream.given = some (bytes "Hello", []) :=
  ⟨((chunked_decodes recorder_neverFails 2 ⟨[]⟩ [3]).1 [.put 72, .write [], .write (bytes "ello"), .flush]).2.2,
    ((chunked_decodes recorder_neverFails 2 ⟨[]⟩ [3]).2 [.write [], .writev [[], bytes "Hel", [], bytes "lo"]]).2.2⟩

end Getodac
