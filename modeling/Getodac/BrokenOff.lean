import Getodac.Resent
/-!
# A chunked body that is broken off

The destructors run however the block is left. `~ChunkedStream` does not know that
the handler throws, and `~OStreamBuffer` sends what a write that threw left in
`m_buffer`. So whether a client can tell is up to the socket: `broken_off_iff` says
which answers to come keep the last chunk and the bytes of the buffer back.
-/
open ChunkedCoding (decode)

namespace Getodac

variable {σ : Type} [AbstractStream σ]

/-! ## The end of the block -/

namespace Buffered

theorem sends_of_exec {s t : Buffered σ} {ops : List Send} (h : Runs.exec sendStep s ops = some t) (more : List Send) :
    s.sends (ops ++ more) = t.sends more := by
  induction ops generalizing s with
  | nil =>
    cases h
    rfl
  | cons op ops ih =>
    obtain ⟨s', hstep, hrest⟩ := Runs.exec_cons h
    rw [sendStep] at hstep
    obtain ⟨hgo, hs'⟩ := Option.ite_none_left_eq_some.1 hstep
    cases hs'
    rw [List.cons_append, sends, if_neg hgo]
    exact ih hrest

theorem sends_eq_of_exec {s t : Buffered σ} {ops : List Send} (h : Runs.exec sendStep s ops = some t) :
    s.sends ops = ⟨.returned, 0, t⟩ := by
  simpa [sends] using sends_of_exec h []

theorem sends_flush {s t : Buffered σ} {ops : List Send} (h : Runs.exec sendStep s ops = some t) :
    (s.sends (ops ++ [.buffered .flush])).stream = t.sync.stream := by
  rw [sends_of_exec h, sends]
  split <;> rfl

theorem sends_of_stuck {s : Buffered σ} {ops : List Send} (h : Runs.exec sendStep s ops = none) (more : List Send) :
    s.sends (ops ++ more) = s.sends ops ∧ (s.sends ops).outcome = .suspended := by
  induction ops generalizing s with
  | nil => cases h
  | cons op ops ih =>
    rw [Runs.exec, sendStep] at h
    rw [List.cons_append, sends, sends]
    split
    · exact ⟨rfl, ‹_›⟩
    · rename_i hgo
      rw [if_neg hgo] at h
      exact ih h

/-- The answers that `~ChunkedStream` meets: all of those to come, or those that the write of the buffered chunk leaves. -/
inductive Meets (t : Stream) : List WriteResult → Prop where
  | empty (h : t.buf.buffer = []) : Meets t t.rs
  | behind {post : List WriteResult} (h : t.buf.buffer ≠ [])
      (hstops : Stops [ChunkedStream.chunkHeader t.buf.buffer.length, t.buf.buffer, crlf] t.rs post) : Meets t post

theorem sync_meets_iff (t : Stream) (rs : List WriteResult) :
    t.sync.outcome = .returned ∧ t.sync.stream.rs = rs ↔ t.Meets rs := by
  by_cases h0 : t.buf.buffer = []
  · rw [sync, if_pos h0]
    constructor
    · rintro ⟨-, rfl⟩
      exact .empty h0
    · rintro (_ | ⟨hne, -⟩)
      · exact ⟨rfl, rfl⟩
      · exact absurd h0 hne
  · have hlen : t.buf.buffer.length ≠ 0 := fun h => h0 (List.length_eq_zero_iff.1 h)
    have hleft : ∀ (w : Forwarded (List WriteResult)) n, (t.wrote w n).stream.rs = w.left := by
      intro w n
      unfold wrote
      dsimp only
      split <;> rfl
    rw [sync, if_neg h0, wrote_outcome, hleft, ChunkedStream.write, if_neg hlen]
    refine (writev_stops_iff (by simp [crlf]) t.rs rs).trans ⟨.behind h0, ?_⟩
    rintro (h | ⟨-, hstops⟩)
    · exact absurd h h0
    · exact hstops

/-- At the end of the block the flush of `~OStreamBuffer` is spared, and there is no room for the last chunk. -/
def Cuts (t : Stream) : Prop := t.Spared (.buffered .flush) ∧ ∀ rs, t.Meets rs → roomOf rs < 5

end Buffered

/-- `~ChunkedStream`'s write. -/
def lastOffer (next : σ) : Offer :=
  ⟨[ChunkedStream.endOfChunckedStream], (AbstractStream.write ChunkedStream.endOfChunckedStream next).2.1,
    (AbstractStream.write ChunkedStream.endOfChunckedStream next).1, none⟩

namespace Buffered

/-- What follows the flush of `~OStreamBuffer`: the last chunk, if the flush returns. -/
inductive Follows (t : Buffered σ) : List Offer → Prop where
  | nothing (h : t.sync.outcome ≠ .returned) : Follows t []
  | lastChunk (h : t.sync.outcome = .returned) : Follows t [lastOffer t.sync.stream.rs]

theorem block_of_stuck {s : Buffered σ} {ops : List Send} (h : Runs.exec sendStep s ops = none) :
    s.block ops = s.sends ops := by
  have hsus := (sends_of_stuck h []).2
  unfold block
  split
  · rename_i he
    rw [he] at hsus
    cases hsus
  · rfl

/-- The calls of a block that comes to its end: those of the handler, the flush of `~OStreamBuffer`, and what follows it. -/
theorem block_of_exec {s t : Buffered σ} {ops : List Send} (h : Runs.exec sendStep s ops = some t) :
    ∃ tail, t.Follows tail ∧ (s.block ops).stream.offers = t.sync.stream.offers ++ tail := by
  rw [block, sends_eq_of_exec h]
  dsimp only
  unfold close destroyOStreamBuffer
  split
  · rename_i n s' he
    have hfollows : t.Follows _ := .lastChunk (by rw [he])
    rw [he] at hfollows
    exact ⟨_, hfollows, by rw [he]; rfl⟩
  · rename_i hne
    refine ⟨[], .nothing fun hret => ?_, by rw [List.append_nil]⟩
    exact hne t.sync.count t.sync.stream (by rw [← hret])

/-- In any case they are those of the handler and of a flush, and then none of the buffer. -/
theorem block_offers (s : Buffered σ) (ops : List Send) :
    ∃ tail, (s.block ops).stream.offers = (s.sends (ops ++ [.buffered .flush])).stream.offers ++ tail ∧
      ∀ o ∈ tail, o.kept = none := by
  cases hexec : Runs.exec sendStep s ops with
  | none => exact ⟨[], by rw [block_of_stuck hexec, (sends_of_stuck hexec _).1, List.append_nil], by simp⟩
  | some t =>
    obtain ⟨tail, hfollows, hoffers⟩ := block_of_exec hexec
    refine ⟨tail, by rw [hoffers, sends_flush hexec], fun o ho => ?_⟩
    cases hfollows with
    | nothing => cases ho
    | lastChunk =>
      rw [List.mem_singleton.1 ho]
      rfl

end Buffered

/-- The write of the last chunk, taken whole. -/
def Terminated (os : List Offer) : Prop :=
  ∃ o ∈ os, o.given = [ChunkedStream.endOfChunckedStream] ∧ o.taken = ChunkedStream.endOfChunckedStream

instance (os : List Offer) : Decidable (Terminated os) :=
  inferInstanceAs (Decidable (∃ o ∈ os, o.given = [ChunkedStream.endOfChunckedStream] ∧ _))

theorem not_terminated_chunks {chunks : List Offer} (h : ∀ o ∈ chunks, o.IsChunk) : ¬ Terminated chunks := by
  rintro ⟨o, ho, hgiven, -⟩
  have hne := (h o ho).ne
  rw [Offer.payload, hgiven] at hne
  exact hne rfl

theorem terminated_iff {chunks : List Offer} (h : ∀ o ∈ chunks, o.IsChunk) (rs : List WriteResult) :
    Terminated (chunks ++ [lastOffer rs]) ↔ 5 ≤ roomOf rs := by
  refine Iff.trans ?_ (write_returned_iff rs ChunkedStream.endOfChunckedStream)
  constructor
  · rintro ⟨o, ho, hgiven, htaken⟩
    rcases List.mem_append.1 ho with ho | ho
    · exact absurd ⟨o, ho, hgiven, htaken⟩ (not_terminated_chunks h)
    · rw [List.mem_singleton.1 ho] at htaken
      exact (write_isPrefix rs _).2 htaken
  · intro hret
    exact ⟨lastOffer rs, by simp, rfl, write_sent rs _ hret⟩

theorem Buffered.send_chunks (s : Buffered σ) (op : Send) :
    ∃ os, (s.send op).stream.offers = s.offers ++ os ∧ (∀ o ∈ os, o.IsChunk ∧ o.IsAnswer σ) ∧ Consecutive os ∧
      ((s.send op).outcome = .returned → ∀ o ∈ os, o.outcome = .returned) := by
  cases op with
  | buffered op => exact (call_does s op).consecutive
  | direct op =>
    have hsend := ChunkedStream.call_sends s.rs op
    by_cases h0 : op.payload = []
    · obtain ⟨-, hnone⟩ := hsend.nothing h0
      exact ⟨[], by simp [send, hnone], by simp, .nil, by simp⟩
    · obtain ⟨o, ho, hchunk, -, hout, hans⟩ := hsend.chunk h0
      refine ⟨[o], by simp [send, ho], by simpa using ⟨hchunk, hans⟩, List.pairwise_singleton _ _, fun hret x hx => ?_⟩
      rw [List.mem_singleton.1 hx, hout]
      exact hret

theorem Buffered.sends_chunks {s : Buffered σ} (hs : ∀ o ∈ s.offers, o.IsChunk ∧ o.IsAnswer σ) (ops : List Send) :
    ∀ o ∈ (s.sends ops).stream.offers, o.IsChunk ∧ o.IsAnswer σ := by
  induction ops generalizing s with
  | nil => exact hs
  | cons op ops ih =>
    obtain ⟨os, hos, hchunk, -⟩ := send_chunks s op
    have hnext : ∀ o ∈ (s.send op).stream.offers, o.IsChunk ∧ o.IsAnswer σ := by
      rw [hos]
      exact fun o ho => (List.mem_append.1 ho).elim (hs o) (hchunk o)
    rw [sends]
    split
    · exact hnext
    · exact ih hnext

/-- Nothing that the block gives to the connection ends the body, exactly if the answers that `~ChunkedStream` meets have no
room for the last chunk. -/
theorem Buffered.not_terminated_iff {s : Stream} (hs : s.offers = []) (ops : List Send) :
    ¬ Terminated (s.block ops).stream.offers ↔
      ∀ t, Runs.exec sendStep s ops = some t → ∀ rs, t.Meets rs → roomOf rs < 5 := by
  have hchunk : ∀ ops, ∀ o ∈ (s.sends ops).stream.offers, o.IsChunk :=
    fun ops o ho => (sends_chunks (s := s) (by simp [hs]) ops o ho).1
  cases hexec : Runs.exec sendStep s ops with
  | none =>
    rw [block_of_stuck hexec]
    refine iff_of_true (not_terminated_chunks (hchunk ops)) fun t ht => ?_
    cases ht
  | some t =>
    have hsent := hchunk (ops ++ [.buffered .flush])
    rw [sends_flush hexec] at hsent
    obtain ⟨tail, hfollows, hoffers⟩ := block_of_exec hexec
    have honly : (∀ t', some t = some t' → ∀ rs, t'.Meets rs → roomOf rs < 5) ↔ ∀ rs, t.Meets rs → roomOf rs < 5 := by
      simp
    rw [hoffers, honly]
    cases hfollows with
    | nothing hno =>
      rw [List.append_nil]
      exact iff_of_true (not_terminated_chunks hsent) fun rs hm => absurd ((sync_meets_iff t rs).2 hm).1 hno
    | lastChunk hret =>
      rw [terminated_iff hsent, Nat.not_le]
      constructor
      · intro hlt rs hm
        rwa [((sync_meets_iff t rs).2 hm).2] at hlt
      · intro h
        exact h _ ((sync_meets_iff t _).1 ⟨hret, rfl⟩)

/-! ## What the client gets -/

theorem consecutive_append {os os' : List Offer} (hall : ∀ o ∈ os, o.outcome = .returned) (hc : Consecutive os') :
    Consecutive (os ++ os') := by
  refine List.pairwise_append.2 ⟨?_, hc, fun o ho _ _ => hall o ho⟩
  exact List.pairwise_of_forall_mem_list fun o ho _ _ => hall o ho

namespace Buffered

/-- Every call but the last returns: an exception unwinds the block. -/
def Unwinds : Buffered σ → List Send → Prop
  | _, [] => True
  | s, op :: ops => (ops = [] ∨ (s.send op).outcome = .returned) ∧ (s.send op).stream.Unwinds ops

/-- All writes returned, or the last call is the first that did not. -/
theorem sends_unwinds {s : Buffered σ} {ops : List Send} (hu : s.Unwinds ops) (hs : ∀ o ∈ s.offers, o.outcome = .returned) :
    (∀ o ∈ (s.sends ops).stream.offers, o.outcome = .returned) ∨
      ∃ (s' : Buffered σ) (op : Send), op ∈ ops ∧ (∀ o ∈ s'.offers, o.outcome = .returned) ∧ (s.sends ops).stream = (s'.send op).stream ∧
        (s'.send op).outcome ≠ .returned := by
  induction ops generalizing s with
  | nil => exact .inl hs
  | cons op ops ih =>
    obtain ⟨hlast, hrest⟩ := hu
    by_cases hret : (s.send op).outcome = .returned
    · obtain ⟨os, hos, -, -, hall⟩ := send_chunks s op
      have hnext : ∀ o ∈ (s.send op).stream.offers, o.outcome = .returned := by
        rw [hos]
        exact fun o ho => (List.mem_append.1 ho).elim (hs o) (hall hret o)
      have hgo : (s.send op).outcome ≠ .suspended := by simp [hret]
      rw [sends, if_neg hgo]
      rcases ih hrest hnext with h | ⟨s', op', hmem, h⟩
      · exact .inl h
      · exact .inr ⟨s', op', List.mem_cons_of_mem _ hmem, h⟩
    · obtain rfl := hlast.resolve_right hret
      refine .inr ⟨s, op, List.mem_cons_self, hs, ?_, hret⟩
      rw [sends]
      split <;> rfl

theorem sends_unwinds_consecutive {s : Buffered σ} {ops : List Send} (hu : s.Unwinds ops)
    (hs : ∀ o ∈ s.offers, o.outcome = .returned) : Consecutive (s.sends ops).stream.offers := by
  rcases sends_unwinds hu hs with hall | ⟨s', op, -, hall, heq, -⟩
  · exact List.pairwise_of_forall_mem_list fun o ho _ _ => hall o ho
  · obtain ⟨os, hos, -, hc, -⟩ := send_chunks s' op
    rw [heq, hos]
    exact consecutive_append hall hc

/-- A call that does not return leaves in the buffer what it keeps, and that is what it was given of the buffer. -/
def Keeps (d : Called σ) : Prop :=
  d.outcome ≠ .returned → ∃ init o, d.stream.offers = init ++ [o] ∧ o.outcome ≠ .returned ∧
    o.kept = some d.stream.buf.buffer.length

theorem wrote_keeps (s : Buffered σ) {w : Forwarded σ} {data : Bytes} (hw : w.Sends data) (hd : data ≠ []) (n : Nat) :
    Keeps (s.wrote w n) := by
  intro hne
  rw [wrote_outcome] at hne
  obtain ⟨o, ho, -, -, hout, -⟩ := hw.chunk hd
  refine ⟨s.offers, { o with kept := some s.buf.buffer.length }, by rw [wrote_offers, ho]; rfl, by rwa [← hout] at hne, ?_⟩
  unfold wrote
  dsimp only
  split
  · exact absurd ‹_› hne
  · rfl

theorem sync_keeps (s : Buffered σ) : Keeps s.sync := by
  rw [sync]
  split
  · exact fun h => absurd rfl h
  · exact wrote_keeps s (ChunkedStream.write_sends _ _) ‹_› 0

theorem makeRoom_keeps (s : Buffered σ) : Keeps s.makeRoom := by
  rw [makeRoom]
  split
  · exact sync_keeps s
  · exact fun h => absurd rfl h

theorem xsputnLoop_keeps (n : Nat) (s : Buffered σ) (data : Bytes) : Keeps (s.xsputnLoop n data) := by
  induction hlen : data.length using Nat.strong_induction_on generalizing s data with
  | _ l ih =>
    subst hlen
    rw [xsputnLoop]
    split
    · exact fun h => absurd rfl h
    rename_i hd
    split
    · split
      · exact wrote_keeps s (ChunkedStream.write_sends _ _) hd _
      · exact wrote_keeps s (ChunkedStream.writev_sends _ _) (by simp [hd]) _
    · split
      · rename_i hret
        have hlt := makeRoom_room hret
        have hpos := List.length_pos_iff.2 hd
        exact ih _ (by rw [List.length_drop]; omega) _ _ rfl
      · exact makeRoom_keeps s

theorem call_keeps (s : Buffered σ) (op : Op) : Keeps (s.call op) := by
  cases op with
  | put c =>
    rw [call, overflow]
    split
    · exact fun h => absurd rfl h
    · exact makeRoom_keeps s
  | write data => exact xsputnLoop_keeps _ s data
  | flush => exact sync_keeps s

theorem sends_direct_buf (s : Buffered σ) {ops : List Send} (h : ∀ op ∈ ops, ∃ o, op = .direct o) :
    (s.sends ops).stream.buf = s.buf := by
  induction ops generalizing s with
  | nil => rfl
  | cons op ops ih =>
    obtain ⟨o, rfl⟩ := h op List.mem_cons_self
    rw [sends]
    split
    · rfl
    · exact ih _ fun op hop => h op (List.mem_cons_of_mem _ hop)

end Buffered

/-- If no call follows one that does not return, what was taken is a prefix of what was given. -/
theorem taken_isPrefix {os : List Offer} (hp : ∀ o ∈ os, o.taken <+: o.given.flatten)
    (whole : ∀ o ∈ os, o.outcome = .returned → o.taken = o.given.flatten) (hc : Consecutive os) :
    os.flatMap (·.taken) <+: os.flatMap (·.given.flatten) := by
  induction os with
  | nil => simp
  | cons o os ih =>
    obtain ⟨hret, hrest⟩ := List.pairwise_cons.1 hc
    have hpre := ih (fun x hx => hp x (List.mem_cons_of_mem _ hx)) (fun x hx => whole x (List.mem_cons_of_mem _ hx)) hrest
    rw [List.flatMap_cons, List.flatMap_cons]
    cases os with
    | nil => simpa using hp o List.mem_cons_self
    | cons o' os =>
      rw [whole o List.mem_cons_self (hret o' List.mem_cons_self)]
      exact (List.prefix_append_right_inj _).2 hpre

/-- Chunks that are broken off, and then bytes with less than two line ends. -/
theorem decode_cut {os : List Offer} (hchunk : ∀ o ∈ os, o.IsChunk ∧ o.IsAnswer (List WriteResult))
    (whole : ∀ o ∈ os, o.outcome = .returned → o.taken = o.given.flatten) (hc : Consecutive os) {q : Bytes}
    (hq : q.count 10 < 2) : decode (os.flatMap (·.taken) ++ q) = none := by
  have htaken : ∀ o ∈ os, o.taken <+: o.given.flatten := by
    intro o ho
    obtain ⟨rs, -, ht⟩ := (hchunk o ho).2
    rw [ht]
    exact (writev_isPrefix o.given rs).1
  have hgiven : os.flatMap (·.given.flatten) = (os.map (·.payload)).flatMap (ChunkedCoding.encodeChunk Octets.hex) := by
    rw [List.flatMap_map]
    exact List.flatMap_congr fun o ho => (hchunk o ho).1.flatten
  refine ChunkedCoding.decode_broken_off ChunkedCoding.hex_isSize (os.map (·.payload)) ?_
    (hgiven ▸ taken_isPrefix htaken whole hc) hq
  intro c hc
  obtain ⟨o, ho, rfl⟩ := List.mem_map.1 hc
  exact (hchunk o ho).1.ne

theorem count_end_of_cut {p : Bytes} (hp : p <+: ChunkedStream.endOfChunckedStream)
    (hne : p ≠ ChunkedStream.endOfChunckedStream) : p.count 10 < 2 := by
  have hsplit : ChunkedStream.endOfChunckedStream = bytes "0\r\n\r" ++ [10] := by decide
  rw [hsplit] at hp hne
  have hle := ((List.prefix_concat_iff.1 hp).resolve_left hne).count_le 10
  exact Nat.lt_of_le_of_lt hle (by decide)

theorem count_chunkHeader (n : Nat) : (ChunkedStream.chunkHeader n).count 10 < 2 := by
  rw [ChunkedStream.chunkHeader, List.count_append, ChunkedCoding.hexNum_count (ChunkedCoding.hex_isSize n).2]
  decide

/-- All calls are made on the buffer, or all on the `ChunkedStream`. -/
def OneWay (ops : List Send) : Prop := (∀ op ∈ ops, ∃ o, op = .buffered o) ∨ ∀ op ∈ ops, ∃ o, op = .direct o

namespace Buffered

theorem sync_offer {s : Buffered σ} (hne : s.buf.buffer ≠ []) : ∃ o, s.sync.stream.offers = s.offers ++ [o] ∧
    o.given = [ChunkedStream.chunkHeader s.buf.buffer.length, s.buf.buffer, crlf] ∧ o.outcome = s.sync.outcome ∧
    o.kept = some s.buf.buffer.length := by
  have hlen : s.buf.buffer.length ≠ 0 := fun h => hne (List.length_eq_zero_iff.1 h)
  rw [sync, if_neg hne, wrote_outcome, wrote_offers, ChunkedStream.write, if_neg hlen]
  exact ⟨_, rfl, rfl, rfl, rfl⟩

/-- After a call that threw, all of the buffer was given to it. -/
theorem stale_of_threw {s : Buffered σ} {op : Op} (h : (s.call op).outcome ≠ .returned) :
    (s.call op).stream.staleBytes = (s.call op).stream.buf.buffer.length := by
  obtain ⟨init, o, hoffers, hout, hkept⟩ := call_keeps s op h
  rw [staleBytes, hoffers, stale_append, stale, hkept]
  simp [stale, hout]

section Close

variable {t : Stream} {tail : List Offer}

theorem Follows.count_lt (h : t.Follows tail) {os : List Offer} (hterm : ¬ Terminated (os ++ tail)) :
    (tail.flatMap (·.taken)).count 10 < 2 := by
  cases h with
  | nothing => decide
  | lastChunk =>
    rw [List.flatMap_singleton]
    refine count_end_of_cut (write_isPrefix _ _).1 fun heq => hterm ?_
    exact ⟨lastOffer t.sync.stream.rs, by simp, rfl, heq⟩

/-- A flush that gets no further than its size line. -/
theorem sync_cut (h0 : t.buf.buffer ≠ []) (hans : ∀ o ∈ t.sync.stream.offers, o.IsAnswer (List WriteResult))
    (whole : ∀ o ∈ t.sync.stream.offers, o.outcome = .returned → o.taken = o.given.flatten) {o : Offer}
    (hoffers : t.sync.stream.offers = t.offers ++ [o])
    (hgiven : o.given = [ChunkedStream.chunkHeader t.buf.buffer.length, t.buf.buffer, crlf])
    (hle : o.taken.length ≤ (ChunkedStream.chunkHeader t.buf.buffer.length).length) :
    o.outcome ≠ .returned ∧ o.taken.count 10 < 2 := by
  have hmem : o ∈ t.sync.stream.offers := by simp [hoffers]
  have hpos := List.length_pos_iff.2 h0
  constructor
  · intro hret
    rw [whole o hmem hret, hgiven] at hle
    simp [crlf] at hle
  · obtain ⟨rs, -, htaken⟩ := hans o hmem
    change o.taken = (writev o.given rs).sent at htaken
    have hpre : o.taken <+: o.given.flatten := htaken ▸ (writev_isPrefix o.given rs).1
    rw [hgiven, List.flatten_cons] at hpre
    have hheader := List.prefix_of_prefix_length_le hpre (List.prefix_append _ _) hle
    exact Nat.lt_of_le_of_lt (hheader.count_le 10) (count_chunkHeader _)

/-- The end of a block whose last call threw: `~OStreamBuffer` gets no further than its size line, so what follows has less
than two line ends. -/
theorem close_after_threw (hstale : t.buf.buffer ≠ [] → t.staleBytes = t.buf.buffer.length) (htail : t.Follows tail)
    (whole : ∀ o ∈ t.sync.stream.offers, o.outcome = .returned → o.taken = o.given.flatten)
    (hans : ∀ o ∈ t.sync.stream.offers, o.IsAnswer (List WriteResult))
    (hterm : ¬ Terminated (t.sync.stream.offers ++ tail)) (hresent : resent 0 (t.sync.stream.offers ++ tail) = 0) :
    ∃ q : Bytes, (t.sync.stream.offers ++ tail).flatMap (·.taken) = t.offers.flatMap (·.taken) ++ q ∧ q.count 10 < 2 := by
  by_cases h0 : t.buf.buffer = []
  · have hsame : t.sync.stream.offers = t.offers := by rw [sync, if_pos h0]
    exact ⟨tail.flatMap (·.taken), by rw [hsame, List.flatMap_append], htail.count_lt hterm⟩
  · obtain ⟨o, hoffers, hgiven, hout, hkept⟩ := sync_offer h0
    -- no byte of the buffer is sent again
    have hle : o.taken.length ≤ (ChunkedStream.chunkHeader t.buf.buffer.length).length := by
      rw [hoffers, List.append_assoc, resent_append, List.singleton_append] at hresent
      have hzero := (Nat.add_eq_zero_iff.1 hresent).2
      change resent t.staleBytes (o :: tail) = 0 at hzero
      rw [hstale h0, resent, hkept, hgiven] at hzero
      dsimp only at hzero
      rw [List.headD_cons] at hzero
      have hpos := List.length_pos_iff.2 h0
      omega
    obtain ⟨hnot, hcount⟩ := sync_cut h0 hans whole hoffers hgiven hle
    cases htail with
    | nothing => exact ⟨o.taken, by rw [List.append_nil, hoffers, List.flatMap_append, List.flatMap_singleton], hcount⟩
    | lastChunk hret => exact absurd (hout.trans hret) hnot

/-- The end of a block whose calls all returned. -/
theorem decode_returned (hall : ∀ o ∈ t.offers, o.outcome = .returned) (htail : t.Follows tail)
    (hchunk : ∀ o ∈ t.sync.stream.offers, o.IsChunk ∧ o.IsAnswer (List WriteResult))
    (whole : ∀ o ∈ t.sync.stream.offers, o.outcome = .returned → o.taken = o.given.flatten)
    (hterm : ¬ Terminated (t.sync.stream.offers ++ tail)) :
    decode ((t.sync.stream.offers ++ tail).flatMap (·.taken)) = none := by
  obtain ⟨os, hos, -, hc, -⟩ := send_chunks t (.buffered .flush)
  change t.sync.stream.offers = _ at hos
  rw [List.flatMap_append]
  exact decode_cut hchunk whole (hos ▸ consecutive_append hall hc) (htail.count_lt hterm)

end Close

/-- What is in the buffer after a handler that goes one way, and whose last call threw, was given to that call. -/
theorem stale_of_oneWay {s s' t : Buffered σ} {ops : List Send} {op : Send} (hbuf : s.buf.buffer = []) (hone : OneWay ops)
    (hexec : Runs.exec sendStep s ops = some t) (hmem : op ∈ ops) (heq : t = (s'.send op).stream)
    (hthrew : (s'.send op).outcome ≠ .returned) (hne : t.buf.buffer ≠ []) : t.staleBytes = t.buf.buffer.length := by
  rcases hone with hbuffered | hdirect
  · obtain ⟨o, rfl⟩ := hbuffered op hmem
    rw [heq]
    exact stale_of_threw hthrew
  · have hsame := sends_direct_buf s hdirect
    rw [sends_eq_of_exec hexec] at hsame
    exact absurd (hsame ▸ hbuf) hne

theorem decode_block {s : Stream} (hs : s.offers = []) (hbuf : s.buf.buffer = []) {ops : List Send} (hone : OneWay ops)
    (hu : s.Unwinds ops)
    (whole : ∀ o ∈ (s.block ops).stream.offers, o.outcome = .returned → o.taken = o.given.flatten)
    (hterm : ¬ Terminated (s.block ops).stream.offers) (hresent : resent 0 (s.block ops).stream.offers = 0) :
    decode ((s.block ops).stream.offers.flatMap (·.taken)) = none := by
  have hnone : ∀ o ∈ s.offers, o.outcome = .returned := by simp [hs]
  have hchunk := sends_chunks (s := s) (by simp [hs]) ops
  have hcons := sends_unwinds_consecutive hu hnone
  cases hexec : Runs.exec sendStep s ops with
  | none =>
    -- a write of the handler is suspended
    rw [block_of_stuck hexec] at whole ⊢
    simpa using decode_cut hchunk whole hcons (q := []) (by decide)
  | some t =>
    obtain ⟨tail, htail, hoffers⟩ := block_of_exec hexec
    have hsent := sends_chunks (s := s) (by simp [hs]) (ops ++ [.buffered .flush])
    rw [sends_flush hexec] at hsent
    rw [sends_eq_of_exec hexec] at hchunk hcons
    rw [hoffers] at whole hterm hresent ⊢
    have whole' : ∀ o ∈ t.sync.stream.offers, o.outcome = .returned → o.taken = o.given.flatten :=
      fun o ho => whole o (List.mem_append_left _ ho)
    rcases sends_unwinds hu hnone with hall | ⟨s', op, hmem, -, heq, hthrew⟩
    · -- no write of the handler threw
      rw [sends_eq_of_exec hexec] at hall
      exact decode_returned hall htail hsent whole' hterm
    · -- the last of them did
      rw [sends_eq_of_exec hexec] at heq
      obtain ⟨q, hwire, hq⟩ := close_after_threw (stale_of_oneWay hbuf hone hexec hmem heq hthrew) htail whole'
        (fun o ho => (hsent o ho).2) hterm hresent
      obtain ⟨os, hos, -⟩ := send_chunks t (.buffered .flush)
      change t.sync.stream.offers = _ at hos
      rw [hwire]
      exact decode_cut hchunk (fun o ho => whole' o (by rw [hos]; exact List.mem_append_left _ ho)) hcons hq

end Buffered

/-- Whatever a handler sends and the socket answers, and wherever the handler or a write throws: no last chunk is sent, and no
payload byte a second time, exactly if the answers to come spare what a write that threw was given of the buffer, and those
that `~ChunkedStream` meets have no room for the last chunk. If moreover the handler goes one way, an exception unwinds it and
a write that returns has sent all it was given, the bytes on the connection are no complete message either. -/
theorem broken_off_iff (cap : Nat) (rs : List WriteResult) (caps : List Nat) (ops : List Send) :
    let s : Stream := ⟨.renew cap, rs, caps, []⟩
    let os := (s.block ops).stream.offers
    let holdsBack := Runs.Along Buffered.sendStep Buffered.Spared s ops ∧
      ∀ t, Runs.exec Buffered.sendStep s ops = some t → t.Cuts
    (¬ Terminated os ∧ resent 0 os = 0 ↔ holdsBack) ∧
    (OneWay ops → s.Unwinds ops → (∀ o ∈ os, o.outcome = .returned → o.taken = o.given.flatten) →
      (decode (os.flatMap (·.taken)) = none ∧ ¬ Terminated os ∧ resent 0 os = 0 ↔ holdsBack)) := by
  intro s os holdsBack
  have hresent : resent 0 os = 0 ↔ Runs.Along Buffered.sendStep Buffered.Spared s (ops ++ [.buffered .flush]) := by
    obtain ⟨sent, hsent, hiff⟩ := Buffered.sends_resent s (ops ++ [.buffered .flush])
    obtain ⟨tail, hoffers, htail⟩ := Buffered.block_offers s ops
    have hzero : resent (stale 0 sent) tail = 0 := resent_of_direct htail _
    have hos : os = sent ++ tail := hoffers.trans (congrArg (· ++ tail) (hsent.trans (List.nil_append sent)))
    rw [← hiff, hos, resent_append, hzero]
    rfl
  have hflush : ∀ t, Runs.Along Buffered.sendStep Buffered.Spared t [.buffered .flush] ↔ t.Spared (.buffered .flush) := by
    intro t
    rw [Runs.Along]
    cases t.sendStep (.buffered .flush) <;> simp [Runs.Along]
  have hall : ¬ Terminated os ∧ resent 0 os = 0 ↔ holdsBack := by
    rw [hresent, Buffered.not_terminated_iff rfl, Runs.along_append]
    simp only [hflush, holdsBack, Buffered.Cuts, imp_and, forall_and]
    tauto
  refine ⟨hall, fun hone hu whole => ?_⟩
  rw [← hall]
  exact ⟨And.right, fun h => ⟨Buffered.decode_block rfl rfl hone hu whole h.1 h.2, h⟩⟩

/-- A handler that puts two characters and flushes. -/
def putsTwo : List Send := [.buffered (.put 97), .buffered (.put 98), .buffered .flush]

/-- The socket takes four bytes of the chunk, and the peer resets the connection. -/
def resetByPeer : Stream := ⟨.renew 16, [.room 4 (by decide), .failed .io_error, .failed .io_error], [], []⟩

/-- Neither the rest of the chunk nor a last chunk is sent. -/
theorem broken_off_reset :
    (∃ o ∈ (resetByPeer.block putsTwo).stream.offers, o.outcome = .threw .io_error) ∧
    decode ((resetByPeer.block putsTwo).stream.offers.flatMap (·.taken)) = none ∧
    ¬ Terminated (resetByPeer.block putsTwo).stream.offers ∧ resent 0 (resetByPeer.block putsTwo).stream.offers = 0 := by
  have hone : OneWay putsTwo := .inl (by simp [putsTwo])
  have hu : resetByPeer.Unwinds putsTwo := ⟨.inr (by decide), .inr (by decide), .inl rfl, trivial⟩
  have hwhole : ∀ o ∈ (resetByPeer.block putsTwo).stream.offers, o.outcome = .returned → o.taken = o.given.flatten := by
    decide
  have herror : ¬ (WriteResult.failed .io_error).Benign := fun h => h
  have hspared : Runs.Along Buffered.sendStep Buffered.Spared resetByPeer putsTwo :=
    ⟨.inl rfl, .inl rfl, .inl rfl, by split <;> trivial⟩
  have hcuts : ∀ t, Runs.exec Buffered.sendStep resetByPeer putsTwo = some t → t.Cuts := by
    intro t ht
    have hsends : (resetByPeer.sends putsTwo).stream = t := congrArg Called.stream (Buffered.sends_of_exec ht [])
    have hrs : t.rs = [.failed .io_error] := hsends ▸ (by decide : (resetByPeer.sends putsTwo).stream.rs = _)
    have hne : t.buf.buffer ≠ [] := hsends ▸ (by decide : (resetByPeer.sends putsTwo).stream.buf.buffer ≠ [])
    refine ⟨.inr fun n _ => hrs ▸ spares_error herror _ _, ?_⟩
    rintro rs' (h | ⟨-, hstops⟩)
    · exact absurd h hne
    · rw [hrs] at hstops
      exact absurd hstops (stopsFrom_error herror)
  have hiff := broken_off_iff 16 resetByPeer.rs [] putsTwo
  exact ⟨by decide, (hiff.2 hone hu hwhole).2 ⟨hspared, hcuts⟩⟩

/-- The handler puts two characters and throws: the client gets a complete body. And if the write of the chunk times out
after four bytes, `~OStreamBuffer` sends both characters, of which the first was already taken. -/
theorem broken_off_passed_off :
    (∃ os, os = (Buffered.block ⟨.renew 16, [WriteResult.room 64 (by decide), .room 64 (by decide)], [], []⟩
        [.buffered (.put 97), .buffered (.put 98)]).stream.offers ∧
      decode (os.flatMap (·.taken)) = some (bytes "ab", [])) ∧
    ∃ os, os = (Buffered.block ⟨.renew 16, [WriteResult.room 4 (by decide), .again (some .timed_out), .room 64 (by decide),
        .room 64 (by decide)], [], []⟩ putsTwo).stream.offers ∧
      (∃ o ∈ os, o.outcome = .threw .timed_out) ∧ os.flatMap (·.taken) = bytes "2\r\na2\r\nab\r\n0\r\n\r\n" ∧
      resent 0 os = 2 := by
  exact ⟨⟨_, rfl, by decide⟩, ⟨_, rfl, by decide, by decide, by decide⟩⟩

/-- Each of the three conditions on the handler and on the writes is needed for the last part. A write that returns with only
its size line sent: -/
example : let s : Stream := ⟨.renew 16, [.room 3 (by decide), .room 64 (by decide)], [], []⟩
    let os := (s.block [.direct (.write (bytes "abcd")), .direct (.write (bytes "x\r\n0\r\n\r\n"))]).stream.offers
    ¬ Terminated os ∧ resent 0 os = 0 ∧ decode (os.flatMap (·.taken)) = some (bytes "8\r\nx", crlf) := by
  decide

-- a handler that catches what the first write throws and goes on:
example : let s : Stream := ⟨.renew 16, [.room 4 (by decide), .again (some .timed_out), .room 64 (by decide)], [], []⟩
    let os := (s.block [.direct (.write (bytes "abcd")), .direct (.write (bytes "\r\n0\r\n\r\n"))]).stream.offers
    ¬ Terminated os ∧ resent 0 os = 0 ∧ decode (os.flatMap (·.taken)) = some (bytes "a7\r\n", crlf) := by
  decide

-- and one that has used the buffer and writes to the `ChunkedStream` below it, which throws.
example : let s : Stream := ⟨.renew 16, [.room 4 (by decide), .again (some .timed_out), .room 64 (by decide)], [], []⟩
    let os := (s.block ((bytes "\r\n0\r\n\r\n").map (.buffered ∘ .put) ++ [.direct (.write (bytes "abcd"))])).stream.offers
    ¬ Terminated os ∧ resent 0 os = 0 ∧ decode (os.flatMap (·.taken)) = some (bytes "a7\r\n", crlf) := by
  decide

end Getodac
