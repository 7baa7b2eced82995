import Getodac.Basic
/-!
# `BasicHttpSession::write`

Both overloads, over any answers of `writeSome` and `m_yield()`. The single
buffer overload sends its buffer. The gathering one stops at the first call
after which the bytes accepted so far end where a buffer ends (`progress`), so it
is complete exactly when that only happens at the very end.
-/

namespace Getodac

/-- What one call of `writeSome` meets, and `m_yield()` after it. -/
inductive WriteResult where
  /-- Room for `k` bytes: the call accepts that many of the bytes offered, or all of them. -/
  | room (k : Nat) (pos : 0 < k)
  /-- `EAGAIN` (`WANT_READ`, `WANT_WRITE`): nothing is accepted and `m_yield()` returns `resume`. -/
  | again (resume : Option ErrorCode)
  | failed (ec : ErrorCode)
deriving DecidableEq, Repr

/-- What a write did: how it ended, the bytes the socket accepted, how often it
suspended, and the results it did not use. -/
structure Wrote where
  outcome : Outcome
  sent : Bytes
  yields : Nat
  left : List WriteResult
deriving DecidableEq, Repr

namespace Wrote

def took (w : Wrote) (bs : Bytes) : Wrote := { w with sent := bs ++ w.sent }

def yielded (w : Wrote) : Wrote := { w with yields := w.yields + 1 }

end Wrote

/-- `write(ConstBuffer)`. -/
def write : Bytes → List WriteResult → Wrote
  | [], rs => ⟨.returned, [], 0, rs⟩
  | _ :: _, [] => ⟨.suspended, [], 0, []⟩
  | b :: bs, .room k _ :: rs => (write ((b :: bs).drop k) rs).took ((b :: bs).take k)
  | b :: bs, .again none :: rs => (write (b :: bs) rs).yielded
  | _ :: _, .again (some ec) :: rs => ⟨.threw ec, [], 1, rs⟩
  | _ :: _, .failed ec :: rs => ⟨.threw ec, [], 0, rs⟩

/-- The loop over the buffers after a partial write: skip the buffers that
`written` covers, then keep the rest of the next one and all after it. The
second component is what the loop leaves in `written`. -/
def reslice (buffers : List Bytes) : List Bytes → Nat → List Bytes × Nat
  | [], written => (buffers, written)
  | b :: bs, written =>
    if b.length ≤ written then reslice buffers bs (written - b.length)
    else (b.drop written :: bs, written)

/-- `write(std::vector<ConstBuffer>)`. -/
def writev (buffers : List Bytes) : List WriteResult → Wrote
  | [] => ⟨.suspended, [], 0, []⟩
  | .again none :: rs => (writev buffers rs).yielded
  | .again (some ec) :: rs => ⟨.threw ec, [], 1, rs⟩
  | .failed ec :: rs => ⟨.threw ec, [], 0, rs⟩
  | .room k _ :: rs =>
    let written := min k buffers.flatten.length
    -- with nothing to send `writev` returns 0, which the loop takes for `EAGAIN`
    if written = 0 then (writev buffers rs).yielded
    else
      let (buffers', written') := reslice buffers buffers written
      if written' = 0 then ⟨.returned, buffers.flatten.take written, 0, rs⟩
      else (writev buffers' rs).took (buffers.flatten.take written)

/-! ## What the gathering overload does with its answers -/

/-- The positions in the concatenation at which a buffer begins or the last one ends. -/
def bounds : List Bytes → List Nat
  | [] => [0]
  | b :: bs => 0 :: (bounds bs).map (b.length + ·)

/-- The gathering write as seen from the socket: `pos` bytes of `total` are
accepted, and the loop ends as soon as that is one of the positions `bnd`. -/
def progress (bnd : List Nat) (total : Nat) : Nat → List WriteResult → Outcome × Nat
  | pos, [] => (.suspended, pos)
  | pos, .again none :: rs => progress bnd total pos rs
  | pos, .again (some ec) :: _ => (.threw ec, pos)
  | pos, .failed ec :: _ => (.threw ec, pos)
  | pos, .room k _ :: rs =>
    let pos' := min (pos + k) total
    if pos' ∈ bnd then (.returned, pos') else progress bnd total pos' rs

theorem zero_mem_bounds (bs : List Bytes) : 0 ∈ bounds bs := by
  cases bs <;> simp [bounds]

theorem length_mem_bounds (bs : List Bytes) : bs.flatten.length ∈ bounds bs := by
  induction bs with
  | nil => simp [bounds]
  | cons b bs ih => simp only [bounds, List.mem_cons, List.mem_map]; exact .inr ⟨_, ih, by simp⟩

theorem mem_bounds_cons {b : Bytes} {bs : List Bytes} {n : Nat} (h : b.length ≤ n) :
    n ∈ bounds (b :: bs) ↔ n - b.length ∈ bounds bs := by
  simp only [bounds, List.mem_cons, List.mem_map]
  constructor
  · rintro (rfl | ⟨m, hm, rfl⟩)
    · simpa using zero_mem_bounds bs
    · simpa using hm
  · intro hm
    exact .inr ⟨_, hm, by omega⟩

theorem not_mem_bounds_cons {b : Bytes} {bs : List Bytes} {n : Nat} (h0 : 0 < n) (h : n < b.length) :
    n ∉ bounds (b :: bs) := by
  simp only [bounds, List.mem_cons, List.mem_map, not_or, not_exists, not_and]
  exact ⟨by omega, fun m _ => by omega⟩

/-- Moving the start of a vector forward moves its boundaries back. -/
theorem mem_bounds_drop {b : Bytes} {bs : List Bytes} {w n : Nat} (hw : w < b.length) (hn : 0 < n) :
    n ∈ bounds (b.drop w :: bs) ↔ w + n ∈ bounds (b :: bs) := by
  by_cases h : b.length ≤ w + n
  · rw [mem_bounds_cons h, mem_bounds_cons (by simp only [List.length_drop]; omega), List.length_drop]
    congr! 1; omega
  · constructor
    · intro hm; exact absurd hm (not_mem_bounds_cons hn (by simp only [List.length_drop]; omega))
    · intro hm; exact absurd hm (not_mem_bounds_cons (by omega) (by omega))

/-- What the loop over the buffers leaves: nothing in `written` exactly if the
accepted bytes end at a boundary, and otherwise the bytes still to send. -/
theorem reslice_spec (all : List Bytes) : ∀ (bs : List Bytes) (w : Nat), w ≤ bs.flatten.length →
    ((reslice all bs w).2 = 0 ↔ w ∈ bounds bs) ∧
    (w ∉ bounds bs → (reslice all bs w).1.flatten = bs.flatten.drop w ∧
      ∀ n, 0 < n → (n ∈ bounds (reslice all bs w).1 ↔ w + n ∈ bounds bs)) := by
  intro bs
  induction bs with
  | nil =>
    intro w hw
    have hw0 : w = 0 := by simpa using hw
    subst hw0
    simp [reslice, bounds]
  | cons b bs ih =>
    intro w hw
    simp only [List.flatten_cons, List.length_append] at hw
    by_cases h : b.length ≤ w
    · have hr : reslice all (b :: bs) w = reslice all bs (w - b.length) := by simp [reslice, h]
      obtain ⟨h1, h2⟩ := ih (w - b.length) (by omega)
      rw [hr, mem_bounds_cons h]
      refine ⟨h1, fun hn => ?_⟩
      obtain ⟨hf, hb⟩ := h2 hn
      refine ⟨?_, fun n h0 => ?_⟩
      · rw [hf, List.flatten_cons, List.drop_append, List.drop_eq_nil_of_le h, List.nil_append]
      · rw [hb n h0, mem_bounds_cons (by omega)]
        congr! 1; omega
    · have hr : reslice all (b :: bs) w = (b.drop w :: bs, w) := by simp [reslice, h]
      rw [hr]
      have hlt : w < b.length := by omega
      refine ⟨?_, fun _ => ⟨?_, fun n h0 => mem_bounds_drop hlt h0⟩⟩
      · constructor
        · intro h0; simp only at h0; subst h0; exact zero_mem_bounds _
        · intro hm
          by_contra h0
          exact not_mem_bounds_cons (Nat.pos_of_ne_zero h0) hlt hm
      · rw [List.flatten_cons, List.flatten_cons, List.drop_append, show w - b.length = 0 by omega, List.drop_zero]

@[simp] theorem took_outcome (w : Wrote) (bs : Bytes) : (w.took bs).outcome = w.outcome := rfl
@[simp] theorem took_sent (w : Wrote) (bs : Bytes) : (w.took bs).sent = bs ++ w.sent := rfl
@[simp] theorem yielded_outcome (w : Wrote) : w.yielded.outcome = w.outcome := rfl
@[simp] theorem yielded_sent (w : Wrote) : w.yielded.sent = w.sent := rfl

theorem progress_mono (bnd : List Nat) (total : Nat) (rs : List WriteResult) :
    ∀ pos, pos ≤ total → pos ≤ (progress bnd total pos rs).2 ∧ (progress bnd total pos rs).2 ≤ total := by
  induction rs with
  | nil => intro pos h; exact ⟨Nat.le_refl _, h⟩
  | cons r rs ih =>
    intro pos h
    match r with
    | .again none => exact ih pos h
    | .again (some ec) => exact ⟨Nat.le_refl _, h⟩
    | .failed ec => exact ⟨Nat.le_refl _, h⟩
    | .room k hk =>
      simp only [progress]
      split
      · exact ⟨by omega, by omega⟩
      · have := ih (min (pos + k) total) (by omega)
        omega

theorem take_drop_glue {l : Bytes} {p q r : Nat} (hpq : p ≤ q) (hqr : q ≤ r) :
    (l.drop p).take (q - p) ++ (l.drop q).take (r - q) = (l.drop p).take (r - p) := by
  rw [show l.drop q = (l.drop p).drop (q - p) by rw [List.drop_drop]; congr 1; omega,
    ← List.take_add, show q - p + (r - q) = r - p by omega]

/-- `cur` is what is left of the buffers behind their first `pos` bytes. -/
structure Unsent (buffers cur : List Bytes) (pos : Nat) : Prop where
  lt : pos < buffers.flatten.length
  flatten : cur.flatten = buffers.flatten.drop pos
  bounds : ∀ n, 0 < n → (n ∈ bounds cur ↔ pos + n ∈ bounds buffers)

theorem Unsent.start {buffers : List Bytes} (h : 0 < buffers.flatten.length) : Unsent buffers buffers 0 :=
  ⟨h, by simp, by simp⟩

/-- One call that finds room: the write returns at a boundary, or goes on with what is left. -/
theorem Unsent.room {buffers cur : List Bytes} {pos k : Nat} (h : Unsent buffers cur pos) (hk : 0 < k) (rs : List WriteResult) :
    let pos' := min (pos + k) buffers.flatten.length
    let taken := (buffers.flatten.drop pos).take (pos' - pos)
    pos' ∈ Getodac.bounds buffers ∧ writev cur (.room k hk :: rs) = ⟨.returned, taken, 0, rs⟩ ∨
    pos' ∉ Getodac.bounds buffers ∧
      ∃ cur', Unsent buffers cur' pos' ∧ writev cur (.room k hk :: rs) = (writev cur' rs).took taken := by
  have hlen : cur.flatten.length = buffers.flatten.length - pos := by rw [h.flatten, List.length_drop]
  have hlt := h.lt
  obtain ⟨w, hw⟩ : ∃ w, w = min k cur.flatten.length := ⟨_, rfl⟩
  have hpos' : min (pos + k) buffers.flatten.length = pos + w := by omega
  dsimp only
  rw [hpos', Nat.add_sub_cancel_left, ← h.flatten]
  simp only [writev]
  rw [← hw, if_neg (show ¬ w = 0 by omega)]
  obtain ⟨hz, hs⟩ := reslice_spec cur cur w (by omega)
  have hb := h.bounds w (by omega)
  by_cases hm : pos + w ∈ Getodac.bounds buffers
  · exact .inl ⟨hm, by rw [if_pos (hz.2 (hb.2 hm))]⟩
  · obtain ⟨hf, hn⟩ := hs (fun h => hm (hb.1 h))
    have hne : pos + w ≠ buffers.flatten.length := fun h => hm (h ▸ length_mem_bounds buffers)
    refine .inr ⟨hm, _, ⟨by omega, ?_, ?_⟩, by rw [if_neg (fun h => hm (hb.1 (hz.1 h)))]⟩
    · rw [hf, h.flatten, List.drop_drop]
    · intro n h0
      rw [hn n h0, h.bounds _ (by omega)]
      congr! 1
      omega

/-- From any point of the loop on, the gathering write ends as `progress` does
and sends the bytes up to there. -/
theorem writev_from (buffers : List Bytes) (rs : List WriteResult) :
    ∀ (cur : List Bytes) (pos : Nat), Unsent buffers cur pos →
      (writev cur rs).outcome = (progress (bounds buffers) buffers.flatten.length pos rs).1 ∧
      (writev cur rs).sent = (buffers.flatten.drop pos).take
        ((progress (bounds buffers) buffers.flatten.length pos rs).2 - pos) := by
  induction rs with
  | nil => intro cur pos _; exact ⟨rfl, by simp [writev, progress]⟩
  | cons r rs ih =>
    intro cur pos h
    match r with
    | .again none => exact ih cur pos h
    | .again (some ec) => exact ⟨rfl, by simp [writev, progress]⟩
    | .failed ec => exact ⟨rfl, by simp [writev, progress]⟩
    | .room k hk =>
      have hlt := h.lt
      simp only [progress]
      rcases h.room hk rs with ⟨hm, heq⟩ | ⟨hm, cur', h', heq⟩
      · rw [heq, if_pos hm]
        exact ⟨rfl, rfl⟩
      · obtain ⟨ho, hsent⟩ := ih cur' _ h'
        have hmono := (progress_mono (bounds buffers) buffers.flatten.length rs _ (Nat.le_of_lt h'.lt)).1
        rw [heq, if_neg hm]
        exact ⟨ho, by rw [took_sent, hsent, take_drop_glue (by omega) hmono]⟩

/-- The gathering write ends as `progress` does from the start, and the bytes
accepted are those up to where it ends. -/
theorem writev_progress (buffers : List Bytes) (rs : List WriteResult) (h : 0 < buffers.flatten.length) :
    (writev buffers rs).outcome = (progress (bounds buffers) buffers.flatten.length 0 rs).1 ∧
    (writev buffers rs).sent =
      buffers.flatten.take (progress (bounds buffers) buffers.flatten.length 0 rs).2 := by
  simpa using writev_from buffers rs buffers 0 (.start h)

/-! ## What was accepted is a prefix -/

/-- The bytes accepted of a single buffer are a prefix of it, and all of it only if the write returned. -/
theorem write_isPrefix (rs : List WriteResult) :
    ∀ buffer, (write buffer rs).sent <+: buffer ∧
      ((write buffer rs).sent = buffer → (write buffer rs).outcome = .returned) := by
  induction rs with
  | nil =>
    intro buffer
    cases buffer <;> simp [write]
  | cons r rs ih =>
    intro buffer
    cases buffer with
    | nil => simp [write]
    | cons b bs =>
      match r with
      | .again none => exact ih _
      | .again (some ec) => simp [write]
      | .failed ec => simp [write]
      | .room k hk =>
        obtain ⟨hpre, hall⟩ := ih ((b :: bs).drop k)
        have hsplit := List.take_append_drop k (b :: bs)
        refine ⟨?_, fun h => hall (List.append_cancel_left (h.trans hsplit.symm))⟩
        have := (List.prefix_append_right_inj ((b :: bs).take k)).2 hpre
        rwa [hsplit] at this

/-- A gathering write that does not return has not sent everything. -/
theorem progress_lt {bnd : List Nat} {total : Nat} (ht : total ∈ bnd) (rs : List WriteResult) :
    ∀ pos, pos < total → (progress bnd total pos rs).1 ≠ .returned → (progress bnd total pos rs).2 < total := by
  induction rs with
  | nil => intro pos h _; exact h
  | cons r rs ih =>
    intro pos h hne
    match r with
    | .again none => exact ih pos h hne
    | .again (some ec) => exact h
    | .failed ec => exact h
    | .room k hk =>
      simp only [progress] at hne ⊢
      by_cases hm : min (pos + k) total ∈ bnd
      · rw [if_pos hm] at hne
        exact absurd rfl hne
      · rw [if_neg hm] at hne ⊢
        refine ih _ ?_ hne
        by_contra hge
        exact hm (by rwa [show min (pos + k) total = total by omega])

theorem writev_sent_empty {buffers : List Bytes} (h : buffers.flatten.length = 0) (rs : List WriteResult) :
    (writev buffers rs).sent = [] := by
  induction rs with
  | nil => rfl
  | cons r rs ih =>
    match r with
    | .again none => exact ih
    | .again (some ec) => rfl
    | .failed ec => rfl
    | .room k hk => simpa [writev, h] using ih

/-- The bytes a gathering write has accepted are a prefix of the concatenation, and all of it only if it returned. -/
theorem writev_isPrefix (buffers : List Bytes) (rs : List WriteResult) :
    (writev buffers rs).sent <+: buffers.flatten ∧
    (buffers.flatten ≠ [] → (writev buffers rs).outcome ≠ .returned → (writev buffers rs).sent ≠ buffers.flatten) := by
  by_cases h0 : buffers.flatten.length = 0
  · rw [writev_sent_empty h0]
    exact ⟨by simp, fun hne => absurd (List.length_eq_zero_iff.1 h0) hne⟩
  · obtain ⟨ho, hs⟩ := writev_progress buffers rs (Nat.pos_of_ne_zero h0)
    rw [ho, hs]
    refine ⟨⟨_, List.take_append_drop _ _⟩, fun _ hne heq => ?_⟩
    have hlt := progress_lt (length_mem_bounds buffers) rs 0 (Nat.pos_of_ne_zero h0) hne
    have := congrArg List.length heq
    rw [List.length_take] at this
    omega

/-! ## Completeness -/

/-- Room, or a would-block whose yield returns no error. -/
def WriteResult.Benign : WriteResult → Prop
  | .room _ _ => True
  | .again resume => resume = none
  | .failed _ => False

/-- The numbers of bytes accepted after each call that found room. -/
def accepted (total : Nat) : Nat → List WriteResult → List Nat
  | _, [] => []
  | pos, .room k _ :: rs => min (pos + k) total :: accepted total (min (pos + k) total) rs
  | pos, .again _ :: rs => accepted total pos rs
  | pos, .failed _ :: rs => accepted total pos rs

theorem accepted_ge {total : Nat} (rs : List WriteResult) :
    ∀ pos, pos ≤ total → ∀ p ∈ accepted total pos rs, pos ≤ p ∧ p ≤ total := by
  induction rs with
  | nil => intro pos _ p h; simp [accepted] at h
  | cons r rs ih =>
    intro pos hpos p h
    match r with
    | .again _ => exact ih pos hpos p h
    | .failed _ => exact ih pos hpos p h
    | .room k hk =>
      simp only [accepted, List.mem_cons] at h
      rcases h with rfl | h
      · omega
      · have := ih _ (Nat.min_le_right _ _) p h
        omega

/-- Whenever the gathering write returns it has sent all its buffers, as the
single buffer overload does for their concatenation, and with nothing to send
it returns at once. -/
def Complete (buffers : List Bytes) (rs : List WriteResult) : Prop :=
  ((writev buffers rs).outcome = .returned →
    (writev buffers rs).sent = buffers.flatten ∧
    ∀ rs', (write buffers.flatten rs').outcome = .returned →
      (write buffers.flatten rs').sent = (writev buffers rs).sent) ∧
  (buffers.flatten.length = 0 → (writev buffers rs).outcome = .returned ∧ (writev buffers rs).yields = 0)

theorem write_sent (rs : List WriteResult) :
    ∀ buffer, (write buffer rs).outcome = .returned → (write buffer rs).sent = buffer := by
  induction rs with
  | nil =>
    intro buffer h
    cases buffer with
    | nil => rfl
    | cons b bs => simp [write] at h
  | cons r rs ih =>
    intro buffer h
    cases buffer with
    | nil => rfl
    | cons b bs =>
      match r with
      | .again none => exact ih _ h
      | .again (some ec) => simp [write] at h
      | .failed ec => simp [write] at h
      | .room k hk =>
        simp only [write, took_outcome] at h
        simp only [write, took_sent, ih _ h, List.take_append_drop]

/-- With nothing to send the gathering write never returns. -/
theorem writev_empty {buffers : List Bytes} (h : buffers.flatten.length = 0) (rs : List WriteResult) :
    (writev buffers rs).outcome ≠ .returned := by
  induction rs with
  | nil => simp [writev]
  | cons r rs ih =>
    match r with
    | .again none => exact ih
    | .again (some ec) => simp [writev]
    | .failed ec => simp [writev]
    | .room k hk => simpa [writev, h] using ih

theorem progress_returned {bnd : List Nat} {total : Nat} (rs : List WriteResult) :
    ∀ pos, (progress bnd total pos rs).1 = .returned →
      (progress bnd total pos rs).2 ∈ accepted total pos rs ∧ (progress bnd total pos rs).2 ∈ bnd := by
  induction rs with
  | nil => intro pos h; simp [progress] at h
  | cons r rs ih =>
    intro pos h
    match r with
    | .again none => exact ih pos h
    | .again (some ec) => simp [progress] at h
    | .failed ec => simp [progress] at h
    | .room k hk =>
      by_cases hm : min (pos + k) total ∈ bnd
      · simp [progress, accepted, hm]
      · simp only [progress, if_neg hm] at h ⊢
        exact ⟨List.mem_cons_of_mem _ (ih _ h).1, (ih _ h).2⟩

/-- The loop goes no further than the first boundary it meets. -/
theorem progress_stops {bnd : List Nat} {total p : Nat} (rs : List WriteResult) :
    ∀ pos, pos ≤ total → (∀ r ∈ rs, r.Benign) → p ∈ accepted total pos rs → p ∈ bnd →
      (progress bnd total pos rs).1 = .returned ∧ (progress bnd total pos rs).2 ≤ p := by
  induction rs with
  | nil => intro pos _ _ h; simp [accepted] at h
  | cons r rs ih =>
    intro pos hpos hb h hp
    have hb' : ∀ r ∈ rs, r.Benign := fun r hr => hb r (List.mem_cons_of_mem _ hr)
    match r with
    | .again none => exact ih pos hpos hb' h hp
    | .again (some ec) => exact absurd (hb _ List.mem_cons_self) (by simp [WriteResult.Benign])
    | .failed ec => exact absurd (hb _ List.mem_cons_self) (by simp [WriteResult.Benign])
    | .room k hk =>
      simp only [accepted, List.mem_cons] at h
      by_cases hm : min (pos + k) total ∈ bnd
      · simp only [progress, if_pos hm, true_and]
        rcases h with rfl | h
        · exact Nat.le_refl _
        · exact (accepted_ge rs _ (Nat.min_le_right _ _) _ h).1
      · simp only [progress, if_neg hm]
        rcases h with rfl | h
        · exact absurd hp hm
        · exact ih _ (Nat.min_le_right _ _) hb' h hp

/-- The gathering write is complete exactly if there is something to send and no
call leaves the accepted bytes ending at a buffer boundary before the end. It
then returns exactly if everything gets accepted. -/
theorem writev_complete_iff (buffers : List Bytes) (rs : List WriteResult) (hb : ∀ r ∈ rs, r.Benign) :
    (Complete buffers rs ↔
      0 < buffers.flatten.length ∧
      ∀ p ∈ accepted buffers.flatten.length 0 rs, p < buffers.flatten.length → p ∉ bounds buffers) ∧
    (Complete buffers rs →
      ((writev buffers rs).outcome = .returned ↔
        buffers.flatten.length ∈ accepted buffers.flatten.length 0 rs)) := by
  by_cases h0 : buffers.flatten.length = 0
  · have hn : ¬ Complete buffers rs := fun hc => writev_empty h0 rs (hc.2 h0).1
    exact ⟨⟨fun hc => absurd hc hn, fun hc => absurd hc.1 (by omega)⟩, fun hc => absurd hc hn⟩
  have hpos : 0 < buffers.flatten.length := Nat.pos_of_ne_zero h0
  obtain ⟨ho, hs⟩ := writev_progress buffers rs hpos
  have hle := (progress_mono (bounds buffers) buffers.flatten.length rs 0 (Nat.zero_le _)).2
  -- complete means: if the loop stops, it stops at the end
  have hc : Complete buffers rs ↔
      ((progress (bounds buffers) buffers.flatten.length 0 rs).1 = .returned →
        (progress (bounds buffers) buffers.flatten.length 0 rs).2 = buffers.flatten.length) := by
    have htake : (progress (bounds buffers) buffers.flatten.length 0 rs).2 = buffers.flatten.length ↔
        buffers.flatten.take (progress (bounds buffers) buffers.flatten.length 0 rs).2 = buffers.flatten := by
      rw [List.take_eq_self_iff]; omega
    rw [Complete, ho, hs, htake]
    constructor
    · intro h hr; exact (h.1 hr).1
    · intro h
      exact ⟨fun hr => ⟨h hr, fun rs' hr' => by rw [write_sent rs' _ hr', h hr]⟩, fun h => absurd h h0⟩
  refine ⟨⟨fun h => ⟨hpos, fun p hp hlt hbd => ?_⟩, fun h => hc.2 fun hr => ?_⟩, fun h => ⟨fun hr => ?_, fun hm => ?_⟩⟩
  · obtain ⟨hr, hq⟩ := progress_stops rs 0 (Nat.zero_le _) hb hp hbd
    have := hc.1 h hr
    omega
  · obtain ⟨hm, hbd⟩ := progress_returned rs 0 hr
    by_contra hne
    exact h.2 _ hm (by omega) hbd
  · rw [ho] at hr
    have := (progress_returned rs 0 hr).1
    rwa [hc.1 h hr] at this
  · rw [ho]
    exact (progress_stops rs 0 (Nat.zero_le _) hb hm (length_mem_bounds buffers)).1

/-- Two buffers and room for three bytes, then for the rest: the first call ends inside the second buffer. -/
theorem writev_complete_inside :
    Complete [bytes "ab", bytes "cd"] [.room 3 (by decide), .again none, .room 9 (by decide)] :=
  (writev_complete_iff _ _ (by
    intro r hr
    simp only [List.mem_cons, List.not_mem_nil, or_false] at hr
    rcases hr with rfl | rfl | rfl <;> simp [WriteResult.Benign])).1.2 (by decide)

/-- The socket takes exactly the first of two buffers: the write returns without the second. -/
theorem writev_truncates :
    (∀ r ∈ [WriteResult.room 2 (by decide)], r.Benign) ∧
    ¬ Complete [bytes "ab", bytes "cd"] [.room 2 (by decide)] := by
  refine ⟨by simp [WriteResult.Benign], fun h => ?_⟩
  have hs := (h.1 (by decide)).1
  exact absurd hs (by decide)

end Getodac
