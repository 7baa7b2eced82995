import Getodac.Write
/-!
# What the answers to come make of a write

The single buffer overload returns if there is room (`write_returned_iff`). Of the
gathering one we say when it gets no further than its first buffer
(`writev_spares_iff`), and which answers it leaves when it returns
(`writev_stops_iff`).
-/

namespace Getodac

/-- The bytes there is room for before an error. -/
def roomOf : List WriteResult → Nat
  | .room k _ :: rs => k + roomOf rs
  | .again none :: rs => roomOf rs
  | _ => 0

/-- The single buffer overload returns exactly if there is room for its buffer. -/
theorem write_returned_iff (rs : List WriteResult) :
    ∀ buffer, (write buffer rs).outcome = .returned ↔ buffer.length ≤ roomOf rs := by
  induction rs with
  | nil => intro buffer; cases buffer <;> simp [write, roomOf]
  | cons r rs ih =>
    intro buffer
    cases buffer with
    | nil => simp [write]
    | cons b bs =>
      cases r with
      | again resume =>
        cases resume with
        | none => exact ih _
        | some ec => simp [write, roomOf]
      | failed ec => simp [write, roomOf]
      | room k hk =>
        rw [write, took_outcome, ih, roomOf, List.length_drop]
        omega

/-- Before an error no answer takes bytes on both sides of the position `h`. -/
def Spares (h : Nat) (rs : List WriteResult) : Prop :=
  ∀ pre k hk post, rs = pre ++ .room k hk :: post → (∀ r ∈ pre, r.Benign) → roomOf pre < h → roomOf pre + k ≤ h

theorem spares_error {r : WriteResult} (hr : ¬ r.Benign) (h : Nat) (rs : List WriteResult) : Spares h (r :: rs) := by
  intro pre k hk post heq hpre _
  cases pre with
  | nil =>
    cases heq
    exact absurd trivial hr
  | cons q pre =>
    cases heq
    exact absurd (hpre _ List.mem_cons_self) hr

theorem spares_again (h : Nat) (rs : List WriteResult) : Spares h (.again none :: rs) ↔ Spares h rs := by
  constructor
  · intro hs pre k hk post heq hpre
    refine hs (.again none :: pre) k hk post (congrArg _ heq) fun r hr => ?_
    rcases List.mem_cons.1 hr with rfl | hr
    · rfl
    · exact hpre r hr
  · intro hs pre k hk post heq hpre
    cases pre with
    | nil => cases heq
    | cons q pre =>
      cases heq
      exact hs pre k hk post rfl fun r hr => hpre r (List.mem_cons_of_mem _ hr)

theorem spares_room {h k : Nat} (h0 : 0 < h) (hk : 0 < k) (rs : List WriteResult) :
    Spares h (.room k hk :: rs) ↔ k ≤ h ∧ Spares (h - k) rs := by
  constructor
  · intro hs
    have hle : 0 + k ≤ h := hs [] k hk rs rfl (by simp) h0
    refine ⟨by omega, fun pre j hj post heq hpre hlt => ?_⟩
    have hroom : roomOf (.room k hk :: pre) = k + roomOf pre := rfl
    have hmore := hs (.room k hk :: pre) j hj post (congrArg _ heq) (fun r hr => ?_) (by omega)
    · omega
    · rcases List.mem_cons.1 hr with rfl | hr
      · trivial
      · exact hpre r hr
  · rintro ⟨hle, hs⟩ pre j hj post heq hpre hlt
    cases pre with
    | nil =>
      cases heq
      simpa [roomOf] using hle
    | cons q pre =>
      cases heq
      have hroom : roomOf (.room k hk :: pre) = k + roomOf pre := rfl
      have hmore := hs pre j hj post rfl (fun r hr => hpre r (List.mem_cons_of_mem _ hr)) (by omega)
      omega

/-- A gathering write gets no further than its first boundary exactly if the answers spare what is behind it. -/
theorem progress_le_iff {bnd : List Nat} {total h : Nat} (hh : h ∈ bnd) (hbelow : ∀ n, 0 < n → n < h → n ∉ bnd)
    (htotal : h < total) (rs : List WriteResult) :
    ∀ pos, pos < h → ((progress bnd total pos rs).2 ≤ h ↔ Spares (h - pos) rs) := by
  induction rs with
  | nil =>
    intro pos hpos
    refine iff_of_true (Nat.le_of_lt hpos) fun pre k hk post heq => ?_
    cases pre <;> cases heq
  | cons r rs ih =>
    intro pos hpos
    cases r with
    | again resume =>
      cases resume with
      | none => exact (ih pos hpos).trans (spares_again _ rs).symm
      | some ec => exact iff_of_true (Nat.le_of_lt hpos) (spares_error (by simp [WriteResult.Benign]) _ _)
    | failed ec => exact iff_of_true (Nat.le_of_lt hpos) (spares_error (by simp [WriteResult.Benign]) _ _)
    | room k hk =>
      rw [spares_room (by omega), progress]
      rcases Nat.lt_trichotomy (pos + k) h with hlt | heq | hgt
      · have hmin : min (pos + k) total = pos + k := by omega
        rw [hmin, if_neg (hbelow _ (by omega) hlt), ih _ hlt, Nat.sub_sub]
        exact (and_iff_right (by omega)).symm
      · have hmin : min (pos + k) total = h := by omega
        rw [hmin, if_pos hh]
        refine iff_of_true (Nat.le_refl h) ⟨by omega, fun pre j hj post _ _ hlt => ?_⟩
        omega
      · refine iff_of_false ?_ fun hs => absurd hs.1 (by omega)
        split
        · omega
        · have hmono := (progress_mono bnd total rs (min (pos + k) total) (Nat.min_le_right _ _)).1
          omega

theorem writev_spares_iff {b : Bytes} {bs : List Bytes} (hb : b ≠ []) (hbs : bs.flatten ≠ []) (rs : List WriteResult) :
    (writev (b :: bs) rs).sent.length ≤ b.length ↔ Spares b.length rs := by
  have hpos := List.length_pos_iff.2 hb
  have hmore := List.length_pos_iff.2 hbs
  have htotal : (b :: bs).flatten.length = b.length + bs.flatten.length := by simp
  have hend : b.length ∈ bounds (b :: bs) := by
    rw [mem_bounds_cons (Nat.le_refl _), Nat.sub_self]
    exact zero_mem_bounds bs
  rw [(writev_progress (b :: bs) rs (by omega)).2, List.length_take]
  have hle := (progress_mono (bounds (b :: bs)) (b :: bs).flatten.length rs 0 (Nat.zero_le _)).2
  rw [Nat.min_eq_left hle, progress_le_iff hend (fun n h0 hlt => not_mem_bounds_cons h0 hlt) (by omega) rs 0 hpos,
    Nat.sub_zero]

/-- With `pos` bytes accepted, a gathering write that ends at the positions `bnd` stops with the answers `post` left. -/
def StopsFrom (bnd : List Nat) (total pos : Nat) (rs post : List WriteResult) : Prop :=
  ∃ pre k hk, rs = pre ++ .room k hk :: post ∧ (∀ r ∈ pre, r.Benign) ∧ (∀ p ∈ accepted total pos pre, p ∉ bnd) ∧
    min (pos + roomOf pre + k) total ∈ bnd

section StopsFrom

variable {bnd : List Nat} {total pos : Nat} {rs post : List WriteResult}

theorem stopsFrom_nil : ¬ StopsFrom bnd total pos [] post := by
  rintro ⟨pre, k, hk, heq, -⟩
  cases pre <;> cases heq

theorem stopsFrom_error {r : WriteResult} (hr : ¬ r.Benign) : ¬ StopsFrom bnd total pos (r :: rs) post := by
  rintro ⟨pre, k, hk, heq, hpre, -⟩
  cases pre with
  | nil =>
    cases heq
    exact hr trivial
  | cons q pre =>
    cases heq
    exact hr (hpre _ List.mem_cons_self)

theorem stopsFrom_again : StopsFrom bnd total pos (.again none :: rs) post ↔ StopsFrom bnd total pos rs post := by
  constructor
  · rintro ⟨pre, k, hk, heq, hpre, hgo, hstop⟩
    cases pre with
    | nil => cases heq
    | cons q pre =>
      cases heq
      exact ⟨pre, k, hk, rfl, fun r hr => hpre r (List.mem_cons_of_mem _ hr), hgo, hstop⟩
  · rintro ⟨pre, k, hk, rfl, hpre, hgo, hstop⟩
    refine ⟨.again none :: pre, k, hk, rfl, fun r hr => ?_, hgo, hstop⟩
    rcases List.mem_cons.1 hr with rfl | hr
    · rfl
    · exact hpre r hr

theorem stopsFrom_room {k : Nat} (hk : 0 < k) :
    StopsFrom bnd total pos (.room k hk :: rs) post ↔
      if min (pos + k) total ∈ bnd then rs = post else StopsFrom bnd total (min (pos + k) total) rs post := by
  have hsum : ∀ pre j, min (pos + roomOf (.room k hk :: pre) + j) total =
      min (min (pos + k) total + roomOf pre + j) total := by
    intro pre j
    rw [roomOf]
    omega
  constructor
  · rintro ⟨pre, j, hj, heq, hpre, hgo, hstop⟩
    cases pre with
    | nil =>
      cases heq
      rw [if_pos (by simpa [roomOf] using hstop)]
    | cons q pre =>
      cases heq
      have hnot := hgo _ List.mem_cons_self
      rw [if_neg hnot]
      exact ⟨pre, j, hj, rfl, fun r hr => hpre r (List.mem_cons_of_mem _ hr),
        fun p hp => hgo p (List.mem_cons_of_mem _ hp), hsum pre j ▸ hstop⟩
  · split
    · rintro rfl
      exact ⟨[], k, hk, rfl, by simp, by simp [accepted], by simpa [roomOf]⟩
    · rename_i hnot
      rintro ⟨pre, j, hj, rfl, hpre, hgo, hstop⟩
      refine ⟨.room k hk :: pre, j, hj, rfl, fun r hr => ?_, fun p hp => ?_, hsum pre j ▸ hstop⟩
      · rcases List.mem_cons.1 hr with rfl | hr
        · trivial
        · exact hpre r hr
      · rcases List.mem_cons.1 hp with rfl | hp
        · exact hnot
        · exact hgo p hp

end StopsFrom

theorem writev_stopsFrom (buffers : List Bytes) (rs post : List WriteResult) :
    ∀ (cur : List Bytes) (pos : Nat), Unsent buffers cur pos →
      ((writev cur rs).outcome = .returned ∧ (writev cur rs).left = post ↔
        StopsFrom (bounds buffers) buffers.flatten.length pos rs post) := by
  induction rs with
  | nil => intro cur pos _; simp [writev, stopsFrom_nil]
  | cons r rs ih =>
    intro cur pos h
    cases r with
    | again resume =>
      cases resume with
      | none => exact (ih cur pos h).trans stopsFrom_again.symm
      | some ec => simp [writev, stopsFrom_error (r := .again (some ec)) (by simp [WriteResult.Benign])]
    | failed ec => simp [writev, stopsFrom_error (r := .failed ec) (by simp [WriteResult.Benign])]
    | room k hk =>
      rw [stopsFrom_room]
      rcases h.room hk rs with ⟨hm, heq⟩ | ⟨hm, cur', h', heq⟩
      · rw [heq, if_pos hm]
        exact and_iff_right rfl
      · rw [heq, if_neg hm]
        exact ih cur' _ h'

/-- A gathering write of the buffers stops with the answers `post` left. -/
def Stops (buffers : List Bytes) (rs post : List WriteResult) : Prop :=
  StopsFrom (bounds buffers) buffers.flatten.length 0 rs post

theorem writev_stops_iff {buffers : List Bytes} (h : buffers.flatten ≠ []) (rs post : List WriteResult) :
    (writev buffers rs).outcome = .returned ∧ (writev buffers rs).left = post ↔ Stops buffers rs post :=
  writev_stopsFrom buffers rs post buffers 0 (.start (List.length_pos_iff.2 h))

end Getodac
