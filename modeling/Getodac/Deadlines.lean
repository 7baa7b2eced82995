import Getodac.Timeouts
/-!
# Deadlines in 64 bits

`ioLoop` gives a handler `keepalive_timeout` and one second for every 512 KiB of
the announced body. The seconds are added in `size_t` and become a
`std::chrono::seconds`; `setSessionTimeout` adds them to the clock, whose
nanoseconds are 64 bits with a sign. The seconds fit whatever the client
announces. The nanoseconds do not: `handler_deadline` says for which lengths the
sum overflows.
-/

namespace Getodac

/-- The argument of `setSessionTimeout` in `ioLoop`. `1s * n` with a `size_t` is a duration that counts in `size_t`, and
so is the sum, until it is converted for the call. -/
def handlerSeconds (keepAliveTimeout : Int64) (content_length : UInt64) : Int64 :=
  (keepAliveTimeout.toUInt64 + content_length / (512 * 1024)).toInt64

/-- A count of nanoseconds as the clock has them, unless it overflows. -/
def clockCount (ns : Int) : Option Int := if -2 ^ 63 ≤ ns ∧ ns < 2 ^ 63 then some ns else none

/-- What `setSessionTimeout` puts into `m_sessionTimeoutTimePoint`, with the overflows of `now() + seconds`: the seconds
are converted to nanoseconds first. -/
def checkedTimePoint (now seconds : Int) : Option Int :=
  if seconds ≠ 0 then do
    let ns ← clockCount (nanoseconds seconds)
    clockCount (now + ns)
  else some 0

/-! ## The seconds -/

theorem toInt64_toInt (x : UInt64) : x.toInt64.toInt = (x.toNat : Int).bmod (2 ^ 64) :=
  BitVec.toInt_eq_toNat_bmod x.toBitVec

theorem toUInt64_toNat {x : Int64} (h : 0 ≤ x.toInt) : (x.toUInt64.toNat : Int) = x.toInt := by
  rw [Int64.toNat_toUInt64_of_le (Int64.le_iff_toInt_le.2 h)]
  exact Int.toNat_of_nonneg h

/-- No length and no `keepalive_timeout` below `2^31` make the seconds wrap. -/
theorem handlerSeconds_toInt {keepAliveTimeout : Int64} (h0 : 0 ≤ keepAliveTimeout.toInt)
    (hk : keepAliveTimeout.toInt < 2 ^ 31) (content_length : UInt64) :
    (handlerSeconds keepAliveTimeout content_length).toInt =
      keepAliveTimeout.toInt + (content_length.toNat / (512 * 1024) : Nat) := by
  have hlt := content_length.toNat_lt
  have hconst : (512 * 1024 : UInt64).toNat = 512 * 1024 := rfl
  have hkeep := toUInt64_toNat h0
  have hsum : (keepAliveTimeout.toUInt64 + content_length / (512 * 1024)).toNat =
      keepAliveTimeout.toUInt64.toNat + content_length.toNat / (512 * 1024) := by
    rw [UInt64.toNat_add, UInt64.toNat_div, hconst, Nat.mod_eq_of_lt (by omega)]
  rw [handlerSeconds, toInt64_toInt, hsum, Int.bmod_eq_of_le] <;> omega

/-! ## The nanoseconds -/

theorem checkedTimePoint_eq {now seconds : Int} (hnow : 0 ≤ now) (hmax : now < 2 ^ 63) (hseconds : 0 ≤ seconds) :
    checkedTimePoint now seconds =
      if now + nanoseconds seconds < 2 ^ 63 then some (sessionTimeoutTimePoint now seconds) else none := by
  unfold checkedTimePoint sessionTimeoutTimePoint
  by_cases h0 : seconds = 0
  · subst h0
    have hfits : now + nanoseconds 0 < 2 ^ 63 := by unfold nanoseconds; omega
    rw [if_pos hfits]
    rfl
  · rw [if_pos h0, if_pos h0]
    have hpos : 0 < nanoseconds seconds := by unfold nanoseconds; omega
    by_cases hfits : now + nanoseconds seconds < 2 ^ 63
    · have hns : clockCount (nanoseconds seconds) = some (nanoseconds seconds) := if_pos ⟨by omega, by omega⟩
      rw [if_pos hfits, hns]
      exact if_pos ⟨by omega, hfits⟩
    · rw [if_neg hfits]
      by_cases hconv : nanoseconds seconds < 2 ^ 63
      · have hns : clockCount (nanoseconds seconds) = some (nanoseconds seconds) := if_pos ⟨by omega, hconv⟩
        rw [hns]
        exact if_neg fun h => hfits h.2
      · have hns : clockCount (nanoseconds seconds) = none := if_neg fun h => hconv h.2
        rw [hns]
        rfl

section
variable {P : HttpParser} (srv : Server) (req : Request) (now : Int)

/-- The deadline of a handler overflows exactly if the seconds that its length
gets lead past the end of the clock. Otherwise it is not before
`keepalive_timeout`; there is none if the seconds are 0. -/
theorem handler_deadline (s : Session P) (h0 : 0 ≤ srv.keepAliveTimeout) (hk : srv.keepAliveTimeout < 2 ^ 31)
    (hlength : req.contentLength < 2 ^ 64 - 1) (hnow : 0 ≤ now) (hmax : now < 2 ^ 63) :
    let seconds := (s.startHandler srv req).sessionTimeout
    seconds = (handlerSeconds (Int64.ofInt srv.keepAliveTimeout) (UInt64.ofNat req.contentLength)).toInt ∧
    (checkedTimePoint now seconds = none ↔
      2 ^ 63 ≤ now + (srv.keepAliveTimeout + (req.contentLength / (512 * 1024) : Nat)) * 1000000000) ∧
    ∀ t, checkedTimePoint now seconds = some t →
      seconds = 0 ∧ t = 0 ∨ now + srv.keepAliveTimeout * 1000000000 ≤ t := by
  have hne : req.contentLength ≠ chunkedData := Nat.ne_of_lt hlength
  have hseconds : (s.startHandler srv req).sessionTimeout =
      srv.keepAliveTimeout + (req.contentLength / (512 * 1024) : Nat) := if_pos hne
  intro seconds
  have hpos : 0 ≤ seconds := by omega
  have hpoint := checkedTimePoint_eq hnow hmax hpos
  refine ⟨?_, ?_, fun t ht => ?_⟩
  · have hkeep : (Int64.ofInt srv.keepAliveTimeout).toInt = srv.keepAliveTimeout :=
      Int64.toInt_ofInt_of_le (by omega) (by omega)
    have hnat : (UInt64.ofNat req.contentLength).toNat = req.contentLength :=
      UInt64.toNat_ofNat_of_lt (Nat.lt_of_lt_of_le hlength (by decide))
    rw [handlerSeconds_toInt (by omega) (by omega), hkeep, hnat]
    exact hseconds
  · rw [hpoint, ← hseconds]
    change _ ↔ _ ≤ now + nanoseconds seconds
    split <;> simp <;> omega
  · rw [hpoint] at ht
    split at ht
    · obtain rfl := Option.some.inj ht
      by_cases hz : seconds = 0
      · exact .inl ⟨hz, if_neg (not_not.2 hz)⟩
      · right
        rw [sessionTimeoutTimePoint, if_pos hz]
        unfold nanoseconds
        omega
    · cases ht

/-- In this century there is room for a petabyte. -/
theorem deadline_fits (hk : srv.keepAliveTimeout < 2 ^ 31) (hlength : req.contentLength < 2 ^ 50)
    (hnow : now < 4133980800 * 1000000000) :
    now + (srv.keepAliveTimeout + (req.contentLength / (512 * 1024) : Nat)) * 1000000000 < 2 ^ 63 := by
  omega

end

/-- A request with this Content-Length. -/
def announcing (length : String) : Request := { fields := [(bytes "Content-Length", bytes length)] }

/-- 50 MB, in November 2023. -/
theorem handler_deadline_upload : ∃ t,
    checkedTimePoint 1700000000000000000 (({ reads := [] } : Session postParser).startHandler (bodyServer 10).toServer
      (announcing "52428800")).sessionTimeout = some t ∧ 1700000010000000000 ≤ t := by
  obtain ⟨-, hnone, hsome⟩ := handler_deadline (bodyServer 10).toServer (announcing "52428800") 1700000000000000000
    ({ reads := [] } : Session postParser) (by decide) (by decide) (by decide) (by decide) (by decide)
  cases ht : checkedTimePoint 1700000000000000000 (({ reads := [] } : Session postParser).startHandler
      (bodyServer 10).toServer (announcing "52428800")).sessionTimeout with
  | none =>
    have hfits := deadline_fits (bodyServer 10).toServer (announcing "52428800") 1700000000000000000 (by decide)
      (by decide) (by decide)
    exact absurd (hnone.1 ht) (not_le.2 hfits)
  | some t =>
    refine ⟨t, rfl, ?_⟩
    rcases hsome t ht with ⟨hzero, -⟩ | hle
    · exact absurd hzero (by decide)
    · exact hle

/-- Nine exabytes, and the deadline overflows. -/
theorem deadline_overflows :
    (announcing "9000000000000000000").contentLength = 9000000000000000000 ∧
    checkedTimePoint 1700000000000000000 (({ reads := [] } : Session postParser).startHandler (bodyServer 10).toServer
      (announcing "9000000000000000000")).sessionTimeout = none := by
  decide

end Getodac
