import Getodac.Lib.SortedVector
/-!
# One turn of the event loop

`SessionsEventLoop::loop` waits in `epoll_wait`, calls `processEvents` on the
sessions it reports about, and then asks each session of `m_sessions` for its
deadline: it calls `timeout` on those whose deadline has passed and computes from
the others how long to wait next.

With `workload_balancing` the sessions are called in the order of their numbers;
`balancing_reorders` is what that changes. `sleeps_iff` says when the next wait
is as long as it should be: always, unless the earliest deadline is so far away
that the milliseconds to it are no `int`.
-/

namespace Getodac.EventLoop

/-! ## The events -/

/-- A record of `epoll_wait`. `data` is a union: a session was registered with its address in `ptr`, the eventfd with its
number in `fd`. -/
structure EpollEvent where
  events : UInt32
  data : UInt64
deriving DecidableEq, Repr

/-- `data.fd`: the low half of the union, whatever it was registered with. -/
def EpollEvent.fd (e : EpollEvent) : UInt32 := e.data.toUInt32

/-- The address of a session and the events it is called with. -/
abbrev Call := UInt64 × UInt32

structure Loop where
  eventFd : UInt32
  workloadBalancing : Bool
  /-- `order()` of the session at an address. -/
  order : UInt64 → UInt32

namespace Loop

variable {σ : Type} (l : Loop)

/-- The loops over the batch: `f` for the record of a session, and `wokeup` for that of the eventfd. -/
def scan (f : σ → Call → σ) (s : σ) (batch : List EpollEvent) : σ × Bool :=
  batch.foldl (fun (s, wokeup) e => if e.fd ≠ l.eventFd then (f s (e.data, e.events), wokeup) else (s, true)) (s, false)

/-- What `<` of the comparison sees of an element of `sessionEvents`. -/
def key (c : Call) : Nat := (l.order c.1).toNat

/-- What the loop does with a batch, where `processEvents` is what the call does to the sessions: the sessions after it,
and `wokeup`. -/
def process (processEvents : σ → Call → σ) (s : σ) (batch : List EpollEvent) : σ × Bool :=
  if !l.workloadBalancing then l.scan processEvents s batch
  else
    let (sessionEvents, wokeup) := l.scan (fun sessionEvents ev => SortedVector.insert l.key ev sessionEvents) [] batch
    (sessionEvents.foldl processEvents s, wokeup)

/-- The calls of `processEvents`, in their order, and `wokeup`. -/
def calls (batch : List EpollEvent) : List Call × Bool := l.process (fun calls c => calls ++ [c]) [] batch

/-- The records of sessions, in the order of the batch. -/
def reported (batch : List EpollEvent) : List Call :=
  (batch.filter (·.fd ≠ l.eventFd)).map fun e => (e.data, e.events)

theorem scan_eq (f : σ → Call → σ) (s : σ) (batch : List EpollEvent) :
    l.scan f s batch = ((l.reported batch).foldl f s, batch.any (·.fd = l.eventFd)) := by
  induction batch using List.reverseRecOn with
  | nil => rfl
  | append_singleton batch e ih =>
    rw [scan] at ih ⊢
    rw [List.foldl_append, ih, List.any_append, reported, reported, List.filter_append, List.map_append,
      List.foldl_append, List.foldl_cons, List.foldl_nil]
    by_cases h : e.fd = l.eventFd
    · simp [h]
    · simp [h]

/-- The calls in the order in which they are made. -/
def ordered (batch : List EpollEvent) : List Call :=
  if l.workloadBalancing then SortedVector.sort l.key (l.reported batch) else l.reported batch

/-- The sessions after a batch are those after the calls, one by one. -/
theorem process_eq (processEvents : σ → Call → σ) (s : σ) (batch : List EpollEvent) :
    l.process processEvents s batch = ((l.ordered batch).foldl processEvents s, batch.any (·.fd = l.eventFd)) := by
  cases hb : l.workloadBalancing with
  | false =>
    rw [process, hb, ordered, hb]
    exact l.scan_eq processEvents s batch
  | true =>
    rw [process, hb, ordered, hb, scan_eq, scan_eq]
    rfl

theorem calls_eq (batch : List EpollEvent) : l.calls batch = (l.ordered batch, batch.any (·.fd = l.eventFd)) := by
  rw [calls, process_eq]
  congr 1
  induction l.ordered batch using List.reverseRecOn with
  | nil => rfl
  | append_singleton cs c ih => rw [List.foldl_append, ih]; rfl

/-- With balancing the same calls are made and the loop is woken up in the same
cases; the calls come by the order of the sessions, and for sessions of one
order as the batch has them. -/
theorem balancing_reorders (batch : List EpollEvent) :
    let on := { l with workloadBalancing := true }.calls batch
    let off := { l with workloadBalancing := false }.calls batch
    on.1.Perm off.1 ∧ on.2 = off.2 ∧ on.1.Pairwise (fun a b => l.order a.1 ≤ l.order b.1) ∧
      off.1 = l.reported batch ∧
      ∀ order, on.1.filter (l.order ·.1 = order) = (l.reported batch).filter (l.order ·.1 = order) := by
  have hsorts : SortedVector.Sorts l.key (SortedVector.sort l.key (l.reported batch)) (l.reported batch) :=
    SortedVector.sort_sorts _
  intro on off
  have hon : on = (SortedVector.sort l.key (l.reported batch), _) := calls_eq { l with workloadBalancing := true } batch
  have hoff : off = (l.reported batch, _) := calls_eq { l with workloadBalancing := false } batch
  rw [hon, hoff]
  refine ⟨hsorts.perm, rfl, hsorts.sorted.imp fun h => UInt32.le_iff_toNat_le.2 h, rfl, fun order => ?_⟩
  have hkey : ∀ c : Call, l.key c = order.toNat ↔ l.order c.1 = order := fun c => UInt32.toNat_inj
  have hstable := hsorts.stable order.toNat
  simp only [hkey] at hstable
  exact hstable

end Loop

/-! ## The deadlines -/

/-- What the loop over the sessions has come to: `timeout`, in milliseconds, and the sessions whose `timeout()` it has
called. -/
structure Visited (Session : Type) where
  timeout : Int64 := -1
  timedOut : List Session := []
deriving DecidableEq, Repr

/-- `std::max(1000ms, duration_cast<Ms>(session_timeout - now) + 50ms)`. -/
def nextTimeout (deadline now : Int64) : Int64 := max 1000 ((deadline - now) / 1000000 + 50)

variable {Session : Type}

/-- The body of the loop, for a session and what its `nextTimeout()` answers. A time point is a number of nanoseconds
since the epoch, and `TimePoint{}` is 0. -/
def visit (now : Int64) (v : Visited Session) (s : Session × Int64) : Visited Session :=
  if s.2 = 0 then v
  else if s.2 ≤ now then { v with timedOut := v.timedOut ++ [s.1] }
  else
    let next_timeout := nextTimeout s.2 now
    { v with timeout := if v.timeout ≠ -1 then min v.timeout next_timeout else next_timeout }

def visitAll (now : Int64) (sessions : List (Session × Int64)) : Visited Session := sessions.foldl (visit now) {}

/-- `timeout.count()` as the last argument of `epoll_wait`, which is an `int`. -/
def epollTimeout (now : Int64) (sessions : List (Session × Int64)) : Int32 := (visitAll now sessions).timeout.toInt32

/-- A deadline that is still to come. -/
def Pending (now : Int64) (s : Session × Int64) : Prop := s.2 ≠ 0 ∧ now < s.2

/-- A deadline that has passed. -/
def Due (now : Int64) (s : Session × Int64) : Prop := s.2 ≠ 0 ∧ s.2 ≤ now

instance (now : Int64) (s : Session × Int64) : Decidable (Pending now s) := inferInstanceAs (Decidable (_ ∧ _))
instance (now : Int64) (s : Session × Int64) : Decidable (Due now s) := inferInstanceAs (Decidable (_ ∧ _))

/-- The earliest deadline that is still to come. -/
structure Earliest (now : Int64) (sessions : List (Session × Int64)) (s : Session × Int64) : Prop where
  mem : s ∈ sessions
  pending : Pending now s
  least : ∀ t ∈ sessions, Pending now t → s.2 ≤ t.2

/-- The nanoseconds to a deadline. -/
def left (now : Int64) (s : Session × Int64) : Int := s.2.toInt - now.toInt

/-- The next wait is as long as it should be, and whoever is late has been called. Times are nanoseconds here, the
timeout is in milliseconds. -/
structure Sleeps (now : Int64) (sessions : List (Session × Int64)) : Prop where
  forever : (epollTimeout now sessions).toInt < 0 ↔ ∀ s ∈ sessions, ¬ Pending now s
  second : ∀ s, Earliest now sessions s → 1000 ≤ (epollTimeout now sessions).toInt
  reached : ∀ s, Earliest now sessions s → left now s ≤ (epollTimeout now sessions).toInt * 1000000
  close : ∀ s, Earliest now sessions s → (epollTimeout now sessions).toInt * 1000000 - left now s < 1000 * 1000000
  closer : ∀ s, Earliest now sessions s → 1000 * 1000000 ≤ left now s →
    (epollTimeout now sessions).toInt * 1000000 - left now s ≤ 50 * 1000000
  called : ∀ s ∈ sessions, Due now s → s.1 ∈ (visitAll now sessions).timedOut

/-! ### One session -/

/-- How long the loop waits for one deadline, in milliseconds. -/
def waits (left : Int) : Int := max 1000 (left / 1000000 + 50)

variable {now : Int64} {s t : Session × Int64} {sessions : List (Session × Int64)} {v : Visited Session}

theorem left_pos (h : Pending now s) : 0 < left now s := by
  have := Int64.lt_iff_toInt_lt.1 h.2
  unfold left
  omega

/-- The clock is past the epoch, so no difference overflows. -/
theorem nextTimeout_toInt (hnow : 0 ≤ now) (h : Pending now s) : (nextTimeout s.2 now).toInt = waits (left now s) := by
  have hpos := left_pos h
  have hlt := s.2.toInt_lt
  have hnow' : 0 ≤ now.toInt := Int64.le_iff_toInt_le.1 hnow
  have hsub : (s.2 - now).toInt = left now s := by
    rw [Int64.toInt_sub, Int.bmod_eq_of_le] <;> unfold left at * <;> omega
  have hdiv : ((s.2 - now) / 1000000).toInt = left now s / 1000000 := by
    have h1 : (1000000 : Int64).toInt = 1000000 := rfl
    rw [Int64.toInt_div, hsub, h1, Int.tdiv_eq_ediv_of_nonneg hpos.le, Int.bmod_eq_of_le] <;> unfold left at * <;> omega
  have hadd : ((s.2 - now) / 1000000 + 50).toInt = left now s / 1000000 + 50 := by
    have h1 : (50 : Int64).toInt = 50 := rfl
    rw [Int64.toInt_add, hdiv, h1, Int.bmod_eq_of_le] <;> unfold left at * <;> omega
  have h1000 : (1000 : Int64).toInt = 1000 := rfl
  show (if (1000 : Int64) ≤ (s.2 - now) / 1000000 + 50 then (s.2 - now) / 1000000 + 50 else 1000).toInt = _
  rw [waits]
  split
  · rename_i hle
    have hle' := Int64.le_iff_toInt_le.1 hle
    rw [hadd] at hle' ⊢
    omega
  · rename_i hle
    have hle' := mt Int64.le_iff_toInt_le.2 hle
    rw [hadd] at hle'
    omega

theorem waits_mono {a b : Int} (h : a ≤ b) : waits a ≤ waits b := by
  unfold waits
  omega

theorem left_le (now : Int64) (hle : s.2 ≤ t.2) : left now s ≤ left now t := by
  have := Int64.le_iff_toInt_le.1 hle
  unfold left
  omega

/-! ### All sessions -/

/-- What the loop over the sessions has come to after some of them: the sentinel if no deadline is to come, else the
wait for the earliest. -/
structure Reads (now : Int64) (sessions : List (Session × Int64)) (v : Visited Session) : Prop where
  idle : (∀ s ∈ sessions, ¬ Pending now s) → v.timeout = -1
  wait : (∃ s ∈ sessions, Pending now s) → ∃ s, Earliest now sessions s ∧ v.timeout.toInt = waits (left now s)
  called : v.timedOut = (sessions.filter (Due now ·)).map (·.1)

/-- The earliest of the sessions so far and a new one. -/
theorem Earliest.concat (h : Earliest now sessions s) (ht : Pending now t) :
    Earliest now (sessions ++ [t]) (if s.2 ≤ t.2 then s else t) := by
  split
  · rename_i hle
    refine ⟨List.mem_append_left _ h.mem, h.pending, fun u hu hpu => ?_⟩
    rcases List.mem_append.1 hu with hu | hu
    · exact h.least u hu hpu
    · exact List.mem_singleton.1 hu ▸ hle
  · rename_i hle
    refine ⟨List.mem_append_right _ (List.mem_singleton_self t), ht, fun u hu hpu => ?_⟩
    rcases List.mem_append.1 hu with hu | hu
    · exact Int64.le_trans (Int64.le_of_lt (Int64.not_le.1 hle)) (h.least u hu hpu)
    · exact List.mem_singleton.1 hu ▸ Int64.le_refl _

theorem Earliest.skip (h : Earliest now sessions s) (ht : ¬ Pending now t) : Earliest now (sessions ++ [t]) s := by
  refine ⟨List.mem_append_left _ h.mem, h.pending, fun u hu hpu => ?_⟩
  rcases List.mem_append.1 hu with hu | hu
  · exact h.least u hu hpu
  · exact absurd (List.mem_singleton.1 hu ▸ hpu) ht

/-- A session without a deadline to come leaves the wait as it is. -/
theorem Reads.skip {w : Visited Session} (h : Reads now sessions v) (ht : ¬ Pending now t)
    (htimeout : w.timeout = v.timeout) (hcalled : w.timedOut = v.timedOut ++ (([t].filter (Due now ·)).map (·.1))) :
    Reads now (sessions ++ [t]) w where
  idle hnone := by
    rw [htimeout]
    exact h.idle fun u hu => hnone u (List.mem_append_left _ hu)
  wait := by
    rintro ⟨u, hu, hpu⟩
    rcases List.mem_append.1 hu with hu | hu
    · obtain ⟨s, hs, hwait⟩ := h.wait ⟨u, hu, hpu⟩
      exact ⟨s, hs.skip ht, htimeout ▸ hwait⟩
    · exact absurd (List.mem_singleton.1 hu ▸ hpu) ht
  called := by rw [hcalled, h.called, List.filter_append, List.map_append]

/-- The minimum of two waits is the wait for the earlier deadline. -/
theorem min_waits {a b : Int64} (ha : a.toInt = waits (left now s)) (hb : b.toInt = waits (left now t)) :
    (min a b).toInt = waits (left now (if s.2 ≤ t.2 then s else t)) := by
  show (if a ≤ b then a else b).toInt = _
  split <;> rename_i hab <;> rw [Int64.le_iff_toInt_le, ha, hb] at hab <;> split <;> rename_i hst
  · exact ha
  · have := waits_mono (left_le now (Int64.le_of_lt (Int64.not_le.1 hst)))
    omega
  · have := waits_mono (left_le now hst)
    omega
  · exact hb

/-- A deadline to come replaces the sentinel, or the wait for a later one. -/
theorem Reads.pending (hnow : 0 ≤ now) (h : Reads now sessions v) (ht : Pending now t) :
    Reads now (sessions ++ [t])
      { v with timeout := if v.timeout ≠ -1 then min v.timeout (nextTimeout t.2 now) else nextTimeout t.2 now } where
  idle hnone := absurd ht (hnone t (by simp))
  wait _ := by
    have hnext := nextTimeout_toInt hnow ht
    by_cases hsome : ∃ s ∈ sessions, Pending now s
    · obtain ⟨s, hs, hwait⟩ := h.wait hsome
      have hne : v.timeout ≠ -1 := by
        intro he
        rw [he, waits] at hwait
        have : (-1 : Int64).toInt = -1 := rfl
        omega
      refine ⟨_, hs.concat ht, ?_⟩
      rw [if_pos hne]
      exact min_waits hwait hnext
    · have hnone : ∀ s ∈ sessions, ¬ Pending now s := fun s hs hp => hsome ⟨s, hs, hp⟩
      refine ⟨t, ⟨by simp, ht, fun u hu hp => ?_⟩, ?_⟩
      · rcases List.mem_append.1 hu with hu | hu
        · exact absurd hp (hnone u hu)
        · exact List.mem_singleton.1 hu ▸ Int64.le_refl _
      · rw [if_neg (not_not.2 (h.idle hnone))]
        exact hnext
  called := by
    have hnotDue : ¬ Due now t := fun hd => Int64.not_le.2 ht.2 hd.2
    rw [h.called, List.filter_append, List.filter_singleton, decide_eq_false hnotDue]
    simp

theorem Reads.visit (hnow : 0 ≤ now) (h : Reads now sessions v) (t : Session × Int64) :
    Reads now (sessions ++ [t]) (visit now v t) := by
  unfold EventLoop.visit
  split
  · rename_i h0
    exact h.skip (fun hp => hp.1 h0) rfl (by simp [Due, h0])
  · rename_i h0
    split
    · rename_i hle
      exact h.skip (fun hp => Int64.not_le.2 hp.2 hle) rfl (by simp [Due, h0, hle])
    · rename_i hlt
      exact h.pending hnow ⟨h0, Int64.not_le.1 hlt⟩

theorem visitAll_reads (hnow : 0 ≤ now) (sessions : List (Session × Int64)) :
    Reads now sessions (visitAll now sessions) := by
  induction sessions using List.reverseRecOn with
  | nil => exact ⟨fun _ => rfl, by simp, rfl⟩
  | append_singleton sessions t ih =>
    rw [visitAll, List.foldl_append]
    exact ih.visit hnow t

/-- Whoever is late is called. -/
theorem due_called (hnow : 0 ≤ now) (hs : s ∈ sessions) (hdue : Due now s) : s.1 ∈ (visitAll now sessions).timedOut := by
  rw [(visitAll_reads hnow sessions).called]
  exact List.mem_map.2 ⟨s, List.mem_filter.2 ⟨hs, decide_eq_true hdue⟩, rfl⟩

/-- All that are earliest are equally far. -/
theorem Earliest.left_eq (hs : Earliest now sessions s) (ht : Earliest now sessions t) : left now s = left now t :=
  le_antisymm (left_le now (hs.least t ht.mem ht.pending)) (left_le now (ht.least s hs.mem hs.pending))

theorem epollTimeout_toInt (hnow : 0 ≤ now) (hs : Earliest now sessions s) :
    (epollTimeout now sessions).toInt = (waits (left now s)).bmod (2 ^ 32) := by
  obtain ⟨t, ht, hwait⟩ := (visitAll_reads hnow sessions).wait ⟨s, hs.mem, hs.pending⟩
  rw [epollTimeout, Int64.toInt_toInt32, hwait, hs.left_eq ht]

theorem epollTimeout_idle (hnow : 0 ≤ now) (h : ∀ s ∈ sessions, ¬ Pending now s) : (epollTimeout now sessions).toInt = -1 := by
  rw [epollTimeout, (visitAll_reads hnow sessions).idle h]
  rfl

theorem exists_earliest (hnow : 0 ≤ now) (h : ∃ s ∈ sessions, Pending now s) : ∃ s, Earliest now sessions s := by
  obtain ⟨s, hs, -⟩ := (visitAll_reads hnow sessions).wait h
  exact ⟨s, hs⟩

/-- A number that is no `int` loses at least `2^32` in becoming one. -/
theorem bmod_le {w : Int} (h : 2 ^ 31 ≤ w) : w.bmod (2 ^ 32) ≤ w - 2 ^ 32 := by
  unfold Int.bmod
  dsimp only
  split <;> omega

/-- The loop waits as long as it should, neither too long nor for ever, exactly
if the milliseconds to the earliest deadline, and 50, are less than `2^31`. -/
theorem sleeps_iff (hnow : 0 ≤ now) (sessions : List (Session × Int64)) :
    Sleeps now sessions ↔ ∀ s, Earliest now sessions s → left now s / 1000000 + 50 < 2 ^ 31 := by
  constructor
  · intro h s hs
    by_contra hfar
    have hreached := h.reached s hs
    have hwaits : waits (left now s) = left now s / 1000000 + 50 := max_eq_right (by omega)
    have hle : (waits (left now s)).bmod (2 ^ 32) ≤ waits (left now s) - 2 ^ 32 := bmod_le (by omega)
    rw [epollTimeout_toInt hnow hs] at hreached
    omega
  · intro h
    have hint : ∀ s, Earliest now sessions s → (epollTimeout now sessions).toInt = waits (left now s) := by
      intro s hs
      have hfits := h s hs
      rw [epollTimeout_toInt hnow hs, Int.bmod_eq_of_le] <;> unfold waits <;> omega
    refine ⟨⟨fun hneg s hs hp => ?_, fun hnone => ?_⟩, fun s hs => ?_, fun s hs => ?_, fun s hs => ?_,
      fun s hs hsecond => ?_, fun s hs hdue => due_called hnow hs hdue⟩
    · obtain ⟨t, ht⟩ := exists_earliest hnow ⟨s, hs, hp⟩
      rw [hint t ht, waits] at hneg
      omega
    · rw [epollTimeout_idle hnow hnone]
      decide
    · rw [hint s hs, waits]
      omega
    · rw [hint s hs, waits]
      omega
    · have hpos := left_pos hs.pending
      rw [hint s hs, waits]
      omega
    · rw [hint s hs, waits]
      omega

/-- One session has 30 seconds left, another has been late for one. -/
theorem sleeps_thirty : Sleeps 1700000000000000000 [(1, 1700000030000000000), (2, 1699999999000000000), (3, (0 : Int64))] :=
  (sleeps_iff (by decide) _).2 (by
    intro s hs
    have hall : ∀ t ∈ [(1, 1700000030000000000), (2, 1699999999000000000), (3, (0 : Int64))],
        left 1700000000000000000 t / 1000000 + 50 < 2 ^ 31 := by
      decide
    exact hall s hs.mem)

/-- A deadline in thirty days, which a body of 1.4 TB gets, and the loop waits for ever. -/
theorem sleeps_forever : Pending 1700000000000000000 (1, 1702592000000000000) ∧
    (epollTimeout 1700000000000000000 [(1, 1702592000000000000)]).toInt < 0 := by
  decide

/-- A session whose deadline is the earliest is timed out by the turn after the
wait, if its deadline is not set anew. -/
theorem called_next_turn {later : Int64} {next : List (Session × Int64)} (h : Sleeps now sessions)
    (hs : Earliest now sessions s) (hmem : s ∈ next) (hlater : 0 ≤ later)
    (hslept : now.toInt + (epollTimeout now sessions).toInt * 1000000 ≤ later.toInt) :
    s.1 ∈ (visitAll later next).timedOut := by
  have hreached := h.reached s hs
  have hdue : s.2 ≤ later := by
    rw [Int64.le_iff_toInt_le]
    unfold left at hreached
    omega
  exact due_called hlater hmem ⟨hs.pending.1, hdue⟩

end Getodac.EventLoop
