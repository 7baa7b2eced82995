import Getodac.Lib.Runs
/-!
# Waking sessions through the event loop's eventfd

`Wakeupper::wakeup` adds the address of its session to the eventfd of the
session's loop, and `SessionsEventLoop::loop` takes each number it reads for the
address of a session to wake. The state is one loop, the actions are those of
the loop's thread and of every other thread, in any order.

A read returns the sum of the writes before it, so wakeups that meet in the
counter are lost or reach the wrong session (`wakeups_lost`).
`wakeups_delivered` is what the protocol does guarantee.
-/

namespace Getodac.Wakeups

/-- A `BasicServerSession` object: which one it is and where it lives. No object
lives in the first page or in the kernel's half of the address space. An
address is used again once its object is deleted, so it does not name one session. -/
structure Session where
  id : Nat
  addr : Nat
  lo : 4096 ≤ addr
  hi : addr < 2 ^ 63
deriving DecidableEq, Repr

/-- One `eventfd_write`: from `Wakeupper::wakeup` or from `shutdown`. -/
inductive Write where
  | wakeup (s : Session)
  | shutdown
deriving DecidableEq, Repr

def Write.value : Write → Nat
  | .wakeup s => s.addr
  | .shutdown => 1

/-- The counter after `eventfd_write(v)`. The kernel refuses a write that would
take it past `2^64 - 2`, and nobody looks at the result. -/
def eventfdWrite (counter v : Nat) : Nat :=
  if counter + v ≤ 2 ^ 64 - 2 then counter + v else counter

/-- Where the loop's thread is in its iteration. -/
inductive Pc where
  | waiting
  /-- Calling `processEvents`; `wokeup` says if the eventfd is among the events. -/
  | events (wokeup : Bool)
  /-- In `while(eventfd_read(...) == 0)`, with `wokeup_sessions` so far. -/
  | draining (wokeup_sessions : List Nat)
  | drained (wokeup_sessions : List Nat)
  /-- In the loop over the copy of `m_sessions`. -/
  | visiting (wokeup_sessions : List Nat) (todo : List Session)
  | quit
deriving DecidableEq, Repr

/-- `wokeup_sessions`, which lives as long as one iteration. -/
def Pc.wokeupSessions : Pc → List Nat
  | .draining w | .drained w | .visiting w _ => w
  | _ => []

/-- The numbers read belong to sessions that may still change. -/
def Pc.collecting : Pc → Bool
  | .draining _ | .drained _ => true
  | _ => false

structure Loop where
  counter : Nat := 0
  quit : Bool := false
  sessions : List Session := []
  deleteLaterObjects : List Session := []
  pc : Pc := .waiting
  -- history: writes not read yet, writes before the end of this iteration's drain, the
  -- copy of `m_sessions` it made, and the sessions it called `wakeup()` on
  unread : List Write := []
  drained : List Write := []
  snapshot : List Session := []
  called : List Session := []
deriving DecidableEq, Repr

inductive Action where
  -- any thread
  | wakeup (s : Session)
  | storeQuit
  | writeQuit
  | registerSession (s : Session)
  -- the loop's thread
  | epollWait (wokeup : Bool)
  | deleteLater (s : Session)
  | processed
  | eventfdRead
  | copySessions
  | visit (dies : Bool)
  | deleteAll
deriving DecidableEq, Repr

def Loop.write (l : Loop) (w : Write) : Loop :=
  { l with counter := eventfdWrite l.counter w.value, unread := l.unread ++ [w] }

/-- `deleteLater`: the session leaves `m_sessions` now and is deleted at the end of the iteration. -/
def Loop.deleteLater (l : Loop) (s : Session) : Loop :=
  { l with sessions := l.sessions.filter (· ≠ s), deleteLaterObjects := s :: l.deleteLaterObjects }

def step (l : Loop) : Action → Option Loop
  | .wakeup s => some (l.write (.wakeup s))
  | .storeQuit => some { l with quit := true }
  | .writeQuit => some (l.write .shutdown)
  | .registerSession s =>
    if ∃ t ∈ l.sessions ++ l.deleteLaterObjects, t.addr = s.addr then none
    else some { l with sessions := s :: l.sessions }
  | .epollWait wokeup =>
    match l.pc with
    | .waiting => some { l with pc := if l.quit then .quit else .events wokeup }
    | _ => none
  | .deleteLater s =>
    match l.pc with
    | .events _ => if s ∈ l.sessions then some (l.deleteLater s) else none
    | _ => none
  | .processed =>
    match l.pc with
    | .events wokeup => some { l with pc := if wokeup then .draining [] else .drained [] }
    | _ => none
  | .eventfdRead =>
    match l.pc with
    | .draining w =>
      let l := { l with drained := l.drained ++ l.unread, unread := [] }
      if l.counter = 0 then some { l with pc := .drained w }
      -- 1 is taken for the write of `shutdown`
      else some { l with counter := 0, pc := .draining (if l.counter ≠ 1 then l.counter :: w else w) }
    | _ => none
  | .copySessions =>
    match l.pc with
    | .drained w => some { l with pc := .visiting w l.sessions, snapshot := l.sessions }
    | _ => none
  | .visit dies =>
    match l.pc with
    | .visiting w (s :: todo) =>
      let l := { l with pc := .visiting w todo, called := if s.addr ∈ w then s :: l.called else l.called }
      -- in `wakeup()` or `timeout()`
      some (if dies then l.deleteLater s else l)
    | _ => none
  | .deleteAll =>
    match l.pc with
    | .visiting _ [] =>
      some { l with deleteLaterObjects := [], pc := .waiting, drained := [], snapshot := [], called := [] }
    | _ => none

/-- In this iteration `wakeup()` was called on no session for which none was
issued and, once all sessions are visited, on every session still in
`m_sessions` for which one was issued before the drain was over. -/
def Delivered (l : Loop) : Prop :=
  (∀ s ∈ l.called, .wakeup s ∈ l.drained) ∧
  ∀ w, l.pc = .visiting w [] → ∀ s ∈ l.snapshot, .wakeup s ∈ l.drained → s ∈ l.called

/-! ## When the protocol works -/

/-- Where a step can go wrong. A wakeup is written while another write is still
unread, or while another session lives at the address; `shutdown` is called
while a wakeup is unread, or a page full of times; a session gets an address
for which the wakeup of an earlier session is still under way. -/
def Quiet (l : Loop) : Action → Prop
  | .wakeup s => l.unread = [] ∧ ∀ t ∈ l.sessions, t.addr = s.addr → t = s
  | .writeQuit => (∀ w ∈ l.unread, w = .shutdown) ∧ l.unread.length + 1 < 4096
  | .registerSession t =>
    ∀ w ∈ l.unread ++ (if l.pc.collecting then l.drained else []), w = .wakeup t ∨ w.value ≠ t.addr
  | _ => True

instance (l : Loop) (a : Action) : Decidable (Quiet l a) := by
  cases a <;> unfold Quiet <;> infer_instance

/-- The counter holds the value of at most one wakeup, or only those of `shutdown`. -/
inductive Pending : Nat → List Write → Prop where
  | nothing : Pending 0 []
  | wakeup (s : Session) : Pending s.addr [.wakeup s]
  | shutdown {ws : List Write} (h : ∀ w ∈ ws, w = .shutdown) (h0 : ws ≠ []) (hk : ws.length < 4096) :
      Pending ws.length ws

structure Inv (l : Loop) : Prop where
  pending : Pending l.counter l.unread
  unread_own : ∀ s, .wakeup s ∈ l.unread → ∀ t ∈ l.sessions, t.addr = s.addr → t = s
  -- what was read are the addresses of the sessions whose wakeups were read
  read_of : ∀ n ∈ l.pc.wokeupSessions, 4096 ≤ n → ∃ s, .wakeup s ∈ l.drained ∧ s.addr = n
  of_read : ∀ s, .wakeup s ∈ l.drained → s.addr ∈ l.pc.wokeupSessions
  collecting_own : l.pc.collecting → ∀ s, .wakeup s ∈ l.drained → ∀ t ∈ l.sessions, t.addr = s.addr → t = s
  snapshot_own : ∀ s, .wakeup s ∈ l.drained → ∀ t ∈ l.snapshot, t.addr = s.addr → t = s
  called_snapshot : ∀ s ∈ l.called, s ∈ l.snapshot ∧ s.addr ∈ l.pc.wokeupSessions
  todo_snapshot : ∀ w todo, l.pc = .visiting w todo → ∀ s ∈ todo, s ∈ l.snapshot
  visited : ∀ w todo, l.pc = .visiting w todo → ∀ s ∈ l.snapshot, s ∈ todo ∨ (s.addr ∈ w → s ∈ l.called)
  idle : (∀ w todo, l.pc ≠ .visiting w todo) → l.snapshot = []

theorem init_inv : Inv {} := by
  constructor <;> simp [Pc.wokeupSessions, Pc.collecting]
  exact .nothing

theorem Inv.delivered {l : Loop} (hi : Inv l) : Delivered l := by
  refine ⟨fun s hs => ?_, fun w hw s hs hd => ?_⟩
  · obtain ⟨hsnap, hw⟩ := hi.called_snapshot s hs
    obtain ⟨t, ht, ha⟩ := hi.read_of _ hw s.lo
    rw [hi.snapshot_own t ht s hsnap ha.symm]
    exact ht
  · have hr := hi.of_read s hd
    rw [hw] at hr
    rcases hi.visited w [] hw s hs with h | h
    · cases h
    · exact h hr

/-! ## Every step keeps the invariant -/

theorem eventfdWrite_small {c v : Nat} (h : c + v ≤ 2 ^ 64 - 2) : eventfdWrite c v = c + v := if_pos h

theorem inv_wakeup {l : Loop} (hi : Inv l) {s : Session} (hq : Quiet l (.wakeup s)) : Inv (l.write (.wakeup s)) := by
  obtain ⟨hu, hown⟩ := hq
  have hc : l.counter = 0 := by
    have hp := hi.pending
    rw [hu] at hp
    generalize l.counter = c at hp
    cases hp with
    | nothing => rfl
    | shutdown _ h0 _ => exact absurd rfl h0
  have hw : eventfdWrite l.counter s.addr = s.addr := by
    rw [hc, eventfdWrite_small (by have := s.hi; omega)]; omega
  refine { hi with pending := ?_, unread_own := ?_ }
  · simp only [Loop.write, Write.value, hw, hu, List.nil_append]
    exact .wakeup s
  · simp only [Loop.write, hu, List.nil_append, List.mem_singleton, Write.wakeup.injEq]
    rintro t rfl
    exact hown

theorem inv_shutdown {l : Loop} (hi : Inv l) (hq : Quiet l .writeQuit) : Inv (l.write .shutdown) := by
  obtain ⟨hall, hlen⟩ := hq
  have hc : l.counter = l.unread.length := by
    have hp := hi.pending
    generalize l.counter = c at hp
    generalize l.unread = u at hp hall
    cases hp with
    | nothing => rfl
    | wakeup s => exact absurd (hall (.wakeup s) (by simp)) (by simp)
    | shutdown _ _ _ => rfl
  have hw : eventfdWrite l.counter 1 = (l.unread ++ [Write.shutdown]).length := by
    rw [hc, eventfdWrite_small (by omega)]; simp
  refine { hi with pending := ?_, unread_own := ?_ }
  · simp only [Loop.write, Write.value, hw]
    refine .shutdown ?_ (by simp) (by simpa using hlen)
    intro w hw
    rcases List.mem_append.1 hw with h | h
    · exact hall w h
    · simpa using h
  · intro s hs
    simp only [Loop.write, List.mem_append, List.mem_singleton, reduceCtorEq, or_false] at hs
    exact hi.unread_own s hs

theorem inv_register {l : Loop} (hi : Inv l) {t : Session} (hq : Quiet l (.registerSession t)) :
    Inv { l with sessions := t :: l.sessions } := by
  have hfresh : ∀ s, .wakeup s ∈ l.unread ++ (if l.pc.collecting then l.drained else []) →
      t.addr = s.addr → t = s := by
    intro s hs ha
    rcases hq _ hs with h | h
    · simp only [Write.wakeup.injEq] at h; exact h.symm
    · exact absurd ha.symm h
  refine { hi with unread_own := ?_, collecting_own := ?_ }
  · intro s hs u hu ha
    rcases List.mem_cons.1 hu with rfl | hu
    · exact hfresh s (List.mem_append_left _ hs) ha
    · exact hi.unread_own s hs u hu ha
  · intro hcol s hs u hu ha
    rcases List.mem_cons.1 hu with rfl | hu
    · exact hfresh s (List.mem_append_right _ (by simpa [show l.pc.collecting = true from hcol] using hs)) ha
    · exact hi.collecting_own hcol s hs u hu ha

theorem inv_deleteLater {l : Loop} (hi : Inv l) (s : Session) : Inv (l.deleteLater s) := by
  refine { hi with unread_own := ?_, collecting_own := ?_ }
  · intro u hu t ht
    exact hi.unread_own u hu t (List.mem_filter.1 ht).1
  · intro hcol u hu t ht
    exact hi.collecting_own hcol u hu t (List.mem_filter.1 ht).1

/-- Nothing is read and nobody is called before the drain. -/
theorem Inv.not_read {l : Loop} (hi : Inv l) (hw : l.pc.wokeupSessions = []) :
    (∀ s, .wakeup s ∉ l.drained) ∧ l.called = [] := by
  refine ⟨fun s hs => ?_, List.eq_nil_iff_forall_not_mem.2 fun s hs => ?_⟩
  · have := hi.of_read s hs; rw [hw] at this; cases this
  · have := (hi.called_snapshot s hs).2; rw [hw] at this; cases this

/-- Moving on to a place where still nothing is read. -/
theorem inv_idle {l : Loop} (hi : Inv l) (hw : l.pc.wokeupSessions = []) (hv : ∀ w todo, l.pc ≠ .visiting w todo)
    {pc : Pc} (hw' : pc.wokeupSessions = []) (hv' : ∀ w todo, pc ≠ .visiting w todo) : Inv { l with pc := pc } := by
  obtain ⟨hd, hc⟩ := hi.not_read hw
  have hs := hi.idle hv
  constructor <;> simp only [hw', hc, hs, List.not_mem_nil, false_imp_iff, implies_true]
  · exact hi.pending
  · exact hi.unread_own
  · intro s hs'; exact absurd hs' (hd s)
  · intro _ s hs'; exact absurd hs' (hd s)
  · intro w todo h; exact absurd h (hv' w todo)

/-- What one successful read tells: a wakeup by its address, writes of `shutdown`
by numbers that are no addresses. -/
theorem Pending.read {c : Nat} {u : List Write} (hp : Pending c u) (h0 : c ≠ 0) :
    (4096 ≤ c → ∃ s, .wakeup s ∈ u ∧ s.addr = c) ∧ ∀ s, .wakeup s ∈ u → s.addr = c ∧ c ≠ 1 := by
  cases hp with
  | nothing => exact absurd rfl h0
  | wakeup s =>
    refine ⟨fun _ => ⟨s, by simp, rfl⟩, fun t ht => ?_⟩
    simp only [List.mem_singleton, Write.wakeup.injEq] at ht
    subst ht
    exact ⟨rfl, by have := t.lo; omega⟩
  | shutdown h _ hk => exact ⟨fun hc => by omega, fun s hs => absurd (h _ hs) (by simp)⟩

theorem inv_eventfdRead {l l' : Loop} (hi : Inv l) (h : step l .eventfdRead = some l') : Inv l' := by
  simp only [step] at h
  split at h
  case h_2 => cases h
  rename_i w hpc
  have hsnap := hi.idle (by simp [hpc])
  have hcall : l.called = [] :=
    List.eq_nil_iff_forall_not_mem.2 fun s hs => by simpa [hsnap] using (hi.called_snapshot s hs).1
  have hwk : l.pc.wokeupSessions = w := by rw [hpc]; rfl
  have hcol : l.pc.collecting = true := by rw [hpc]; rfl
  have hread := hi.read_of
  have hof := hi.of_read
  rw [hwk] at hread hof
  have hown : ∀ s, .wakeup s ∈ l.drained ++ l.unread → ∀ t ∈ l.sessions, t.addr = s.addr → t = s := by
    intro s hs
    rcases List.mem_append.1 hs with hs | hs
    · exact hi.collecting_own hcol s hs
    · exact hi.unread_own s hs
  by_cases h0 : l.counter = 0
  · rw [if_pos h0] at h
    cases h
    have hu : l.unread = [] := by
      have hp := hi.pending
      generalize l.counter = c at hp h0
      generalize l.unread = u at hp
      cases hp with
      | nothing => rfl
      | wakeup s => exact absurd h0 (by have := s.lo; omega)
      | shutdown _ hne _ => exact absurd (List.length_eq_zero_iff.1 h0) hne
    constructor <;> simp [Pc.wokeupSessions, Pc.collecting, hu, h0, hsnap, hcall]
    · exact .nothing
    · exact hread
    · exact hof
    · exact hi.collecting_own hcol
  · rw [if_neg h0] at h
    cases h
    obtain ⟨hp1, hp2⟩ := hi.pending.read h0
    constructor <;> simp only [Pc.wokeupSessions, hsnap, hcall, List.not_mem_nil, false_imp_iff, implies_true,
      reduceCtorEq]
    · exact .nothing
    · intro n hn h4
      have hn' : n ∈ l.counter :: w := by
        split at hn
        · exact hn
        · exact List.mem_cons_of_mem _ hn
      rcases List.mem_cons.1 hn' with rfl | hn'
      · obtain ⟨s, hs, ha⟩ := hp1 h4
        exact ⟨s, List.mem_append_right _ hs, ha⟩
      · obtain ⟨s, hs, ha⟩ := hread n hn' h4
        exact ⟨s, List.mem_append_left _ hs, ha⟩
    · intro s hs
      rcases List.mem_append.1 hs with hs | hs
      · split
        · exact List.mem_cons_of_mem _ (hof s hs)
        · exact hof s hs
      · obtain ⟨ha, h1⟩ := hp2 s hs
        rw [if_pos h1, ha]
        exact List.mem_cons_self
    · intro _; exact hown

theorem inv_copySessions {l l' : Loop} (hi : Inv l) (h : step l .copySessions = some l') : Inv l' := by
  simp only [step] at h
  split at h
  case h_2 => cases h
  rename_i w hpc
  cases h
  have hsnap := hi.idle (by simp [hpc])
  have hwk : l.pc.wokeupSessions = w := by rw [hpc]; rfl
  have hcol : l.pc.collecting = true := by rw [hpc]; rfl
  have hcall : l.called = [] :=
    List.eq_nil_iff_forall_not_mem.2 fun s hs => by simpa [hsnap] using (hi.called_snapshot s hs).1
  refine { hi with
    read_of := ?_, of_read := ?_, collecting_own := ?_, snapshot_own := ?_, called_snapshot := ?_
    todo_snapshot := ?_, visited := ?_, idle := ?_ }
  · exact hwk ▸ hi.read_of
  · exact hwk ▸ hi.of_read
  · intro h; cases h
  · exact hi.collecting_own hcol
  · simp [hcall]
  · intro w' todo h s hs
    cases h
    exact hs
  · intro w' todo h s hs
    cases h
    exact .inl hs
  · intro h; exact absurd rfl (h w l.sessions)

theorem inv_visit {l l' : Loop} (hi : Inv l) {dies : Bool} (h : step l (.visit dies) = some l') : Inv l' := by
  simp only [step] at h
  split at h
  case h_2 => cases h
  rename_i w s todo hpc
  have hwk : l.pc.wokeupSessions = w := by rw [hpc]; rfl
  have hs : s ∈ l.snapshot := hi.todo_snapshot w _ hpc s List.mem_cons_self
  have hvisit : Inv { l with pc := .visiting w todo, called := if s.addr ∈ w then s :: l.called else l.called } := by
    refine { hi with
      read_of := ?_, of_read := ?_, collecting_own := ?_, called_snapshot := ?_
      todo_snapshot := ?_, visited := ?_, idle := ?_ }
    · exact hwk ▸ hi.read_of
    · exact hwk ▸ hi.of_read
    · intro h; cases h
    · intro t ht
      have hold : t ∈ l.called → t ∈ l.snapshot ∧ t.addr ∈ w := hwk ▸ hi.called_snapshot t
      simp only at ht
      split at ht
      case isFalse => exact hold ht
      case isTrue hw =>
        rcases List.mem_cons.1 ht with rfl | ht
        · exact ⟨hs, hw⟩
        · exact hold ht
    · intro w' todo' h t ht
      cases h
      exact hi.todo_snapshot w _ hpc t (List.mem_cons_of_mem _ ht)
    · intro w' todo' h t ht
      cases h
      rcases hi.visited w _ hpc t ht with h' | h'
      · rcases List.mem_cons.1 h' with rfl | h'
        · exact .inr fun hw => by simp [hw]
        · exact .inl h'
      · refine .inr fun hw => ?_
        split
        · exact List.mem_cons_of_mem _ (h' hw)
        · exact h' hw
    · intro h; exact absurd rfl (h w todo)
  cases h
  cases dies with
  | false => exact hvisit
  | true => exact inv_deleteLater hvisit s

theorem step_inv {l l' : Loop} {a : Action} (hi : Inv l) (hq : Quiet l a) (h : step l a = some l') : Inv l' := by
  cases a with
  | wakeup s => cases h; exact inv_wakeup hi hq
  | storeQuit => cases h; exact { hi with }
  | writeQuit => cases h; exact inv_shutdown hi hq
  | registerSession s =>
    simp only [step] at h
    split at h
    · cases h
    · cases h; exact inv_register hi hq
  | epollWait wokeup =>
    simp only [step] at h
    split at h
    case h_2 => cases h
    rename_i hpc
    cases h
    refine inv_idle hi (by rw [hpc]; rfl) (by simp [hpc]) ?_ ?_ <;> split <;> simp [Pc.wokeupSessions]
  | deleteLater s =>
    simp only [step] at h
    split at h
    · split at h
      · cases h; exact inv_deleteLater hi s
      · cases h
    · cases h
  | processed =>
    simp only [step] at h
    split at h
    case h_2 => cases h
    rename_i wokeup hpc
    cases h
    refine inv_idle hi (by rw [hpc]; rfl) (by simp [hpc]) ?_ ?_ <;> split <;> simp [Pc.wokeupSessions]
  | eventfdRead => exact inv_eventfdRead hi h
  | copySessions => exact inv_copySessions hi h
  | visit dies => exact inv_visit hi h
  | deleteAll =>
    simp only [step] at h
    split at h
    case h_2 => cases h
    cases h
    constructor <;> simp [Pc.wokeupSessions, Pc.collecting]
    · exact hi.pending
    · exact hi.unread_own

/-- In every run whose steps are quiet no wakeup is lost or misdirected. -/
theorem wakeups_delivered (acts : List Action) (l : Loop) (hq : Runs.Along step Quiet {} acts)
    (h : Runs.exec step {} acts = some l) : Delivered l :=
  Inv.delivered (Runs.exec_inv (fun _ _ _ => step_inv) acts init_inv hq h)

/-- Two sessions, for the runs below. -/
def sessionAt (i : Nat) (h : i < 2) : Session := ⟨i, 4096 * (i + 1), by omega, by omega⟩

/-- One iteration that meets the writes `ws`, with both sessions registered. -/
def iteration (ws : List Action) : List Action :=
  [.registerSession (sessionAt 0 (by decide)), .registerSession (sessionAt 1 (by decide))] ++ ws ++
  [.epollWait true, .processed, .eventfdRead, .eventfdRead, .copySessions, .visit false, .visit false]

/-- A single wakeup arrives. -/
theorem wakeups_delivered_one :
    Runs.Along step Quiet {} (iteration [.wakeup (sessionAt 0 (by decide))]) ∧
    ((Runs.exec step {} (iteration [.wakeup (sessionAt 0 (by decide))])).map (·.called)) =
      some [sessionAt 0 (by decide)] ∧
    ∀ l, Runs.exec step {} (iteration [.wakeup (sessionAt 0 (by decide))]) = some l → Delivered l := by
  have hquiet : Runs.Along step Quiet {} (iteration [.wakeup (sessionAt 0 (by decide))]) := by decide
  exact ⟨hquiet, by decide, fun l h => wakeups_delivered _ l hquiet h⟩

/-- Two sessions are woken before the loop reads: it reads the sum of their
addresses and wakes neither. -/
theorem wakeups_lost :
    ∃ l, Runs.exec step {} (iteration [.wakeup (sessionAt 0 (by decide)), .wakeup (sessionAt 1 (by decide))]) = some l ∧
      ¬ Delivered l := by
  refine ⟨_, rfl, fun h => ?_⟩
  exact absurd (h.2 _ rfl (sessionAt 0 (by decide)) (by decide) (by decide)) (by decide)

end Getodac.Wakeups
