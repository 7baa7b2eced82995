import Getodac.Basic
import Getodac.Lib.Components
import Getodac.Lib.EdgeTriggered
import Getodac.Lib.Runs
/-!
# The accept loop

`Server::exec` waits for its listening sockets, accepts what is in the queue of each
socket that is reported, and gives every connection to the event loop with the fewest
sessions. The sockets are watched with `EPOLLET`. The numbers of sessions are atomics of
the event loops, which take sessions out while the accept loop compares them, two reads
for each comparison. They are not the sizes of `m_sessions`: a session is counted after
it is put in, and taken out before it is discounted, each only if `epoll_ctl` agrees.

`none_stranded`: no connection is left in a queue without an event to come, as long as
`accept4` only fails when there is nothing. `balanced`: as long as `epoll_ctl` does what
it is asked, the races of the comparison cost nothing, no loop gets more than its share
and one session.

Whether an address has too many connections is in `Admission`, the end of the loop in
`Shutdown`.
-/

namespace Getodac.Accepting

open EdgeTriggered

variable {m n : Nat}

/-! ## The model -/

/-- The search for the least used of `n + 1` event loops. -/
structure Scan (n : Nat) where
  bestLoop : Fin (n + 1) := 0
  i : Nat := 1
  /-- What `activeSessions()` of `bestLoop` and of loop `i` were, for this comparison. -/
  best : Option Nat := none
  loop : Option Nat := none
deriving DecidableEq, Repr

/-- Where the accept loop is, with the events it still has to handle. -/
inductive Pc (m n : Nat) where
  | epollWait
  | events (todo : List (Fin m))
  /-- In `while (!m_shutdown)` for socket `k`. -/
  | accept (k : Fin m) (todo : List (Fin m))
  | scan (k : Fin m) (todo : List (Fin m)) (scan : Scan n)
  -- in `registerSession` of loop `i`, before `epoll_ctl` and behind it
  | inserted (k : Fin m) (todo : List (Fin m)) (i : Fin (n + 1))
  | added (k : Fin m) (todo : List (Fin m)) (i : Fin (n + 1))
deriving DecidableEq, Repr

/-- The sockets of whose last event the loop has not yet got to the end. -/
def Pc.handling : Pc m n → List (Fin m)
  | .epollWait => []
  | .events todo => todo
  | .accept k todo | .scan k todo _ | .inserted k todo _ | .added k todo _ => k :: todo

/-- Sessions of loop `j` that are in `m_sessions` and not yet counted. -/
def Pc.uncounted (j : Fin (n + 1)) : Pc m n → Nat
  | .inserted _ _ i | .added _ _ i => if i = j then 1 else 0
  | .epollWait | .events _ | .accept _ _ | .scan _ _ _ => 0

/-- A `SessionsEventLoop`. -/
structure Loop where
  /-- The size of `m_sessions`. -/
  sessions : Nat := 0
  /-- The calls of `unregisterSession` that have taken a session out of it and not asked the kernel yet. -/
  leaving : Nat := 0
  /-- A `uint32_t`. -/
  activeSessions : Nat := 0
deriving DecidableEq, Repr

/-- The sessions of a loop, with those on their way out. -/
def Loop.load (l : Loop) : Nat := l.sessions + l.leaving

structure State (m n : Nat) where
  pc : Pc m n := .epollWait
  /-- The connections in the queue of a listening socket. -/
  queued : Fin m → Nat := fun _ => 0
  /-- `epoll_wait` has not reported the last of them. -/
  edge : Fin m → Bool := fun _ => false
  loops : Fin (n + 1) → Loop := fun _ => {}

def State.total (s : State m n) : Nat := ∑ i, (s.loops i).load

def State.setLoop (s : State m n) (i : Fin (n + 1)) (l : Loop) : State m n := { s with loops := Function.update s.loops i l }

inductive Action (m n : Nat) where
  -- the accept loop
  | epollWait (batch : List (Fin m))
  | next
  /-- `accept4` returns a connection, and its address has too many of them or not. -/
  | accepted (refused : Bool)
  /-- `accept4` returns -1. -/
  | failed
  | readBest
  | readLoop
  | compare
  /-- The session is made, and `registerSession` has put it into `m_sessions`; or its constructor throws. -/
  | create (made : Bool)
  /-- `EPOLL_CTL_ADD`. If it fails the catch block closes the socket, and the session stays in `m_sessions`. -/
  | add (ok : Bool)
  | count
  -- a client
  | connect (k : Fin m)
  -- `unregisterSession`, on the thread of an event loop or wherever the session is deleted
  | erase (i : Fin (n + 1))
  /-- `EPOLL_CTL_DEL`, and the session is discounted if it succeeds. -/
  | del (i : Fin (n + 1)) (ok : Bool)
deriving DecidableEq, Repr

def step (s : State m n) : Action m n → Option (State m n)
  | .epollWait batch =>
    if s.pc = .epollWait ∧ batch.Nodup ∧ ∀ k ∈ batch, s.edge k = true then
      some { s with pc := .events batch, edge := fun k => s.edge k && !batch.contains k }
    else none
  | .next =>
    match s.pc with
    | .events [] => some { s with pc := .epollWait }
    | .events (k :: todo) => some { s with pc := .accept k todo }
    | _ => none
  | .accepted refused =>
    match s.pc with
    | .accept k todo =>
      if 0 < s.queued k then
        some { s with
          pc := if refused then .accept k todo else .scan k todo {}
          queued := Function.update s.queued k (s.queued k - 1) }
      else none
    | _ => none
  | .failed =>
    match s.pc with
    | .accept _ todo => some { s with pc := .events todo }
    | _ => none
  | .readBest =>
    match s.pc with
    | .scan k todo c =>
      if c.i < n + 1 ∧ c.best = none then
        some { s with pc := .scan k todo { c with best := some (s.loops c.bestLoop).activeSessions } }
      else none
    | _ => none
  | .readLoop =>
    match s.pc with
    | .scan k todo c =>
      if h : c.i < n + 1 ∧ c.loop = none then
        some { s with pc := .scan k todo { c with loop := some (s.loops ⟨c.i, h.1⟩).activeSessions } }
      else none
    | _ => none
  | .compare =>
    match s.pc with
    | .scan k todo ⟨bestLoop, i, some best, some loop⟩ =>
      if h : i < n + 1 then
        some { s with pc := .scan k todo { bestLoop := if loop < best then ⟨i, h⟩ else bestLoop, i := i + 1 } }
      else none
    | _ => none
  | .create made =>
    match s.pc with
    | .scan k todo c =>
      if c.i = n + 1 then
        if made then
          some { s.setLoop c.bestLoop { s.loops c.bestLoop with sessions := (s.loops c.bestLoop).sessions + 1 } with
            pc := .inserted k todo c.bestLoop }
        else some { s with pc := .accept k todo }
      else none
    | _ => none
  | .add ok =>
    match s.pc with
    | .inserted k todo i => some { s with pc := if ok then .added k todo i else .accept k todo }
    | _ => none
  | .count =>
    match s.pc with
    | .added k todo i =>
      some { s.setLoop i { s.loops i with activeSessions := U32.inc (s.loops i).activeSessions } with pc := .accept k todo }
    | _ => none
  | .connect k =>
    some { s with
      queued := Function.update s.queued k (s.queued k + 1)
      edge := Function.update s.edge k true }
  | .erase i =>
    if 0 < (s.loops i).sessions then
      some (s.setLoop i { s.loops i with sessions := (s.loops i).sessions - 1, leaving := (s.loops i).leaving + 1 })
    else none
  | .del i ok =>
    if 0 < (s.loops i).leaving then
      some (s.setLoop i { s.loops i with
        leaving := (s.loops i).leaving - 1
        activeSessions := if ok then U32.dec (s.loops i).activeSessions else (s.loops i).activeSessions })
    else none

/-! ## What a step can do -/

inductive Takes (s : State m n) : Action m n → State m n → Prop where
  | epollWait {batch : List (Fin m)} (hpc : s.pc = .epollWait) :
      Takes s (.epollWait batch) { s with pc := .events batch, edge := fun k => s.edge k && !batch.contains k }
  | wait (hpc : s.pc = .events []) : Takes s .next { s with pc := .epollWait }
  | next {k : Fin m} {todo : List (Fin m)} (hpc : s.pc = .events (k :: todo)) :
      Takes s .next { s with pc := .accept k todo }
  | refused {k : Fin m} {todo : List (Fin m)} (hpc : s.pc = .accept k todo) :
      Takes s (.accepted true) { s with queued := Function.update s.queued k (s.queued k - 1) }
  | accepted {k : Fin m} {todo : List (Fin m)} (hpc : s.pc = .accept k todo) :
      Takes s (.accepted false)
        { s with pc := .scan k todo {}, queued := Function.update s.queued k (s.queued k - 1) }
  | failed {k : Fin m} {todo : List (Fin m)} (hpc : s.pc = .accept k todo) :
      Takes s .failed { s with pc := .events todo }
  | readBest {k : Fin m} {todo : List (Fin m)} {c : Scan n} (hpc : s.pc = .scan k todo c) :
      Takes s .readBest { s with pc := .scan k todo { c with best := some (s.loops c.bestLoop).activeSessions } }
  | readLoop {k : Fin m} {todo : List (Fin m)} {c : Scan n} (hpc : s.pc = .scan k todo c) (hi : c.i < n + 1) :
      Takes s .readLoop { s with pc := .scan k todo { c with loop := some (s.loops ⟨c.i, hi⟩).activeSessions } }
  | compare {k : Fin m} {todo : List (Fin m)} {bestLoop : Fin (n + 1)} {i best loop : Nat}
      (hpc : s.pc = .scan k todo ⟨bestLoop, i, some best, some loop⟩) (hi : i < n + 1) :
      Takes s .compare
        { s with pc := .scan k todo { bestLoop := if loop < best then ⟨i, hi⟩ else bestLoop, i := i + 1 } }
  | threw {k : Fin m} {todo : List (Fin m)} {c : Scan n} (hpc : s.pc = .scan k todo c) :
      Takes s (.create false) { s with pc := .accept k todo }
  | inserted {k : Fin m} {todo : List (Fin m)} {c : Scan n} (hpc : s.pc = .scan k todo c) (hi : c.i = n + 1) :
      Takes s (.create true)
        { s.setLoop c.bestLoop { s.loops c.bestLoop with sessions := (s.loops c.bestLoop).sessions + 1 } with
          pc := .inserted k todo c.bestLoop }
  | added {k : Fin m} {todo : List (Fin m)} {i : Fin (n + 1)} (hpc : s.pc = .inserted k todo i) :
      Takes s (.add true) { s with pc := .added k todo i }
  | notAdded {k : Fin m} {todo : List (Fin m)} {i : Fin (n + 1)} (hpc : s.pc = .inserted k todo i) :
      Takes s (.add false) { s with pc := .accept k todo }
  | count {k : Fin m} {todo : List (Fin m)} {i : Fin (n + 1)} (hpc : s.pc = .added k todo i) :
      Takes s .count
        { s.setLoop i { s.loops i with activeSessions := U32.inc (s.loops i).activeSessions } with pc := .accept k todo }
  | connect (k : Fin m) :
      Takes s (.connect k)
        { s with queued := Function.update s.queued k (s.queued k + 1), edge := Function.update s.edge k true }
  | erase {i : Fin (n + 1)} (hi : 0 < (s.loops i).sessions) :
      Takes s (.erase i)
        (s.setLoop i { s.loops i with sessions := (s.loops i).sessions - 1, leaving := (s.loops i).leaving + 1 })
  | deleted {i : Fin (n + 1)} (hi : 0 < (s.loops i).leaving) :
      Takes s (.del i true) (s.setLoop i { s.loops i with
        leaving := (s.loops i).leaving - 1
        activeSessions := U32.dec (s.loops i).activeSessions })
  | notDeleted {i : Fin (n + 1)} (hi : 0 < (s.loops i).leaving) :
      Takes s (.del i false) (s.setLoop i { s.loops i with leaving := (s.loops i).leaving - 1 })

variable {s s' : State m n} {a : Action m n}

theorem step_takes (h : step s a = some s') : Takes s a s' := by
  cases a with
  | epollWait batch =>
    simp only [step] at h
    split at h
    · rename_i hb
      cases h
      exact .epollWait hb.1
    · cases h
  | next =>
    simp only [step] at h
    split at h
    · cases h
      exact .wait ‹_›
    · cases h
      exact .next ‹_›
    · cases h
  | accepted refused =>
    simp only [step] at h
    split at h
    · rename_i k todo hpc
      split at h
      · cases h
        cases refused
        · exact .accepted hpc
        · simp only [if_true, ← hpc]
          exact .refused hpc
      · cases h
    · cases h
  | failed =>
    simp only [step] at h
    split at h
    · cases h
      exact .failed ‹_›
    · cases h
  | readBest =>
    simp only [step] at h
    split at h
    · split at h
      · cases h
        exact .readBest ‹_›
      · cases h
    · cases h
  | readLoop =>
    simp only [step] at h
    split at h
    · split at h
      · rename_i hi
        cases h
        exact .readLoop ‹_› hi.1
      · cases h
    · cases h
  | compare =>
    simp only [step] at h
    split at h
    · split at h
      · cases h
        exact .compare ‹_› ‹_›
      · cases h
    · cases h
  | create made =>
    simp only [step] at h
    split at h
    · split at h
      · cases made
        · cases h
          exact .threw ‹_›
        · cases h
          exact .inserted ‹_› ‹_›
      · cases h
    · cases h
  | add ok =>
    simp only [step] at h
    split at h
    · cases h
      cases ok
      · exact .notAdded ‹_›
      · exact .added ‹_›
    · cases h
  | count =>
    simp only [step] at h
    split at h
    · cases h
      exact .count ‹_›
    · cases h
  | connect k =>
    cases h
    exact .connect k
  | erase i =>
    simp only [step] at h
    split at h
    · cases h
      exact .erase ‹_›
    · cases h
  | del i ok =>
    simp only [step] at h
    split at h
    · cases h
      cases ok
      · simp only [Bool.false_eq_true, if_false]
        exact .notDeleted ‹_›
      · simp only [if_true]
        exact .deleted ‹_›
    · cases h

/-! ## No connection is stranded -/

/-- `accept4` fails only where there is nothing to accept: not for want of descriptors or memory. -/
def FailsEmpty (s : State m n) (a : Action m n) : Prop :=
  a = .failed → ∀ k todo, s.pc = .accept k todo → s.queued k = 0

def watch (s : State m n) (k : Fin m) : Watch where
  ready := 0 < s.queued k
  edge := s.edge k = true
  busy := k ∈ s.pc.handling

/-- A step that does not touch a socket, and keeps its events. -/
theorem watch_same {k : Fin m} (hq : s'.queued k = s.queued k) (he : s'.edge k = s.edge k)
    (hb : k ∈ s.pc.handling → k ∈ s'.pc.handling) : (watch s k).Next (watch s' k) where
  arrives h := .inl (by simpa only [watch, hq] using h)
  reports h _ := .inl (by simpa only [watch, he] using h)
  drains h := .inl (hb h)

theorem takes_watch (ht : Takes s a s') (hok : FailsEmpty s a) (k : Fin m) : (watch s k).Next (watch s' k) := by
  cases ht with
  | @epollWait batch hpc =>
    refine ⟨.inl, fun he _ => ?_, fun hb => ?_⟩
    · by_cases hk : k ∈ batch
      · exact .inr hk
      · exact .inl (by simpa [watch, hk] using he)
    · simp [watch, hpc, Pc.handling] at hb
  | wait hpc => exact watch_same rfl rfl fun hb => by simp [hpc, Pc.handling] at hb
  | next hpc => exact watch_same rfl rfl fun hb => by simpa [hpc, Pc.handling] using hb
  | @refused j todo hpc | @accepted j todo hpc =>
    -- one connection fewer, and the loop goes on
    refine ⟨fun hr => .inl ?_, fun he _ => .inl he, fun hb => .inl ?_⟩
    · by_cases hk : k = j
      · subst hk
        simp only [watch, Function.update_self] at hr ⊢
        omega
      · simpa only [watch, Function.update_of_ne hk] using hr
    · simpa [watch, hpc, Pc.handling] using hb
  | @failed j todo hpc =>
    refine ⟨.inl, fun he _ => .inl he, fun hb => ?_⟩
    have hmem : k = j ∨ k ∈ todo := by simpa [watch, hpc, Pc.handling] using hb
    rcases hmem with rfl | htodo
    · have hempty : s.queued k = 0 := hok rfl k todo hpc
      exact .inr fun hr => absurd hr (by simp [watch, hempty])
    · exact .inl htodo
  | readBest hpc | readLoop hpc _ | compare hpc _ | threw hpc | inserted hpc _ | added hpc | notAdded hpc | count hpc =>
    exact watch_same rfl rfl fun hb => by simpa [hpc, Pc.handling] using hb
  | connect j =>
    by_cases hk : k = j
    · subst hk
      exact ⟨fun _ => .inr (by simp [watch]), fun _ _ => .inl (by simp [watch]), .inl⟩
    · exact watch_same (Function.update_of_ne hk _ _) (Function.update_of_ne hk _ _) id
  | erase _ | deleted _ | notDeleted _ => exact watch_same rfl rfl id

/-- A connection in a queue will be reported, or the accept loop is about to get to it. -/
theorem none_stranded (as : List (Action m n)) (hfails : Runs.Along step FailsEmpty {} as) (s : State m n)
    (hs : Runs.exec step {} as = some s) (k : Fin m) (hk : 0 < s.queued k) : s.edge k = true ∨ k ∈ s.pc.handling := by
  have hattended : ∀ k, (watch s k).Attended := by
    refine Runs.exec_inv (I := fun s => ∀ k, (watch s k).Attended) ?_ as ?_ hfails hs
    · intro s a s' hi hok hs k
      exact (hi k).next (takes_watch (step_takes hs) hok k)
    · exact fun k hready => absurd hready (Nat.lt_irrefl 0)
  exact hattended k hk

/-- Two clients connect, and the loop accepts one of them. -/
def twoClients : List (Action 1 1) :=
  [.connect 0, .connect 0, .epollWait [0], .next, .accepted false, .readLoop, .readBest, .compare, .create true, .add true,
    .count]

theorem none_stranded_two : ∃ s, Runs.exec step ({} : State 1 1) twoClients = some s ∧ 0 < s.queued 0 ∧
    (s.edge 0 = true ∨ 0 ∈ s.pc.handling) := by
  refine ⟨_, rfl, by decide, ?_⟩
  exact none_stranded twoClients (by simp [twoClients, Runs.Along, FailsEmpty, step]) _ rfl 0 (by decide)

-- with `EMFILE` the loop leaves the second one where it is, and sleeps until a third one comes
example : ∃ s, Runs.exec step ({} : State 1 1) (twoClients ++ [.failed, .next]) = some s ∧ s.pc = .epollWait ∧
    0 < s.queued 0 ∧ s.edge 0 = false :=
  ⟨_, rfl, by decide, by decide, by decide⟩

/-! ## The load of a loop -/

/-- `epoll_ctl` does not fail. -/
def Succeeds : Action m n → Prop
  | .add ok | .del _ ok => ok = true
  | _ => True

instance : DecidablePred (Succeeds (m := m) (n := n))
  | .add _ | .del _ _ => inferInstanceAs (Decidable (_ = true))
  | .epollWait _ | .next | .accepted _ | .failed | .readBest | .readLoop | .compare | .create _ | .count | .connect _
  | .erase _ => isTrue trivial

/-- The search so far, against the loads `start` it began with. Sessions are only taken out while it goes on, as the
accept loop alone makes them. -/
structure Searched (load : Fin (n + 1) → Nat) (c : Scan n) (start : Fin (n + 1) → Nat) : Prop where
  fewer : ∀ j, load j ≤ start j
  least : ∀ j : Fin (n + 1), j.val < c.i → load c.bestLoop ≤ start j
  best : ∀ b ∈ c.best, load c.bestLoop ≤ b ∧ ∀ j : Fin (n + 1), j.val < c.i → b ≤ start j
  loop : ∀ b ∈ c.loop, ∀ j : Fin (n + 1), j.val = c.i → load j ≤ b ∧ b ≤ start j

def State.load (s : State m n) (i : Fin (n + 1)) : Nat := (s.loops i).load

/-- No loop has more than its share of `peak` sessions and one, and a search that goes on began with at most `peak`. -/
structure Balanced (peak : Nat) (s : State m n) : Prop where
  share : ∀ i, s.load i ≤ peak / (n + 1) + 1
  /-- The counter is the number of sessions, as far as they are counted; it may have wrapped. -/
  counted : ∀ i, (s.loops i).activeSessions < U32.size ∧
    ((s.loops i).activeSessions + s.pc.uncounted i) % U32.size = s.load i % U32.size
  search : ∀ k todo c, s.pc = .scan k todo c → ∃ start, ∑ i, start i ≤ peak ∧ Searched s.load c start

/-- A loop with no more sessions than any has at most its share. -/
theorem le_share {peak load : Nat} {start : Fin (n + 1) → Nat} (hpeak : ∑ i, start i ≤ peak)
    (hleast : ∀ j, load ≤ start j) : load ≤ peak / (n + 1) := by
  rw [Nat.le_div_iff_mul_le (Nat.succ_pos n)]
  calc load * (n + 1) = ∑ _i : Fin (n + 1), load := by simp [Nat.mul_comm]
    _ ≤ ∑ i, start i := Finset.sum_le_sum fun j _ => hleast j
    _ ≤ peak := hpeak

variable {c : Scan n} {load start : Fin (n + 1) → Nat}

/-- A session that is taken out leaves the search right. -/
theorem Searched.mono {load' : Fin (n + 1) → Nat} (h : Searched load c start) (hle : ∀ j, load' j ≤ load j) :
    Searched load' c start where
  fewer j := (hle j).trans (h.fewer j)
  least j hj := (hle _).trans (h.least j hj)
  best b hb := ⟨(hle _).trans (h.best b hb).1, (h.best b hb).2⟩
  loop b hb j hj := ⟨(hle j).trans (h.loop b hb j hj).1, (h.loop b hb j hj).2⟩

theorem Searched.begin (load : Fin (n + 1) → Nat) : Searched load {} load where
  fewer j := le_rfl
  least j hj := by
    have hzero : j = 0 := Fin.ext (by simpa using hj)
    rw [hzero]
  best b hb := nomatch hb
  loop b hb := nomatch hb

theorem Searched.readBest (h : Searched load c start) : Searched load { c with best := some (load c.bestLoop) } start where
  fewer := h.fewer
  least := h.least
  best b hb := by
    cases hb
    exact ⟨le_rfl, h.least⟩
  loop := h.loop

theorem Searched.readLoop (h : Searched load c start) (hi : c.i < n + 1) :
    Searched load { c with loop := some (load ⟨c.i, hi⟩) } start where
  fewer := h.fewer
  least := h.least
  best := h.best
  loop b hb j hj := by
    cases hb
    have hji : j = ⟨c.i, hi⟩ := Fin.ext hj
    subst hji
    exact ⟨le_rfl, h.fewer _⟩

theorem Searched.compare {bestLoop : Fin (n + 1)} {i best loop : Nat}
    (h : Searched load ⟨bestLoop, i, some best, some loop⟩ start) (hi : i < n + 1) :
    Searched load { bestLoop := if loop < best then ⟨i, hi⟩ else bestLoop, i := i + 1 } start := by
  obtain ⟨hbest, hstart⟩ := h.best best rfl
  dsimp only at hbest
  obtain ⟨hloop, hloopStart⟩ := h.loop loop rfl ⟨i, hi⟩ rfl
  refine ⟨h.fewer, fun j hj => ?_, nofun, nofun⟩
  have hcases : j.val < i ∨ j = ⟨i, hi⟩ := (Nat.lt_succ_iff_lt_or_eq.1 hj).imp_right fun hij => Fin.ext hij
  -- the chosen number was read, and is at most the other one
  dsimp only
  split
  · rcases hcases with hlt | rfl
    · have := hstart j hlt
      omega
    · omega
  · rcases hcases with hlt | rfl
    · exact h.least j hlt
    · omega

/-- While the accept loop searches, the counters are the loads. -/
theorem Balanced.activeSessions_eq {peak : Nat} (h : Balanced peak s) (hpeak : s.total ≤ peak) (hfits : peak < U32.size)
    {k : Fin m} {todo : List (Fin m)} (hpc : s.pc = .scan k todo c) (i : Fin (n + 1)) :
    (s.loops i).activeSessions = s.load i := by
  obtain ⟨hlt, hmod⟩ := h.counted i
  have hle : s.load i ≤ s.total := Finset.single_le_sum (f := s.load) (fun _ _ => Nat.zero_le _) (Finset.mem_univ i)
  rw [hpc] at hmod
  rwa [Pc.uncounted, Nat.add_zero, Nat.mod_eq_of_lt hlt, Nat.mod_eq_of_lt (hle.trans hpeak |>.trans_lt hfits)] at hmod

/-- A step of the accept loop that leaves the loops alone. -/
theorem Balanced.move {peak : Nat} (h : Balanced peak s) {pc : Pc m n} {queued : Fin m → Nat} {edge : Fin m → Bool}
    (hcount : ∀ i, pc.uncounted i = s.pc.uncounted i)
    (hsearch : ∀ k todo c, pc = .scan k todo c → ∃ start, ∑ i, start i ≤ peak ∧ Searched s.load c start) :
    Balanced peak { s with pc, queued, edge } := by
  refine ⟨h.share, fun i => ?_, hsearch⟩
  dsimp only
  rw [hcount]
  exact h.counted i

/-- A step that changes one loop. -/
theorem Balanced.setLoop {peak : Nat} (h : Balanced peak s) {i : Fin (n + 1)} {l : Loop} {pc : Pc m n}
    (hshare : l.load ≤ peak / (n + 1) + 1) (hlt : l.activeSessions < U32.size)
    (hmod : (l.activeSessions + pc.uncounted i) % U32.size = l.load % U32.size)
    (hother : ∀ j, j ≠ i → pc.uncounted j = s.pc.uncounted j)
    (hsearch : ∀ k todo c, pc = .scan k todo c →
      ∃ start, ∑ i, start i ≤ peak ∧ Searched (s.setLoop i l).load c start) :
    Balanced peak { s.setLoop i l with pc := pc } := by
  refine ⟨fun j => ?_, fun j => ?_, hsearch⟩
  · exact Components.forall_update (P := fun _ (l : Loop) => l.load ≤ peak / (n + 1) + 1) h.share hshare j
  · by_cases hj : j = i
    · subst hj
      simpa only [State.load, State.setLoop, Function.update_self] using ⟨hlt, hmod⟩
    · simpa only [State.load, State.setLoop, Function.update_of_ne hj, hother j hj] using h.counted j

theorem step_balanced {peak : Nat} (h : Balanced peak s) (hpeak : s.total ≤ peak) (hfits : peak < U32.size)
    (hok : Succeeds a) (hs : step s a = some s') : Balanced peak s' := by
  -- places outside `registerSession`
  have hpcs : ∀ {pc : Pc m n}, s.pc = pc → (∀ i, pc.uncounted i = 0) → ∀ i, s.pc.uncounted i = 0 :=
    fun he hz i => he ▸ hz i
  cases step_takes hs with
  | epollWait hpc => exact h.move (fun i => (hpcs hpc (fun _ => rfl) i).symm) fun _ _ _ hc => nomatch hc
  | wait hpc | next hpc | failed hpc | threw hpc =>
    exact h.move (fun i => (hpcs hpc (fun _ => rfl) i).symm) fun _ _ _ hc => nomatch hc
  | refused hpc => exact ⟨h.share, h.counted, fun k todo c hc => (by rw [hpc] at hc; cases hc)⟩
  | accepted hpc =>
    refine h.move (fun i => (hpcs hpc (fun _ => rfl) i).symm) fun k todo c hc => ?_
    cases hc
    exact ⟨s.load, hpeak, Searched.begin _⟩
  | readBest hpc =>
    obtain ⟨start, hstart, hc⟩ := h.search _ _ _ hpc
    refine h.move (fun i => (hpcs hpc (fun _ => rfl) i).symm) fun k todo c' hc' => ?_
    cases hc'
    rw [h.activeSessions_eq hpeak hfits hpc]
    exact ⟨start, hstart, hc.readBest⟩
  | readLoop hpc hi =>
    obtain ⟨start, hstart, hc⟩ := h.search _ _ _ hpc
    refine h.move (fun i => (hpcs hpc (fun _ => rfl) i).symm) fun k todo c' hc' => ?_
    cases hc'
    rw [h.activeSessions_eq hpeak hfits hpc]
    exact ⟨start, hstart, hc.readLoop hi⟩
  | compare hpc hi =>
    obtain ⟨start, hstart, hc⟩ := h.search _ _ _ hpc
    refine h.move (fun i => (hpcs hpc (fun _ => rfl) i).symm) fun k todo c' hc' => ?_
    cases hc'
    exact ⟨start, hstart, hc.compare hi⟩
  | @inserted k todo c hpc hi =>
    obtain ⟨start, hstart, hc⟩ := h.search _ _ _ hpc
    have hle : s.load c.bestLoop ≤ peak / (n + 1) := le_share hstart fun j => hc.least j (by rw [hi]; exact j.isLt)
    obtain ⟨hlt, -⟩ := h.counted c.bestLoop
    have heq := h.activeSessions_eq hpeak hfits hpc c.bestLoop
    simp only [State.load, Loop.load] at hle heq
    refine h.setLoop ?_ hlt ?_ (fun j hj => ?_) fun _ _ _ hc => nomatch hc
    · simp only [Loop.load]
      omega
    · simp only [Loop.load, Pc.uncounted, if_true, heq]
      congr 1
      omega
    · rw [hpc, Pc.uncounted, if_neg (Ne.symm hj)]
      rfl
  | added hpc => exact h.move (fun i => by rw [hpc]; rfl) fun _ _ _ hc => nomatch hc
  | notAdded hpc => cases hok
  | @count k todo i hpc =>
    obtain ⟨hlt, hmod⟩ := h.counted i
    refine h.setLoop (h.share i) U32.inc_lt ?_ (fun j hj => ?_) fun _ _ _ hc => nomatch hc
    · rw [hpc] at hmod
      simp only [Pc.uncounted, if_true] at hmod
      rw [Pc.uncounted, Nat.add_zero, U32.inc, Nat.mod_mod]
      exact hmod
    · rw [hpc, Pc.uncounted, if_neg (Ne.symm hj)]
      rfl
  | connect k => exact ⟨h.share, h.counted, h.search⟩
  | @erase i hi =>
    have hload : ({ s.loops i with sessions := (s.loops i).sessions - 1, leaving := (s.loops i).leaving + 1 } : Loop).load =
        s.load i := by
      simp only [State.load, Loop.load]
      omega
    obtain ⟨hlt, hmod⟩ := h.counted i
    refine h.setLoop (hload.le.trans (h.share i)) hlt ?_ (fun _ _ => rfl) fun k todo c hc => ?_
    · rw [hload]
      exact hmod
    obtain ⟨start, hstart, hsearched⟩ := h.search k todo c hc
    refine ⟨start, hstart, hsearched.mono fun j => ?_⟩
    exact Components.forall_update (P := fun j (l : Loop) => l.load ≤ s.load j) (fun _ => le_rfl) hload.le j
  | notDeleted hi => cases hok
  | @deleted i hi =>
    have hload : (s.loops i).sessions + ((s.loops i).leaving - 1) + 1 = s.load i := by
      simp only [State.load, Loop.load]
      omega
    have hle : ({ s.loops i with
        leaving := (s.loops i).leaving - 1
        activeSessions := U32.dec (s.loops i).activeSessions } : Loop).load ≤ s.load i := by
      simp only [State.load, Loop.load]
      omega
    apply h.setLoop (hle.trans (h.share i))
    · exact U32.dec_lt
    · have hmod := (h.counted i).2
      rw [← hload] at hmod
      simp only [Loop.load, U32.dec, U32.size] at hmod ⊢
      omega
    · exact fun _ _ => rfl
    · intro k todo c hc
      obtain ⟨start, hstart, hsearched⟩ := h.search k todo c hc
      refine ⟨start, hstart, hsearched.mono fun j => ?_⟩
      exact Components.forall_update (P := fun j (l : Loop) => l.load ≤ s.load j) (fun _ => le_rfl) hle j

/-- While there are never more than `peak` sessions and `epoll_ctl` does not fail, no event loop has more than its share
of them and one. -/
theorem balanced (peak : Nat) (hfits : peak < U32.size) (as : List (Action m n))
    (hrun : Runs.Along step (fun s a => s.total ≤ peak ∧ Succeeds a) {} as) (s : State m n)
    (hs : Runs.exec step {} as = some s) (i : Fin (n + 1)) : (s.loops i).load ≤ peak / (n + 1) + 1 := by
  have h : Balanced peak s := by
    refine Runs.exec_inv (I := Balanced peak) ?_ as ⟨?_, ?_, ?_⟩ hrun hs
    · exact fun s a s' hi hok hs => step_balanced hi hok.1 hfits hok.2 hs
    · exact fun i => Nat.zero_le _
    · exact fun i => ⟨(by decide : 0 < U32.size), rfl⟩
    · exact fun k todo c hc => nomatch hc
  exact h.share i

/-- A connection that is accepted, with both numbers read before `meanwhile`. -/
def acceptOne (meanwhile : List (Action 1 1)) (ok : Bool) : List (Action 1 1) :=
  [.accepted false, .readBest, .readLoop] ++ meanwhile ++
    [.compare, .create true, .add ok] ++ if ok then [.count] else []

def fourClients : List (Action 1 1) := [.connect 0, .connect 0, .connect 0, .connect 0, .epollWait [0], .next]

/-- The two sessions of the first loop go while the fourth connection is compared, so the second loop gets it. -/
def racing : List (Action 1 1) :=
  fourClients ++ acceptOne [] true ++ acceptOne [] true ++ acceptOne [] true ++
    acceptOne [.erase 0, .del 0 true, .erase 0, .del 0 true] true

theorem balanced_racing : ∃ s, Runs.exec step ({} : State 1 1) racing = some s ∧ (s.loops 1).load ≤ 3 / 2 + 1 := by
  obtain ⟨s, hs⟩ : ∃ s, Runs.exec step ({} : State 1 1) racing = some s := ⟨_, rfl⟩
  refine ⟨s, hs, balanced 3 (by decide) racing ?_ s hs 1⟩
  simp [racing, fourClients, acceptOne, Runs.Along, step, State.total, Succeeds, Loop.load, State.setLoop, U32.inc, U32.dec,
    U32.size]

-- and then it has all that it may have
example : (Runs.exec step ({} : State 1 1) racing).map (fun s => ((s.loops 0).load, (s.loops 1).load)) = some (0, 2) :=
  rfl

-- sessions that the kernel does not add are not counted, and the first loop gets them all
example : (Runs.exec step ({} : State 1 1) (fourClients ++ acceptOne [] false ++ acceptOne [] false ++
    acceptOne [] false ++ acceptOne [] false)).map (fun s => ((s.loops 0).load, (s.loops 1).load)) = some (4, 0) :=
  rfl

end Getodac.Accepting
