import Getodac.Lib.Runs
/-!
# Who closes the socket of a connection

The accept loop owns the descriptor of a connection until its session is registered
with a loop, and closes it if it cannot make or register one. From then on the
destructor of the session closes it. The kernel gives the number of a closed
descriptor to the next connection.

`registerSession` puts a session into `m_sessions` before it asks the kernel. If that
fails, the accept loop closes the descriptor of a session that the loop still has
(`closed_twice`). `closed_once` is about the runs in which it does not fail.
-/

namespace Getodac.Descriptors

/-- Where an accepted connection is. -/
inductive Stage where
  /-- Not accepted yet. -/
  | none
  /-- The accept loop has its descriptor and no session. -/
  | accepted
  /-- The session is made; `initSession` is next. -/
  | created
  /-- `registerSession` has put it into `m_sessions` and is about to call `epoll_ctl`. -/
  | inserted
  /-- In `m_sessions`, and the accept loop is done with it. -/
  | registered
  /-- In `m_deleteLaterObjects`. -/
  | deleteLater
  /-- Without a session, for good. -/
  | gone
deriving DecidableEq, Repr

/-- A connection is named by its place in the order of acceptance. -/
structure State where
  accepted : Nat := 0
  sock : Nat → Nat := fun _ => 0
  stage : Nat → Stage := fun _ => .none
  /-- The connection that the accept loop is working on. -/
  current : Option Nat := none
  /-- `epoll_ctl` has added the session; `registerSession` counts it and returns. -/
  returning : Bool := false
  quit : Bool := false
  -- the kernel: which numbers are open, and the connection that had the number last
  isOpen : Nat → Bool := fun _ => false
  owner : Nat → Option Nat := fun _ => none
  /-- History: the calls of `::close` on the descriptor of a connection. -/
  closes : Nat → Nat := fun _ => 0

namespace State

/-- `accept4` returns `fd`. -/
def opened (s : State) (fd : Nat) : State :=
  { s with
    accepted := s.accepted + 1
    sock := fun d => if d = s.accepted then fd else s.sock d
    current := some s.accepted
    isOpen := fun f => if f = fd then true else s.isOpen f
    owner := fun f => if f = fd then some s.accepted else s.owner f }

/-- `::close(fd)`. -/
def close (s : State) (fd : Nat) : State :=
  { s with
    isOpen := fun f => if f = fd then false else s.isOpen f
    closes := fun c => if s.owner fd = some c then s.closes c + 1 else s.closes c }

def setStage (s : State) (c : Nat) (stage : Stage) : State :=
  { s with stage := fun d => if d = c then stage else s.stage d }

/-- The session of the connection is in `m_sessions`. -/
def InSessions (s : State) (c : Nat) : Prop := s.stage c = .inserted ∨ s.stage c = .registered

instance (s : State) (c : Nat) : Decidable (s.InSessions c) := inferInstanceAs (Decidable (_ ∨ _))

/-- The process is over: the accept loop is done and no session is left. -/
def Over (s : State) : Prop :=
  s.quit = true ∧ s.current = none ∧ ∀ c, ¬ s.InSessions c ∧ s.stage c ≠ .deleteLater

end State

inductive Action where
  -- the accept loop
  /-- `accept4` returns this number, which is not open. -/
  | accept (fd : Nat)
  /-- Too many connections from this address. -/
  | refuse
  /-- `new ServerSession` throws, before or after the base class is built, and the catch block closes the socket. -/
  | createFails
  | create
  | insert
  | addSucceeds
  /-- The end of `registerSession`, which does not touch the session any more. -/
  | returns
  /-- `registerSession` throws, and the catch block closes the socket. -/
  | addFails
  | shutdown
  -- the threads of the loops
  /-- An event, a timeout or a wakeup hands a session of `m_sessions` to `deleteLater`. -/
  | deleteLater (c : Nat)
  /-- A session is deleted: one from `m_deleteLaterObjects`, or any of `m_sessions` once the loops are shut down. -/
  | destroy (c : Nat)
deriving DecidableEq, Repr

/-- The connection of the accept loop, if it is in this stage. -/
def State.currentIn (s : State) (stage : Stage) : Option Nat :=
  s.current.bind fun c => if s.stage c = stage then some c else none

/-- The connection whose session `registerSession` has inserted. Its loop may have handed it to `deleteLater` since. -/
def State.adding (s : State) : Option Nat :=
  s.current.bind fun c =>
    match s.stage c with
    | .inserted | .deleteLater | .gone => some c
    | _ => none

/-- The accept loop leaves the session to the loop. -/
def State.settle (s : State) (c : Nat) : State := if s.stage c = .inserted then s.setStage c .registered else s

def step (s : State) : Action → Option State
  | .accept fd =>
    if s.current.isSome ∨ s.returning = true ∨ s.quit = true ∨ s.isOpen fd = true then none
    else some ((s.opened fd).setStage s.accepted .accepted)
  | .refuse | .createFails =>
    (s.currentIn .accepted).map fun c => { (s.close (s.sock c)).setStage c .gone with current := none }
  | .create => (s.currentIn .accepted).map fun c => s.setStage c .created
  | .insert => (s.currentIn .created).map fun c => s.setStage c .inserted
  | .addSucceeds => s.adding.map fun c => { s.settle c with current := none, returning := true }
  | .returns => if s.returning = true then some { s with returning := false } else none
  | .addFails => s.adding.map fun c => { (s.close (s.sock c)).settle c with current := none }
  | .shutdown => if s.current = none ∧ s.returning = false then some { s with quit := true } else none
  | .deleteLater c => if s.InSessions c then some (s.setStage c .deleteLater) else none
  | .destroy c =>
    if s.stage c = .deleteLater ∨ (s.quit = true ∧ s.InSessions c) then
      some ((s.close (s.sock c)).setStage c .gone)
    else none

/-- `epoll_ctl` does not fail, and no session is handed to `deleteLater` before it is asked to add it. -/
def Registers (s : State) : Action → Prop
  | .addFails => False
  | .deleteLater c => s.stage c ≠ .inserted
  | _ => True

instance (s : State) : ∀ a, Decidable (Registers s a)
  | .addFails => isFalse id
  | .deleteLater c => inferInstanceAs (Decidable (s.stage c ≠ .inserted))
  | .accept _ | .refuse | .createFails | .create | .insert | .addSucceeds | .returns | .shutdown | .destroy _ =>
    isTrue trivial

/-- No descriptor is closed twice, every session in `m_sessions` has its own descriptor and it is open, and when the
process is over each accepted descriptor has been closed. -/
def ClosedOnce (s : State) : Prop :=
  (∀ c, s.closes c ≤ 1) ∧
  (∀ c, s.InSessions c → s.closes c = 0 ∧ s.isOpen (s.sock c) = true ∧ s.owner (s.sock c) = some c) ∧
  (s.Over → ∀ c < s.accepted, s.closes c = 1)

/-! ## What the steps keep -/

/-- The connection has a descriptor that nobody closed. -/
def Stage.Holds : Stage → Prop
  | .accepted | .created | .inserted | .registered | .deleteLater => True
  | .none | .gone => False

/-- Its descriptor is open and was given to no other connection since. -/
def Held (s : State) (c : Nat) : Prop :=
  c < s.accepted ∧ s.closes c = 0 ∧ s.isOpen (s.sock c) = true ∧ s.owner (s.sock c) = some c

/-- What the kernel knows of a connection in this stage. -/
def Fits (s : State) (c : Nat) : Stage → Prop
  | .none => s.accepted ≤ c ∧ s.closes c = 0
  | .gone => c < s.accepted ∧ s.closes c = 1
  | .accepted | .created | .inserted | .registered | .deleteLater => Held s c

/-- Every connection is as its stage says. -/
def Owns (s : State) : Prop := ∀ c, Fits s c (s.stage c)

/-- The accept loop is not done with the connection. -/
def Stage.Pending : Stage → Prop
  | .accepted | .created | .inserted => True
  | .none | .registered | .deleteLater | .gone => False

/-- The accept loop works on the one connection that is not handed over yet. -/
structure Busy (s : State) : Prop where
  current : ∀ c, (s.stage c).Pending ↔ s.current = some c
  quit : s.quit = true → s.current = none

variable {s t : State} {c d : Nat} {st : Stage}

theorem setStage_stage (s : State) (c d : Nat) (st : Stage) :
    (s.setStage c st).stage d = if d = c then st else s.stage d :=
  rfl

theorem currentIn_eq_some (h : s.currentIn st = some c) : s.current = some c ∧ s.stage c = st := by
  obtain ⟨d, hd, h⟩ := Option.bind_eq_some_iff.1 h
  split at h
  · cases h
    exact ⟨hd, ‹_›⟩
  · cases h

theorem fits_iff_held (hst : st.Holds) : Fits s c st ↔ Held s c := by
  cases st with
  | none | gone => exact hst.elim
  | _ => exact Iff.rfl

theorem Fits.lt (h : Fits s c st) (hst : st ≠ .none) : c < s.accepted := by
  cases st with
  | none => exact absurd rfl hst
  | _ => exact h.1

/-- One connection changes its stage; the others keep what they had. -/
theorem Owns.setStage (h : Owns s) (hc : Fits t c st) (ht : t.stage = s.stage)
    (hother : ∀ d st, d ≠ c → Fits s d st → Fits t d st) : Owns (t.setStage c st) := by
  intro d
  rw [setStage_stage]
  split
  · rename_i hdc
    rw [hdc]
    exact hc
  · rename_i hdc
    rw [ht]
    exact hother d _ hdc (h d)

/-- A session that goes on to another stage keeps its descriptor. -/
theorem Owns.move (h : Owns s) (hc : (s.stage c).Holds) (st : Stage) (hst : st.Holds) : Owns (s.setStage c st) :=
  h.setStage ((fits_iff_held hst).2 ((fits_iff_held hc).1 (h c))) rfl fun _ _ _ hd => hd

/-- Closing the descriptor of a connection that has it closes no other. -/
theorem close_fits (hc : Held s c) (hd : d ≠ c) (h : Fits s d st) : Fits (s.close (s.sock c)) d st := by
  obtain ⟨-, -, -, howner⟩ := hc
  have hcloses : (s.close (s.sock c)).closes d = s.closes d :=
    if_neg (by rw [howner]; exact fun he => hd (Option.some.inj he).symm)
  have hheld : Held s d → Held (s.close (s.sock c)) d := by
    rintro ⟨hlt, h0, hopen, hown⟩
    -- two connections that have their descriptors have different numbers, by `owner`
    have hsock : s.sock d ≠ s.sock c := fun he => hd (Option.some.inj ((he ▸ hown).symm.trans howner))
    exact ⟨hlt, hcloses.trans h0, (if_neg hsock).trans hopen, hown⟩
  cases st with
  | none | gone => exact ⟨h.1, hcloses.trans h.2⟩
  | _ => exact hheld h

theorem Owns.closed (h : Owns s) (hc : (s.stage c).Holds) : Owns ((s.close (s.sock c)).setStage c .gone) := by
  obtain ⟨hlt, h0, hopen, howner⟩ := (fits_iff_held hc).1 (h c)
  refine h.setStage ⟨hlt, ?_⟩ rfl fun d st hd => close_fits ⟨hlt, h0, hopen, howner⟩ hd
  exact (if_pos howner).trans (congrArg (· + 1) h0)

/-- The number that the kernel gives out is no other connection's. -/
theorem opened_fits {fd : Nat} (hfd : s.isOpen fd = false) (hd : d ≠ s.accepted) (h : Fits s d st) :
    Fits (s.opened fd) d st := by
  have hheld : Held s d → Held (s.opened fd) d := by
    rintro ⟨hlt, h0, hopen, hown⟩
    -- `fd` was closed, and the number of `d` is open
    have hne : s.sock d ≠ fd := by
      rintro rfl
      rw [hopen] at hfd
      cases hfd
    have hsock : (s.opened fd).sock d = s.sock d := if_neg hd
    refine ⟨Nat.lt_succ_of_lt hlt, h0, ?_, ?_⟩
    · rw [hsock]
      exact (if_neg hne).trans hopen
    · rw [hsock]
      exact (if_neg hne).trans hown
  cases st with
  | none => exact ⟨Nat.lt_of_le_of_ne h.1 hd.symm, h.2⟩
  | gone => exact ⟨Nat.lt_succ_of_lt h.1, h.2⟩
  | _ => exact hheld h

theorem Owns.accept (h : Owns s) {fd : Nat} (hfd : s.isOpen fd = false) :
    Owns ((s.opened fd).setStage s.accepted .accepted) := by
  have hfit := h s.accepted
  have hst : s.stage s.accepted = .none := by
    by_contra hne
    exact Nat.lt_irrefl _ (hfit.lt hne)
  rw [hst] at hfit
  refine h.setStage ?_ rfl fun d st hd => opened_fits hfd hd
  exact ⟨Nat.lt_succ_self _, hfit.2, by simp [State.opened], by simp [State.opened]⟩

/-- It is not about where the accept loop is. -/
theorem Owns.congr (h : Owns s) (h1 : t.accepted = s.accepted) (h2 : t.stage = s.stage) (h3 : t.closes = s.closes)
    (h4 : t.sock = s.sock) (h5 : t.isOpen = s.isOpen) (h6 : t.owner = s.owner) : Owns t := by
  intro c
  have hc := h c
  rw [h2]
  cases hst : s.stage c <;> rw [hst] at hc <;> simpa only [Fits, Held, h1, h3, h4, h5, h6] using hc

/-- The loops move a connection that is not the accept loop's. -/
theorem Busy.setStage (h : Busy s) (hc : ¬ (s.stage c).Pending) (st : Stage) (hst : ¬ st.Pending) :
    Busy (s.setStage c st) := by
  refine ⟨fun d => ?_, h.quit⟩
  rw [setStage_stage]
  split
  · rename_i hdc
    rw [hdc]
    exact iff_of_false hst fun he => hc ((h.current c).2 he)
  · exact h.current d

/-- The accept loop is done with its connection. -/
theorem Busy.done (h : Busy s) (hc : s.current = some c) {st : Stage} (hst : ¬ st.Pending) {t : State}
    (ht : t.stage = (s.setStage c st).stage) (hcur : t.current = none) : Busy t := by
  refine ⟨fun d => ?_, fun _ => hcur⟩
  rw [ht, setStage_stage, hcur]
  refine iff_of_false ?_ (by simp)
  split
  · exact hst
  · rename_i hdc
    rw [h.current d, hc]
    exact fun he => hdc (Option.some.inj he).symm

/-- It goes on with it. -/
theorem Busy.next (h : Busy s) (hc : s.current = some c) {st : Stage} (hst : st.Pending) : Busy (s.setStage c st) := by
  refine ⟨fun d => ?_, h.quit⟩
  rw [setStage_stage]
  split
  · rename_i hdc
    rw [hdc]
    exact iff_of_true hst hc
  · exact h.current d

/-- It starts with a new one. -/
theorem Busy.accept (h : Busy s) (hcur : s.current = none) (hquit : s.quit = false) (fd : Nat) :
    Busy ((s.opened fd).setStage s.accepted .accepted) := by
  refine ⟨fun d => ?_, fun hq => ?_⟩
  · rw [setStage_stage]
    split
    · rename_i hdc
      rw [hdc]
      exact iff_of_true trivial rfl
    · rename_i hdc
      refine iff_of_false (fun hp => ?_) fun he => hdc (Option.some.inj he).symm
      rw [(h.current d).1 hp] at hcur
      cases hcur
  · rw [show ((s.opened fd).setStage s.accepted .accepted).quit = s.quit from rfl, hquit] at hq
    cases hq

theorem Busy.adding (h : Busy s) (hc : s.adding = some c) : s.current = some c ∧ s.stage c = .inserted := by
  obtain ⟨d, hd, hc⟩ := Option.bind_eq_some_iff.1 hc
  have hp := (h.current d).2 hd
  cases hst : s.stage d <;> rw [hst] at hc hp
  case inserted =>
    cases hc
    exact ⟨hd, hst⟩
  all_goals first | exact hp.elim | cases hc

theorem step_inv (s : State) (a : Action) (s' : State) (hi : Owns s ∧ Busy s) (hok : Registers s a)
    (h : step s a = some s') : Owns s' ∧ Busy s' := by
  obtain ⟨ho, hb⟩ := hi
  cases a with
  | accept fd =>
    simp only [step] at h
    split at h
    · cases h
    · rename_i hfree
      simp only [not_or, Bool.not_eq_true] at hfree
      obtain ⟨hcur, -, hquit, hopen⟩ := hfree
      cases h
      exact ⟨ho.accept hopen, hb.accept (by simpa using hcur) hquit fd⟩
  | refuse =>
    obtain ⟨c, hc, rfl⟩ := Option.map_eq_some_iff.1 h
    obtain ⟨hcur, hst⟩ := currentIn_eq_some hc
    exact ⟨(ho.closed (by rw [hst]; trivial)).congr rfl rfl rfl rfl rfl rfl, hb.done hcur id rfl rfl⟩
  | createFails =>
    obtain ⟨c, hc, rfl⟩ := Option.map_eq_some_iff.1 h
    obtain ⟨hcur, hst⟩ := currentIn_eq_some hc
    exact ⟨(ho.closed (by rw [hst]; trivial)).congr rfl rfl rfl rfl rfl rfl, hb.done hcur id rfl rfl⟩
  | create =>
    obtain ⟨c, hc, rfl⟩ := Option.map_eq_some_iff.1 h
    obtain ⟨hcur, hst⟩ := currentIn_eq_some hc
    exact ⟨ho.move (by rw [hst]; trivial) _ trivial, hb.next hcur trivial⟩
  | insert =>
    obtain ⟨c, hc, rfl⟩ := Option.map_eq_some_iff.1 h
    obtain ⟨hcur, hst⟩ := currentIn_eq_some hc
    exact ⟨ho.move (by rw [hst]; trivial) _ trivial, hb.next hcur trivial⟩
  | addSucceeds =>
    obtain ⟨c, hc, rfl⟩ := Option.map_eq_some_iff.1 h
    obtain ⟨hcur, hst⟩ := hb.adding hc
    rw [State.settle, if_pos hst]
    exact ⟨(ho.move (by rw [hst]; trivial) .registered trivial).congr rfl rfl rfl rfl rfl rfl,
      hb.done hcur id rfl rfl⟩
  | returns =>
    simp only [step] at h
    split at h
    · cases h
      exact ⟨ho.congr rfl rfl rfl rfl rfl rfl, hb.current, hb.quit⟩
    · cases h
  | addFails => exact hok.elim
  | shutdown =>
    simp only [step] at h
    split at h
    · rename_i hidle
      cases h
      exact ⟨ho.congr rfl rfl rfl rfl rfl rfl, hb.current, fun _ => hidle.1⟩
    · cases h
  | deleteLater c =>
    simp only [step] at h
    split at h
    · rename_i hin
      cases h
      -- the condition excludes a session that `epoll_ctl` is still to add
      have hst : s.stage c = .registered := hin.resolve_left hok
      exact ⟨ho.move (by rw [hst]; trivial) _ trivial, hb.setStage (by rw [hst]; exact id) _ id⟩
    · cases h
  | destroy c =>
    simp only [step] at h
    split at h
    · rename_i hdel
      cases h
      obtain ⟨hholds, hpending⟩ : (s.stage c).Holds ∧ ¬ (s.stage c).Pending := by
        rcases hdel with hst | ⟨hq, hst | hst⟩
        · simp [hst, Stage.Holds, Stage.Pending]
        · -- after `shutdown` the accept loop has no connection, so none is being registered
          have hcur := (hb.current c).1 (by rw [hst]; trivial)
          rw [hb.quit hq] at hcur
          cases hcur
        · simp [hst, Stage.Holds, Stage.Pending]
      exact ⟨ho.closed hholds, (hb.setStage hpending .gone id).current, hb.quit⟩
    · cases h

theorem inv_init : Owns {} ∧ Busy {} :=
  ⟨fun c => ⟨Nat.zero_le c, rfl⟩, fun _ => iff_of_false id (by simp), fun h => by cases h⟩

theorem closedOnce_of_inv (s : State) (hi : Owns s ∧ Busy s) : ClosedOnce s := by
  obtain ⟨ho, hb⟩ := hi
  refine ⟨fun c => ?_, fun c hc => ?_, fun hover c hc => ?_⟩
  · have hfit := ho c
    cases hst : s.stage c <;> rw [hst] at hfit
    case gone => rw [hfit.2]
    case none => rw [hfit.2]; exact Nat.zero_le _
    all_goals rw [hfit.2.1]; exact Nat.zero_le _
  · have hheld : Held s c := by
      have hfit := ho c
      rcases hc with hst | hst <;> rwa [hst] at hfit
    exact hheld.2
  · obtain ⟨-, hcur, hno⟩ := hover
    have hpending : ¬ (s.stage c).Pending := by
      rw [hb.current c, hcur]
      simp
    obtain ⟨hin, hdel⟩ := hno c
    have hfit := ho c
    cases hst : s.stage c with
    | none =>
      rw [hst] at hfit
      exact absurd hfit.1 (Nat.not_le.2 hc)
    | gone =>
      rw [hst] at hfit
      exact hfit.2
    | deleteLater => exact absurd hst hdel
    | registered => exact absurd (.inr hst) hin
    | inserted => exact absurd (.inl hst) hin
    | accepted | created => exact (hpending (by rw [hst]; trivial)).elim

/-- In every run in which `epoll_ctl` adds each session it is asked to, and before the session is handed to
`deleteLater`, each accepted descriptor is closed once, and not as long as a loop has its session. -/
theorem closed_once (as : List Action) (h : Runs.Along step Registers {} as) : Runs.Always step ClosedOnce {} as :=
  Runs.always_of_along step_inv closedOnce_of_inv as inv_init h

/-- Two connections one after the other with the same number, and the end of the process. The loop deletes the first
session before `registerSession` returns. -/
theorem closed_once_two :
    Runs.Always step ClosedOnce {} [.accept 7, .create, .insert, .addSucceeds, .deleteLater 0, .destroy 0, .returns,
      .accept 7, .create, .insert, .addSucceeds, .returns, .shutdown, .destroy 1] :=
  closed_once _ (by decide)

/-- The kernel does not add the first session. The second connection gets the number of the first, and the timeout of
the first session closes it. -/
theorem closed_twice :
    ∃ s t, Runs.exec step {} [.accept 7, .create, .insert, .addFails] = some s ∧ s.InSessions 0 ∧ s.closes 0 = 1 ∧
      s.isOpen (s.sock 0) = false ∧
      Runs.exec step s [.accept 7, .create, .insert, .addSucceeds, .returns, .deleteLater 0, .destroy 0, .deleteLater 1,
        .destroy 1] = some t ∧ t.closes 1 = 2 :=
  ⟨_, _, rfl, by decide, by decide, by decide, rfl, by decide⟩

end Getodac.Descriptors
