import Getodac.Basic
import Getodac.Lib.Runs
/-!
# The limit of connections per address

`Server::exec` counts a connection in `m_connectionsPerIp` before it makes a session
of it; `serverSessionDeleted`, on any thread, takes the session out of
`m_activeSessions` and then the connection out of the count. The actions are those of
the accept loop and of all threads that delete sessions, in any order.

The accept loop refuses an address with more connections than the limit, so there
can be one more session than that (`one_too_many`). `live_le` is what holds.
-/

namespace Getodac.Admission

variable {Addr : Type} [DecidableEq Addr]

structure State (Addr : Type) where
  /-- `m_connectionsPerIp`, of `uint32_t`; an entry that is not there is 0. -/
  connectionsPerIp : Addr → Nat := fun _ => 0
  /-- The peer of the connection that the accept loop makes a session of. -/
  admitted : Option Addr := none
  /-- `m_activeSessions`, by their peers. -/
  activeSessions : List Addr := []
  /-- The peers of sessions that `serverSessionDeleted` has taken out of it and not yet out of the count. -/
  deleted : List Addr := []

inductive Action (Addr : Type) where
  -- the accept loop
  | accept (addr : Addr)
  /-- The constructor of `BasicServerSession`. -/
  | create
  /-- There is no memory for the session. -/
  | abandon
  -- the thread on which a session is deleted, or its constructor throws
  | erase (addr : Addr)
  | decrement (addr : Addr)
deriving DecidableEq, Repr

def State.setCount (s : State Addr) (addr : Addr) (n : Nat) : State Addr :=
  { s with connectionsPerIp := fun a => if a = addr then n else s.connectionsPerIp a }

def step (maxConnectionsPerIp : Nat) (s : State Addr) : Action Addr → Option (State Addr)
  | .accept addr =>
    if s.admitted.isSome then none
    else if maxConnectionsPerIp < s.connectionsPerIp addr then some s
    else some { s.setCount addr (U32.inc (s.connectionsPerIp addr)) with admitted := some addr }
  | .create =>
    match s.admitted with
    | some addr => some { s with admitted := none, activeSessions := addr :: s.activeSessions }
    | none => none
  | .abandon => if s.admitted.isSome then some { s with admitted := none } else none
  | .erase addr =>
    if addr ∈ s.activeSessions then
      some { s with activeSessions := s.activeSessions.erase addr, deleted := addr :: s.deleted }
    else none
  | .decrement addr =>
    if addr ∈ s.deleted then
      some { s.setCount addr (U32.dec (s.connectionsPerIp addr)) with deleted := s.deleted.erase addr }
    else none

/-- No address has more than `n` live sessions. -/
def AtMost (n : Nat) (s : State Addr) : Prop := ∀ addr, s.activeSessions.count addr ≤ n

/-- The connections of an address that the count must include. -/
def State.held (s : State Addr) (addr : Addr) : Nat :=
  s.activeSessions.count addr + s.deleted.count addr + s.admitted.toList.count addr

/-- The count includes every session and is at most `bound`. -/
def Counted (bound : Nat) (s : State Addr) : Prop :=
  ∀ addr, s.held addr ≤ s.connectionsPerIp addr ∧ s.connectionsPerIp addr ≤ bound

/-- A connection is only admitted where the count is below `bound`. -/
def Below (maxConnectionsPerIp bound : Nat) (s : State Addr) : Action Addr → Prop
  | .accept addr => s.connectionsPerIp addr ≤ maxConnectionsPerIp → s.connectionsPerIp addr < bound
  | _ => True

instance (maxConnectionsPerIp bound : Nat) (s : State Addr) : ∀ a, Decidable (Below maxConnectionsPerIp bound s a)
  | .accept addr =>
    inferInstanceAs (Decidable (s.connectionsPerIp addr ≤ maxConnectionsPerIp → s.connectionsPerIp addr < bound))
  | .create | .abandon | .erase _ | .decrement _ => isTrue trivial

theorem step_counted {max bound : Nat} (hb : bound < U32.size) (s : State Addr) (a : Action Addr) (s' : State Addr)
    (hi : Counted bound s) (hok : Below max bound s a) (h : step max s a = some s') : Counted bound s' := by
  intro x
  obtain ⟨hheld, hle⟩ := hi x
  unfold State.held at hheld
  cases a with
  | accept addr =>
    simp only [step] at h
    split at h
    · cases h
    · rename_i hidle
      rw [Bool.not_eq_true, Option.isSome_eq_false_iff, Option.isNone_iff_eq_none] at hidle
      split at h
      · cases h
        exact hi x
      · rename_i hmax
        cases h
        have hlt := hok (by omega)
        have hinc := U32.inc_eq (show s.connectionsPerIp addr + 1 < U32.size by omega)
        rw [hidle, Option.toList_none, List.count_nil] at hheld
        by_cases hx : x = addr
        · subst hx
          simp only [State.held, State.setCount, if_true, hinc, Option.toList_some, List.count_singleton_self]
          omega
        · have hne : addr ≠ x := Ne.symm hx
          simp only [State.held, State.setCount, hx, if_false, Option.toList_some, List.count_cons_of_ne hne, List.count_nil]
          omega
  | create =>
    simp only [step] at h
    split at h
    · rename_i addr hadm
      cases h
      rw [hadm, Option.toList_some, List.count_cons, List.count_nil] at hheld
      simp only [State.held, List.count_cons, Option.toList_none, List.count_nil]
      omega
    · cases h
  | abandon =>
    simp only [step] at h
    split at h
    · cases h
      simp only [State.held, Option.toList_none, List.count_nil]
      omega
    · cases h
  | erase addr =>
    simp only [step] at h
    split at h
    · rename_i hmem
      cases h
      have hpos := List.count_pos_iff.2 hmem
      by_cases hx : x = addr
      · subst hx
        simp only [State.held, List.count_erase_self, List.count_cons_self]
        omega
      · have hne : addr ≠ x := Ne.symm hx
        simp only [State.held, List.count_erase_of_ne hx, List.count_cons_of_ne hne]
        omega
    · cases h
  | decrement addr =>
    simp only [step] at h
    split at h
    · rename_i hmem
      cases h
      have hpos := List.count_pos_iff.2 hmem
      by_cases hx : x = addr
      · subst hx
        have hdec := U32.dec_eq (show 0 < s.connectionsPerIp x by omega) (by omega)
        simp only [State.held, State.setCount, if_true, hdec, List.count_erase_self]
        omega
      · simp only [State.held, State.setCount, hx, if_false, List.count_erase_of_ne hx]
        omega
    · cases h

theorem counted_atMost {bound : Nat} {s : State Addr} (h : Counted bound s) : AtMost bound s := by
  intro addr
  obtain ⟨hheld, hle⟩ := h addr
  unfold State.held at hheld
  omega

theorem counted_init (bound : Nat) : Counted bound ({} : State Addr) := fun _ => ⟨Nat.le_refl 0, Nat.zero_le _⟩

/-- There is at most one session more than the limit, and not more than the limit in the runs in which no connection comes
from an address whose count has reached it. -/
theorem live_le (max : Nat) (hmax : max < U32.size) (as : List (Action Addr)) :
    (max + 1 < U32.size → Runs.Always (step max) (AtMost (max + 1)) {} as) ∧
    (Runs.Along (step max) (Below max max) {} as → Runs.Always (step max) (AtMost max) {} as) := by
  constructor
  · intro hlt
    have hok : Runs.Along (step max) (Below max (max + 1)) ({} : State Addr) as := by
      refine Runs.along_of_forall (fun s a => ?_) as _
      cases a with
      | accept addr => exact Nat.lt_succ_of_le
      | _ => trivial
    exact Runs.always_of_along (step_counted hlt) (fun s => counted_atMost) as (counted_init _) hok
  · exact Runs.always_of_along (step_counted hmax) (fun s => counted_atMost) as (counted_init _)

/-- The limit is two: a session, a second one, and a third after the first is gone. -/
theorem live_le_two :
    Runs.Always (step 2) (AtMost 2) {} [.accept 7, .create, .accept 7, .create, .erase 7, .decrement 7, .accept 7, .create] :=
  (live_le 2 (by decide) [.accept 7, .create, .accept 7, .create, .erase 7, .decrement 7, .accept 7, .create]).2 (by
    decide)

/-- The limit is one, and two sessions with the same peer are live. -/
theorem one_too_many :
    ∃ t, Runs.exec (step 1) {} [.accept 7, .create, .accept 7, .create] = some t ∧ t.activeSessions.count 7 = 2 :=
  ⟨_, rfl, rfl⟩

end Getodac.Admission
