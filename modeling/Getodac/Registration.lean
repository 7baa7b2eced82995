import Getodac.Basic
import Getodac.Lib.Runs
/-!
# The sessions of a loop and their number

`registerSession`, `unregisterSession`, `deleteLater` and the destructor of a session
change `m_sessions` first, then ask the kernel, and count only if the kernel agrees.
Between calls the counter is the number of sessions exactly if the kernel never
disagrees (`counter_iff`).
-/

namespace Getodac.Registration

variable {Session : Type} [DecidableEq Session]

/-- `SessionsEventLoop`. -/
structure Loop (Session : Type) where
  sessions : Finset Session := ∅
  /-- A `uint32_t`. -/
  activeSessions : Nat := 0
  deleteLaterObjects : Finset Session := ∅

namespace Loop

/-- How a call ends, and the loop after it; `ok` is the answer of `epoll_ctl`. -/
def registerSession (l : Loop Session) (s : Session) (ok : Bool) : Loop Session × Bool :=
  let l := { l with sessions := insert s l.sessions }
  if ok then ({ l with activeSessions := U32.inc l.activeSessions }, true) else (l, false)

def unregisterSession (l : Loop Session) (s : Session) (ok : Bool) : Loop Session × Bool :=
  if s ∉ l.sessions then (l, true)
  else
    let l := { l with sessions := l.sessions.erase s }
    if ok then ({ l with activeSessions := U32.dec l.activeSessions }, true) else (l, false)

def deleteLater (l : Loop Session) (s : Session) (ok : Bool) : Loop Session :=
  let l := (l.unregisterSession s ok).1
  { l with deleteLaterObjects := insert s l.deleteLaterObjects }

/-- `~ServerSession`. -/
def destroy (l : Loop Session) (s : Session) (ok : Bool) : Loop Session := (l.unregisterSession s ok).1

end Loop

inductive Call (Session : Type) where
  | registerSession (s : Session) (ok : Bool)
  | unregisterSession (s : Session) (ok : Bool)
  | deleteLater (s : Session) (ok : Bool)
  | destroy (s : Session) (ok : Bool)
deriving DecidableEq, Repr

/-- One call, with whether it returns. -/
def Loop.call (l : Loop Session) : Call Session → Loop Session × Bool
  | .registerSession s ok => l.registerSession s ok
  | .unregisterSession s ok => l.unregisterSession s ok
  | .deleteLater s ok => (l.deleteLater s ok, true)
  | .destroy s ok => (l.destroy s ok, true)

def step (l : Loop Session) (c : Call Session) : Option (Loop Session) := some (l.call c).1

/-- The counter is the number of sessions. -/
def Exact (l : Loop Session) : Prop := l.activeSessions = l.sessions.card

/-- A `registerSession` that throws leaves both as they were. -/
def Restores (l : Loop Session) (c : Call Session) : Prop :=
  ∀ s ok, c = .registerSession s ok → (l.call c).2 = false →
    (l.call c).1.sessions = l.sessions ∧ (l.call c).1.activeSessions = l.activeSessions

/-- The kernel adds a session exactly if it is a new one, and removes every session it is asked to. -/
def Agrees (l : Loop Session) : Call Session → Prop
  | .registerSession s ok => (s ∉ l.sessions ∧ ok = true ∧ l.sessions.card + 1 < U32.size) ∨ (s ∈ l.sessions ∧ ok = false)
  | .unregisterSession s ok | .deleteLater s ok | .destroy s ok => s ∈ l.sessions → ok = true

/-! ## One call -/

theorem register_exact {l : Loop Session} (h : Exact l) (hlt : l.activeSessions < U32.size) (s : Session) (ok : Bool) :
    Exact (l.registerSession s ok).1 ↔ Agrees l (.registerSession s ok) := by
  unfold Exact at h
  unfold Exact Agrees Loop.registerSession
  rw [h] at hlt
  by_cases hs : s ∈ l.sessions
  · simp only [hs, Finset.insert_eq_of_mem, not_true_eq_false, false_and, true_and, false_or]
    cases ok with
    | false => simpa using h
    | true =>
      -- counted twice
      have hne : U32.inc l.activeSessions ≠ l.sessions.card := by
        rw [h]
        by_cases hw : l.sessions.card + 1 < U32.size
        · rw [U32.inc_eq hw]
          omega
        · rw [U32.inc_max (by omega)]
          unfold U32.size at hlt hw
          omega
      simpa using hne
  · have hcard := Finset.card_insert_of_notMem hs
    simp only [hs, not_false_eq_true, true_and, false_and, or_false]
    cases ok with
    | false =>
      simp only [Bool.false_eq_true, if_false, false_and, iff_false]
      omega
    | true =>
      simp only [if_true, true_and, hcard, h]
      by_cases hw : l.sessions.card + 1 < U32.size
      · simp [U32.inc_eq hw, hw]
      · simp [U32.inc_max (show l.sessions.card + 1 = U32.size by omega), hw]

theorem unregister_exact {l : Loop Session} (h : Exact l) (hlt : l.activeSessions < U32.size) (s : Session) (ok : Bool) :
    Exact (l.unregisterSession s ok).1 ↔ (s ∈ l.sessions → ok = true) := by
  unfold Exact at h
  unfold Exact Loop.unregisterSession
  by_cases hs : s ∈ l.sessions
  · have hpos := Finset.card_pos.2 ⟨s, hs⟩
    have hcard := Finset.card_erase_of_mem hs
    simp only [hs, not_true_eq_false, if_false, forall_const]
    cases ok with
    | false =>
      simp only [Bool.false_eq_true, if_false, iff_false]
      omega
    | true =>
      simp only [if_true, iff_true]
      rw [U32.dec_eq (by omega) hlt, hcard, h]
  · simp [hs, h]

theorem call_exact {l : Loop Session} (h : Exact l) (hlt : l.activeSessions < U32.size) (c : Call Session) :
    Exact (l.call c).1 ↔ Agrees l c := by
  cases c with
  | registerSession s ok => exact register_exact h hlt s ok
  | unregisterSession s ok => exact unregister_exact h hlt s ok
  | deleteLater s ok => exact unregister_exact h hlt s ok
  | destroy s ok => exact unregister_exact h hlt s ok

theorem call_lt {l : Loop Session} (hlt : l.activeSessions < U32.size) (c : Call Session) :
    (l.call c).1.activeSessions < U32.size := by
  have hun : ∀ s ok, (l.unregisterSession s ok).1.activeSessions < U32.size := by
    intro s ok
    unfold Loop.unregisterSession
    split
    · exact hlt
    · cases ok with
      | false => exact hlt
      | true => exact U32.dec_lt
  cases c with
  | registerSession s ok =>
    unfold Loop.call Loop.registerSession
    cases ok with
    | false => exact hlt
    | true => exact U32.inc_lt
  | unregisterSession s ok => exact hun s ok
  | deleteLater s ok => exact hun s ok
  | destroy s ok => exact hun s ok

theorem restores_of_agrees {l : Loop Session} {c : Call Session} (h : Agrees l c) : Restores l c := by
  rintro s ok rfl hthrew
  cases ok with
  | true => cases hthrew
  | false =>
    obtain ⟨-, hok, -⟩ | ⟨hs, -⟩ := h
    · cases hok
    · exact ⟨Finset.insert_eq_of_mem hs, rfl⟩

/-- Between the calls of a sequence the counter is the number of sessions, and every `registerSession` that throws leaves
both as they were, exactly if the kernel agrees with each call. -/
theorem counter_iff (cs : List (Call Session)) :
    (Runs.Always step Exact ({} : Loop Session) cs ∧ Runs.Along step Restores ({} : Loop Session) cs) ↔
      Runs.Along step Agrees ({} : Loop Session) cs := by
  have hiff : Runs.Always step Exact ({} : Loop Session) cs ↔ Runs.Along step Agrees {} cs := by
    have h0 : ({} : Loop Session).activeSessions < U32.size := show 0 < U32.size by decide
    refine Runs.always_iff_along (I := fun l => l.activeSessions < U32.size) ?_ ?_ ?_ cs h0 rfl
    · rintro l c _ hlt ⟨⟩
      exact call_lt hlt c
    · rintro l c _ hlt h ⟨⟩
      exact call_exact h hlt c
    · rintro l c _ ⟨⟩
  rw [hiff]
  constructor
  · exact fun h => h.1
  · exact fun h => ⟨h, h.mono (fun _ _ => restores_of_agrees) cs⟩

/-- The kernel has no room for the session: `registerSession` throws, and the loop keeps it without counting it. -/
theorem register_keeps :
    ∃ t, Runs.exec step ({} : Loop Nat) [.registerSession 7 false] = some t ∧
      (({} : Loop Nat).call (.registerSession 7 false)).2 = false ∧ 7 ∈ t.sessions ∧ t.sessions.card = 1 ∧
      t.activeSessions = 0 :=
  ⟨_, rfl, rfl, by decide, by decide, rfl⟩

end Getodac.Registration
