import Getodac.Shutdown
/-!
# `Server::exec` returns

A thread of a loop may sleep in `epoll_wait`, without a timeout, when `shutdown` stores
`m_quit`; the write to the eventfd wakes it, or fails because another one will. Nor does
a thread go on for ever: when it comes back to its loop it leaves it. `exec_returns`
puts this together, for all loops and the main thread.
-/

namespace Getodac.Shutdown

open Deletion (Ref Events Sound)

variable {n : Nat} {Ptr : Type} [DecidableEq Ptr] {s s' : State n Ptr} {l l' : Loop Ptr}

/-! ## How many steps are left -/

/-- The most steps that the thread is from its end, once `m_quit` is stored, and that the deletions take. -/
def Loop.work (l : Loop Ptr) : Nat :=
  (if l.counter = 0 then 0 else 1) + (if l.wokeup then 1 else 0) + l.state.alive.length +
  match l.state.pc with
  | .waiting => if l.inside then 4 * l.state.alive.length + 6 else 1
  | .events todo => todo.length + 3 * l.state.alive.length + 4
  | .visiting _ todo => 2 * todo.length + l.state.alive.length + 3
  | .checking _ _ todo => 2 * todo.length + l.state.alive.length + 4
  | .deleting todo => todo.length + 2
  | .quit => 0

omit [DecidableEq Ptr] in
theorem Loop.work_write (l : Loop Ptr) (v : Nat) : (l.write v).work ≤ l.work + 1 := by
  have hc : (if (l.write v).counter = 0 then 0 else 1) ≤ (if l.counter = 0 then 0 else 1) + 1 := by
    split <;> split <;> omega
  have hrest : (l.write v).work + (if l.counter = 0 then 0 else 1) =
      l.work + (if (l.write v).counter = 0 then 0 else 1) := by
    unfold Loop.work Loop.write
    dsimp only
    omega
  omega

/-- A step that gets the thread further. -/
def Thread.cost : Thread Ptr → Nat
  | .stall => 0
  | _ => 1

omit [DecidableEq Ptr] in
theorem length_le_of_subset {rs ts : List (Ref Ptr)} (hn : rs.Nodup) (h : ∀ t ∈ rs, t ∈ ts) : rs.length ≤ ts.length :=
  (List.subperm_of_subset hn h).length_le

theorem Loop.Ok.step_work (h : l.Ok) (hq : l.quit = true) {a : Thread Ptr} (hs : l.step a = some l') :
    a.cost + l'.work ≤ l.work := by
  have hpc : l.state.pc ≠ .quit := by
    intro hpc
    rw [h.step_quit hpc] at hs
    cases hs
  obtain ⟨hi, hk⟩ := h.sound.running hpc
  cases Loop.step_takes hs with
  | leave hpc hin _ =>
    simp only [Thread.cost, Loop.work, hpc, hin, Bool.false_eq_true, if_false]
    omega
  | enter _ hq' => rw [hq] at hq'; cases hq'
  | @wait wokeup batch s hin _ hstep =>
    have hpc := h.asleep hin
    cases Deletion.step_takes hi hstep with
    | code _ _ hv => rw [hpc] at hv; cases hv
    | leave _ hq' => rw [h.unused] at hq'; cases hq'
    | wait _ hb hn =>
      have hlen : batch.length ≤ l.state.alive.length := by
        rw [← List.length_map (f := Prod.fst)]
        refine length_le_of_subset hn fun t ht => ?_
        obtain ⟨x, hx, rfl⟩ := List.mem_map.1 ht
        exact hi.core.registered _ (hi.core.reported _ (hb x hx))
      have hw : (if wokeup = true then 1 else 0) ≤ 1 := by split <;> omega
      simp only [Thread.cost, Loop.work, hpc, hin, if_true]
      omega
  | interrupted hin =>
    simp only [Thread.cost, Loop.work, h.asleep hin, hin, if_true, Bool.false_eq_true, if_false]
    omega
  | drained _ hw =>
    simp only [Thread.cost, Loop.work, hw, if_true, Bool.false_eq_true, if_false]
    omega
  | read _ hc =>
    simp only [Thread.cost, Loop.work, hc, if_true, if_false]
    omega
  | stall => exact (Nat.zero_add _).le
  | @run a s hstep hr hq he hc =>
    cases Deletion.step_takes hi hstep with
    | register => exact absurd rfl (hr _)
    | storeQuit => exact absurd rfl hq
    | leave => exact absurd rfl (he _)
    | wait => exact absurd rfl (he _)
    | code hra ha hv =>
      have halive := (ha.alive hv.pc.1).1
      simp only [Thread.cost, Loop.work, halive]
      generalize l.state.pc = pc at hv
      cases hv <;> simp only [List.length_cons] <;> omega
    | copy hpc =>
      have hlen := length_le_of_subset hk.nodup hi.core.registered
      simp only [Thread.cost, Loop.work, hpc, List.length_nil]
      omega
    | lock hpc =>
      have hidle := hi.idle (by rw [hpc]; rfl)
      have hlen := length_le_of_subset hidle.later.nodup hidle.later.alive
      simp only [Thread.cost, Loop.work, hpc, List.length_nil]
      omega
    | @delete r _ _ hpc hmem =>
      have hlen := List.length_erase_of_mem hmem
      simp only [Thread.cost, Loop.work, hpc, List.length_cons]
      omega
    | clear hpc =>
      have hin : l.inside = false := by
        by_contra hin
        have hwait := h.asleep (by simpa using hin)
        rw [hpc] at hwait
        cases hwait
      simp only [Thread.cost, Loop.work, hpc, hin, Bool.false_eq_true, if_false, List.length_nil]
      omega

/-- The most steps of `exec` itself. -/
def Main.work : Main n Ptr → Nat
  | .destructor [] _ => 2
  | .destructor (_ :: todo) (.shutdown false) => 5 * todo.length + 7
  | .destructor (_ :: todo) (.shutdown true) => 5 * todo.length + 6
  | .destructor (_ :: todo) .joining => 5 * todo.length + 4
  | .destructor (_ :: todo) (.destroying _) => 5 * todo.length + 3
  | .activeSessions => 1
  | .accepting | .created _ _ | .inserted _ _ | .shutdown _ _ | .done | .stalled | .undefined => 0

def State.work (s : State n Ptr) : Nat := s.main.work + ∑ i, (s.loops i).work

omit [DecidableEq Ptr] in
/-- What a changed loop adds. -/
theorem State.work_update (s s' : State n Ptr) {i : Fin n} {l : Loop Ptr} (h : s'.loops = Function.update s.loops i l) :
    s'.work + s.main.work + (s.loops i).work = s.work + s'.main.work + l.work := by
  have hsum := Components.sum_update Loop.work s.loops i l
  unfold State.work
  rw [h]
  omega

/-- A step that gets its thread further. -/
def Action.cost : Action n Ptr → Nat
  | .wakeup _ _ | .stall => 0
  | .thread _ a => a.cost
  | _ => 1

/-- A wakeup may cost the thread one read more. -/
def Action.gain : Action n Ptr → Nat
  | .wakeup _ _ => 1
  | _ => 0

/-- All that needs no event but the ones of the eventfd, and gets its thread further. -/
def Action.Due : Action n Ptr → Prop
  | .wakeup _ _ | .stall | .thread _ .stall | .thread _ .interrupted | .thread _ (.epollWait false _) => False
  | _ => True

/-- `exec` is in `eventLoops.reset()` or behind it. -/
def Ending (s : State n Ptr) : Prop :=
  (∃ todo stage, s.main = .destructor todo stage) ∨ s.main = .activeSessions ∨ s.main = .done ∨ s.main = .stalled

omit [DecidableEq Ptr] in
theorem Inv.told (h : Inv s) (he : Ending s) (i : Fin n) : (s.loops i).Told := by
  have hp := h.phase
  rcases he with ⟨todo, stage, hm⟩ | hm | hm | hm <;> rw [Phase, hm] at hp
  · exact hp.1 i
  · exact hp.1 i
  · exact hp.1 i
  · exact hp i

omit [DecidableEq Ptr] in
/-- Nothing is registered any more. -/
theorem Ending.adds (he : Ending s) (a : Action n Ptr) : Adds s a := by
  cases a with
  | add ok =>
    intro i r hm
    rcases he with ⟨todo, stage, hm'⟩ | hm' | hm' | hm' <;> rw [hm] at hm' <;> cases hm'
  | _ => trivial

theorem mainStep_work (h : Inv s) (he : Ending s) {order : List (Ref Ptr)} {o : Deletion.Outcome}
    (hs : mainStep s order o = some s') : Ending s' ∧ 1 + s'.work ≤ s.work := by
  have hp := h.phase
  have hinv := mainStep_inv h hs
  have hmain : ∀ m : Main n Ptr, (s.setMain m).work + s.main.work = s.work + m.work := fun m => by
    simp only [State.work, State.setMain]
    omega
  unfold mainStep at hs
  split at hs
  case h_1 hm | h_2 hm | h_3 hm => rcases he with ⟨todo, stage, hm'⟩ | hm' | hm' | hm' <;> rw [hm] at hm' <;> cases hm'
  case h_4 hm =>
    cases hs
    have hwork := hmain .activeSessions
    rw [hm] at hwork
    refine ⟨.inr (.inl rfl), ?_⟩
    simp only [Main.work] at hwork
    omega
  case h_5 i todo hm =>
    cases hs
    have hwork := State.work_update s ((s.setLoop i { s.loops i with quit := true }).setMain
      (.destructor (i :: todo) (.shutdown true))) rfl
    have hsame : ({ s.loops i with quit := true } : Loop Ptr).work = (s.loops i).work := rfl
    rw [hm, hsame] at hwork
    refine ⟨.inl ⟨_, _, rfl⟩, ?_⟩
    simp only [State.setMain, Main.work] at hwork ⊢
    omega
  case h_6 i todo hm =>
    cases hs
    have hwork := State.work_update s ((s.setLoop i ((s.loops i).write 1)).setMain (.destructor (i :: todo) .joining)) rfl
    have hle := (s.loops i).work_write 1
    rw [hm] at hwork
    refine ⟨.inl ⟨_, _, rfl⟩, ?_⟩
    simp only [State.setMain, Main.work] at hwork ⊢
    omega
  case h_7 i todo hm =>
    split at hs
    · cases hs
      have hwork := hmain (.destructor (i :: todo) (.destroying order))
      rw [hm] at hwork
      refine ⟨.inl ⟨_, _, rfl⟩, ?_⟩
      simp only [Main.work] at hwork
      omega
    · cases hs
  case h_8 i todo hm =>
    cases hs
    have hwork := hmain (.destructor todo (.shutdown false))
    rw [hm] at hwork
    refine ⟨.inl ⟨_, _, rfl⟩, ?_⟩
    cases todo with
    | nil => simp only [Main.work, List.length_nil] at hwork; omega
    | cons j todo => simp only [Main.work, List.length_cons] at hwork; omega
  case h_9 i todo r rest hm =>
    obtain ⟨hr, -⟩ := h.destroy hm o
    rw [if_pos (List.contains_iff_mem.2 hr)] at hs
    obtain ⟨l, hl, hloops, hmain'⟩ : ∃ l : Loop Ptr, l = { s.loops i with state := (s.loops i).state.shutdownDestroy r o } ∧
        s'.loops = Function.update s.loops i l ∧ s'.main = .destructor (i :: todo) (.destroying rest) := by
      cases hs
      exact ⟨_, rfl, rfl, rfl⟩
    rw [Phase, hm] at hp
    obtain ⟨hpc, -, -⟩ := hp.2.2 _ rfl i rfl
    obtain ⟨-, hpc', halive, -, -⟩ := (h.ok i).sound.shutdownDestroy hpc hr o
    have hless : 1 + l.work = (s.loops i).work := by
      have hmem := (h.ok i).sound.core.registered r hr
      have hlen := List.length_erase_of_mem hmem
      have hpos := List.length_pos_of_mem hmem
      simp only [hl, Loop.work, hpc, hpc', halive]
      omega
    have hwork := State.work_update s s' hloops
    rw [hm, hmain'] at hwork
    refine ⟨.inl ⟨_, _, hmain'⟩, ?_⟩
    simp only [Main.work] at hwork
    omega
  case h_10 hm =>
    cases hs
    have hempty : s.activeSessions = ∅ := by
      by_contra hne
      have hundefined := hinv.phase
      simp only [Phase, State.setMain, if_neg hne] at hundefined
    have hwork := hmain .done
    rw [hm] at hwork
    rw [if_pos hempty]
    refine ⟨.inr (.inr (.inl rfl)), ?_⟩
    simp only [Main.work] at hwork
    omega
  all_goals cases hs

theorem step_work (h : Inv s) (he : Ending s) {a : Action n Ptr} (hs : step s a = some s') :
    Ending s' ∧ a.cost + s'.work ≤ s.work + a.gain := by
  have hno : s.main ≠ .accepting ∧ (∀ i r, s.main ≠ .created i r) ∧ ∀ i r, s.main ≠ .inserted i r := by
    rcases he with ⟨todo, stage, hm⟩ | hm | hm | hm <;> simp [hm]
  cases a with
  | create i r => simp [step, hno.1] at hs
  | threw | insert =>
    simp only [step] at hs
    split at hs
    · exact absurd ‹_› (hno.2.1 _ _)
    · cases hs
  | add ok =>
    simp only [step] at hs
    split at hs
    · exact absurd ‹_› (hno.2.2 _ _)
    · cases hs
  | leave => simp [step, hno.1] at hs
  | main order o => exact mainStep_work h he hs
  | stall =>
    simp only [step] at hs
    split at hs
    · cases hs
      refine ⟨.inr (.inr (.inr rfl)), ?_⟩
      show 0 + (0 + ∑ i, (s.loops i).work) ≤ s.main.work + ∑ i, (s.loops i).work + 0
      omega
    · cases hs
  | thread i a =>
    simp only [step, Option.map_eq_some_iff] at hs
    obtain ⟨l, hl, rfl⟩ := hs
    have hless := (h.ok i).step_work (h.told he i).quit hl
    have hwork := State.work_update s { s.setLoop i l with activeSessions := s.activeSessions \ deletes (s.loops i) a } rfl
    refine ⟨he, ?_⟩
    simp only [State.setLoop, Action.cost, Action.gain] at hwork ⊢
    omega
  | wakeup i v =>
    cases hs
    have hle := (s.loops i).work_write v
    have hwork := State.work_update s (s.setLoop i ((s.loops i).write v)) rfl
    refine ⟨he, ?_⟩
    simp only [State.setLoop, Action.cost, Action.gain] at hwork ⊢
    omega

/-! ## A step that can be taken -/

/-- A thread that was told to quit, and has not, has a next step. -/
theorem Loop.Ok.exists_step (h : l.Ok) (ht : l.Told) (hfree : l.stuck = false) (hpc : l.state.pc ≠ .quit) :
    ∃ a, (∀ batch, a ≠ .epollWait false batch) ∧ a ≠ .interrupted ∧ a ≠ .stall ∧ l.step a ≠ none := by
  have hstep : ∀ a, l.step a = l.act a := fun a => by rw [Loop.step, hfree]; rfl
  cases hp : l.state.pc with
  | quit => exact absurd hp hpc
  | waiting =>
    cases hin : l.inside with
    | false => exact ⟨.test, by simp, by simp, by simp, by simp [hstep, Loop.act, hp, hin, ht.quit]⟩
    | true =>
      exact ⟨.epollWait true [], by simp, by simp, by simp, by simp [hstep, Loop.act, hin, ht.edge hin, Deletion.step, hp, h.unused]⟩
  | events todo =>
    cases todo with
    | cons x todo => exact ⟨.run (.processEvents .returned), by simp, by simp, by simp, by simp [hstep, Loop.act, Deletion.step, hp]⟩
    | nil =>
      cases hw : l.wokeup with
      | true =>
        refine ⟨.eventfdRead, by simp, by simp, by simp, ?_⟩
        by_cases hc : l.counter = 0 <;> simp [hstep, Loop.act, hp, hw, hc]
      | false => exact ⟨.run (.copySessions []), by simp, by simp, by simp, by simp [hstep, Loop.act, Deletion.step, hp, hw]⟩
  | visiting w todo =>
    cases todo with
    | nil => exact ⟨.run .lockDeleteLater, by simp, by simp, by simp, by simp [hstep, Loop.act, Deletion.step, hp]⟩
    | cons r todo => exact ⟨.run (.wakeup .returned), by simp, by simp, by simp, by simp [hstep, Loop.act, Deletion.step, hp]⟩
  | checking w r todo =>
    exact ⟨.run (.nextTimeout false .returned), by simp, by simp, by simp, by simp [hstep, Loop.act, Deletion.step, hp]⟩
  | deleting todo =>
    cases todo with
    | nil => exact ⟨.run .clear, by simp, by simp, by simp, by simp [hstep, Loop.act, Deletion.step, hp]⟩
    | cons r todo => exact ⟨.run (.delete .returned), by simp, by simp, by simp, by simp [hstep, Loop.act, Deletion.step, hp]⟩

/-- `exec` is behind the accept loop, and no destructor is stuck. -/
def Behind (s : State n Ptr) : Prop :=
  match s.main with
  | .accepting | .created _ _ | .inserted _ _ | .stalled => False
  | .shutdown _ _ | .destructor _ _ | .activeSessions | .done | .undefined => True

/-- Behind the accept loop, as long as `exec` has not returned, it can go on or a thread it waits for can. -/
theorem Inv.exists_due (h : Inv s) (hm : Behind s) (hfree : ∀ i, (s.loops i).stuck = false) (hd : s.main ≠ .done) :
    ∃ a : Action n Ptr, a.Due ∧ step s a ≠ none := by
  have hp := h.phase
  rw [Behind] at hm
  cases hmain : s.main with
  | accepting | created | inserted | stalled => rw [hmain] at hm; exact hm.elim
  | done => exact absurd hmain hd
  | undefined => rw [Phase, hmain] at hp; exact hp.elim
  | activeSessions => exact ⟨.main [] .returned, trivial, by simp [step, mainStep, hmain]⟩
  | shutdown todo stored =>
    refine ⟨.main [] .returned, trivial, ?_⟩
    cases todo <;> cases stored <;> simp [step, mainStep, hmain]
  | destructor todo stage =>
    cases todo with
    | nil => exact ⟨.main [] .returned, trivial, by simp [step, mainStep, hmain]⟩
    | cons i todo =>
      cases stage with
      | shutdown stored =>
        refine ⟨.main [] .returned, trivial, ?_⟩
        cases stored <;> simp [step, mainStep, hmain]
      | destroying rest =>
        refine ⟨.main [] .returned, trivial, ?_⟩
        cases rest with
        | nil => simp [step, mainStep, hmain]
        | cons r rest =>
          simp only [step, mainStep, hmain]
          split <;> simp
      | joining =>
        by_cases hpc : (s.loops i).state.pc = .quit
        · exact ⟨.main (s.loops i).state.sessions .returned, trivial, by simp [step, mainStep, hmain, hpc]⟩
        · rw [Phase, hmain] at hp
          obtain ⟨a, hwait, hint, hstall, hne⟩ := (h.ok i).exists_step (hp.1 i) (hfree i) hpc
          refine ⟨.thread i a, ?_, by simpa [step] using hne⟩
          unfold Action.Due
          split <;> simp_all

/-- Behind the accept loop `exec` comes to its end if every coroutine that is resumed comes back: as long as it has not,
some thread can go on without waiting for any event but the writes of `shutdown`, and from the first destructor on there
are only so many steps to take. -/
theorem exec_returns (as : List (Action n Ptr)) (hadds : Runs.Along step Adds {} as) (s : State n Ptr)
    (hs : Runs.exec step {} as = some s) (hm : Behind s) :
    ((∀ i, (s.loops i).stuck = false) → (∀ a : Action n Ptr, a.Due → step s a = none) → s.main = .done) ∧
    ∀ todo stage, s.main = .destructor todo stage → ∀ bs t, Runs.exec step s bs = some t →
      (bs.map Action.cost).sum ≤ s.work + (bs.map Action.gain).sum := by
  have hinv : Inv s := Runs.exec_inv step_inv as inv_init hadds hs
  constructor
  · intro hfree hstuck
    by_contra hd
    obtain ⟨a, hdue, hne⟩ := hinv.exists_due hm hfree hd
    exact hne (hstuck a hdue)
  · intro todo stage hmain bs t ht
    have hstep : ∀ (s : State n Ptr) (a : Action n Ptr) (s' : State n Ptr), Inv s ∧ Ending s → step s a = some s' →
        (Inv s' ∧ Ending s') ∧ Action.cost a + s'.work ≤ s.work + Action.gain a := by
      rintro s a s' ⟨hi, he⟩ h
      obtain ⟨he', hle⟩ := step_work hi he h
      exact ⟨⟨step_inv s a s' hi (he.adds a) h, he'⟩, hle⟩
    obtain ⟨-, hle⟩ := Runs.exec_measure_le hstep bs ⟨hinv, .inl ⟨todo, stage, hmain⟩⟩ ht
    exact (Nat.le_add_right _ _).trans hle

/-- One loop sleeps in `epoll_wait`, with a session, when its destructor joins it. -/
theorem exec_returns_asleep :
    let as : List (Action 1 Nat) := [.create 0 ⟨0, 7⟩, .insert, .add true, .thread 0 .test, .leave, .main [] .returned,
      .main [] .returned, .main [] .returned, .main [] .returned, .main [] .returned]
    let bs : List (Action 1 Nat) := [.wakeup 0 7, .thread 0 (.epollWait true [])]
    ∃ s t : State 1 Nat, Runs.exec step {} as = some s ∧ s.main = .destructor [0] .joining ∧
      ((∀ a : Action 1 Nat, a.Due → step s a = none) → s.main = .done) ∧
      Runs.exec step s bs = some t ∧ (bs.map Action.cost).sum ≤ s.work + (bs.map Action.gain).sum := by
  intro as bs
  have hadds : Runs.Along step Adds ({} : State 1 Nat) as := by
    refine ⟨trivial, trivial, ?_, trivial, trivial, trivial, trivial, trivial, trivial, trivial, trivial⟩
    rintro i r h
    cases h
    exact List.mem_cons_self
  have h := exec_returns as hadds _ rfl trivial
  refine ⟨_, _, rfl, rfl, h.1 fun i => ?_, rfl, h.2 _ _ rfl bs _ rfl⟩
  rw [Subsingleton.elim i 0]
  rfl

-- a thread whose coroutine does not come back is joined in vain
example : ∃ s : State 1 Nat, Runs.exec step {} [.create 0 ⟨0, 7⟩, .insert, .add true, .thread 0 .test,
      .thread 0 (.epollWait false [(⟨0, 7⟩, { epollIn := true })]), .thread 0 .stall, .leave, .main [] .returned,
      .main [] .returned, .main [] .returned, .main [] .returned, .main [] .returned] = some s ∧
    s.main = .destructor [0] .joining ∧ (∀ order o, step s (.main order o) = none) ∧ ∀ a, step s (.thread 0 a) = none :=
  ⟨_, rfl, rfl, fun _ _ => rfl, fun _ => rfl⟩

end Getodac.Shutdown
