import Getodac.Deletion
/-!
# No session is forgotten

A session that exists is in `m_sessions` or in `m_deleteLaterObjects` of its loop, so
the loop will still come to it (`step_kept`). When the loop is left
`m_deleteLaterObjects` is empty, and `~SessionsEventLoop` finds all sessions that are
left in `m_sessions`. `shutdownDestroy` is what it does with each of them: unlike the
loop, it deletes sessions whose coroutines are suspended.
-/

namespace Getodac.Deletion

variable {Ptr : Type} [DecidableEq Ptr] {s s' : State Ptr} {r : Ref Ptr}

/-! ## The code of a session -/

/-- What the code of a session does to the loop. -/
inductive Acts (r : Ref Ptr) (s : State Ptr) : State Ptr → Prop where
  | nothing : Acts r s s
  | deleteLater {s' : State Ptr} (h : Acts r s s') : Acts r s (s'.deleteLater r)
  | finish {s' : State Ptr} (h : Acts r s s') : Acts r s (s'.finish r)

theorem Acts.resume (h : Acts r s s') (o : Outcome) : Acts r s (s'.resume r o) := by
  cases o with
  | suspended => exact h
  | returned => exact h.finish
  | threw => exact h.deleteLater.finish

theorem Acts.quitIoLoop (h : Acts r s s') (o : Outcome) : Acts r s (s'.quitIoLoop r o) := by
  unfold State.quitIoLoop
  split
  · exact h
  · exact h.resume _

theorem Acts.timeout (h : Acts r s s') (o : Outcome) : Acts r s (s'.timeout r o) := (h.quitIoLoop o).deleteLater

theorem Acts.wakeup (h : Acts r s s') (o : Outcome) : Acts r s (s'.wakeup r o) := by
  unfold State.wakeup
  split
  · exact h.deleteLater
  · exact h.resume o

theorem Acts.processEvents (h : Acts r s s') (e : Events) (o : Outcome) : Acts r s (s'.processEvents r e o) := by
  unfold State.processEvents
  split
  · exact h.timeout o
  · split
    · exact h.wakeup o
    · exact h.deleteLater

theorem Acts.alive (h : Acts r s s') (hpc : s.pc.isDeleting = false) :
    s'.alive = s.alive ∧ s'.pc = s.pc ∧ s'.quit = s.quit := by
  induction h with
  | nothing => exact ⟨rfl, rfl, rfl⟩
  | deleteLater _ ih =>
    obtain ⟨ha, hp, hq⟩ := ih
    rw [deleteLater_eq (by rw [hp]; exact hpc)]
    have hquit : ∀ t : State Ptr, (t.unregisterSession r).quit = t.quit := fun t => by
      unfold State.unregisterSession
      split <;> rfl
    split <;> simp [ha, hp, hq, hquit]
  | finish _ ih => exact ih

/-! ## What is kept -/

/-- The sessions that will be deleted at the end of the iteration. -/
def State.pending (s : State Ptr) : List (Ref Ptr) :=
  match s.pc with
  | .deleting todo => todo
  | _ => s.deleteLaterObjects

structure Kept (s : State Ptr) : Prop where
  nodup : s.sessions.Nodup
  kept : ∀ t ∈ s.alive, t ∈ s.sessions ∨ t ∈ s.pending
  cleared : s.pc = .waiting → s.deleteLaterObjects = []

omit [DecidableEq Ptr] in
theorem pending_eq (hpc : s.pc.isDeleting = false) : s.pending = s.deleteLaterObjects := by
  unfold State.pending
  split
  · rename_i hd
    rw [hd] at hpc
    cases hpc
  · rfl

/-- `deleteLater` moves a session from one to the other. -/
theorem deleteLater_kept (hplace : (s.alive.map (·.ptr)).Nodup) (hreg : ∀ t ∈ s.sessions, t ∈ s.alive)
    (hlater : ∀ t ∈ s.deleteLaterObjects, t ∈ s.alive) (hr : r ∈ s.alive) (hpc : s.pc.isDeleting = false)
    (hn : s.sessions.Nodup) (hk : ∀ t ∈ s.alive, t ∈ s.sessions ∨ t ∈ s.deleteLaterObjects) :
    (s.deleteLater r).sessions.Nodup ∧ (∀ t ∈ (s.deleteLater r).sessions, t ∈ s.alive) ∧
    (∀ t ∈ (s.deleteLater r).deleteLaterObjects, t ∈ s.alive) ∧
    ∀ t ∈ s.alive, t ∈ (s.deleteLater r).sessions ∨ t ∈ (s.deleteLater r).deleteLaterObjects := by
  have hsame : ∀ t ∈ s.alive, t.ptr = r.ptr → t = r := fun t ht hp => List.inj_on_of_nodup_map hplace ht hr hp
  have hsessions : (s.deleteLater r).sessions = s.sessions.filter (·.ptr ≠ r.ptr) := by
    rw [deleteLater_eq hpc]
    split <;> exact unregisterSession_sessions s r
  have hin : r ∈ (s.deleteLater r).deleteLaterObjects ∧
      (∀ t ∈ s.deleteLaterObjects, t ∈ (s.deleteLater r).deleteLaterObjects) ∧
      ∀ t ∈ (s.deleteLater r).deleteLaterObjects, t = r ∨ t ∈ s.deleteLaterObjects := by
    rw [deleteLater_eq hpc]
    split
    · rename_i hold
      obtain ⟨t, ht, hp⟩ := hold
      rw [hsame t (hlater t ht) hp] at ht
      rw [unregisterSession_later]
      exact ⟨ht, fun _ => id, fun _ => .inr⟩
    · exact ⟨List.mem_cons_self, fun _ => List.mem_cons_of_mem _, fun _ => List.mem_cons.1⟩
  obtain ⟨hrin, hold, hnew⟩ := hin
  rw [hsessions]
  refine ⟨hn.filter _, fun t ht => hreg t (List.mem_filter.1 ht).1, fun t ht => ?_, fun t ht => ?_⟩
  · rcases hnew t ht with rfl | ht
    · exact hr
    · exact hlater t ht
  · by_cases htr : t = r
    · exact .inr (htr ▸ hrin)
    · rcases hk t ht with hs | hl
      · exact .inl (List.mem_filter.2 ⟨hs, decide_eq_true fun hp => htr (hsame t ht hp)⟩)
      · exact .inr (hold t hl)

theorem Acts.kept (h : Acts r s s') (hi : Idle s) (hr : r ∈ s.alive) (hpc : s.pc.isDeleting = false) (hk : Kept s) :
    s'.sessions.Nodup ∧ (∀ t ∈ s'.sessions, t ∈ s.alive) ∧ (∀ t ∈ s'.deleteLaterObjects, t ∈ s.alive) ∧
    ∀ t ∈ s.alive, t ∈ s'.sessions ∨ t ∈ s'.deleteLaterObjects := by
  induction h with
  | nothing =>
    refine ⟨hk.nodup, hi.registered, hi.later.alive, ?_⟩
    rw [← pending_eq hpc]
    exact hk.kept
  | @deleteLater t h ih =>
    obtain ⟨hn, hreg, hlater, hkept⟩ := ih
    obtain ⟨ha, hp, -⟩ := h.alive hpc
    rw [← ha] at hr hreg hlater hkept ⊢
    exact deleteLater_kept (ha ▸ hi.place) hreg hlater hr (hp ▸ hpc) hn hkept
  | finish _ ih => exact ih

/-- A session's code has run and the loop goes on. -/
theorem Kept.ran (h : Kept s) (hi : Idle s) (hr : r ∈ s.alive) (hpc : s.pc.isDeleting = false) (ha : Acts r s s')
    {pc : Pc Ptr} (hpc' : pc.isDeleting = false) (hw : pc ≠ .waiting) : Kept { s' with pc := pc } := by
  obtain ⟨hn, -, -, hk⟩ := ha.kept hi hr hpc h
  obtain ⟨halive, -, -⟩ := ha.alive hpc
  refine ⟨hn, fun t ht => ?_, fun he => absurd he hw⟩
  rw [pending_eq hpc']
  exact hk t (halive ▸ ht)

omit [DecidableEq Ptr] in
theorem Kept.setPc (h : Kept s) {pc : Pc Ptr} (hp : { s with pc := pc }.pending = s.pending) (hw : pc ≠ .waiting) :
    Kept { s with pc := pc } :=
  ⟨h.nodup, fun t ht => hp ▸ h.kept t ht, fun he => absurd he hw⟩

omit [DecidableEq Ptr] in
theorem Kept.register (h : Kept s) (hreg : ∀ t ∈ s.sessions, t ∈ s.alive) (hptr : ∀ t ∈ s.alive, t.ptr ≠ r.ptr) :
    Kept (s.register r) := by
  refine ⟨List.nodup_cons.2 ⟨fun hm => hptr r (hreg r hm) rfl, h.nodup⟩, fun t ht => ?_, h.cleared⟩
  rcases List.mem_cons.1 ht with rfl | ht
  · exact .inl List.mem_cons_self
  · rcases h.kept t ht with hs | hp
    · exact .inl (List.mem_cons_of_mem _ hs)
    · exact .inr hp

omit [DecidableEq Ptr] in
theorem Inv.core (h : Inv s) : Core s := by
  unfold Inv at h
  split at h
  · exact h.toCore
  · exact h.toCore
  · exact h.1.toCore
  · exact h.1.toCore
  · exact h.1.toCore
  · exact h.1

/-! ## What a step can do -/

/-- The code of `r` is called, and where the loop goes on. -/
inductive Visits (r : Ref Ptr) : Pc Ptr → Action Ptr → Pc Ptr → Prop where
  | processEvents {e : Events} {todo : List (Ref Ptr × Events)} {o : Outcome} :
      Visits r (.events ((r, e) :: todo)) (.processEvents o) (.events todo)
  | wakeup {w : List Ptr} {todo : List (Ref Ptr)} {o : Outcome} :
      Visits r (.visiting w (r :: todo)) (.wakeup o) (.checking w r todo)
  | nextTimeout {w : List Ptr} {todo : List (Ref Ptr)} {expired : Bool} {o : Outcome} :
      Visits r (.checking w r todo) (.nextTimeout expired o) (.visiting w todo)

inductive Takes (s : State Ptr) : Action Ptr → State Ptr → Prop where
  | register {r : Ref Ptr} (hid : ∀ t ∈ s.alive ++ s.deleted, t.id ≠ r.id) (hptr : ∀ t ∈ s.alive, t.ptr ≠ r.ptr) :
      Takes s (.registerSession r) (s.register r)
  | storeQuit : Takes s .storeQuit { s with quit := true }
  | leave {batch : List (Ref Ptr × Events)} (hpc : s.pc = .waiting) (hq : s.quit = true) :
      Takes s (.epollWait batch) { s with pc := .quit }
  | wait {batch : List (Ref Ptr × Events)} (hpc : s.pc = .waiting) (hb : ∀ x ∈ batch, x.1 ∈ s.epoll)
      (hn : (batch.map Prod.fst).Nodup) : Takes s (.epollWait batch) { s with pc := .events batch }
  | code {a : Action Ptr} {r : Ref Ptr} {t : State Ptr} {pc : Pc Ptr} (hr : r ∈ s.alive) (ha : Acts r s t)
      (hv : Visits r s.pc a pc) : Takes s a { t with pc := pc }
  | copy {w : List Ptr} (hpc : s.pc = .events []) : Takes s (.copySessions w) { s with pc := .visiting w s.sessions }
  | lock {w : List Ptr} (hpc : s.pc = .visiting w []) : Takes s .lockDeleteLater { s with pc := .deleting s.deleteLaterObjects }
  | delete {r : Ref Ptr} {todo : List (Ref Ptr)} {o : Outcome} (hpc : s.pc = .deleting (r :: todo)) (hr : r ∈ s.alive) :
      Takes s (.delete o) { s with alive := s.alive.erase r, deleted := r :: s.deleted, pc := .deleting todo }
  | clear (hpc : s.pc = .deleting []) : Takes s .clear { s with deleteLaterObjects := [], pc := .waiting }

theorem step_takes {a : Action Ptr} (hi : Inv s) (hs : step s a = some s') : Takes s a s' := by
  cases a with
  | registerSession r =>
    simp only [step] at hs
    split at hs
    · rename_i hnew
      cases hs
      exact .register hnew.1 hnew.2
    · cases hs
  | storeQuit =>
    cases hs
    exact .storeQuit
  | epollWait batch =>
    simp only [step] at hs
    split at hs
    · rename_i hpc
      split at hs
      · cases hs
        exact .leave hpc ‹_›
      · split at hs
        · rename_i hbatch
          cases hs
          exact .wait hpc (fun x hx => (hbatch.1 x hx).1) hbatch.2
        · cases hs
    · cases hs
  | processEvents o =>
    simp only [step] at hs
    split at hs
    · rename_i r e todo hpc
      cases hs
      obtain ⟨-, htodo⟩ : Idle s ∧ _ := by simpa only [Inv, hpc] using hi
      have hr := (htodo (r, e) List.mem_cons_self).1
      rw [call_alive hr]
      exact .code hr (Acts.nothing.processEvents e o) (by rw [hpc]; exact .processEvents)
    · cases hs
  | copySessions w =>
    simp only [step] at hs
    split at hs
    · cases hs
      exact .copy ‹_›
    · cases hs
  | wakeup o =>
    simp only [step] at hs
    split at hs
    · rename_i w r todo hpc
      cases hs
      obtain ⟨-, htodo⟩ : Idle s ∧ _ := by simpa only [Inv, hpc] using hi
      have hr := htodo r List.mem_cons_self
      rw [call_alive hr]
      refine .code hr ?_ (by rw [hpc]; exact .wakeup)
      split
      · exact Acts.nothing.wakeup o
      · exact .nothing
    · cases hs
  | nextTimeout expired o =>
    simp only [step] at hs
    split at hs
    · rename_i w r todo hpc
      cases hs
      obtain ⟨-, htodo⟩ : Idle s ∧ _ := by simpa only [Inv, hpc] using hi
      have hr := htodo r List.mem_cons_self
      rw [call_alive hr]
      refine .code hr ?_ (by rw [hpc]; exact .nextTimeout)
      split
      · exact Acts.nothing.timeout o
      · exact .nothing
    · cases hs
  | lockDeleteLater =>
    simp only [step] at hs
    split at hs
    · cases hs
      exact .lock ‹_›
    · cases hs
  | delete o =>
    simp only [step] at hs
    split at hs
    · rename_i r todo hpc
      cases hs
      obtain ⟨hcore, hdel⟩ : Core s ∧ Deletable s (r :: todo) := by simpa only [Inv, hpc] using hi
      have hr := hdel.alive r List.mem_cons_self
      rw [call_alive hr, destroy_eq hcore hdel]
      exact .delete hpc hr
    · cases hs
  | clear =>
    simp only [step] at hs
    split at hs
    · cases hs
      exact .clear ‹_›
    · cases hs

omit [DecidableEq Ptr] in
theorem Visits.pc {p q : Pc Ptr} {a : Action Ptr} (h : Visits r p a q) :
    p.isDeleting = false ∧ q.isDeleting = false ∧ p ≠ .waiting ∧ q ≠ .waiting ∧ p ≠ .quit ∧ q ≠ .quit := by
  cases h <;> exact ⟨rfl, rfl, by simp, by simp, by simp, by simp⟩

omit [DecidableEq Ptr] in
theorem Inv.idle (h : Inv s) (hpc : s.pc.isDeleting = false) : Idle s := by
  unfold Inv at h
  split at h
  · exact h
  · exact h
  · exact h.1
  · exact h.1
  · exact h.1
  · rename_i hd
    rw [hd] at hpc
    cases hpc

theorem step_kept (s : State Ptr) (a : Action Ptr) (s' : State Ptr) (hi : Inv s) (h : Kept s) (hs : step s a = some s') :
    Kept s' := by
  cases step_takes hi hs with
  | register _ hptr => exact h.register hi.core.registered hptr
  | storeQuit => exact ⟨h.nodup, h.kept, h.cleared⟩
  | leave hpc _ => exact h.setPc (pending_eq (by rw [hpc]; rfl)).symm (by simp)
  | wait hpc _ _ => exact h.setPc (pending_eq (by rw [hpc]; rfl)).symm (by simp)
  | code hr ha hv =>
    obtain ⟨hp, hq, -, hw, -⟩ := hv.pc
    exact h.ran (hi.idle hp) hr hp ha hq hw
  | copy hpc => exact h.setPc (pending_eq (by rw [hpc]; rfl)).symm (by simp)
  | lock hpc => exact h.setPc (pending_eq (by rw [hpc]; rfl)).symm (by simp)
  | @delete r todo _ hpc _ =>
    refine ⟨h.nodup, fun t ht => ?_, fun he => by cases he⟩
    obtain ⟨htr, ht⟩ := hi.core.place.of_map.mem_erase_iff.1 ht
    have hk := h.kept t ht
    simp only [State.pending, hpc] at hk
    exact hk.imp_right fun hp => (List.mem_cons.1 hp).resolve_left htr
  | clear hpc =>
    refine ⟨h.nodup, fun t ht => ?_, fun _ => rfl⟩
    have hk := h.kept t ht
    simpa only [State.pending, hpc] using hk

/-! ## From the end of the loop on -/

/-- `registerSession` up to the call of `epoll_ctl`. -/
def State.insert (s : State Ptr) (r : Ref Ptr) : State Ptr := { s.register r with epoll := s.epoll }

/-- `EPOLL_CTL_ADD`. -/
def State.add (s : State Ptr) (r : Ref Ptr) : State Ptr := { s with epoll := r :: s.epoll }

/-- `~ServerSession`, where the coroutine may be suspended. -/
def State.shutdownDestroy (s : State Ptr) (r : Ref Ptr) (o : Outcome) : State Ptr :=
  let s := (s.quitIoLoop r o).unregisterSession r
  { s with alive := s.alive.erase r, deleted := r :: s.deleted }

/-- What holds of a loop until it is destroyed. -/
structure Sound (s : State Ptr) : Prop where
  core : Core s
  running : s.pc ≠ .quit → Inv s ∧ Kept s
  left : s.pc = .quit → s.sessions.Nodup ∧ ∀ t ∈ s.alive, t ∈ s.sessions

omit [DecidableEq Ptr] in
theorem sound_init : Sound ({} : State Ptr) where
  core := inv_init.core
  running := fun _ => ⟨inv_init, List.nodup_nil, by simp, fun _ => rfl⟩
  left := fun h => by cases h

theorem Sound.step (h : Sound s) {a : Action Ptr} (hs : Deletion.step s a = some s') (hpc : s.pc ≠ .quit)
    (hpc' : s'.pc ≠ .quit) : Sound s' := by
  obtain ⟨hi, hk⟩ := h.running hpc
  have hi' := step_inv s a s' hi hs
  exact ⟨hi'.core, fun _ => ⟨hi', step_kept s a s' hi hk hs⟩, fun he => absurd he hpc'⟩

omit [DecidableEq Ptr] in
/-- The loop is left. -/
theorem Sound.leave (h : Sound s) (hpc : s.pc = .waiting) : Sound { s with pc := .quit } := by
  obtain ⟨-, hk⟩ := h.running (by simp [hpc])
  refine ⟨h.core.set .quit s.quit, fun he => absurd rfl he, fun _ => ⟨hk.nodup, fun t ht => ?_⟩⟩
  have hkept := hk.kept t ht
  rw [pending_eq (by rw [hpc]; rfl), hk.cleared hpc] at hkept
  exact hkept.resolve_right (by simp)

omit [DecidableEq Ptr] in
theorem Sound.register (h : Sound s) (hid : ∀ t ∈ s.alive ++ s.deleted, t.id ≠ r.id)
    (hptr : ∀ t ∈ s.alive, t.ptr ≠ r.ptr) : Sound (s.register r) := by
  refine ⟨h.core.register hid hptr, fun hpc => ?_, fun hpc => ?_⟩
  · obtain ⟨hi, hk⟩ := h.running hpc
    exact ⟨hi.register hid hptr, hk.register h.core.registered hptr⟩
  · obtain ⟨hn, hk⟩ := h.left hpc
    refine ⟨List.nodup_cons.2 ⟨fun hm => hptr r (h.core.registered r hm) rfl, hn⟩, ?_⟩
    exact List.forall_mem_cons.2 ⟨List.mem_cons_self, fun t ht => List.mem_cons_of_mem _ (hk t ht)⟩

omit [DecidableEq Ptr] in
/-- It makes no difference about which of the sessions `epoll_wait` reports. -/
theorem Sound.reported (h : Sound s) {epoll : List (Ref Ptr)} (he : ∀ t ∈ epoll, t ∈ s.sessions) :
    Sound { s with epoll := epoll } := by
  have hcore : Core s → Core { s with epoll := epoll } := fun h =>
    ⟨h.faults, h.once, h.place, h.fresh, h.registered, he⟩
  have hdel : ∀ {rs}, Deletable s rs → Deletable { s with epoll := epoll } rs := fun h =>
    ⟨h.nodup, h.alive, h.finished, h.unregistered⟩
  have hidle : Idle s → Idle { s with epoll := epoll } := fun h => ⟨hcore h.toCore, hdel h.later⟩
  refine ⟨hcore h.core, fun hpc => ?_, h.left⟩
  obtain ⟨hi, hk⟩ := h.running hpc
  refine ⟨?_, hk.nodup, hk.kept, hk.cleared⟩
  unfold Inv at hi ⊢
  dsimp only
  split at hi
  · exact hidle hi
  · exact hidle hi
  · exact ⟨hidle hi.1, hi.2⟩
  · exact ⟨hidle hi.1, hi.2⟩
  · exact ⟨hidle hi.1, hi.2⟩
  · exact ⟨hcore hi.1, hdel hi.2⟩

omit [DecidableEq Ptr] in
theorem Sound.insert (h : Sound s) (hid : ∀ t ∈ s.alive ++ s.deleted, t.id ≠ r.id)
    (hptr : ∀ t ∈ s.alive, t.ptr ≠ r.ptr) : Sound (s.insert r) :=
  (h.register hid hptr).reported fun t ht => List.mem_cons_of_mem _ (h.core.reported t ht)

omit [DecidableEq Ptr] in
theorem Sound.add (h : Sound s) (hr : r ∈ s.sessions) : Sound (s.add r) :=
  h.reported (List.forall_mem_cons.2 ⟨hr, h.core.reported⟩)

@[simp] theorem unregisterSession_deleted (s : State Ptr) (r : Ref Ptr) : (s.unregisterSession r).deleted = s.deleted := by
  unfold State.unregisterSession
  split <;> rfl

/-- A registered session unregisters only itself. -/
theorem Core.mem_unregisterSession (h : Core s) (hr : r ∈ s.alive) (t : Ref Ptr) :
    t ∈ (s.unregisterSession r).sessions ↔ t ≠ r ∧ t ∈ s.sessions := by
  rw [unregisterSession_sessions, List.mem_filter]
  constructor
  · rintro ⟨hm, hne⟩
    exact ⟨fun he => of_decide_eq_true hne (by rw [he]), hm⟩
  · rintro ⟨htr, hm⟩
    exact ⟨hm, decide_eq_true fun he => htr (h.eq_of_ptr (h.registered t hm) hr he)⟩

/-- Outside of the loop over `m_deleteLaterObjects` the code of a session faults nothing and unregisters at most itself. -/
theorem Acts.core (h : Acts r s s') (hc : Core s) (hr : r ∈ s.alive) (hpc : s.pc.isDeleting = false) :
    Core s' ∧ s'.deleted = s.deleted ∧ s'.sessions.Sublist s.sessions ∧ ∀ t ≠ r, t ∈ s'.sessions ↔ t ∈ s.sessions := by
  induction h with
  | nothing => exact ⟨hc, rfl, List.Sublist.refl _, fun _ _ => Iff.rfl⟩
  | @deleteLater t h ih =>
    obtain ⟨ht, hdel, hsub, hothers⟩ := ih
    obtain ⟨ha, hp, -⟩ := h.alive hpc
    have hr' : r ∈ t.alive := ha ▸ hr
    have hcore := ht.unregisterSession hr'
    have hsub' : (t.unregisterSession r).sessions.Sublist s.sessions := by
      rw [unregisterSession_sessions]
      exact List.filter_sublist.trans hsub
    have hothers' : ∀ u ≠ r, u ∈ (t.unregisterSession r).sessions ↔ u ∈ s.sessions := by
      intro u hu
      rw [ht.mem_unregisterSession hr', hothers u hu]
      exact ⟨And.right, fun hm => ⟨hu, hm⟩⟩
    rw [deleteLater_eq (by rw [hp]; exact hpc)]
    split
    · exact ⟨hcore, by simp [hdel], hsub', hothers'⟩
    · exact ⟨⟨hcore.faults, hcore.once, hcore.place, hcore.fresh, hcore.registered, hcore.reported⟩, by simp [hdel], hsub',
        hothers'⟩
  | finish _ ih => exact ⟨⟨ih.1.faults, ih.1.once, ih.1.place, ih.1.fresh, ih.1.registered, ih.1.reported⟩, ih.2⟩

/-- A session that is not registered is deleted. -/
theorem Core.erase (h : Core s) (hr : r ∈ s.alive) (hn : r ∉ s.sessions) :
    Core { s with alive := s.alive.erase r, deleted := r :: s.deleted } := by
  have hnd : s.alive.Nodup := h.place.of_map
  refine ⟨h.faults, ?_, ?_, fun t ht hm => ?_, fun t ht => ?_, h.reported⟩
  · exact List.nodup_cons.2 ⟨h.fresh r hr, h.once⟩
  · exact h.place.sublist (List.erase_sublist.map _)
  · obtain ⟨htr, ht⟩ := hnd.mem_erase_iff.1 ht
    exact h.fresh t ht ((List.mem_cons.1 hm).resolve_left htr)
  · refine hnd.mem_erase_iff.2 ⟨?_, h.registered t ht⟩
    rintro rfl
    exact hn ht

/-- `~SessionsEventLoop` deletes a session: exactly this one is gone, from `m_sessions` too. -/
theorem Sound.shutdownDestroy (h : Sound s) (hpc : s.pc = .quit) (hr : r ∈ s.sessions) (o : Outcome) :
    Sound (s.shutdownDestroy r o) ∧ (s.shutdownDestroy r o).pc = .quit ∧
    (s.shutdownDestroy r o).alive = s.alive.erase r ∧ (s.shutdownDestroy r o).deleted = r :: s.deleted ∧
    ∀ t, t ∈ (s.shutdownDestroy r o).sessions ↔ t ≠ r ∧ t ∈ s.sessions := by
  have hdel : s.pc.isDeleting = false := by rw [hpc]; rfl
  have halive := h.core.registered r hr
  have hacts : Acts r s (s.quitIoLoop r o) := Acts.nothing.quitIoLoop o
  obtain ⟨hc, hd, hsub, hothers⟩ := hacts.core h.core halive hdel
  obtain ⟨ha, hp, -⟩ := hacts.alive hdel
  have hr' : r ∈ (s.quitIoLoop r o).alive := ha ▸ halive
  have hsessions : ∀ t, t ∈ ((s.quitIoLoop r o).unregisterSession r).sessions ↔ t ≠ r ∧ t ∈ s.sessions := by
    intro t
    rw [hc.mem_unregisterSession hr']
    exact and_congr_right fun htr => hothers t htr
  have hpc' : (s.shutdownDestroy r o).pc = .quit := by
    show ((s.quitIoLoop r o).unregisterSession r).pc = .quit
    rw [unregisterSession_pc, hp, hpc]
  have halive' : (s.shutdownDestroy r o).alive = s.alive.erase r := by
    show ((s.quitIoLoop r o).unregisterSession r).alive.erase r = _
    rw [unregisterSession_alive, ha]
  have hcore : Core (s.shutdownDestroy r o) :=
    (hc.unregisterSession hr').erase (by rwa [unregisterSession_alive]) fun hm => ((hsessions r).1 hm).1 rfl
  obtain ⟨hnodup, hkept⟩ := h.left hpc
  refine ⟨⟨hcore, fun he => absurd hpc' he, fun _ => ⟨?_, fun t ht => ?_⟩⟩, hpc', halive', ?_, hsessions⟩
  · show ((s.quitIoLoop r o).unregisterSession r).sessions.Nodup
    rw [unregisterSession_sessions]
    exact (hnodup.sublist hsub).filter _
  · rw [halive'] at ht
    obtain ⟨htr, ht⟩ := h.core.place.of_map.mem_erase_iff.1 ht
    exact (hsessions t).2 ⟨htr, hkept t ht⟩
  · show r :: ((s.quitIoLoop r o).unregisterSession r).deleted = _
    rw [unregisterSession_deleted, hd]

end Getodac.Deletion
