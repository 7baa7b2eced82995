import Getodac.Basic
import Getodac.Lib.Runs
/-!
# Connections, sessions and their count

`Server::exec` counts a connection and then builds a session for it, in three parts:
the base class, which registers the object with the server, the rest of the
constructor, and `initSession`. `serverSessionDeleted`, called by the destructor of
the base class on whatever thread, takes the object out of `m_activeSessions` under
one mutex and then the connection out of the count under another.

Between the two the count is one too high for the sessions that are left
(`counted_after_erase`). `counts_exactly` is what holds at every moment.

Sessions are objects in memory, at addresses that are used again. Memory holds fewer
of them than a `uint32_t` counts, since each has the stack of a coroutine.
-/

namespace Getodac.Counting

variable {Ptr Addr : Type} [DecidableEq Addr]

/-- A `BasicServerSession`. -/
structure Object (Ptr Addr : Type) where
  this : Ptr
  peerAddr : Addr
deriving DecidableEq, Repr

/-- Where the accept loop is. -/
inductive Accepting (Ptr Addr : Type) where
  | idle
  /-- The connection is counted, and the base class is not built. -/
  | counted (addr : Addr)
  /-- The base class is built; the constructor of `ServerSession` runs. -/
  | constructing (o : Object Ptr Addr)
  /-- It has thrown, and the destructor of the base class runs. -/
  | destroying (o : Object Ptr Addr)
deriving DecidableEq, Repr

structure State (Ptr Addr : Type) where
  /-- `m_connectionsPerIp`, of `uint32_t`. -/
  connectionsPerIp : Addr → Option Nat := fun _ => none
  activeSessions : Finset Ptr := ∅
  accepting : Accepting Ptr Addr := .idle
  /-- The objects whose base class is built and has not been taken out of `m_activeSessions`. -/
  live : List (Object Ptr Addr) := []
  /-- Those that `serverSessionDeleted` has taken out of it and not yet out of the count. -/
  leaving : List (Object Ptr Addr) := []
  /-- The assertion in `serverSessionDeleted` has failed. -/
  aborted : Bool := false

inductive Action (Ptr Addr : Type) where
  -- the accept loop
  | accept (addr : Addr)
  /-- The constructor of `BasicServerSession`, for an object at `this`. -/
  | create (this : Ptr)
  /-- The constructor of `ServerSession` returns. `initSession` may throw after it, and the object is then kept. -/
  | constructed
  | threw
  | destroyed
  -- `serverSessionDeleted`, its two critical sections
  | erase (o : Object Ptr Addr)
  | decrement (o : Object Ptr Addr)
deriving DecidableEq, Repr

/-! ## Counts and objects -/

def State.setEntry (s : State Ptr Addr) (addr : Addr) (entry : Option Nat) : State Ptr Addr :=
  { s with connectionsPerIp := Function.update s.connectionsPerIp addr entry }

def State.count (s : State Ptr Addr) (addr : Addr) : Nat := (s.connectionsPerIp addr).getD 0

theorem count_setEntry (s : State Ptr Addr) (addr : Addr) (entry : Option Nat) (x : Addr) :
    (s.setEntry addr entry).count x = if x = addr then entry.getD 0 else s.count x := by
  by_cases hx : x = addr
  · simp [State.count, State.setEntry, hx]
  · simp [State.count, State.setEntry, hx]

theorem positive_setEntry {s : State Ptr Addr} (h : ∀ x n, s.connectionsPerIp x = some n → 0 < n) {addr : Addr}
    {entry : Option Nat} (he : ∀ n, entry = some n → 0 < n) (x : Addr) (n : Nat)
    (hx : (s.setEntry addr entry).connectionsPerIp x = some n) : 0 < n := by
  by_cases heq : x = addr
  · subst heq
    exact he n (by simpa [State.setEntry] using hx)
  · exact h x n (by simpa [State.setEntry, heq] using hx)

/-- How many of the objects have this peer. -/
def peers (os : List (Object Ptr Addr)) (addr : Addr) : Nat := (os.map (·.peerAddr)).count addr

theorem peers_cons (o : Object Ptr Addr) (os : List (Object Ptr Addr)) (addr : Addr) :
    peers (o :: os) addr = peers os addr + if o.peerAddr = addr then 1 else 0 := by
  simp [peers, List.count_cons]

theorem peers_pos {o : Object Ptr Addr} {os : List (Object Ptr Addr)} (h : o ∈ os) : 0 < peers os o.peerAddr :=
  List.count_pos_iff.2 (List.mem_map_of_mem h)

theorem peers_le_length (os : List (Object Ptr Addr)) (addr : Addr) : peers os addr ≤ os.length := by
  rw [← List.length_map (f := (·.peerAddr))]
  exact List.count_le_length

/-- The objects in memory. -/
def State.objects (s : State Ptr Addr) : List (Object Ptr Addr) := s.live ++ s.leaving

/-! ## The steps -/

variable [DecidableEq Ptr]

def step (maxConnectionsPerIp capacity : Nat) (s : State Ptr Addr) : Action Ptr Addr → Option (State Ptr Addr)
  | .accept addr =>
    if s.accepting = .idle then
      -- `operator[]` makes an entry
      let count := (s.connectionsPerIp addr).getD 0
      if maxConnectionsPerIp < count then some (s.setEntry addr (some count))
      else some { s.setEntry addr (some (U32.inc count)) with accepting := .counted addr }
    else none
  | .create this =>
    match s.accepting with
    | .counted addr =>
      if s.objects.length < capacity ∧ this ∉ s.objects.map (·.this) then
        some { s with
          accepting := .constructing ⟨this, addr⟩
          live := ⟨this, addr⟩ :: s.live
          activeSessions := insert this s.activeSessions }
      else none
    | _ => none
  | .constructed =>
    match s.accepting with
    | .constructing _ => some { s with accepting := .idle }
    | _ => none
  | .threw =>
    match s.accepting with
    | .constructing o => some { s with accepting := .destroying o }
    | _ => none
  | .destroyed =>
    match s.accepting with
    | .destroying o => if o ∉ s.objects then some { s with accepting := .idle } else none
    | _ => none
  | .erase o =>
    if o ∈ s.live ∧ s.accepting ≠ .constructing o then
      some { s with
        live := s.live.erase o
        activeSessions := s.activeSessions.erase o.this
        leaving := o :: s.leaving }
    else none
  | .decrement o =>
    if o ∈ s.leaving then
      let s' := { s with leaving := s.leaving.erase o }
      match s.connectionsPerIp o.peerAddr with
      | none => some { s' with aborted := true }
      | some count => some (s'.setEntry o.peerAddr (if U32.dec count = 0 then none else some (U32.dec count)))
    else none

/-! ## What is counted -/

/-- One if the connection from this address is counted and has no object yet. -/
def Accepting.pending (a : Accepting Ptr Addr) (addr : Addr) : Nat := if a = .counted addr then 1 else 0

/-- The count of an address, with those that are being deleted. -/
def State.held (s : State Ptr Addr) (addr : Addr) : Nat :=
  peers s.live addr + peers s.leaving addr + s.accepting.pending addr

/-- The count is exact, entries are positive, `m_activeSessions` has the live sessions and only them, and
`serverSessionDeleted` finds the entry that it decrements. -/
structure Exact (s : State Ptr Addr) : Prop where
  count : ∀ addr, s.count addr = s.held addr
  positive : ∀ addr n, s.connectionsPerIp addr = some n → 0 < n
  active : s.activeSessions = (s.live.map (·.this)).toFinset
  found : ∀ o ∈ s.leaving, ∃ n, s.connectionsPerIp o.peerAddr = some n ∧ 0 < n
  asserted : s.aborted = false

theorem peers_erase {o : Object Ptr Addr} {os : List (Object Ptr Addr)} (h : o ∈ os) (addr : Addr) :
    peers (os.erase o) addr + (if o.peerAddr = addr then 1 else 0) = peers os addr := by
  rw [← peers_cons]
  exact (((List.perm_cons_erase h).map _).count_eq addr).symm

/-! ## What a step can do -/

inductive Takes (capacity : Nat) (s : State Ptr Addr) : State Ptr Addr → Prop where
  | refuse {addr : Addr} (h : 0 < s.count addr) : Takes capacity s (s.setEntry addr (some (s.count addr)))
  | accepted {addr : Addr} (h : s.accepting = .idle) :
      Takes capacity s { s.setEntry addr (some (U32.inc (s.count addr))) with accepting := .counted addr }
  | create {this : Ptr} {addr : Addr} (h : s.accepting = .counted addr) (hfit : s.objects.length < capacity)
      (hnew : this ∉ s.objects.map (·.this)) :
      Takes capacity s { s with
        accepting := .constructing ⟨this, addr⟩
        live := ⟨this, addr⟩ :: s.live
        activeSessions := insert this s.activeSessions }
  | goOn {a : Accepting Ptr Addr} (h : ∀ addr, s.accepting.pending addr = 0) (h' : ∀ addr, a.pending addr = 0) :
      Takes capacity s { s with accepting := a }
  | erase {o : Object Ptr Addr} (h : o ∈ s.live) :
      Takes capacity s { s with
        live := s.live.erase o
        activeSessions := s.activeSessions.erase o.this
        leaving := o :: s.leaving }
  | abort {o : Object Ptr Addr} (h : o ∈ s.leaving) (hnone : s.connectionsPerIp o.peerAddr = none) :
      Takes capacity s { s with leaving := s.leaving.erase o, aborted := true }
  | decrement {o : Object Ptr Addr} {n : Nat} (h : o ∈ s.leaving) (hsome : s.connectionsPerIp o.peerAddr = some n) :
      Takes capacity s (State.setEntry { s with leaving := s.leaving.erase o } o.peerAddr
        (if U32.dec n = 0 then none else some (U32.dec n)))

theorem step_takes {max capacity : Nat} {s s' : State Ptr Addr} {a : Action Ptr Addr} (h : step max capacity s a = some s') :
    Takes capacity s s' := by
  cases a with
  | accept addr =>
    simp only [step] at h
    split at h
    · rename_i hidle
      split at h
      · rename_i hmax
        cases h
        exact .refuse (Nat.zero_lt_of_lt hmax)
      · cases h
        exact .accepted hidle
    · cases h
  | create this =>
    simp only [step] at h
    split at h
    · rename_i addr hadm
      split at h
      · rename_i hc
        cases h
        exact .create hadm hc.1 hc.2
      · cases h
    · cases h
  | constructed =>
    simp only [step] at h
    split at h
    · rename_i o hacc
      cases h
      exact .goOn (by simp [hacc, Accepting.pending]) (by simp [Accepting.pending])
    · cases h
  | threw =>
    simp only [step] at h
    split at h
    · rename_i o hacc
      cases h
      exact .goOn (by simp [hacc, Accepting.pending]) (by simp [Accepting.pending])
    · cases h
  | destroyed =>
    simp only [step] at h
    split at h
    · rename_i o hacc
      split at h
      · cases h
        exact .goOn (by simp [hacc, Accepting.pending]) (by simp [Accepting.pending])
      · cases h
    · cases h
  | erase o =>
    simp only [step] at h
    split at h
    · rename_i hc
      cases h
      exact .erase hc.1
    · cases h
  | decrement o =>
    simp only [step] at h
    split at h
    · rename_i hmem
      split at h
      · cases h
        exact .abort hmem ‹_›
      · cases h
        exact .decrement hmem ‹_›
    · cases h

/-! ## The count is exact -/

structure Inv (capacity : Nat) (s : State Ptr Addr) : Prop where
  count : ∀ addr, s.count addr = s.held addr
  positive : ∀ addr n, s.connectionsPerIp addr = some n → 0 < n
  active : s.activeSessions = (s.live.map (·.this)).toFinset
  asserted : s.aborted = false
  -- objects are at different places, and fit into memory
  nodup : (s.objects.map (·.this)).Nodup
  fits : s.objects.length ≤ capacity

theorem inv_init (capacity : Nat) : Inv capacity ({} : State Ptr Addr) where
  count _ := rfl
  positive _ _ h := by cases h
  active := rfl
  asserted := rfl
  nodup := List.nodup_nil
  fits := Nat.zero_le _

variable {capacity : Nat} {s s' : State Ptr Addr}

theorem Inv.live_bound (h : Inv capacity s) (addr : Addr) : peers s.live addr + peers s.leaving addr ≤ capacity := by
  have h₁ := peers_le_length s.live addr
  have h₂ := peers_le_length s.leaving addr
  have h₃ := h.fits
  rw [State.objects, List.length_append] at h₃
  omega

theorem Inv.found (h : Inv capacity s) {o : Object Ptr Addr} (ho : o ∈ s.leaving) :
    ∃ n, s.connectionsPerIp o.peerAddr = some n ∧ 0 < n := by
  have hpos : 0 < s.count o.peerAddr := by
    rw [h.count, State.held]
    have := peers_pos ho
    omega
  cases he : s.connectionsPerIp o.peerAddr with
  | none => simp [State.count, he] at hpos
  | some n => exact ⟨n, rfl, h.positive _ n he⟩

theorem Inv.exact (h : Inv capacity s) : Exact s := ⟨h.count, h.positive, h.active, fun _ => h.found, h.asserted⟩

theorem pending_counted (addr x : Addr) : (Accepting.counted addr : Accepting Ptr Addr).pending x = if x = addr then 1 else 0 := by
  by_cases hx : x = addr
  · simp [Accepting.pending, hx]
  · simp [Accepting.pending, hx, Ne.symm hx]

theorem Inv.accepted (h : Inv capacity s) (hcap : capacity + 1 < U32.size) {addr : Addr} (hidle : s.accepting = .idle) :
    Inv capacity { s.setEntry addr (some (U32.inc (s.count addr))) with accepting := .counted addr } := by
  have hcount : ∀ x, s.count x = peers s.live x + peers s.leaving x := by
    intro x
    rw [h.count, State.held, hidle]
    rfl
  have hle := h.live_bound addr
  have hinc : U32.inc (s.count addr) = s.count addr + 1 := U32.inc_eq (by rw [hcount]; omega)
  refine ⟨fun x => ?_, ?_, h.active, h.asserted, h.nodup, h.fits⟩
  · refine (count_setEntry s addr _ x).trans ?_
    simp only [State.held, pending_counted, State.setEntry, ← hcount]
    by_cases hx : x = addr
    · rw [if_pos hx, if_pos hx, Option.getD_some, hinc, hx]
    · rw [if_neg hx, if_neg hx]
      rfl
  · exact positive_setEntry h.positive fun n hn => by
      rw [← Option.some.inj hn, hinc]
      omega

theorem Inv.create (h : Inv capacity s) {this : Ptr} {addr : Addr} (hacc : s.accepting = .counted addr)
    (hfit : s.objects.length < capacity) (hnew : this ∉ s.objects.map (·.this)) :
    Inv capacity { s with
      accepting := .constructing ⟨this, addr⟩
      live := ⟨this, addr⟩ :: s.live
      activeSessions := insert this s.activeSessions } := by
  refine ⟨fun x => ?_, h.positive, ?_, h.asserted, ?_, ?_⟩
  · have hc := h.count x
    rw [State.held, hacc, pending_counted] at hc
    refine hc.trans ?_
    simp only [State.held, peers_cons, Accepting.pending, reduceCtorEq, if_false, eq_comm (a := x)]
    omega
  · simp [h.active]
  · rw [State.objects, List.cons_append, List.map_cons, List.nodup_cons]
    exact ⟨hnew, h.nodup⟩
  · exact hfit

theorem Inv.erase (h : Inv capacity s) {o : Object Ptr Addr} (ho : o ∈ s.live) :
    Inv capacity { s with
      live := s.live.erase o
      activeSessions := s.activeSessions.erase o.this
      leaving := o :: s.leaving } := by
  have hperm : (s.live.erase o ++ o :: s.leaving).Perm s.objects :=
    List.perm_middle.trans ((List.perm_cons_erase ho).symm.append_right _)
  refine ⟨fun x => ?_, h.positive, ?_, h.asserted, ?_, ?_⟩
  · have hc := h.count x
    have hp := peers_erase ho x
    rw [State.held] at hc
    refine hc.trans ?_
    simp only [State.held, peers_cons]
    omega
  · -- no other live session is at the same place
    have hnd : (s.live.map (·.this)).Nodup := by
      have := h.nodup
      rw [State.objects, List.map_append] at this
      exact (List.nodup_append.1 this).1
    have hmap := List.perm_cons_erase ho |>.map (·.this)
    have hnot : o.this ∉ (s.live.erase o).map (·.this) := (List.nodup_cons.1 (hmap.nodup_iff.1 hnd)).1
    rw [h.active, List.toFinset_eq_of_perm _ _ hmap, List.map_cons, List.toFinset_cons, Finset.erase_insert]
    rwa [List.mem_toFinset]
  · exact ((hperm.map _).nodup_iff).2 h.nodup
  · exact hperm.length_eq.trans_le h.fits

theorem Inv.decrement (h : Inv capacity s) (hcap : capacity + 1 < U32.size) {o : Object Ptr Addr} {n : Nat}
    (ho : o ∈ s.leaving) (hsome : s.connectionsPerIp o.peerAddr = some n) :
    Inv capacity (State.setEntry { s with leaving := s.leaving.erase o } o.peerAddr
      (if U32.dec n = 0 then none else some (U32.dec n))) := by
  have hn : s.count o.peerAddr = n := by rw [State.count, hsome, Option.getD_some]
  have hpos := h.positive _ n hsome
  have hlt : n < U32.size := by
    have hc := h.count o.peerAddr
    have hle := h.live_bound o.peerAddr
    have hpend : s.accepting.pending o.peerAddr ≤ 1 := by
      unfold Accepting.pending
      split <;> omega
    rw [State.held] at hc
    omega
  have hdec : U32.dec n = n - 1 := U32.dec_eq hpos hlt
  have hentry : (if U32.dec n = 0 then none else some (U32.dec n)).getD 0 = n - 1 := by
    split
    · rw [Option.getD_none]
      omega
    · rw [Option.getD_some, hdec]
  have hsub : (s.leaving.erase o).Sublist s.leaving := List.erase_sublist
  refine ⟨fun x => ?_, ?_, h.active, h.asserted, ?_, ?_⟩
  · have hc := h.count x
    have hp := peers_erase ho x
    rw [State.held] at hc
    refine (count_setEntry { s with leaving := s.leaving.erase o } _ _ x).trans ?_
    simp only [State.held, State.setEntry]
    by_cases hx : x = o.peerAddr
    · rw [if_pos hx, hentry]
      rw [hx, hn] at hc
      rw [if_pos hx.symm] at hp
      rw [hx] at hp ⊢
      omega
    · rw [if_neg hx]
      rw [if_neg (Ne.symm hx), Nat.add_zero] at hp
      rw [hp]
      exact hc
  · exact positive_setEntry (s := { s with leaving := s.leaving.erase o }) h.positive fun m hm => by
      split at hm
      · cases hm
      · rw [← Option.some.inj hm]
        omega
  · exact h.nodup.sublist ((List.Sublist.append_left hsub _).map _)
  · exact (List.Sublist.append_left hsub s.live).length_le.trans h.fits

theorem step_inv (max : Nat) (hcap : capacity + 1 < U32.size) (s : State Ptr Addr) (a : Action Ptr Addr)
    (s' : State Ptr Addr) (h : Inv capacity s) (hs : step max capacity s a = some s') : Inv capacity s' := by
  cases step_takes hs with
  | @refuse addr hpos =>
    refine ⟨fun x => ?_, ?_, h.active, h.asserted, h.nodup, h.fits⟩
    · refine (count_setEntry s addr _ x).trans ?_
      split
      · rename_i hx
        rw [Option.getD_some, ← hx]
        exact h.count x
      · exact h.count x
    · exact positive_setEntry h.positive fun n hn => Option.some.inj hn ▸ hpos
  | accepted hidle => exact h.accepted hcap hidle
  | create hacc hfit hnew => exact h.create hacc hfit hnew
  | goOn hold hnew =>
    refine ⟨fun x => ?_, h.positive, h.active, h.asserted, h.nodup, h.fits⟩
    have hc := h.count x
    rw [State.held, hold] at hc
    rw [State.held, hnew]
    exact hc
  | erase ho => exact h.erase ho
  | abort ho hnone =>
    obtain ⟨n, hsome, -⟩ := h.found ho
    rw [hnone] at hsome
    cases hsome
  | decrement ho hsome => exact h.decrement hcap ho hsome

/-- At every moment of every run: the count of an address is the number of its live sessions, and of those that
`serverSessionDeleted` has taken out of `m_activeSessions` and not yet out of the count, and one more if the accept loop
has counted the address and not yet built the base class; entries are positive; `m_activeSessions` has the live
sessions; and the assertion holds where it is evaluated. -/
theorem counts_exactly (max capacity : Nat) (hcap : capacity + 1 < U32.size) (as : List (Action Ptr Addr)) :
    Runs.Always (step max capacity) Exact ({} : State Ptr Addr) as :=
  Runs.always_of_step (step_inv max hcap) (fun _ h => h.exact) as (inv_init capacity)

/-- A constructor throws while a second connection from the same address comes in. -/
theorem counts_thrown : Runs.Always (step 2 8) Exact ({} : State Nat Nat)
    [.accept 7, .create 0, .constructed, .accept 7, .create 1, .threw, .erase ⟨1, 7⟩, .erase ⟨0, 7⟩, .decrement ⟨1, 7⟩,
      .destroyed, .accept 7, .decrement ⟨0, 7⟩, .create 0] :=
  counts_exactly 2 8 (by decide) _

/-- The only session is out of `m_activeSessions`, its destructor still runs, and it is still counted. -/
theorem counted_after_erase :
    ∃ t, Runs.exec (step 2 8) ({} : State Nat Nat) [.accept 7, .create 0, .constructed, .erase ⟨0, 7⟩] = some t ∧
      t.count 7 = 1 ∧ peers t.live 7 = 0 ∧ t.accepting.pending 7 = 0 ∧ t.activeSessions = ∅ ∧ t.objects = [⟨0, 7⟩] :=
  ⟨_, rfl, by decide, by decide, by decide, by decide, by decide⟩

end Getodac.Counting
