import Getodac.Basic
import Getodac.Lib.Components
import Getodac.Lib.Versions
import Getodac.LruCache
/-!
# What the static content plugin serves

`static_content_session` takes `s_filesCacheMutex`, looks up the file in `s_filesCache`,
compares the time of its last write with that of the file, maps it anew if they differ,
and keeps the lock and its pointer to the map until it has sent everything. A timer goes
through the cache once a minute and erases the maps that nobody else points to. Files
go away, or are replaced by others with a later write time, at any moment; none is
changed in place.

`serves_current`: what is sent is what was in the file at some moment since the session
took the lock. `sweep_empties`: a map that the timer finds in the cache is never in
use, so every sweep empties the cache.
-/

namespace Getodac.CachedFiles

open Versions (Store Stamped)

variable {n : Nat} {Key : Type} [DecidableEq Key]

/-! ## The model -/

structure FileMap where
  lastWriteTime : Nat
  data : Bytes
deriving DecidableEq, Repr

/-- Where a session is in the handler. A `FileMapPtr` is the number of the map, `none` if it is null. -/
inductive Pc (Key : Type) where
  /-- It does not own the lock. -/
  | outside
  | locked (p : Key)
  /-- `s_filesCache.value` has returned. -/
  | found (p : Key) (file : Option Nat)
  /-- In the constructor of a `FileMap` for the write time `t`. -/
  | making (p : Key) (file : Option Nat) (t : Nat)
  /-- The file is not empty. -/
  | sized (p : Key) (file : Option Nat) (t : Nat)
  /-- Before `s_filesCache.put`. -/
  | made (p : Key) (file : Nat)
  /-- In `stream << res` and `stream.write`. -/
  | serving (p : Key) (file : Nat)
deriving DecidableEq, Repr

/-- The local variable `file`. -/
def Pc.file : Pc Key → Option Nat
  | .outside | .locked _ => none
  | .found _ file | .making _ file _ | .sized _ file _ => file
  | .made _ file | .serving _ file => some file

inductive Owner (n : Nat) where
  | session (i : Fin n)
  | timer
deriving DecidableEq, Repr

structure State (n : Nat) (Key : Type) where
  /-- The files, each with the time of its last write. -/
  files : Store Key Bytes := {}
  /-- The maps that were made. -/
  maps : List FileMap := []
  cache : LruCache Key (Option Nat) := { cacheSize := 100 }
  /-- Who owns `s_filesCacheMutex`. -/
  owner : Option (Owner n) := none
  pc : Fin n → Pc Key := fun _ => .outside
  /-- History: when a session took the lock last. -/
  since : Fin n → Nat := fun _ => 0

inductive Action (n : Nat) (Key : Type) where
  -- anybody
  | write (p : Key) (contents : Bytes)
  | remove (p : Key)
  -- a session
  | lock (i : Fin n) (p : Key)
  | value (i : Fin n)
  | lastWriteTime (i : Fin n)
  | fileSize (i : Fin n)
  | map (i : Fin n)
  | put (i : Fin n)
  /-- The handler returns, or something in it throws. -/
  | leave (i : Fin n)
  -- the timer
  | timerLock
  | sweep
  | timerUnlock
deriving DecidableEq, Repr

namespace State

def move (s : State n Key) (i : Fin n) (pc : Pc Key) : State n Key := { s with pc := Function.update s.pc i pc }

/-- The handler is left: `file` goes, and then the lock. -/
def left (s : State n Key) (i : Fin n) : State n Key := { s.move i .outside with owner := none }

/-- `std::make_shared<FileMap>`, and the assignment to `file`. -/
def make (s : State n Key) (i : Fin n) (p : Key) (m : FileMap) : State n Key :=
  { s.move i (.made p s.maps.length) with maps := s.maps ++ [m] }

/-- How many pointers there are to a map: those in the cache, and the variables of the sessions. -/
def useCount (s : State n Key) (items : List (Node Key (Option Nat))) : Option Nat → Nat
  | none => 0
  | some id => items.countP (·.second = some id) + ∑ i, if (s.pc i).file = some id then 1 else 0

/-- The loop of the timer, from an iterator on. -/
def sweepLoop (s : State n Key) : List Nat → LruCache Key (Option Nat) → Option (LruCache Key (Option Nat))
  | [], c => some c
  | it :: its, c =>
    match c.cacheItems.find? (·.id = it) with
    | none => none
    | some node =>
      if s.useCount c.cacheItems node.second = 1 then (c.erase it).bind fun r => sweepLoop s its r.1
      else sweepLoop s its c

end State

def step (s : State n Key) : Action n Key → Option (State n Key)
  | .write p contents => some { s with files := s.files.change p (some contents) }
  | .remove p => some { s with files := s.files.change p none }
  | .lock i p =>
    if s.pc i = .outside ∧ s.owner = none then
      some { s.move i (.locked p) with
        owner := some (.session i)
        since := Function.update s.since i s.files.clock }
    else none
  | .value i =>
    match s.pc i with
    | .locked p =>
      (s.cache.value p).bind fun r =>
        match r.2 with
        | .value file => some { s.move i (.found p file) with cache := r.1 }
        | _ => none
    | _ => none
  | .lastWriteTime i =>
    match s.pc i with
    | .found p file =>
      match s.files.current p with
      | none => some (s.left i)
      | some f =>
        match file with
        | none => some (s.move i (.making p file f.time))
        | some id =>
          match s.maps[id]? with
          | none => none
          | some m =>
            some (s.move i (if m.lastWriteTime = f.time then .serving p id else .making p file f.time))
    | _ => none
  | .fileSize i =>
    match s.pc i with
    | .making p file t =>
      match s.files.current p with
      | none => some (s.left i)
      | some f => if f.value = [] then some (s.make i p ⟨t, []⟩) else some (s.move i (.sized p file t))
    | _ => none
  | .map i =>
    match s.pc i with
    | .sized p _ t =>
      match s.files.current p with
      | none => some (s.left i)
      -- an empty file cannot be mapped
      | some f => if f.value = [] then some (s.left i) else some (s.make i p ⟨t, f.value⟩)
    | _ => none
  | .put i =>
    match s.pc i with
    | .made p file => (s.cache.put p (some file)).map fun c => { s.move i (.serving p file) with cache := c }
    | _ => none
  | .leave i => if s.pc i = .outside then none else some (s.left i)
  | .timerLock => if s.owner = none then some { s with owner := some .timer } else none
  | .sweep =>
    if s.owner = some .timer then
      (s.sweepLoop (s.cache.cacheItems.map (·.id)) s.cache).map fun c => { s with cache := c }
    else none
  | .timerUnlock => if s.owner = some .timer then some { s with owner := none } else none

/-! ## The cache -/

section Cache

variable {c : LruCache Key (Option Nat)}

/-- A look-up changes the order of the entries only, and finds what is under the key or nothing. -/
theorem value_spec (h : c.Linked) (p : Key) : ∃ c' file, c.value p = some (c', .value file) ∧ c'.Linked ∧
    c'.cacheSize = c.cacheSize ∧ c'.cacheItems.Perm c.cacheItems ∧
    ∀ id ∈ file, ∃ node ∈ c.cacheItems, node.first = p ∧ node.second = some id := by
  unfold LruCache.value LruCache.touch
  cases hl : c.cacheHash.lookup p with
  | none => exact ⟨c, none, rfl, h, rfl, .refl _, nofun⟩
  | some it =>
    obtain ⟨node, hnode, rfl, rfl⟩ := (h.lookup_iff p it).1 hl
    have hsplice : LruCache.splice node.id c.cacheItems = some (node, node :: LruCache.others node.first c.cacheItems) := by
      rw [LruCache.splice, h.find_eq hnode, h.erase_eq hnode]
      rfl
    dsimp only
    rw [hsplice]
    exact ⟨_, node.second, rfl, h.perm (h.perm_front hnode), rfl, h.perm_front hnode,
      fun id hid => ⟨node, hnode, rfl, hid⟩⟩

/-- The first entry is erased. -/
theorem erase_first (h : c.Linked) {node : Node Key (Option Nat)} {rest : List (Node Key (Option Nat))}
    (hitems : c.cacheItems = node :: rest) : ∃ c' a, c.erase node.id = some (c', a) ∧ c'.Linked ∧ c'.cacheItems = rest := by
  obtain ⟨c', a, herase, hlinked, -⟩ := LruCache.erase_eq h (show node ∈ c.cacheItems by simp [hitems])
  refine ⟨c', a, herase, hlinked, ?_⟩
  have hfind : c.cacheItems.find? (·.id = node.id) = some node := by simp [hitems]
  rw [LruCache.erase, hfind] at herase
  simp only [LruCache.eraseNode, hitems, List.map_cons, List.mem_cons, true_or, if_true, Option.map_some,
    Option.some.injEq, Prod.mk.injEq] at herase
  rw [← herase.1]
  simp

end Cache

/-! ## What a map is -/

variable (files : Store Key Bytes)

/-- Mapped from the file when it was written at `m.lastWriteTime`, or later. -/
def MapOf (p : Key) (m : FileMap) : Prop :=
  ∃ c ≤ files.clock, ∃ e, files.past c p = some e ∧ e.value = m.data ∧ m.lastWriteTime ≤ e.time

/-- The contents that the file had at a moment since then. -/
def Since (start : Nat) (p : Key) (data : Bytes) : Prop :=
  ∃ c, start ≤ c ∧ c ≤ files.clock ∧ ∃ e, files.past c p = some e ∧ e.value = data

/-- The entries of the cache. Each map is there once. -/
structure Stored (maps : List FileMap) (cache : LruCache Key (Option Nat)) : Prop where
  linked : cache.Linked
  fits : cache.entries.entries.length ≤ cache.cacheSize
  mapped : ∀ e ∈ cache.entries.entries, ∃ id m, e.2 = some id ∧ maps[id]? = some m ∧ MapOf files e.1 m
  distinct : (cache.entries.entries.map (·.2)).Nodup

/-- What a session knows, which took the lock at `start`. -/
def Knows (maps : List FileMap) (cache : LruCache Key (Option Nat)) (start : Nat) : Pc Key → Prop
  | .outside | .locked _ => True
  | .found p file => ∀ id ∈ file, ∃ m, maps[id]? = some m ∧ MapOf files p m
  | .making p _ t | .sized p _ t => ∃ c, start ≤ c ∧ c ≤ files.clock ∧ ∃ e, files.past c p = some e ∧ e.time = t
  | .made p id => (∃ m, maps[id]? = some m ∧ MapOf files p m ∧ Since files start p m.data) ∧
      some id ∉ cache.entries.entries.map (·.2)
  | .serving p id => ∃ m, maps[id]? = some m ∧ Since files start p m.data

structure Inv (s : State n Key) : Prop where
  steady : s.files.Steady
  stored : Stored s.files s.maps s.cache
  owner : ∀ i, s.pc i ≠ .outside ↔ s.owner = some (.session i)
  since : ∀ i, s.since i ≤ s.files.clock
  knows : ∀ i, Knows s.files s.maps s.cache (s.since i) (s.pc i)

variable {files} {maps : List FileMap} {cache : LruCache Key (Option Nat)} {start : Nat} {s s' : State n Key}

/-! ## Files change -/

theorem MapOf.change {p : Key} {m : FileMap} (h : MapOf files p m) (k : Key) (v : Option Bytes) :
    MapOf (files.change k v) p m := by
  obtain ⟨c, hc, e, he, hrest⟩ := h
  exact ⟨c, hc.trans (Nat.le_succ _), e, by rw [files.change_past k v hc, he], hrest⟩

theorem Since.change {p : Key} {data : Bytes} (h : Since files start p data) (k : Key) (v : Option Bytes) :
    Since (files.change k v) start p data := by
  obtain ⟨c, hstart, hc, e, he, hrest⟩ := h
  exact ⟨c, hstart, hc.trans (Nat.le_succ _), e, by rw [files.change_past k v hc, he], hrest⟩

theorem Stored.change (h : Stored files maps cache) (k : Key) (v : Option Bytes) :
    Stored (files.change k v) maps cache := by
  refine ⟨h.linked, h.fits, fun e he => ?_, h.distinct⟩
  obtain ⟨id, m, hid, hm, hof⟩ := h.mapped e he
  exact ⟨id, m, hid, hm, hof.change k v⟩

theorem Knows.change {pc : Pc Key} (h : Knows files maps cache start pc) (k : Key) (v : Option Bytes) :
    Knows (files.change k v) maps cache start pc := by
  cases pc with
  | outside | locked => trivial
  | found p file =>
    intro id hid
    obtain ⟨m, hm, hof⟩ := h id hid
    exact ⟨m, hm, hof.change k v⟩
  | making p file t | sized p file t =>
    obtain ⟨c, hstart, hc, e, he, ht⟩ := h
    exact ⟨c, hstart, hc.trans (Nat.le_succ _), e, by rw [files.change_past k v hc, he], ht⟩
  | made p id =>
    obtain ⟨⟨m, hm, hof, hsince⟩, hnew⟩ := h
    exact ⟨⟨m, hm, hof.change k v, hsince.change k v⟩, hnew⟩
  | serving p id =>
    obtain ⟨m, hm, hsince⟩ := h
    exact ⟨m, hm, hsince.change k v⟩

theorem Inv.change (h : Inv s) (k : Key) (v : Option Bytes) : Inv { s with files := s.files.change k v } where
  steady := h.steady.change k v
  stored := h.stored.change k v
  owner := h.owner
  since i := (h.since i).trans (Nat.le_succ _)
  knows i := (h.knows i).change k v

/-! ## A session that owns the lock -/

theorem Inv.others_outside (h : Inv s) {i j : Fin n} (hi : s.pc i ≠ .outside) (hj : j ≠ i) : s.pc j = .outside := by
  by_contra hne
  have hboth := ((h.owner j).1 hne).symm.trans ((h.owner i).1 hi)
  cases hboth
  exact hj rfl

/-- It goes on, and the others do not own the lock. -/
theorem Inv.session (h : Inv s) {i : Fin n} (hi : s.pc i ≠ .outside) {pc : Pc Key} (hpc : pc ≠ .outside)
    (hstored : Stored s.files maps cache) (hknows : Knows s.files maps cache (s.since i) pc) :
    Inv { s.move i pc with maps, cache } where
  steady := h.steady
  stored := hstored
  owner j := by
    by_cases hj : j = i
    · subst hj
      simp only [State.move, Function.update_self]
      exact ⟨fun _ => (h.owner j).1 hi, fun _ => hpc⟩
    · simp only [State.move, Function.update_of_ne hj]
      exact h.owner j
  since := h.since
  knows j := by
    by_cases hj : j = i
    · subst hj
      simpa only [State.move, Function.update_self] using hknows
    · simp only [State.move, Function.update_of_ne hj, h.others_outside hi hj]
      trivial

theorem Inv.left (h : Inv s) {i : Fin n} (hi : s.pc i ≠ .outside) : Inv (s.left i) where
  steady := h.steady
  stored := h.stored
  owner j := by
    by_cases hj : j = i
    · subst hj
      simp [State.left, State.move]
    · simp [State.left, State.move, Function.update_of_ne hj, h.others_outside hi hj]
  since := h.since
  knows j := by
    by_cases hj : j = i
    · subst hj
      simp only [State.left, State.move, Function.update_self]
      trivial
    · simp only [State.left, State.move, Function.update_of_ne hj, h.others_outside hi hj]
      trivial

theorem getElem_lt {id : Nat} {m : FileMap} (h : maps[id]? = some m) : id < maps.length :=
  (List.getElem?_eq_some_iff.1 h).1

/-- A new map, for the write time `t` and the contents of the file. -/
theorem Inv.make (h : Inv s) {i : Fin n} (hi : s.pc i ≠ .outside) {p : Key} {t : Nat}
    (hknows : ∃ c, s.since i ≤ c ∧ c ≤ s.files.clock ∧ ∃ e, s.files.past c p = some e ∧ e.time = t)
    {f : Stamped Bytes} (hf : s.files.current p = some f) : Inv (s.make i p ⟨t, f.value⟩) := by
  obtain ⟨c, -, hc, e, he, rfl⟩ := hknows
  have hold : ∀ {id : Nat} {m : FileMap}, s.maps[id]? = some m → (s.maps ++ [⟨e.time, f.value⟩])[id]? = some m := by
    intro id m hm
    rw [List.getElem?_append_left (getElem_lt hm), hm]
  have hmap : MapOf s.files p ⟨e.time, f.value⟩ :=
    ⟨s.files.clock, Nat.le_refl _, f, hf, rfl, h.steady.stamp_le hc (Nat.le_refl _) he hf⟩
  refine h.session hi nofun ⟨h.stored.linked, h.stored.fits, fun e' he' => ?_, h.stored.distinct⟩ ⟨⟨_, ?_, hmap, ?_⟩, ?_⟩
  · obtain ⟨id, m, hid, hm, hof⟩ := h.stored.mapped e' he'
    exact ⟨id, m, hid, hold hm, hof⟩
  · simp
  · exact ⟨s.files.clock, h.since i, Nat.le_refl _, f, hf, rfl⟩
  · -- the numbers in the cache are those of older maps
    intro hmem
    obtain ⟨e', he', hid'⟩ := List.mem_map.1 hmem
    obtain ⟨id, m, hid, hm, -⟩ := h.stored.mapped e' he'
    rw [hid, Option.some.injEq] at hid'
    exact absurd (getElem_lt hm) (by omega)

omit [DecidableEq Key] in
theorem entries_eq (c : LruCache Key (Option Nat)) :
    c.entries.entries = c.cacheItems.map fun node => (node.first, node.second) := rfl

omit [DecidableEq Key] in
/-- The same entries in another order. -/
theorem Stored.perm (h : Stored files maps cache) {c' : LruCache Key (Option Nat)} (hlinked : c'.Linked)
    (hsize : c'.cacheSize = cache.cacheSize) (hperm : c'.cacheItems.Perm cache.cacheItems) : Stored files maps c' := by
  have hentries : c'.entries.entries.Perm cache.entries.entries := hperm.map _
  refine ⟨hlinked, ?_, fun e he => h.mapped e (hentries.mem_iff.1 he), (hentries.map _).nodup_iff.2 h.distinct⟩
  rw [hentries.length_eq, hsize]
  exact h.fits

theorem Inv.value (h : Inv s) {i : Fin n} {p : Key} (hpc : s.pc i = .locked p) {c' : LruCache Key (Option Nat)}
    {file : Option Nat} (hvalue : s.cache.value p = some (c', .value file)) :
    Inv { s.move i (.found p file) with cache := c' } := by
  obtain ⟨c₁, file₁, hvalue₁, hlinked, hsize, hperm, hfound⟩ := value_spec h.stored.linked p
  rw [hvalue] at hvalue₁
  cases hvalue₁
  refine h.session (by simp [hpc]) nofun (h.stored.perm hlinked hsize hperm) fun id hid => ?_
  obtain ⟨node, hnode, rfl, hsecond⟩ := hfound id hid
  obtain ⟨id', m, hid', hm, hof⟩ := h.stored.mapped (node.first, node.second) (List.mem_map_of_mem hnode)
  rw [hsecond, Option.some.injEq] at hid'
  subst hid'
  exact ⟨m, hm, hof⟩

omit [DecidableEq Key] in
/-- A map whose write time is that of the file is what is in it now. -/
theorem MapOf.current (hs : files.Steady) {p : Key} {m : FileMap} (h : MapOf files p m) {f : Stamped Bytes}
    (hf : files.current p = some f) (ht : m.lastWriteTime = f.time) : f.value = m.data := by
  obtain ⟨c, hc, e, he, hdata, hle⟩ := h
  have hge : e.time ≤ f.time := hs.stamp_le hc (Nat.le_refl _) he hf
  have heq : e = f := hs.eq_of_stamp hc (Nat.le_refl _) he hf (by omega)
  rw [← heq, hdata]

theorem Inv.put (h : Inv s) {i : Fin n} {p : Key} {file : Nat} (hpc : s.pc i = .made p file)
    {c' : LruCache Key (Option Nat)} (hput : s.cache.put p (some file) = some c') :
    Inv { s.move i (.serving p file) with cache := c' } := by
  have hknows := h.knows i
  rw [hpc] at hknows
  obtain ⟨⟨m, hm, hof, hsince⟩, hnew⟩ := hknows
  obtain ⟨c₁, hput₁, hlinked, hentries⟩ := LruCache.put_eq h.stored.linked p (some file)
  rw [hput] at hput₁
  cases hput₁
  have hstep : c'.entries.entries =
      ((p, some file) :: Lru.without p s.cache.entries.entries).take s.cache.cacheSize := by rw [hentries]; rfl
  have hsize : c'.cacheSize = s.cache.cacheSize := congrArg Lru.Cache.capacity hentries
  have hsub : c'.entries.entries.Sublist ((p, some file) :: Lru.without p s.cache.entries.entries) := by
    rw [hstep]
    exact List.take_sublist _ _
  have hrest : (Lru.without p s.cache.entries.entries).Sublist s.cache.entries.entries := List.filter_sublist
  refine h.session (by simp [hpc]) nofun ⟨hlinked, ?_, fun e he => ?_, ?_⟩ ⟨m, hm, hsince⟩
  · rw [hstep, hsize]
    exact List.length_take_le _ _
  · rcases List.mem_cons.1 (hsub.subset he) with rfl | hmem
    · exact ⟨file, m, rfl, hm, hof⟩
    · exact h.stored.mapped e (hrest.subset hmem)
  · refine List.Nodup.sublist (hsub.map _) (List.nodup_cons.2 ⟨fun hmem => ?_, h.stored.distinct.sublist (hrest.map _)⟩)
    exact hnew ((hrest.map _).subset hmem)

/-! ## The timer -/

omit [DecidableEq Key] in
/-- The lock passes from nobody to the timer, or back. -/
theorem Inv.quiet (h : Inv s) (hpc : ∀ i, s.pc i = .outside) {owner : Option (Owner n)}
    (howner : ∀ i, owner ≠ some (.session i)) : Inv { s with owner } where
  steady := h.steady
  stored := h.stored
  owner i := ⟨fun hne => absurd (hpc i) hne, fun ho => absurd ho (howner i)⟩
  since := h.since
  knows := h.knows

theorem Inv.free (h : Inv s) (hfree : s.owner = none) (i : Fin n) : s.pc i = .outside := by
  by_contra hne
  have howner := (h.owner i).1 hne
  rw [hfree] at howner
  cases howner

theorem Inv.lock (h : Inv s) (hfree : s.owner = none) (i : Fin n) (p : Key) :
    Inv { s.move i (.locked p) with
      owner := some (.session i)
      since := Function.update s.since i s.files.clock } where
  steady := h.steady
  stored := h.stored
  owner j := by
    by_cases hj : j = i
    · subst hj
      simp [State.move]
    · simp [State.move, Function.update_of_ne hj, h.free hfree j, Ne.symm hj]
  since := Components.forall_update (P := fun _ start => start ≤ s.files.clock) h.since (Nat.le_refl _)
  knows j := by
    by_cases hj : j = i
    · subst hj
      simp only [State.move, Function.update_self]
      trivial
    · simp only [State.move, Function.update_of_ne hj, h.free hfree j]
      trivial

theorem Inv.timer (h : Inv s) (hi : s.owner = some .timer) (i : Fin n) : s.pc i = .outside := by
  by_contra hne
  have howner := (h.owner i).1 hne
  rw [hi] at howner
  cases howner

omit [DecidableEq Key] in
/-- Nobody but the cache has a pointer to a map of it. -/
theorem useCount_one (hpc : ∀ i, s.pc i = .outside) {items : List (Node Key (Option Nat))} {id : Nat}
    (hcount : items.countP (·.second = some id) = 1) : s.useCount items (some id) = 1 := by
  simp [State.useCount, hcount, hpc, Pc.file]

theorem sweepLoop_spec (hpc : ∀ i, s.pc i = .outside) {c : LruCache Key (Option Nat)} (hlinked : c.Linked)
    (hsome : ∀ node ∈ c.cacheItems, ∃ id, node.second = some id) (hnodup : (c.cacheItems.map (·.second)).Nodup) :
    ∃ c', s.sweepLoop (c.cacheItems.map (·.id)) c = some c' ∧ c'.Linked ∧ c'.cacheItems = [] := by
  -- each round erases the first entry
  induction hitems : c.cacheItems generalizing c with
  | nil => exact ⟨c, rfl, hlinked, hitems⟩
  | cons node rest ih =>
    rw [hitems] at hsome hnodup
    obtain ⟨id, hid⟩ := hsome node List.mem_cons_self
    have hfind : c.cacheItems.find? (·.id = node.id) = some node := by simp [hitems]
    have hrest : rest.countP (·.second = some id) = 0 := by
      refine List.countP_eq_zero.2 fun other hother heq => ?_
      have hmem := List.mem_map_of_mem (f := fun node => node.second) hother
      rw [of_decide_eq_true heq, ← hid] at hmem
      exact (List.nodup_cons.1 hnodup).1 hmem
    have hone : s.useCount c.cacheItems node.second = 1 := by
      rw [hid]
      refine useCount_one hpc ?_
      rw [hitems, List.countP_cons, hrest, if_pos (decide_eq_true hid)]
    obtain ⟨c', a, herase, hlinked', hitems'⟩ := erase_first hlinked hitems
    obtain ⟨c'', hloop, hdone⟩ := ih hlinked' (by rw [hitems']; exact fun x hx => hsome x (List.mem_cons_of_mem _ hx))
      (by rw [hitems']; exact (List.nodup_cons.1 hnodup).2) hitems'
    refine ⟨c'', ?_, hdone⟩
    rw [List.map_cons, State.sweepLoop, hfind]
    dsimp only
    rw [if_pos hone, herase]
    exact hloop

theorem Inv.sweepLoop (h : Inv s) (hi : s.owner = some .timer) :
    ∃ c', s.sweepLoop (s.cache.cacheItems.map (·.id)) s.cache = some c' ∧ c'.Linked ∧ c'.cacheItems = [] := by
  refine sweepLoop_spec (h.timer hi) h.stored.linked (fun node hnode => ?_) ?_
  · obtain ⟨id, m, hid, -⟩ := h.stored.mapped (node.first, node.second) (List.mem_map_of_mem hnode)
    exact ⟨id, hid⟩
  · have hdistinct := h.stored.distinct
    rwa [entries_eq, List.map_map] at hdistinct

theorem Inv.sweep (h : Inv s) (hi : s.owner = some .timer) {c' : LruCache Key (Option Nat)} (hlinked : c'.Linked)
    (hempty : c'.cacheItems = []) : Inv { s with cache := c' } where
  steady := h.steady
  stored := ⟨hlinked, by simp [entries_eq, hempty], by simp [entries_eq, hempty], by simp [entries_eq, hempty]⟩
  owner := h.owner
  since := h.since
  knows i := by
    rw [h.timer hi i]
    trivial

/-! ## Every run -/

theorem step_inv (s : State n Key) (a : Action n Key) (s' : State n Key) (h : Inv s) (hs : step s a = some s') : Inv s' := by
  cases a with
  | write p contents => cases hs; exact h.change p _
  | remove p => cases hs; exact h.change p _
  | lock i p =>
    simp only [step] at hs
    split at hs
    · rename_i hfree
      cases hs
      exact h.lock hfree.2 i p
    · cases hs
  | value i =>
    simp only [step] at hs
    split at hs
    · rename_i p hpc
      obtain ⟨⟨c', a⟩, hvalue, hs⟩ := Option.bind_eq_some_iff.1 hs
      dsimp only at hs
      split at hs
      · cases hs
        exact h.value hpc hvalue
      · cases hs
    · cases hs
  | lastWriteTime i =>
    simp only [step] at hs
    split at hs
    · rename_i p file hpc
      have hi : s.pc i ≠ .outside := by simp [hpc]
      have hknows := h.knows i
      rw [hpc] at hknows
      split at hs
      · cases hs
        exact h.left hi
      · rename_i f hf
        have hmaking : Inv (s.move i (.making p file f.time)) :=
          h.session hi nofun h.stored ⟨s.files.clock, h.since i, Nat.le_refl _, f, hf, rfl⟩
        split at hs
        · cases hs
          exact hmaking
        · rename_i id
          split at hs
          · cases hs
          · rename_i m hm
            cases hs
            split
            · rename_i ht
              obtain ⟨m', hm', hof⟩ := hknows id rfl
              rw [hm] at hm'
              cases hm'
              exact h.session hi nofun h.stored
                ⟨m, hm, s.files.clock, h.since i, Nat.le_refl _, f, hf, hof.current h.steady hf ht⟩
            · exact hmaking
    · cases hs
  | fileSize i =>
    simp only [step] at hs
    split at hs
    · rename_i p file t hpc
      have hi : s.pc i ≠ .outside := by simp [hpc]
      have hknows := h.knows i
      rw [hpc] at hknows
      split at hs
      · cases hs
        exact h.left hi
      · rename_i f hf
        split at hs
        · rename_i hempty
          cases hs
          rw [← hempty]
          exact h.make hi hknows hf
        · cases hs
          exact h.session hi nofun h.stored hknows
    · cases hs
  | map i =>
    simp only [step] at hs
    split at hs
    · rename_i p file t hpc
      have hi : s.pc i ≠ .outside := by simp [hpc]
      have hknows := h.knows i
      rw [hpc] at hknows
      split at hs
      · cases hs
        exact h.left hi
      · rename_i f hf
        split at hs
        · cases hs
          exact h.left hi
        · cases hs
          exact h.make hi hknows hf
    · cases hs
  | put i =>
    simp only [step] at hs
    split at hs
    · rename_i p file hpc
      obtain ⟨c', hput, rfl⟩ := Option.map_eq_some_iff.1 hs
      exact h.put hpc hput
    · cases hs
  | leave i =>
    simp only [step] at hs
    split at hs
    · cases hs
    · cases hs
      exact h.left ‹_›
  | timerLock =>
    simp only [step] at hs
    split at hs
    · rename_i hfree
      cases hs
      exact h.quiet (h.free hfree) nofun
    · cases hs
  | sweep =>
    simp only [step] at hs
    split at hs
    · rename_i hi
      obtain ⟨c', hloop, hlinked, hempty⟩ := h.sweepLoop hi
      rw [hloop] at hs
      cases hs
      exact h.sweep hi hlinked hempty
    · cases hs
  | timerUnlock =>
    simp only [step] at hs
    split at hs
    · rename_i hi
      cases hs
      exact h.quiet (h.timer hi) nofun
    · cases hs

omit [DecidableEq Key] in
theorem inv_init : Inv ({} : State n Key) where
  steady := Store.steady_init
  stored := ⟨⟨.nil, .nil, .nil, nofun⟩, Nat.zero_le _, nofun, .nil⟩
  owner _ := ⟨fun hne => absurd rfl hne, nofun⟩
  since _ := Nat.le_refl _
  knows _ := trivial

/-- What a session sends is what was in the file at a moment since it took the lock. -/
theorem serves_current (as : List (Action n Key)) (s : State n Key) (hs : Runs.exec step {} as = some s) (i : Fin n)
    (p : Key) (file : Nat) (hpc : s.pc i = .serving p file) : ∃ m c e, s.maps[file]? = some m ∧ s.since i ≤ c ∧
    c ≤ s.files.clock ∧ s.files.past c p = some e ∧ e.value = m.data := by
  have h : Inv s := Runs.exec_of_step step_inv as inv_init hs
  have hknows := h.knows i
  rw [hpc] at hknows
  obtain ⟨m, hm, c, hstart, hc, e, he, hdata⟩ := hknows
  exact ⟨m, c, e, hm, hstart, hc, he, hdata⟩

/-- A file is served, replaced while it is mapped, and looked up again. -/
def replaced (i : Fin n) : List (Action n Bool) :=
  [.write true [1], .lock i true, .value i, .lastWriteTime i, .fileSize i, .write true [2], .map i, .put i, .leave i,
    .lock i true, .value i, .lastWriteTime i, .fileSize i, .map i, .put i]

theorem serves_current_replaced : ∃ s, Runs.exec step ({} : State 1 Bool) (replaced 0) = some s ∧
    ∃ m c e, s.maps[1]? = some m ∧ s.since 0 ≤ c ∧ c ≤ s.files.clock ∧ s.files.past c true = some e ∧ e.value = m.data :=
  ⟨_, rfl, serves_current (replaced 0) _ rfl 0 true 1 rfl⟩

/-- The sweep of the timer leaves nothing in the cache. -/
theorem sweep_empties (as : List (Action n Key)) (s : State n Key) (hs : Runs.exec step {} as = some s)
    (hi : s.owner = some .timer) : ∃ s', step s .sweep = some s' ∧ s'.cache.cacheItems = [] := by
  have h : Inv s := Runs.exec_of_step step_inv as inv_init hs
  obtain ⟨c', hloop, -, hempty⟩ := h.sweepLoop hi
  refine ⟨{ s with cache := c' }, ?_, hempty⟩
  simp only [step, hi, if_true, hloop, Option.map_some]

theorem sweep_empties_replaced : ∃ s s', Runs.exec step ({} : State 1 Bool) (replaced 0 ++ [.leave 0, .timerLock]) = some s ∧
    s.cache.cacheItems.length = 1 ∧ step s .sweep = some s' ∧ s'.cache.cacheItems = [] := by
  obtain ⟨s', hsweep, hempty⟩ := sweep_empties (n := 1) (replaced 0 ++ [.leave 0, .timerLock]) _ rfl rfl
  exact ⟨_, s', rfl, rfl, hsweep, hempty⟩

end Getodac.CachedFiles
