import Mathlib
/-!
# Least recently used

A bounded map as a list, the most recently used entry first, and a record of its
history: when a key was used last and what was put for it last. `Recorded.step`: the
list is in the order of the last uses and has the values of the last puts.
`leaves_step`: an entry that leaves it and was not erased was used before all that
stay, and these are as many as there may be.
-/

namespace Lru

variable {K V : Type}

structure Cache (K V : Type) where
  entries : List (K × V)
  capacity : Nat

inductive Op (K V : Type) where
  | put (key : K) (value : V)
  /-- A look-up that counts as a use if the key is there. -/
  | get (key : K)
  /-- One that does not. -/
  | peek (key : K)
  | resize (capacity : Nat)
  | erase (key : K)
  | clear

def Cache.keys (c : Cache K V) : List K := c.entries.map (·.1)

structure History (K V : Type) where
  time : Nat := 0
  lastUse : K → Nat := fun _ => 0
  lastPut : K → Option V := fun _ => none

/-- The list is as the history says. -/
structure Recorded (c : Cache K V) (h : History K V) : Prop where
  distinct : c.keys.Nodup
  fits : c.entries.length ≤ c.capacity
  ordered : c.entries.Pairwise fun a b => h.lastUse b.1 < h.lastUse a.1
  stored : ∀ e ∈ c.entries, h.lastPut e.1 = some e.2
  past : ∀ k, h.lastUse k ≤ h.time

variable [DecidableEq K]

def without (k : K) (es : List (K × V)) : List (K × V) := es.filter (·.1 ≠ k)

def Cache.step (c : Cache K V) : Op K V → Cache K V
  | .put k v => { c with entries := ((k, v) :: without k c.entries).take c.capacity }
  | .get k =>
    match c.entries.find? (·.1 = k) with
    | some e => { c with entries := e :: without k c.entries }
    | none => c
  | .peek _ => c
  | .resize n => ⟨c.entries.take n, n⟩
  | .erase k => { c with entries := without k c.entries }
  | .clear => { c with entries := [] }

/-- The list after a sequence of operations on an empty one. -/
def run (capacity : Nat) (ops : List (Op K V)) : Cache K V := ops.foldl Cache.step ⟨[], capacity⟩

theorem run_concat (capacity : Nat) (ops : List (Op K V)) (op : Op K V) :
    run capacity (ops ++ [op]) = (run capacity ops).step op := List.foldl_concat ..

/-- The value of a key. -/
def Cache.find (c : Cache K V) (k : K) : Option V := (c.entries.find? (·.1 = k)).map (·.2)

theorem Cache.find_isSome_iff (c : Cache K V) {k : K} : (c.find k).isSome = true ↔ k ∈ c.keys := by
  simp [find, keys]

namespace History

def use (h : History K V) (k : K) : History K V :=
  { h with time := h.time + 1, lastUse := Function.update h.lastUse k (h.time + 1) }

def put (h : History K V) (k : K) (v : V) : History K V :=
  { h.use k with lastPut := Function.update h.lastPut k (some v) }

/-- What the operation on the cache adds to the history. -/
def record (h : History K V) (c : Cache K V) : Op K V → History K V
  | .put k v => h.put k v
  | .get k => if k ∈ c.keys then h.use k else h
  | _ => h

@[simp] theorem use_lastUse_self (h : History K V) (k : K) : (h.use k).lastUse k = h.time + 1 :=
  Function.update_self k _ _

theorem use_lastUse {h : History K V} {k x : K} (hx : x ≠ k) : (h.use k).lastUse x = h.lastUse x :=
  Function.update_of_ne hx _ _

end History

theorem mem_without {k : K} {es : List (K × V)} {e : K × V} : e ∈ without k es ↔ e ∈ es ∧ e.1 ≠ k := by
  simp [without]

theorem length_without_le (k : K) (es : List (K × V)) : (without k es).length ≤ es.length := List.length_filter_le _ _

variable {c : Cache K V} {h : History K V}

/-! ## What a step keeps -/

omit [DecidableEq K] in
/-- Fewer entries in the same order. -/
theorem Recorded.sublist (hr : Recorded c h) {es : List (K × V)} {n : Nat} (hs : es.Sublist c.entries)
    (hn : es.length ≤ n) : Recorded ⟨es, n⟩ h where
  distinct := hr.distinct.sublist (hs.map _)
  fits := hn
  ordered := hr.ordered.sublist hs
  stored e he := hr.stored e (hs.subset he)
  past := hr.past

/-- A key is used: its entry comes first. -/
theorem Recorded.front (hr : Recorded c h) (k : K) (v : V) (h' : History K V) (hlast : h'.lastUse = (h.use k).lastUse)
    (htime : h'.time = h.time + 1) (hput : h'.lastPut k = some v) (hother : ∀ x, x ≠ k → h'.lastPut x = h.lastPut x)
    {n : Nat} (hn : ((k, v) :: without k c.entries).length ≤ n) : Recorded ⟨(k, v) :: without k c.entries, n⟩ h' where
  distinct := by
    have hsub : (without k c.entries).Sublist c.entries := List.filter_sublist
    refine List.nodup_cons.2 ⟨fun hm => ?_, hr.distinct.sublist (hsub.map _)⟩
    obtain ⟨e, he, hk⟩ := List.mem_map.1 hm
    exact (mem_without.1 he).2 hk
  fits := hn
  ordered := by
    rw [hlast]
    refine List.pairwise_cons.2 ⟨fun e he => ?_, ?_⟩
    · rw [History.use_lastUse_self, History.use_lastUse (mem_without.1 he).2]
      exact Nat.lt_succ_of_le (hr.past e.1)
    · refine (hr.ordered.filter _).imp_of_mem fun ha hb hlt => ?_
      rwa [History.use_lastUse (mem_without.1 ha).2, History.use_lastUse (mem_without.1 hb).2]
  stored e he := by
    rcases List.mem_cons.1 he with rfl | he
    · exact hput
    · obtain ⟨hm, hk⟩ := mem_without.1 he
      rw [hother e.1 hk]
      exact hr.stored e hm
  past x := by
    rw [hlast, htime]
    by_cases hx : x = k
    · rw [hx, History.use_lastUse_self]
    · rw [History.use_lastUse hx]
      exact Nat.le_succ_of_le (hr.past x)

theorem Recorded.put (hr : Recorded c h) (k : K) (v : V) :
    Recorded ⟨(k, v) :: without k c.entries, ((k, v) :: without k c.entries).length⟩ (h.put k v) :=
  hr.front k v (h.put k v) rfl rfl (Function.update_self k _ _) (fun _ hx => Function.update_of_ne hx _ _) (Nat.le_refl _)

theorem mem_keys_of_find {k : K} {e : K × V} (he : c.entries.find? (·.1 = k) = some e) :
    e ∈ c.entries ∧ e.1 = k :=
  ⟨List.mem_of_find?_eq_some he, by simpa using List.find?_some he⟩

/-- The other entries are fewer than all. -/
theorem length_without_lt {k : K} {e : K × V} {es : List (K × V)} (he : e ∈ es) (hk : e.1 = k) :
    (without k es).length < es.length := by
  refine List.length_filter_lt_length_iff_exists.2 ⟨e, he, ?_⟩
  simp [hk]

theorem Recorded.step (hr : Recorded c h) (op : Op K V) : Recorded (c.step op) (h.record c op) := by
  cases op with
  | put k v => exact (hr.put k v).sublist (List.take_sublist _ _) (by simp)
  | get k =>
    unfold Cache.step History.record
    dsimp only
    cases hf : c.entries.find? (·.1 = k) with
    | none =>
      have hk : k ∉ c.keys := by
        intro hm
        obtain ⟨e, he, hek⟩ := List.mem_map.1 hm
        exact List.find?_eq_none.1 hf e he (by simpa using hek)
      rw [if_neg hk]
      exact hr
    | some e =>
      obtain ⟨he, hk⟩ := mem_keys_of_find hf
      have hin : k ∈ c.keys := List.mem_map.2 ⟨e, he, hk⟩
      rw [if_pos hin]
      obtain ⟨k', v⟩ := e
      cases hk
      exact hr.front k' v (h.use k') rfl rfl (hr.stored _ he) (fun _ _ => rfl)
        (Nat.le_trans (length_without_lt he rfl) hr.fits)
  | peek k => exact hr
  | resize n => exact hr.sublist (List.take_sublist _ _) (by simp)
  | erase k => exact hr.sublist List.filter_sublist (Nat.le_trans (length_without_le k _) hr.fits)
  | clear => exact hr.sublist (List.nil_sublist _) (Nat.zero_le _)

/-! ## What leaves -/

omit [DecidableEq K] in
/-- The entries behind the first `n` of an ordered list are the least recently used ones. -/
theorem take_recent {es : List (K × V)} {last : K → Nat} (ho : es.Pairwise fun a b => last b.1 < last a.1) {n : Nat}
    {e : K × V} (he : e ∈ es) (hout : e ∉ es.take n) :
    (es.take n).length = n ∧ ∀ e' ∈ es.take n, last e.1 < last e'.1 := by
  have hdrop : e ∈ es.drop n := by
    have hm : e ∈ es.take n ++ es.drop n := by rwa [List.take_append_drop]
    exact (List.mem_append.1 hm).resolve_left hout
  refine ⟨?_, fun e' he' => ?_⟩
  · have hpos := List.length_pos_of_mem hdrop
    rw [List.length_drop] at hpos
    rw [List.length_take]
    omega
  · rw [← List.take_append_drop n es, List.pairwise_append] at ho
    exact ho.2.2 e' he' e hdrop

/-- How an entry may leave the cache: it is erased, or it was used before all that stay and there is no room for it. -/
inductive Leaves (c : Cache K V) (h : History K V) (e : K × V) : Op K V → Prop where
  | erase : Leaves c h e (.erase e.1)
  | clear : Leaves c h e .clear
  | evicted {op : Op K V} (hop : (∃ k v, op = .put k v) ∨ ∃ n, op = .resize n)
      (hfull : (c.step op).entries.length = (c.step op).capacity)
      (hrecent : ∀ e' ∈ (c.step op).entries, (h.record c op).lastUse e.1 < (h.record c op).lastUse e'.1) : Leaves c h e op

theorem leaves_step (hr : Recorded c h) (op : Op K V) {e : K × V} (he : e ∈ c.entries) (hout : e.1 ∉ (c.step op).keys) :
    Leaves c h e op := by
  have hkey : ∀ {es : List (K × V)}, e ∈ es → e.1 ∈ es.map (·.1) := fun hm => List.mem_map.2 ⟨e, hm, rfl⟩
  cases op with
  | put k v =>
    by_cases hk : e.1 = k
    · -- the new entry of the key would be the first, so there is room for none
      have hpos : 0 < c.capacity := Nat.lt_of_lt_of_le (List.length_pos_of_mem he) hr.fits
      obtain ⟨n, hn⟩ := Nat.exists_eq_add_of_lt hpos
      refine absurd ?_ hout
      rw [Cache.keys, Cache.step, hn, Nat.zero_add, List.take_succ_cons, List.map_cons, hk]
      exact List.mem_cons_self
    · have hm : e ∈ (k, v) :: without k c.entries := List.mem_cons_of_mem _ (mem_without.2 ⟨he, hk⟩)
      obtain ⟨hfull, hrecent⟩ := take_recent (hr.put k v).ordered (n := c.capacity) hm fun hin => hout (hkey hin)
      exact .evicted (.inl ⟨k, v, rfl⟩) hfull hrecent
  | get k =>
    refine absurd ?_ hout
    rw [Cache.keys, Cache.step]
    cases hf : c.entries.find? (·.1 = k) with
    | none => exact hkey he
    | some e' =>
      obtain ⟨-, hk'⟩ := mem_keys_of_find hf
      by_cases hk : e.1 = k
      · rw [List.map_cons, hk', hk]
        exact List.mem_cons_self
      · exact hkey (List.mem_cons_of_mem _ (mem_without.2 ⟨he, hk⟩))
  | peek k => exact absurd (hkey he) hout
  | resize n =>
    obtain ⟨hfull, hrecent⟩ := take_recent hr.ordered he fun hin => hout (hkey hin)
    exact .evicted (.inr ⟨n, rfl⟩) hfull hrecent
  | erase k =>
    by_cases hk : e.1 = k
    · rw [← hk]
      exact .erase
    · exact absurd (hkey (mem_without.2 ⟨he, hk⟩)) hout
  | clear => exact .clear

end Lru
