import Getodac.Lib.Lists
import Getodac.Lib.Lru
import Getodac.Lib.Runs
/-!
# `Dracon::LruCache`

A list of entries and a hash map from keys to the nodes of the list. A node keeps
its identity when it is moved, and an iterator names a node; an operation that
follows an iterator to no node, or takes the last entry of an empty list, is
undefined (`none`).

`step_refines`: nothing undefined happens, the list is the least recently used list
of `Lru`, and what an operation returns is read off that list. `lru_keeps` says what
this means for any sequence of operations: the list is that of the abstract run, the
map and the list agree, the order is that of the last uses, the values are those of
the last puts, and only the least recently used entries make room for others.
-/

namespace Getodac

variable {K V : Type}

/-- A node of `std::list<std::pair<K, V>>`. -/
structure Node (K V : Type) where
  id : Nat
  first : K
  second : V
deriving DecidableEq, Repr

structure LruCache (K V : Type) where
  cacheItems : List (Node K V) := []
  /-- The hash map, its entries in any order. -/
  cacheHash : List (K × Nat) := []
  cacheSize : Nat
  /-- No node had this identity yet. -/
  fresh : Nat := 0

namespace LruCache

/-- `m_cacheItems.erase(it)`. -/
def eraseNode (it : Nat) (items : List (Node K V)) : Option (List (Node K V)) :=
  if it ∈ items.map (·.id) then some (items.eraseP (·.id = it)) else none

/-- `m_cacheItems.splice(m_cacheItems.begin(), m_cacheItems, it)`, and the node. -/
def splice (it : Nat) (items : List (Node K V)) : Option (Node K V × List (Node K V)) :=
  (items.find? (·.id = it)).map fun node => (node, node :: items.eraseP (·.id = it))

/-- What an operation returns. -/
inductive Answer (V : Type) where
  | nothing
  | value (v : V)
  /-- `std::range_error`. -/
  | range_error
  | bool (b : Bool)
  /-- An iterator, `none` for the end of the list. -/
  | iterator (it : Option Nat)
deriving DecidableEq, Repr

inductive Op (K V : Type) where
  | put (key : K) (value : V)
  | reference (key : K)
  | value (key : K)
  | existsKey (key : K)
  | cacheSize (size : Nat)
  | clear
  | erase (it : Nat)
deriving DecidableEq, Repr

variable [DecidableEq K]

/-- The loop of `cleanCache`, over the list from its end. -/
def cleanLoop (size : Nat) : List (Node K V) → List (K × Nat) → Option (List (Node K V) × List (K × Nat))
  | [], hash => if hash.length ≤ size then some ([], hash) else none
  | node :: rev, hash =>
    if hash.length ≤ size then some (node :: rev, hash) else cleanLoop size rev (hash.filter (·.1 ≠ node.first))

def cleanCache (c : LruCache K V) : Option (LruCache K V) :=
  (cleanLoop c.cacheSize c.cacheItems.reverse c.cacheHash).map fun r =>
    { c with cacheItems := r.1.reverse, cacheHash := r.2 }

/-- The entry of the key is erased from the list. -/
def eraseOld (c : LruCache K V) (key : K) : Option (List (Node K V)) :=
  match c.cacheHash.lookup key with
  | some it => eraseNode it c.cacheItems
  | none => some c.cacheItems

def put (c : LruCache K V) (key : K) (value : V) : Option (LruCache K V) :=
  (c.eraseOld key).bind fun items =>
    cleanCache { c with
      cacheItems := ⟨c.fresh, key, value⟩ :: items
      cacheHash := (key, c.fresh) :: c.cacheHash.filter (·.1 ≠ key)
      fresh := c.fresh + 1 }

/-- The part that `reference` and `value` have in common; `missing` is what they do without the key. -/
def touch (c : LruCache K V) (key : K) (missing : Answer V) : Option (LruCache K V × Answer V) :=
  match c.cacheHash.lookup key with
  | none => some (c, missing)
  | some it => (splice it c.cacheItems).map fun r => ({ c with cacheItems := r.2 }, .value r.1.second)

def reference (c : LruCache K V) (key : K) : Option (LruCache K V × Answer V) := c.touch key .range_error

def value [Inhabited V] (c : LruCache K V) (key : K) : Option (LruCache K V × Answer V) :=
  c.touch key (.value default)

/-- `exists`. -/
def existsKey (c : LruCache K V) (key : K) : Bool := (c.cacheHash.lookup key).isSome

/-- `cacheSize(size)`. -/
def setCacheSize (c : LruCache K V) (size : Nat) : Option (LruCache K V) := cleanCache { c with cacheSize := size }

def clear (c : LruCache K V) : LruCache K V := { c with cacheItems := [], cacheHash := [] }

/-- `erase(it)`; it returns the iterator behind `it`. -/
def erase (c : LruCache K V) (it : Nat) : Option (LruCache K V × Answer V) :=
  match c.cacheItems.find? (·.id = it) with
  | none => none
  | some node =>
    (eraseNode it c.cacheItems).map fun items =>
      ({ c with cacheItems := items, cacheHash := c.cacheHash.filter (·.1 ≠ node.first) },
        .iterator ((c.cacheItems.dropWhile (·.id ≠ it)).tail.head?.map (·.id)))

def step [Inhabited V] (c : LruCache K V) : Op K V → Option (LruCache K V × Answer V)
  | .put key value => (c.put key value).map (·, .nothing)
  | .reference key => c.reference key
  | .value key => c.value key
  | .existsKey key => some (c, .bool (c.existsKey key))
  | .cacheSize size => (c.setCacheSize size).map (·, .nothing)
  | .clear => some (c.clear, .nothing)
  | .erase it => c.erase it

/-! ## The list and the map -/

/-- The entry of the map for a node. -/
def link (node : Node K V) : K × Nat := (node.first, node.id)

/-- The map has exactly the keys of the list, each with its own node. -/
structure Linked (c : LruCache K V) : Prop where
  keys : (c.cacheItems.map (·.first)).Nodup
  ids : (c.cacheItems.map (·.id)).Nodup
  hash : c.cacheHash.Perm (c.cacheItems.map link)
  fresh : ∀ node ∈ c.cacheItems, node.id < c.fresh

/-- The list as a least recently used list. -/
def entries (c : LruCache K V) : Lru.Cache K V :=
  ⟨c.cacheItems.map fun node => (node.first, node.second), c.cacheSize⟩

theorem entries_find? (c : LruCache K V) (key : K) : c.entries.entries.find? (·.1 = key) =
    (c.cacheItems.find? (·.first = key)).map fun node => (node.first, node.second) :=
  List.find?_map

theorem entries_find (c : LruCache K V) (key : K) :
    c.entries.find key = (c.cacheItems.find? (·.first = key)).map (·.second) := by
  rw [Lru.Cache.find, entries_find?, Option.map_map]
  rfl

/-- The nodes of the other keys. -/
def others (k : K) (items : List (Node K V)) : List (Node K V) := items.filter (·.first ≠ k)

theorem others_eq_self {k : K} {items : List (Node K V)} (h : k ∉ items.map (·.first)) : others k items = items :=
  List.filter_eq_self.2 fun node hnode => decide_eq_true fun he => h (List.mem_map.2 ⟨node, hnode, he⟩)

theorem others_links (k : K) (items : List (Node K V)) :
    (others k items).map link = (items.map link).filter (·.1 ≠ k) := by
  rw [others, List.filter_map]
  rfl

theorem others_entries (k : K) (items : List (Node K V)) :
    (others k items).map (fun node => (node.first, node.second)) =
      Lru.without k (items.map fun node => (node.first, node.second)) := by
  rw [others, Lru.without, List.filter_map]
  rfl

namespace Linked

variable {c : LruCache K V}

omit [DecidableEq K] in
/-- The assertion in `size()`. -/
theorem size_eq (h : c.Linked) : c.cacheItems.length = c.cacheHash.length := by
  rw [h.hash.length_eq, List.length_map]

theorem lookup_iff (h : c.Linked) (k : K) (it : Nat) :
    c.cacheHash.lookup k = some it ↔ ∃ node ∈ c.cacheItems, node.first = k ∧ node.id = it := by
  have hkeys : (c.cacheHash.map (·.1)).Nodup := by
    rw [(h.hash.map (·.1)).nodup_iff, List.map_map]
    exact h.keys
  rw [Lists.lookup_eq_some_iff hkeys, h.hash.mem_iff, List.mem_map]
  simp only [link, Prod.mk.injEq]

theorem lookup_none_iff (h : c.Linked) (k : K) :
    c.cacheHash.lookup k = none ↔ k ∉ c.cacheItems.map (·.first) := by
  constructor
  · intro hnone hk
    obtain ⟨node, hnode, hfirst⟩ := List.mem_map.1 hk
    rw [(h.lookup_iff k node.id).2 ⟨node, hnode, hfirst, rfl⟩] at hnone
    cases hnone
  · intro hk
    cases hl : c.cacheHash.lookup k with
    | none => rfl
    | some it =>
      obtain ⟨node, hnode, hfirst, -⟩ := (h.lookup_iff k it).1 hl
      exact absurd (List.mem_map.2 ⟨node, hnode, hfirst⟩) hk

/-- The map finds the node of the key. -/
theorem lookup_eq (h : c.Linked) (k : K) :
    c.cacheHash.lookup k = (c.cacheItems.find? (·.first = k)).map (·.id) := by
  cases hf : c.cacheItems.find? (·.first = k) with
  | none =>
    refine (h.lookup_none_iff k).2 fun hk => ?_
    obtain ⟨node, hnode, hfirst⟩ := List.mem_map.1 hk
    exact List.find?_eq_none.1 hf node hnode (by simpa using hfirst)
  | some node =>
    exact (h.lookup_iff k node.id).2 ⟨node, List.mem_of_find?_eq_some hf, by simpa using List.find?_some hf, rfl⟩

theorem existsKey_eq (h : c.Linked) (k : K) : c.existsKey k = (c.entries.find k).isSome := by
  rw [existsKey, h.lookup_eq, entries_find, Option.isSome_map, Option.isSome_map]

/-- A node is erased as the node of its key. -/
theorem erase_eq (h : c.Linked) {node : Node K V} (hnode : node ∈ c.cacheItems) :
    c.cacheItems.eraseP (·.id = node.id) = others node.first c.cacheItems := by
  rw [Lists.eraseP_eq_filter (fun other : Node K V => other.id) h.ids, others]
  refine List.filter_congr fun other hother => ?_
  have hid : other.id = node.id ↔ other = node :=
    ⟨fun he => List.inj_on_of_nodup_map h.ids hother hnode he, fun he => he ▸ rfl⟩
  have hfirst : other.first = node.first ↔ other = node :=
    ⟨fun he => List.inj_on_of_nodup_map h.keys hother hnode he, fun he => he ▸ rfl⟩
  exact decide_eq_decide.2 (not_congr (hid.trans hfirst.symm))

theorem eraseNode_eq (h : c.Linked) {node : Node K V} (hnode : node ∈ c.cacheItems) :
    eraseNode node.id c.cacheItems = some (others node.first c.cacheItems) := by
  rw [eraseNode, if_pos (List.mem_map.2 ⟨node, hnode, rfl⟩), h.erase_eq hnode]

omit [DecidableEq K] in
theorem find_eq (h : c.Linked) {node : Node K V} (hnode : node ∈ c.cacheItems) :
    c.cacheItems.find? (·.id = node.id) = some node :=
  Lists.find_of_nodup (fun other : Node K V => other.id) h.ids hnode

theorem perm_front (h : c.Linked) {node : Node K V} (hnode : node ∈ c.cacheItems) :
    (node :: others node.first c.cacheItems).Perm c.cacheItems := by
  obtain ⟨l₁, l₂, he⟩ := List.append_of_mem hnode
  have hkeys := h.keys
  rw [he, List.map_append, List.map_cons, List.nodup_middle, List.nodup_cons, ← List.map_append] at hkeys
  have hothers : others node.first c.cacheItems = l₁ ++ l₂ := by
    have hrest := others_eq_self hkeys.1
    rw [others, List.filter_append] at hrest
    rw [he, others, List.filter_append, List.filter_cons_of_neg (by simp), hrest]
  rw [hothers, he]
  exact List.perm_middle.symm

omit [DecidableEq K] in
/-- The order of the list does not matter to the map. -/
theorem perm (h : c.Linked) {items : List (Node K V)} (hp : items.Perm c.cacheItems) :
    Linked { c with cacheItems := items } where
  keys := (hp.map _).nodup_iff.2 h.keys
  ids := (hp.map _).nodup_iff.2 h.ids
  hash := h.hash.trans (hp.map _).symm
  fresh node hnode := h.fresh node (hp.subset hnode)

/-- Without the node of a key, and without its entry in the map. -/
theorem without (h : c.Linked) (k : K) (size : Nat) {fresh : Nat} (hfresh : c.fresh ≤ fresh) :
    Linked ⟨others k c.cacheItems, c.cacheHash.filter (·.1 ≠ k), size, fresh⟩ where
  keys := h.keys.sublist (List.filter_sublist.map _)
  ids := h.ids.sublist (List.filter_sublist.map _)
  hash := by
    rw [others_links]
    exact h.hash.filter _
  fresh node hnode := Nat.lt_of_lt_of_le (h.fresh node (List.mem_filter.1 hnode).1) hfresh

/-- A node is put in front of the others. -/
theorem front (h : c.Linked) (node : Node K V) (size : Nat) {fresh : Nat} (hfresh : c.fresh ≤ fresh) (hid : node.id < fresh)
    (hnew : node.id ∉ (others node.first c.cacheItems).map (·.id)) :
    Linked ⟨node :: others node.first c.cacheItems, link node :: c.cacheHash.filter (·.1 ≠ node.first), size, fresh⟩ where
  keys := by
    refine List.nodup_cons.2 ⟨fun hm => ?_, (h.without node.first size hfresh).keys⟩
    obtain ⟨other, hother, he⟩ := List.mem_map.1 hm
    exact of_decide_eq_true (List.mem_filter.1 hother).2 he
  ids := List.nodup_cons.2 ⟨hnew, (h.without node.first size hfresh).ids⟩
  hash := (h.without node.first size hfresh).hash.cons _
  fresh other hother := by
    rcases List.mem_cons.1 hother with rfl | hother
    · exact hid
    · exact Nat.lt_of_lt_of_le (h.fresh other (List.mem_filter.1 hother).1) hfresh

end Linked

/-! ## `cleanCache` -/

theorem cleanLoop_eq (size : Nat) (rev : List (Node K V)) (hash : List (K × Nat)) (hk : (rev.map (·.first)).Nodup)
    (hp : hash.Perm (rev.map link)) : ∃ hash', cleanLoop size rev hash = some (rev.drop (rev.length - size), hash') ∧
      hash'.Perm ((rev.drop (rev.length - size)).map link) := by
  induction rev generalizing hash with
  | nil =>
    obtain rfl : hash = [] := hp.eq_nil
    exact ⟨[], by simp [cleanLoop], by simp⟩
  | cons node rev ih =>
    obtain ⟨hnode, hrev⟩ := List.nodup_cons.1 hk
    have hlen : hash.length = rev.length + 1 := by rw [hp.length_eq, List.length_map, List.length_cons]
    by_cases hfits : hash.length ≤ size
    · have hdrop : rev.length + 1 - size = 0 := by omega
      rw [cleanLoop, if_pos hfits, List.length_cons, hdrop]
      exact ⟨hash, rfl, hp⟩
    · have hdrop : rev.length + 1 - size = rev.length - size + 1 := by omega
      have hfilter : ((node :: rev).map link).filter (·.1 ≠ node.first) = rev.map link := by
        rw [← others_links, others, List.filter_cons_of_neg (by simp)]
        exact congrArg _ (others_eq_self hnode)
      obtain ⟨hash', heq, hperm⟩ := ih (hash.filter (·.1 ≠ node.first)) hrev (hfilter ▸ hp.filter _)
      rw [cleanLoop, if_neg hfits, List.length_cons, hdrop, List.drop_succ_cons]
      exact ⟨hash', heq, hperm⟩

/-- The loop ends, with the first entries and the map for them. -/
theorem cleanCache_eq {c : LruCache K V} (h : c.Linked) : ∃ c', c.cleanCache = some c' ∧ c'.Linked ∧
    c'.cacheItems = c.cacheItems.take c.cacheSize ∧ c'.cacheSize = c.cacheSize := by
  obtain ⟨hash', hloop, hperm⟩ := cleanLoop_eq c.cacheSize c.cacheItems.reverse c.cacheHash
    (by rw [List.map_reverse]; exact List.nodup_reverse.2 h.keys)
    (by rw [List.map_reverse]; exact h.hash.trans (List.reverse_perm _).symm)
  have htake : (c.cacheItems.reverse.drop (c.cacheItems.reverse.length - c.cacheSize)).reverse =
      c.cacheItems.take c.cacheSize := by
    rw [List.reverse_drop, List.reverse_reverse, List.length_reverse, List.take_eq_take_iff]
    omega
  have hclean : c.cleanCache = some { c with cacheItems := c.cacheItems.take c.cacheSize, cacheHash := hash' } := by
    rw [cleanCache, hloop, Option.map_some, htake]
  have hhash : hash'.Perm ((c.cacheItems.take c.cacheSize).map link) := by
    rw [← htake, List.map_reverse]
    exact hperm.trans (List.reverse_perm _).symm
  have hsub : (c.cacheItems.take c.cacheSize).Sublist c.cacheItems := List.take_sublist _ _
  exact ⟨_, hclean, ⟨h.keys.sublist (hsub.map _), h.ids.sublist (hsub.map _), hhash,
    fun node hnode => h.fresh node (hsub.subset hnode)⟩, rfl, rfl⟩

/-! ## The operations -/

/-- What an operation means for the least recently used list, where its iterator names an entry. -/
def meaning (c : LruCache K V) : Op K V → Option (Lru.Op K V)
  | .put key value => some (.put key value)
  | .reference key | .value key => some (.get key)
  | .existsKey key => some (.peek key)
  | .cacheSize size => some (.resize size)
  | .clear => some .clear
  | .erase it => (c.cacheItems.find? (·.id = it)).map fun node => .erase node.first

/-- What an operation returns, by the least recently used list. -/
def Returns [Inhabited V] (c : LruCache K V) (op : Op K V) (a : Answer V) : Prop :=
  match op with
  | .put _ _ | .cacheSize _ | .clear => a = .nothing
  | .reference key => a = (c.entries.find key).elim .range_error .value
  | .value key => a = .value ((c.entries.find key).getD default)
  | .existsKey key => a = .bool (c.entries.find key).isSome
  | .erase it => ∃ before node behind, c.cacheItems = before ++ node :: behind ∧ node.id = it ∧
      a = .iterator (behind.head?.map (·.id))

/-- `meaning`, by cases. -/
inductive Means (c : LruCache K V) : Op K V → Lru.Op K V → Prop where
  | put (key : K) (value : V) : Means c (.put key value) (.put key value)
  | reference (key : K) : Means c (.reference key) (.get key)
  | value (key : K) : Means c (.value key) (.get key)
  | existsKey (key : K) : Means c (.existsKey key) (.peek key)
  | cacheSize (size : Nat) : Means c (.cacheSize size) (.resize size)
  | clear : Means c .clear .clear
  | erase {node : Node K V} (h : node ∈ c.cacheItems) : Means c (.erase node.id) (.erase node.first)

omit [DecidableEq K] in
theorem means_of_meaning {c : LruCache K V} {op : Op K V} {op' : Lru.Op K V} (h : c.meaning op = some op') :
    Means c op op' := by
  cases op with
  | erase it =>
    obtain ⟨node, hf, rfl⟩ := Option.map_eq_some_iff.1 h
    obtain rfl : node.id = it := by simpa using List.find?_some hf
    exact .erase (List.mem_of_find?_eq_some hf)
  | put | reference | value | existsKey | cacheSize | clear =>
    cases h
    constructor

omit [DecidableEq K] in
theorem Means.of_erase {c : LruCache K V} {op : Op K V} {k : K} (h : Means c op (.erase k)) :
    ∃ node ∈ c.cacheItems, op = .erase node.id ∧ node.first = k := by
  cases h with
  | erase hnode => exact ⟨_, hnode, rfl, rfl⟩

/-- An iterator that is given to `erase` names an entry. -/
def Legal (c : LruCache K V) : Op K V → Prop
  | .erase it => it ∈ c.cacheItems.map (·.id)
  | _ => True

instance (c : LruCache K V) : DecidablePred c.Legal
  | .erase it => inferInstanceAs (Decidable (it ∈ c.cacheItems.map (·.id)))
  | .put _ _ | .reference _ | .value _ | .existsKey _ | .cacheSize _ | .clear => isTrue trivial

variable {c : LruCache K V}

theorem put_eq (h : c.Linked) (key : K) (value : V) : ∃ c', c.put key value = some c' ∧ c'.Linked ∧
    c'.entries = c.entries.step (.put key value) := by
  have hitems : c.eraseOld key = some (others key c.cacheItems) := by
    unfold eraseOld
    cases hl : c.cacheHash.lookup key with
    | none => rw [others_eq_self ((h.lookup_none_iff key).1 hl)]
    | some it =>
      obtain ⟨node, hnode, rfl, rfl⟩ := (h.lookup_iff key it).1 hl
      exact h.eraseNode_eq hnode
  have hnew : c.fresh ∉ (others key c.cacheItems).map (·.id) := by
    intro hm
    obtain ⟨node, hnode, hid⟩ := List.mem_map.1 hm
    exact Nat.lt_irrefl _ (hid ▸ h.fresh node (List.mem_filter.1 hnode).1)
  have hlinked := h.front ⟨c.fresh, key, value⟩ c.cacheSize (Nat.le_succ c.fresh) (Nat.lt_succ_self c.fresh) hnew
  obtain ⟨c', hclean, hlinked', htake, hsize⟩ := cleanCache_eq hlinked
  refine ⟨c', ?_, hlinked', ?_⟩
  · rw [put, hitems]
    exact hclean
  · rw [entries, htake, hsize, List.map_take, List.map_cons, others_entries]
    rfl

theorem touch_eq (h : c.Linked) (key : K) (missing : Answer V) :
    ∃ c', c.touch key missing = some (c', (c.entries.find key).elim missing .value) ∧ c'.Linked ∧
      c'.entries = c.entries.step (.get key) := by
  unfold touch Lru.Cache.step
  dsimp only
  rw [h.lookup_eq, entries_find, entries_find?]
  cases hf : c.cacheItems.find? (·.first = key) with
  | none => exact ⟨c, rfl, h, rfl⟩
  | some node =>
    have hnode := List.mem_of_find?_eq_some hf
    have hsplice : splice node.id c.cacheItems = some (node, node :: others node.first c.cacheItems) := by
      rw [splice, h.find_eq hnode, h.erase_eq hnode]
      rfl
    have hkey : node.first = key := by simpa using List.find?_some hf
    dsimp only [Option.map_some]
    rw [hsplice]
    refine ⟨_, rfl, h.perm (h.perm_front hnode), ?_⟩
    rw [entries, List.map_cons, others_entries, hkey]
    rfl

theorem erase_eq (h : c.Linked) {node : Node K V} (hnode : node ∈ c.cacheItems) :
    ∃ c' a, c.erase node.id = some (c', a) ∧ c'.Linked ∧ c'.entries = c.entries.step (.erase node.first) ∧
      ∃ before behind, c.cacheItems = before ++ node :: behind ∧ a = .iterator (behind.head?.map (·.id)) := by
  rw [erase, h.find_eq hnode, h.eraseNode_eq hnode]
  refine ⟨_, _, rfl, h.without node.first c.cacheSize (Nat.le_refl _), ?_, ?_⟩
  · rw [entries, others_entries]
    rfl
  · obtain ⟨before, behind, hitems⟩ := List.append_of_mem hnode
    have hids := h.ids
    rw [hitems] at hids ⊢
    rw [Lists.dropWhile_of_nodup (fun other : Node K V => other.id) hids]
    exact ⟨before, behind, rfl, rfl⟩

/-- Nothing undefined happens, the list is the least recently used list after the operation, and the answer is by it. -/
theorem step_refines [Inhabited V] (h : c.Linked) (op : Op K V) (hop : c.Legal op) : ∃ c' a op',
    c.step op = some (c', a) ∧ c'.Linked ∧ c.meaning op = some op' ∧ c'.entries = c.entries.step op' ∧
      c.Returns op a := by
  cases op with
  | put key value =>
    obtain ⟨c', hput, hlinked, heq⟩ := put_eq h key value
    exact ⟨c', .nothing, _, by rw [step, hput]; rfl, hlinked, rfl, heq, rfl⟩
  | reference key =>
    obtain ⟨c', htouch, hlinked, heq⟩ := touch_eq h key .range_error
    exact ⟨c', _, _, htouch, hlinked, rfl, heq, rfl⟩
  | value key =>
    obtain ⟨c', htouch, hlinked, heq⟩ := touch_eq h key (.value default)
    refine ⟨c', _, _, htouch, hlinked, rfl, heq, ?_⟩
    rw [Returns]
    cases c.entries.find key <;> rfl
  | existsKey key => exact ⟨c, _, _, rfl, h, rfl, rfl, congrArg Answer.bool (h.existsKey_eq key)⟩
  | cacheSize size =>
    have hlinked : Linked { c with cacheSize := size } := ⟨h.keys, h.ids, h.hash, h.fresh⟩
    obtain ⟨c', hclean, hlinked', htake, hsize⟩ := cleanCache_eq hlinked
    refine ⟨c', .nothing, _, by rw [step, setCacheSize, hclean]; rfl, hlinked', rfl, ?_, rfl⟩
    rw [entries, htake, hsize, List.map_take]
    rfl
  | clear =>
    exact ⟨c.clear, _, _, rfl, ⟨by simp [clear], by simp [clear], .nil, by simp [clear]⟩, rfl, rfl, rfl⟩
  | erase it =>
    obtain ⟨node, hnode, rfl⟩ := List.mem_map.1 hop
    obtain ⟨c', a, herase, hlinked, heq, before, behind, hitems, ha⟩ := erase_eq h hnode
    refine ⟨c', a, .erase node.first, herase, hlinked, ?_, heq, before, node, behind, hitems, rfl, ha⟩
    rw [meaning, h.find_eq hnode]
    rfl

/-! ## Every sequence of operations -/

/-- What an operation adds to the history: a put, or a look-up that finds its key, is a use. -/
def record (h : Lru.History K V) (c : LruCache K V) : Op K V → Lru.History K V
  | .put key value => h.put key value
  | .reference key | .value key => if c.existsKey key then h.use key else h
  | _ => h

theorem record_eq (hl : c.Linked) (h : Lru.History K V) {op : Op K V} {op' : Lru.Op K V} (hm : c.meaning op = some op') :
    record h c op = h.record c.entries op' := by
  have hget : ∀ key, (if c.existsKey key = true then h.use key else h) = if key ∈ c.entries.keys then h.use key else h := by
    intro key
    rw [hl.existsKey_eq, if_congr c.entries.find_isSome_iff rfl rfl]
  cases means_of_meaning hm with
  | reference key => exact hget key
  | value key => exact hget key
  | put | existsKey | cacheSize | clear | erase => rfl

end LruCache

/-- A cache, its history, and what it was asked for as a least recently used list. -/
structure Traced (K V : Type) where
  cache : LruCache K V
  history : Lru.History K V := {}
  asked : List (Lru.Op K V) := []

namespace Traced

/-- An empty cache. -/
def start (size : Nat) : Traced K V := { cache := { cacheSize := size } }

variable [DecidableEq K]

/-- An operation, and what it returns. -/
def call [Inhabited V] (t : Traced K V) (op : LruCache.Op K V) : Option (Traced K V × LruCache.Answer V) :=
  (t.cache.step op).map fun r =>
    (⟨r.1, LruCache.record t.history t.cache op, t.asked ++ (t.cache.meaning op).toList⟩, r.2)

def step [Inhabited V] (t : Traced K V) (op : LruCache.Op K V) : Option (Traced K V) := (t.call op).map (·.1)

def Legal (t : Traced K V) (op : LruCache.Op K V) : Prop := t.cache.Legal op

instance (t : Traced K V) (op : LruCache.Op K V) : Decidable (t.Legal op) := inferInstanceAs (Decidable (t.cache.Legal op))

/-- The map and the list agree, and both with the history. -/
structure Keeps (t : Traced K V) : Prop where
  distinct : (t.cache.cacheItems.map (·.first)).Nodup
  linked : ∀ k it, t.cache.cacheHash.lookup k = some it ↔ ∃ node ∈ t.cache.cacheItems, node.first = k ∧ node.id = it
  sizes : t.cache.cacheItems.length = t.cache.cacheHash.length
  fits : t.cache.cacheItems.length ≤ t.cache.cacheSize
  ordered : t.cache.cacheItems.Pairwise fun a b => t.history.lastUse b.first < t.history.lastUse a.first
  stored : ∀ node ∈ t.cache.cacheItems, t.history.lastPut node.first = some node.second

/-- How an entry leaves: by `erase`, by `clear`, or because it was used before all that fill the cache afterwards. -/
inductive Leaves (t' : Traced K V) (node : Node K V) : LruCache.Op K V → Prop where
  | erase : Leaves t' node (.erase node.id)
  | clear : Leaves t' node .clear
  | evicted {op : LruCache.Op K V} (hop : (∃ key value, op = .put key value) ∨ ∃ size, op = .cacheSize size)
      (hfull : t'.cache.cacheItems.length = t'.cache.cacheSize)
      (hrecent : ∀ other ∈ t'.cache.cacheItems, t'.history.lastUse node.first < t'.history.lastUse other.first) :
      Leaves t' node op

structure Inv (size : Nat) (t : Traced K V) : Prop where
  linked : t.cache.Linked
  recorded : Lru.Recorded t.cache.entries t.history
  asked : t.cache.entries = Lru.run size t.asked

theorem call_inv [Inhabited V] {size : Nat} {t : Traced K V} (hi : t.Inv size) {op : LruCache.Op K V} (hop : t.Legal op) :
    ∃ t' a op', t.call op = some (t', a) ∧ t'.Inv size ∧ t.cache.Returns op a ∧ t.cache.meaning op = some op' ∧
      t'.cache.entries = t.cache.entries.step op' ∧ t'.history = t.history.record t.cache.entries op' := by
  obtain ⟨c', a, op', hstep, hlinked, hmeans, heq, hreturns⟩ := LruCache.step_refines hi.linked op hop
  have hrecord := LruCache.record_eq hi.linked t.history hmeans
  refine ⟨_, a, op', by rw [call, hstep]; rfl, ⟨hlinked, ?_, ?_⟩, hreturns, hmeans, heq, hrecord⟩
  · dsimp only
    rw [heq, hrecord]
    exact hi.recorded.step op'
  · dsimp only
    rw [hmeans, Option.toList_some, Lru.run_concat, ← hi.asked]
    exact heq

omit [DecidableEq K] in
theorem start_linked (size : Nat) : (start size : Traced K V).cache.Linked :=
  ⟨List.nodup_nil, List.nodup_nil, .nil, by simp [start]⟩

theorem start_inv (size : Nat) : (start size : Traced K V).Inv size where
  linked := start_linked size
  recorded := ⟨List.nodup_nil, Nat.zero_le _, .nil, by simp [start, LruCache.entries], fun _ => Nat.le_refl 0⟩
  asked := rfl

theorem Inv.keeps {size : Nat} {t : Traced K V} (hi : t.Inv size) : t.Keeps where
  distinct := hi.linked.keys
  linked := hi.linked.lookup_iff
  sizes := hi.linked.size_eq
  fits := by
    have hfits := hi.recorded.fits
    rwa [LruCache.entries, List.length_map] at hfits
  ordered := List.pairwise_map.1 hi.recorded.ordered
  stored node hnode := hi.recorded.stored _ (List.mem_map.2 ⟨node, hnode, rfl⟩)

/-- An operation that is legal is defined, returns what it has to, and removes only what it may. -/
theorem Inv.call [Inhabited V] {size : Nat} {t : Traced K V} (hi : t.Inv size) {op : LruCache.Op K V} (hop : t.Legal op) :
    ∃ t' a, t.call op = some (t', a) ∧ t'.Inv size ∧ t.cache.Returns op a ∧
      ∀ node ∈ t.cache.cacheItems, node.first ∉ t'.cache.cacheItems.map (·.first) → Leaves t' node op := by
  obtain ⟨t', a, op', hcall, hi', hreturns, hmeans, hentries, hhistory⟩ := call_inv hi hop
  refine ⟨t', a, hcall, hi', hreturns, fun node hnode hout => ?_⟩
  have hmem : (node.first, node.second) ∈ t.cache.entries.entries := List.mem_map.2 ⟨node, hnode, rfl⟩
  have hkeys : t'.cache.entries.keys = t'.cache.cacheItems.map (·.first) := List.map_map
  have hleaves := Lru.leaves_step hi.recorded op' hmem (by rw [← hentries, hkeys]; exact hout)
  cases hleaves with
  | erase =>
    obtain ⟨other, hother, rfl, hfirst⟩ := (LruCache.means_of_meaning hmeans).of_erase
    obtain rfl : other = node := List.inj_on_of_nodup_map hi.linked.keys hother hnode hfirst
    exact .erase
  | clear =>
    cases LruCache.means_of_meaning hmeans
    exact .clear
  | evicted hop hfull hrecent =>
    rw [← hentries] at hfull hrecent
    rw [← hhistory] at hrecent
    refine .evicted ?_ ?_ fun other hother => hrecent _ (List.mem_map.2 ⟨other, hother, rfl⟩)
    · rcases hop with ⟨k, v, rfl⟩ | ⟨n, rfl⟩
      · cases LruCache.means_of_meaning hmeans
        exact .inl ⟨k, v, rfl⟩
      · cases LruCache.means_of_meaning hmeans
        exact .inr ⟨n, rfl⟩
    · rwa [LruCache.entries, List.length_map] at hfull

/-- From an empty cache of any size: nothing undefined happens, the cache keeps what it promises, its list is the least
recently used list after the same operations, and one more operation returns what that list has and removes only what was
erased or is among the least recently used entries of a full cache. -/
theorem lru_keeps [Inhabited V] (size : Nat) (ops : List (LruCache.Op K V))
    (hops : Runs.Along step Legal (start size) ops) : ∃ t, Runs.exec step (start size) ops = some t ∧ t.Keeps ∧
      t.cache.entries = Lru.run size t.asked ∧
      ∀ op, t.Legal op → ∃ t' a, t.call op = some (t', a) ∧ t.cache.Returns op a ∧
        ∀ node ∈ t.cache.cacheItems, node.first ∉ t'.cache.cacheItems.map (·.first) → Leaves t' node op := by
  have hprogress : ∀ (t : Traced K V) op, t.Inv size → t.Legal op → ∃ t', t.step op = some t' ∧ t'.Inv size := by
    intro t op hi hop
    obtain ⟨t', a, hcall, hi', -⟩ := hi.call hop
    exact ⟨t', by rw [step, hcall]; rfl, hi'⟩
  obtain ⟨t, hexec, hi⟩ := Runs.exec_total hprogress ops (start_inv size) hops
  refine ⟨t, hexec, hi.keeps, hi.asked, fun op hop => ?_⟩
  obtain ⟨t', a, hcall, -, hreturns, hleaves⟩ := hi.call hop
  exact ⟨t', a, hcall, hreturns, hleaves⟩

/-- Two entries of three fit; the second one leaves, although it was put after the first one, and then the third one. -/
def lookUps : List (LruCache.Op Nat Nat) :=
  [.put 1 10, .put 2 20, .value 1, .put 3 30, .reference 2, .existsKey 3, .value 1, .cacheSize 1, .put 1 11, .erase 3]

/-- Afterwards `value` finds what was put last, and makes it the first entry. -/
theorem lru_keeps_lookUps : ∃ t, Runs.exec step (start 2) lookUps = some t ∧ t.Keeps ∧
    t.cache.entries = Lru.run 2 t.asked ∧ t.Legal (.value 1) ∧
    ∃ t' a, t.call (.value 1) = some (t', a) ∧ t.cache.Returns (.value 1) a := by
  have hlegal : Runs.Along step Legal (start 2) lookUps := by
    decide
  obtain ⟨t, hexec, hkeeps, hasked, hcall⟩ := lru_keeps 2 lookUps hlegal
  obtain ⟨t', a, hstep, hreturns, -⟩ := hcall (.value 1) trivial
  exact ⟨t, hexec, hkeeps, hasked, trivial, t', a, hstep, hreturns⟩

end Traced

end Getodac
