import Getodac.Buffer
import Getodac.Write
/-!
# Writing on a TLS connection

`SslSocketSession::writeSome` gives `SSL_write` the first buffer alone, or a copy of
as many bytes of the vector as the socket takes. The copy is made in the loop's shared
buffer, or in a new one if that is too small or the caller is on another thread.

Whatever the session does with the answers, a plain session with some answers does
too (`sslWritev_refines`), so what is accepted is in order. But a write that OpenSSL
wants again is made from scratch: `retried_iff` says when it then passes the
same bytes from the same place.
-/

namespace Getodac

/-! ## One write -/

/-- `Dracon::ConstBuffer`: bytes and where they are. -/
structure ConstBuffer where
  ptr : Nat
  data : Bytes
deriving DecidableEq, Repr

def concat (buffers : List ConstBuffer) : Bytes := (buffers.map (·.data)).flatten

/-- `m_sharedWriteBuffer` with its address, and whether the caller is on the thread of the loop. -/
structure LoopBuffer where
  shared : Buffer
  addr : Nat
  onLoop : Bool

/-- `sharedWriteBuffer`: the buffer and its address, which is `fresh` if it is a new one. -/
def LoopBuffer.sharedWriteBuffer (l : LoopBuffer) (size fresh : Nat) : Nat × Buffer :=
  if l.onLoop = true ∧ size ≤ l.shared.size then (l.addr, l.shared) else (fresh, { mem := List.replicate size 0 })

/-- The loop that copies the buffers until there is no room. -/
def copyInto : Nat → List Bytes → Bytes
  | _, [] => []
  | room, b :: bs => if room = 0 then [] else b.take room ++ copyInto (room - min b.length room) bs

/-- What the flat buffer shows after that. -/
def flatString (flat : Buffer) (socketSize : Nat) (buffers : List Bytes) : Option Bytes :=
  let flat := flat.reset
  let bs := copyInto (min flat.size socketSize) buffers
  ((flat.store 0 bs).setCurrentSize bs.length).currentString none

/-- What `SSL_write` is passed. -/
structure SslWrite where
  addr : Nat
  bytes : Bytes
deriving DecidableEq, Repr

def intMax : Nat := 2147483647

/-- `writeSome(ConstBuffer)`. -/
def sslWriteOne (b : ConstBuffer) : SslWrite := ⟨b.ptr, b.data.take intMax⟩

/-- The buffer that is written without a copy. -/
def direct (socketSize : Nat) : List ConstBuffer → Option ConstBuffer
  | [] => none
  | b :: bs => if socketSize ≤ b.data.length ∨ bs = [] then some b else none

/-- `writeSome(std::vector<ConstBuffer>)`. -/
def sslWriteSome (l : LoopBuffer) (socketSize fresh : Nat) (buffers : List ConstBuffer) : SslWrite :=
  match direct socketSize buffers with
  | some b => sslWriteOne b
  | none =>
    let (addr, flat) := l.sharedWriteBuffer socketSize fresh
    sslWriteOne ⟨addr, (flatString flat socketSize (buffers.map (·.data))).getD []⟩

theorem copyInto_eq (room : Nat) (bs : List Bytes) : copyInto room bs = bs.flatten.take room := by
  induction bs generalizing room with
  | nil => simp [copyInto]
  | cons b bs ih =>
    rw [copyInto]
    split
    · rename_i h
      simp [h]
    · rw [ih, List.flatten_cons, List.take_append]
      congr 2
      omega

/-- The copy fits into the buffer, so it is all there. -/
theorem flatString_eq {flat : Buffer} {socketSize : Nat} (h : socketSize ≤ flat.size) (buffers : List Bytes) :
    flatString flat socketSize buffers = some (buffers.flatten.take socketSize) := by
  have hbs : copyInto (min flat.reset.size socketSize) buffers = buffers.flatten.take socketSize := by
    rw [copyInto_eq]
    congr 1
    exact Nat.min_eq_right h
  have hlen : (buffers.flatten.take socketSize).length ≤ flat.size := by
    rw [List.length_take]
    omega
  unfold flatString
  dsimp only
  rw [hbs]
  generalize buffers.flatten.take socketSize = bs at hlen
  have hsize : (flat.reset.store 0 bs).size = flat.size := Buffer.store_size (by rw [Nat.zero_add]; exact hlen)
  unfold Buffer.currentString
  rw [if_pos]
  · simp [Buffer.setCurrentSize, Buffer.currentSize, Buffer.store, Buffer.reset]
  · change (flat.reset.store 0 bs).current + bs.length ≤ (flat.reset.store 0 bs).size
    rw [hsize]
    simpa [Buffer.store, Buffer.reset] using hlen

theorem sharedWriteBuffer_size (l : LoopBuffer) (size fresh : Nat) : size ≤ (l.sharedWriteBuffer size fresh).2.size := by
  unfold LoopBuffer.sharedWriteBuffer
  split
  · rename_i h
    exact h.2
  · simp [Buffer.size]

theorem sslWriteSome_flat {l : LoopBuffer} {socketSize : Nat} {buffers : List ConstBuffer}
    (h : direct socketSize buffers = none) (fresh : Nat) :
    sslWriteSome l socketSize fresh buffers =
      ⟨(l.sharedWriteBuffer socketSize fresh).1, ((concat buffers).take socketSize).take intMax⟩ := by
  unfold sslWriteSome
  rw [h]
  dsimp only
  rw [flatString_eq (sharedWriteBuffer_size l socketSize fresh)]
  rfl

theorem sslWriteSome_direct {l : LoopBuffer} {socketSize : Nat} {buffers : List ConstBuffer} {b : ConstBuffer}
    (h : direct socketSize buffers = some b) (fresh : Nat) : sslWriteSome l socketSize fresh buffers = sslWriteOne b := by
  unfold sslWriteSome
  rw [h]

theorem direct_eq_some {socketSize : Nat} {buffers : List ConstBuffer} {b : ConstBuffer}
    (h : direct socketSize buffers = some b) :
    ∃ bs, buffers = b :: bs ∧ (socketSize ≤ b.data.length ∨ bs = []) := by
  cases buffers with
  | nil => cases h
  | cons a bs =>
    rw [direct] at h
    split at h
    · cases h
      exact ⟨bs, rfl, ‹_›⟩
    · cases h

/-- `SSL_write` is passed the first bytes of the vector, and at least one if there is one and the socket takes one. -/
theorem sslWriteSome_bytes (l : LoopBuffer) (socketSize fresh : Nat) (buffers : List ConstBuffer) :
    (sslWriteSome l socketSize fresh buffers).bytes <+: concat buffers ∧
    (concat buffers ≠ [] → 0 < socketSize → (sslWriteSome l socketSize fresh buffers).bytes ≠ []) := by
  have hmax : 0 < intMax := by decide
  cases h : direct socketSize buffers with
  | some b =>
    obtain ⟨bs, rfl, hb⟩ := direct_eq_some h
    rw [sslWriteSome_direct h]
    refine ⟨?_, fun hne hpos => ?_⟩
    · refine ⟨b.data.drop intMax ++ concat bs, ?_⟩
      rw [sslWriteOne, ← List.append_assoc, List.take_append_drop]
      rfl
    · have hdata : b.data ≠ [] := by
        rcases hb with hb | rfl
        · exact List.length_pos_iff.1 (by omega)
        · simpa [concat] using hne
      have := List.length_pos_iff.2 hdata
      refine List.length_pos_iff.1 ?_
      rw [sslWriteOne, List.length_take]
      omega
  | none =>
    rw [sslWriteSome_flat h]
    refine ⟨?_, fun hne hpos => ?_⟩
    · dsimp only
      rw [List.take_take]
      exact ⟨_, List.take_append_drop _ _⟩
    · have := List.length_pos_iff.2 hne
      refine List.length_pos_iff.1 ?_
      rw [List.length_take, List.length_take]
      omega

/-! ## The gathering write -/

/-- What one call of `writeSome` meets: `socketWriteSize()`, and what `SSL_write` and then `m_yield()` answer. -/
structure SslAnswer where
  socketSize : Nat
  result : WriteResult
deriving DecidableEq, Repr

/-- What a write did, with the calls of `SSL_write`, and for each whether it is tried again. -/
structure SslWrote where
  outcome : Outcome
  sent : Bytes
  calls : List (SslWrite × Bool)
deriving DecidableEq, Repr

def SslWrote.called (w : SslWrote) (c : SslWrite) (again : Bool) (taken : Bytes) : SslWrote :=
  { w with sent := taken ++ w.sent, calls := (c, again) :: w.calls }

/-- `reslice`, with the addresses. -/
def resliceAt (buffers : List ConstBuffer) : List ConstBuffer → Nat → List ConstBuffer × Nat
  | [], written => (buffers, written)
  | b :: bs, written =>
    if b.data.length ≤ written then resliceAt buffers bs (written - b.data.length)
    else (⟨b.ptr + written, b.data.drop written⟩ :: bs, written)

/-- What the loop goes on with after a partial write. -/
def goesOn (buffers : List ConstBuffer) (written : Nat) : Option (List ConstBuffer) :=
  let (buffers', written') := resliceAt buffers buffers written
  if written' = 0 then none else some buffers'

/-- `write(std::vector<ConstBuffer>)` of a TLS session. A buffer that is allocated with `n` answers to come is at
`alloc n`. -/
def sslWritev (l : LoopBuffer) (alloc : Nat → Nat) : List ConstBuffer → List SslAnswer → SslWrote
  | _, [] => ⟨.suspended, [], []⟩
  | buffers, a :: as =>
    let c := sslWriteSome l a.socketSize (alloc as.length) buffers
    match a.result with
    | .again none => (sslWritev l alloc buffers as).called c true []
    | .again (some ec) => ⟨.threw ec, [], [(c, false)]⟩
    | .failed _ => ⟨.threw .io_error, [], [(c, false)]⟩
    | .room k _ =>
      let written := min k c.bytes.length
      -- `SSL_write` of nothing fails
      if written = 0 then ⟨.threw .io_error, [], [(c, false)]⟩
      else
        match goesOn buffers written with
        | none => ⟨.returned, c.bytes.take written, [(c, false)]⟩
        | some buffers' => (sslWritev l alloc buffers' as).called c false (c.bytes.take written)

/-- `write(ConstBuffer)` of a TLS session. -/
def sslWrite : ConstBuffer → List SslAnswer → SslWrote
  | b, [] => if b.data = [] then ⟨.returned, [], []⟩ else ⟨.suspended, [], []⟩
  | b, a :: as =>
    if b.data = [] then ⟨.returned, [], []⟩
    else
      let c := sslWriteOne b
      match a.result with
      | .again none => (sslWrite b as).called c true []
      | .again (some ec) => ⟨.threw ec, [], [(c, false)]⟩
      | .failed _ => ⟨.threw .io_error, [], [(c, false)]⟩
      | .room k _ =>
        let written := min k c.bytes.length
        (sslWrite ⟨b.ptr + written, b.data.drop written⟩ as).called c false (c.bytes.take written)

theorem resliceAt_eq (all : List ConstBuffer) (bs : List ConstBuffer) (w : Nat) :
    reslice (all.map (·.data)) (bs.map (·.data)) w = ((resliceAt all bs w).1.map (·.data), (resliceAt all bs w).2) := by
  induction bs generalizing w with
  | nil => rfl
  | cons b bs ih =>
    rw [List.map_cons, reslice, resliceAt]
    split
    · exact ih _
    · rfl

theorem goesOn_eq_none {buffers : List ConstBuffer} {w : Nat} (h : goesOn buffers w = none) :
    (resliceAt buffers buffers w).2 = 0 := by
  by_contra hz
  simp [goesOn, hz] at h

theorem goesOn_eq_some {buffers buffers' : List ConstBuffer} {w : Nat} (h : goesOn buffers w = some buffers') :
    (resliceAt buffers buffers w).2 ≠ 0 ∧ (resliceAt buffers buffers w).1 = buffers' := by
  simpa [goesOn] using h

/-- A TLS session writes as a plain one does with some answers of its socket. -/
theorem sslWritev_refines (l : LoopBuffer) (alloc : Nat → Nat) (buffers : List ConstBuffer) (as : List SslAnswer) :
    ∃ rs, (sslWritev l alloc buffers as).outcome = (writev (buffers.map (·.data)) rs).outcome ∧
      (sslWritev l alloc buffers as).sent = (writev (buffers.map (·.data)) rs).sent := by
  induction as generalizing buffers with
  | nil => exact ⟨[], rfl, rfl⟩
  | cons a as ih =>
    obtain ⟨size, r⟩ := a
    rw [sslWritev]
    dsimp only
    match r with
    | .again none =>
      obtain ⟨rs, ho, hs⟩ := ih buffers
      exact ⟨.again none :: rs, ho, hs⟩
    | .again (some ec) => exact ⟨[.again (some ec)], rfl, rfl⟩
    | .failed ec => exact ⟨[.failed .io_error], rfl, rfl⟩
    | .room k hk =>
      generalize hc : sslWriteSome l size (alloc as.length) buffers = c
      have hpre : c.bytes <+: concat buffers := hc ▸ (sslWriteSome_bytes l size (alloc as.length) buffers).1
      dsimp only
      split
      · exact ⟨[.failed .io_error], rfl, rfl⟩
      · -- the plain socket takes as many bytes as `SSL_write` did
        rename_i hw
        obtain ⟨w, hweq⟩ : ∃ w, w = min k c.bytes.length := ⟨_, rfl⟩
        have hlen := hpre.length_le
        have hmin : min w (buffers.map (·.data)).flatten.length = w :=
          Nat.min_eq_left (by rw [hweq]; exact le_trans (by omega) hlen)
        have htake : c.bytes.take w = (buffers.map (·.data)).flatten.take w := by
          obtain ⟨rest, hrest⟩ := hpre
          rw [show (buffers.map (·.data)).flatten = c.bytes ++ rest from hrest.symm,
            List.take_append_of_le_length (by omega)]
        have hre := resliceAt_eq buffers buffers w
        rw [← hweq] at hw ⊢
        rw [htake]
        have hpos : 0 < w := by omega
        have hwritev : ∀ rs, writev (buffers.map (·.data)) (.room w hpos :: rs) =
            if (resliceAt buffers buffers w).2 = 0 then ⟨.returned, (buffers.map (·.data)).flatten.take w, 0, rs⟩
            else (writev ((resliceAt buffers buffers w).1.map (·.data)) rs).took ((buffers.map (·.data)).flatten.take w) := by
          intro rs
          rw [writev]
          dsimp only
          rw [hmin, if_neg hw, hre]
        cases hgo : goesOn buffers w with
        | none =>
          refine ⟨[.room w hpos], ?_⟩
          rw [hwritev, if_pos (goesOn_eq_none hgo)]
          exact ⟨rfl, rfl⟩
        | some buffers' =>
          have hz := goesOn_eq_some hgo
          obtain ⟨rs, ho, hs⟩ := ih buffers'
          refine ⟨.room w hpos :: rs, ?_⟩
          rw [hwritev, if_neg hz.1, hz.2]
          exact ⟨ho, congrArg _ hs⟩

/-- On a plain connection and on a TLS one alike, whatever the socket answers, the bytes that a gathering write has got
accepted are a prefix of the concatenation, and each `SSL_write` is passed a prefix of what is left, which is not empty if
that is not. -/
theorem gathers_in_order (l : LoopBuffer) (alloc : Nat → Nat) (buffers : List ConstBuffer) (rs : List WriteResult)
    (as : List SslAnswer) (socketSize fresh : Nat) :
    (writev (buffers.map (·.data)) rs).sent <+: concat buffers ∧
    (sslWritev l alloc buffers as).sent <+: concat buffers ∧
    (sslWriteSome l socketSize fresh buffers).bytes <+: concat buffers ∧
    (concat buffers ≠ [] → 0 < socketSize → (sslWriteSome l socketSize fresh buffers).bytes ≠ []) := by
  refine ⟨(writev_isPrefix _ rs).1, ?_, sslWriteSome_bytes l socketSize fresh buffers⟩
  obtain ⟨rs', -, hsent⟩ := sslWritev_refines l alloc buffers as
  rw [hsent]
  exact (writev_isPrefix _ rs').1

/-! ## Writes that are made again -/

/-- OpenSSL takes the second call for the first made again: the same address and at least the same length. -/
def SslWrite.Repeats (c c' : SslWrite) : Prop := c'.addr = c.addr ∧ c.bytes.length ≤ c'.bytes.length

instance (c c' : SslWrite) : Decidable (c.Repeats c') := inferInstanceAs (Decidable (_ ∧ _))

/-- Each call that OpenSSL wants again is made again. -/
def Retried (calls : List (SslWrite × Bool)) : Prop := calls.IsChain fun c c' => c.2 = true → c.1.Repeats c'.1

instance (calls : List (SslWrite × Bool)) : Decidable (Retried calls) := inferInstanceAs (Decidable (List.IsChain _ _))

/-- With these two sizes of the socket the vector is written in the same way: both times without a copy, or both times from
the shared buffer and then not less. -/
def SameWay (l : LoopBuffer) (buffers : List ConstBuffer) (size size' : Nat) : Prop :=
  (direct size buffers ≠ none ∧ direct size' buffers ≠ none) ∨
  (direct size buffers = none ∧ direct size' buffers = none ∧
    l.onLoop = true ∧ size ≤ l.shared.size ∧ size' ≤ l.shared.size ∧
    (((concat buffers).take size).take intMax).length ≤ (((concat buffers).take size').take intMax).length)

instance (l : LoopBuffer) (buffers : List ConstBuffer) (size size' : Nat) : Decidable (SameWay l buffers size size') :=
  inferInstanceAs (Decidable (_ ∨ _))

/-- Between a call that OpenSSL wants again and the next one the size of the socket does not change the way. -/
def Steady (l : LoopBuffer) : List ConstBuffer → List SslAnswer → Prop
  | _, [] => True
  | buffers, a :: as =>
    match a.result with
    | .again none => (∀ a' ∈ as.head?, SameWay l buffers a.socketSize a'.socketSize) ∧ Steady l buffers as
    | .again (some _) => True
    | .failed _ => True
    | .room k _ =>
      let written := min k (sslWriteSome l a.socketSize 0 buffers).bytes.length
      if written = 0 then True
      else
        match goesOn buffers written with
        | none => True
        | some buffers' => Steady l buffers' as

instance decidableSteady (l : LoopBuffer) : ∀ buffers as, Decidable (Steady l buffers as)
  | _, [] => isTrue trivial
  | buffers, ⟨size, .again none⟩ :: as =>
    haveI := decidableSteady l buffers as
    inferInstanceAs (Decidable ((∀ a' ∈ as.head?, SameWay l buffers size a'.socketSize) ∧ Steady l buffers as))
  | _, ⟨_, .again (some _)⟩ :: _ => isTrue trivial
  | _, ⟨_, .failed _⟩ :: _ => isTrue trivial
  | buffers, ⟨size, .room k hk⟩ :: as =>
    haveI := fun buffers' => decidableSteady l buffers' as
    decidable_of_iff (min k (sslWriteSome l size 0 buffers).bytes.length = 0 ∨
        ∀ buffers' ∈ goesOn buffers (min k (sslWriteSome l size 0 buffers).bytes.length), Steady l buffers' as) (by
      rw [Steady]
      dsimp only
      split
      · simp [*]
      · cases goesOn buffers (min k (sslWriteSome l size 0 buffers).bytes.length) with
        | none => simp
        | some buffers' => simp [*])

/-- The loop's shared buffer is not in the buffer of a handler. -/
def Apart (l : LoopBuffer) (b : ConstBuffer) : Prop := l.addr < b.ptr ∨ b.ptr + b.data.length < l.addr

instance (l : LoopBuffer) (b : ConstBuffer) : Decidable (Apart l b) := inferInstanceAs (Decidable (_ ∨ _))

theorem sharedWriteBuffer_addr (l : LoopBuffer) (size fresh : Nat) :
    (l.sharedWriteBuffer size fresh).1 = if l.onLoop = true ∧ size ≤ l.shared.size then l.addr else fresh := by
  unfold LoopBuffer.sharedWriteBuffer
  split <;> rfl

/-- A copy is not where a buffer of the handler is, for some address of a new one. -/
theorem exists_copy_ne {l : LoopBuffer} {b : ConstBuffer} (h : Apart l b) (size : Nat) :
    ∃ fresh, (l.sharedWriteBuffer size fresh).1 ≠ b.ptr := by
  refine ⟨b.ptr + 1, ?_⟩
  rw [sharedWriteBuffer_addr]
  unfold Apart at h
  split <;> omega

/-- Two copies are in the same place, whatever addresses new buffers get, exactly if both are in the shared buffer. -/
theorem same_copy_iff (l : LoopBuffer) (size size' : Nat) :
    (∀ fresh fresh', (l.sharedWriteBuffer size' fresh').1 = (l.sharedWriteBuffer size fresh).1) ↔
      l.onLoop = true ∧ size ≤ l.shared.size ∧ size' ≤ l.shared.size := by
  simp only [sharedWriteBuffer_addr]
  constructor
  · intro h
    have h1 : l.onLoop = true ∧ size ≤ l.shared.size := by
      by_contra hn
      have ha := h 0 2
      have hb := h 1 2
      rw [if_neg hn] at ha hb
      omega
    have h2 : l.onLoop = true ∧ size' ≤ l.shared.size := by
      by_contra hn
      have ha := h 2 0
      have hb := h 2 1
      rw [if_neg hn] at ha hb
      omega
    exact ⟨h1.1, h1.2, h2.2⟩
  · rintro ⟨hon, hs, hs'⟩ fresh fresh'
    rw [if_pos ⟨hon, hs'⟩, if_pos ⟨hon, hs⟩]

/-- Whatever addresses new buffers get, the second of two calls repeats the first exactly if the way is the same. -/
theorem repeats_iff {l : LoopBuffer} {buffers : List ConstBuffer} (hapart : ∀ b ∈ buffers, Apart l b) (size size' : Nat) :
    (∀ fresh fresh', (sslWriteSome l size fresh buffers).Repeats (sslWriteSome l size' fresh' buffers)) ↔
      SameWay l buffers size size' := by
  unfold SameWay SslWrite.Repeats
  cases hd : direct size buffers with
  | some b =>
    obtain ⟨bs, rfl, -⟩ := direct_eq_some hd
    cases hd' : direct size' (b :: bs) with
    | some b' =>
      obtain ⟨bs', heq, -⟩ := direct_eq_some hd'
      cases heq
      simp [sslWriteSome_direct hd, sslWriteSome_direct hd']
    | none =>
      obtain ⟨fresh, hne⟩ := exists_copy_ne (hapart b List.mem_cons_self) size'
      refine iff_of_false (fun h => hne ?_) (by simp)
      have haddr := (h 0 fresh).1
      rwa [sslWriteSome_direct hd, sslWriteSome_flat hd'] at haddr
  | none =>
    cases hd' : direct size' buffers with
    | some b =>
      obtain ⟨bs, rfl, -⟩ := direct_eq_some hd'
      obtain ⟨fresh, hne⟩ := exists_copy_ne (hapart b List.mem_cons_self) size
      refine iff_of_false (fun h => hne ?_) (by simp)
      have haddr := (h fresh 0).1
      rw [sslWriteSome_direct hd', sslWriteSome_flat hd] at haddr
      exact haddr.symm
    | none =>
      simp only [sslWriteSome_flat hd, sslWriteSome_flat hd', ne_eq, not_true_eq_false, false_and, false_or, true_and]
      rw [← and_assoc, ← and_assoc, and_assoc (b := size ≤ _), ← same_copy_iff]
      constructor
      · intro h
        exact ⟨fun fresh fresh' => (h fresh fresh').1, (h 0 0).2⟩
      · rintro ⟨haddr, hle⟩ fresh fresh'
        exact ⟨haddr fresh fresh', hle⟩

theorem sslWriteSome_fresh (l : LoopBuffer) (size fresh : Nat) (buffers : List ConstBuffer) :
    (sslWriteSome l size fresh buffers).bytes = (sslWriteSome l size 0 buffers).bytes := by
  cases h : direct size buffers with
  | some b => rw [sslWriteSome_direct h, sslWriteSome_direct h]
  | none => rw [sslWriteSome_flat h, sslWriteSome_flat h]

theorem resliceAt_apart {l : LoopBuffer} {all : List ConstBuffer} (hall : ∀ b ∈ all, Apart l b) (bs : List ConstBuffer)
    (hbs : ∀ b ∈ bs, Apart l b) (w : Nat) : ∀ b ∈ (resliceAt all bs w).1, Apart l b := by
  induction bs generalizing w with
  | nil => exact hall
  | cons b bs ih =>
    rw [resliceAt]
    split
    · exact ih (fun x hx => hbs x (List.mem_cons_of_mem _ hx)) _
    · rename_i hlt
      intro x hx
      rcases List.mem_cons.1 hx with rfl | hx
      · have hb := hbs b List.mem_cons_self
        unfold Apart at hb ⊢
        dsimp only
        rw [List.length_drop]
        omega
      · exact hbs x (List.mem_cons_of_mem _ hx)

/-- The calls start with the write of the whole vector. -/
theorem sslWritev_calls (l : LoopBuffer) (alloc : Nat → Nat) (buffers : List ConstBuffer) (a : SslAnswer)
    (as : List SslAnswer) :
    ∃ again rest, (sslWritev l alloc buffers (a :: as)).calls =
      (sslWriteSome l a.socketSize (alloc as.length) buffers, again) :: rest := by
  rw [sslWritev]
  dsimp only
  split
  · exact ⟨_, _, rfl⟩
  · exact ⟨_, _, rfl⟩
  · exact ⟨_, _, rfl⟩
  · split
    · exact ⟨_, _, rfl⟩
    · split <;> exact ⟨_, _, rfl⟩

theorem sslWritev_retried_iff {l : LoopBuffer} (as : List SslAnswer) (buffers : List ConstBuffer)
    (hapart : ∀ b ∈ buffers, Apart l b) :
    (∀ alloc, Retried (sslWritev l alloc buffers as).calls) ↔ Steady l buffers as := by
  induction as generalizing buffers with
  | nil => simp [sslWritev, Retried, Steady]
  | cons a as ih =>
    obtain ⟨size, r⟩ := a
    match r with
    | .again none =>
      simp only [sslWritev, SslWrote.called, Retried, List.isChain_cons, forall_and, Steady]
      refine and_congr ?_ (ih buffers hapart)
      cases as with
      | nil => simp [sslWritev]
      | cons a' as =>
        simp only [List.head?_cons, Option.mem_some_iff, forall_eq', ← repeats_iff hapart, forall_const]
        constructor
        · intro h fresh fresh'
          -- the two calls may get these addresses
          obtain ⟨again, rest, hcalls⟩ := sslWritev_calls l (fun n => if n = as.length then fresh' else fresh) buffers a' as
          have := h (fun n => if n = as.length then fresh' else fresh) _ (by rw [hcalls]; rfl)
          simpa using this
        · intro h alloc c hc
          obtain ⟨again, rest, hcalls⟩ := sslWritev_calls l alloc buffers a' as
          rw [hcalls] at hc
          cases hc
          exact h _ _
    | .again (some ec) => simp [sslWritev, Retried, Steady]
    | .failed ec => simp [sslWritev, Retried, Steady]
    | .room k hk =>
      simp only [sslWritev, Steady, sslWriteSome_fresh l size (_ : Nat) buffers]
      split
      · simp [Retried]
      · split
        · simp [Retried]
        · rename_i buffers' hgo
          rw [← ih buffers' ((goesOn_eq_some hgo).2 ▸ resliceAt_apart hapart buffers hapart _)]
          simp [SslWrote.called, Retried, List.isChain_cons]

/-- A single buffer is written from where it is. -/
theorem sslWrite_retried (as : List SslAnswer) (b : ConstBuffer) : Retried (sslWrite b as).calls := by
  induction as generalizing b with
  | nil =>
    rw [sslWrite]
    split <;> exact .nil
  | cons a as ih =>
    obtain ⟨size, r⟩ := a
    rw [sslWrite]
    split
    · exact .nil
    · rename_i hne
      match r with
      | .again none =>
        refine List.isChain_cons.2 ⟨fun c hc _ => ?_, ih b⟩
        have hcall : c.1 = sslWriteOne b := by
          cases as with
          | nil => simp [sslWrite, hne] at hc
          | cons a' as =>
            rw [sslWrite, if_neg hne] at hc
            dsimp only at hc
            split at hc <;> simp [SslWrote.called] at hc <;> rw [← hc]
        rw [hcall]
        exact ⟨rfl, Nat.le_refl _⟩
      | .again (some ec) => exact .singleton _
      | .failed ec => exact .singleton _
      | .room k hk => exact List.isChain_cons.2 ⟨fun c _ h => absurd h (by simp), ih _⟩

/-- Whatever addresses new buffers get, every call that OpenSSL wants again is made again exactly if the size of the socket
does not change the way in which the vector is written meanwhile. Single buffers are always written in the same way. -/
theorem retried_iff (l : LoopBuffer) (buffers : List ConstBuffer) (as : List SslAnswer) (hapart : ∀ b ∈ buffers, Apart l b) :
    ((∀ alloc, Retried (sslWritev l alloc buffers as).calls) ↔ Steady l buffers as) ∧
    ∀ b, Retried (sslWrite b as).calls :=
  ⟨sslWritev_retried_iff as buffers hapart, sslWrite_retried as⟩

/-- A shared buffer of sixteen bytes. -/
def sixteen : LoopBuffer := ⟨{ mem := List.replicate 16 0 }, 1000, true⟩

def abcd : List ConstBuffer := [⟨10, bytes "ab"⟩, ⟨20, bytes "cd"⟩]

/-- The socket takes eight bytes, before and after the wait. -/
theorem retried_eight :
    Retried (sslWritev sixteen id abcd [⟨8, .again none⟩, ⟨8, .room 9 (by decide)⟩]).calls ∧
    (sslWritev sixteen id abcd [⟨8, .again none⟩, ⟨8, .room 9 (by decide)⟩]).sent = bytes "abcd" := by
  have h := (retried_iff sixteen abcd [⟨8, .again none⟩, ⟨8, .room 9 (by decide)⟩] (by decide)).1
  exact ⟨h.2 (by decide) id, by decide⟩

/-- The socket takes seventeen bytes: each try copies them into a new buffer. -/
theorem retried_elsewhere :
    ¬ Retried (sslWritev sixteen id abcd [⟨17, .again none⟩, ⟨17, .room 9 (by decide)⟩]).calls := by
  decide

end Getodac
