import Getodac.Session
/-!
# Bytes that are carried over

What one request leaves in `m_httpParserBuffer` is put in front of the bytes that are
received next, by `readHeaders` and by `read`. `read` passes the bytes on; `readHeaders`
passes a pointer to them, and the string made of it ends at a NUL among the bytes, or
goes on behind them to the next NUL. `passes_carried_iff` says for which bytes both are
the same.
-/

namespace Getodac

variable {mem : Memory} {n : Nat}

/-! ## The shared buffer -/

/-- If there is room, the bytes are put in front. -/
theorem fill_room {carried : Bytes} (h : carried.length < (mem.shared n).length) :
    (Session.fill mem n carried).mem = carried ++ (mem.shared n).drop carried.length ∧
    (Session.fill mem n carried).current = carried.length ∧ (Session.fill mem n carried).stop = (mem.shared n).length := by
  unfold Session.fill
  dsimp only
  split
  · rename_i hnil
    rw [hnil]
    exact ⟨rfl, rfl, rfl⟩
  · rw [Buffer.prepend_room (b := Buffer.reset { mem := mem.shared n }) h]
    exact ⟨rfl, rfl, rfl⟩

/-- If there is not, the buffer becomes a block of their size, and nothing is behind them. -/
theorem fill_full {carried : Bytes} (hne : carried ≠ []) (h : (mem.shared n).length ≤ carried.length) :
    Session.fill mem n carried = ⟨carried, 0, carried.length⟩ := by
  unfold Session.fill
  dsimp only
  rw [if_neg hne, Buffer.prepend_full (b := Buffer.reset { mem := mem.shared n }) h]

/-- The bytes that were counted, from the front of the buffer on. -/
theorem received_eq {len : Nat} {carried bs : Bytes} (hbs : bs ≠ [])
    (hsize : bs.length + carried.length ≤ (mem.shared n).length) :
    Session.received mem n (Session.fill mem n carried) bs len =
      Buffer.currentString ⟨carried ++ bs ++ (mem.shared n).drop (carried.length + bs.length), 0, bs.length + len⟩
        (mem.behindShared n) := by
  have hpos := List.length_pos_iff.2 hbs
  obtain ⟨hmem, hcur, -⟩ := fill_room (show carried.length < (mem.shared n).length by omega)
  unfold Session.received Buffer.store
  rw [hmem, hcur, List.take_left, List.drop_append, List.drop_eq_nil_of_le (Nat.le_add_right _ _), List.drop_drop]
  simp [Buffer.reset, Buffer.setCurrentSize]

/-- If fewer bytes are put in front than are counted, the window goes past the end of the buffer. -/
theorem received_past {len : Nat} {carried bs : Bytes} (hbs : bs ≠ [])
    (hsize : (mem.shared n).length = bs.length + carried.length) (hlen : carried.length < len)
    (hm : mem.behindShared n = none) : Session.received mem n (Session.fill mem n carried) bs len = none := by
  rw [received_eq hbs hsize.ge, hm, Buffer.currentString, if_neg]
  · rfl
  · simp only [Buffer.size, List.length_append, List.length_drop]
    omega

/-! ## What is passed to the parser -/

/-- `readSome` can put the bytes into the buffer. -/
def Buffer.Fits (b : Buffer) (bs : Bytes) : Prop := bs ≠ [] ∧ bs.length ≤ b.currentSize

/-- The string that `readHeaders` puts in front. -/
def headString (carry : Bytes) (behind : Option Bytes) : Option Bytes :=
  if carry = [] then some [] else Session.cString carry behind

/-- With the string `front` put in front for the bytes `carry`, these bytes and those received are passed to the parser,
and lie in the buffer. -/
def Passes (mem : Memory) (n : Nat) (front : Option Bytes) (carry bs : Bytes) : Prop :=
  ∃ carried, front = some carried ∧
    Session.received mem n (Session.fill mem n carried) bs carry.length = some (carry ++ bs) ∧
    carry.length + bs.length ≤
      ((Session.fill mem n carried).store (Session.fill mem n carried).current bs).size

theorem fits_iff {carried bs : Bytes} (h : carried.length < (mem.shared n).length) :
    (Session.fill mem n carried).Fits bs ↔ bs ≠ [] ∧ bs.length + carried.length ≤ (mem.shared n).length := by
  obtain ⟨-, hcur, hstop⟩ := fill_room h
  rw [Buffer.Fits, Buffer.currentSize, hcur, hstop]
  exact and_congr_right fun _ => by omega

/-- The bytes themselves, put in front, are passed on. -/
theorem passes_self {carry bs : Bytes} (hlt : carry.length < (mem.shared n).length)
    (hfit : (Session.fill mem n carry).Fits bs) : Passes mem n (some carry) carry bs := by
  obtain ⟨hbs, hsize⟩ := (fits_iff hlt).1 hfit
  obtain ⟨hmem, hcur, -⟩ := fill_room hlt
  refine ⟨carry, rfl, ?_, ?_⟩
  · rw [received_eq hbs hsize, Buffer.currentString,
      if_pos (by simp only [Buffer.size, List.length_append, List.length_drop]; omega)]
    exact congrArg some (List.take_left' (by simp only [Buffer.currentSize, List.length_append]; omega))
  · rw [Buffer.size, Buffer.store, hmem, hcur]
    simp only [List.length_append, List.length_take, List.length_drop]
    omega

/-- There is always room for one byte. -/
theorem fits_one {carried : Bytes} (hpos : 0 < (mem.shared n).length) (b : UInt8) :
    (Session.fill mem n carried).Fits [b] := by
  by_cases hlt : carried.length < (mem.shared n).length
  · exact (fits_iff hlt).2 ⟨by simp, by simp; omega⟩
  · have hne : carried ≠ [] := by
      rintro rfl
      exact hlt hpos
    rw [fill_full hne (Nat.not_lt.1 hlt)]
    refine ⟨by simp, ?_⟩
    simp only [Buffer.currentSize, List.length_singleton]
    omega

/-- Where a byte that is received ends up shows how many bytes were put in front. -/
theorem eq_of_passes {carry carried : Bytes} (hne : carry ≠ []) (hlt : carry.length < (mem.shared n).length)
    (h : ∀ b, Passes mem n (some carried) carry [b]) : carried = carry := by
  have hpos := List.length_pos_iff.2 hne
  by_cases hroom : carried.length < (mem.shared n).length
  · have hwindow : ∀ b, carry ++ [b] <+: carried ++ [b] ++ (mem.shared n).drop (carried.length + 1) := by
      intro b
      obtain ⟨_, hc, hrec, -⟩ := h b
      cases hc
      rw [received_eq (by simp) (by simp; omega), Buffer.currentString,
        if_pos (by simp only [Buffer.size, List.length_append, List.length_drop, List.length_singleton]; omega)] at hrec
      rw [← Option.some.inj hrec]
      exact List.take_prefix _ _
    have h0 := hwindow 0
    have h1 := hwindow 1
    rcases Nat.lt_trichotomy carried.length carry.length with hk | hk | hk
    · -- behind fewer bytes: the received one is where a carried one should be
      have e0 := h0.getElem (i := carried.length) (by simp; omega)
      have e1 := h1.getElem (i := carried.length) (by simp; omega)
      simp [hk] at e0 e1
      exact absurd (e0.symm.trans e1) (by decide)
    · have htake := List.prefix_of_prefix_length_le ((List.prefix_append carry _).trans h0)
        ((List.prefix_append carried [0]).trans (List.prefix_append _ _)) hk.ge
      exact (htake.eq_of_length hk.symm).symm
    · -- behind more bytes: one of them is where the received one should be
      have e0 := h0.getElem (i := carry.length) (by simp)
      have e1 := h1.getElem (i := carry.length) (by simp)
      simp [hk] at e0 e1
      exact absurd (e0.trans e1.symm) (by decide)
  · -- in a buffer that was full the received byte overwrites the first one
    have hcne : carried ≠ [] := by
      rintro rfl
      exact hroom (by simp; omega)
    have hfirst : ∀ b, carry.head? = some b := by
      intro b
      obtain ⟨_, hc, hrec, -⟩ := h b
      cases hc
      rw [fill_full hcne (Nat.not_lt.1 hroom)] at hrec
      obtain ⟨c, cs, rfl⟩ := List.exists_cons_of_ne_nil hne
      obtain ⟨x, xs, rfl⟩ := List.exists_cons_of_ne_nil hcne
      simp only [List.length_cons] at hlt hroom
      rw [Session.received, Buffer.currentString, if_pos] at hrec
      · have := congrArg List.head? (Option.some.inj hrec)
        rw [List.head?_take, if_neg (by simp [Buffer.setCurrentSize, Buffer.currentSize])] at this
        exact this.symm
      · simp [Buffer.store, Buffer.reset, Buffer.setCurrentSize, Buffer.size]
        omega
    have := (hfirst 0).symm.trans (hfirst 1)
    exact absurd this (by decide)

theorem headString_self_iff (carry : Bytes) (behind : Option Bytes) :
    headString carry behind = some carry ↔
      carry = [] ∨ 0 ∉ carry ∧ ∃ g, behind = some g ∧ g.takeWhile (· ≠ 0) = [] := by
  unfold headString Session.cString
  by_cases hnil : carry = []
  · simp [hnil]
  · rw [if_neg hnil]
    by_cases h0 : (0 : UInt8) ∈ carry
    · rw [if_pos h0]
      refine iff_of_false (fun h => ?_) (fun h => h.elim hnil (·.1 h0))
      rw [← Option.some.inj h] at h0
      simpa using List.mem_takeWhile_imp h0
    · rw [if_neg h0]
      cases behind with
      | none => simp [hnil]
      | some g => simp [hnil, h0]

/-- `read` passes the carried bytes and those received to the parser, and the range lies in the shared buffer;
`readHeaders` does whatever is received, and whatever the buffer has held, exactly if nothing is carried, or if there
is no NUL in what is carried and one right behind it. -/
theorem passes_carried_iff (carry : Bytes) (behind : Option Bytes) (size : Nat) (hsize : carry.length < size) :
    (∀ mem n bs, (mem.shared n).length = size → (Session.fill mem n carry).Fits bs → Passes mem n (some carry) carry bs) ∧
    ((∀ mem n bs, (mem.shared n).length = size → mem.behindCarry n = behind →
        (∀ carried, headString carry behind = some carried → (Session.fill mem n carried).Fits bs) →
        Passes mem n (headString carry behind) carry bs) ↔
      carry = [] ∨ 0 ∉ carry ∧ ∃ g, behind = some g ∧ g.takeWhile (· ≠ 0) = []) := by
  have hself : ∀ mem n bs, (mem.shared n).length = size → (Session.fill mem n carry).Fits bs →
      Passes mem n (some carry) carry bs := fun mem n bs hs hfit => passes_self (hs.symm ▸ hsize) hfit
  refine ⟨hself, ?_⟩
  rw [← headString_self_iff]
  constructor
  · intro hall
    by_cases hnil : carry = []
    · simp [headString, hnil]
    · let mem : Memory := ⟨fun _ => List.replicate size 0, fun _ => behind, fun _ => none⟩
      have hmem : (mem.shared 0).length = size := List.length_replicate
      have hone : ∀ b, Passes mem 0 (headString carry behind) carry [b] := fun b =>
        hall mem 0 [b] hmem rfl fun carried _ => fits_one (by omega) b
      obtain ⟨carried, hfront, -⟩ := hone 0
      rw [hfront] at hone
      rw [hfront, eq_of_passes hnil (by omega) hone]
  · intro hfront mem n bs hs _ hfit
    rw [hfront]
    exact hself mem n bs hs (hfit carry hfront)

/-- A buffer that has held `A`s, and these bytes behind what is carried. -/
def usedMemory (behind : Bytes) : Memory := ⟨fun _ => List.replicate 8 65, fun _ => some behind, fun _ => none⟩

theorem passes_carried_get :
    Passes (usedMemory [0]) 0 (headString (bytes "GET") (some [0])) (bytes "GET") (bytes "/") := by
  refine (passes_carried_iff (bytes "GET") (some [0]) 8 (by decide)).2.2 (.inr ⟨by decide, [0], rfl, rfl⟩)
    (usedMemory [0]) 0 (bytes "/") (by decide) rfl fun carried _ => ?_
  exact fits_one (by decide) 47

/-- With `GET` and a NUL carried over and a `/` received, `readHeaders` passes on `GET/` and a byte that was in the
buffer before; with `GET` carried over and a `P` behind it, `GETP`. -/
theorem passes_other_bytes :
    (headString (bytes "GET" ++ [0]) (some [])).bind (fun carried =>
      Session.received (usedMemory []) 0 (Session.fill (usedMemory []) 0 carried) (bytes "/") 4) = some (bytes "GET/A") ∧
    (headString (bytes "GET") (some (bytes "P"))).bind (fun carried =>
      Session.received (usedMemory (bytes "P")) 0 (Session.fill (usedMemory (bytes "P")) 0 carried) (bytes "/") 3) =
        some (bytes "GETP") := by
  decide

variable {P : HttpParser} {s : Session P} {d : Data}

/-- One round of `readHeaders`. -/
theorem readHeadersLoop_passes {carried bs : Bytes} {rs : List ReadResult}
    (hfront : headString s.httpParserBuffer (mem.behindCarry rs.length) = some carried)
    (hfit : (Session.fill mem rs.length carried).Fits bs)
    (hpass : Passes mem rs.length (some carried) s.httpParserBuffer bs) :
    s.readHeadersLoop mem (.data bs :: rs) d =
      match Session.feedLines { s with reads := rs, canWriteError := true } d (splitLines id (s.httpParserBuffer ++ bs)) with
      | ⟨.returned, s', d'⟩ => if d'.headDone then ⟨.returned, s', d'⟩ else s'.readHeadersLoop mem rs d'
      | did => did := by
  obtain ⟨_, hc, hrec, -⟩ := hpass
  cases hc
  have hroom : ¬ (bs = [] ∨ (Session.fill mem rs.length carried).currentSize < bs.length) :=
    not_or.2 ⟨hfit.1, Nat.not_lt.2 hfit.2⟩
  rw [headString] at hfront
  generalize hdid : Session.feedLines { s with reads := rs, canWriteError := true } d
    (splitLines id (s.httpParserBuffer ++ bs)) = did
  rcases did with ⟨_ | _ | _ | _, s', d'⟩ <;>
    simp only [Session.readHeadersLoop, hfront, hroom, if_false, hrec, hdid]

/-- One round of `read`. -/
theorem readLoop_passes {bs : Bytes} {rs : List ReadResult}
    (hfit : (Session.fill mem rs.length s.httpParserBuffer).Fits bs)
    (hpass : Passes mem rs.length (some s.httpParserBuffer) s.httpParserBuffer bs) :
    s.readLoop mem (.data bs :: rs) d =
      match Session.execute { s with reads := rs } .read d (s.httpParserBuffer ++ bs) with
      | (⟨.returned, s', d'⟩, parsed) =>
        if d'.req.state = .Completed then ⟨.returned, { s' with httpParserBuffer := [] }, d'⟩
        else Session.readLoop mem rs { s' with httpParserBuffer := (s.httpParserBuffer ++ bs).drop parsed } d'
      | (did, _) => did := by
  obtain ⟨_, hc, hrec, -⟩ := hpass
  cases hc
  have hroom : ¬ (bs = [] ∨ (Session.fill mem rs.length s.httpParserBuffer).currentSize < bs.length) :=
    not_or.2 ⟨hfit.1, Nat.not_lt.2 hfit.2⟩
  generalize hdid : Session.execute { s with reads := rs } .read d (s.httpParserBuffer ++ bs) = did
  rcases did with ⟨⟨_ | _ | _ | _, s', d'⟩, parsed⟩ <;>
    simp only [Session.readLoop, hroom, if_false, hrec, hdid]

end Getodac
