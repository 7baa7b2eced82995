import Getodac.Coroutine
/-!
# `ioLoop`, answer by answer

The coroutine of `Point` does what `Session.ioLoop` does with the lists of all
answers: `play` gives it the answers in the order in which it asks for them, and
where it then is `ioLoop` has got to (`play_ioLoop`).

`Rest` says at each point what is left of `ioLoop`; one answer keeps it
(`step_meets`). The two sessions differ in the answers that are still to come and
in the trace, which mentions them.
-/

namespace Getodac

variable {P : HttpParser}

/-- The answers to come. -/
structure Script where
  reads : List ReadResult
  writes : List WriteResult
  yields : List (Option ErrorCode)

def Script.size (scr : Script) : Nat := scr.reads.length + scr.writes.length + scr.yields.length

/-- The memory when `n` answers of `readSome` are to come. -/
def Memory.at (mem : Memory) (n : Nat) : Memory where
  shared _ := mem.shared n
  behindCarry _ := mem.behindCarry n
  behindShared _ := mem.behindShared n

namespace Session

def script (s : Session P) : Script := ⟨s.reads, s.writes, s.yields⟩

/-- Equal but for the answers to come and the trace. -/
def Alike (s t : Session P) : Prop := ∃ R W Y T, t = { s with reads := R, writes := W, yields := Y, trace := T }

variable {s t : Session P}

theorem Alike.refl (s : Session P) : s.Alike s := ⟨_, _, _, _, rfl⟩

theorem Alike.keepAlive (h : s.Alike t) : t.keepAlive = s.keepAlive := by
  obtain ⟨R, W, Y, T, rfl⟩ := h
  rfl

theorem Alike.canWriteError (h : s.Alike t) : t.canWriteError = s.canWriteError := by
  obtain ⟨R, W, Y, T, rfl⟩ := h
  rfl

theorem Alike.carry (h : s.Alike t) : t.httpParserBuffer = s.httpParserBuffer := by
  obtain ⟨R, W, Y, T, rfl⟩ := h
  rfl

theorem Alike.keep (h : s.Alike t) (bs : Bytes) :
    Alike { s with httpParserBuffer := bs } { t with httpParserBuffer := bs } := by
  obtain ⟨R, W, Y, T, rfl⟩ := h
  exact ⟨_, _, _, _, rfl⟩

/-! ## Reading -/

theorem execute_alike (h : s.Alike t) (phase : Phase) (d : Data) (bs : Bytes) : ∃ ended s' t' d' n,
    s.execute phase d bs = (⟨ended, s', d'⟩, n) ∧ t.execute phase d bs = (⟨ended, t', d'⟩, n) ∧ ended ≠ .suspended ∧
    s'.Alike t' ∧ s'.script = s.script := by
  obtain ⟨R, W, Y, T, rfl⟩ := h
  unfold execute
  dsimp only [log]
  split
  · exact ⟨_, _, _, _, _, rfl, rfl, by simp, ⟨_, _, _, _, rfl⟩, rfl⟩
  · split <;> exact ⟨_, _, _, _, _, rfl, rfl, by simp, ⟨_, _, _, _, rfl⟩, rfl⟩

theorem feedLines_alike (h : s.Alike t) (d : Data) (ls : List Bytes) : ∃ ended s' t' d',
    s.feedLines d ls = ⟨ended, s', d'⟩ ∧ t.feedLines d ls = ⟨ended, t', d'⟩ ∧ ended ≠ .suspended ∧ s'.Alike t' ∧
    s'.script = s.script := by
  induction ls generalizing s t d with
  | nil => exact ⟨_, _, _, _, rfl, rfl, by simp, h.keep [], rfl⟩
  | cons l ls ih =>
    obtain ⟨ended, s', t', d', n, hs, ht, hne, h', hscript⟩ := execute_alike h .readHeaders d l
    unfold feedLines
    rw [hs, ht]
    split
    · exact ⟨_, _, _, _, rfl, rfl, by simp, h.keep _, rfl⟩
    · cases ended with
      | returned =>
        dsimp only
        split
        · exact ⟨_, _, _, _, rfl, rfl, hne, h'.keep _, hscript⟩
        · exact hscript ▸ ih h' d'
      | threw e | suspended | crashed => exact ⟨_, _, _, _, rfl, rfl, hne, h', hscript⟩

/-- `readSome` can put these bytes behind the carried ones. -/
def Fits (mem : Memory) (n : Nat) (carried : Bytes) : ReadResult → Prop
  | .data bs => bs ≠ [] ∧ bs.length ≤ (fill mem n carried).currentSize
  | _ => True

theorem Fits.room {mem : Memory} {n : Nat} {carried bs : Bytes} (h : Fits mem n carried (.data bs)) :
    ¬ (bs = [] ∨ (fill mem n carried).currentSize < bs.length) := by
  rintro (hnil | hlt)
  · exact h.1 hnil
  · exact absurd h.2 (by omega)

theorem not_fits {mem : Memory} {n : Nat} {carried : Bytes} {r : ReadResult} (h : ¬ Fits mem n carried r) :
    ∃ bs, r = .data bs ∧ (bs = [] ∨ (fill mem n carried).currentSize < bs.length) := by
  match r with
  | .data bs =>
    refine ⟨bs, rfl, ?_⟩
    by_contra hroom
    exact h ⟨fun hnil => hroom (.inl hnil), Nat.le_of_not_lt fun hlt => hroom (.inr hlt)⟩
  | .again _ | .failed _ => exact absurd trivial h

instance (mem : Memory) (n : Nat) (carried : Bytes) : (r : ReadResult) → Decidable (Fits mem n carried r)
  | .data bs => inferInstanceAs (Decidable (bs ≠ [] ∧ bs.length ≤ (fill mem n carried).currentSize))
  | .again _ | .failed _ => isTrue trivial

/-- An operation with the answers of `readSome` from the next one on, and with that one alone: where it then waits, it
goes on with the others. -/
inductive Continues (go : Session P → Data → Did P) (scr : Script) : Did P → Did P → Prop where
  | wait {s t : Session P} {d : Data} (h : s.Alike t) (hscript : s.script = scr) :
    Continues go scr (go s d) ⟨.suspended, t, d⟩
  | stop {s t : Session P} {ended : Ended} {d : Data} (hne : ended ≠ .suspended) (h : s.Alike t)
      (hscript : s.script = scr) : Continues go scr ⟨ended, s, d⟩ ⟨ended, t, d⟩

theorem readLoop_continues (mem : Memory) (h : s.Alike t) {r : ReadResult} {rs : List ReadResult}
    (hfits : Fits mem rs.length s.httpParserBuffer r) (d : Data) :
    Continues (readLoop mem rs) { s.script with reads := rs } (readLoop mem (r :: rs) s d)
      (readLoop (mem.at rs.length) [r] { t with reads := [r] } d) := by
  obtain ⟨R, W, Y, T, rfl⟩ := h
  cases r with
  | failed ec => exact .stop (by simp) ⟨_, _, _, _, rfl⟩ rfl
  | again resume =>
    cases resume with
    | none => exact .wait ⟨_, _, _, _, rfl⟩ rfl
    | some ec => exact .stop (by simp) ⟨_, _, _, _, rfl⟩ rfl
  | data bs =>
    have hroom : ¬ (bs = [] ∨ (fill mem rs.length s.httpParserBuffer).currentSize < bs.length) := hfits.room
    have hroom' : ¬ (bs = [] ∨ (fill (mem.at rs.length) 0 s.httpParserBuffer).currentSize < bs.length) := hroom
    unfold readLoop
    dsimp only [List.length_nil]
    rw [if_neg hroom, if_neg hroom']
    have hat : received (mem.at rs.length) 0 (fill (mem.at rs.length) 0 s.httpParserBuffer) bs s.httpParserBuffer.length =
        received mem rs.length (fill mem rs.length s.httpParserBuffer) bs s.httpParserBuffer.length := rfl
    rw [hat]
    cases received mem rs.length (fill mem rs.length s.httpParserBuffer) bs s.httpParserBuffer.length with
    | none => exact .stop (by simp) ⟨_, _, _, _, rfl⟩ rfl
    | some window =>
      obtain ⟨ended, s', t', d', n, hs, ht, hne, h', hscript⟩ := execute_alike
        (s := { s with reads := rs }) (t := { s with reads := [], writes := W, yields := Y, trace := T })
        ⟨_, _, _, _, rfl⟩ .read d window
      dsimp only
      rw [hs, ht]
      cases ended with
      | returned =>
        dsimp only
        split
        · exact .stop hne (h'.keep []) hscript
        · exact .wait (h'.keep _) hscript
      | threw e | suspended | crashed => exact .stop hne h' hscript

/-- `read`, up to its loop. -/
theorem read_continues (mem mem' : Memory) (h : s.Alike t) (req : Request) :
    Continues (fun s d => readLoop mem s.reads s d) s.script (read mem s req) (read mem' { t with reads := [] } req) := by
  obtain ⟨R, W, Y, T, rfl⟩ := h
  unfold read
  split
  · exact .stop (by simp) ⟨_, _, _, _, rfl⟩ rfl
  · rename_i hopen
    dsimp only
    by_cases hcarry : s.httpParserBuffer = []
    · rw [if_pos hcarry, if_pos hcarry]
      dsimp only
      rw [if_neg hopen, if_neg hopen]
      exact .wait (s := { s with canWriteError := true, httpParserBuffer := s.httpParserBuffer.drop 0 })
        ⟨_, _, _, _, rfl⟩ rfl
    · obtain ⟨ended, s', t', d', n, hs, ht, hne, h', hscript⟩ := execute_alike
        (s := { s with canWriteError := true })
        (t := { s with reads := [], writes := W, yields := Y, trace := T, canWriteError := true })
        ⟨_, _, _, _, rfl⟩ .read { req := req } s.httpParserBuffer
      have hreads := execute_left { s with reads := [], writes := W, yields := Y, trace := T, canWriteError := true }
        .read { req := req } s.httpParserBuffer
      rw [ht] at hreads
      rw [if_neg hcarry, if_neg hcarry, hs, ht]
      cases ended with
      | returned =>
        dsimp only
        split
        · exact .stop hne (h'.keep []) hscript
        · obtain ⟨R', W', Y', T', rfl⟩ := h'
          dsimp only at hreads ⊢
          rw [hreads]
          exact .wait (s := { s' with httpParserBuffer := s'.httpParserBuffer.drop n }) ⟨_, _, _, _, rfl⟩ hscript
      | threw e | suspended | crashed => exact .stop hne h' hscript

/-- `readHeaders` before its loop. -/
def entered (s : Session P) : Session P :=
  { s.log (.entered s.httpParserBuffer s.reads.head?) with parser := P.init }

theorem Alike.entered (h : s.Alike t) (R : List ReadResult) (W : List WriteResult) (Y : List (Option ErrorCode))
    (T : List Event) :
    s.entered.Alike { t with parser := P.init, reads := R, writes := W, yields := Y, trace := T } := by
  obtain ⟨_, _, _, _, rfl⟩ := h
  exact ⟨_, _, _, _, rfl⟩

/-- The carried bytes as `readHeaders` copies them. -/
def carriedString (mem : Memory) (n : Nat) (carried : Bytes) : Option Bytes :=
  if carried = [] then some [] else cString carried (mem.behindCarry n)

theorem readHeadersLoop_continues (mem : Memory) (h : s.Alike t) {r : ReadResult} {rs : List ReadResult}
    (hfits : ∀ c ∈ carriedString mem rs.length s.httpParserBuffer, Fits mem rs.length c r) (d : Data) :
    Continues (readHeadersLoop mem rs) { s.script with reads := rs } (readHeadersLoop mem (r :: rs) s d)
      (readHeadersLoop (mem.at rs.length) [r] { t with reads := [r] } d) := by
  obtain ⟨R, W, Y, T, rfl⟩ := h
  unfold readHeadersLoop
  dsimp only [List.length_nil]
  have hat : (if s.httpParserBuffer = [] then some [] else cString s.httpParserBuffer ((mem.at rs.length).behindCarry 0)) =
      carriedString mem rs.length s.httpParserBuffer := rfl
  have hcarried : (if s.httpParserBuffer = [] then some [] else cString s.httpParserBuffer (mem.behindCarry rs.length)) =
      carriedString mem rs.length s.httpParserBuffer := rfl
  rw [hat, hcarried]
  cases hc : carriedString mem rs.length s.httpParserBuffer with
  | none => exact .stop (by simp) ⟨_, _, _, _, rfl⟩ rfl
  | some c =>
    have hfits := hfits c hc
    cases r with
    | failed ec => exact .stop (by simp) ⟨_, _, _, _, rfl⟩ rfl
    | again resume =>
      cases resume with
      | none => exact .wait ⟨_, _, _, _, rfl⟩ rfl
      | some ec => exact .stop (by simp) ⟨_, _, _, _, rfl⟩ rfl
    | data bs =>
      have hroom : ¬ (bs = [] ∨ (fill mem rs.length c).currentSize < bs.length) := hfits.room
      have hroom' : ¬ (bs = [] ∨ (fill (mem.at rs.length) 0 c).currentSize < bs.length) := hroom
      dsimp only
      rw [if_neg hroom, if_neg hroom']
      have hat : received (mem.at rs.length) 0 (fill (mem.at rs.length) 0 c) bs s.httpParserBuffer.length =
          received mem rs.length (fill mem rs.length c) bs s.httpParserBuffer.length := rfl
      rw [hat]
      cases received mem rs.length (fill mem rs.length c) bs s.httpParserBuffer.length with
      | none => exact .stop (by simp) ⟨_, _, _, _, rfl⟩ rfl
      | some window =>
        obtain ⟨ended, s', t', d', hs, ht, hne, h', hscript⟩ := feedLines_alike
          (s := { s with reads := rs, canWriteError := true })
          (t := { s with reads := [], writes := W, yields := Y, trace := T, canWriteError := true })
          ⟨_, _, _, _, rfl⟩ d (splitLines id window)
        dsimp only
        rw [hs, ht]
        cases ended with
        | returned =>
          dsimp only
          split
          · exact .stop hne h' hscript
          · exact .wait h' hscript
        | threw e | suspended | crashed => exact .stop hne h' hscript

/-! ## Writing -/

/-- The session after the answer `w`, with which these bytes were accepted. -/
def wroteOne (s : Session P) (w : WriteResult) (ws : List WriteResult) (accepted : Bytes) : Session P :=
  { s with
    writes := ws
    sent := s.sent ++ accepted
    yielded := lastYield s.yielded [w]
    canWriteError := s.canWriteError && !accepts w }

theorem wrote_cons {w : WriteResult} {ws : List WriteResult} (hs : s.writes = w :: ws) {accepted : Bytes}
    {all rest : Wrote} (hused : ∃ used, ws = used ++ rest.left) (houtcome : all.outcome = rest.outcome)
    (hsent : all.sent = accepted ++ rest.sent) (hleft : all.left = rest.left) :
    s.wrote all = (s.wroteOne w ws accepted).wrote rest := by
  obtain ⟨used, rfl⟩ := hused
  have hall : (w :: (used ++ rest.left)).take ((w :: (used ++ rest.left)).length - rest.left.length) = w :: used := by
    have hlen : (w :: (used ++ rest.left)).length - rest.left.length = (w :: used).length := by
      simp only [List.length_cons, List.length_append]
      omega
    rw [hlen, ← List.cons_append, List.take_left]
  have hrest : (used ++ rest.left).take ((used ++ rest.left).length - rest.left.length) = used := by
    rw [List.length_append, Nat.add_sub_cancel, List.take_left]
  unfold wrote wroteOne
  simp only [hs, hleft, houtcome, hsent, hall, hrest, List.append_assoc, List.any_cons, Bool.not_or, Bool.and_assoc]
  rfl

theorem wrote_one {w : WriteResult} {ws : List WriteResult} (hs : s.writes = w :: ws) (sent : Bytes) (yields : Nat) :
    (∀ ec, s.wrote ⟨.threw ec, sent, yields, ws⟩ = (s.wroteOne w ws sent, .threw (.error_code ec))) ∧
    s.wrote ⟨.returned, sent, yields, ws⟩ = (s.wroteOne w ws sent, .returned) := by
  have hused : (w :: ws).take ((w :: ws).length - ws.length) = [w] := by
    rw [List.length_cons, Nat.add_sub_cancel_left, List.take_succ_cons, List.take_zero]
  unfold wrote wroteOne
  simp only [hs, hused, List.any_cons, List.any_nil, Bool.or_false, implies_true, and_self]

theorem write_nil (s : Session P) : s.write [] = (s, .returned) := by
  simp [write, Getodac.write, wrote, lastYield]

section Write

variable {ws : List WriteResult} {buffer : Bytes} (hne : buffer ≠ [])

include hne

theorem write_room {k : Nat} {pos : 0 < k} (hs : s.writes = .room k pos :: ws) :
    s.write buffer = (s.wroteOne (.room k pos) ws (buffer.take k)).write (buffer.drop k) := by
  obtain ⟨b, bs, rfl⟩ := List.exists_cons_of_ne_nil hne
  unfold write
  rw [hs]
  exact wrote_cons hs ((write_used ws _).imp fun _ h => h.1) rfl rfl rfl

theorem write_again (hs : s.writes = .again none :: ws) :
    s.write buffer = (s.wroteOne (.again none) ws []).write buffer := by
  obtain ⟨b, bs, rfl⟩ := List.exists_cons_of_ne_nil hne
  unfold write
  rw [hs]
  exact wrote_cons hs ((write_used ws _).imp fun _ h => h.1) rfl rfl rfl

theorem write_threw {w : WriteResult} {ec : ErrorCode} (hs : s.writes = w :: ws)
    (hw : w = .again (some ec) ∨ w = .failed ec) :
    s.write buffer = (s.wroteOne w ws [], .threw (.error_code ec)) := by
  obtain ⟨b, bs, rfl⟩ := List.exists_cons_of_ne_nil hne
  unfold write
  rw [hs]
  rcases hw with rfl | rfl
  · exact (wrote_one hs [] 1).1 ec
  · exact (wrote_one hs [] 0).1 ec

end Write

section Writev

variable {ws : List WriteResult} {buffers : List Bytes}

theorem writev_room {k : Nat} {pos : 0 < k} (hs : s.writes = .room k pos :: ws) (hne : buffers.flatten ≠ []) :
    let n := min k buffers.flatten.length
    let t := s.wroteOne (.room k pos) ws (buffers.flatten.take n)
    s.writev buffers =
      if (reslice buffers buffers n).2 = 0 then (t, .returned) else t.writev (reslice buffers buffers n).1 := by
  have hpos := List.length_pos_iff.2 hne
  have hn : min k buffers.flatten.length ≠ 0 := by omega
  dsimp only
  unfold writev
  rw [hs, Getodac.writev, if_neg hn]
  dsimp only
  split
  · exact (wrote_one hs _ 0).2
  · exact wrote_cons hs ((writev_used ws _).imp fun _ h => h.1) rfl rfl rfl

theorem writev_again (hs : s.writes = .again none :: ws) :
    s.writev buffers = (s.wroteOne (.again none) ws []).writev buffers := by
  unfold writev
  rw [hs]
  exact wrote_cons hs ((writev_used ws _).imp fun _ h => h.1) rfl rfl rfl

theorem writev_threw {w : WriteResult} {ec : ErrorCode} (hs : s.writes = w :: ws)
    (hw : w = .again (some ec) ∨ w = .failed ec) :
    s.writev buffers = (s.wroteOne w ws [], .threw (.error_code ec)) := by
  unfold writev
  rw [hs]
  rcases hw with rfl | rfl
  · exact (wrote_one hs [] 1).1 ec
  · exact (wrote_one hs [] 0).1 ec

end Writev

theorem Alike.wroteOne (h : s.Alike t) (w : WriteResult) (ws : List WriteResult) (accepted : Bytes) :
    (s.wroteOne w ws accepted).Alike ({ t with writes := [w] }.wroteOne w [] accepted) := by
  obtain ⟨R, W, Y, T, rfl⟩ := h
  exact ⟨_, _, _, _, rfl⟩

theorem write_idle (hs : s.writes = []) {buffer : Bytes} (hne : buffer ≠ []) : s.write buffer = (s, .suspended) := by
  obtain ⟨b, bs, rfl⟩ := List.exists_cons_of_ne_nil hne
  cases s
  cases hs
  simp [write, Getodac.write, wrote, lastYield]

theorem writev_idle (hs : s.writes = []) (buffers : List Bytes) : s.writev buffers = (s, .suspended) := by
  cases s
  cases hs
  simp [writev, Getodac.writev, wrote, lastYield]

theorem Alike.responding (h : s.Alike t) (res : Response) : (s.responding res).Alike (t.responding res) := by
  obtain ⟨R, W, Y, T, rfl⟩ := h
  unfold Session.responding
  dsimp only
  split <;> split <;> exact ⟨_, _, _, _, rfl⟩

theorem responding_script (s : Session P) (res : Response) : (s.responding res).script = s.script := by
  unfold responding
  dsimp only
  split <;> split <;> rfl

/-! ## The rest of `ioLoop` -/

/-- The body of the loop after the handler. -/
def handled (did : Did P) : Pass P :=
  match did with
  | ⟨.returned, s, d⟩ =>
    let s := (s.setSessionTimeout s.keepAlive).log (.served d.req s.reads s.keepAlive s.yielded)
    { ended := .returned, session := s, data := d, again := s.yielded.isNone && s.keepAlive ≠ 0 }
  | did => { did with again := false }

variable (srv : Server) (mem : Memory)

/-- The body of the loop after `readHeaders`. -/
def headed (did : Did P) : Pass P :=
  match did with
  | ⟨.returned, s, d⟩ =>
    let kept := s.setKeepAlive (if d.req.keepAlive then srv.keepAliveTimeout else 0)
    match srv.createSession d.req with
    | .error e => { ended := .threw e, session := kept, data := d, again := false }
    | .ok none =>
      let (s, ended) := kept.write ({ statusCode := 503 : Response }.toString)
      { ended := ended, session := s, data := d, again := false }
    | .ok (some handler) => handled (handler.run mem (s.startHandler srv d.req) d.req)
  | did => { did with again := false }

/-- `ioLoop` after a pass of its loop, with `n` more to come. -/
def onward (n : Nat) (pass : Pass P) : Did P :=
  leave srv (if pass.again then pass.session.loop srv mem n else pass.toDid)

theorem leave_loop (n : Nat) (s : Session P) : leave srv (s.loop srv mem (n + 1)) =
    onward srv mem n (headed srv mem (readHeadersLoop mem s.reads s.entered {})) := rfl

/-- `ioLoop` after a write. -/
def behind (n : Nat) : After → Session P × Ended → Did P
  | .handler req next, (s, ended) =>
    onward srv mem n (handled (Handler.resume ⟨ended, s, { req := req }⟩ fun e s req => (next e).run mem s req))
  | .expect req next, r =>
    onward srv mem n (handled (Handler.resume
      (match r with
      | (s, .returned) => s.read mem req
      | (s, ended) => ⟨ended, s, { req := req }⟩)
      fun e s req => (next e req).run mem s req))
  | .refuse d, (s, ended) => leave srv ⟨ended, s, d⟩
  | .caught d, (s, .returned) => ⟨.returned, s.log .shutdown, d⟩
  | .caught d, (s, ended) => ⟨ended, s, d⟩

end Session

/-- No gathering write is without bytes. `writev` then returns 0, and the answers do not tell what the yield returns. -/
def Handler.Filled : Handler → Prop
  | .ret | .throw _ => True
  | .modify _ next | .setKeepAlive _ next | .setSessionTimeout _ next => next.Filled
  | .receive next | .read next => ∀ e req, (next e req).Filled
  | .write _ next | .respond _ next => ∀ e, (next e).Filled
  | .writev buffers next => buffers.flatten ≠ [] ∧ ∀ e, (next e).Filled
  | .yield next => ∀ y, (next y).Filled

def Server.Filled (srv : Server) : Prop :=
  ∀ req handler, srv.createSession req = .ok (some handler) → handler.Filled

def After.Filled : After → Prop
  | .handler _ next => ∀ e, (next e).Filled
  | .expect _ next => ∀ e req, (next e req).Filled
  | .refuse _ | .caught _ => True

namespace Point

open Session

section Rest

variable (srv : Server) (mem : Memory) (n : Nat) (did : Did P)

/-- What is left of an `ioLoop` that comes to `did`, at the point of the coroutine and for the session with the answers. -/
def Rest (s : Session P) : Point P → Prop
  | .accept _ => False
  | .enter t => s.Alike t ∧ did = leave srv (s.loop srv mem n)
  | .head t d => s.Alike t ∧ did = onward srv mem n (headed srv mem (readHeadersLoop mem s.reads s d))
  | .body t d next => s.Alike t ∧ (∀ e req, (next e req).Filled) ∧ did = onward srv mem n (handled
      (Handler.resume (readLoop mem s.reads s d) fun e s req => (next e req).run mem s req))
  | .write t buffer _ a => s.Alike t ∧ a.Filled ∧ did = behind srv mem n a (s.write buffer)
  | .writev t buffers req next => s.Alike t ∧ (buffers.flatten ≠ [] ∧ ∀ e, (next e).Filled) ∧
      did = behind srv mem n (.handler req next) (s.writev buffers)
  | .yield t req next => s.Alike t ∧ (∀ y, (next y).Filled) ∧
      did = onward srv mem n (handled ((Handler.yield next).run mem s req))
  | .shutdown t _ => did.session.Alike t ∧ did.ended = .returned
  | .finished t => did.session.Alike t ∧ (did.ended = .returned ∨ ∃ e, did.ended = .threw e)
  | .crashed t => did.session.Alike t ∧ did.ended = .crashed

/-- With these answers to come. -/
def Meets (scr : Script) (p : Point P) : Prop := ∃ s, s.script = scr ∧ Rest srv mem n did s p

end Rest

variable {ssl : Bool} {srv : Server} {mem : Memory} {n : Nat} {s t : Session P}

theorem close_meets (h : s.Alike t) (d : Data) (scr : Script) :
    Meets srv mem n ⟨.returned, s.log .shutdown, d⟩ scr (close ssl t) := by
  obtain ⟨R, W, Y, T, rfl⟩ := h
  refine ⟨{ s with reads := scr.reads, writes := scr.writes, yields := scr.yields }, rfl, ?_⟩
  unfold close
  split
  · exact ⟨⟨_, _, _, _, rfl⟩, rfl⟩
  · exact ⟨⟨_, _, _, _, rfl⟩, .inl rfl⟩

variable (mem n) in
theorem leave_threw (s : Session P) (d : Data) (e : Exc) : leave srv ⟨.threw e, s, d⟩ =
    if s.canWriteError then behind srv mem n (.caught d) (s.write (errorResponse srv e))
    else ⟨.returned, s.log .shutdown, d⟩ := by
  unfold leave
  dsimp only
  by_cases hflag : s.canWriteError
  · rw [if_pos hflag, if_pos hflag]
    obtain ⟨s', ended⟩ := s.write (errorResponse srv e)
    cases ended <;> rfl
  · rw [if_neg hflag, if_neg hflag]

theorem catching_meets (h : s.Alike t) (d : Data) (e : Exc) :
    Meets srv mem n (leave srv ⟨.threw e, s, d⟩) s.script (catching ssl srv t d e) := by
  rw [leave_threw mem n, catching, h.canWriteError]
  split
  · exact ⟨s, rfl, h, trivial, rfl⟩
  · exact close_meets h d _

theorem served_meets (h : s.Alike t) (d : Data) :
    Meets srv mem n (onward srv mem n (handled ⟨.returned, s, d⟩)) s.script (served ssl t d.req) := by
  obtain ⟨R, W, Y, T, rfl⟩ := h
  have honward : onward srv mem n (handled ⟨.returned, s, d⟩) = leave srv
      (if (s.yielded.isNone && decide (s.keepAlive ≠ 0)) = true then
        loop srv mem n ((s.setSessionTimeout s.keepAlive).log (.served d.req s.reads s.keepAlive s.yielded))
      else ⟨.returned, (s.setSessionTimeout s.keepAlive).log (.served d.req s.reads s.keepAlive s.yielded), d⟩) := rfl
  have hserved : served ssl { s with reads := R, writes := W, yields := Y, trace := T } d.req =
      if (s.yielded.isNone && decide (s.keepAlive ≠ 0)) = true then
        .enter { s.setSessionTimeout s.keepAlive with
          reads := R, writes := W, yields := Y, trace := T ++ [.served d.req R s.keepAlive s.yielded] }
      else close ssl { s.setSessionTimeout s.keepAlive with
          reads := R, writes := W, yields := Y, trace := T ++ [.served d.req R s.keepAlive s.yielded] } := rfl
  rw [honward, hserved]
  by_cases hagain : (s.yielded.isNone && decide (s.keepAlive ≠ 0)) = true
  · rw [if_pos hagain, if_pos hagain]
    exact ⟨(s.setSessionTimeout s.keepAlive).log _, rfl, ⟨_, _, _, _, rfl⟩, rfl⟩
  · rw [if_neg hagain, if_neg hagain]
    exact close_meets ⟨_, _, _, _, rfl⟩ d s.script

/-- A `read` inside a handler. -/
theorem reading_meets {go : Session P → Data → Did P} {scr : Script} {all one : Did P}
    (hc : Continues go scr all one) (hgo : ∀ s d, s.script = scr → go s d = readLoop mem s.reads s d)
    {next : Option Exc → Request → Handler} (hfilled : ∀ e req, (next e req).Filled)
    {k : Option Exc → Session P → Request → Point P}
    (hk : ∀ e s t req, s.Alike t → s.script = scr →
      Meets srv mem n (onward srv mem n (handled ((next e req).run mem s req))) scr (k e t req)) :
    Meets srv mem n (onward srv mem n (handled (Handler.resume all fun e s req => (next e req).run mem s req))) scr
      (reading next k one) := by
  cases hc with
  | wait h hscript => exact ⟨_, hscript, h, hfilled, by rw [hgo _ _ hscript]⟩
  | @stop s t ended d hne h hscript =>
    cases ended with
    | returned => exact hk none s t d.req h hscript
    | threw e => exact hk (some e) s t d.req h hscript
    | suspended => exact absurd rfl hne
    | crashed => exact ⟨s, hscript, h, rfl⟩

theorem goOn_meets (mem' : Memory) (handler : Handler) (hfilled : handler.Filled) (h : s.Alike t) (req : Request) :
    Meets srv mem n (onward srv mem n (handled (handler.run mem s req))) s.script (goOn ssl srv mem' handler t req) := by
  induction handler generalizing s t req with
  | ret => exact served_meets h { req := req }
  | throw e => exact catching_meets h { req := req } e
  | modify f next ih => exact ih hfilled h (f req)
  | receive next ih =>
    have hread : Meets srv mem n (onward srv mem n (handled ((Handler.read next).run mem s req))) s.script
        (goOn ssl srv mem' (.read next) t req) :=
      reading_meets (read_continues mem mem' h req) (fun _ _ _ => rfl) hfilled
        fun e s' t' req' h' hscript => hscript ▸ ih e req' (hfilled e req') h' req'
    unfold goOn
    rw [Handler.run, Session.receive]
    split
    · split
      · exact ih (some (.int 417)) req (hfilled _ _) h req
      · refine ⟨s.responding _, responding_script s _, h.responding _, hfilled, ?_⟩
        rw [respond_eq_write, (h.responding _).keepAlive]
        rfl
    · exact hread
  | read next ih =>
    refine reading_meets (read_continues mem mem' h req) (fun _ _ _ => rfl) hfilled fun e s' t' req' h' hscript => ?_
    exact hscript ▸ ih e req' (hfilled e req') h' req'
  | write buffer next ih =>
    unfold goOn
    split
    · rename_i hnil
      subst hnil
      have hwritten := ih none (hfilled none) h req
      rw [Handler.run, write_nil]
      exact hwritten
    · exact ⟨s, rfl, h, hfilled, rfl⟩
  | writev buffers next ih => exact ⟨s, rfl, h, hfilled, rfl⟩
  | respond res next ih =>
    refine ⟨s.responding res, responding_script s res, h.responding res, hfilled, ?_⟩
    rw [Handler.run, respond_eq_write, (h.responding res).keepAlive]
    rfl
  | yield next ih => exact ⟨s, rfl, h, hfilled, rfl⟩
  | setKeepAlive seconds next ih =>
    obtain ⟨R, W, Y, T, rfl⟩ := h
    exact ih (s := s.setKeepAlive seconds) hfilled ⟨_, _, _, _, rfl⟩ req
  | setSessionTimeout seconds next ih =>
    obtain ⟨R, W, Y, T, rfl⟩ := h
    exact ih (s := s.setSessionTimeout seconds) hfilled ⟨_, _, _, _, rfl⟩ req

theorem create_meets (mem' : Memory) (hsrv : srv.Filled) (h : s.Alike t) (d : Data) :
    Meets srv mem n (onward srv mem n (headed srv mem ⟨.returned, s, d⟩)) s.script (create ssl srv mem' t d) := by
  have hkept : (s.setKeepAlive (if d.req.keepAlive then srv.keepAliveTimeout else 0)).Alike
      (t.setKeepAlive (if d.req.keepAlive then srv.keepAliveTimeout else 0)) := by
    obtain ⟨R, W, Y, T, rfl⟩ := h
    exact ⟨_, _, _, _, rfl⟩
  have hstart : (s.startHandler srv d.req).Alike (t.startHandler srv d.req) := by
    obtain ⟨R, W, Y, T, rfl⟩ := h
    exact ⟨_, _, _, _, rfl⟩
  unfold create headed
  dsimp only
  cases hcreate : srv.createSession d.req with
  | error e => exact catching_meets hkept d e
  | ok handler =>
    cases handler with
    | none => exact ⟨s.setKeepAlive (if d.req.keepAlive then srv.keepAliveTimeout else 0), rfl, hkept, trivial, rfl⟩
    | some handler => exact goOn_meets mem' handler (hsrv _ _ hcreate) hstart d.req

theorem readingHead_meets (mem' : Memory) (hsrv : srv.Filled) {go : Session P → Data → Did P} {scr : Script}
    {all one : Did P} (hc : Continues go scr all one)
    (hgo : ∀ s d, s.script = scr → go s d = readHeadersLoop mem s.reads s d) :
    Meets srv mem n (onward srv mem n (headed srv mem all)) scr (readingHead ssl srv mem' one) := by
  cases hc with
  | wait h hscript => exact ⟨_, hscript, h, by rw [hgo _ _ hscript]⟩
  | @stop s t ended d hne h hscript =>
    subst hscript
    cases ended with
    | returned => exact create_meets mem' hsrv h d
    | threw e => exact catching_meets h d e
    | suspended => exact absurd rfl hne
    | crashed => exact ⟨s, rfl, h, rfl⟩

theorem written_meets (mem' : Memory) {a : After} (hfilled : a.Filled) (h : s.Alike t) :
    Meets srv mem n (behind srv mem n a (s, .returned)) s.script (written ssl srv mem' t a none) ∧
    ∀ e, Meets srv mem n (behind srv mem n a (s, .threw e)) s.script (written ssl srv mem' t a (some e)) := by
  cases a with
  | handler req next => exact ⟨goOn_meets mem' _ (hfilled _) h req, fun e => goOn_meets mem' _ (hfilled _) h req⟩
  | expect req next => exact ⟨goOn_meets mem' (.read next) hfilled h req, fun e => goOn_meets mem' _ (hfilled _ _) h req⟩
  | refuse d => exact ⟨close_meets h d _, fun e => catching_meets h d e⟩
  | caught d => exact ⟨close_meets h d _, fun e => ⟨s, rfl, h, .inr ⟨e, rfl⟩⟩⟩

/-! ## One answer -/

end Point

namespace Script

variable (mem : Memory)

def idle : Env := ⟨mem, .failed, .again none, .again none, none, .other⟩

/-- The next answer of `readSome`, if there is one and it can be given. -/
def takeRead (fits : Nat → ReadResult → Prop) [∀ n r, Decidable (fits n r)] (scr : Script) : Option (Env × Script) :=
  match scr.reads with
  | [] => none
  | r :: rs =>
    if fits rs.length r then some ({ idle mem with mem := mem.at rs.length, read := r }, { scr with reads := rs })
    else none

def takeWrite (scr : Script) : Option (Env × Script) :=
  match scr.writes with
  | [] => none
  | w :: ws => some ({ idle mem with write := w }, { scr with writes := ws })

def takeYield (scr : Script) : Option (Env × Script) :=
  match scr.yields with
  | [] => none
  | y :: ys => some ({ idle mem with yield := y }, { scr with yields := ys })

variable {mem} {scr scr' : Script} {e : Env}

section Read

variable {fits : Nat → ReadResult → Prop} [∀ n r, Decidable (fits n r)]

theorem takeRead_some (h : takeRead mem fits scr = some (e, scr')) : ∃ r rs, scr.reads = r :: rs ∧ fits rs.length r ∧
    e.mem = mem.at rs.length ∧ e.read = r ∧ scr' = { scr with reads := rs } := by
  unfold takeRead at h
  split at h
  · cases h
  · rename_i r rs hreads
    split at h
    · cases h
      exact ⟨r, rs, hreads, ‹_›, rfl, rfl, rfl⟩
    · cases h

theorem takeRead_none (h : takeRead mem fits scr = none) :
    scr.reads = [] ∨ ∃ r rs, scr.reads = r :: rs ∧ ¬ fits rs.length r := by
  unfold takeRead at h
  split at h
  · exact .inl ‹_›
  · rename_i r rs hreads
    split at h
    · cases h
    · exact .inr ⟨r, rs, hreads, ‹_›⟩

end Read

theorem takeWrite_some (h : takeWrite mem scr = some (e, scr')) :
    ∃ w ws, scr.writes = w :: ws ∧ e.write = w ∧ scr' = { scr with writes := ws } := by
  unfold takeWrite at h
  split at h <;> cases h
  exact ⟨_, _, ‹_›, rfl, rfl⟩

theorem takeWrite_none (h : takeWrite mem scr = none) : scr.writes = [] := by
  unfold takeWrite at h
  split at h
  · assumption
  · cases h

theorem takeYield_some (h : takeYield mem scr = some (e, scr')) :
    ∃ y ys, scr.yields = y :: ys ∧ e.yield = y ∧ scr' = { scr with yields := ys } := by
  unfold takeYield at h
  split at h <;> cases h
  exact ⟨_, _, ‹_›, rfl, rfl⟩

theorem takeYield_none (h : takeYield mem scr = none) : scr.yields = [] := by
  unfold takeYield at h
  split at h
  · assumption
  · cases h

end Script

namespace Point

open Session

variable {ssl : Bool} {srv : Server} {mem : Memory} {n : Nat} {s t : Session P}

/-- The next answer that the coroutine asks for. -/
def takes (mem : Memory) (p : Point P) (scr : Script) : Option (Env × Script) :=
  match p with
  | .enter t | .head t _ =>
    scr.takeRead mem fun n r => ∀ c ∈ carriedString mem n t.httpParserBuffer, Fits mem n c r
  | .body t _ _ => scr.takeRead mem fun n r => Fits mem n t.httpParserBuffer r
  | .write _ _ _ _ | .writev _ _ _ _ => scr.takeWrite mem
  | .yield _ _ _ => scr.takeYield mem
  | .accept _ | .shutdown _ _ | .finished _ | .crashed _ => none

section Step

variable {did : Did P} {p : Point P} {scr scr' : Script} {e : Env}
  (hsrv : srv.Filled)

theorem step_write {a : After} (hfilled : a.Filled) (h : s.Alike t) {w : WriteResult} {ws : List WriteResult}
    (hs : s.writes = w :: ws) (he : e.write = w) {buffer : Bytes} (ne : buffer ≠ []) :
    Meets srv mem n (behind srv mem n a (s.write buffer)) { s.script with writes := ws }
      ((Point.write t buffer ne a).step ssl srv e) := by
  have ht : ({ t with writes := [w] } : Session P).writes = w :: [] := rfl
  unfold step
  dsimp only
  rw [he]
  match w with
  | .room k pos =>
    rw [write_room ne hs, write_room ne ht]
    dsimp only
    split
    · rename_i hdone
      rw [hdone, write_nil, write_nil]
      exact (written_meets e.mem hfilled (h.wroteOne _ ws _)).1
    · rw [write_idle (s := ({ t with writes := [_] } : Session P).wroteOne _ [] _) rfl ‹_›]
      exact ⟨s.wroteOne _ ws _, rfl, h.wroteOne _ ws _, hfilled, rfl⟩
  | .again none =>
    rw [write_again ne hs, write_again ne ht,
      write_idle (s := ({ t with writes := [_] } : Session P).wroteOne _ [] _) rfl ne]
    exact ⟨s.wroteOne _ ws _, rfl, h.wroteOne _ ws _, hfilled, rfl⟩
  | .again (some ec) =>
    rw [write_threw ne hs (.inl rfl), write_threw ne ht (.inl rfl)]
    exact (written_meets e.mem hfilled (h.wroteOne _ ws _)).2 _
  | .failed ec =>
    rw [write_threw ne hs (.inr rfl), write_threw ne ht (.inr rfl)]
    exact (written_meets e.mem hfilled (h.wroteOne _ ws _)).2 _

theorem step_writev {req : Request} {next : Option Exc → Handler} (hfilled : ∀ e, (next e).Filled) (h : s.Alike t)
    {w : WriteResult} {ws : List WriteResult} (hs : s.writes = w :: ws) (he : e.write = w) {buffers : List Bytes}
    (hne : buffers.flatten ≠ []) :
    Meets srv mem n (behind srv mem n (.handler req next) (s.writev buffers)) { s.script with writes := ws }
      ((Point.writev t buffers req next).step ssl srv e) := by
  have ht : ({ t with writes := [w] } : Session P).writes = w :: [] := rfl
  have hanswer : answerTo e buffers = w := by
    unfold answerTo
    rw [he]
    match w with
    | .room k pos => exact if_neg hne
    | .again _ | .failed _ => rfl
  unfold step
  dsimp only
  rw [hanswer]
  match w with
  | .room k pos =>
    rw [writev_room hs hne, writev_room ht hne]
    by_cases hdone : (reslice buffers buffers (min k buffers.flatten.length)).2 = 0
    · rw [if_pos hdone, if_pos hdone]
      exact goOn_meets e.mem _ (hfilled _) (h.wroteOne _ ws _) req
    · rw [if_neg hdone, if_neg hdone, writev_idle (s := ({ t with writes := [_] } : Session P).wroteOne _ [] _) rfl]
      obtain ⟨hflatten, hlt⟩ := reslice_open hdone
      refine ⟨s.wroteOne _ ws _, rfl, h.wroteOne _ ws _, ⟨?_, hfilled⟩, rfl⟩
      rw [unsent, hflatten]
      exact List.drop_eq_nil_iff.not.2 (by omega)
  | .again none =>
    rw [writev_again hs, writev_again ht, writev_idle (s := ({ t with writes := [_] } : Session P).wroteOne _ [] _) rfl]
    exact ⟨s.wroteOne _ ws _, rfl, h.wroteOne _ ws _, ⟨hne, hfilled⟩, rfl⟩
  | .again (some ec) =>
    rw [writev_threw hs (.inl rfl), writev_threw ht (.inl rfl)]
    exact goOn_meets e.mem _ (hfilled _) (h.wroteOne _ ws _) req
  | .failed ec =>
    rw [writev_threw hs (.inr rfl), writev_threw ht (.inr rfl)]
    exact goOn_meets e.mem _ (hfilled _) (h.wroteOne _ ws _) req

include hsrv

theorem step_meets (h : Meets srv mem n did scr p) (hn : scr.reads.length < n) (ht : takes mem p scr = some (e, scr')) :
    ∃ n', scr'.reads.length < n' ∧ Meets srv mem n' did scr' (p.step ssl srv e) := by
  obtain ⟨s, rfl, hrest⟩ := h
  have hlt : ∀ r rs, s.reads = r :: rs → rs.length + 1 < n := by
    intro r rs hreads
    rwa [show s.script.reads = r :: rs from hreads, List.length_cons] at hn
  have hrs : ∀ (u : Session P) rs, u.script = { s.script with reads := rs } → u.reads = rs :=
    fun u rs hu => congrArg Script.reads hu
  cases p with
  | accept t => exact hrest.elim
  | enter t =>
    obtain ⟨h, rfl⟩ := hrest
    rw [takes] at ht
    obtain ⟨r, rs, hreads, hfits, hmem, hread, rfl⟩ := Script.takeRead_some ht
    replace hreads : s.reads = r :: rs := hreads
    have hfuel := hlt r rs hreads
    obtain ⟨n, rfl⟩ : ∃ m, n = m + 1 := ⟨n - 1, by omega⟩
    refine ⟨n, Nat.lt_of_succ_lt_succ hfuel, ?_⟩
    unfold step Session.readHeaders
    dsimp only
    rw [leave_loop, hmem, hread, hreads]
    rw [h.carry] at hfits
    exact readingHead_meets _ hsrv (readHeadersLoop_continues mem (h.entered [r] t.writes t.yields _) hfits {})
      fun u d hu => by rw [hrs u rs hu]
  | head t d =>
    obtain ⟨h, rfl⟩ := hrest
    rw [takes] at ht
    obtain ⟨r, rs, hreads, hfits, hmem, hread, rfl⟩ := Script.takeRead_some ht
    replace hreads : s.reads = r :: rs := hreads
    refine ⟨n, Nat.lt_of_succ_lt (hlt r rs hreads), ?_⟩
    unfold step
    dsimp only
    rw [hmem, hread, hreads]
    rw [h.carry] at hfits
    exact readingHead_meets _ hsrv (readHeadersLoop_continues mem h hfits d) fun u d hu => by rw [hrs u rs hu]
  | body t d next =>
    obtain ⟨h, hfilled, rfl⟩ := hrest
    rw [takes] at ht
    obtain ⟨r, rs, hreads, hfits, hmem, hread, rfl⟩ := Script.takeRead_some ht
    replace hreads : s.reads = r :: rs := hreads
    refine ⟨n, Nat.lt_of_succ_lt (hlt r rs hreads), ?_⟩
    unfold step
    dsimp only
    rw [hmem, hread, hreads]
    rw [h.carry] at hfits
    refine reading_meets (readLoop_continues mem h hfits d) (fun u d hu => by rw [hrs u rs hu]) hfilled
      fun e s' t' req h' hscript => ?_
    exact hscript ▸ goOn_meets _ _ (hfilled e req) h' req
  | write t buffer ne a =>
    obtain ⟨h, hfilled, rfl⟩ := hrest
    rw [takes] at ht
    obtain ⟨w, ws, hwrites, hwrite, rfl⟩ := Script.takeWrite_some ht
    exact ⟨n, hn, step_write hfilled h hwrites hwrite ne⟩
  | writev t buffers req next =>
    obtain ⟨h, ⟨hne, hfilled⟩, rfl⟩ := hrest
    rw [takes] at ht
    obtain ⟨w, ws, hwrites, hwrite, rfl⟩ := Script.takeWrite_some ht
    exact ⟨n, hn, step_writev hfilled h hwrites hwrite hne⟩
  | yield t req next =>
    obtain ⟨h, hfilled, rfl⟩ := hrest
    rw [takes] at ht
    obtain ⟨y, ys, hyields, hyield, rfl⟩ := Script.takeYield_some ht
    replace hyields : s.yields = y :: ys := hyields
    refine ⟨n, hn, ?_⟩
    unfold step
    rw [hyield, Handler.run, hyields]
    obtain ⟨R, W, Y, T, rfl⟩ := h
    exact goOn_meets (s := { s with yields := ys, yielded := y }) _ _ (hfilled y) ⟨_, _, _, _, rfl⟩ req
  | shutdown t count => cases ht
  | finished t => cases ht
  | crashed t => cases ht

end Step

/-! ## All answers -/

/-- The session at a point. `readHeaders` starts with `http_parser_init`. -/
def session : Point P → Session P
  | .enter s => { s with parser := P.init }
  | .accept s | .head s _ | .body s _ _ | .write s _ _ _ | .writev s _ _ _ | .yield s _ _ | .shutdown s _
  | .finished s | .crashed s => s

/-- How `ioLoop` has ended whose coroutine is here and gets no more answers. -/
def EndedAs (p : Point P) (ended : Ended) : Prop :=
  match p with
  | .shutdown _ _ => ended = .returned
  | .finished _ => ended = .returned ∨ ∃ e, ended = .threw e
  | .crashed _ => ended = .crashed
  | _ => ended = .suspended

/-- A `read` that waits for an answer. -/
theorem readLoop_waits (h : s.Alike t) {d : Data} {next : Option Exc → Request → Handler}
    (ht : takes mem (.body t d next) s.script = none) :
    ∃ s', readLoop mem s.reads s d = ⟨.suspended, s', d⟩ ∧ s'.Alike t := by
  rw [takes] at ht
  rcases Script.takeRead_none ht with hnil | ⟨r, rs, hreads, hfits⟩
  · replace hnil : s.reads = [] := hnil
    rw [hnil]
    exact ⟨s, rfl, h⟩
  · replace hreads : s.reads = r :: rs := hreads
    rw [h.carry] at hfits
    obtain ⟨bs, rfl, hroom⟩ := not_fits hfits
    rw [hreads, readLoop]
    dsimp only
    rw [if_pos hroom]
    obtain ⟨R, W, Y, T, rfl⟩ := h
    exact ⟨_, rfl, ⟨_, _, _, _, rfl⟩⟩

theorem readHeadersLoop_waits (h : s.Alike t) {d : Data} (ht : takes mem (.head t d) s.script = none) :
    ∃ s', readHeadersLoop mem s.reads s d = ⟨.suspended, s', d⟩ ∧ s'.Alike t := by
  rw [takes] at ht
  rcases Script.takeRead_none ht with hnil | ⟨r, rs, hreads, hfits⟩
  · replace hnil : s.reads = [] := hnil
    rw [hnil]
    exact ⟨s, rfl, h⟩
  · replace hreads : s.reads = r :: rs := hreads
    rw [h.carry] at hfits
    push Not at hfits
    obtain ⟨c, hc, hfits⟩ := hfits
    obtain ⟨bs, rfl, hroom⟩ := not_fits hfits
    replace hc : (if s.httpParserBuffer = [] then some [] else cString s.httpParserBuffer (mem.behindCarry rs.length)) =
        some c := hc
    rw [hreads, readHeadersLoop]
    dsimp only
    rw [hc]
    dsimp only
    rw [if_pos hroom]
    obtain ⟨R, W, Y, T, rfl⟩ := h
    exact ⟨_, rfl, ⟨_, _, _, _, rfl⟩⟩

theorem behind_suspended (a : After) (s : Session P) : ∃ d, behind srv mem n a (s, .suspended) = ⟨.suspended, s, d⟩ := by
  cases a <;> exact ⟨_, rfl⟩

theorem takes_none {did : Did P} {p : Point P} {scr : Script} (h : Meets srv mem n did scr p) (hn : scr.reads.length < n)
    (ht : takes mem p scr = none) : did.session.Alike p.session ∧ p.EndedAs did.ended := by
  obtain ⟨s, rfl, hrest⟩ := h
  cases p with
  | accept t => exact hrest.elim
  | enter t =>
    obtain ⟨h, rfl⟩ := hrest
    obtain ⟨n, rfl⟩ : ∃ m, n = m + 1 := ⟨n - 1, by omega⟩
    obtain ⟨s', hwaits, h'⟩ := readHeadersLoop_waits (s := s.entered) (d := {}) (h.entered _ _ _ _) ht
    replace hwaits : readHeadersLoop mem s.reads s.entered {} = ⟨.suspended, s', {}⟩ := hwaits
    rw [leave_loop, hwaits]
    exact ⟨h', rfl⟩
  | head t d =>
    obtain ⟨h, rfl⟩ := hrest
    obtain ⟨s', hwaits, h'⟩ := readHeadersLoop_waits h ht
    rw [hwaits]
    exact ⟨h', rfl⟩
  | body t d next =>
    obtain ⟨h, -, rfl⟩ := hrest
    obtain ⟨s', hwaits, h'⟩ := readLoop_waits h ht
    rw [hwaits]
    exact ⟨h', rfl⟩
  | write t buffer ne a =>
    obtain ⟨h, -, rfl⟩ := hrest
    obtain ⟨d, hbehind⟩ : ∃ d, behind srv mem n a (s, .suspended) = ⟨.suspended, s, d⟩ := behind_suspended a s
    rw [takes] at ht
    rw [write_idle (Script.takeWrite_none ht) ne, hbehind]
    exact ⟨h, rfl⟩
  | writev t buffers req next =>
    obtain ⟨h, -, rfl⟩ := hrest
    rw [takes] at ht
    rw [writev_idle (Script.takeWrite_none ht)]
    exact ⟨h, rfl⟩
  | yield t req next =>
    obtain ⟨h, -, rfl⟩ := hrest
    rw [takes] at ht
    have hyields : s.yields = [] := Script.takeYield_none ht
    rw [Handler.run, hyields]
    exact ⟨h, rfl⟩
  | shutdown t count => exact hrest
  | finished t => exact hrest
  | crashed t => exact hrest

theorem takes_size {p : Point P} {scr scr' : Script} {e : Env} (ht : takes mem p scr = some (e, scr')) :
    scr.size = scr'.size + 1 := by
  cases p with
  | accept t | shutdown t count | finished t | crashed t => cases ht
  | enter t | head t d | body t d next =>
    rw [takes] at ht
    obtain ⟨r, rs, hreads, -, -, -, rfl⟩ := Script.takeRead_some ht
    rw [Script.size, Script.size, hreads, List.length_cons]
    dsimp only
    omega
  | write t buffer ne a | writev t buffers req next =>
    rw [takes] at ht
    obtain ⟨w, ws, hwrites, -, rfl⟩ := Script.takeWrite_some ht
    rw [Script.size, Script.size, hwrites, List.length_cons]
    dsimp only
    omega
  | yield t req next =>
    rw [takes] at ht
    obtain ⟨y, ys, hyields, -, rfl⟩ := Script.takeYield_some ht
    rw [Script.size, Script.size, hyields, List.length_cons]
    dsimp only
    omega

variable (ssl srv mem) in
/-- The coroutine with the answers in the order in which it asks for them. -/
def play : Nat → Point P → Script → Point P
  | 0, p, _ => p
  | k + 1, p, scr =>
    match takes mem p scr with
    | none => p
    | some (e, scr') => play k (p.step ssl srv e) scr'

theorem play_meets (hsrv : srv.Filled) {did : Did P} {k : Nat} {p : Point P} {scr : Script}
    (h : Meets srv mem n did scr p) (hn : scr.reads.length < n) (hk : scr.size ≤ k) :
    did.session.Alike (play ssl srv mem k p scr).session ∧ (play ssl srv mem k p scr).EndedAs did.ended := by
  induction k generalizing n p scr with
  | zero =>
    refine takes_none h hn ?_
    by_contra hsome
    obtain ⟨⟨e, scr'⟩, ht⟩ := Option.ne_none_iff_exists'.1 hsome
    have hsize := takes_size ht
    omega
  | succ k ih =>
    unfold play
    cases ht : takes mem p scr with
    | none => exact takes_none h hn ht
    | some x =>
      obtain ⟨e, scr'⟩ := x
      obtain ⟨n', hn', h'⟩ := step_meets hsrv h hn ht
      have hsize := takes_size ht
      exact ih h' hn' (by omega)

/-- With all answers the coroutine is where `ioLoop` is. -/
theorem play_ioLoop (ssl : Bool) (srv : Server) (mem : Memory) (hsrv : srv.Filled) (s : Session P) :
    let p := play ssl srv mem s.script.size (.enter (s.setSessionTimeout srv.headersTimeout)) s.script
    (s.ioLoop srv mem).session.Alike p.session ∧ p.EndedAs (s.ioLoop srv mem).ended := by
  have hstart : Meets srv mem (s.reads.length + 1) (s.ioLoop srv mem) s.script
      (.enter (s.setSessionTimeout srv.headersTimeout)) :=
    ⟨s.setSessionTimeout srv.headersTimeout, rfl, Alike.refl _, ioLoop_eq_leave srv mem s⟩
  exact play_meets hsrv hstart (Nat.lt_succ_self _) (Nat.le_refl _)

end Point

end Getodac
