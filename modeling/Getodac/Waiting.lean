import Getodac.Overrun
/-!
# When `readHeaders` waits

`readHeaders` asks the socket for bytes before it looks at those that are left
from the last request. A request that is all there is then not answered until
the client sends something else.
-/

namespace Getodac

variable {P : HttpParser}

/-- `http_parser_execute` uses all its bytes, or fails, or stops at the end of a message. -/
def HttpParser.StopsAtEnd (P : HttpParser) : Prop :=
  ∀ st bs, (P.execute st bs).error = false → (P.execute st bs).parsed ≠ bs.length →
    (P.execute st bs).calls.getLast? = some .messageComplete

theorem callAll_messageComplete {d d' : Data} {cs : List Callback} (h : d.callAll cs = (d', none))
    (hlast : cs.getLast? = some .messageComplete) : d'.req.state = .Completed := by
  obtain ⟨cs, rfl⟩ := List.getLast?_eq_some_iff.1 hlast
  induction cs generalizing d with
  | nil =>
    cases h
    rfl
  | cons c cs ih =>
    rw [List.cons_append, Data.callAll] at h
    split at h
    · exact ih h (by simp)
    · cases h

/-- A call that stops early has completed the request. -/
theorem execute_stops (hP : P.StopsAtEnd) {s s' : Session P} {phase : Phase} {d d' : Data} {bs : Bytes} {parsed : Nat}
    (h : s.execute phase d bs = (⟨.returned, s', d'⟩, parsed)) (hparsed : parsed ≠ bs.length) :
    d'.req.state = .Completed := by
  unfold Session.execute at h
  dsimp only at h
  split at h
  · cases h
  · rename_i d₁ hcalls
    split at h
    · cases h
    · rename_i herr
      cases h
      exact callAll_messageComplete hcalls (hP _ _ (by simpa using herr) hparsed)

/-- Bytes are left only at the end of a head. -/
theorem feedLines_carry (hP : P.StopsAtEnd) {s s' : Session P} {d d' : Data} {ls : List Bytes}
    (h : s.feedLines d ls = ⟨.returned, s', d'⟩) (hd : d'.headDone = false) : s'.httpParserBuffer = [] := by
  induction ls generalizing s d with
  | nil =>
    cases h
    rfl
  | cons l ls ih =>
    unfold Session.feedLines at h
    split at h
    · rename_i hdone
      cases h
      rw [hd] at hdone
      cases hdone
    · split at h
      · rename_i s₁ d₁ parsed he
        split at h
        · rename_i hne
          cases h
          simp [Data.headDone, execute_stops hP he hne] at hd
        · exact ih h
      · rename_i hnr _
        exact (hnr _ _ h).elim

variable {s : Session P} {d : Data} {mem : Memory}

/-- Once a read has brought bytes, nothing is left while the head is open. -/
theorem readHeadersLoop_received (hP : P.StopsAtEnd) {bs : Bytes} {rs : List ReadResult} :
    Extends (fun e => e.InPhase .readHeaders ∧ ∀ c, e = .suspended .readHeaders c → c = []) { s with reads := rs }
      (s.readHeadersLoop mem (.data bs :: rs) d).session := by
  have hI : ∀ (s s' : Session P) d d' ls, s.feedLines d ls = ⟨.returned, s', d'⟩ → d'.headDone = false →
      s'.httpParserBuffer = [] := fun _ _ _ _ _ => feedLines_carry hP
  unfold Session.readHeadersLoop
  dsimp only
  split
  · exact .refl _
  · split
    · exact .refl _
    · split
      · exact .of_eq rfl rfl
      · rename_i window _
        have hfed := (feedLines_extends { s with reads := rs, canWriteError := true } d (splitLines id window)).mono
          (q := fun e => e.InPhase .readHeaders ∧ ∀ c, e = .suspended .readHeaders c → c = [])
          (by rintro e ⟨l, -, rfl⟩; exact ⟨.inl ⟨l, rfl⟩, by intro c hc; cases hc⟩)
        have hleft := feedLines_left { s with reads := rs, canWriteError := true } d (splitLines id window)
        split
        · rename_i s' d' he
          rw [he] at hfed hleft
          split
          · exact hfed.congr rfl rfl rfl rfl
          · rename_i hdone
            have hloop := (readHeadersLoop_extends mem (I := (· = [])) hI s' d' hleft
              (hI _ _ _ _ _ he (by simpa using hdone))).1
            exact (hfed.trans hloop).congr rfl rfl rfl rfl
        · exact hfed.congr rfl rfl rfl rfl

/-- With bytes left it waits only if it has found them and nothing else. -/
theorem readHeadersLoop_left (hP : P.StopsAtEnd) (mem : Memory) (rs : List ReadResult) (hs : s.reads = rs) :
    Extends (fun e => e.InPhase .readHeaders ∧ ∀ c, e = .suspended .readHeaders c →
        c = [] ∨ c = s.httpParserBuffer ∧ ∃ resume, rs.head? = some (.again resume)) s
      (s.readHeadersLoop mem rs d).session := by
  cases rs with
  | nil => exact .refl s
  | cons r rs =>
    have hr : ∀ p : Event → Prop, Extends p s { s with reads := rs } := fun p =>
      ⟨⟨[], by simp, by simp⟩, by rw [hs]; exact List.suffix_cons r rs⟩
    cases r with
    | failed ec =>
      unfold Session.readHeadersLoop
      dsimp only
      split <;> exact hr _
    | data bs => exact (hr _).trans ((readHeadersLoop_received hP).mono fun e he => ⟨he.1, fun c hc => .inl (he.2 c hc)⟩)
    | again resume =>
      have h := (readHeadersLoop_extends mem (I := fun c => c = [] ∨ c = s.httpParserBuffer)
        (fun _ _ _ _ _ h hd => .inl (feedLines_carry hP h hd)) s d hs (.inr rfl)).1
      refine h.mono fun e he => ⟨he.1, fun c hc => (he.2 c hc).imp id fun h => ⟨h, resume, rfl⟩⟩

/-- With bytes left it waits before it looks at them. -/
theorem readHeadersLoop_again_waits (resume : Option ErrorCode) {rs : List ReadResult} (hs : s.httpParserBuffer ≠ [])
    (hm : (mem.behindCarry rs.length).isSome) :
    s.trace ++ [.suspended .readHeaders s.httpParserBuffer] <+:
      (s.readHeadersLoop mem (.again resume :: rs) d).session.trace := by
  obtain ⟨g, hg⟩ := Option.isSome_iff_exists.1 hm
  obtain ⟨x, hx⟩ : ∃ x, Session.cString s.httpParserBuffer (some g) = some x := by
    unfold Session.cString
    split <;> exact ⟨_, rfl⟩
  unfold Session.readHeadersLoop
  simp only [hs, if_false, hg, hx]
  split
  · exact List.prefix_refl _
  · exact readHeadersLoop_isPrefix mem
      { Session.log { s with reads := rs } (.suspended .readHeaders s.httpParserBuffer) with yielded := none } d rfl

/-! ## Runs -/

/-- Whoever waits with bytes left was entered with them, and found nothing to read. -/
def Explained (tr : List Event) : Prop :=
  ∀ c, c ≠ [] → .suspended .readHeaders c ∈ tr → ∃ resume, .entered c (some (.again resume)) ∈ tr

/-- Whoever is entered with bytes left and finds nothing to read waits with them. -/
def Waited (tr : List Event) : Prop :=
  ∀ c resume, c ≠ [] → .entered c (some (.again resume)) ∈ tr → .suspended .readHeaders c ∈ tr

theorem Explained.append {a b : List Event} (ha : Explained a) (hb : Explained b) : Explained (a ++ b) := by
  intro c hc h
  rcases List.mem_append.1 h with h | h
  · obtain ⟨resume, h⟩ := ha c hc h
    exact ⟨resume, List.mem_append_left _ h⟩
  · obtain ⟨resume, h⟩ := hb c hc h
    exact ⟨resume, List.mem_append_right _ h⟩

theorem Waited.append {a b : List Event} (ha : Waited a) (hb : Waited b) : Waited (a ++ b) := by
  intro c resume hc h
  rcases List.mem_append.1 h with h | h
  · exact List.mem_append_left _ (ha c resume hc h)
  · exact List.mem_append_right _ (hb c resume hc h)

theorem inHandler_explained {tr : List Event} (h : ∀ e ∈ tr, e.InHandler) : Explained tr ∧ Waited tr := by
  refine ⟨fun c _ hm => ?_, fun c resume _ hm => ?_⟩
  · rcases h _ hm with (⟨_, h⟩ | ⟨_, h⟩) | ⟨_, h⟩ | ⟨_, _, _, _, h⟩ <;> cases h
  · rcases h _ hm with (⟨_, h⟩ | ⟨_, h⟩) | ⟨_, h⟩ | ⟨_, _, _, _, h⟩ <;> cases h

/-- What one call of `readHeaders` adds. -/
theorem readHeaders_explained (hP : P.StopsAtEnd) (mem : Memory) (s : Session P) :
    ∃ tr, (s.readHeaders mem).session.trace = s.trace ++ tr ∧ Explained tr ∧
      ((∀ n, (mem.behindCarry n).isSome) → Waited tr) := by
  obtain ⟨tr, htr, hin⟩ := (readHeadersLoop_left hP mem s.reads (d := {})
    (s := { s.log (.entered s.httpParserBuffer s.reads.head?) with parser := P.init }) rfl).trace
  refine ⟨.entered s.httpParserBuffer s.reads.head? :: tr, ?_, fun c hc hsus => ?_, fun hm c resume hc hent => ?_⟩
  · rw [Session.readHeaders, htr]
    simp [Session.log]
  · obtain hsus | hsus := List.mem_cons.1 hsus
    · cases hsus
    · obtain ⟨hcarry, resume, hhead⟩ := ((hin _ hsus).2 c rfl).resolve_left hc
      refine ⟨resume, ?_⟩
      rw [hcarry, hhead]
      exact List.mem_cons_self
  · obtain hent | hent := List.mem_cons.1 hent
    · obtain ⟨rfl, hhead⟩ := Event.entered.inj hent
      obtain ⟨rs, hrs⟩ := List.head?_eq_some_iff.1 hhead.symm
      have hwait := readHeadersLoop_again_waits resume (d := {})
        (s := { s.log (.entered s.httpParserBuffer s.reads.head?) with parser := P.init }) hc (hm rs.length)
      rw [← hrs, htr] at hwait
      obtain ⟨x, hx⟩ := hwait
      rw [List.append_assoc] at hx
      rw [← List.append_cancel_left hx]
      exact List.mem_cons_of_mem _ List.mem_cons_self
    · rcases (hin _ hent).1 with ⟨_, h⟩ | ⟨_, h⟩ <;> cases h

theorem serve_explained (hP : P.StopsAtEnd) (srv : Server) (mem : Memory) (s : Session P) :
    ∃ tr, (s.serve srv mem).session.trace = s.trace ++ tr ∧ Explained tr ∧
      ((∀ n, (mem.behindCarry n).isSome) → Waited tr) := by
  obtain ⟨tr, htr, hex, hw⟩ := readHeaders_explained hP mem s
  obtain ⟨tr', htr', hin⟩ := (serve_extends srv mem s).trace
  have h := inHandler_explained hin
  exact ⟨tr ++ tr', by rw [htr', htr, List.append_assoc], hex.append h.1, fun hm => (hw hm).append h.2⟩

theorem loop_explained (hP : P.StopsAtEnd) (srv : Server) (mem : Memory) (n : Nat) (s : Session P) :
    ∃ tr, (s.loop srv mem n).session.trace = s.trace ++ tr ∧ Explained tr ∧
      ((∀ n, (mem.behindCarry n).isSome) → Waited tr) := by
  induction n generalizing s with
  | zero => exact ⟨[], by simp [Session.loop], nofun, nofun⟩
  | succ n ih =>
    obtain ⟨tr, htr, hex, hw⟩ := serve_explained hP srv mem s
    simp only [Session.loop]
    split
    · obtain ⟨tr', htr', hex', hw'⟩ := ih (s.serve srv mem).session
      exact ⟨tr ++ tr', by rw [htr', htr, List.append_assoc], hex.append hex', fun hm => (hw hm).append (hw' hm)⟩
    · exact ⟨tr, htr, hex, hw⟩

/-- `ioLoop` adds nothing but the end of the session to the trace of its loop. -/
theorem ioLoop_trace (srv : Server) (mem : Memory) (s : Session P) :
    ∃ tr, (s.ioLoop srv mem).session.trace =
        ((s.setSessionTimeout srv.headersTimeout).loop srv mem (s.reads.length + 1)).session.trace ++ tr ∧
      (tr = [] ∨ tr = [.shutdown]) := by
  unfold Session.ioLoop
  generalize (s.setSessionTimeout srv.headersTimeout).loop srv mem (s.reads.length + 1) = did
  dsimp only
  split
  · exact ⟨[.shutdown], rfl, .inr rfl⟩
  · by_cases hw : did.session.canWriteError
    · rw [if_pos hw]
      split
      · exact ⟨[.shutdown], rfl, .inr rfl⟩
      · exact ⟨[], by simp [Session.write, Session.wrote], .inl rfl⟩
    · rw [if_neg hw]
      exact ⟨[.shutdown], rfl, .inr rfl⟩
  · exact ⟨[], by simp, .inl rfl⟩

/-- If `readHeaders` is entered with bytes left, the socket has more. -/
def Event.Ready : Event → Bool
  | .entered c (some (.again _)) => c.isEmpty
  | _ => true

/-- `readHeaders` waits only if no bytes are left. -/
def Event.Drained : Event → Bool
  | .suspended .readHeaders c => c.isEmpty
  | _ => true

/-- In every run in which `readHeaders` is entered with bytes left only if there are more to read, it waits only when
every byte was passed to the parser. And if the memory behind the bytes can be read, only then. -/
theorem waits_drained (hP : P.StopsAtEnd) (srv : Server) (mem : Memory) (htr : s.trace = []) :
    ((∀ e ∈ (s.ioLoop srv mem).session.trace, e.Ready) → ∀ e ∈ (s.ioLoop srv mem).session.trace, e.Drained) ∧
    ((∀ n, (mem.behindCarry n).isSome) → (∀ e ∈ (s.ioLoop srv mem).session.trace, e.Drained) →
      ∀ e ∈ (s.ioLoop srv mem).session.trace, e.Ready) := by
  obtain ⟨tr, hloop, hex, hw⟩ := loop_explained hP srv mem (s.reads.length + 1) (s.setSessionTimeout srv.headersTimeout)
  obtain ⟨tr', hio, htr'⟩ := ioLoop_trace srv mem s
  have hs : (s.setSessionTimeout srv.headersTimeout).trace = [] := htr
  rw [hio, hloop, hs, List.nil_append]
  have hend : ∀ e ∈ tr', e = .shutdown := by
    rcases htr' with rfl | rfl <;> simp
  refine ⟨fun hready e he => ?_, fun hm hdrained e he => ?_⟩
  · rcases List.mem_append.1 he with he' | he'
    · by_contra hnot
      obtain ⟨c, rfl, hc⟩ : ∃ c, e = .suspended .readHeaders c ∧ c ≠ [] := by
        revert hnot
        unfold Event.Drained
        split <;> simp
      obtain ⟨resume, hent⟩ := hex c hc he'
      have := hready _ (List.mem_append_left _ hent)
      simp [Event.Ready, hc] at this
    · rw [hend e he']
      rfl
  · rcases List.mem_append.1 he with he' | he'
    · by_contra hnot
      obtain ⟨c, resume, rfl, hc⟩ : ∃ c resume, e = .entered c (some (.again resume)) ∧ c ≠ [] := by
        revert hnot
        unfold Event.Ready
        split <;> simp
      have := hdrained _ (List.mem_append_left _ (hw hm c resume hc he'))
      simp [Event.Drained, hc] at this
    · rw [hend e he']
      rfl

theorem replay_stopsAtEnd (tail : Bool) (tapes : List (List Token)) : (replay tail tapes).StopsAtEnd := by
  intro st bs herr hparsed
  simp only [replay, Tape.replay] at herr hparsed
  split at herr
  · cases herr
  · rename_i heq
    simp [heq] at hparsed

/-! ## Two requests for `/foo` -/

/-- Strings end where their block ends. -/
def tidyMemory : Memory := { plainMemory with behindCarry := fun _ => some [0] }

/-- Every request is served, and the connection kept. -/
def plainServer : Server where
  headersTimeout := 5
  keepAliveTimeout := 10
  createSession _ := .ok (some .ret)
  message _ := []

def getFooRun (reads : List ReadResult) : Did getFooParser := Session.ioLoop plainServer tidyMemory { reads := reads }

theorem waits_drained_one : (getFooRun [.data getFoo.bytes, .again none]).session.trace.all Event.Drained := by
  refine List.all_eq_true.2 ((waits_drained (replay_stopsAtEnd true [_]) plainServer tidyMemory rfl).1 ?_)
  decide

/-- The second request has arrived with the first, and waits. -/
theorem waits_with_request :
    (getFooRun [.data (getFoo.bytes ++ getFoo.bytes), .again none]).ended = .suspended ∧
    (getFooRun [.data (getFoo.bytes ++ getFoo.bytes), .again none]).session.httpParserBuffer = getFoo.bytes ∧
    ¬ ∀ e ∈ (getFooRun [.data (getFoo.bytes ++ getFoo.bytes), .again none]).session.trace, e.Drained := by
  exact ⟨by decide, by decide, by decide⟩

end Getodac
