import Getodac.Coroutine
/-!
# After a failed resume the session winds down

`quitIoLoop` resumes the coroutine with an error until it has finished. From the
first yield that returns the error on, the coroutine is `Winding`: it does not
read another head, and where a handler goes on the last yield has failed, so the
loop ends after it. A handler makes finitely many operations, each of which takes
finitely many answers or keeps reading bytes that are there.
-/

namespace Getodac

variable {P : HttpParser}

/-- Every yield returns an error. -/
structure Env.Failing (e : Env) : Prop where
  accept : e.accept ≠ .want none
  read : e.read ≠ .again none
  write : e.write ≠ .again none
  yield : e.yield ≠ none
  shutdown : e.shutdown ≠ .zero none

namespace Point

variable {ssl : Bool} {srv : Server}

/-- No request is read any more, and the last yield has failed wherever that is still asked for. -/
def Winding : Point P → Prop
  | .accept _ | .enter _ | .head _ _ => False
  | .body s _ _ | .write s _ _ _ | .writev s _ _ _ | .yield s _ _ => s.yielded ≠ none
  | .shutdown _ _ | .finished _ | .crashed _ => True

/-! ## Operations after a failed resume -/

theorem close_winding (s : Session P) : (close ssl s).Winding := by
  unfold close
  split <;> trivial

theorem catching_winding {s : Session P} (h : s.yielded ≠ none) (d : Data) (e : Exc) :
    (catching ssl srv s d e).Winding := by
  unfold catching
  split
  · exact h
  · exact close_winding s

/-- The loop asks for the last yield. -/
theorem served_close {s : Session P} (h : s.yielded ≠ none) (req : Request) : ∃ t, served ssl s req = close ssl t := by
  have hsome : s.yielded.isNone = false := Option.isNone_eq_false_iff.2 (Option.isSome_iff_ne_none.2 h)
  unfold served
  dsimp only [Session.log, Session.setSessionTimeout]
  rw [hsome, Bool.false_and, if_neg (by decide)]
  exact ⟨_, rfl⟩

theorem responding_fails {s : Session P} (h : s.yielded ≠ none) (res : Response) : (s.responding res).yielded ≠ none := by
  unfold Session.responding
  dsimp only
  split <;> split <;> exact h

theorem read_fails (mem : Memory) {s : Session P} (h : s.yielded ≠ none) (req : Request) :
    (Session.read mem { s with reads := [] } req).session.yielded ≠ none := by
  rcases (read_reading mem { s with reads := [] } req).yielded with heq | hmem
  · rwa [heq]
  · cases hmem

theorem reading_winding {next : Option Exc → Request → Handler} {k : Option Exc → Session P → Request → Point P}
    {did : Did P} (h : did.session.yielded ≠ none) (hk : ∀ e s req, s.yielded ≠ none → (k e s req).Winding) :
    (reading next k did).Winding := by
  unfold reading
  split
  · exact hk _ _ _ h
  · exact hk _ _ _ h
  · exact h
  · trivial

theorem goOn_winding (mem : Memory) (handler : Handler) {s : Session P} (h : s.yielded ≠ none) (req : Request) :
    (goOn ssl srv mem handler s req).Winding := by
  induction handler generalizing s req with
  | ret =>
    obtain ⟨t, ht⟩ := served_close h req
    rw [goOn, ht]
    exact close_winding t
  | throw e => exact catching_winding h _ e
  | modify f next ih => exact ih h (f req)
  | receive next ih =>
    unfold goOn
    split
    · split
      · exact ih _ _ h req
      · exact responding_fails h _
    · exact reading_winding (read_fails mem h req) fun e s' req' h' => ih e req' h' req'
  | read next ih => exact reading_winding (read_fails mem h req) fun e s' req' h' => ih e req' h' req'
  | write buffer next ih =>
    unfold goOn
    split
    · exact ih _ h req
    · exact h
  | writev buffers next ih => exact h
  | respond res next ih => exact responding_fails h res
  | yield next ih => exact h
  | setKeepAlive seconds next ih => exact ih (s := s.setKeepAlive seconds) h req
  | setSessionTimeout seconds next ih => exact ih (s := s.setSessionTimeout seconds) h req

theorem written_winding (mem : Memory) {s : Session P} (h : s.yielded ≠ none) (a : After) (e : Option Exc) :
    (written ssl srv mem s a e).Winding := by
  cases a with
  | handler req next => exact goOn_winding mem _ h req
  | expect req next => cases e <;> exact goOn_winding mem _ h req
  | refuse d =>
    cases e with
    | none => exact close_winding s
    | some e => exact catching_winding h d e
  | caught d =>
    cases e with
    | none => exact close_winding s
    | some e => trivial

/-! ## One answer -/

theorem lastYield_fails {y : Option ErrorCode} (h : y ≠ none) {w : WriteResult} (hw : w ≠ .again none) (n : Nat) :
    Session.lastYield y ([w].take n) ≠ none := by
  cases n with
  | zero => exact h
  | succ n =>
    rw [List.take_succ_cons, List.take_nil]
    match w with
    | .room _ _ => exact h
    | .failed _ => exact h
    | .again (some ec) => exact Option.some_ne_none ec
    | .again none => exact absurd rfl hw

theorem answerTo_fails {e : Env} (he : e.Failing) (buffers : List Bytes) : answerTo e buffers ≠ .again none := by
  unfold answerTo
  split
  · split
    · exact fun h => he.yield (WriteResult.again.inj h)
    · exact fun h => by cases h
  · exact he.write

theorem readLoop_fails {e : Env} (he : e.Failing) {s : Session P} (h : s.yielded ≠ none) (d : Data) :
    (Session.readLoop e.mem [e.read] { s with reads := [e.read] } d).session.yielded ≠ none := by
  rcases (readLoop_reading e.mem { s with reads := [e.read] } d rfl).yielded with heq | hmem
  · rwa [heq]
  · intro hnone
    rw [hnone, List.mem_singleton] at hmem
    exact he.read hmem.symm

theorem step_winding {p : Point P} (h : p.Winding) {e : Env} (he : e.Failing) : (p.step ssl srv e).Winding := by
  cases p with
  | accept s => exact h.elim
  | enter s => exact h.elim
  | head s d => exact h.elim
  | body s d next =>
    unfold step
    exact reading_winding (readLoop_fails he h d) fun ex s' req h' => goOn_winding e.mem _ h' req
  | write s buffer ne after =>
    have hs : (Session.write { s with writes := [e.write] } buffer).1.yielded ≠ none := lastYield_fails h he.write _
    unfold step
    dsimp only
    split
    · split
      · exact written_winding e.mem hs after none
      · exact hs
    · exact hs
    · exact written_winding e.mem hs after _
    · exact written_winding e.mem hs after _
  | writev s buffers req next =>
    have hs : (Session.writev { s with writes := [answerTo e buffers] } buffers).1.yielded ≠ none :=
      lastYield_fails h (answerTo_fails he buffers) _
    unfold step
    dsimp only
    generalize Session.writev { s with writes := [answerTo e buffers] } buffers = r at hs
    obtain ⟨s', ended⟩ := r
    cases ended <;> first | exact goOn_winding e.mem _ hs req | exact hs
  | yield s req next => exact goOn_winding e.mem _ he.yield req
  | shutdown s count =>
    unfold step
    dsimp only
    split
    · split <;> trivial
    · trivial
    · trivial
  | finished s => trivial
  | crashed s => trivial

/-- `readHeaders` may read past its buffer before it asks for an answer. -/
theorem readHeadersLoop_again (mem : Memory) (ec : ErrorCode) (s : Session P) (d : Data) :
    (Session.readHeadersLoop mem [.again (some ec)] s d).ended = .crashed ∨
    (Session.readHeadersLoop mem [.again (some ec)] s d).ended = .threw (.error_code ec) ∧
    (Session.readHeadersLoop mem [.again (some ec)] s d).session.yielded ≠ none := by
  unfold Session.readHeadersLoop
  dsimp only
  split
  · exact .inl rfl
  · exact .inr ⟨rfl, Option.some_ne_none ec⟩

theorem readingHead_winding (mem : Memory) {did : Did P}
    (h : did.ended = .crashed ∨ ∃ e, did.ended = .threw e ∧ did.session.yielded ≠ none) :
    (readingHead ssl srv mem did).Winding := by
  unfold readingHead
  rcases h with h | ⟨e, h, hy⟩
  · rw [h]
    trivial
  · rw [h]
    exact catching_winding hy did.data e

/-- From the first yield that fails on. -/
theorem resumed_winding {p : Point P} {e : Env} {ec : ErrorCode} (h : p.resumed e = some (some ec)) :
    (p.step ssl srv e).Winding := by
  cases p with
  | accept s =>
    unfold step
    dsimp only
    rw [SslAccept.resume_eq h]
    trivial
  | enter s =>
    unfold step Session.readHeaders
    dsimp only
    rw [ReadResult.resume_eq h]
    exact readingHead_winding e.mem ((readHeadersLoop_again _ ec _ _).imp_right fun h => ⟨_, h⟩)
  | head s d =>
    unfold step
    dsimp only
    rw [ReadResult.resume_eq h]
    exact readingHead_winding e.mem ((readHeadersLoop_again _ ec _ _).imp_right fun h => ⟨_, h⟩)
  | body s d next =>
    unfold step
    dsimp only
    rw [ReadResult.resume_eq h]
    exact goOn_winding e.mem _ (Option.some_ne_none ec) _
  | write s buffer ne after =>
    obtain ⟨b, bs, rfl⟩ := List.exists_cons_of_ne_nil ne
    unfold step
    dsimp only
    rw [WriteResult.resume_eq h]
    exact written_winding e.mem (Option.some_ne_none ec) after _
  | writev s buffers req next =>
    unfold step
    dsimp only
    rw [WriteResult.resume_eq h]
    exact goOn_winding e.mem _ (Option.some_ne_none ec) req
  | yield s req next =>
    have hyield : e.yield = some ec := Option.some.inj h
    exact goOn_winding e.mem _ (hyield ▸ Option.some_ne_none ec) req
  | shutdown s count =>
    unfold step
    dsimp only
    rw [SslShutdown.resume_eq h]
    trivial
  | finished s => cases h
  | crashed s => cases h

/-! ## The end -/

/-- The coroutine does not run any more. -/
def Over : Point P → Prop
  | .finished _ | .crashed _ => True
  | _ => False

/-- `readSome` does not find bytes at every moment from some moment on. -/
def Pauses (env : Nat → Env) : Prop := ∀ n, ∃ m, n ≤ m ∧ ∀ bs, (env m).read ≠ .data bs

variable (ssl srv) in
/-- With these answers the coroutine yields finitely often, and is over if the peer pauses. -/
def EndsWith (env : Nat → Env) (p : Point P) : Prop :=
  (∃ N, ∀ n, N ≤ n → (p.after ssl srv env n).resumed (env n) = none) ∧
  (Pauses env → ∃ n, (p.after ssl srv env n).Over)

variable (ssl srv) in
/-- So it does whenever every yield fails. -/
def Ends (p : Point P) : Prop := ∀ env : Nat → Env, (∀ n, (env n).Failing) → p.EndsWith ssl srv env

theorem endsWith_succ {env : Nat → Env} {p : Point P}
    (h : (p.step ssl srv (env 0)).EndsWith ssl srv fun n => env (n + 1)) : p.EndsWith ssl srv env := by
  obtain ⟨⟨N, hN⟩, hover⟩ := h
  refine ⟨⟨N + 1, fun n hn => ?_⟩, fun hp => ?_⟩
  · obtain ⟨n, rfl⟩ : ∃ k, n = k + 1 := ⟨n - 1, by omega⟩
    exact hN n (by omega)
  · obtain ⟨n, hn⟩ := hover fun n => by
      obtain ⟨m, hm, hread⟩ := hp (n + 1)
      obtain ⟨m, rfl⟩ : ∃ k, m = k + 1 := ⟨m - 1, by omega⟩
      exact ⟨m, by omega, hread⟩
    exact ⟨n + 1, hn⟩

theorem ends_of_step {p : Point P} (h : ∀ e, e.Failing → (p.step ssl srv e).Ends ssl srv) : p.Ends ssl srv := by
  intro env henv
  exact endsWith_succ (h (env 0) (henv 0) _ fun n => henv (n + 1))

variable (ssl srv) in
theorem after_fixed {p : Point P} (h : ∀ e, p.step ssl srv e = p) (env : Nat → Env) (n : Nat) :
    p.after ssl srv env n = p := by
  induction n generalizing env with
  | zero => rfl
  | succ n ih => rw [after, h, ih]

theorem over_ends {p : Point P} (h : p.Over) : p.Ends ssl srv := by
  intro env _
  have hstep : ∀ e, p.step ssl srv e = p := by
    cases p <;> first | exact h.elim | exact fun _ => rfl
  have hresumed : ∀ e, p.resumed e = none := by
    cases p <;> first | exact h.elim | exact fun _ => rfl
  have hafter := after_fixed ssl srv hstep env
  exact ⟨⟨0, fun n _ => by rw [hafter, hresumed]⟩, fun _ => ⟨0, h⟩⟩

theorem shutdown_ends (s : Session P) (count : Nat) : (Point.shutdown s count).Ends ssl srv := by
  refine ends_of_step fun e he => ?_
  unfold step
  dsimp only
  split
  · exact absurd ‹_› he.shutdown
  · exact over_ends trivial
  · exact over_ends trivial

theorem close_ends (s : Session P) : (close ssl s).Ends ssl srv := by
  unfold close
  split
  · exact shutdown_ends _ _
  · exact over_ends trivial

theorem write_ends {a : After} (ha : ∀ (mem : Memory) (e : Option Exc) (s : Session P), s.yielded ≠ none →
    (written ssl srv mem s a e).Ends ssl srv) (buffer : Bytes) (ne : buffer ≠ []) {s : Session P} (h : s.yielded ≠ none) :
    (Point.write s buffer ne a).Ends ssl srv := by
  induction hlen : buffer.length using Nat.strong_induction_on generalizing buffer s with
  | _ len ih =>
    refine ends_of_step fun e he => ?_
    have hs : (Session.write { s with writes := [e.write] } buffer).1.yielded ≠ none := lastYield_fails h he.write _
    unfold step
    dsimp only
    split
    · rename_i k pos _
      split
      · exact ha _ _ _ hs
      · have hpos := List.length_pos_iff.2 ne
        exact ih _ (by rw [List.length_drop]; omega) _ _ hs rfl
    · exact absurd ‹_› he.write
    · exact ha _ _ _ hs
    · exact ha _ _ _ hs

theorem catching_ends {s : Session P} (h : s.yielded ≠ none) (d : Data) (e : Exc) :
    (catching ssl srv s d e).Ends ssl srv := by
  unfold catching
  split
  · refine write_ends (fun mem e' s' _ => ?_) _ _ h
    cases e' with
    | none => exact close_ends s'
    | some _ => exact over_ends trivial
  · exact close_ends s

/-! ### `read` -/

/-- Where a `read` is that has not come back with the next `n` answers. -/
def still (env : Nat → Env) : Nat → Session P → Data → Option (Session P × Data)
  | 0, s, d => some (s, d)
  | n + 1, s, d =>
    let did := Session.readLoop (env 0).mem [(env 0).read] { s with reads := [(env 0).read] } d
    if did.ended = .suspended then still (fun n => env (n + 1)) n did.session did.data else none

/-- An answer without bytes ends the `read`. -/
theorem readLoop_data {e : Env} (he : e.Failing) {s : Session P} {d : Data}
    (h : (Session.readLoop e.mem [e.read] { s with reads := [e.read] } d).ended = .suspended) :
    ∃ bs, e.read = .data bs := by
  match hread : e.read with
  | .data bs => exact ⟨bs, rfl⟩
  | .failed ec =>
    rw [hread] at h
    cases h
  | .again (some ec) =>
    rw [hread] at h
    cases h
  | .again none => exact absurd hread he.read

section Body

variable {next : Option Exc → Request → Handler}

theorem still_after {env : Nat → Env} {n : Nat} {s : Session P} {d : Data} {t : Session P × Data}
    (h : still env n s d = some t) : (Point.body s d next).after ssl srv env n = .body t.1 t.2 next := by
  induction n generalizing env s d with
  | zero => cases h; rfl
  | succ n ih =>
    unfold still at h
    dsimp only at h
    split at h
    · rw [after, step, reading, ‹Did.ended _ = _›]
      exact ih h
    · cases h

theorem still_data {env : Nat → Env} (henv : ∀ n, (env n).Failing) {n : Nat} {s : Session P} {d : Data}
    (h : still env (n + 1) s d ≠ none) : ∃ bs, (env n).read = .data bs := by
  induction n generalizing env s d with
  | zero =>
    unfold still at h
    dsimp only at h
    split at h
    · exact readLoop_data (henv 0) ‹_›
    · exact absurd rfl h
  | succ n ih =>
    unfold still at h
    dsimp only at h
    split at h
    · exact ih (fun n => henv (n + 1)) h
    · exact absurd rfl h

/-- A `read` that comes back for no number of answers is fed at every moment. -/
theorem endsWith_of_still {env : Nat → Env} (henv : ∀ n, (env n).Failing) {s : Session P} {d : Data}
    (h : ∀ n, still env n s d ≠ none) : (Point.body s d next).EndsWith ssl srv env := by
  refine ⟨⟨0, fun n _ => ?_⟩, fun hpauses => ?_⟩
  · obtain ⟨t, ht⟩ := Option.ne_none_iff_exists'.1 (h n)
    obtain ⟨bs, hbs⟩ := still_data henv (h (n + 1))
    rw [still_after ht, resumed, hbs]
    rfl
  · obtain ⟨m, -, hm⟩ := hpauses 0
    obtain ⟨bs, hbs⟩ := still_data henv (h (m + 1))
    exact absurd hbs (hm bs)

theorem body_ends (hnext : ∀ (mem : Memory) (e : Option Exc) (s : Session P) (req : Request), s.yielded ≠ none →
    (goOn ssl srv mem (next e req) s req).Ends ssl srv) {s : Session P} (h : s.yielded ≠ none) (d : Data) :
    (Point.body s d next).Ends ssl srv := by
  intro env henv
  by_cases hleaves : ∃ n, still env n s d = none
  · obtain ⟨n, hn⟩ := hleaves
    induction n generalizing env s d with
    | zero => cases hn
    | succ n ih =>
      have hs := readLoop_fails (henv 0) h d
      have henv' : ∀ n, (env (n + 1)).Failing := fun n => henv (n + 1)
      refine endsWith_succ ?_
      unfold still at hn
      dsimp only at hn
      split at hn
      · rw [step, reading, ‹Did.ended _ = _›]
        exact ih hs _ _ henv' hn
      · unfold step reading
        dsimp only
        split
        · exact hnext _ _ _ _ hs _ henv'
        · exact hnext _ _ _ _ hs _ henv'
        · exact absurd ‹Did.ended _ = .suspended› ‹_›
        · exact over_ends (p := .crashed _) trivial _ henv'
  · exact endsWith_of_still henv fun n hn => hleaves ⟨n, hn⟩

theorem read_ends (hnext : ∀ (mem : Memory) (e : Option Exc) (s : Session P) (req : Request), s.yielded ≠ none →
    (goOn ssl srv mem (next e req) s req).Ends ssl srv) (mem : Memory) {s : Session P} (h : s.yielded ≠ none)
    (req : Request) : (goOn ssl srv mem (.read next) s req).Ends ssl srv := by
  have hs := read_fails mem h req
  rw [goOn]
  unfold reading
  split
  · exact hnext _ _ _ _ hs
  · exact hnext _ _ _ _ hs
  · exact body_ends hnext hs _
  · exact over_ends trivial

end Body

/-! ### The gathering write -/

theorem answerTo_room {e : Env} {buffers : List Bytes} {k : Nat} {pos : 0 < k} (h : answerTo e buffers = .room k pos) :
    buffers.flatten ≠ [] := by
  intro hnil
  unfold answerTo at h
  split at h
  · rw [if_pos hnil] at h
    cases h
  · rename_i hw
    exact hw k pos h

/-- A gathering write that goes on has sent something. -/
theorem unsent_shorter {buffers : List Bytes} (hne : buffers.flatten ≠ []) {k : Nat} (pos : 0 < k)
    (h : (Getodac.writev buffers [.room k pos]).outcome = .suspended) :
    (unsent buffers (.room k pos)).flatten.length < buffers.flatten.length := by
  have hlen := List.length_pos_iff.2 hne
  have hw : min k buffers.flatten.length ≠ 0 := by omega
  rw [Getodac.writev, if_neg hw] at h
  dsimp only at h
  split at h
  · cases h
  · rw [unsent, (reslice_open ‹_›).1, List.length_drop]
    omega

theorem writev_ends {next : Option Exc → Handler} {req : Request}
    (hnext : ∀ (mem : Memory) (e : Option Exc) (s : Session P), s.yielded ≠ none →
      (goOn ssl srv mem (next e) s req).Ends ssl srv) (buffers : List Bytes) {s : Session P} (h : s.yielded ≠ none) :
    (Point.writev s buffers req next).Ends ssl srv := by
  induction hlen : buffers.flatten.length using Nat.strong_induction_on generalizing buffers s with
  | _ len ih =>
    refine ends_of_step fun e he => ?_
    have hs : (Session.writev { s with writes := [answerTo e buffers] } buffers).1.yielded ≠ none :=
      lastYield_fails h (answerTo_fails he buffers) _
    unfold step
    dsimp only
    match hw : answerTo e buffers with
    | .again none => exact absurd hw (answerTo_fails he buffers)
    | .again (some ec) =>
      rw [hw] at hs
      exact hnext e.mem _ _ hs
    | .failed ec =>
      rw [hw] at hs
      exact hnext e.mem _ _ hs
    | .room k pos =>
      rw [hw] at hs
      have hshorter := unsent_shorter (answerTo_room hw) pos
      unfold Session.writev Session.wrote at hs ⊢
      dsimp only at hs ⊢
      cases houtcome : (Getodac.writev buffers [.room k pos]).outcome with
      | returned => exact hnext e.mem none _ hs
      | threw ec => exact hnext e.mem _ _ hs
      | suspended => exact ih _ (hlen ▸ hshorter houtcome) _ hs rfl

/-! ### Handlers -/

theorem goOn_ends (mem : Memory) (handler : Handler) {s : Session P} (h : s.yielded ≠ none) (req : Request) :
    (goOn ssl srv mem handler s req).Ends ssl srv := by
  induction handler generalizing mem s req with
  | ret =>
    obtain ⟨t, ht⟩ := served_close h req
    rw [goOn, ht]
    exact close_ends t
  | throw e => exact catching_ends h _ e
  | modify f next ih => exact ih mem h (f req)
  | receive next ih =>
    have hnext : ∀ mem e (s : Session P) req, s.yielded ≠ none → (goOn ssl srv mem (next e req) s req).Ends ssl srv :=
      fun mem e s req h => ih e req mem h req
    unfold goOn
    split
    · split
      · exact hnext _ _ _ _ h
      · refine write_ends (fun mem e s h => ?_) _ _ (responding_fails h _)
        cases e with
        | none => exact read_ends hnext mem h req
        | some e => exact hnext mem (some e) s req h
    · exact read_ends hnext mem h req
  | read next ih => exact read_ends (fun mem e s req h => ih e req mem h req) mem h req
  | write buffer next ih =>
    unfold goOn
    split
    · exact ih _ mem h req
    · exact write_ends (fun mem e s h => ih e mem h req) _ _ h
  | writev buffers next ih => exact writev_ends (fun mem e s h => ih e mem h req) buffers h
  | respond res next ih => exact write_ends (fun mem e s h => ih e mem h req) _ _ (responding_fails h res)
  | yield next ih => exact ends_of_step fun e he => ih e.yield e.mem he.yield req
  | setKeepAlive seconds next ih => exact ih mem (s := s.setKeepAlive seconds) h req
  | setSessionTimeout seconds next ih => exact ih mem (s := s.setSessionTimeout seconds) h req

theorem written_ends (mem : Memory) {s : Session P} (h : s.yielded ≠ none) (a : After) (e : Option Exc) :
    (written ssl srv mem s a e).Ends ssl srv := by
  cases a with
  | handler req next => exact goOn_ends mem _ h req
  | expect req next => cases e <;> exact goOn_ends mem _ h req
  | refuse d =>
    cases e with
    | none => exact close_ends s
    | some e => exact catching_ends h d e
  | caught d =>
    cases e with
    | none => exact close_ends s
    | some e => exact over_ends trivial

theorem winding_ends {p : Point P} (h : p.Winding) : p.Ends ssl srv := by
  cases p with
  | accept s => exact h.elim
  | enter s => exact h.elim
  | head s d => exact h.elim
  | body s d next => exact body_ends (fun mem e s req h => goOn_ends mem _ h req) h d
  | write s buffer ne after => exact write_ends (fun mem e s h => written_ends mem h after e) buffer ne h
  | writev s buffers req next => exact writev_ends (fun mem e s h => goOn_ends mem _ h req) buffers h
  | yield s req next => exact ends_of_step fun e he => goOn_ends e.mem _ he.yield req
  | shutdown s count => exact shutdown_ends s count
  | finished s => exact over_ends trivial
  | crashed s => exact over_ends trivial

theorem after_winding {p : Point P} (h : p.Winding) {env : Nat → Env} (henv : ∀ n, (env n).Failing) (n : Nat) :
    (p.after ssl srv env n).Winding := by
  induction n generalizing p env with
  | zero => exact h
  | succ n ih => exact ih (step_winding h (henv 0)) fun n => henv (n + 1)

theorem winding_createsSession {p : Point P} (h : p.Winding) (e : Env) : p.createsSession e = false := by
  cases p <;> first | rfl | exact h.elim

/-- Once a yield has returned an error, and all that follow do, no further request gets a handler, the coroutine yields
finitely often, and it is over if the peer pauses. -/
theorem winds_down (ssl : Bool) (srv : Server) (p : Point P) (e : Env) (ec : ErrorCode)
    (h : p.resumed e = some (some ec)) (env : Nat → Env) (henv : ∀ n, (env n).Failing) :
    (∀ n, ((p.step ssl srv e).after ssl srv env n).createsSession (env n) = false) ∧
    (∃ N, ∀ n, N ≤ n → ((p.step ssl srv e).after ssl srv env n).resumed (env n) = none) ∧
    (Pauses env → ∃ n, ((p.step ssl srv e).after ssl srv env n).Over) := by
  have hwinding : (p.step ssl srv e).Winding := resumed_winding h
  exact ⟨fun n => winding_createsSession (after_winding hwinding henv n) (env n), winding_ends hwinding env henv⟩

end Point

/-! ## A peer that does not pause -/

section Fed

open Tape

def transferEncoding : Field :=
  { host with
    name := bytes "Transfer-Encoding"
    value := bytes "chunked"
    name_ne := by decide
    name_ok := by decide +kernel
    name_colon := by decide
    value_ok := by decide +kernel
    value_start := by decide +kernel }

/-- A request with a body in chunks. -/
def upload : Head := { post with fields := [transferEncoding] }

def aChunk : Chunk := ⟨bytes "1", bytes "a", by decide +kernel, by decide +kernel⟩

/-- The parser of that request with as many chunks as there are bytes for. -/
def uploadParser : HttpParser where
  toMachine := endless Callback.data (tails true) (upload.tape (headDone true true)) aChunk.tape
  thrown st _ _ := st

/-- A handler that takes the body and, when `read` has thrown, tries it once more. -/
def retries : Handler :=
  .modify (fun req => req.appendBodyCallback fun _ _ => none) (.read fun _ _ => .read fun _ _ => .ret)

def answering (r : ReadResult) : Env where
  mem := plainMemory
  accept := .failed
  read := r
  write := .failed .io_error
  yield := some .timed_out
  shutdown := .other

theorem answering_failing {r : ReadResult} (h : r ≠ .again none) : (answering r).Failing := by
  refine ⟨?_, h, ?_, ?_, ?_⟩ <;> (intro h; cases h)

/-- The head arrives, the wait for the body times out, and then there is a chunk whenever the session reads. -/
def uploading : Nat → Env
  | 0 => answering (.data upload.bytes)
  | 1 => answering (.again (some .timed_out))
  | _ + 2 => answering (.data (aChunk.tape.map (·.byte)))

/-- The tape before the parser, and the run it is in. -/
def Session.position (s : Session uploadParser) : List Token × Run UInt8 Kind := s.parser

namespace Point

/-- In a `read`, before a chunk. -/
def BeforeChunk : Point uploadParser → Prop
  | .body s d _ =>
    s.httpParserBuffer = [] ∧ (∃ n, s.position = (upTo [] aChunk.tape n, none)) ∧ d.req.state ≠ .Completed ∧ d.Silent
  | _ => False

theorem execute_chunk (n : Nat) :
    uploadParser.execute (upTo [] aChunk.tape n, none) (aChunk.tape.map (·.byte)) =
      ⟨(upTo [] aChunk.tape (n + 5), none), [.data .body (bytes "a")], 6, false⟩ := by
  have hmore : upTo (upTo [] aChunk.tape n) aChunk.tape aChunk.tape.length = aChunk.tape ++ upTo [] aChunk.tape (n + 5) := by
    have hlen : aChunk.tape.length = 6 := by decide
    rw [hlen, ← upTo_add]
    rfl
  refine (endless_execute _ _ none hmore).trans ?_
  have hrun : reopen (tails true) (emit Callback.data none aChunk.tape).2 = none := by decide
  have hcalls : calls Callback.data none aChunk.tape = [.data .body (bytes "a")] := by decide
  rw [hrun, hcalls]
  rfl

/-- A `read` with a chunk takes it and reads on. -/
theorem readLoop_chunk {s : Session uploadParser} {d : Data} {n : Nat} (hcarry : s.httpParserBuffer = [])
    (hn : s.position = (upTo [] aChunk.tape n, none)) (hopen : d.req.state ≠ .Completed) (hsilent : d.Silent) :
    Session.readLoop plainMemory [.data (aChunk.tape.map (·.byte))] s d =
      ⟨.suspended,
        { s.log (.executed .read (aChunk.tape.map (·.byte))) with
          reads := [], httpParserBuffer := [], parser := (upTo [] aChunk.tape (n + 5), none) },
        { d with req := { d.req with body := d.req.body ++ bytes "a" } }⟩ := by
  have hfits : ¬ (aChunk.tape.map (·.byte) = [] ∨
      (Session.fill plainMemory 0 []).currentSize < (aChunk.tape.map (·.byte)).length) := by decide
  have hwindow : Session.received plainMemory 0 (Session.fill plainMemory 0 []) (aChunk.tape.map (·.byte)) 0 =
      some (aChunk.tape.map (·.byte)) := by decide
  have hused : (aChunk.tape.map (·.byte)).drop 6 = [] := by decide
  have hparser : s.parser = (upTo [] aChunk.tape n, none) := hn
  unfold Session.readLoop
  simp only [hcarry, List.length_nil, if_neg hfits, hwindow, Session.execute, hparser, execute_chunk, Data.callAll,
    call_body hsilent, Bool.false_eq_true, if_false, if_neg hopen, hused, Session.readLoop]
  rfl

theorem step_beforeChunk {ssl : Bool} {srv : Server} {p : Point uploadParser} (h : p.BeforeChunk) :
    (p.step ssl srv (answering (.data (aChunk.tape.map (·.byte))))).BeforeChunk := by
  cases p with
  | body s d next =>
    obtain ⟨hcarry, ⟨n, hn⟩, hopen, hsilent⟩ := h
    unfold step answering
    dsimp only
    rw [readLoop_chunk (s := { s with reads := [.data (aChunk.tape.map (·.byte))] }) hcarry hn hopen hsilent]
    exact ⟨rfl, ⟨n + 5, rfl⟩, hopen, hsilent⟩
  | _ => exact h.elim

theorem after_beforeChunk (ssl : Bool) (srv : Server) {p : Point uploadParser} (h : p.BeforeChunk) (n : Nat) :
    (p.after ssl srv (fun k => uploading (k + 2)) n).BeforeChunk := by
  induction n generalizing p with
  | zero => exact h
  | succ n ih => exact ih (step_beforeChunk h)

theorem BeforeChunk.not_over {p : Point uploadParser} (h : p.BeforeChunk) : ¬ p.Over := by
  cases p <;> first | exact h.elim | exact id

/-- With nothing left over from the head, `read` waits for bytes. -/
theorem goOn_read {P : HttpParser} (ssl : Bool) (srv : Server) (mem : Memory) (next : Option Exc → Request → Handler)
    (s : Session P) (req : Request) (hcarry : s.httpParserBuffer = []) (hopen : req.state ≠ .Completed) :
    goOn ssl srv mem (.read next) s req =
      .body { s with reads := [], canWriteError := true } { req := req } next := by
  have hread : Session.read mem { s with reads := [] } req =
      ⟨.suspended, { s with reads := [], canWriteError := true }, { req := req }⟩ := by
    simp only [Session.read, if_neg hopen, hcarry, if_true, List.drop_nil, Session.readLoop]
  rw [goOn, hread]
  rfl

/-- The head is read, and the handler waits for the body. -/
theorem uploading_first : ∃ (s : Session uploadParser) (req : Request),
    (Point.enter { reads := [] }).step false (serverOf retries) (uploading 0) =
      .body s { req := req } (fun _ _ => .read fun _ _ => .ret) ∧
    s.httpParserBuffer = [] ∧ s.position = (upTo [] aChunk.tape 47, none) ∧ req.state ≠ .Completed ∧
    (⟨req, []⟩ : Data).Silent := by
  have hended : (Session.readHeaders plainMemory ({ reads := [.data upload.bytes] } : Session uploadParser)).ended =
      .returned := by decide
  have hcarry : (Session.readHeaders plainMemory
      ({ reads := [.data upload.bytes] } : Session uploadParser)).session.httpParserBuffer = [] := by decide
  have hn : (Session.readHeaders plainMemory
      ({ reads := [.data upload.bytes] } : Session uploadParser)).session.position = (upTo [] aChunk.tape 47, none) := by
    decide +kernel
  have hopen : (Session.readHeaders plainMemory
      ({ reads := [.data upload.bytes] } : Session uploadParser)).data.req.state ≠ .Completed := by decide
  have hhead : (Point.enter ({ reads := [] } : Session uploadParser)).step false (serverOf retries) (uploading 0) =
      readingHead false (serverOf retries) plainMemory
        (Session.readHeaders plainMemory ({ reads := [.data upload.bytes] } : Session uploadParser)) := rfl
  generalize Session.readHeaders plainMemory ({ reads := [.data upload.bytes] } : Session uploadParser) = did at *
  have hcreate : create false (serverOf retries) plainMemory did.session did.data = _ :=
    goOn_read false (serverOf retries) plainMemory (fun _ _ => .read fun _ _ => .ret)
      (did.session.startHandler (serverOf retries) did.data.req)
      (did.data.req.appendBodyCallback fun _ _ => none) hcarry hopen
  rw [readingHead, hended] at hhead
  exact ⟨_, _, hhead.trans hcreate, hcarry, hn, hopen, _, rfl, fun _ _ => rfl⟩

theorem uploading_resumed : ((Point.enter ({ reads := [] } : Session uploadParser)).after false (serverOf retries)
    uploading 1).resumed (uploading 1) = some (some .timed_out) := by
  obtain ⟨s, req, hfirst, -⟩ := uploading_first
  rw [after, after, hfirst]
  rfl

/-- The wait fails, and the handler reads once more. -/
theorem uploading_second :
    ((Point.enter ({ reads := [] } : Session uploadParser)).after false (serverOf retries) uploading 2).BeforeChunk := by
  obtain ⟨s, req, hfirst, hcarry, hn, hopen, hsilent⟩ := uploading_first
  have hsecond : (Point.body s { req := req } (fun _ _ => .read fun _ _ => .ret)).step false (serverOf retries)
      (uploading 1) = goOn false (serverOf retries) plainMemory (.read fun _ _ => .ret)
        { s.log (.suspended .read s.httpParserBuffer) with reads := [], yielded := some .timed_out } req := rfl
  rw [after, after, after, hfirst, hsecond, goOn_read]
  · exact ⟨hcarry, ⟨47, hn⟩, hopen, hsilent⟩
  · exact hcarry
  · exact hopen

/-- A handler that reads once more does not come back from that `read` if the peer has a chunk whenever it asks. -/
theorem winds_down_fed :
    (∀ n, uploadParser.Follows true (upTo (upload.tape (headDone true true)) aChunk.tape n)) ∧
    (let p := Point.enter ({ reads := [] } : Session uploadParser)
     (p.after false (serverOf retries) uploading 1).resumed (uploading 1) = some (some .timed_out) ∧
     (∀ n, (uploading n).Failing) ∧ ∀ n, ¬ (p.after false (serverOf retries) uploading n).Over) := by
  refine ⟨endless_follows _ _ (by decide), uploading_resumed, ?_, ?_⟩
  · intro n
    match n with
    | 0 | 1 | _ + 2 => exact answering_failing (by intro h; cases h)
  · intro n hover
    match n with
    | 0 => exact hover
    | 1 =>
      obtain ⟨s, req, hfirst, -⟩ := uploading_first
      rw [after, after, hfirst] at hover
      exact hover
    | n + 2 =>
      exact (after_beforeChunk false (serverOf retries) uploading_second n).not_over hover

/-- If the peer has nothing more to say, that `read` fails as well. -/
theorem winds_down_silent :
    let p := (Point.enter ({ reads := [] } : Session uploadParser)).after false (serverOf retries) uploading 1
    ∃ n, ((p.step false (serverOf retries) (uploading 1)).after false (serverOf retries)
      (fun _ => answering (.again (some .timed_out))) n).Over := by
  intro p
  have hpauses : Pauses fun _ => answering (.again (some .timed_out)) :=
    fun n => ⟨n, Nat.le_refl n, fun bs h => by cases h⟩
  exact (winds_down false (serverOf retries) p (uploading 1) .timed_out uploading_resumed _
    fun _ => answering_failing (by intro h; cases h)).2.2 hpauses

end Point

end Fed

end Getodac
