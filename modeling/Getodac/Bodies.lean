import Getodac.Receive
/-!
# Bodies, whole and in order

A body reaches its callback in pieces: what `readHeaders` has kept, and then what each
read brings. `read_whole` says that the pieces are the body, whatever they are, and
that `read` takes the read with the last byte of the body and none after it.
-/

namespace Getodac

open Tape

variable {P : HttpParser} {mem : Memory} {tail : Bool} {tape done : List Token} {s s' : Session P} {d d' : Data}

/-! ## Pieces -/

/-- What the callbacks give to the body callback. -/
def bodyOf (cs : List Callback) : Bytes :=
  cs.flatMap fun
    | .data .body piece => piece
    | _ => []

theorem bodyOf_append (a b : List Callback) : bodyOf (a ++ b) = bodyOf a ++ bodyOf b := List.flatMap_append

theorem call_bodyOf (hs : d.Silent) (c : Callback) :
    ∃ d', d.call c = (d', none) ∧ d'.Silent ∧ d'.req.body = d.req.body ++ bodyOf [c] := by
  cases c with
  | data k piece =>
    cases k with
    | body => exact ⟨_, call_body hs piece, hs, by simp [bodyOf]⟩
    | url | headerField | headerValue => exact ⟨_, rfl, hs, by simp [bodyOf, Data.headerValue]⟩
  | messageBegin | headersComplete | messageComplete => exact ⟨_, rfl, hs, by simp [bodyOf]⟩

theorem callAll_bodyOf {cs : List Callback} (hs : d.Silent) (h : d.callAll cs = (d', none)) :
    d'.req.body = d.req.body ++ bodyOf cs := by
  induction cs generalizing d with
  | nil =>
    cases h
    exact (List.append_nil _).symm
  | cons c cs ih =>
    obtain ⟨d₁, hc, hs₁, hbody⟩ := call_bodyOf hs c
    rw [Data.callAll, hc] at h
    rw [ih hs₁ h, hbody, List.append_assoc, ← bodyOf_append, List.singleton_append]

/-- Parts make the same body. -/
theorem bodyOf_refines {q : Kind → Prop} {L L₀ : List Callback} (h : Refines Callback.data q L L₀) : bodyOf L = bodyOf L₀ := by
  induction h with
  | nil => rfl
  | event c _ ih => exact congrArg₂ (· ++ ·) rfl ih
  | run k p _ _ ih =>
    have hparts : bodyOf (p.all.map (.data k)) = bodyOf [.data k p.whole] := by
      cases k with
      | body => simp [bodyOf, List.flatMap_map, Pieces.all, Pieces.whole, List.flatMap_id']
      | url | headerField | headerValue => simp [bodyOf, List.flatMap_map]
    rw [bodyOf_append, hparts, ih, ← bodyOf_append, List.singleton_append]

theorem bodyOf_fields (fs : List Field) : bodyOf (fs.flatMap Field.calls) = [] := by
  induction fs with
  | nil => rfl
  | cons f fs ih => exact ih

theorem bodyOf_body (b : Body) : bodyOf (b.calls ++ [.messageComplete]) = b.data := by
  cases b with
  | identity data ne => simp [bodyOf, Body.calls, Body.data]
  | chunked chunks line ok trailers =>
    rw [Body.calls, bodyOf_append, bodyOf_append, bodyOf_fields]
    simp [bodyOf, Body.data, List.flatMap_map]

/-! ## The end of `read` -/

theorem readLoop_completed {rs : List ReadResult} (h : s.readLoop mem rs d = ⟨.returned, s', d'⟩) :
    d'.req.state = .Completed := by
  induction rs generalizing s d with
  | nil => cases h
  | cons r rs ih =>
    unfold Session.readLoop at h
    cases r with
    | failed ec => cases h
    | again resume =>
      cases resume with
      | none => exact ih h
      | some ec => cases h
    | data bs =>
      dsimp only at h
      split at h
      · cases h
      · split at h
        · cases h
        · split at h
          · split at h
            · cases h
              assumption
            · exact ih h
          · rename_i hne _
            exact (hne _ _ h).elim

theorem read_completed {req : Request} (h : s.read mem req = ⟨.returned, s', d'⟩) : d'.req.state = .Completed := by
  unfold Session.read at h
  split at h
  · cases h
    assumption
  · dsimp only at h
    split at h
    · split at h
      · cases h
        assumption
      · exact readLoop_completed h
    · rename_i hne
      exact (hne _ _ h).elim

/-- The answers after the last one that brings bytes. -/
theorem left_unique {used left left' a : List ReadResult} {bs : Bytes} (hlast : ∀ r ∈ used.getLast?, ∃ bs, r = .data bs)
    (hleft : datas left = []) (hleft' : datas left' = []) (h : used ++ left = a ++ .data bs :: left') : left' = left := by
  have hnone : ∀ {rs : List ReadResult} {bs : Bytes}, datas rs = [] → ReadResult.data bs ∉ rs := by
    intro rs bs hrs hmem
    have : bs ∈ datas rs := List.mem_filterMap.2 ⟨_, hmem, rfl⟩
    rw [hrs] at this
    cases this
  rcases List.append_eq_append_iff.1 h with ⟨x, rfl, hx⟩ | ⟨x, rfl, hx⟩
  · exact absurd (hx ▸ List.mem_append_right x List.mem_cons_self) (hnone hleft)
  · cases x with
    | nil =>
      refine absurd (?_ : ReadResult.data bs ∈ left) (hnone hleft)
      rw [List.nil_append] at hx
      exact hx ▸ List.mem_cons_self
    | cons y x =>
      obtain ⟨rfl, hx'⟩ := List.cons.inj hx
      rcases List.eq_nil_or_concat x with rfl | ⟨x, z, rfl⟩
      · exact hx'
      · rw [List.concat_eq_append] at hx' hlast
        obtain ⟨bs', rfl⟩ := hlast z (by rw [← List.cons_append, ← List.append_assoc, List.getLast?_concat]; rfl)
        refine absurd (?_ : ReadResult.data bs' ∈ left') (hnone hleft')
        rw [hx']
        exact List.mem_append_left _ (List.mem_append_right _ List.mem_cons_self)

/-- A body of which the first `k` bytes were kept, and whose others come in any reads with nothing behind them: `read`
returns with the request completed, has taken the answers up to the last byte of the body and none after it, and has
given the body to the callback. -/
theorem read_whole (body : Body) (k : Nat) (hf : P.Follows tail tape) (hr : s.At tail tape done none)
    (hp : done ++ body.tape <+: tape) (hb : s.httpParserBuffer = (wire body.tape).take k) (used left : List ReadResult)
    (hreads : s.reads = used ++ left) (hlast : ∀ r ∈ used.getLast?, ∃ bs, r = .data bs)
    (hbytes : (datas used).flatten = (wire body.tape).drop k) (hleft : datas left = []) (hdel : Delivers mem s.reads)
    {req : Request} (hstate : req.state ≠ .Completed) (hs : ({ req := req } : Data).Silent) :
    ∃ (s' : Session P) (d' : Data), s.read mem req = ⟨.returned, s', d'⟩ ∧ d'.req.state = .Completed ∧ s'.reads = left ∧
      d'.req.body = req.body ++ body.data := by
  have hdatas : datas s.reads = datas used := by rw [hreads, datas_append, hleft, List.append_nil]
  obtain ⟨cs, hcs, hflat⟩ : ∃ cs : List (List Token), datas s.reads = cs.map wire ∧ cs.flatten = body.tape.drop k := by
    rw [hdatas]
    have hwire : wire (body.tape.drop k) = (datas used).flatten := by rw [hbytes, wire, wire, List.map_drop]
    obtain ⟨cs, h₁, h₂⟩ := exists_tokens hwire
    exact ⟨cs, h₂, h₁⟩
  have hne : ∀ c ∈ cs, c ≠ [] := by
    intro c hc hnil
    exact hdel.ne_nil (wire c) (hcs ▸ List.mem_map_of_mem hc) (by rw [hnil]; rfl)
  have hbody : body.tape.take k ++ cs.flatten = body.tape ++ tapes [] := by
    rw [hflat, List.take_append_drop, tapes_nil, List.append_nil]
  obtain ⟨L, cs₂, ms₁, ms₂, b₂, hL, hms, hup, hcs₂, hb₂, hsuf, hback, hread⟩ :=
    exists_read (P := P) tail tape hcs body.tape_rest hbody
  obtain ⟨rfl, rfl⟩ := List.append_eq_nil_iff.1 hms.symm
  obtain ⟨s', d', hrun, hcalls, -, -, hleft'⟩ := hread mem done s req hf hr (by simpa using hp) hdel
    (by rw [hb, wire, wire, List.map_take]) rfl hstate hs
  -- nothing is left of the reads
  have hnil : cs₂ = [] := by
    rw [List.eq_nil_iff_forall_not_mem]
    exact fun c hc => hne c (hsuf.mem hc) (List.flatten_eq_nil_iff.1 hcs₂ c hc)
  have hb₂' : datas b₂ = [] := by rw [hb₂, hnil]; rfl
  refine ⟨s', d', hrun, read_completed hrun, hleft'.trans ?_, ?_⟩
  · rcases hback with hsame | ⟨a, bs, hsplit⟩
    · cases used using List.reverseRecOn with
      | nil => exact hsame.symm.trans hreads
      | append_singleton used r =>
        obtain ⟨bs, rfl⟩ := hlast r (by simp)
        rw [hsame, hb₂', datas_append] at hdatas
        simp at hdatas
    · exact left_unique hlast hleft hb₂' (hreads.symm.trans hsplit)
  · have hLne : ∀ c ∈ L, c ≠ [] := by
      intro c hc
      have hmem : c ∈ bodySegments (body.tape.take k) cs := hL ▸ List.mem_append_left _ hc
      unfold bodySegments at hmem
      split at hmem
      · exact hne c hmem
      · rcases List.mem_cons.1 hmem with rfl | hmem
        · assumption
        · exact hne c hmem
    have href : Refines Callback.data (fun _ => True) (feed .data (tails tail) none L) (calls .data none L.flatten) :=
      feed_refines data_inj none hup.ne_nil hLne fun _ _ _ _ _ => trivial
    have hLflat : L.flatten = body.tape := by rw [hup.flatten, tapes_nil, List.append_nil]
    rw [hLflat, calls_body] at href
    rw [callAll_bodyOf hs hcalls, bodyOf_refines href, bodyOf_body]

/-- A session after the head of `post`, with the first byte of the body kept. -/
def postHead : Session postParser where
  parser := (postParser.execute postParser.init post.bytes).state
  httpParserBuffer := bytes "a"
  reads := [.again none, .data (bytes "b"), .data (bytes "c"), .again none]

/-- The request of `post`, with a body callback. -/
def postRequest : Request := (post.request true).appendBodyCallback fun _ _ => none

theorem read_abc : ∃ (s' : Session postParser) (d' : Data), postHead.read plainMemory postRequest = ⟨.returned, s', d'⟩ ∧
    d'.req.state = .Completed ∧ s'.reads = [.again none] ∧ d'.req.body = bytes "abc" := by
  have hf : postParser.Follows false (post.tape (headDone true true) ++ abc.tape) := replay_follows _ _ _
  have hat : postHead.At false (post.tape (headDone true true) ++ abc.tape) (post.tape (headDone true true)) none := by
    have hcall : Reached Callback.data (tails false) postParser.toMachine (post.tape (headDone true true) ++ abc.tape)
        _ (post.tape (headDone true true)) _ :=
      .call (post.tape (headDone true true)) .init (by simp [Head.tape]) (List.prefix_append _ _)
    rwa [← wire, wire_tape] at hcall
  have hbody : postRequest.body ++ abc.data = bytes "abc" := by decide
  rw [← hbody]
  refine read_whole abc 1 hf hat (List.prefix_refl _) (by decide)
    [.again none, .data (bytes "b"), .data (bytes "c")] [.again none] rfl ?_ (by decide) rfl ?_ (by decide) ?_
  · intro r hr
    exact ⟨bytes "c", (Option.some.inj hr).symm⟩
  · exact ⟨rfl, by decide, by decide, by decide, by decide, rfl, trivial⟩
  · exact ⟨_, rfl, fun _ _ => rfl⟩

end Getodac
