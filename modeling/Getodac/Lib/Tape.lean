import Mathlib
/-!
# Push parsers

A push parser is given its input in pieces, one call for each piece, and answers
with callbacks. A callback reports an event, or the bytes of a run such as a
name or a value; a run that goes over the end of a call is reported by one
callback in each call, with the part of it that the call brought.

A `Token` is an input byte with what the parser does at it. `calls` are the
callbacks of one call, `feed` those of a sequence of calls, and `Follows` says of
a parser that, however its input is cut, it behaves as the tape says.
-/

namespace Tape

variable {β κ γ : Type}

/-- A byte, the run it belongs to, and the events reported before and after it. -/
structure Token (β κ γ : Type) where
  byte : β
  before : List γ := []
  run : Option κ := none
  after : List γ := []
deriving DecidableEq

/-- The run the parser is in, with the bytes of it that this call brought. -/
abbrev Run (β κ : Type) := Option (κ × List β)

section Lists

variable {α : Type} (first more : List α)

/-- `first`, and then `n` times `more`. -/
def upTo (n : Nat) : List α := first ++ (List.replicate n more).flatten

variable {first more}

theorem upTo_add (m n : Nat) : upTo first more (m + n) = upTo (upTo first more m) more n := by
  rw [upTo, upTo, upTo, List.replicate_add, List.flatten_append, List.append_assoc]

theorem upTo_mono {m n : Nat} (h : m ≤ n) : upTo first more m <+: upTo first more n := by
  obtain ⟨k, rfl⟩ := Nat.exists_eq_add_of_le h
  rw [upTo_add]
  exact List.prefix_append _ _

theorem length_le_upTo (hne : more ≠ []) (n : Nat) : n ≤ (upTo first more n).length := by
  have hpos := List.length_pos_iff.2 hne
  rw [upTo, List.length_append, List.length_flatten, List.map_replicate, List.sum_replicate, smul_eq_mul]
  exact Nat.le_add_left_of_le (Nat.le_mul_of_pos_right n hpos)

/-- What comes next on the tape is there to be used. -/
theorem upTo_seg (hne : more ≠ []) {done rest seg : List α} {m n : Nat} (ht : upTo first more m = done ++ rest)
    (hp : done ++ seg <+: upTo first more n) : ∃ left, upTo rest more seg.length = seg ++ left := by
  have hall : done ++ upTo rest more seg.length = upTo first more (m + seg.length) := by
    rw [upTo_add, ht, upTo, upTo, List.append_assoc]
  have hseg : done ++ seg <+: upTo first more (max n (m + seg.length)) := hp.trans (upTo_mono (Nat.le_max_left _ _))
  have hrest : done ++ upTo rest more seg.length <+: upTo first more (max n (m + seg.length)) :=
    hall ▸ upTo_mono (Nat.le_max_right _ _)
  have hlen : (done ++ seg).length ≤ (done ++ upTo rest more seg.length).length := by
    have hle : seg.length ≤ (upTo rest more seg.length).length := length_le_upTo hne _
    rw [List.length_append, List.length_append]
    omega
  obtain ⟨left, hleft⟩ := List.prefix_of_prefix_length_le hseg hrest hlen
  rw [List.append_assoc] at hleft
  exact ⟨left, (List.append_cancel_left hleft).symm⟩

end Lists

section Semantics

variable [DecidableEq κ] (mk : κ → List β → γ)

def flush : Run β κ → List γ
  | none => []
  | some (k, bs) => [mk k bs]

/-- The run after a byte that is not the end of one. -/
def Token.join (t : Token β κ γ) : Run β κ → Run β κ
  | some (k, bs) => if t.run = some k ∧ t.before.isEmpty then some (k, bs ++ [t.byte]) else t.run.map (·, [t.byte])
  | none => t.run.map (·, [t.byte])

/-- The byte goes on with the run. -/
def Token.joins (t : Token β κ γ) : Run β κ → Bool
  | some (k, _) => t.run = some k ∧ t.before.isEmpty
  | none => false

/-- What the parser reports at a byte, and the run it is in after it. -/
def step (r : Run β κ) (t : Token β κ γ) : List γ × Run β κ :=
  let cs := if t.joins r then [] else flush mk r ++ t.before
  if t.after.isEmpty then (cs, t.join r) else (cs ++ flush mk (t.join r) ++ t.after, none)

/-- What the parser reports at the bytes, and the run it is in after them. -/
def emit : Run β κ → List (Token β κ γ) → List γ × Run β κ
  | r, [] => ([], r)
  | r, t :: ts => ((step mk r t).1 ++ (emit (step mk r t).2 ts).1, (emit (step mk r t).2 ts).2)

/-- The callbacks of one call: at its end the parser reports what it has of a run. -/
def calls (r : Run β κ) (ts : List (Token β κ γ)) : List γ :=
  (emit mk r ts).1 ++ flush mk (emit mk r ts).2

variable (tail : κ → Bool)

/-- The run at the start of the next call. If the run turns out to be over, its
last part has no bytes; `tail` says for which runs the parser reports it all the same. -/
def reopen : Run β κ → Run β κ
  | some (k, _) => if tail k then some (k, []) else none
  | none => none

/-- The run at the start of the call after these. -/
def after (r : Run β κ) : List (List (Token β κ γ)) → Run β κ
  | [] => r
  | s :: ss => after (reopen tail (emit mk r s).2) ss

/-- The callbacks of a sequence of calls. -/
def feed (r : Run β κ) : List (List (Token β κ γ)) → List γ
  | [] => []
  | s :: ss => calls mk r s ++ feed (reopen tail (emit mk r s).2) ss

variable {mk} {tail}

theorem emit_append (r : Run β κ) (a b : List (Token β κ γ)) :
    emit mk r (a ++ b) = ((emit mk r a).1 ++ (emit mk (emit mk r a).2 b).1, (emit mk (emit mk r a).2 b).2) := by
  induction a generalizing r with
  | nil => rfl
  | cons t ts ih => simp only [List.cons_append, emit, ih, List.append_assoc]

theorem calls_append (r : Run β κ) (a b : List (Token β κ γ)) :
    calls mk r (a ++ b) = (emit mk r a).1 ++ calls mk (emit mk r a).2 b := by
  rw [calls, emit_append, List.append_assoc, calls]

theorem feed_append (r : Run β κ) (a b : List (List (Token β κ γ))) :
    feed mk tail r (a ++ b) = feed mk tail r a ++ feed mk tail (after mk tail r a) b := by
  induction a generalizing r with
  | nil => rfl
  | cons s ss ih => simp only [List.cons_append, feed, after, ih, List.append_assoc]

theorem after_append (r : Run β κ) (a b : List (List (Token β κ γ))) :
    after mk tail r (a ++ b) = after mk tail (after mk tail r a) b := by
  induction a generalizing r with
  | nil => rfl
  | cons s ss ih => exact ih _

theorem step_skip (r : Run β κ) {t : Token β κ γ} (ht : t.run = none) :
    step mk r t = (flush mk r ++ t.before ++ t.after, none) := by
  have hjoins : t.joins r = false := by cases r <;> simp [Token.joins, ht]
  have hjoin : t.join r = none := by cases r <;> simp [Token.join, ht]
  unfold step
  simp only [hjoins, hjoin, flush, Bool.false_eq_true, if_false, List.append_nil]
  split
  · rename_i ha
    simp [List.isEmpty_iff.1 ha]
  · rfl

/-- A byte outside all runs ends the run before it. -/
theorem calls_skip (r : Run β κ) (a : List (Token β κ γ)) {t : Token β κ γ} (ht : t.run = none) (b : List (Token β κ γ)) :
    calls mk r (a ++ t :: b) = calls mk r a ++ t.before ++ t.after ++ calls mk none b := by
  simp only [calls, emit_append, emit, step_skip _ ht, List.append_assoc]

theorem calls_concat_skip (r : Run β κ) (a : List (Token β κ γ)) {t : Token β κ γ} (ht : t.run = none) :
    calls mk r (a ++ [t]) = calls mk r a ++ (t.before ++ t.after) := by
  rw [calls_skip r a ht []]
  simp [calls, emit, flush]

theorem emit_skip (r : Run β κ) (a : List (Token β κ γ)) {t : Token β κ γ} (ht : t.run = none) :
    (emit mk r (a ++ [t])).2 = none := by
  simp only [emit_append, emit, step_skip _ ht]

/-- A byte that does not go on with the run ends it. -/
theorem calls_closed {k : κ} {t : Token β κ γ} (h : t.joins (some (k, ([] : List β))) = false) (bs : List β)
    (ts : List (Token β κ γ)) : calls mk (some (k, bs)) (t :: ts) = mk k bs :: calls mk none (t :: ts) := by
  have hj : ¬ (t.run = some k ∧ t.before.isEmpty) := by simpa [Token.joins] using h
  have hstep : step mk (some (k, bs)) t = (mk k bs :: (step mk none t).1, (step mk none t).2) := by
    simp only [step, Token.joins, Token.join, hj, decide_false, Bool.false_eq_true, if_false, flush]
    split <;> simp
  simp [calls, emit, hstep]

variable (mk) in
/-- The first callback of a call that goes on with a run is for that run. -/
theorem calls_open (k : κ) (ts : List (Token β κ γ)) :
    ∃ more cs, ∀ bs, calls mk (some (k, bs)) ts = mk k (bs ++ more) :: cs := by
  induction ts with
  | nil => exact ⟨[], [], fun bs => by simp [calls, emit, flush]⟩
  | cons t ts ih =>
    by_cases hj : t.run = some k ∧ t.before.isEmpty
    · have hstep : ∀ bs, step mk (some (k, bs)) t =
          if t.after.isEmpty then ([], some (k, bs ++ [t.byte])) else (mk k (bs ++ [t.byte]) :: t.after, none) := by
        intro bs
        simp [step, Token.joins, Token.join, hj, flush]
      by_cases ha : t.after.isEmpty = true
      · obtain ⟨more, cs, h⟩ := ih
        refine ⟨t.byte :: more, cs, fun bs => ?_⟩
        have h' := h (bs ++ [t.byte])
        simp only [calls, emit, hstep, ha, if_true, List.nil_append, List.append_assoc, List.singleton_append] at h' ⊢
        exact h'
      · refine ⟨[t.byte], t.after ++ calls mk none ts, fun bs => ?_⟩
        simp [calls, emit, hstep, ha]
    · refine ⟨[], calls mk none (t :: ts), fun bs => ?_⟩
      rw [calls_closed (by simpa [Token.joins] using hj), List.append_nil]

theorem calls_joins {k : κ} {t : Token β κ γ} (h : t.joins (some (k, ([] : List β))) = true) (ts : List (Token β κ γ)) :
    calls mk none (t :: ts) = calls mk (some (k, [])) (t :: ts) := by
  have hj : t.run = some k ∧ t.before.isEmpty := by simpa [Token.joins] using h
  have hstep : step mk none t = step mk (some (k, [])) t := by
    simp [step, Token.joins, Token.join, hj, flush, List.isEmpty_iff.1 hj.2]
  simp only [calls, emit, hstep]

variable (mk) in
theorem calls_start {t : Token β κ γ} {k : κ} (hr : t.run = some k) (hb : t.before = []) (ts : List (Token β κ γ)) :
    ∃ bs cs, calls mk none (t :: ts) = mk k bs :: cs := by
  obtain ⟨more, cs, h⟩ := calls_open mk k (t :: ts)
  exact ⟨_, _, (calls_joins (by simp [Token.joins, hr, hb]) ts).trans (h [])⟩

section Forall

variable {p : γ → Prop} {q : κ → Prop} (hmk : ∀ k bs, q k → p (mk k bs))

/-- All that happens at the byte is as it should be. -/
def Token.Satisfies (p : γ → Prop) (q : κ → Prop) (t : Token β κ γ) : Prop :=
  (∀ c ∈ t.before, p c) ∧ (∀ k ∈ t.run, q k) ∧ ∀ c ∈ t.after, p c

include hmk

omit [DecidableEq κ] in
theorem flush_forall {r : Run β κ} (hr : ∀ x ∈ r, q x.1) : ∀ c ∈ flush mk r, p c := by
  intro c hc
  cases r with
  | none => cases hc
  | some x =>
    rw [flush, List.mem_singleton] at hc
    rw [hc]
    exact hmk _ _ (hr x rfl)

omit hmk in
theorem join_forall {r : Run β κ} {t : Token β κ γ} (ht : t.Satisfies p q) : ∀ x ∈ t.join r, q x.1 := by
  have hnew : ∀ x ∈ t.run.map fun k => (k, [t.byte]), q x.1 := by
    intro x hx
    obtain ⟨k, hk, rfl⟩ := Option.map_eq_some_iff.1 hx
    exact ht.2.1 k hk
  intro x hx
  cases r with
  | none => exact hnew x hx
  | some y =>
    rw [Option.mem_def, Token.join] at hx
    split at hx
    · rename_i hj
      cases hx
      exact ht.2.1 y.1 hj.1
    · exact hnew x hx

theorem step_forall {r : Run β κ} {t : Token β κ γ} (hr : ∀ x ∈ r, q x.1) (ht : t.Satisfies p q) :
    (∀ c ∈ (step mk r t).1, p c) ∧ ∀ x ∈ (step mk r t).2, q x.1 := by
  have hcs : ∀ c ∈ (if t.joins r then [] else flush mk r ++ t.before), p c := by
    intro c hc
    split at hc
    · cases hc
    · rcases List.mem_append.1 hc with hc | hc
      · exact flush_forall hmk hr c hc
      · exact ht.1 c hc
  have hj : ∀ x ∈ t.join r, q x.1 := join_forall ht
  unfold step
  dsimp only
  by_cases ha : t.after.isEmpty
  · rw [if_pos ha]
    exact ⟨hcs, hj⟩
  · rw [if_neg ha]
    refine ⟨fun c hc => ?_, fun x hx => by cases hx⟩
    rcases List.mem_append.1 hc with hc | hc
    · rcases List.mem_append.1 hc with hc | hc
      · exact hcs c hc
      · exact flush_forall hmk hj c hc
    · exact ht.2.2 c hc

theorem emit_forall {r : Run β κ} {ts : List (Token β κ γ)} (hr : ∀ x ∈ r, q x.1) (ht : ∀ t ∈ ts, t.Satisfies p q) :
    (∀ c ∈ (emit mk r ts).1, p c) ∧ ∀ x ∈ (emit mk r ts).2, q x.1 := by
  induction ts generalizing r with
  | nil => exact ⟨fun c hc => absurd hc List.not_mem_nil, hr⟩
  | cons t ts ih =>
    obtain ⟨h1, h2⟩ := step_forall hmk hr (ht t List.mem_cons_self)
    obtain ⟨h3, h4⟩ := ih h2 (fun x hx => ht x (List.mem_cons_of_mem _ hx))
    refine ⟨fun c hc => ?_, h4⟩
    rcases List.mem_append.1 hc with hc | hc
    · exact h1 c hc
    · exact h3 c hc

theorem calls_forall {r : Run β κ} {ts : List (Token β κ γ)} (hr : ∀ x ∈ r, q x.1) (ht : ∀ t ∈ ts, t.Satisfies p q) :
    ∀ c ∈ calls mk r ts, p c := by
  obtain ⟨h1, h2⟩ := emit_forall hmk hr ht
  intro c hc
  rcases List.mem_append.1 hc with hc | hc
  · exact h1 c hc
  · exact flush_forall hmk h2 c hc

end Forall

omit [DecidableEq κ] in
theorem reopen_forall {q : κ → Prop} {r : Run β κ} (hr : ∀ x ∈ r, q x.1) : ∀ x ∈ reopen tail r, q x.1 := by
  intro x hx
  cases r with
  | none => cases hx
  | some y =>
    rw [Option.mem_def, reopen] at hx
    split at hx
    · cases hx
      exact hr y rfl
    · cases hx

/-! ## Cuts -/

/-- The run that goes on after the byte. -/
def Token.runAfter (t : Token β κ γ) : Option κ := if t.after.isEmpty then t.run else none

/-- The run that is cut if one call ends with `a` and the next one starts with `b`. -/
def cutRun (tail : κ → Bool) (a b : List (Token β κ γ)) : Option κ :=
  match a.getLast?, b.head? with
  | some t, some u => t.runAfter.filter fun k => tail k || u.joins (some (k, ([] : List β)))
  | _, _ => none

/-- A run in parts. Only the last one can have no bytes. -/
structure Pieces (β : Type) where
  init : List (List β)
  last : List β
  init_ne : ∀ p ∈ init, p ≠ []

namespace Pieces

omit [DecidableEq κ]

def all (p : Pieces β) : List (List β) := p.init ++ [p.last]

def whole (p : Pieces β) : List β := p.init.flatten ++ p.last

theorem init_eq_nil {p : Pieces β} (h : p.whole.length ≤ p.last.length) : p.init = [] := by
  rw [List.eq_nil_iff_forall_not_mem]
  intro q hq
  have hflat : p.init.flatten = [] := by
    rw [whole, List.length_append] at h
    exact List.length_eq_zero_iff.1 (by omega)
  exact p.init_ne q hq (List.flatten_eq_nil_iff.1 hflat q hq)

end Pieces

variable (mk) in
/-- The first list is the second with runs in parts, where only the runs of `q` are cut. -/
inductive Refines (q : κ → Prop) : List γ → List γ → Prop where
  | nil : Refines q [] []
  | event (c : γ) {L L₀ : List γ} (h : Refines q L L₀) : Refines q (c :: L) (c :: L₀)
  | run (k : κ) (p : Pieces β) (hq : q k) {L L₀ : List γ} (h : Refines q L L₀) :
      Refines q (p.all.map (mk k) ++ L) (mk k p.whole :: L₀)

namespace Refines

variable {q : κ → Prop} {L L₀ : List γ}

omit [DecidableEq κ]

theorem append (h : Refines mk q L L₀) (a : List γ) : Refines mk q (a ++ L) (a ++ L₀) := by
  induction a with
  | nil => exact h
  | cons c a ih => exact .event c ih

theorem length_le (h : Refines mk q L L₀) : L₀.length ≤ L.length := by
  induction h with
  | nil => exact Nat.le_refl 0
  | event c _ ih => exact Nat.succ_le_succ ih
  | run k p _ _ ih =>
    simp only [Pieces.all, List.length_append, List.length_map, List.length_cons, List.length_nil]
    omega

theorem eq_of_uncut (h : Refines mk q L L₀) (hq : ∀ k, ¬ q k) : L = L₀ := by
  induction h with
  | nil => rfl
  | event c _ ih => rw [ih]
  | run k _ hk _ _ => exact absurd hk (hq k)

/-- Events are reported as they are. -/
theorem events_inv {a : List γ} (ha : ∀ c ∈ a, ∀ k bs, c ≠ mk k bs) (h : Refines mk q L (a ++ L₀)) :
    ∃ L', L = a ++ L' ∧ Refines mk q L' L₀ := by
  induction a generalizing L with
  | nil => exact ⟨L, rfl, h⟩
  | cons c a ih =>
    generalize hx : c :: a ++ L₀ = X at h
    cases h with
    | nil => cases hx
    | event c' h =>
      obtain ⟨rfl, rfl⟩ := List.cons.inj hx
      obtain ⟨L', rfl, h'⟩ := ih (fun x hx => ha x (List.mem_cons_of_mem _ hx)) h
      exact ⟨L', rfl, h'⟩
    | run k p _ h => exact absurd (List.cons.inj hx).1 (ha c List.mem_cons_self _ _)

/-- The callbacks for a run are the parts of it. -/
theorem run_inv (hmk : ∀ k k' a b, mk k a = mk k' b → k = k' ∧ a = b) {k : κ} {bs : List β}
    (h : Refines mk q L (mk k bs :: L₀)) :
    ∃ (p : Pieces β) (L' : List γ), L = p.all.map (mk k) ++ L' ∧ p.whole = bs ∧ Refines mk q L' L₀ := by
  generalize hx : mk k bs :: L₀ = X at h
  cases h with
  | nil => cases hx
  | event c h =>
    obtain ⟨rfl, rfl⟩ := List.cons.inj hx
    exact ⟨⟨[], bs, by simp⟩, _, rfl, rfl, h⟩
  | run k' p hk h =>
    obtain ⟨h₁, rfl⟩ := List.cons.inj hx
    obtain ⟨rfl, rfl⟩ := hmk _ _ _ _ h₁
    exact ⟨p, _, rfl, rfl, h⟩

/-- One part more. -/
theorem run_cons (hmk : ∀ k k' a b, mk k a = mk k' b → k = k' ∧ a = b) {k : κ} (hk : q k) {cur more : List β}
    (hcur : cur ≠ []) (h : Refines mk q L (mk k more :: L₀)) :
    Refines mk q (mk k cur :: L) (mk k (cur ++ more) :: L₀) := by
  obtain ⟨p, L', rfl, rfl, h'⟩ := run_inv hmk h
  have hp : ∀ x ∈ cur :: p.init, x ≠ [] := by
    intro x hx
    rcases List.mem_cons.1 hx with rfl | hx
    · exact hcur
    · exact p.init_ne x hx
  have hrun : Refines mk q _ _ := .run k ⟨cur :: p.init, p.last, hp⟩ hk h'
  simpa [Pieces.all, Pieces.whole] using hrun

end Refines

variable (mk) in
theorem step_run (r : Run β κ) (t : Token β κ γ) :
    (step mk r t).2.map Prod.fst = t.runAfter ∧ ∀ x ∈ (step mk r t).2, x.2 ≠ [] := by
  have hnew : (t.run.map fun k => (k, [t.byte])).map Prod.fst = t.run ∧
      ∀ x ∈ t.run.map fun k => (k, [t.byte]), x.2 ≠ [] := by
    cases t.run <;> simp
  have hjoin : (t.join r).map Prod.fst = t.run ∧ ∀ x ∈ t.join r, x.2 ≠ [] := by
    cases r with
    | none => exact hnew
    | some y =>
      rw [Token.join]
      split
      · rename_i h
        exact ⟨h.1.symm, by simp⟩
      · exact hnew
  unfold step Token.runAfter
  dsimp only
  split
  · exact hjoin
  · exact ⟨rfl, by simp⟩

variable (mk) in
/-- The run after a call is that of its last byte. -/
theorem emit_run (r : Run β κ) {s : List (Token β κ γ)} (hs : s ≠ []) :
    (emit mk r s).2.map Prod.fst = s.getLast?.bind Token.runAfter ∧ ∀ x ∈ (emit mk r s).2, x.2 ≠ [] := by
  rcases List.eq_nil_or_concat s with rfl | ⟨a, t, rfl⟩
  · exact absurd rfl hs
  · simpa [emit_append, emit] using step_run mk (emit mk r a).2 t

variable {a b : List (Token β κ γ)}

theorem calls_uncut (r : Run β κ) (ha : a ≠ []) (hb : b ≠ []) (h : cutRun tail a b = none) :
    flush mk (emit mk r a).2 ++ calls mk (reopen tail (emit mk r a).2) b = calls mk (emit mk r a).2 b := by
  have hrun := (emit_run mk r ha).1
  cases he : (emit mk r a).2 with
  | none => rfl
  | some x =>
    obtain ⟨k, cur⟩ := x
    obtain ⟨u, b, rfl⟩ := List.exists_cons_of_ne_nil hb
    rw [he] at hrun
    obtain ⟨t, ht, htk⟩ := Option.bind_eq_some_iff.1 hrun.symm
    simp only [cutRun, ht, List.head?_cons, htk, Option.filter_eq_none_iff, Option.some.injEq, forall_eq',
      Bool.not_eq_true, Bool.or_eq_false_iff] at h
    rw [reopen, if_neg (by simp [h.1]), calls_closed h.2]
    rfl

variable (mk) in
theorem calls_cut (r : Run β κ) (ha : a ≠ []) {k : κ} (h : cutRun tail a b = some k) :
    ∃ cur more cs, cur ≠ [] ∧ flush mk (emit mk r a).2 = [mk k cur] ∧
      calls mk (reopen tail (emit mk r a).2) b = mk k more :: cs ∧
      calls mk (emit mk r a).2 b = mk k (cur ++ more) :: cs := by
  obtain ⟨hrun, hne⟩ := emit_run mk r ha
  unfold cutRun at h
  split at h
  · rename_i t u ht hu
    rw [Option.filter_eq_some_iff] at h
    obtain ⟨hk, hcut⟩ := h
    rw [ht, Option.bind_some, hk] at hrun
    obtain ⟨⟨k', cur⟩, he, rfl⟩ := Option.map_eq_some_iff.1 hrun
    obtain ⟨b', rfl⟩ := List.head?_eq_some_iff.1 hu
    obtain ⟨more, cs, hcs⟩ := calls_open mk k' (u :: b')
    refine ⟨cur, more, cs, hne _ he, by rw [he]; rfl, ?_, by rw [he]; exact hcs cur⟩
    rw [he, reopen]
    split
    · exact hcs []
    · rename_i htail
      rw [calls_joins (k := k') (by simpa [htail] using hcut)]
      exact hcs []
  · cases h

omit [DecidableEq κ] in
theorem flatten_ne_nil {ss : List (List (Token β κ γ))} (hne : ss ≠ []) (hs : ∀ s ∈ ss, s ≠ []) : ss.flatten ≠ [] := by
  obtain ⟨s, ss, rfl⟩ := List.exists_cons_of_ne_nil hne
  simp [hs s List.mem_cons_self]

/-- What follows a call can be cut further without a change to its last byte. -/
theorem cutRun_cons {s : List (Token β κ γ)} {a' b : List (Token β κ γ)} (h : a' ≠ []) :
    cutRun tail (s ++ a') b = cutRun tail a' b := by
  rw [cutRun, List.getLast?_append_of_ne_nil _ h, cutRun]

theorem cutRun_closed {a b : List (Token β κ γ)} {t : Token β κ γ} (ht : t ∈ a.getLast?) (hr : t.run = none) :
    cutRun tail a b = none := by
  have hafter : t.runAfter = none := by
    rw [Token.runAfter, hr, ite_self]
  rw [cutRun, Option.mem_def.1 ht]
  split
  · rename_i h _
    cases h
    rw [hafter]
    rfl
  · rfl

/-- However the input is cut, the callbacks are those of one call with some runs in parts. -/
theorem feed_refines (hmk : ∀ k k' a b, mk k a = mk k' b → k = k' ∧ a = b) {q : κ → Prop} (r : Run β κ)
    {ss : List (List (Token β κ γ))} (hne : ss ≠ []) (hs : ∀ s ∈ ss, s ≠ [])
    (hq : ∀ a b k, ss = a ++ b → cutRun tail a.flatten b.flatten = some k → q k) :
    Refines mk q (feed mk tail r ss) (calls mk r ss.flatten) := by
  induction ss generalizing r with
  | nil => exact absurd rfl hne
  | cons s ss ih =>
    have hs₁ : s ≠ [] := hs s List.mem_cons_self
    have hs₂ : ∀ x ∈ ss, x ≠ [] := fun x hx => hs x (List.mem_cons_of_mem _ hx)
    by_cases hss : ss = []
    · subst hss
      simpa [feed] using (Refines.nil : Refines mk q [] []).append (calls mk r s)
    · have hfl := flatten_ne_nil hss hs₂
      have ih' := ih (reopen tail (emit mk r s).2) hss hs₂ fun a b k hab hk => by
        refine hq (s :: a) b k (by rw [hab]; rfl) ?_
        by_cases ha : a = []
        · simp [ha, cutRun] at hk
        · rw [List.flatten_cons, cutRun_cons (flatten_ne_nil ha fun x hx => hs₂ x (by simp [hab, hx])), hk]
      rw [feed, List.flatten_cons, calls_append, calls, List.append_assoc]
      apply Refines.append
      cases hcut : cutRun tail s ss.flatten with
      | none =>
        rw [← calls_uncut r hs₁ hfl hcut]
        exact ih'.append _
      | some k =>
        obtain ⟨cur, more, cs, hcur, h₁, h₂, h₃⟩ := calls_cut mk r hs₁ hcut
        rw [h₂] at ih'
        rw [h₁, h₃, List.singleton_append]
        exact ih'.run_cons hmk (hq [s] ss k rfl (by simpa using hcut)) hcur

/-- The run at the start of a call depends only on the byte before it. -/
theorem after_flatten (r : Run β κ) {ss : List (List (Token β κ γ))} (hne : ss ≠ []) (hs : ∀ s ∈ ss, s ≠ []) :
    after mk tail r ss = reopen tail (emit mk r ss.flatten).2 := by
  have hreopen : ∀ x y : Run β κ, x.map Prod.fst = y.map Prod.fst → reopen tail x = reopen tail y := by
    intro x y h
    cases x <;> cases y <;> simp_all [reopen]
  rcases List.eq_nil_or_concat ss with rfl | ⟨a, s, rfl⟩
  · exact absurd rfl hne
  · have hs₁ : s ≠ [] := hs s (by simp)
    rw [List.concat_eq_append, after_append, after, after]
    apply hreopen
    rw [(emit_run _ _ hs₁).1, (emit_run _ _ (by simp [hs₁])).1, List.flatten_append, List.flatten_singleton,
      List.getLast?_append_of_ne_nil _ hs₁]

/-- A cut is reported by one more callback. -/
theorem feed_cut_length (hmk : ∀ k k' a b, mk k a = mk k' b → k = k' ∧ a = b) (r : Run β κ)
    {a b : List (List (Token β κ γ))} (hs : ∀ s ∈ a ++ b, s ≠ []) {k : κ}
    (hk : cutRun tail a.flatten b.flatten = some k) :
    (calls mk r (a ++ b).flatten).length < (feed mk tail r (a ++ b)).length := by
  have ha : a ≠ [] := by
    rintro rfl
    simp [cutRun] at hk
  have hb : b ≠ [] := by
    rintro rfl
    simp [cutRun] at hk
  have hsa : ∀ s ∈ a, s ≠ [] := fun s h => hs s (List.mem_append_left _ h)
  have hsb : ∀ s ∈ b, s ≠ [] := fun s h => hs s (List.mem_append_right _ h)
  have hle : ∀ (r : Run β κ) {ss : List (List (Token β κ γ))}, ss ≠ [] → (∀ s ∈ ss, s ≠ []) →
      (calls mk r ss.flatten).length ≤ (feed mk tail r ss).length := fun r _ hne hs =>
    (feed_refines hmk (q := fun _ => True) r hne hs fun _ _ _ _ _ => trivial).length_le
  have h₁ := hle r ha hsa
  have h₂ := hle (after mk tail r a) hb hsb
  obtain ⟨cur, more, cs, -, h₃, h₄, h₅⟩ := calls_cut mk r (flatten_ne_nil ha hsa) hk
  rw [feed_append, List.length_append, List.flatten_append, calls_append, List.length_append, h₅]
  rw [calls, h₃, List.length_append] at h₁
  rw [after_flatten r ha hsa, h₄] at h₂
  rw [after_flatten r ha hsa]
  simp only [List.length_cons, List.length_nil] at h₁ h₂ ⊢
  omega

/-! ## Parsers -/

/-- What a call answers: the state after it, the callbacks it made, how many bytes it used, and if it failed. -/
structure Executed (σ γ : Type) where
  state : σ
  calls : List γ
  parsed : Nat
  error : Bool

structure Machine (β γ : Type) where
  State : Type
  init : State
  execute : State → List β → Executed State γ

section Follows

variable (mk : κ → List β → γ) (tail : κ → Bool)

/-- The states of a parser that has read the bytes of `done` in any number of calls, and the run it is in. -/
inductive Reached (M : Machine β γ) (tape : List (Token β κ γ)) : M.State → List (Token β κ γ) → Run β κ → Prop where
  | init : Reached M tape M.init [] none
  | call {st : M.State} {done : List (Token β κ γ)} {r : Run β κ} (seg : List (Token β κ γ))
      (h : Reached M tape st done r) (hs : seg ≠ []) (hp : done ++ seg <+: tape) :
      Reached M tape (M.execute st (seg.map (·.byte))).state (done ++ seg) (reopen tail (emit mk r seg).2)

/-- However the tape is cut into calls, each uses all its bytes and makes the callbacks of the tape. -/
def Follows (M : Machine β γ) (tape : List (Token β κ γ)) : Prop :=
  ∀ st done r seg, Reached mk tail M tape st done r → seg ≠ [] → done ++ seg <+: tape →
    (M.execute st (seg.map (·.byte))).calls = calls mk r seg ∧
    (M.execute st (seg.map (·.byte))).parsed = seg.length ∧
    (M.execute st (seg.map (·.byte))).error = false

variable {mk tail} {M : Machine β γ} {tape tape' : List (Token β κ γ)}

theorem Reached.mono (h : tape' <+: tape) {st : M.State} {done : List (Token β κ γ)} {r : Run β κ}
    (hr : Reached mk tail M tape' st done r) : Reached mk tail M tape st done r := by
  induction hr with
  | init => exact .init
  | call seg _ hs hp ih => exact .call seg ih hs (hp.trans h)

theorem Reached.run_forall {p : γ → Prop} {q : κ → Prop} (hmk : ∀ k bs, q k → p (mk k bs)) {st : M.State}
    {done : List (Token β κ γ)} {r : Run β κ} (hr : Reached mk tail M tape st done r)
    (ht : ∀ t ∈ done, t.Satisfies p q) : ∀ x ∈ r, q x.1 := by
  induction hr with
  | init => intro x hx; cases hx
  | call seg _ _ _ ih =>
    apply reopen_forall
    apply (emit_forall hmk (ih fun t h => ht t (List.mem_append_left _ h)) _).2
    exact fun t h => ht t (List.mem_append_right _ h)

/-- A parser that follows a tape follows every beginning of it. -/
theorem Follows.of_prefix (hf : Follows mk tail M tape) (h : tape' <+: tape) : Follows mk tail M tape' :=
  fun st done r seg hr hs hp => hf st done r seg (hr.mono h) hs (hp.trans h)

end Follows

/-- The parser that knows some tapes and goes by the first one its input agrees with so far. -/
def replay [DecidableEq β] (mk : κ → List β → γ) (tail : κ → Bool) (tapes : List (List (Token β κ γ))) :
    Machine β γ where
  State := List (List (Token β κ γ) × Run β κ)
  init := tapes.map (·, none)
  execute st bs :=
    match st.filter fun x => bs.isPrefixOf (x.1.map (·.byte)) with
    | [] => ⟨[], [], 0, true⟩
    | x :: xs =>
      ⟨(x :: xs).map fun y => (y.1.drop bs.length, reopen tail (emit mk y.2 (y.1.take bs.length)).2),
        calls mk x.2 (x.1.take bs.length), bs.length, false⟩

theorem replay_execute [DecidableEq β] (mk : κ → List β → γ) (tail : κ → Bool) (tapes : List (List (Token β κ γ)))
    (seg rest : List (Token β κ γ)) (r : Run β κ) (xs : List (List (Token β κ γ) × Run β κ)) :
    ∃ ys, (replay mk tail tapes).execute ((seg ++ rest, r) :: xs) (seg.map (·.byte)) =
      ⟨(rest, reopen tail (emit mk r seg).2) :: ys, calls mk r seg, seg.length, false⟩ := by
  have hpre : (seg.map (·.byte)).isPrefixOf ((seg ++ rest).map (·.byte)) = true := by
    rw [List.isPrefixOf_iff_prefix, List.map_append]
    exact List.prefix_append _ _
  simp only [replay, List.filter_cons, hpre, if_true, List.map_cons, List.length_map, List.drop_left, List.take_left]
  exact ⟨_, rfl⟩

theorem replay_reached [DecidableEq β] {mk : κ → List β → γ} {tail : κ → Bool} {t : List (Token β κ γ)}
    {ts : List (List (Token β κ γ))} {st : (replay mk tail (t :: ts)).State} {done : List (Token β κ γ)} {r : Run β κ}
    (h : Reached mk tail (replay mk tail (t :: ts)) t st done r) : ∃ rest xs, st = (rest, r) :: xs ∧ t = done ++ rest := by
  induction h with
  | init => exact ⟨t, ts.map (·, none), rfl, rfl⟩
  | call seg _ hs hp ih =>
    obtain ⟨rest, xs, rfl, ht⟩ := ih
    obtain ⟨rest', ht'⟩ := hp
    have hrest : rest = seg ++ rest' := by
      rw [ht, List.append_assoc] at ht'
      exact (List.append_cancel_left ht').symm
    subst hrest
    obtain ⟨ys, hys⟩ := replay_execute mk tail (t :: ts) seg rest' _ xs
    rw [hys]
    exact ⟨rest', ys, rfl, ht'.symm⟩

/-- So a parser for any tape exists. -/
theorem replay_follows [DecidableEq β] (mk : κ → List β → γ) (tail : κ → Bool) (t : List (Token β κ γ))
    (ts : List (List (Token β κ γ))) : Follows mk tail (replay mk tail (t :: ts)) t := by
  intro st done r seg hr _ hp
  obtain ⟨rest, xs, rfl, ht⟩ := replay_reached hr
  obtain ⟨rest', ht'⟩ := hp
  have hrest : rest = seg ++ rest' := by
    rw [ht, List.append_assoc] at ht'
    exact (List.append_cancel_left ht').symm
  subst hrest
  obtain ⟨ys, hys⟩ := replay_execute mk tail (t :: ts) seg rest' r xs
  rw [hys]
  exact ⟨rfl, rfl, rfl⟩

/-! ## A tape that does not end -/

section Endless

variable [DecidableEq β] (mk : κ → List β → γ) (tail : κ → Bool) (first more : List (Token β κ γ))

/-- The parser of the tape that has `more` after `first`, again and again. -/
def endless : Machine β γ where
  State := List (Token β κ γ) × Run β κ
  init := (first, none)
  execute st bs :=
    -- as much of the tape as this call can use
    let tape := upTo st.1 more bs.length
    if bs.isPrefixOf (tape.map (·.byte)) then
      ⟨(tape.drop bs.length, reopen tail (emit mk st.2 (tape.take bs.length)).2), calls mk st.2 (tape.take bs.length),
        bs.length, false⟩
    else ⟨st, [], 0, true⟩

variable {first more}

theorem endless_execute {rest seg left : List (Token β κ γ)} (r : Run β κ) (h : upTo rest more seg.length = seg ++ left) :
    (endless mk tail first more).execute (rest, r) (seg.map (·.byte)) =
      ⟨(left, reopen tail (emit mk r seg).2), calls mk r seg, seg.length, false⟩ := by
  have hpre : (seg.map (·.byte)).isPrefixOf ((seg ++ left).map (·.byte)) = true := by
    rw [List.isPrefixOf_iff_prefix, List.map_append]
    exact List.prefix_append _ _
  simp only [endless, List.length_map, h, hpre, if_true, List.drop_left, List.take_left]

theorem endless_reached (hne : more ≠ []) {n : Nat} {st : (endless mk tail first more).State} {done : List (Token β κ γ)}
    {r : Run β κ} (h : Reached mk tail (endless mk tail first more) (upTo first more n) st done r) :
    ∃ rest m, st = (rest, r) ∧ upTo first more m = done ++ rest := by
  induction h with
  | init => exact ⟨first, 0, rfl, by simp [upTo]⟩
  | call seg _ hs hp ih =>
    obtain ⟨rest, m, rfl, ht⟩ := ih
    obtain ⟨left, hleft⟩ := upTo_seg hne ht hp
    rw [endless_execute mk tail _ hleft]
    refine ⟨left, m + seg.length, rfl, ?_⟩
    rw [upTo_add, ht, upTo, List.append_assoc, ← upTo, hleft, List.append_assoc]

theorem endless_follows (hne : more ≠ []) (n : Nat) : Follows mk tail (endless mk tail first more) (upTo first more n) := by
  intro st done r seg hr _ hp
  obtain ⟨rest, m, rfl, ht⟩ := endless_reached mk tail hne hr
  obtain ⟨left, hleft⟩ := upTo_seg hne ht hp
  rw [endless_execute mk tail _ hleft]
  exact ⟨rfl, rfl, rfl⟩

end Endless

end Semantics

end Tape
