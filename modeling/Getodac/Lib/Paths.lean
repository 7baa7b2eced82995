import Mathlib
/-!
# Lexical paths

POSIX paths as C++17's `std::filesystem::path` sees them: a root directory or
none, filenames, and whether a separator follows the last one. Repeated
separators do not show in any operation, so they are not kept. `append` is
`operator/`, `elements` what iteration yields and `lexicallyNormal` the normal
form of [fs.path.generic].
-/

namespace Paths

abbrev Name := List UInt8

def sep : UInt8 := 47
def dot : Name := [46]
def dotdot : Name := [46, 46]

structure Path where
  root : Bool
  names : List Name
  slash : Bool
  names_ok : ∀ n ∈ names, n ≠ [] ∧ sep ∉ n
  slash_ok : slash = true → names ≠ []
deriving DecidableEq, Repr

namespace Path

theorem ext' {p q : Path} (h1 : p.root = q.root) (h2 : p.names = q.names) (h3 : p.slash = q.slash) : p = q := by
  cases p; cases q; simp_all

/-! ## From text -/

/-- The pieces between separators, empty ones included. -/
def pieces : Name → List Name
  | [] => [[]]
  | c :: cs =>
    if c = sep then [] :: pieces cs
    else match pieces cs with
      | [] => [[c]]
      | p :: ps => (c :: p) :: ps

theorem sep_not_mem_pieces (s : Name) : ∀ p ∈ pieces s, sep ∉ p := by
  induction s with
  | nil => simp [pieces]
  | cons c cs ih =>
    intro p hp
    simp only [pieces] at hp
    split at hp
    · rcases List.mem_cons.1 hp with rfl | hp
      · simp
      · exact ih p hp
    · rename_i hc
      split at hp
      · simp only [List.mem_singleton] at hp; subst hp; simpa using Ne.symm hc
      · rename_i q qs hq
        rcases List.mem_cons.1 hp with rfl | hp
        · simpa using ⟨Ne.symm hc, ih q (by simp [hq])⟩
        · exact ih p (by simp [hq, hp])

def ofBytes (s : Name) : Path where
  root := s.head? = some sep
  names := (pieces s).filter (· ≠ [])
  slash := s.getLast? = some sep ∧ (pieces s).filter (· ≠ []) ≠ []
  names_ok n hn := by
    obtain ⟨hm, hne⟩ := List.mem_filter.1 hn
    exact ⟨by simpa using hne, sep_not_mem_pieces s n hm⟩
  slash_ok h := by simpa using (of_decide_eq_true h).2

/-! ## Iteration and prefixes -/

/-- What iteration over the path yields. -/
def elements (p : Path) : List Name :=
  (if p.root then [[sep]] else []) ++ p.names ++ if p.slash then [[]] else []

/-- `boost::starts_with(p, q)`: element by element. -/
def startsWith (p q : Path) : Bool := q.elements.isPrefixOf p.elements

/-- `q` lies at or below `p`, component by component. -/
def Within (p q : Path) : Prop := p.root = q.root ∧ p.names <+: q.names

instance (p q : Path) : Decidable (p.Within q) := inferInstanceAs (Decidable (_ ∧ _))

theorem Within.trans {p q r : Path} (h1 : p.Within q) (h2 : q.Within r) : p.Within r :=
  ⟨h1.1.trans h2.1, h1.2.trans h2.2⟩

/-- A prefix of the names and an empty last element that has no empty element is one of the names alone. -/
theorem prefix_names {l m : List Name} {b : Bool} (hl : ∀ n ∈ l, n ≠ []) (h : l <+: m ++ if b then [[]] else []) :
    l <+: m := by
  cases b with
  | false => simpa using h
  | true =>
    rw [if_pos rfl] at h
    rcases List.prefix_concat_iff.1 h with h | h
    · exact absurd rfl (hl [] (by simp [h]))
    · exact h

/-- A path that starts with a rooted one lies below it. -/
theorem within_of_startsWith {p q : Path} (hr : q.root = true) (h : p.startsWith q = true) : q.Within p := by
  have hpre : q.elements <+: p.elements := List.isPrefixOf_iff_prefix.1 h
  have hp : p.root = true := by
    by_contra hn
    simp only [elements, hr, if_true, hn, if_false, List.nil_append, List.cons_append] at hpre
    obtain ⟨t, ht⟩ := hpre
    have hmem : [sep] ∈ p.names ++ (if p.slash = true then [[]] else []) := by rw [← ht]; simp
    rcases List.mem_append.1 hmem with hm | hm
    · exact (p.names_ok _ hm).2 (by simp)
    · split at hm <;> simp at hm
  refine ⟨hr.trans hp.symm, ?_⟩
  simp only [elements, hr, hp, if_true, List.cons_append, List.nil_append, List.cons_prefix_cons, true_and] at hpre
  exact prefix_names (fun n hn => (q.names_ok n hn).1) ((List.prefix_append _ _).trans hpre)

/-- And a path below one without a trailing separator starts with it. -/
theorem startsWith_of_within {p q : Path} (h : p.Within q) (hs : p.slash = false) : q.startsWith p = true := by
  refine List.isPrefixOf_iff_prefix.2 ?_
  obtain ⟨hroot, names, hnames⟩ := h
  simp only [elements, hs, ← hroot, ← hnames]
  refine ⟨names ++ if q.slash = true then [[]] else [], ?_⟩
  simp

/-! ## Concatenation -/

def append (p q : Path) : Path :=
  if q.root then q
  else if q.names = [] then
    { p with slash := p.slash || decide (p.names ≠ []), slash_ok := by have := p.slash_ok; aesop }
  else
    { root := p.root, names := p.names ++ q.names, slash := q.slash
      names_ok := fun n hn => (List.mem_append.1 hn).elim (p.names_ok n) (q.names_ok n)
      slash_ok := fun h => by simp [q.slash_ok h] }

instance : HDiv Path Path Path := ⟨append⟩

theorem append_rooted (p : Path) {q : Path} (h : q.root = true) : p / q = q := if_pos h

theorem append_root (p : Path) {q : Path} (h : q.root = false) : (p / q).root = p.root := by
  show (append p q).root = _
  unfold append
  split <;> simp_all
  split <;> rfl

theorem append_names (p : Path) {q : Path} (h : q.root = false) : (p / q).names = p.names ++ q.names := by
  show (append p q).names = _
  unfold append
  rw [if_neg (by simp [h])]
  split <;> simp_all

theorem append_slash (p : Path) {q : Path} (h : q.root = false) (hne : q.names ≠ []) : (p / q).slash = q.slash := by
  show (append p q).slash = _
  unfold append
  rw [if_neg (by simp [h]), if_neg hne]

theorem within_append (p : Path) {q : Path} (h : q.root = false) : p.Within (p / q) :=
  ⟨(append_root p h).symm, by rw [append_names p h]; exact List.prefix_append _ _⟩

/-- What is appended stays inside if it is relative, and otherwise has to lie there itself. -/
theorem Within.append {b p q : Path} (hp : b.Within p) (hq : q.root = false ∨ b.Within q) : b.Within (p / q) := by
  cases hr : q.root with
  | false => exact hp.trans (within_append p hr)
  | true =>
    rw [append_rooted p hr]
    exact hq.resolve_left (by rw [hr]; decide)

theorem rooted_append {p : Path} (h : p.root = true) (q : Path) : (p / q).root = true := by
  cases hq : q.root with
  | true => rw [append_rooted p hq]; exact hq
  | false => rw [append_root p hq]; exact h

/-! ## The normal form -/

/-- One filename, onto the stack of those kept so far. -/
def push (root : Bool) (acc : List Name) (n : Name) : List Name :=
  if n = dot then acc
  else if n = dotdot then
    match acc with
    | [] => if root then [] else [dotdot]
    | m :: ms => if m = dotdot then dotdot :: m :: ms else ms
  else n :: acc

theorem push_dot (root : Bool) (acc : List Name) : push root acc dot = acc := if_pos rfl

theorem push_name (root : Bool) (acc : List Name) {n : Name} (h : n ≠ dot ∧ n ≠ dotdot) :
    push root acc n = n :: acc := by
  unfold push
  rw [if_neg h.1, if_neg h.2]

theorem push_dotdot_name (root : Bool) (acc : List Name) {m : Name} (h : m ≠ dotdot) :
    push root (m :: acc) dotdot = acc := if_neg h

theorem mem_push {root : Bool} {acc : List Name} {n m : Name} (h : m ∈ push root acc n) : m ∈ acc ∨ m = n := by
  unfold push at h
  split at h
  · exact .inl h
  · split at h
    · rename_i hn
      split at h
      · split at h
        · exact .inl h
        · exact .inr (by rw [hn]; simpa using h)
      · split at h
        · rcases List.mem_cons.1 h with rfl | h
          · exact .inr hn.symm
          · exact .inl h
        · exact .inl (List.mem_cons_of_mem _ h)
    · rcases List.mem_cons.1 h with rfl | h
      · exact .inr rfl
      · exact .inl h

theorem mem_foldl_push {root : Bool} (l : List Name) :
    ∀ {acc : List Name} {m : Name}, m ∈ l.foldl (push root) acc → m ∈ acc ∨ m ∈ l := by
  induction l with
  | nil => intro acc m h; exact .inl h
  | cons n l ih =>
    intro acc m h
    rcases ih h with h | h
    · rcases mem_push h with h | rfl
      · exact .inl h
      · exact .inr List.mem_cons_self
    · exact .inr (List.mem_cons_of_mem _ h)

def normalNames (p : Path) : List Name := (p.names.foldl (push p.root) []).reverse

theorem mem_normalNames {p : Path} {n : Name} (h : n ∈ p.normalNames) : n ∈ p.names := by
  rcases mem_foldl_push p.names (List.mem_reverse.1 h) with h | h
  · cases h
  · exact h

def lexicallyNormal (p : Path) : Path :=
  if h : p.normalNames = [] then
    { root := p.root, names := if p.root = true ∨ p.names = [] then [] else [dot], slash := false
      names_ok := by intro n hn; split at hn <;> simp at hn; subst hn; decide
      slash_ok := by simp }
  else
    { root := p.root, names := p.normalNames
      -- a dot or dot-dot at the end leaves the separator before it
      slash := (p.slash = true ∨ p.names.getLast? = some dot ∨ p.names.getLast? = some dotdot) ∧
        p.normalNames.getLast? ≠ some dotdot
      names_ok := fun n hn => p.names_ok n (mem_normalNames hn)
      slash_ok := fun _ => h }

theorem lexicallyNormal_root (p : Path) : p.lexicallyNormal.root = p.root := by
  unfold lexicallyNormal; split <;> rfl

/-- No filename is a dot or dot-dot. -/
def Plain (p : Path) : Prop := ∀ n ∈ p.names, n ≠ dot ∧ n ≠ dotdot

theorem Plain.append {p q : Path} (hp : p.Plain) (hq : q.Plain) : (p / q).Plain := by
  cases hr : q.root with
  | true => rw [append_rooted p hr]; exact hq
  | false =>
    intro n hn
    rw [append_names p hr] at hn
    exact (List.mem_append.1 hn).elim (hp n) (hq n)

instance (p : Path) : Decidable p.Plain := inferInstanceAs (Decidable (∀ n ∈ p.names, _))

theorem foldl_push_plain (l : List Name) : ∀ {acc : List Name}, (∀ n ∈ acc, n ≠ dot ∧ n ≠ dotdot) →
    ∀ n ∈ l.foldl (push true) acc, n ≠ dot ∧ n ≠ dotdot := by
  induction l with
  | nil => intro acc h; exact h
  | cons m l ih =>
    intro acc h
    refine ih fun n hn => ?_
    unfold push at hn
    split at hn
    · exact h n hn
    · rename_i hd
      split at hn
      · split at hn
        · simp at hn
        · rename_i a as
          split at hn
          · rename_i ha; exact absurd ha (h a List.mem_cons_self).2
          · exact h n (List.mem_cons_of_mem _ hn)
      · rename_i hdd
        rcases List.mem_cons.1 hn with rfl | hn
        · exact ⟨hd, hdd⟩
        · exact h n hn

/-- The normal form of a rooted path has no dot and no dot-dot. -/
theorem plain_lexicallyNormal {p : Path} (h : p.root = true) : p.lexicallyNormal.Plain := by
  intro n hn
  unfold lexicallyNormal at hn
  split at hn
  · simp [h] at hn
  · have hm := List.mem_reverse.1 (show n ∈ (p.names.foldl (push p.root) []).reverse from hn)
    rw [h] at hm
    exact foldl_push_plain p.names (by simp) n hm

theorem foldl_push_of_plain (root : Bool) (l : List Name) : ∀ acc, (∀ n ∈ l, n ≠ dot ∧ n ≠ dotdot) →
    l.foldl (push root) acc = l.reverse ++ acc := by
  induction l with
  | nil => intro acc _; rfl
  | cons n l ih =>
    intro acc h
    obtain ⟨h1, h2⟩ := h n List.mem_cons_self
    rw [List.foldl_cons, ih _ fun m hm => h m (List.mem_cons_of_mem _ hm)]
    simp [push, h1, h2]

theorem normalNames_of_plain {p : Path} (h : p.Plain) : p.normalNames = p.names := by
  rw [normalNames, foldl_push_of_plain p.root p.names [] h]
  simp

/-- A path without dots is in normal form. -/
theorem lexicallyNormal_of_plain {p : Path} (h : p.Plain) : p.lexicallyNormal = p := by
  have hn := normalNames_of_plain h
  have hlast : ∀ d, d = dot ∨ d = dotdot → p.names.getLast? ≠ some d := by
    intro d hd hl
    have := h d (List.mem_of_getLast? hl)
    rcases hd with rfl | rfl
    · exact this.1 rfl
    · exact this.2 rfl
  unfold lexicallyNormal
  split
  · rename_i he
    rw [hn] at he
    refine ext' rfl (by simp [he]) ?_
    cases hs : p.slash with
    | false => rfl
    | true => exact absurd he (p.slash_ok hs)
  · refine ext' rfl hn ?_
    simp [hn, hlast dot (.inl rfl), hlast dotdot (.inr rfl)]

/-- What is kept of a relative path: dot-dots, and names after them. -/
theorem foldl_push_relative (l : List Name) : ∀ (ns : List Name) (k : Nat), (∀ n ∈ ns, n ≠ dot ∧ n ≠ dotdot) →
    ∃ (ms : List Name) (j : Nat), (∀ m ∈ ms, m ≠ dot ∧ m ≠ dotdot) ∧
      l.foldl (push false) (ns ++ List.replicate k dotdot) = ms ++ List.replicate j dotdot := by
  induction l with
  | nil => exact fun ns k h => ⟨ns, k, h, rfl⟩
  | cons n l ih =>
    intro ns k h
    rw [List.foldl_cons]
    by_cases hd : n = dot
    · rw [hd, push_dot]
      exact ih ns k h
    · by_cases hdd : n = dotdot
      · subst hdd
        cases ns with
        | nil =>
          cases k with
          | zero => exact ih [] 1 h
          | succ k => exact ih [] (k + 2) h
        | cons m ms =>
          obtain ⟨hm, hms⟩ := List.forall_mem_cons.1 h
          rw [List.cons_append, push_dotdot_name _ _ hm.2]
          exact ih ms k hms
      · rw [push_name _ _ ⟨hd, hdd⟩, ← List.cons_append]
        exact ih (n :: ns) k (List.forall_mem_cons.2 ⟨⟨hd, hdd⟩, h⟩)

/-- A normal relative path that does not begin with dot-dot has none, or it is the dot. -/
theorem lexicallyNormal_relative {p : Path} (hr : p.root = false) (h : p.lexicallyNormal.names.head? ≠ some dotdot) :
    p.lexicallyNormal.Plain ∨ p.lexicallyNormal.names = [dot] := by
  unfold lexicallyNormal at h ⊢
  split at h
  · rename_i hnil
    rw [dif_pos hnil]
    by_cases hnames : p.names = []
    · exact .inl fun n hn => by simp [hnames] at hn
    · exact .inr (if_neg (by simp [hr, hnames]))
  · rename_i hnil
    rw [dif_neg hnil]
    left
    obtain ⟨ms, j, hms, hfold⟩ := foldl_push_relative p.names [] 0 (by simp)
    have hnormal : p.normalNames = List.replicate j dotdot ++ ms.reverse := by
      rw [normalNames, hr]
      simpa using congrArg List.reverse hfold
    cases j with
    | zero =>
      intro n hn
      have hmem : n ∈ p.normalNames := hn
      rw [hnormal] at hmem
      exact hms n (by simpa using hmem)
    | succ j =>
      refine absurd ?_ h
      dsimp only
      rw [hnormal, List.replicate_succ]
      rfl

/-- A dot behind a path without dots is dropped. -/
theorem lexicallyNormal_append_dot {p q : Path} (hp : p.Plain) (hroot : p.root = true) (hq : q.root = false)
    (hdot : q.names = [dot]) : (p / q).lexicallyNormal.names = p.names := by
  have hnames : (p / q).names = p.names ++ [dot] := by rw [append_names p hq, hdot]
  have hnormal : (p / q).normalNames = p.names := by
    rw [normalNames, hnames, List.foldl_append, foldl_push_of_plain _ p.names [] hp, List.append_nil]
    rw [List.foldl_cons, push_dot, List.foldl_nil, List.reverse_reverse]
  unfold lexicallyNormal
  split
  · rename_i hnil
    rw [hnormal] at hnil
    rw [hnil]
    exact if_pos (.inl (rooted_append hroot q))
  · exact hnormal

theorem ofBytes_name {s : Name} (h : sep ∉ s) :
    (ofBytes s).root = false ∧ (ofBytes s).names = if s = [] then [] else [s] := by
  have hpieces : pieces s = [s] := by
    induction s with
    | nil => rfl
    | cons c s ih =>
      rw [pieces, if_neg (List.ne_of_not_mem_cons h).symm, ih (List.not_mem_of_not_mem_cons h)]
  constructor
  · refine decide_eq_false fun hhead => h ?_
    exact List.mem_of_head? hhead
  · show (pieces s).filter (· ≠ []) = _
    rw [hpieces]
    by_cases hs : s = [] <;> simp [hs]

/-! ## Up to the root and down again -/

theorem length_push_le (root : Bool) (acc : List Name) (n : Name) : (push root acc n).length ≤ acc.length + 1 := by
  unfold push
  split
  · omega
  · split
    · split
      · split <;> simp
      · split
        · simp
        · simp only [List.length_cons]
          omega
    · simp

theorem length_foldl_push_le (root : Bool) (l : List Name) :
    ∀ acc, (l.foldl (push root) acc).length ≤ acc.length + l.length := by
  induction l with
  | nil => intro acc; simp
  | cons n l ih =>
    intro acc
    have hpush := length_push_le root acc n
    have hrest := ih (push root acc n)
    rw [List.foldl_cons, List.length_cons]
    omega

theorem foldl_push_dotdots (k : Nat) : ∀ acc : List Name, (∀ n ∈ acc, n ≠ dot ∧ n ≠ dotdot) →
    (List.replicate k dotdot).foldl (push true) acc = acc.drop k := by
  induction k with
  | zero => intro acc _; rfl
  | succ k ih =>
    intro acc h
    rw [List.replicate_succ, List.foldl_cons]
    cases acc with
    | nil => exact (ih [] (by simp)).trans (by simp)
    | cons m ms =>
      obtain ⟨hm, hms⟩ := List.forall_mem_cons.1 h
      rw [push_dotdot_name _ _ hm.2, ih ms hms]
      rfl

theorem foldl_push_dotdots_relative (k : Nat) : ∀ (ms : List Name) (i : Nat), (∀ m ∈ ms, m ≠ dot ∧ m ≠ dotdot) →
    ms.length ≤ k →
    (List.replicate k dotdot).foldl (push false) (ms ++ List.replicate i dotdot) =
      List.replicate (i + (k - ms.length)) dotdot := by
  induction k with
  | zero =>
    intro ms i _ hlen
    rw [List.length_eq_zero_iff.1 (Nat.le_zero.1 hlen)]
    rfl
  | succ k ih =>
    intro ms i h hlen
    rw [List.replicate_succ, List.foldl_cons]
    cases ms with
    | nil =>
      have hpush : push false (List.replicate i dotdot) dotdot = List.replicate (i + 1) dotdot := by
        cases i <;> rfl
      have hrest := ih [] (i + 1) (by simp) (Nat.zero_le k)
      rw [List.nil_append, hpush]
      refine hrest.trans ?_
      congr 1
      simp only [List.length_nil]
      omega
    | cons m ms =>
      obtain ⟨hm, hms⟩ := List.forall_mem_cons.1 h
      rw [List.length_cons] at hlen ⊢
      rw [List.cons_append, push_dotdot_name _ _ hm.2, ih ms i hms (by omega), Nat.add_sub_add_right]

/-- Enough dot-dots lead to the root directory. -/
theorem normalNames_climb {p : Path} {front ns : List Name} {k : Nat} (hroot : p.root = true)
    (hnames : p.names = front ++ List.replicate k dotdot ++ ns) (hlen : front.length ≤ k)
    (hns : ∀ n ∈ ns, n ≠ dot ∧ n ≠ dotdot) : p.normalNames = ns := by
  have hplain : ∀ n ∈ front.foldl (push true) [], n ≠ dot ∧ n ≠ dotdot := foldl_push_plain front (by simp)
  have hle := length_foldl_push_le true front []
  rw [List.length_nil, Nat.zero_add] at hle
  rw [normalNames, hroot, hnames, List.foldl_append, List.foldl_append, foldl_push_dotdots k _ hplain,
    List.drop_eq_nil_of_le (hle.trans hlen), foldl_push_of_plain true ns [] hns]
  simp

/-- And from a relative path out of any directory that is not deeper. -/
theorem normalNames_climb_relative {p : Path} {front ns : List Name} {k depth : Nat} (hroot : p.root = false)
    (hnames : p.names = front ++ List.replicate k dotdot ++ ns) (hlen : front.length + depth ≤ k)
    (hns : ∀ n ∈ ns, n ≠ dot ∧ n ≠ dotdot) :
    ∃ j, depth ≤ j ∧ p.normalNames = List.replicate j dotdot ++ ns := by
  obtain ⟨ms, i, hms, hfold⟩ := foldl_push_relative front [] 0 (by simp)
  have hle := length_foldl_push_le false front []
  rw [List.replicate_zero, List.append_nil] at hfold
  rw [hfold, List.length_append, List.length_nil] at hle
  refine ⟨i + (k - ms.length), by omega, ?_⟩
  rw [normalNames, hroot, hnames, List.foldl_append, List.foldl_append, hfold,
    foldl_push_dotdots_relative k ms i hms (by omega), foldl_push_of_plain false ns _ hns]
  simp

theorem lexicallyNormal_eq {p c : Path} (hroot : p.root = c.root) (hslash : c.slash = false)
    (hnormal : p.normalNames = c.names) (hdot : c.names = [] → c.root = true)
    (hlast : c.names ≠ [] → c.names.getLast? ≠ some dotdot →
      p.slash = false ∧ p.names.getLast? ≠ some dot ∧ p.names.getLast? ≠ some dotdot) : p.lexicallyNormal = c := by
  unfold lexicallyNormal
  split
  · rename_i hnil
    rw [hnormal] at hnil
    refine ext' hroot ?_ hslash.symm
    rw [hnil]
    exact if_pos (.inl (hroot.trans (hdot hnil)))
  · rename_i hne
    rw [hnormal] at hne
    refine ext' hroot hnormal ?_
    rw [hslash]
    refine decide_eq_false ?_
    rintro ⟨hor, hdd⟩
    rw [hnormal] at hdd
    obtain ⟨h1, h2, h3⟩ := hlast hne hdd
    rcases hor with h | h | h
    · rw [h1] at h
      cases h
    · exact h2 h
    · exact h3 h

theorem exists_ups (j : Nat) (c : Path) :
    ∃ q : Path, q.root = false ∧ q.names = List.replicate j dotdot ++ c.names ∧ q.slash = false := by
  refine ⟨⟨false, List.replicate j dotdot ++ c.names, false, fun n hn => ?_, fun h => by cases h⟩, rfl, rfl, rfl⟩
  rcases List.mem_append.1 hn with hn | hn
  · rw [List.eq_of_mem_replicate hn]
    decide
  · exact c.names_ok n hn

/-- Wherever one is, a path that goes up far enough and then down leads to where it says. -/
theorem lexicallyNormal_climb {r p c : Path} {front : List Name} {k : Nat} (hr : r.root = true) (hr0 : r.names ≠ [])
    (hc : c.root = true) (hcp : c.Plain) (hcs : c.slash = false)
    (hnames : p.names = front ++ List.replicate k dotdot ++ c.names) (hlen : front.length + r.names.length ≤ k)
    (hslash : c.names ≠ [] → p.slash = false) : (r / p.lexicallyNormal).lexicallyNormal = c := by
  have hlast : ∀ {q : Path} {init : List Name}, q.names = init ++ c.names → c.names ≠ [] →
      q.names.getLast? ≠ some dot ∧ q.names.getLast? ≠ some dotdot := by
    intro q init hq hne
    rw [hq, List.getLast?_append_of_ne_nil init hne]
    exact ⟨fun h => (hcp _ (List.mem_of_getLast? h)).1 rfl, fun h => (hcp _ (List.mem_of_getLast? h)).2 rfl⟩
  cases hp : p.root with
  | true =>
    have hnormal := normalNames_climb hp hnames (by omega) hcp
    have heq : p.lexicallyNormal = c :=
      lexicallyNormal_eq (hp.trans hc.symm) hcs hnormal (fun _ => hc) fun hne _ => ⟨hslash hne, hlast hnames hne⟩
    rw [heq, append_rooted r hc, lexicallyNormal_of_plain hcp]
  | false =>
    obtain ⟨j, hj, hnormal⟩ := normalNames_climb_relative hp hnames hlen hcp
    have hpos : 0 < j := Nat.lt_of_lt_of_le (List.length_pos_iff.2 hr0) hj
    -- the normal form of the path itself
    obtain ⟨q, hqroot, hqnames, hqslash⟩ := exists_ups j c
    have hqne : q.names ≠ [] := by
      rw [hqnames]
      exact List.append_ne_nil_of_left_ne_nil (by simpa using Nat.ne_of_gt hpos) _
    have heq : p.lexicallyNormal = q := by
      refine lexicallyNormal_eq (hp.trans hqroot.symm) hqslash (hnormal.trans hqnames.symm) (fun h => absurd h hqne) ?_
      intro _ hdd
      have hne : c.names ≠ [] := by
        intro h0
        refine hdd ?_
        rw [hqnames, h0, List.append_nil, List.getLast?_replicate, if_neg (Nat.ne_of_gt hpos)]
      exact ⟨hslash hne, hlast hnames hne⟩
    have hall : (r / q).names = r.names ++ List.replicate j dotdot ++ c.names := by
      rw [append_names r hqroot, hqnames, List.append_assoc]
    have hallslash : (r / q).slash = false := (append_slash r hqroot hqne).trans hqslash
    rw [heq]
    exact lexicallyNormal_eq ((rooted_append hr q).trans hc.symm) hcs (normalNames_climb (rooted_append hr q) hall hj hcp)
      (fun _ => hc) fun hne _ => ⟨hallslash, hlast hall hne⟩

/-! ## Paths from the texts of their parts -/

theorem pieces_ne_nil (s : Name) : pieces s ≠ [] := by
  cases s with
  | nil => simp [pieces]
  | cons c cs =>
    rw [pieces]
    split
    · simp
    · split <;> simp

theorem pieces_append (a b : Name) : pieces (a ++ sep :: b) = pieces a ++ pieces b := by
  induction a with
  | nil => simp [pieces]
  | cons c cs ih =>
    rw [List.cons_append, pieces, pieces, ih]
    split
    · rfl
    · obtain ⟨p, ps, hp⟩ := List.exists_cons_of_ne_nil (pieces_ne_nil cs)
      rw [hp]
      rfl

theorem ofBytes_append_names (a b : Name) : (ofBytes (a ++ sep :: b)).names = (ofBytes a).names ++ (ofBytes b).names := by
  change (pieces (a ++ sep :: b)).filter _ = _
  rw [pieces_append, List.filter_append]
  rfl

theorem ofBytes_slash {s : Name} (h : s.getLast? ≠ some sep) : (ofBytes s).slash = false :=
  decide_eq_false fun hs => h hs.1

/-- Names with separators between them. -/
def joined (names : List Name) : Name := List.intercalate [sep] names

theorem joined_cons {n : Name} {ns : List Name} (h : ns ≠ []) : joined (n :: ns) = n ++ sep :: joined ns := by
  obtain ⟨m, ms, rfl⟩ := List.exists_cons_of_ne_nil h
  simp [joined, List.intercalate, List.intersperse]

theorem ofBytes_joined {names : List Name} (h : ∀ n ∈ names, n ≠ [] ∧ sep ∉ n) : (ofBytes (joined names)).names = names := by
  induction names with
  | nil => rfl
  | cons n ns ih =>
    obtain ⟨⟨hn, hsep⟩, hns⟩ := List.forall_mem_cons.1 h
    have hone : (ofBytes n).names = [n] := by rw [(ofBytes_name hsep).2, if_neg hn]
    by_cases h0 : ns = []
    · rw [h0]
      simpa [joined, List.intercalate] using hone
    · rw [joined_cons h0, ofBytes_append_names, hone, ih hns]
      rfl

theorem joined_getLast {names : List Name} (h : ∀ n ∈ names, n ≠ [] ∧ sep ∉ n) : (joined names).getLast? ≠ some sep := by
  induction names with
  | nil => simp [joined, List.intercalate]
  | cons n ns ih =>
    obtain ⟨⟨hn, hsep⟩, hns⟩ := List.forall_mem_cons.1 h
    by_cases h0 : ns = []
    · rw [h0]
      intro hlast
      have hlast' : n.getLast? = some sep := by simpa [joined, List.intercalate] using hlast
      exact hsep (List.mem_of_getLast? hlast')
    · obtain ⟨m, ms, rfl⟩ := List.exists_cons_of_ne_nil h0
      have hm := (hns m List.mem_cons_self).1
      have hne : joined (m :: ms) ≠ [] := by
        intro hnil
        have hnames := ofBytes_joined hns
        rw [hnil] at hnames
        cases hnames
      rw [joined_cons h0, List.getLast?_append_of_ne_nil n (List.cons_ne_nil sep _), List.getLast?_cons_of_ne_nil hne]
      exact ih hns

/-- So many directories up, and then the names down. -/
def climb (names : List Name) : Nat → Name
  | 0 => joined names
  | k + 1 => dotdot ++ sep :: climb names k

theorem ofBytes_climb {names : List Name} (h : ∀ n ∈ names, n ≠ [] ∧ sep ∉ n) (k : Nat) :
    (ofBytes (climb names k)).names = List.replicate k dotdot ++ names := by
  induction k with
  | zero => exact ofBytes_joined h
  | succ k ih =>
    rw [climb, ofBytes_append_names, ih]
    rfl

theorem climb_getLast {names : List Name} (h : ∀ n ∈ names, n ≠ [] ∧ sep ∉ n) (hne : names ≠ []) (k : Nat) :
    climb names k ≠ [] ∧ (climb names k).getLast? ≠ some sep := by
  induction k with
  | zero =>
    refine ⟨fun hnil => hne ?_, joined_getLast h⟩
    change joined names = [] at hnil
    rw [← ofBytes_joined h, hnil]
    rfl
  | succ k ih =>
    rw [climb]
    refine ⟨by simp, ?_⟩
    rw [List.getLast?_append_of_ne_nil _ (List.cons_ne_nil sep _), List.getLast?_cons_of_ne_nil ih.1]
    exact ih.2

end Path

end Paths
