import Getodac.Lib.Paths
/-!
# File trees with symbolic links

What stands at each location of a file system, and how a path is followed in it.
`canonical` is the location a path leads to once every link is followed; it is a
path without links (`canonical_idem`).
-/
open Paths Paths.Path

namespace FileTree

inductive Entry where
  | file
  | directory
  | link (target : Path)
deriving DecidableEq, Repr

/-- The entries below the root directory. A location is the list of the names that lead to it. -/
structure Tree where
  entry : List Name → Option Entry
  /-- Links followed before a path is given up. -/
  maxLinks : Nat

/-- The names to follow; a separator at the end asks for a directory, as a dot does. -/
def steps (p : Path) : List Name := p.names ++ if p.slash then [dot] else []

namespace Tree

/-- Follow names from a location; `follow` goes on at a link. -/
def walk (t : Tree) (follow : List Name → List Name → Option (List Name)) (loc : List Name) :
    List Name → Option (List Name)
  | [] => some loc
  | n :: rest =>
    if n = dot then t.walk follow loc rest
    else if n = dotdot then t.walk follow loc.dropLast rest
    else
      match t.entry (loc ++ [n]) with
      | none => none
      | some .file => if rest = [] then some (loc ++ [n]) else none
      | some .directory => t.walk follow (loc ++ [n]) rest
      | some (.link target) => follow (if target.root then [] else loc) (steps target ++ rest)

def resolve (t : Tree) : Nat → List Name → List Name → Option (List Name)
  | 0 => t.walk fun _ _ => none
  | k + 1 => t.walk (t.resolve k)

theorem resolve_eq (t : Tree) (k : Nat) : ∃ follow, t.resolve k = t.walk follow := by
  cases k <;> exact ⟨_, rfl⟩

/-! ## Where a path can lead -/

/-- A directory that is reached without links. -/
def Dir (t : Tree) (loc : List Name) : Prop :=
  ∀ above n, above ++ [n] <+: loc → (n ≠ dot ∧ n ≠ dotdot) ∧ t.entry (above ++ [n]) = some .directory

/-- A directory or a file that is reached without links. -/
def Stands (t : Tree) (loc : List Name) : Prop :=
  t.Dir loc ∨ ∃ above n, loc = above ++ [n] ∧ t.Dir above ∧ (n ≠ dot ∧ n ≠ dotdot) ∧ t.entry loc = some .file

variable {t : Tree} {follow : List Name → List Name → Option (List Name)} {loc names q : List Name}

theorem Dir.root : t.Dir [] := fun above n h => absurd (List.prefix_nil.1 h) (by simp)

theorem Dir.of_isPrefix {l : List Name} (h : t.Dir loc) (hl : l <+: loc) : t.Dir l :=
  fun above n hp => h above n (hp.trans hl)

theorem Dir.child {n : Name} (h : t.Dir loc) (hn : n ≠ dot ∧ n ≠ dotdot) (he : t.entry (loc ++ [n]) = some .directory) :
    t.Dir (loc ++ [n]) := by
  intro above m hp
  rcases List.prefix_concat_iff.1 hp with heq | hp
  · obtain ⟨rfl, hm⟩ := List.append_inj' heq rfl
    cases hm
    exact ⟨hn, he⟩
  · exact h above m hp

/-- Wherever a walk from a directory ends stands without links. -/
theorem walk_stands (hf : ∀ l r q, t.Dir l → follow l r = some q → t.Stands q) (hd : t.Dir loc)
    (h : t.walk follow loc names = some q) : t.Stands q := by
  induction names generalizing loc with
  | nil =>
    cases h
    exact .inl hd
  | cons n rest ih =>
    rw [walk] at h
    split at h
    · exact ih hd h
    · rename_i hdot
      split at h
      · have hup := List.dropLast_prefix loc
        exact ih (hd.of_isPrefix hup) h
      · rename_i hdotdot
        split at h
        · cases h
        · rename_i he
          split at h
          · cases h
            exact .inr ⟨loc, n, rfl, hd, ⟨hdot, hdotdot⟩, he⟩
          · cases h
        · rename_i he
          exact ih (hd.child ⟨hdot, hdotdot⟩ he) h
        · refine hf _ _ _ ?_ h
          split
          · exact .root
          · exact hd

theorem resolve_stands (k : Nat) (hd : t.Dir loc) (h : t.resolve k loc names = some q) : t.Stands q := by
  induction k generalizing loc names q with
  | zero => exact walk_stands (fun _ _ _ _ h => by cases h) hd h
  | succ k ih => exact walk_stands (fun _ _ _ hl h => ih hl h) hd h

/-- Names of directories are followed one by one. -/
theorem walk_dir (h : t.Dir (loc ++ names)) (rest : List Name) :
    t.walk follow loc (names ++ rest) = t.walk follow (loc ++ names) rest := by
  induction names generalizing loc with
  | nil => rw [List.append_nil, List.nil_append]
  | cons n ns ih =>
    rw [List.append_cons] at h ⊢
    obtain ⟨hn, he⟩ := h loc n (List.prefix_append _ _)
    rw [List.cons_append, walk, if_neg hn.1, if_neg hn.2, he]
    exact ih h

/-- What stands without links is where it is. -/
theorem walk_of_stands (h : t.Stands loc) : t.walk follow [] loc = some loc := by
  rcases h with h | ⟨above, n, rfl, hd, hn, he⟩
  · have hwalk : t.walk follow [] (loc ++ []) = some loc := walk_dir h []
    rwa [List.append_nil] at hwalk
  · have hwalk : t.walk follow [] (above ++ [n]) = t.walk follow above [n] := walk_dir hd [n]
    rw [hwalk, walk, if_neg hn.1, if_neg hn.2, he]
    rfl

/-- Without links a walk over names without dots goes straight down. -/
theorem walk_straight (hlink : ∀ l target, t.entry l ≠ some (.link target)) (hn : ∀ n ∈ names, n ≠ dot ∧ n ≠ dotdot)
    (h : t.walk follow loc names = some q) : q = loc ++ names := by
  induction names generalizing loc with
  | nil =>
    cases h
    rw [List.append_nil]
  | cons n rest ih =>
    obtain ⟨h1, h2⟩ := hn n List.mem_cons_self
    rw [walk, if_neg h1, if_neg h2] at h
    split at h
    · cases h
    · split at h
      · rename_i hrest
        cases h
        rw [hrest]
      · cases h
    · rw [ih (fun m hm => hn m (List.mem_cons_of_mem _ hm)) h, List.append_assoc]
      rfl
    · rename_i he
      exact absurd he (hlink _ _)

/-! ## Canonical paths -/

/-- Names that a path can have. -/
def Valid (l : List Name) : Prop := ∀ n ∈ l, n ≠ [] ∧ sep ∉ n

theorem Valid.append {l m : List Name} (hl : Valid l) (hm : Valid m) : Valid (l ++ m) :=
  fun n hn => (List.mem_append.1 hn).elim (hl n) (hm n)

theorem steps_valid (p : Path) : Valid (steps p) := by
  refine Valid.append p.names_ok fun n hn => ?_
  split at hn
  · rw [List.mem_singleton.1 hn]
    decide
  · cases hn

theorem walk_valid (hf : ∀ l r q, Valid l → Valid r → follow l r = some q → Valid q) (hl : Valid loc) (hn : Valid names)
    (h : t.walk follow loc names = some q) : Valid q := by
  induction names generalizing loc with
  | nil =>
    cases h
    exact hl
  | cons n rest ih =>
    have hrest : Valid rest := fun m hm => hn m (List.mem_cons_of_mem _ hm)
    have hchild : Valid (loc ++ [n]) := hl.append fun m hm => hn m (by rw [List.mem_singleton.1 hm]; exact List.mem_cons_self)
    rw [walk] at h
    split at h
    · exact ih hl hrest h
    · split at h
      · exact ih (fun m hm => hl m (List.mem_of_mem_dropLast hm)) hrest h
      · split at h
        · cases h
        · split at h
          · cases h
            exact hchild
          · cases h
        · exact ih hchild hrest h
        · refine hf _ _ _ ?_ ((steps_valid _).append hrest) h
          split
          · exact fun _ hm => by cases hm
          · exact hl

theorem resolve_valid (k : Nat) (hl : Valid loc) (hn : Valid names) (h : t.resolve k loc names = some q) : Valid q := by
  induction k generalizing loc names q with
  | zero => exact walk_valid (fun _ _ _ _ _ h => by cases h) hl hn h
  | succ k ih => exact walk_valid (fun _ _ _ hl hr h => ih hl hr h) hl hn h

/-- The location an absolute path leads to. -/
def location (t : Tree) (p : Path) : Option (List Name) :=
  if p.root then t.resolve t.maxLinks [] (steps p) else none

theorem location_valid {p : Path} (h : t.location p = some q) : Valid q := by
  unfold location at h
  split at h
  · exact resolve_valid _ (fun _ hn => by cases hn) (steps_valid p) h
  · cases h

theorem location_stands {p : Path} (h : t.location p = some q) : t.Stands q := by
  unfold location at h
  split at h
  · exact resolve_stands _ .root h
  · cases h

/-- The path of a location. -/
def pathTo (l : List Name) (h : Valid l) : Path where
  root := true
  names := l
  slash := false
  names_ok := h
  slash_ok h := by cases h

def canonical (t : Tree) (p : Path) : Option Path := (t.location p).pmap pathTo fun _ => location_valid

def isDirectory (t : Tree) (p : Path) : Bool :=
  (t.location p).any fun l => l = [] || t.entry l = some .directory

def isFile (t : Tree) (p : Path) : Bool := (t.location p).any fun l => t.entry l = some .file

theorem canonical_iff {p r : Path} :
    t.canonical p = some r ↔ t.location p = some r.names ∧ r.root = true ∧ r.slash = false := by
  unfold canonical
  rw [Option.pmap_eq_some_iff]
  constructor
  · rintro ⟨l, hl, hloc, rfl⟩
    exact ⟨hloc, rfl, rfl⟩
  · rintro ⟨hloc, hroot, hslash⟩
    exact ⟨r.names, location_valid hloc, hloc, Path.ext' hroot rfl hslash⟩

theorem canonical_plain {p r : Path} (h : t.canonical p = some r) : r.root = true ∧ r.Plain := by
  obtain ⟨hloc, hroot, -⟩ := canonical_iff.1 h
  refine ⟨hroot, fun n hn => ?_⟩
  have hdir : ∀ {l}, t.Dir l → n ∈ l → n ≠ dot ∧ n ≠ dotdot := by
    intro l hd hn
    obtain ⟨a, b, rfl⟩ := List.append_of_mem hn
    exact (hd a n ⟨b, by simp⟩).1
  rcases location_stands hloc with hd | ⟨above, m, hl, hd, hm, -⟩
  · exact hdir hd hn
  · rw [hl] at hn
    rcases List.mem_append.1 hn with hn | hn
    · exact hdir hd hn
    · rw [List.mem_singleton.1 hn]
      exact hm

theorem location_of_stands {p : Path} (hroot : p.root = true) (hslash : p.slash = false) (h : t.Stands p.names) :
    t.location p = some p.names := by
  obtain ⟨follow, hres⟩ := t.resolve_eq t.maxLinks
  rw [location, if_pos hroot, hres, steps, hslash]
  simpa using walk_of_stands h

/-- A canonical path is its own canonical path. -/
theorem canonical_idem {p r : Path} (h : t.canonical p = some r) : t.canonical r = some r := by
  obtain ⟨hloc, hroot, hslash⟩ := canonical_iff.1 h
  exact canonical_iff.2 ⟨location_of_stands hroot hslash (location_stands hloc), hroot, hslash⟩

/-- Without links a path without dots is its own location. -/
theorem canonical_straight (hlink : ∀ l target, t.entry l ≠ some (.link target)) {p r : Path} (hp : p.Plain)
    (hslash : p.slash = false) (h : t.canonical p = some r) : r.names = p.names := by
  obtain ⟨hloc, -, -⟩ := canonical_iff.1 h
  obtain ⟨follow, hres⟩ := t.resolve_eq t.maxLinks
  unfold location at hloc
  split at hloc
  · rw [hres, steps, hslash, if_neg (by decide), List.append_nil] at hloc
    exact walk_straight hlink hp hloc
  · cases hloc

end Tree

end FileTree
