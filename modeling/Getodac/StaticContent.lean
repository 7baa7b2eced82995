import Getodac.Utils
import Getodac.Lib.Paths
/-!
# Which file the static content plugin serves

`create_session` picks the mapping for a URL and `static_content_session` turns
the rest of the URL into a path, checks it and serves it. The file system is
what the plugin asks of it: `canonical` and `is_directory`.

A URL under a `/~` mapping names a user, and the user name is decoded before it
is appended to the mapping's directory. `confined_iff` says for which user
names what is served stays in that directory.
-/
open Paths Paths.Path

namespace Getodac.StaticContent

/-- The file system. `std::filesystem::canonical` throws or returns an absolute path without dots. -/
structure FileSystem where
  canonical : Path → Option Path
  isDirectory : Path → Bool
  canonical_ok : ∀ {p q}, canonical p = some q → q.root = true ∧ q.Plain

/-- The plugin's configuration: `s_urls`, `s_default_file` and `s_allow_symlinks`. -/
structure Config where
  urls : List (Bytes × Bytes)
  defaultFile : Bytes
  allowSymlinks : Bool

/-- The arguments `create_session` binds to `static_content_session`. -/
structure Bound where
  root : Path
  path : Path
  head : Bool
deriving DecidableEq, Repr

/-- `url.find('/', 1)`, or the size of the URL. -/
def slashPos (url : Bytes) : Nat := 1 + (url.drop 1).idxOf sep

def publicHtml : Path := ofBytes (bytes "public_html")

/-- The branch of `create_session` for a `/~` mapping. -/
def userSession (second : Bytes) (head : Bool) (url : Bytes) : Except String (Option Bound) :=
  let pos := slashPos url
  match unescapeUrl ((url.drop 2).take (pos - 2)) with
  | .error e => .error e
  | .ok user =>
    -- avoid GET /~../../etc/passwd HTTP/1.0 requests
    if user = dot ∨ user = dotdot then .ok none
    else
      let root := ofBytes second / ofBytes user / publicHtml
      if 1 < url.length - pos then
        match unescapeUrl (url.drop (pos + 1)) with
        | .error e => .error e
        | .ok file => .ok (some ⟨root, (ofBytes file).lexicallyNormal, head⟩)
      else .ok (some ⟨root, (ofBytes []).lexicallyNormal, head⟩)

/-- `create_session`. The error is the text of an exception of `unescapeUrl`. -/
def createSession (cfg : Config) (method url : Bytes) : Except String (Option Bound) :=
  if method ≠ bytes "GET" ∧ method ≠ bytes "HEAD" then .ok none
  else
    match cfg.urls.find? (·.1.isPrefixOf url) with
    | none => .ok none
    | some (first, second) =>
      if (bytes "/~").isPrefixOf first then userSession second (method = bytes "HEAD") url
      else
        -- `url.c_str()` ends at a NUL
        match unescapeUrl ((url.drop first.length).takeWhile (· ≠ 0)) with
        | .error e => .error e
        | .ok file => .ok (some ⟨ofBytes second, (ofBytes file).lexicallyNormal, method = bytes "HEAD"⟩)

/-- What `static_content_session` throws before it serves anything. -/
inductive Refused where
  | filesystem_error
  | response (statusCode : Nat)
deriving DecidableEq, Repr

/-- The path `static_content_session` serves. -/
def served (cfg : Config) (fs : FileSystem) (root path : Path) : Except Refused Path := do
  let p := (root / path).lexicallyNormal
  let p ← if cfg.allowSymlinks then .ok p else
    match fs.canonical p with
    | some q => .ok q
    | none => .error .filesystem_error
  -- make sure we don't serve files outside the root
  if p.startsWith root then .ok (if fs.isDirectory p then p / ofBytes cfg.defaultFile else p)
  else .error (.response 400)

/-! ## The guard -/

/-- What passes the guard lies below a root without dots; the default file may be appended to it. -/
theorem served_spec {cfg : Config} {fs : FileSystem} {root path p : Path} (hr : root.root = true)
    (h : served cfg fs root path = .ok p) :
    root.Plain ∧ ∃ q, root.Within q ∧ q.Plain ∧ (p = q ∨ p = q / ofBytes cfg.defaultFile) := by
  have main : ∀ q : Path, q.root = true ∧ q.Plain →
      (if q.startsWith root then Except.ok (if fs.isDirectory q then q / ofBytes cfg.defaultFile else q)
        else .error (Refused.response 400)) = .ok p →
      root.Plain ∧ ∃ q, root.Within q ∧ q.Plain ∧ (p = q ∨ p = q / ofBytes cfg.defaultFile) := by
    intro q hq h
    split at h
    case isFalse => cases h
    case isTrue hs =>
      have hw := within_of_startsWith hr hs
      refine ⟨fun n hn => hq.2 n (hw.2.subset hn), q, hw, hq.2, ?_⟩
      simp only [Except.ok.injEq] at h
      subst h
      split
      · exact .inr rfl
      · exact .inl rfl
  have hnorm : (root / path).lexicallyNormal.root = true ∧ (root / path).lexicallyNormal.Plain := by
    have := rooted_append hr path
    exact ⟨by rw [lexicallyNormal_root, this], plain_lexicallyNormal this⟩
  unfold served at h
  cases hsym : cfg.allowSymlinks with
  | true => simp only [hsym, if_true] at h; exact main _ hnorm h
  | false =>
    simp only [hsym, Bool.false_eq_true, if_false] at h
    cases hc : fs.canonical (root / path).lexicallyNormal with
    | none => rw [hc] at h; cases h
    | some q => rw [hc] at h; exact main q (fs.canonical_ok hc) h

/-- A root without dots can be served itself, as a file or as a directory. -/
theorem served_root (root : Path) (hr : root.Plain) (d : Bytes) (dir : Bool) :
    served ⟨[], d, true⟩ ⟨fun _ => none, fun _ => dir, by simp⟩ root (ofBytes []).lexicallyNormal =
      .ok (if dir then (root / ofBytes []) / ofBytes d else root / ofBytes []) := by
  have hnames : (root / ofBytes []).names = root.names := by rw [append_names _ rfl]; exact List.append_nil _
  have hplain : (root / ofBytes []).Plain := by intro n hn; rw [hnames] at hn; exact hr n hn
  have hstart : (root / ofBytes []).startsWith root = true := by
    refine List.isPrefixOf_iff_prefix.2 ?_
    simp only [elements, hnames, append_root root (show (ofBytes []).root = false from rfl)]
    cases hs : root.slash with
    | false => simp
    | true =>
      have : (root / ofBytes []).slash = true := by
        show (append root (ofBytes [])).slash = true
        unfold append
        rw [if_neg (by decide), if_pos (by decide)]
        simp [hs]
      simp [this]
  have hempty : (ofBytes []).lexicallyNormal = ofBytes [] := by decide
  simp only [served, hempty, lexicallyNormal_of_plain hplain, if_true]
  show (if _ then _ else _) = _
  rw [if_pos hstart]

/-! ## User directories -/

/-- The URL of the user written `u`, and what follows the user: nothing, or a slash and more. -/
def userUrl (u rest : Bytes) : Bytes := bytes "/~" ++ (u ++ rest)

theorem slashPos_userUrl {u rest : Bytes} (hu : sep ∉ u) (hrest : rest = [] ∨ rest.head? = some sep) :
    slashPos (userUrl u rest) = 2 + u.length := by
  have hidx : (u ++ rest).idxOf sep = u.length := by
    rw [List.idxOf_append_of_notMem hu]
    rcases hrest with rfl | h
    · simp
    · obtain ⟨t, rfl⟩ : ∃ t, rest = sep :: t := by
        cases rest with
        | nil => cases h
        | cons c t => simp only [List.head?_cons, Option.some.injEq] at h; exact ⟨t, by rw [h]⟩
      simp
  show 1 + ((126 : UInt8) :: (u ++ rest)).idxOf sep = _
  rw [List.idxOf_cons_ne _ (by decide), hidx]
  omega

theorem user_of_userUrl {u rest : Bytes} (hu : sep ∉ u) (hrest : rest = [] ∨ rest.head? = some sep) :
    ((userUrl u rest).drop 2).take (slashPos (userUrl u rest) - 2) = u := by
  rw [slashPos_userUrl hu hrest, Nat.add_sub_cancel_left]
  show (u ++ rest).take u.length = u
  simp

theorem userSession_spec {second url : Bytes} {head : Bool} {s : Bound}
    (h : userSession second head url = .ok (some s)) :
    ∃ user, unescapeUrl ((url.drop 2).take (slashPos url - 2)) = .ok user ∧ user ≠ dot ∧ user ≠ dotdot ∧
      s.root = ofBytes second / ofBytes user / publicHtml := by
  unfold userSession at h
  dsimp only at h
  split at h
  case h_1 => cases h
  case h_2 user huser =>
    refine ⟨user, huser, ?_⟩
    split at h
    case isTrue => cases h
    case isFalse hdots =>
      refine ⟨fun e => hdots (.inl e), fun e => hdots (.inr e), ?_⟩
      split at h
      · split at h
        · cases h
        · cases h; rfl
      · cases h; rfl

/-- What follows the user in the URL can be decoded as well. -/
theorem userSession_file {second url : Bytes} {head : Bool} {s : Bound} (h : userSession second head url = .ok (some s)) :
    ∃ file, unescapeUrl (url.drop (slashPos url + 1)) = .ok file := by
  unfold userSession at h
  dsimp only at h
  split at h
  · cases h
  · split at h
    · cases h
    · split at h
      · split at h
        · cases h
        · exact ⟨_, ‹_›⟩
      · rename_i hshort
        exact ⟨[], by rw [List.drop_eq_nil_of_le (by omega)]; rfl⟩

/-- The first mapping that fits the URL is taken. -/
theorem find_mapping {urls pre post : List (Bytes × Bytes)} {first second url : Bytes}
    (hurls : urls = pre ++ (first, second) :: post) (hpre : ∀ e ∈ pre, ¬ e.1 <+: url) (hfirst : first <+: url) :
    urls.find? (·.1.isPrefixOf url) = some (first, second) := by
  rw [hurls, List.find?_append, List.find?_eq_none.2 (fun e he hp => hpre e he (List.isPrefixOf_iff_prefix.1 hp)),
    Option.none_or, List.find?_cons_of_pos]
  exact List.isPrefixOf_iff_prefix.2 hfirst

/-- The session of a user URL serves below the directory of the decoded user name. -/
theorem createSession_user {cfg : Config} {pre post : List (Bytes × Bytes)} {base u rest method : Bytes} {s : Bound}
    (hcfg : cfg.urls = pre ++ (bytes "/~", base) :: post) (hpre : ∀ e ∈ pre, ¬ e.1 <+: userUrl u rest)
    (hu : sep ∉ u) (hrest : rest = [] ∨ rest.head? = some sep)
    (h : createSession cfg method (userUrl u rest) = .ok (some s)) :
    ∃ user, unescapeUrl u = .ok user ∧ user ≠ dot ∧ user ≠ dotdot ∧
      s.root = ofBytes base / ofBytes user / publicHtml := by
  have hfind := find_mapping hcfg hpre (List.prefix_append _ _)
  unfold createSession at h
  split at h
  · cases h
  · rw [hfind] at h
    obtain ⟨user, huser, hdots⟩ := userSession_spec h
    rw [user_of_userUrl hu hrest] at huser
    exact ⟨user, huser, hdots⟩

/-- Whatever the URLs of one user serve lies in the directory of the mapping. -/
def Confined (base u defaultFile : Bytes) : Prop :=
  ∀ (cfg : Config) (pre post : List (Bytes × Bytes)) (fs : FileSystem) (method rest : Bytes) (s : Bound) (p : Path),
    cfg.urls = pre ++ (bytes "/~", base) :: post → cfg.defaultFile = defaultFile →
    (∀ e ∈ pre, ¬ e.1 <+: userUrl u rest) → (rest = [] ∨ rest.head? = some sep) →
    createSession cfg method (userUrl u rest) = .ok (some s) → served cfg fs s.root s.path = .ok p →
    (ofBytes base).Within p

theorem root_plain {base user : Path} (hb : base.Plain) (hu : user.Plain) : (base / user / publicHtml).Plain :=
  (hb.append hu).append (by decide)

theorem plain_of_root_plain {base user : Path} (h : (base / user / publicHtml).Plain) : user.Plain := by
  intro n hn
  refine h n ?_
  rw [append_names _ (by decide)]
  refine List.mem_append_left _ ?_
  cases hr : user.root with
  | true => rw [append_rooted base hr]; exact hn
  | false => rw [append_names base hr]; exact List.mem_append_right _ hn

/-- The URL that names only the user. -/
theorem createSession_userUrl (base defaultFile : Bytes) {u user : Bytes} (hu : sep ∉ u) (huser : unescapeUrl u = .ok user)
    (h1 : user ≠ dot) (h2 : user ≠ dotdot) :
    createSession ⟨[(bytes "/~", base)], defaultFile, true⟩ (bytes "GET") (userUrl u []) =
      .ok (some ⟨ofBytes base / ofBytes user / publicHtml, (ofBytes []).lexicallyNormal, false⟩) := by
  have hfind : [(bytes "/~", base)].find? (·.1.isPrefixOf (userUrl u [])) = some (bytes "/~", base) :=
    find_mapping (List.nil_append _).symm (by simp) (List.prefix_append _ _)
  have huserS : userSession base false (userUrl u []) =
      .ok (some ⟨ofBytes base / ofBytes user / publicHtml, (ofBytes []).lexicallyNormal, false⟩) := by
    unfold userSession
    simp only [user_of_userUrl hu (.inl rfl), huser]
    rw [if_neg (by simp [h1, h2]), slashPos_userUrl hu (.inl rfl), if_neg (by simp [userUrl, bytes]; omega)]
  unfold createSession
  rw [if_neg (by decide), hfind]
  exact huserS

/-- A user's URLs stay in the directory of the mapping exactly if the decoded
name has a dot component, which the guard refuses, or is not absolute, or is an
absolute path whose `public_html` lies there, and the default file is not
absolute or lies there. -/
theorem confined_iff (base u defaultFile : Bytes) (hroot : (ofBytes base).root = true)
    (hnorm : (ofBytes base).lexicallyNormal = ofBytes base) (hu : sep ∉ u) :
    Confined base u defaultFile ↔
      ∀ user, unescapeUrl u = .ok user → user ≠ dot → user ≠ dotdot → (ofBytes user).Plain →
        ((ofBytes user).root = false ∨ (ofBytes base).Within (ofBytes user / publicHtml)) ∧
        ((ofBytes defaultFile).root = false ∨ (ofBytes base).Within (ofBytes defaultFile)) := by
  have hbase : (ofBytes base).Plain := hnorm ▸ plain_lexicallyNormal hroot
  constructor
  · intro hc user huser h1 h2 hplain
    have hrp := root_plain hbase hplain
    have hsess := createSession_userUrl base defaultFile hu huser h1 h2
    have hserve : ∀ dir : Bool, (ofBytes base).Within (if dir then
        (ofBytes base / ofBytes user / publicHtml / ofBytes []) / ofBytes defaultFile
        else ofBytes base / ofBytes user / publicHtml / ofBytes []) := fun dir =>
      hc _ [] [] _ _ [] _ _ rfl rfl (by simp) (.inl rfl) hsess (served_root _ hrp defaultFile dir)
    constructor
    · cases hr : (ofBytes user).root with
      | false => exact .inl rfl
      | true =>
        have := hserve false
        rw [append_rooted _ hr] at this
        obtain ⟨e1, e2⟩ := this
        rw [if_neg (by simp), append_root _ (by decide)] at e1
        rw [if_neg (by simp), append_names _ (by decide), show (ofBytes []).names = [] from rfl, List.append_nil] at e2
        exact .inr ⟨e1, e2⟩
    · cases hr : (ofBytes defaultFile).root with
      | false => exact .inl rfl
      | true =>
        have := hserve true
        rw [if_pos rfl, append_rooted _ hr] at this
        exact .inr this
  · intro hcond cfg pre post fs method rest s p hcfg hdef hpre hrest hs hp
    obtain ⟨user, huser, h1, h2, hsroot⟩ := createSession_user hcfg hpre hu hrest hs
    have hrooted : s.root.root = true := by
      rw [hsroot]
      exact rooted_append (rooted_append hroot _) _
    obtain ⟨hplain, q, hq, -, hpq⟩ := served_spec hrooted hp
    rw [hsroot] at hplain hq
    obtain ⟨hcu, hcd⟩ := hcond user huser h1 h2 (plain_of_root_plain hplain)
    have hbq : (ofBytes base).Within q := by
      refine Within.trans ?_ hq
      cases hr : (ofBytes user).root with
      | false => exact (within_append _ hr).trans (within_append _ (by decide))
      | true =>
        rw [append_rooted _ hr]
        exact hcu.resolve_left (by rw [hr]; decide)
    rcases hpq with rfl | rfl
    · exact hbq
    · rw [hdef]
      exact hbq.append hcd

/-- An ordinary user name and default file. -/
theorem confined_bob : Confined (bytes "/home") (bytes "bob") (bytes "index.html") :=
  (confined_iff (bytes "/home") (bytes "bob") (bytes "index.html") (by decide) (by decide) (by decide)).2 (by
    intro user huser _ _ _
    have : user = bytes "bob" := by
      rw [show unescapeUrl (bytes "bob") = .ok (bytes "bob") by decide +kernel] at huser
      exact (Except.ok.inj huser).symm
    subst this
    exact ⟨.inl (by decide), .inl (by decide)⟩)

/-- A file system without links and directories. -/
def plainFiles : FileSystem where
  canonical p := if p.root = true ∧ p.Plain then some p else none
  isDirectory _ := false
  canonical_ok := by
    intro p q h
    split at h
    · cases h; assumption
    · cases h

/-- `GET /~%2Fetc/passwd` with home directories below `/home` serves `/etc/public_html/passwd`. -/
theorem user_escapes :
    ∃ s p, createSession ⟨[(bytes "/~", bytes "/home")], bytes "index.html", false⟩ (bytes "GET")
        (userUrl (bytes "%2Fetc") (bytes "/passwd")) = .ok (some s) ∧
      served ⟨[(bytes "/~", bytes "/home")], bytes "index.html", false⟩ plainFiles s.root s.path = .ok p ∧
      p = ofBytes (bytes "/etc/public_html/passwd") ∧ ¬ (ofBytes (bytes "/home")).Within p :=
  ⟨⟨ofBytes (bytes "/etc/public_html"), ofBytes (bytes "passwd"), false⟩, ofBytes (bytes "/etc/public_html/passwd"),
    by decide +kernel, by decide +kernel, rfl, by decide +kernel⟩

end Getodac.StaticContent
