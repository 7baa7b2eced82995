import Getodac.Lib.FileTree
import Getodac.StaticContent
import Getodac.Text
/-!
# Static content and symbolic links

With `allow_symlinks` off, `static_content_session` checks the canonical path and
then appends the default file if that path is a directory. What it maps is the file
the result leads to. `contained_iff` says when all these files lie below the root of
the mapping: when those below each directory that the mapping serves from do, and
those that the default files in it lead to.
-/
open Paths Paths.Path FileTree

namespace Getodac.StaticContent

/-- `canonical` and `is_directory` on a tree. -/
def fileSystem (t : Tree) : FileSystem where
  canonical := t.canonical
  isDirectory := t.isDirectory
  canonical_ok := Tree.canonical_plain

/-- The location of the file that `static_content_session` maps, if it gets there. -/
def mapped (cfg : Config) (t : Tree) (root path : Path) : Option Path :=
  match served cfg (fileSystem t) root path with
  | .ok p => (t.canonical p).filter t.isFile
  | .error _ => none

/-- Every file that is served through the mapping from `first` to `second` lies in `second`. -/
def Contained (t : Tree) (first second defaultFile : Bytes) : Prop :=
  ∀ (cfg : Config) (pre post : List (Bytes × Bytes)) (method url : Bytes) (s : Bound) (q : Path),
    cfg.urls = pre ++ (first, second) :: post → cfg.defaultFile = defaultFile → cfg.allowSymlinks = false →
    (∀ e ∈ pre, ¬ e.1 <+: url) → first <+: url →
    createSession cfg method url = .ok (some s) → mapped cfg t s.root s.path = some q → (ofBytes second).Within q

/-- The directories the mapping serves from: `second`, or `public_html` of every user that a URL can name, where the name
may be an absolute path. -/
inductive ServesFrom (first second : Bytes) : Path → Prop where
  | mapping (h : ¬ bytes "/~" <+: first) : ServesFrom first second (ofBytes second)
  | home {url user file : Bytes} (h : bytes "/~" <+: first) (hfirst : first <+: url)
      (huser : unescapeUrl ((url.drop 2).take (slashPos url - 2)) = .ok user) (hdot : user ≠ dot) (hdotdot : user ≠ dotdot)
      (hfile : unescapeUrl (url.drop (slashPos url + 1)) = .ok file) :
      ServesFrom first second (ofBytes second / ofBytes user / publicHtml)

/-- The files below `root`, and those that the default files in its directories lead to, lie in `second`. -/
def Inside (t : Tree) (second defaultFile : Bytes) (root : Path) : Prop :=
  ∀ c, t.canonical c = some c → root.Within c →
    if t.isDirectory c = true then
      ∀ q, t.canonical (c / ofBytes defaultFile) = some q → t.isFile q = true → (ofBytes second).Within q
    else t.isFile c = true → (ofBytes second).Within c

/-! ## What passes the check -/

/-- With `allow_symlinks` off what is mapped lies at a canonical path below the root, or is the default file of one. -/
theorem mapped_spec {cfg : Config} {t : Tree} {root path q : Path} (hr : root.root = true) (hsym : cfg.allowSymlinks = false)
    (h : mapped cfg t root path = some q) :
    ∃ c, t.canonical c = some c ∧ root.Within c ∧ t.isFile q = true ∧
      if t.isDirectory c = true then t.canonical (c / ofBytes cfg.defaultFile) = some q else q = c := by
  unfold mapped at h
  split at h
  · rename_i p hp
    obtain ⟨hcan, hfile⟩ := Option.filter_eq_some_iff.1 h
    unfold served at hp
    simp only [hsym, Bool.false_eq_true, if_false] at hp
    cases hc : (fileSystem t).canonical (root / path).lexicallyNormal with
    | none =>
      rw [hc] at hp
      cases hp
    | some c =>
      rw [hc] at hp
      change (if c.startsWith root = true then Except.ok (if t.isDirectory c = true then _ else c) else _) = _ at hp
      have hidem := Tree.canonical_idem hc
      split at hp
      · rename_i hstart
        refine ⟨c, hidem, within_of_startsWith hr hstart, hfile, ?_⟩
        split at hp
        · rename_i hdir
          cases hp
          rw [if_pos hdir]
          exact hcan
        · rename_i hdir
          cases hp
          rw [if_neg hdir]
          exact Option.some.inj (hcan.symm.trans hidem)
      · cases hp
  · cases h

/-- And a path that leads to a canonical one below the root is mapped. -/
theorem mapped_of_inside {cfg : Config} {t : Tree} {root path c q : Path} (hsym : cfg.allowSymlinks = false)
    (hslash : root.slash = false) (hc : t.canonical c = some c) (hin : root.Within c)
    (hpath : (root / path).lexicallyNormal = c) (hfile : t.isFile q = true)
    (hq : if t.isDirectory c = true then t.canonical (c / ofBytes cfg.defaultFile) = some q else q = c) :
    mapped cfg t root path = some q := by
  have hserved : served cfg (fileSystem t) root path =
      .ok (if t.isDirectory c = true then c / ofBytes cfg.defaultFile else c) := by
    unfold served
    simp only [hsym, Bool.false_eq_true, if_false, hpath]
    rw [show (fileSystem t).canonical = t.canonical from rfl, hc]
    exact if_pos (startsWith_of_within hin hslash)
  unfold mapped
  rw [hserved]
  refine Option.filter_eq_some_iff.2 ⟨?_, hfile⟩
  split at hq
  · rename_i hdir
    rw [if_pos hdir]
    exact hq
  · rename_i hdir
    rw [if_neg hdir, hq]
    exact hc

theorem createSession_servesFrom {cfg : Config} {pre post : List (Bytes × Bytes)} {first second method url : Bytes}
    (hcfg : cfg.urls = pre ++ (first, second) :: post) (hpre : ∀ e ∈ pre, ¬ e.1 <+: url) (hfirst : first <+: url) {s : Bound}
    (h : createSession cfg method url = .ok (some s)) : ServesFrom first second s.root := by
  have hfind := find_mapping hcfg hpre hfirst
  unfold createSession at h
  split at h
  · cases h
  · rw [hfind] at h
    dsimp only at h
    split at h
    · rename_i hhome
      obtain ⟨user, huser, hdot, hdotdot, hroot⟩ := userSession_spec h
      obtain ⟨file, hfile⟩ := userSession_file h
      rw [hroot]
      exact .home (List.isPrefixOf_iff_prefix.1 hhome) hfirst huser hdot hdotdot hfile
    · rename_i hhome
      split at h
      · cases h
      · cases h
        exact .mapping fun hp => hhome (List.isPrefixOf_iff_prefix.2 hp)

/-! ## A URL for every path below the root -/

def hexDigit (d : UInt8) : UInt8 := if d < 10 then 48 + d else 87 + d

/-- Every byte as a percent escape. -/
def escapeUrl : Bytes → Bytes
  | [] => []
  | b :: bs => percent :: hexDigit (b >>> 4) :: hexDigit (b &&& 15) :: escapeUrl bs

theorem hexDigit_value : ∀ n < 16, Octets.hexDigit (hexDigit (UInt8.ofNat n)) = some n := by decide

theorem shiftRight_eq (b : UInt8) : b >>> 4 = UInt8.ofNat (b.toNat / 16) := by
  have hlt := b.toNat_lt
  apply UInt8.toNat_inj.1
  rw [UInt8.toNat_shiftRight, UInt8.toNat_ofNat', Nat.mod_eq_of_lt (a := b.toNat / 16) (by omega)]
  exact Nat.shiftRight_eq_div_pow b.toNat 4

theorem and_eq (b : UInt8) : b &&& 15 = UInt8.ofNat (b.toNat % 16) := by
  apply UInt8.toNat_inj.1
  rw [UInt8.toNat_and, UInt8.toNat_ofNat', Nat.mod_eq_of_lt (by omega)]
  exact Nat.and_two_pow_sub_one_eq_mod b.toNat 4

theorem escapeUrl_encodes (bs : Bytes) : Percent.Encodes (fun _ => False) (escapeUrl bs) bs := by
  induction bs with
  | nil => exact .nil
  | cons b bs ih =>
    have hlt := b.toNat_lt
    have hescape := Percent.Encodes.escape (hexDigit_value (b.toNat / 16) (by omega)) (hexDigit_value (b.toNat % 16) (by omega)) ih
    rwa [Nat.div_add_mod, UInt8.ofNat_toNat, ← shiftRight_eq, ← and_eq] at hescape

theorem unescapeUrl_escapeUrl (bs : Bytes) : unescapeUrl (escapeUrl bs) = .ok bs ∧ 0 ∉ escapeUrl bs :=
  have hencodes := escapeUrl_encodes bs
  ⟨unescapeUrl_encodes (fun _ h => h.elim) hencodes, hencodes.not_mem not_false (by decide) (by decide) (by decide)⟩

theorem createSession_mapping (first second defaultFile file : Bytes) (hhome : ¬ bytes "/~" <+: first) :
    createSession ⟨[(first, second)], defaultFile, false⟩ (bytes "GET") (first ++ escapeUrl file) =
      .ok (some ⟨ofBytes second, (ofBytes file).lexicallyNormal, false⟩) := by
  obtain ⟨hesc, hnul⟩ := unescapeUrl_escapeUrl file
  have hfind : [(first, second)].find? (·.1.isPrefixOf (first ++ escapeUrl file)) = some (first, second) :=
    find_mapping (List.nil_append _).symm (by simp) ⟨_, rfl⟩
  have htake : (escapeUrl file).takeWhile (· ≠ 0) = escapeUrl file :=
    List.takeWhile_eq_self_iff.2 fun b hb => by
      rw [decide_eq_true_eq]
      rintro rfl
      exact hnul hb
  unfold createSession
  rw [if_neg (by decide), hfind]
  dsimp only
  rw [if_neg (fun h => hhome (List.isPrefixOf_iff_prefix.1 h)), List.drop_left, htake, hesc]
  rfl

/-- An absolute path behind a mapping. -/
theorem ofBytes_absolute {c : Path} (hc : c.root = true) (hslash : c.slash = false) : ofBytes (sep :: joined c.names) = c := by
  have hnames : (ofBytes (sep :: joined c.names)).names = c.names :=
    (ofBytes_append_names [] (joined c.names)).trans (ofBytes_joined c.names_ok)
  refine Path.ext' (hc ▸ rfl) hnames (hslash ▸ ?_)
  by_cases h0 : c.names = []
  · rw [h0]
    rfl
  · refine ofBytes_slash ?_
    have hne : joined c.names ≠ [] := fun hnil => h0 (by rw [← ofBytes_joined c.names_ok, hnil]; rfl)
    rw [List.getLast?_cons_of_ne_nil hne]
    exact joined_getLast c.names_ok

theorem exists_userUrl {url : Bytes} (h : bytes "/~" <+: url) :
    ∃ u rest, url = userUrl u rest ∧ sep ∉ u ∧ (rest = [] ∨ rest.head? = some sep) := by
  obtain ⟨w, rfl⟩ := h
  refine ⟨w.takeWhile (· ≠ sep), w.dropWhile (· ≠ sep), by rw [userUrl, List.takeWhile_append_dropWhile], ?_, ?_⟩
  · intro hmem
    simpa using List.mem_takeWhile_imp hmem
  · cases hrest : w.dropWhile (· ≠ sep) with
    | nil => exact .inl rfl
    | cons c cs =>
      have hc := List.head?_dropWhile_not (· ≠ sep) w
      rw [hrest] at hc
      exact .inr (by simpa using hc)

/-- A URL of a user can be continued by a separator and more, after one that ends the user. -/
theorem userSession_continue (second : Bytes) {url user file : Bytes} (hhome : bytes "/~" <+: url)
    (huser : unescapeUrl ((url.drop 2).take (slashPos url - 2)) = .ok user) (hdot : user ≠ dot) (hdotdot : user ≠ dotdot)
    (hfile : unescapeUrl (url.drop (slashPos url + 1)) = .ok file) (more : Bytes) :
    ∃ url', url <+: url' ∧ userSession second false url' =
      .ok (some ⟨ofBytes second / ofBytes user / publicHtml, (ofBytes (file ++ sep :: more)).lexicallyNormal, false⟩) := by
  obtain ⟨u, rest, rfl, hu, hrest⟩ := exists_userUrl hhome
  have hdrop : ∀ rest', (userUrl u rest').drop (2 + u.length + 1) = rest'.drop 1 := by
    intro rest'
    rw [← List.drop_drop, userUrl, ← List.append_assoc]
    exact congrArg _ (List.drop_left' (by simp [bytes]; omega))
  rw [user_of_userUrl hu hrest] at huser
  rw [slashPos_userUrl hu hrest, hdrop] at hfile
  have hmore : unescapeUrl (rest.drop 1 ++ sep :: escapeUrl more) = .ok (file ++ sep :: more) := by
    refine unescapeUrl_append hfile ?_
    rw [unescapeUrl_cons (by decide), (unescapeUrl_escapeUrl more).1]
    rfl
  refine ⟨userUrl u (sep :: (rest.drop 1 ++ sep :: escapeUrl more)), ?_, ?_⟩
  · refine (List.prefix_append_right_inj _).2 ((List.prefix_append_right_inj _).2 ?_)
    rcases hrest with rfl | h
    · exact List.nil_prefix
    · cases rest with
      | nil => cases h
      | cons c cs =>
        cases h
        exact List.prefix_append (sep :: cs) _
  · have hhead : sep :: (rest.drop 1 ++ sep :: escapeUrl more) = [] ∨
        (sep :: (rest.drop 1 ++ sep :: escapeUrl more)).head? = some sep := .inr rfl
    have hlong : 1 < (userUrl u (sep :: (rest.drop 1 ++ sep :: escapeUrl more))).length - (2 + u.length) := by
      simp only [userUrl, List.length_append, List.length_cons, show (bytes "/~").length = 2 from rfl]
      omega
    unfold userSession
    simp only [user_of_userUrl hu hhead, huser]
    rw [if_neg (by simp [hdot, hdotdot]), slashPos_userUrl hu hhead, if_pos hlong, hdrop, List.drop_one, List.tail_cons, hmore]

theorem ServesFrom.rooted {t : Tree} {first second : Bytes} {root : Path}
    (hroot : t.canonical (ofBytes second) = some (ofBytes second)) (h : ServesFrom first second root) :
    root.root = true ∧ root.slash = false := by
  obtain ⟨-, hrooted, hslash⟩ := Tree.canonical_iff.1 hroot
  cases h with
  | mapping => exact ⟨hrooted, hslash⟩
  | home => exact ⟨rooted_append (rooted_append hrooted _) _, append_slash _ (by decide) (by decide)⟩

/-- Each canonical path below a directory that the mapping serves from is what some URL leads to. -/
theorem exists_url {t : Tree} {first second : Bytes} {root c : Path} (defaultFile : Bytes)
    (hroot : t.canonical (ofBytes second) = some (ofBytes second)) (hfrom : ServesFrom first second root)
    (hc : t.canonical c = some c) :
    ∃ url s, first <+: url ∧ createSession ⟨[(first, second)], defaultFile, false⟩ (bytes "GET") url = .ok (some s) ∧
      s.root = root ∧ (root / s.path).lexicallyNormal = c := by
  obtain ⟨-, hcroot, hcslash⟩ := Tree.canonical_iff.1 hc
  have hplain := (Tree.canonical_plain hc).2
  have hrooted := (hfrom.rooted hroot).1
  cases hfrom with
  | mapping hhome =>
    refine ⟨_, _, ⟨_, rfl⟩, createSession_mapping first second defaultFile (sep :: joined c.names) hhome, rfl, ?_⟩
    dsimp only
    rw [ofBytes_absolute hcroot hcslash, lexicallyNormal_of_plain hplain, append_rooted _ hcroot,
      lexicallyNormal_of_plain hplain]
  | @home url user file hhome hfirst huser hdot hdotdot hfile =>
    -- up from wherever the URL leads, and down to `c`
    obtain ⟨k, hk⟩ : ∃ k, k = (ofBytes file).names.length + (ofBytes second / ofBytes user / publicHtml).names.length :=
      ⟨_, rfl⟩
    obtain ⟨url', hurl', hsession⟩ :=
      userSession_continue second (hhome.trans hfirst) huser hdot hdotdot hfile (climb c.names k)
    have hfind : [(first, second)].find? (·.1.isPrefixOf url') = some (first, second) :=
      find_mapping (List.nil_append _).symm (by simp) (hfirst.trans hurl')
    refine ⟨url', ⟨ofBytes second / ofBytes user / publicHtml, (ofBytes (file ++ sep :: climb c.names k)).lexicallyNormal,
      false⟩, hfirst.trans hurl', ?_, rfl, ?_⟩
    · unfold createSession
      rw [if_neg (by decide), hfind]
      dsimp only
      rw [if_pos (List.isPrefixOf_iff_prefix.2 hhome)]
      exact hsession
    · refine lexicallyNormal_climb hrooted ?_ hcroot hplain hcslash
        ((ofBytes_append_names _ _).trans (by rw [ofBytes_climb c.names_ok, List.append_assoc])) (by rw [hk]) fun hne => ?_
      · rw [append_names _ (by decide)]
        exact List.append_ne_nil_of_right_ne_nil _ (by decide)
      · obtain ⟨hne', hlast⟩ := climb_getLast c.names_ok hne k
        refine ofBytes_slash ?_
        rw [List.getLast?_append_of_ne_nil _ (List.cons_ne_nil sep _), List.getLast?_cons_of_ne_nil hne']
        exact hlast

/-- Let the root of a mapping be canonical. What the mapping serves lies in the root exactly if this is so for every directory
it serves from: for the files below it, and for those its default files lead to. -/
theorem contained_iff (t : Tree) (first second defaultFile : Bytes)
    (hroot : t.canonical (ofBytes second) = some (ofBytes second)) :
    Contained t first second defaultFile ↔ ∀ root, ServesFrom first second root → Inside t second defaultFile root := by
  constructor
  · intro hcont root hfrom c hc hin
    obtain ⟨url, s, hfirst, hs, rfl, hpath⟩ := exists_url defaultFile hroot hfrom hc
    have hserved : ∀ q, t.isFile q = true →
        (if t.isDirectory c = true then t.canonical (c / ofBytes defaultFile) = some q else q = c) →
        (ofBytes second).Within q := fun q hfile hq =>
      hcont _ [] [] _ url s q rfl rfl rfl (by simp) hfirst hs
        (mapped_of_inside rfl (hfrom.rooted hroot).2 hc hin hpath hfile hq)
    split
    · rename_i hdir
      exact fun q hcan hfile => hserved q hfile (by rw [if_pos hdir]; exact hcan)
    · rename_i hdir
      exact fun hfile => hserved c hfile (by rw [if_neg hdir])
  · intro hinside cfg pre post method url s q hcfg hdefault hsym hpre hfirst hs hq
    have hfrom := createSession_servesFrom hcfg hpre hfirst hs
    obtain ⟨c, hc, hin, hfile, hlead⟩ := mapped_spec (hfrom.rooted hroot).1 hsym hq
    have hbelow := hinside s.root hfrom c hc hin
    split at hlead
    · rename_i hdir
      rw [if_pos hdir] at hbelow
      rw [hdefault] at hlead
      exact hbelow q hlead hfile
    · rename_i hdir
      rw [if_neg hdir] at hbelow
      rw [hlead] at hfile ⊢
      exact hbelow hfile

/-! ## A site with an index -/

/-- `/var/www` with this `index.html`, and `/etc/passwd`. -/
def site (index : Entry) : Tree where
  entry l :=
    if l = [bytes "var"] ∨ l = [bytes "var", bytes "www"] ∨ l = [bytes "etc"] then some .directory
    else if l = [bytes "var", bytes "www", bytes "index.html"] then some index
    else if l = [bytes "etc", bytes "passwd"] then some .file
    else none
  maxLinks := 40

theorem site_no_links (l : List Name) (target : Path) : (site .file).entry l ≠ some (.link target) := by
  simp only [site]
  split
  · simp
  · split
    · simp
    · split <;> simp

/-- The index is a file. -/
theorem contained_site : Contained (site .file) (bytes "/") (bytes "/var/www") (bytes "index.html") := by
  refine (contained_iff (site .file) (bytes "/") (bytes "/var/www") (bytes "index.html") (by decide +kernel)).2 ?_
  rintro root (_ | ⟨hhome, -⟩) d hd hin
  case home => exact absurd hhome (by decide)
  split
  case isFalse => exact fun _ => hin
  intro q hcan _
  have hnames : (d / ofBytes (bytes "index.html")).names = d.names ++ [bytes "index.html"] := append_names d (by decide)
  have hplain : (d / ofBytes (bytes "index.html")).Plain := by
    intro n hn
    rw [hnames] at hn
    rcases List.mem_append.1 hn with hn | hn
    · exact (Tree.canonical_plain hd).2 n hn
    · rw [List.mem_singleton.1 hn]
      decide
  refine ⟨hin.1.trans ((Tree.canonical_plain hd).1.trans (Tree.canonical_plain hcan).1.symm), hin.2.trans ?_⟩
  rw [Tree.canonical_straight site_no_links hplain rfl hcan, hnames]
  exact List.prefix_append _ _

/-- The index is a link to `/etc/passwd`: `GET /` serves it. -/
theorem index_escapes :
    let t := site (.link (ofBytes (bytes "/etc/passwd")))
    let cfg : Config := ⟨[(bytes "/", bytes "/var/www")], bytes "index.html", false⟩
    t.canonical (ofBytes (bytes "/var/www")) = some (ofBytes (bytes "/var/www")) ∧
    t.isDirectory (ofBytes (bytes "/var/www")) = true ∧
    ∃ s q, createSession cfg (bytes "GET") (bytes "/") = .ok (some s) ∧ mapped cfg t s.root s.path = some q ∧
      q = ofBytes (bytes "/etc/passwd") ∧ ¬ (ofBytes (bytes "/var/www")).Within q := by
  refine ⟨by decide +kernel, by decide +kernel, ⟨ofBytes (bytes "/var/www"), ofBytes [], false⟩,
    ofBytes (bytes "/etc/passwd"), by decide +kernel, by decide +kernel, rfl, by decide +kernel⟩

end Getodac.StaticContent
