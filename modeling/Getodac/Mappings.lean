import Getodac.StaticContent
/-!
# Ordinary mappings of the static content plugin

A mapping whose URL prefix does not begin with `/~` serves the rest of the URL
below its directory. What passes the guard stays there, however the rest is
spelled, and only a rest that leads out of the directory is refused.
-/
open Paths Paths.Path

namespace Getodac.StaticContent

/-- What follows the mapping's prefix. `url.c_str()` ends at a NUL. -/
def remainder (first url : Bytes) : Bytes := (url.drop first.length).takeWhile (· ≠ 0)

/-- Whether the URL is served by the mapping: no earlier one fits. -/
def Config.Maps (cfg : Config) (first second url : Bytes) : Prop :=
  ∃ pre post, cfg.urls = pre ++ (first, second) :: post ∧ (∀ e ∈ pre, ¬ e.1 <+: url) ∧ first <+: url

section
variable {cfg : Config} {fs : FileSystem} {first second method url : Bytes}

theorem createSession_ordinary (hmap : cfg.Maps first second url) (hhome : ¬ bytes "/~" <+: first)
    (hmethod : method = bytes "GET" ∨ method = bytes "HEAD") :
    createSession cfg method url = (unescapeUrl (remainder first url)).map fun file =>
      some ⟨ofBytes second, (ofBytes file).lexicallyNormal, method = bytes "HEAD"⟩ := by
  obtain ⟨pre, post, hurls, hpre, hfirst⟩ := hmap
  have hok : ¬ (method ≠ bytes "GET" ∧ method ≠ bytes "HEAD") := fun h => hmethod.elim h.1 h.2
  unfold createSession
  rw [if_neg hok, find_mapping hurls hpre hfirst]
  dsimp only
  rw [if_neg fun h => hhome (List.isPrefixOf_iff_prefix.1 h)]
  rw [← remainder]
  cases unescapeUrl (remainder first url) <;> rfl

theorem createSession_method {s : Bound} (h : createSession cfg method url = .ok (some s)) :
    method = bytes "GET" ∨ method = bytes "HEAD" := by
  by_contra hno
  rw [createSession, if_pos (not_or.1 hno)] at h
  cases h

/-- A session of an ordinary mapping has the mapping's directory for its root. -/
theorem createSession_root {s : Bound} (hmap : cfg.Maps first second url) (hhome : ¬ bytes "/~" <+: first)
    (h : createSession cfg method url = .ok (some s)) : s.root = ofBytes second := by
  rw [createSession_ordinary hmap hhome (createSession_method h)] at h
  cases hfile : unescapeUrl (remainder first url) with
  | error e => rw [hfile] at h; cases h
  | ok file => rw [hfile] at h; cases h; rfl

/-- The default file adds a name that is not dot-dot, or nothing. -/
theorem served_confined {root path p : Path} (hroot : root.root = true) (hsep : sep ∉ cfg.defaultFile)
    (hdots : cfg.defaultFile ≠ dotdot) (h : served cfg fs root path = .ok p) :
    root.Within p ∧ dotdot ∉ p.names := by
  obtain ⟨-, q, hq, hplain, hp⟩ := served_spec hroot h
  have hqdots : dotdot ∉ q.names := fun hmem => (hplain _ hmem).2 rfl
  rcases hp with rfl | rfl
  · exact ⟨hq, hqdots⟩
  · obtain ⟨hrel, hnames⟩ := ofBytes_name hsep
    refine ⟨hq.trans (within_append q hrel), ?_⟩
    rw [append_names q hrel, hnames]
    intro hmem
    rcases List.mem_append.1 hmem with hmem | hmem
    · exact hqdots hmem
    · split at hmem
      · cases hmem
      · exact hdots (List.mem_singleton.1 hmem).symm

/-- A relative path that does not lead out of the root stays below it. -/
theorem within_of_relative {root path : Path} (hroot : root.root = true) (hplain : root.Plain)
    (hrel : path.root = false) (hpath : path.Plain ∨ path.names = [dot]) :
    root.Within (root / path).lexicallyNormal := by
  rcases hpath with hpath | hpath
  · rw [lexicallyNormal_of_plain (hplain.append hpath)]
    exact within_append root hrel
  · refine ⟨?_, ?_⟩
    · rw [lexicallyNormal_root, append_root root hrel]
    · rw [lexicallyNormal_append_dot hplain hroot hrel hpath]

theorem served_of_within {root path : Path} (hsym : cfg.allowSymlinks = true) (hslash : root.slash = false)
    (h : root.Within (root / path).lexicallyNormal) : ∃ p, served cfg fs root path = .ok p := by
  unfold served
  simp only [hsym, if_true]
  exact ⟨_, if_pos (startsWith_of_within h hslash)⟩

variable (fs method) in
/-- What an ordinary mapping serves lies below its directory, without dot-dot,
and with links allowed every relative remainder that does not lead out of the
directory is served. -/
theorem mapping_confined (hmap : cfg.Maps first second url) (hhome : ¬ bytes "/~" <+: first)
    (hroot : (ofBytes second).root = true) (hnorm : (ofBytes second).lexicallyNormal = ofBytes second)
    (hslash : (ofBytes second).slash = false) (hsep : sep ∉ cfg.defaultFile) (hdots : cfg.defaultFile ≠ dotdot) :
    (∀ s p, createSession cfg method url = .ok (some s) → served cfg fs s.root s.path = .ok p →
      (ofBytes second).Within p ∧ dotdot ∉ p.names) ∧
    (cfg.allowSymlinks = true → (method = bytes "GET" ∨ method = bytes "HEAD") →
      ∀ file, unescapeUrl (remainder first url) = .ok file → (ofBytes file).root = false →
        (ofBytes file).lexicallyNormal.names.head? ≠ some dotdot →
        ∃ s p, createSession cfg method url = .ok (some s) ∧ served cfg fs s.root s.path = .ok p) := by
  refine ⟨fun s p hs hp => ?_, fun hsym hmethod file hfile hrel hhead => ?_⟩
  · rw [createSession_root hmap hhome hs] at hp
    exact served_confined hroot hsep hdots hp
  · have hplain : (ofBytes second).Plain := hnorm ▸ plain_lexicallyNormal hroot
    have hwithin := within_of_relative hroot hplain (by rw [lexicallyNormal_root, hrel])
      (lexicallyNormal_relative hrel hhead)
    obtain ⟨p, hp⟩ := served_of_within hsym hslash hwithin
    refine ⟨⟨ofBytes second, (ofBytes file).lexicallyNormal, method = bytes "HEAD"⟩, p, ?_, hp⟩
    rw [createSession_ordinary hmap hhome hmethod, hfile]
    rfl

end

/-- A site below `/srv/www`, with a mapping before it that does not fit. -/
def docSite : Config := ⟨[(bytes "/doc/", bytes "/usr/share/doc"), (bytes "/", bytes "/srv/www")], bytes "index.html", true⟩

/-- `/a//%2e%2e/b` goes up and down again, below `/srv/www`. -/
theorem mapping_confined_site : ∃ s p, createSession docSite (bytes "GET") (bytes "/a//%2e%2e/b") = .ok (some s) ∧
    served docSite plainFiles s.root s.path = .ok p ∧ (ofBytes (bytes "/srv/www")).Within p ∧ dotdot ∉ p.names := by
  have hmap : docSite.Maps (bytes "/") (bytes "/srv/www") (bytes "/a//%2e%2e/b") :=
    ⟨[(bytes "/doc/", bytes "/usr/share/doc")], [], rfl, by decide +kernel, by decide +kernel⟩
  have hsite := mapping_confined plainFiles (bytes "GET") hmap (by decide +kernel)
    (by decide +kernel) (by decide +kernel) (by decide +kernel) (by decide +kernel) (by decide +kernel)
  obtain ⟨s, p, hs, hp⟩ := hsite.2 rfl (.inl rfl) (bytes "a//../b") (by decide +kernel) (by decide +kernel)
    (by decide +kernel)
  exact ⟨s, p, hs, hp, hsite.1 s p hs hp⟩

end Getodac.StaticContent
