import Getodac.Http
import Getodac.Utils
/-!
# `Dracon::RestfulRouter`

A router has a base URL and routes in the order of their creation; a route has a
pattern and a handler for each of its methods. `createHandler` calls the handler of the
first route whose pattern matches the URL, and that route throws if it does not know
the method: a later route that does is not asked (`refuses_known_method`). `finds_first`
says when the first route for URL and method is the one that is called, and
`finds_literal` that patterns without captures do not get in each other's way.

A handler is a value; calling it is the last thing `createHandler` does, so what it
returns is the handler with its argument.
-/

namespace Getodac.Restful

def slash : UInt8 := 47
def question : UInt8 := 63
def ampersand : UInt8 := 38
def equals : UInt8 := 61
def openBrace : UInt8 := 123
def closeBrace : UInt8 := 125

/-- A part of a pattern: whether it is captured, and its text or name. -/
abbrev Part := Bool × Bytes

structure ParsedRoute where
  capturedResources : Fields := []
  queryStrings : List (Bytes × Bytes) := []
  allButOPTIONSNodeMethods : Bytes := []
deriving DecidableEq, Repr

variable {H : Type}

/-! ## Routes -/

/-- `RestfullRoute`; the methods are a hash map. -/
structure Route (H : Type) where
  routeParts : List Part
  methods : List (Bytes × H) := []
  allMethods : Bytes := []
deriving DecidableEq, Repr

def routePart (part : Bytes) : Except Exc Part :=
  if part.length < 2 then .error (.response { statusCode := 400, body := bytes "Invalid route" })
  else if part.head? = some openBrace ∧ part.getLast? = some closeBrace then
    .ok (true, (part.drop 1).take (part.length - 2))
  else .ok (false, part)

def routeParts (route : Bytes) : Except Exc (List Part) := (split route slash).mapM routePart

namespace Route

def addMethodHandler (r : Route H) (method : Bytes) (creator : H) : Route H :=
  match r.methods.lookup method with
  | none =>
    { r with
      methods := r.methods ++ [(method, creator)]
      allMethods :=
        if method ≠ bytes "OPTIONS" then
          r.allMethods ++ if r.allMethods = [] then method else bytes ", " ++ method
        else r.allMethods }
  | some _ => { r with methods := r.methods.map fun e => if e.1 = method then (method, creator) else e }

/-- The loop of `createHandler` over the parts. -/
def capture : List Part → List Bytes → Fields → Option Fields
  | part :: parts, url :: urls, captures =>
    if part.1 then capture parts urls (captures.set part.2 url)
    else if part.2 ≠ url then none
    else capture parts urls captures
  | _, _, captures => some captures

def createHandler (r : Route H) (urlParts : List Bytes) (method : Bytes) : Except Exc (Option (Fields × H)) :=
  if urlParts.length ≠ r.routeParts.length then .ok none
  else
    match capture r.routeParts urlParts [] with
    | none => .ok none
    | some captures =>
      match r.methods.lookup method with
      | none => .error (.response { statusCode := 405, fields := [(bytes "Allow", r.allMethods)] })
      | some handler => .ok (some (captures, handler))

/-- As many segments as parts, and the literal ones equal. -/
def Matches (r : Route H) (segments : List Bytes) : Prop :=
  List.Forall₂ (fun (part : Part) segment => part.1 = true ∨ part.2 = segment) r.routeParts segments

instance (r : Route H) (segments : List Bytes) : Decidable (r.Matches segments) :=
  inferInstanceAs (Decidable (List.Forall₂ _ _ _))

def Knows (r : Route H) (method : Bytes) : Prop := (r.methods.lookup method).isSome = true

instance (r : Route H) (method : Bytes) : Decidable (r.Knows method) := inferInstanceAs (Decidable (_ = true))

end Route

/-! ## The router -/

/-- No two routes have one pattern. -/
structure Router (H : Type) where
  baseUrl : List Bytes
  routes : List (Route H)
  distinct : (routes.map (·.routeParts)).Nodup

/-- The loop over the pairs of the query string. Which of two bad escapes is reported is unspecified. -/
def queryPair (kvPair : Bytes) : Except Exc (Bytes × Bytes) :=
  let unescape (s : Bytes) : Except Exc Bytes := (unescapeUrl s).mapError fun what => .exception (bytes what)
  match split kvPair equals with
  | [k] => do .ok (← unescape k, [])
  | [k, v] => do .ok (← unescape k, ← unescape v)
  | _ => .error (.response { statusCode := 400, body := bytes "Invalid query strings" })

/-- `url.substr(0, qpos)`. -/
def path (url : Bytes) : Bytes := url.takeWhile (· ≠ question)

/-- The pairs of `url.substr(qpos + 1)`, none without a question mark. -/
def queryStrings (url : Bytes) : Except Exc (List (Bytes × Bytes)) :=
  (split (url.drop ((path url).length + 1)) ampersand).mapM queryPair

/-- The loop of `createHandler` over the routes. -/
def search (url : Bytes) (resources : List Bytes) (method : Bytes) :
    List (Route H) → Except Exc (Option (H × ParsedRoute))
  | [] => .ok none
  | route :: routes =>
    match route.createHandler resources method with
    | .error e => .error e
    | .ok none => search url resources method routes
    | .ok (some (captures, handler)) => do
      let queryStrings ← queryStrings url
      .ok (some (handler, ⟨captures, queryStrings, route.allMethods⟩))

namespace Router

/-- The constructor. -/
def ofBaseUrl (baseUrl : Bytes) : Router H := ⟨split baseUrl slash, [], List.nodup_nil⟩

/-- The route of the pattern, by its place, and the router with it. -/
def createRoute (r : Router H) (route : Bytes) : Except Exc (Router H × Nat) :=
  match routeParts route with
  | .error e => .error e
  | .ok parts =>
    if h : parts ∈ r.routes.map (·.routeParts) then .ok (r, (r.routes.map (·.routeParts)).idxOf parts)
    else
      .ok (⟨r.baseUrl, r.routes ++ [{ routeParts := parts }], by
        rw [List.map_append, List.nodup_append]
        exact ⟨r.distinct, List.nodup_singleton _, fun a ha b hb he => h (by simp_all)⟩⟩, r.routes.length)

theorem addMethodHandler_routeParts (r : Route H) (method : Bytes) (creator : H) :
    (r.addMethodHandler method creator).routeParts = r.routeParts := by
  unfold Route.addMethodHandler
  split <;> rfl

theorem modify_routeParts (routes : List (Route H)) (i : Nat) (method : Bytes) (creator : H) :
    (routes.modify i (·.addMethodHandler method creator)).map (·.routeParts) = routes.map (·.routeParts) := by
  refine List.ext_getElem (by simp) fun j h1 h2 => ?_
  simp only [List.getElem_map, List.getElem_modify]
  split
  · rw [addMethodHandler_routeParts]
  · rfl

/-- `addMethodHandler` of one of the routes. -/
def addMethodHandler (r : Router H) (i : Nat) (method : Bytes) (creator : H) : Router H :=
  ⟨r.baseUrl, r.routes.modify i (·.addMethodHandler method creator), by
    rw [modify_routeParts]
    exact r.distinct⟩

def createHandler (r : Router H) (url method : Bytes) : Except Exc (Option (H × ParsedRoute)) :=
  let resources := split (path url) slash
  if resources.length < r.baseUrl.length + 1 then .ok none
  else if resources.take r.baseUrl.length ≠ r.baseUrl then .ok none
  else search url (resources.drop r.baseUrl.length) method r.routes

end Router

/-- What a plugin calls to set up its routes. -/
inductive Call (H : Type) where
  | createRoute (route : Bytes)
  | addMethodHandler (i : Nat) (method : Bytes) (creator : H)

/-- A `createRoute` that throws leaves the router as it is. -/
def Router.call (r : Router H) : Call H → Router H
  | .createRoute route =>
    match r.createRoute route with
    | .error _ => r
    | .ok (r', _) => r'
  | .addMethodHandler i method creator => r.addMethodHandler i method creator

def build (baseUrl : Bytes) (calls : List (Call H)) : Router H := calls.foldl Router.call (.ofBaseUrl baseUrl)

/-- The segments of the URL after the base URL, if it starts with it. -/
def Router.segments (r : Router H) (url : Bytes) : Option (List Bytes) :=
  if r.baseUrl <+: split (path url) slash then some ((split (path url) slash).drop r.baseUrl.length) else none

/-- Every pair is a name, or a name and a value, in well-formed escapes. -/
def WellFormedQuery (url : Bytes) : Prop := ∃ pairs, queryStrings url = .ok pairs

/-- The first route that matches the segments and knows the method is the one whose handler is called. -/
def Router.CallsFirst (r : Router H) (url method : Bytes) (segments : List Bytes) : Prop :=
  ∃ route handler parsed,
    r.routes.find? (fun route => route.Matches segments ∧ route.Knows method) = some route ∧
    route.methods.lookup method = some handler ∧ r.createHandler url method = .ok (some (handler, parsed))

/-- The first route that matches the segments knows the method. -/
def Router.FirstKnows (r : Router H) (segments : List Bytes) (method : Bytes) : Prop :=
  ∀ route, r.routes.find? (fun route => route.Matches segments) = some route → route.Knows method

/-! ## What a route answers -/

theorem mapM_eq_ok_iff {α β ε : Type} {f : α → Except ε β} {as : List α} {bs : List β} :
    as.mapM f = .ok bs ↔ List.Forall₂ (fun a b => f a = .ok b) as bs := by
  induction as generalizing bs with
  | nil =>
    rw [List.mapM_nil, List.forall₂_nil_left_iff]
    exact ⟨fun h => (Except.ok.inj h).symm, fun h => h ▸ rfl⟩
  | cons a as ih =>
    rw [List.mapM_cons, List.forall₂_cons_left_iff]
    cases ha : f a with
    | error e =>
      constructor
      · intro h
        cases h
      · rintro ⟨b, cs, hb, -⟩
        cases hb
    | ok b =>
      constructor
      · intro h
        cases has : as.mapM f with
        | error e => rw [has] at h; cases h
        | ok cs =>
          rw [has] at h
          cases h
          exact ⟨b, cs, rfl, ih.1 has, rfl⟩
      · rintro ⟨c, cs, hc, hcs, rfl⟩
        cases hc
        rw [ih.2 hcs]
        rfl

theorem Route.capture_isSome_iff (parts : List Part) : ∀ (urls : List Bytes) (captures : Fields),
    urls.length = parts.length →
    ((capture parts urls captures).isSome = true ↔
      List.Forall₂ (fun (part : Part) segment => part.1 = true ∨ part.2 = segment) parts urls) := by
  induction parts with
  | nil =>
    intro urls captures hlen
    rw [List.length_eq_zero_iff.1 hlen]
    simp [capture]
  | cons part parts ih =>
    intro urls captures hlen
    cases urls with
    | nil => cases hlen
    | cons url urls =>
      have hlen' : urls.length = parts.length := Nat.succ.inj hlen
      rw [capture, List.forall₂_cons]
      by_cases hcap : part.1 = true
      · rw [if_pos hcap, ih urls _ hlen']
        exact ⟨fun h => ⟨.inl hcap, h⟩, And.right⟩
      · rw [if_neg hcap]
        by_cases heq : part.2 = url
        · rw [if_neg (not_not.2 heq), ih urls _ hlen']
          exact ⟨fun h => ⟨.inr heq, h⟩, And.right⟩
        · rw [if_pos heq]
          exact ⟨fun h => (by cases h), fun h => (h.1.elim hcap heq).elim⟩

variable {r : Route H} {segments : List Bytes} {method : Bytes}

theorem Route.createHandler_other (h : ¬ r.Matches segments) : r.createHandler segments method = .ok none := by
  unfold createHandler
  split
  · rfl
  · rename_i hlen
    have hnone : capture r.routeParts segments [] = none := by
      rw [← Option.not_isSome_iff_eq_none, capture_isSome_iff _ _ _ (not_not.1 hlen)]
      exact h
    rw [hnone]

theorem Route.Matches.capture_eq (h : r.Matches segments) :
    segments.length = r.routeParts.length ∧ ∃ captures, capture r.routeParts segments [] = some captures := by
  have hlen : segments.length = r.routeParts.length := (List.Forall₂.length_eq h).symm
  exact ⟨hlen, Option.isSome_iff_exists.1 ((capture_isSome_iff _ _ _ hlen).2 h)⟩

theorem Route.createHandler_refuses (h : r.Matches segments) (hk : ¬ r.Knows method) :
    r.createHandler segments method =
      .error (.response { statusCode := 405, fields := [(bytes "Allow", r.allMethods)] }) := by
  obtain ⟨hlen, captures, hc⟩ := h.capture_eq
  have hnone : r.methods.lookup method = none := Option.not_isSome_iff_eq_none.1 hk
  rw [createHandler, if_neg (not_not.2 hlen), hc]
  simp only [hnone]

theorem Route.createHandler_known (h : r.Matches segments) {handler : H} (hk : r.methods.lookup method = some handler) :
    ∃ captures, r.createHandler segments method = .ok (some (captures, handler)) := by
  obtain ⟨hlen, captures, hc⟩ := h.capture_eq
  refine ⟨captures, ?_⟩
  rw [createHandler, if_neg (not_not.2 hlen), hc]
  simp only [hk]

/-! ## The search -/

/-- The first route that matches decides. -/
theorem search_eq (url : Bytes) (routes : List (Route H)) :
    search url segments method routes =
      match routes.find? (fun route => route.Matches segments) with
      | none => .ok none
      | some route => search url segments method [route] := by
  induction routes with
  | nil => rfl
  | cons route routes ih =>
    by_cases hm : route.Matches segments
    · rw [List.find?_cons_of_pos (by simpa using hm)]
      by_cases hk : route.Knows method
      · obtain ⟨handler, hh⟩ := Option.isSome_iff_exists.1 hk
        obtain ⟨captures, hc⟩ := Route.createHandler_known hm hh
        simp only [search, hc]
      · simp only [search, Route.createHandler_refuses hm hk]
    · rw [List.find?_cons_of_neg (by simpa using hm), ← ih]
      simp only [search, Route.createHandler_other hm]

/-- With a segment after the base URL, `createHandler` is the search. -/
theorem Router.createHandler_eq (r : Router H) {url : Bytes} (hs : r.segments url = some segments) :
    r.createHandler url method = if segments = [] then .ok none else search url segments method r.routes := by
  unfold Router.segments at hs
  split at hs
  · rename_i hpre
    cases hs
    have htake : (split (path url) slash).take r.baseUrl.length = r.baseUrl := (List.prefix_iff_eq_take.1 hpre).symm
    unfold createHandler
    simp only [List.drop_eq_nil_iff, htake, ne_eq, not_true, if_false, Nat.lt_succ_iff]
  · cases hs

/-- The first route for the segments and the method, if the first for the segments knows the method. -/
theorem find_both {routes : List (Route H)} {route : Route H}
    (hf : routes.find? (fun route => route.Matches segments) = some route) (hk : route.Knows method) :
    routes.find? (fun route => route.Matches segments ∧ route.Knows method) = some route := by
  rw [List.find?_eq_some_iff_append] at hf ⊢
  obtain ⟨hm, before, after, he, hbefore⟩ := hf
  refine ⟨by simpa using ⟨of_decide_eq_true hm, hk⟩, before, after, he, fun x hx => ?_⟩
  have hx' := hbefore x hx
  simp only [Bool.not_eq_true', decide_eq_false_iff_not] at hx' ⊢
  exact fun h => hx' h.1

theorem Router.calls_first (r : Router H) {url : Bytes} (hs : r.segments url = some segments)
    (hq : WellFormedQuery url) (hr : ∃ route ∈ r.routes, route.Matches segments ∧ route.Knows method) :
    r.CallsFirst url method segments ↔ segments ≠ [] ∧ r.FirstKnows segments method := by
  obtain ⟨route, hmem, hm, -⟩ := hr
  obtain ⟨first, hfirst⟩ : ∃ first, r.routes.find? (fun route => route.Matches segments) = some first := by
    rw [← Option.isSome_iff_exists, List.find?_isSome]
    exact ⟨route, hmem, by simpa using hm⟩
  have hfm : first.Matches segments := by simpa using List.find?_some hfirst
  have hcreate : r.createHandler url method = _ := r.createHandler_eq hs
  rw [search_eq, hfirst] at hcreate
  constructor
  · rintro ⟨_, handler, parsed, -, -, hcall⟩
    rw [hcreate] at hcall
    split at hcall
    · cases hcall
    · refine ⟨‹_›, fun other hother => ?_⟩
      obtain rfl : first = other := Option.some.inj (hfirst.symm.trans hother)
      by_contra hk
      simp only [search, Route.createHandler_refuses hfm hk] at hcall
      cases hcall
  · rintro ⟨hne, hknows⟩
    have hk := hknows first hfirst
    obtain ⟨handler, hh⟩ := Option.isSome_iff_exists.1 hk
    obtain ⟨captures, hc⟩ := Route.createHandler_known hfm hh
    obtain ⟨pairs, hp⟩ := hq
    refine ⟨first, handler, ⟨captures, pairs, first.allMethods⟩, find_both hfirst hk, hh, ?_⟩
    rw [hcreate, if_neg hne]
    simp only [search, hc, hp]
    rfl

/-- A route for URL and method is called, the first one, exactly if there is a segment after the base URL and the first
route that matches the segments knows the method. -/
theorem finds_first (baseUrl : Bytes) (calls : List (Call H)) (url method : Bytes) (segments : List Bytes)
    (hs : (build baseUrl calls).segments url = some segments) (hq : WellFormedQuery url)
    (hr : ∃ route ∈ (build baseUrl calls).routes, route.Matches segments ∧ route.Knows method) :
    (build baseUrl calls).CallsFirst url method segments ↔
      segments ≠ [] ∧ (build baseUrl calls).FirstKnows segments method :=
  (build baseUrl calls).calls_first hs hq hr

def customerRoutes : List (Call Nat) :=
  [.createRoute (bytes "customers/{customerId}"), .addMethodHandler 0 (bytes "GET") 0,
   .createRoute (bytes "customers/all"), .addMethodHandler 1 (bytes "POST") 1]

theorem finds_customer : (build (bytes "/v1") customerRoutes).CallsFirst (bytes "/v1/customers/7?a=b") (bytes "GET")
    [bytes "customers", bytes "7"] :=
  (finds_first (bytes "/v1") customerRoutes (bytes "/v1/customers/7?a=b") (bytes "GET") [bytes "customers", bytes "7"]
    (by decide +kernel) ⟨[(bytes "a", bytes "b")], by decide +kernel⟩ (by decide +kernel)).2
    ⟨by decide +kernel, fun route h => by
      have hknows : ((build (bytes "/v1") customerRoutes).routes.find? fun route =>
          route.Matches [bytes "customers", bytes "7"]).all (·.Knows (bytes "GET")) = true := by decide +kernel
      rw [h] at hknows
      simpa using hknows⟩

/-- `POST /v1/customers/all` has a route, and is refused by the route for one customer; and a route for the base URL
itself is never found. -/
theorem refuses_known_method :
    ((build (bytes "/v1") customerRoutes).routes.any
      fun route => route.Matches [bytes "customers", bytes "all"] ∧ route.Knows (bytes "POST")) = true ∧
    (build (bytes "/v1") customerRoutes).createHandler (bytes "/v1/customers/all") (bytes "POST") =
      .error (.response { statusCode := 405, fields := [(bytes "Allow", bytes "GET")] }) ∧
    ((build (bytes "/v1") [.createRoute (bytes "/"), .addMethodHandler 0 (bytes "GET") (0 : Nat)]).routes.any
      fun route => route.Matches [] ∧ route.Knows (bytes "GET")) = true ∧
    (build (bytes "/v1") [.createRoute (bytes "/"), .addMethodHandler 0 (bytes "GET") (0 : Nat)]).createHandler
      (bytes "/v1") (bytes "GET") = .ok none := by
  decide +kernel

/-! ## Patterns without captures -/

theorem Route.Matches.literal (h : r.Matches segments) (hl : ∀ part ∈ r.routeParts, part.1 = false) :
    r.routeParts = segments.map fun segment => (false, segment) := by
  obtain ⟨parts, methods, allMethods⟩ := r
  simp only [Matches] at h hl ⊢
  induction h with
  | nil => rfl
  | @cons part segment parts segments hp _ ih =>
    have hlit : part.1 = false := hl part List.mem_cons_self
    have htext : part.2 = segment := hp.resolve_left (by simp [hlit])
    rw [List.map_cons, ← ih fun p hp => hl p (List.mem_cons_of_mem _ hp), ← hlit, ← htext]

/-- Without captures every route is found: no two patterns match the same segments. -/
theorem Router.finds_literal (r : Router H) {url : Bytes} (hl : ∀ route ∈ r.routes, ∀ part ∈ route.routeParts, part.1 = false)
    (hs : r.segments url = some segments) (hne : segments ≠ []) (hq : WellFormedQuery url) {route : Route H}
    (hmem : route ∈ r.routes) (hm : route.Matches segments) (hk : route.Knows method) :
    r.CallsFirst url method segments := by
  refine (r.calls_first hs hq ⟨route, hmem, hm, hk⟩).2 ⟨hne, fun first hfirst => ?_⟩
  have hfm : first.Matches segments := by simpa using List.find?_some hfirst
  have hfmem : first ∈ r.routes := List.mem_of_find?_eq_some hfirst
  have hparts : first.routeParts = route.routeParts :=
    (hfm.literal (hl first hfmem)).trans (hm.literal (hl route hmem)).symm
  have heq : first = route := List.inj_on_of_nodup_map r.distinct hfmem hmem hparts
  rwa [heq]

end Getodac.Restful
