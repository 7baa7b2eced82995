import Getodac.RestfulRegistry
/-!
# What a handler of a `RestfulRouter` is told about the URL

A URL is written from a pattern, a value for each of its captures and a list of
pairs for the query string, with slashes and ampersands as many as one likes.
`captures_recovered` and `query_recovered`: the handler gets back the values and
the pairs.

The base URL of a router must have no question mark: the path of a URL ends at the
first one, so no URL has a base URL with one (`base_question`).
-/

namespace Getodac.Restful

open Splitting (Spaced fields)
open Percent (Encodes)

variable {H : Type}

/-! ## Query strings -/

/-- A byte that may stand for itself in a query string. -/
def Unreserved (c : UInt8) : Prop := c ≠ percent ∧ c ≠ ampersand ∧ c ≠ equals ∧ c ≠ plus

instance (c : UInt8) : Decidable (Unreserved c) := inferInstanceAs (Decidable (_ ∧ _))

/-- The text of a key and a value; without a value the equals sign may be there or not. -/
inductive PairText : Bytes → Bytes × Bytes → Prop where
  | key {text key : Bytes} (h : Encodes Unreserved text key) : PairText text (key, [])
  | both {text text' key value : Bytes} (h : Encodes Unreserved text key) (h' : Encodes Unreserved text' value) :
      PairText (text ++ equals :: text') (key, value)

/-- The text of a list of pairs. -/
def PairsText (text : Bytes) (pairs : List (Bytes × Bytes)) : Prop :=
  ∃ texts, List.Forall₂ PairText texts pairs ∧ Spaced ampersand texts text

theorem equals_not_mem {text bs : Bytes} (h : Encodes Unreserved text bs) : equals ∉ text :=
  h.not_mem (by decide) (by decide) (by decide) (by decide)

theorem ampersand_not_mem {text bs : Bytes} (h : Encodes Unreserved text bs) : ampersand ∉ text :=
  h.not_mem (by decide) (by decide) (by decide) (by decide)

theorem unescapeUrl_text {text bs : Bytes} (h : Encodes Unreserved text bs) : unescapeUrl text = .ok bs :=
  unescapeUrl_encodes (fun _ hc => ⟨hc.1, hc.2.2.2⟩) h

theorem PairText.ok {text : Bytes} {pair : Bytes × Bytes} (h : PairText text pair) (hkey : pair.1 ≠ []) :
    text ≠ [] ∧ ampersand ∉ text := by
  cases h with
  | key h => exact ⟨mt h.nil_iff.1 hkey, ampersand_not_mem h⟩
  | both h h' =>
    have hne : ampersand ≠ equals := by decide
    refine ⟨by simp, ?_⟩
    simp [ampersand_not_mem h, ampersand_not_mem h', hne]

theorem queryPair_text {text : Bytes} {pair : Bytes × Bytes} (h : PairText text pair) (hkey : pair.1 ≠ []) :
    queryPair text = .ok pair := by
  cases h with
  | @key text key h =>
    have hsplit : split text equals = [text] := by
      rw [split_eq_fields, Splitting.fields_free (equals_not_mem h), if_neg (mt h.nil_iff.1 hkey)]
    simp only [queryPair, hsplit, unescapeUrl_text h]
    rfl
  | @both text text' key value h h' =>
    have hsplit : split (text ++ equals :: text') equals = text :: if text' = [] then [] else [text'] := by
      rw [split_eq_fields, Splitting.fields_append (equals_not_mem h), if_neg (mt h.nil_iff.1 hkey),
        Splitting.fields_free (equals_not_mem h')]
    by_cases hvalue : value = []
    · simp only [queryPair, hsplit, if_pos (h'.nil_iff.2 hvalue), unescapeUrl_text h, hvalue]
      rfl
    · simp only [queryPair, hsplit, if_neg (mt h'.nil_iff.1 hvalue), unescapeUrl_text h, unescapeUrl_text h']
      rfl

theorem pairTexts_ok {texts : List Bytes} {pairs : List (Bytes × Bytes)} (h : List.Forall₂ PairText texts pairs)
    (hkeys : ∀ p ∈ pairs, p.1 ≠ []) :
    (∀ t ∈ texts, t ≠ [] ∧ ampersand ∉ t) ∧ List.Forall₂ (fun t p => queryPair t = .ok p) texts pairs := by
  induction h with
  | nil => exact ⟨by simp, .nil⟩
  | cons htext _ ih =>
    have hkey := hkeys _ List.mem_cons_self
    obtain ⟨hall, hpairs⟩ := ih fun p hp => hkeys p (List.mem_cons_of_mem _ hp)
    exact ⟨List.forall_mem_cons.2 ⟨htext.ok hkey, hall⟩, .cons (queryPair_text htext hkey) hpairs⟩

theorem split_pairs {text : Bytes} {pairs : List (Bytes × Bytes)} (h : PairsText text pairs)
    (hkeys : ∀ p ∈ pairs, p.1 ≠ []) : (split text ampersand).mapM queryPair = .ok pairs := by
  obtain ⟨texts, htexts, hspaced⟩ := h
  obtain ⟨hall, hpairs⟩ := pairTexts_ok htexts hkeys
  rw [split_eq_fields, Splitting.fields_spaced hspaced hall, mapM_eq_ok_iff]
  exact hpairs

/-! ## Path and query -/

/-- What follows the path of a URL: nothing, or a question mark and anything. -/
def Query (query : Bytes) : Prop := ∀ c ∈ query.head?, c = question

theorem path_append {p : Bytes} (h : question ∉ p) {query : Bytes} (hq : Query query) : path (p ++ query) = p := by
  have hall : ∀ c ∈ p, decide (c ≠ question) = true := fun c hc => decide_eq_true fun he => h (he ▸ hc)
  rw [path, List.takeWhile_append_of_pos hall]
  cases query with
  | nil => simp
  | cons c query => simp [hq c rfl]

/-- The path does not matter to the pairs. -/
theorem queryStrings_append {p : Bytes} (h : question ∉ p) {query : Bytes} (hq : Query query) :
    queryStrings (p ++ query) = queryStrings query := by
  have hpath : path query = [] := path_append List.not_mem_nil hq
  rw [queryStrings, queryStrings, path_append h hq, hpath, List.drop_append, List.drop_eq_nil_of_le (Nat.le_succ _),
    Nat.add_sub_cancel_left]
  rfl

theorem queryStrings_pairs {text : Bytes} {pairs : List (Bytes × Bytes)} (hkeys : ∀ p ∈ pairs, p.1 ≠ [])
    (htext : PairsText text pairs) : queryStrings (question :: text) = .ok pairs := by
  have hpath : path (question :: text) = [] := path_append List.not_mem_nil fun c hc => (Option.some.inj hc).symm
  rw [queryStrings, hpath]
  exact split_pairs htext hkeys

/-- The query string decides over the pairs only. -/
theorem search_query {url url' method : Bytes} {resources : List Bytes} {routes : List (Route H)} {handler : H}
    {parsed : ParsedRoute} {pairs : List (Bytes × Bytes)}
    (h : search url resources method routes = .ok (some (handler, parsed))) (hq : queryStrings url' = .ok pairs) :
    search url' resources method routes = .ok (some (handler, { parsed with queryStrings := pairs })) := by
  induction routes with
  | nil => cases h
  | cons route routes ih =>
    rw [search] at h ⊢
    cases hc : route.createHandler resources method with
    | error e => rw [hc] at h; cases h
    | ok found =>
      rw [hc] at h
      cases found with
      | none => exact ih h
      | some found =>
        obtain ⟨captures, handler'⟩ := found
        cases hold : queryStrings url with
        | error e => simp only [hold] at h; cases h
        | ok old =>
          simp only [hold] at h
          cases h
          simp only [hq]
          rfl

/-- The pairs of a query string reach the handler that is called for the path alone. -/
theorem query_recovered (r : Router H) (p method : Bytes) (handler : H) (parsed : ParsedRoute) (hp : question ∉ p)
    (h : r.createHandler p method = .ok (some (handler, parsed))) (text : Bytes) (pairs : List (Bytes × Bytes))
    (hkeys : ∀ pair ∈ pairs, pair.1 ≠ []) (htext : PairsText text pairs) :
    r.createHandler (p ++ question :: text) method = .ok (some (handler, { parsed with queryStrings := pairs })) := by
  have hq : Query (question :: text) := fun c hc => (Option.some.inj hc).symm
  have hnone : Query [] := by simp [Query]
  have hpath : path p = p := by
    have := path_append hp hnone
    rwa [List.append_nil] at this
  unfold Router.createHandler at h ⊢
  rw [path_append hp hq]
  rw [hpath] at h
  dsimp only at h ⊢
  split at h
  · cases h
  · split at h
    · cases h
    · rw [if_neg ‹_›, if_neg ‹_›]
      exact search_query h ((queryStrings_append hp hq).trans (queryStrings_pairs hkeys htext))

/-- `/customers/7` for the route of one customer, and `?a=&b%20b=1%262&&c` with an escaped ampersand. -/
theorem query_recovered_customer : (build (bytes "/v1") customerRoutes).createHandler
      (bytes "/v1/customers/7?&a=&b%20b=1%262&&c") (bytes "GET") =
    .ok (some (0, { capturedResources := [(bytes "customerId", bytes "7")],
                    queryStrings := [(bytes "a", []), (bytes "b b", bytes "1&2"), (bytes "c", [])],
                    allButOPTIONSNodeMethods := bytes "GET" })) := by
  have hurl : bytes "/v1/customers/7?&a=&b%20b=1%262&&c" =
      bytes "/v1/customers/7" ++ question :: bytes "&a=&b%20b=1%262&&c" := by decide
  rw [hurl]
  refine query_recovered _ (bytes "/v1/customers/7") (bytes "GET") 0
    { capturedResources := [(bytes "customerId", bytes "7")], allButOPTIONSNodeMethods := bytes "GET" }
    (by decide) (by decide) (bytes "&a=&b%20b=1%262&&c") _ (by decide) ?_
  have hkey : Encodes Unreserved [98, 37, 50, 48, 98] [98, 32, 98] :=
    .plain (by decide) (@Encodes.escape _ 50 48 2 0 _ _ rfl rfl (.plain (by decide) .nil))
  have hvalue : Encodes Unreserved [49, 37, 50, 54, 50] [49, 38, 50] :=
    .plain (by decide) (@Encodes.escape _ 50 54 2 6 _ _ rfl rfl (.plain (by decide) .nil))
  have ha : Encodes Unreserved [97] [97] := .plain (by decide) .nil
  have hc : Encodes Unreserved [99] [99] := .plain (by decide) .nil
  exact ⟨[bytes "a=", bytes "b%20b=1%262", bytes "c"],
    .cons (.both ha .nil) (.cons (.both hkey hvalue) (.cons (.key hc) .nil)), 1, 0, _,
    .cons (bytes "a=") 0 (.cons (bytes "b%20b=1%262") 1 (.single (bytes "c"))), by decide⟩

/-! ## Captures -/

/-- The segment of a URL for a part of the pattern. -/
def segment (value : Bytes → Bytes) (part : Part) : Bytes := if part.1 then value part.2 else part.2

/-- The captures with their values. -/
def assignment (value : Bytes → Bytes) (parts : List Part) : Fields :=
  (parts.filter (·.1)).map fun part => (part.2, value part.2)

/-- A value that can be captured. -/
def IsValue (v : Bytes) : Prop := v ≠ [] ∧ slash ∉ v ∧ question ∉ v

instance (v : Bytes) : Decidable (IsValue v) := inferInstanceAs (Decidable (_ ∧ _))

theorem Route.capture_segments (value : Bytes → Bytes) (parts : List Part) (captures : Fields)
    (hnames : (captures.map (·.1) ++ (parts.filter (·.1)).map (·.2)).Nodup) :
    capture parts (parts.map (segment value)) captures = some (captures ++ assignment value parts) := by
  induction parts generalizing captures with
  | nil => simp [capture, assignment]
  | cons part parts ih =>
    rw [List.map_cons, capture]
    by_cases hcap : part.1 = true
    · have hseg : segment value part = value part.2 := if_pos hcap
      have hfilter : (part :: parts).filter (·.1) = part :: parts.filter (·.1) := List.filter_cons_of_pos hcap
      rw [hfilter, List.map_cons] at hnames
      have habsent : part.2 ∉ captures.map (·.1) := fun hm =>
        (List.nodup_append.1 hnames).2.2 part.2 hm part.2 List.mem_cons_self rfl
      rw [if_pos hcap, hseg, Fields.set_absent habsent, ih]
      · simp [assignment, hfilter]
      · simpa using hnames
    · have hseg : segment value part = part.2 := if_neg hcap
      have hfilter : (part :: parts).filter (·.1) = parts.filter (·.1) := List.filter_cons_of_neg hcap
      rw [hfilter] at hnames
      rw [if_neg hcap, hseg, if_neg (not_not.2 rfl), ih captures hnames, assignment, assignment, hfilter]

theorem Route.matches_segments (r : Route H) (value : Bytes → Bytes) : r.Matches (r.routeParts.map (segment value)) := by
  rw [Matches, List.forall₂_map_right_iff, List.forall₂_same]
  intro part _
  by_cases hcap : part.1 = true
  · exact .inl hcap
  · exact .inr (if_neg hcap).symm

/-- The literal parts of a pattern are segments. -/
theorem routeParts_literal {pattern : Bytes} {parts : List Part} (h : routeParts pattern = .ok parts) :
    ∀ part ∈ parts, part.1 = false → part.2 ≠ [] ∧ slash ∉ part.2 := by
  rw [routeParts, split_eq_fields, mapM_eq_ok_iff] at h
  have hfields : ∀ text ∈ fields slash pattern, text ≠ [] ∧ slash ∉ text := Splitting.mem_fields pattern
  revert h hfields
  generalize fields slash pattern = texts
  intro h hfields
  induction h with
  | nil => intro part hpart; cases hpart
  | @cons text part texts parts hpart _ ih =>
    intro p hp hlit
    rcases List.mem_cons.1 hp with rfl | hp
    · unfold routePart at hpart
      split_ifs at hpart
      · cases hpart
        cases hlit
      · cases hpart
        exact hfields text List.mem_cons_self
    · exact ih (fun t ht => hfields t (List.mem_cons_of_mem _ ht)) p hp hlit

/-- The segments of a URL that is written for a route. -/
theorem segment_ok {pattern : Bytes} {parts : List Part} {value : Bytes → Bytes} (h : routeParts pattern = .ok parts)
    (hliteral : ∀ part ∈ parts, part.1 = false → question ∉ part.2)
    (hvalues : ∀ part ∈ parts, part.1 = true → IsValue (value part.2)) :
    ∀ s ∈ parts.map (segment value), IsValue s := by
  intro s hs
  obtain ⟨part, hpart, rfl⟩ := List.mem_map.1 hs
  cases hcap : part.1 with
  | true =>
    rw [segment, if_pos hcap]
    exact hvalues part hpart hcap
  | false =>
    rw [segment, if_neg (by simp [hcap])]
    obtain ⟨hne, hslash⟩ := routeParts_literal h part hpart hcap
    exact ⟨hne, hslash, hliteral part hpart hcap⟩

/-- A URL made of such segments, and a query string behind them, is split into the segments again. -/
theorem split_spaced {pieces : List Bytes} {p : Bytes} (hp : Spaced slash pieces p) (hpieces : ∀ s ∈ pieces, IsValue s)
    {query : Bytes} (hquery : Query query) : question ∉ p ∧ split (path (p ++ query)) slash = pieces := by
  have hquestion : question ∉ p := by
    intro hq
    rcases hp.mem hq with he | ⟨s, hs, hm⟩
    · exact absurd he (by decide)
    · exact (hpieces s hs).2.2 hm
  refine ⟨hquestion, ?_⟩
  rw [path_append hquestion hquery, split_eq_fields,
    Splitting.fields_spaced hp fun s hs => ⟨(hpieces s hs).1, (hpieces s hs).2.1⟩]

/-- A route captures the values from its own segments. -/
theorem Route.createHandler_segments {route : Route H} (hnames : ((route.routeParts.filter (·.1)).map (·.2)).Nodup)
    (value : Bytes → Bytes) {method : Bytes} {handler : H} (hmethod : route.methods.lookup method = some handler) :
    route.createHandler (route.routeParts.map (segment value)) method =
      .ok (some (assignment value route.routeParts, handler)) := by
  have hlength : ¬ (route.routeParts.map (segment value)).length ≠ route.routeParts.length := by simp
  have hcapture := Route.capture_segments value route.routeParts [] hnames
  rw [Route.createHandler, if_neg hlength, hcapture]
  simp only [hmethod, List.nil_append]

/-- The handler of the first route that fits is told the values of its captures, and the methods of the route. -/
theorem captures_recovered (baseUrl : Bytes) (hbase : question ∉ baseUrl) (calls : List (Call H))
    (earlier later : List (Route H)) (route : Route H) (hroutes : (build baseUrl calls).routes = earlier ++ route :: later)
    (pattern : Bytes) (hpattern : routeParts pattern = .ok route.routeParts) (hne : route.routeParts ≠ [])
    (hnames : ((route.routeParts.filter (·.1)).map (·.2)).Nodup)
    (hliteral : ∀ part ∈ route.routeParts, part.1 = false → question ∉ part.2)
    (value : Bytes → Bytes) (hvalues : ∀ part ∈ route.routeParts, part.1 = true → IsValue (value part.2))
    (method : Bytes) (handler : H) (hmethod : route.methods.lookup method = some handler)
    (hfirst : ∀ other ∈ earlier, ¬ other.Matches (route.routeParts.map (segment value)))
    (p : Bytes) (hp : Spaced slash (fields slash baseUrl ++ route.routeParts.map (segment value)) p)
    (query : Bytes) (hquery : Query query) (pairs : List (Bytes × Bytes)) (hpairs : queryStrings query = .ok pairs) :
    (build baseUrl calls).createHandler (p ++ query) method = .ok (some (handler,
      { capturedResources := assignment value route.routeParts, queryStrings := pairs,
        allButOPTIONSNodeMethods := route.allMethods })) := by
  have hsegments := segment_ok hpattern hliteral hvalues
  have hpieces : ∀ s ∈ fields slash baseUrl ++ route.routeParts.map (segment value), IsValue s := by
    intro s hs
    rcases List.mem_append.1 hs with hs | hs
    · obtain ⟨hs1, hs2⟩ := Splitting.mem_fields baseUrl s hs
      exact ⟨hs1, hs2, fun hq => hbase (Splitting.mem_of_mem_fields baseUrl s hs _ hq)⟩
    · exact hsegments s hs
  obtain ⟨hquestion, hsplit⟩ := split_spaced hp hpieces hquery
  have hsegs : (build baseUrl calls).segments (p ++ query) = some (route.routeParts.map (segment value)) := by
    rw [Router.segments, build_baseUrl, hsplit, if_pos (List.prefix_append _ _), List.drop_left]
  have hfind : (build baseUrl calls).routes.find? (fun r => r.Matches (route.routeParts.map (segment value))) =
      some route := by
    rw [hroutes, List.find?_append, List.find?_eq_none.2 fun r hr => by simpa using hfirst r hr, Option.none_or,
      List.find?_cons_of_pos (by simpa using route.matches_segments value)]
  have hcreate := Route.createHandler_segments hnames value hmethod
  rw [Router.createHandler_eq _ hsegs, if_neg (by simpa using hne), search_eq, hfind]
  simp only [search, hcreate, queryStrings_append hquestion hquery, hpairs]
  rfl

/-- The route for one customer. -/
def customerRoute : Route Nat where
  routeParts := [(false, bytes "customers"), (true, bytes "customerId")]
  methods := [(bytes "GET", 0)]
  allMethods := bytes "GET"

/-- With slashes between and behind the segments, and a query string with an equals sign too many. -/
theorem captures_recovered_customer : (build (bytes "/v1") customerRoutes).createHandler
      (bytes "/v1//customers/7/" ++ bytes "?a==b") (bytes "GET") =
    .ok (some (0, { capturedResources := [(bytes "customerId", bytes "7")], queryStrings := [(bytes "a", bytes "b")],
                    allButOPTIONSNodeMethods := bytes "GET" })) := by
  have hparts : customerRoute.routeParts.map (segment fun _ => bytes "7") = [bytes "customers", bytes "7"] := by
    decide
  have hbase : fields slash (bytes "/v1") = [bytes "v1"] := by decide
  have hcustomers : (build (bytes "/v1") customerRoutes).routes = [] ++ customerRoute ::
      [{ routeParts := [(false, bytes "customers"), (false, bytes "all")], methods := [(bytes "POST", 1)],
         allMethods := bytes "POST" }] := by decide
  refine captures_recovered (bytes "/v1") (by decide) customerRoutes [] _ customerRoute hcustomers
    (bytes "customers/{customerId}") (by decide) (by decide) (by decide) (by decide)
    (fun _ => bytes "7") (by decide) (bytes "GET") 0 (by decide) (by simp)
    (bytes "/v1//customers/7/") ?_ (bytes "?a==b") (by simp [Query, bytes, question]) _ (by decide)
  rw [hbase, hparts]
  exact ⟨1, 1, _, .cons (bytes "v1") 1 (.cons (bytes "customers") 0 (.single (bytes "7"))), by decide⟩

/-- `/v?1` is a base URL and `/v?1/customers/7` a URL for the only route below it, but its path is `/v`. -/
theorem base_question :
    (build (bytes "/v?1") (customerRoutes.take 2)).routes = [customerRoute] ∧
    Spaced slash (fields slash (bytes "/v?1") ++ customerRoute.routeParts.map (segment fun _ => bytes "7"))
      (bytes "/v?1/customers/7") ∧
    (build (bytes "/v?1") (customerRoutes.take 2)).createHandler (bytes "/v?1/customers/7") (bytes "GET") = .ok none := by
  refine ⟨by decide, ?_, by decide⟩
  have hparts : fields slash (bytes "/v?1") ++ customerRoute.routeParts.map (segment fun _ => bytes "7") =
      [bytes "v?1", bytes "customers", bytes "7"] := by decide
  rw [hparts]
  exact ⟨1, 0, _, .cons (bytes "v?1") 0 (.cons (bytes "customers") 0 (.single (bytes "7"))), by decide⟩

end Getodac.Restful
