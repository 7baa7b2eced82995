import Getodac.Restful
import Getodac.Text
import Getodac.Lib.Lists
/-!
# The routes of a `RestfulRouter` as they are registered

`registry_consistent`: after any calls of `createRoute` and `addMethodHandler` no two
routes have one pattern, a pattern names the same route again, and each route
finds exactly the handlers that were registered on it, the latest for each method,
and lists their methods in the order of their first registration. A `createRoute`
that throws changes nothing.

`createRoute` decides over the identity of a route by parsing the pattern again for
each of the routes (`findRoute`); `createRoute_eq` says that this is the comparison
of the parts.
-/

namespace Getodac.Restful

open Splitting (fields)

variable {H : Type}

/-! ## `createRoute` by its loop -/

/-- `operator==`. -/
def Route.isRoute (r : Route H) (route : Bytes) : Except Exc Bool :=
  match Restful.routeParts route with
  | .error e => .error e
  | .ok other =>
    if other.length ≠ r.routeParts.length then .ok false
    else .ok ((other.zip r.routeParts).all fun p => p.1.1 = p.2.1 ∧ p.1.2 = p.2.2)

/-- The loop of `createRoute`: where the first equal route is. -/
def findRoute (route : Bytes) : List (Route H) → Except Exc (Option Nat)
  | [] => .ok none
  | rt :: rts =>
    match rt.isRoute route with
    | .error e => .error e
    | .ok true => .ok (some 0)
    | .ok false => (findRoute route rts).map (·.map (· + 1))

/-- `createRoute` as it is written: what it returns or throws, and `m_routes` after it. -/
def createRouteIn (route : Bytes) (routes : List (Route H)) : Except Exc Nat × List (Route H) :=
  match findRoute route routes with
  | .error e => (.error e, routes)
  | .ok (some i) => (.ok i, routes)
  | .ok none =>
    -- the constructor of the new route
    match routeParts route with
    | .error e => (.error e, routes)
    | .ok parts => (.ok routes.length, routes ++ [{ routeParts := parts }])

theorem Route.isRoute_eq (r : Route H) {route : Bytes} {parts : List Part} (h : Restful.routeParts route = .ok parts) :
    r.isRoute route = .ok (decide (parts = r.routeParts)) := by
  have hzip : ∀ ps qs : List Part, ps.length = qs.length →
      ((ps.zip qs).all fun p => p.1.1 = p.2.1 ∧ p.1.2 = p.2.2) = decide (ps = qs) := by
    intro ps
    induction ps with
    | nil => intro qs hlen; rw [List.length_eq_zero_iff.1 hlen.symm]; rfl
    | cons p ps ih =>
      intro qs hlen
      cases qs with
      | nil => cases hlen
      | cons q qs =>
        rw [List.zip_cons_cons, List.all_cons, ih qs (Nat.succ.inj hlen)]
        simp [Prod.ext_iff]
  rw [isRoute, h]
  dsimp only
  split
  · rename_i hlen
    rw [decide_eq_false fun he => hlen (by rw [he])]
  · rename_i hlen
    rw [hzip _ _ (not_not.1 hlen)]

theorem findRoute_eq {route : Bytes} {parts : List Part} (h : routeParts route = .ok parts) (routes : List (Route H)) :
    findRoute route routes = .ok
      (if parts ∈ routes.map (·.routeParts) then some ((routes.map (·.routeParts)).idxOf parts) else none) := by
  induction routes with
  | nil => rfl
  | cons rt rts ih =>
    rw [findRoute, rt.isRoute_eq h, ih]
    by_cases he : parts = rt.routeParts
    · simp [he]
    · have hidx : (rt.routeParts :: rts.map (·.routeParts)).idxOf parts = (rts.map (·.routeParts)).idxOf parts + 1 :=
        List.idxOf_cons_ne _ (Ne.symm he)
      rw [decide_eq_false he, List.map_cons, hidx]
      by_cases hm : parts ∈ rts.map (·.routeParts)
      · rw [if_pos hm, if_pos (List.mem_cons_of_mem _ hm)]
        rfl
      · rw [if_neg hm, if_neg (fun hc => (List.mem_cons.1 hc).elim he hm)]
        rfl

theorem findRoute_error {route : Bytes} {e : Exc} (h : routeParts route = .error e) :
    ∀ routes : List (Route H), findRoute route routes = if routes = [] then .ok none else .error e
  | [] => rfl
  | rt :: rts => by simp [findRoute, Route.isRoute, h]

/-- The loop finds the route by its parts, and a router that throws is as it was. -/
theorem Router.createRoute_eq (r : Router H) (route : Bytes) :
    createRouteIn route r.routes =
      match r.createRoute route with
      | .error e => (.error e, r.routes)
      | .ok (r', i) => (.ok i, r'.routes) := by
  unfold createRouteIn Router.createRoute
  cases h : routeParts route with
  | error e =>
    rw [findRoute_error h]
    dsimp only
    by_cases hr : r.routes = []
    · rw [if_pos hr]
    · rw [if_neg hr]
  | ok parts =>
    rw [findRoute_eq h]
    by_cases hm : parts ∈ r.routes.map (·.routeParts)
    · simp only [if_pos hm, dif_pos hm]
    · simp only [if_neg hm, dif_neg hm]

/-! ## What a call does to the routes -/

theorem Router.createRoute_ok {r r' : Router H} {route : Bytes} {i : Nat} (h : r.createRoute route = .ok (r', i)) :
    ∃ parts, routeParts route = .ok parts ∧ r'.baseUrl = r.baseUrl ∧ parts ∈ r'.routes.map (·.routeParts) ∧
      i = (r'.routes.map (·.routeParts)).idxOf parts ∧
      (r'.routes = r.routes ∨ r'.routes = r.routes ++ [{ routeParts := parts }]) := by
  unfold createRoute at h
  split at h
  · cases h
  · rename_i parts hparts
    refine ⟨parts, hparts, ?_⟩
    split at h
    · rename_i hm
      cases h
      exact ⟨rfl, hm, rfl, .inl rfl⟩
    · rename_i hm
      cases h
      have hidx : ((r.routes ++ [({ routeParts := parts } : Route H)]).map (·.routeParts)).idxOf parts =
          r.routes.length := by
        rw [List.map_append, List.idxOf_append_of_notMem hm]
        simp
      exact ⟨rfl, by simp, hidx.symm, .inr rfl⟩

/-- A call adds a route at most, and a handler to one of them. -/
theorem Router.call_cases (r : Router H) (c : Call H) :
    (r.call c).baseUrl = r.baseUrl ∧
    ((r.call c).routes = r.routes ∧ (∀ i method creator, c ≠ .addMethodHandler i method creator) ∨
      (∃ parts, (r.call c).routes = r.routes ++ [{ routeParts := parts }] ∧
        ∀ i method creator, c ≠ .addMethodHandler i method creator) ∨
      ∃ i method creator, c = .addMethodHandler i method creator ∧
        (r.call c).routes = r.routes.modify i (·.addMethodHandler method creator)) := by
  cases c with
  | createRoute route =>
    unfold call
    dsimp only
    split
    · exact ⟨rfl, .inl ⟨rfl, by simp⟩⟩
    · rename_i hok
      obtain ⟨parts, -, hbase, -, -, hroutes⟩ := createRoute_ok hok
      exact ⟨hbase, hroutes.imp (fun h => ⟨h, by simp⟩) fun h => .inl ⟨parts, h, by simp⟩⟩
  | addMethodHandler i method creator => exact ⟨rfl, .inr (.inr ⟨i, method, creator, rfl, rfl⟩)⟩

theorem Router.call_parts (r : Router H) (c : Call H) :
    r.routes.map (·.routeParts) <+: (r.call c).routes.map (·.routeParts) := by
  obtain ⟨-, ⟨h, -⟩ | ⟨parts, h, -⟩ | ⟨i, method, creator, -, h⟩⟩ := r.call_cases c
  · rw [h]
  · rw [h, List.map_append]
    exact List.prefix_append _ _
  · rw [h, modify_routeParts]

theorem Router.calls_parts (r : Router H) (calls : List (Call H)) :
    r.routes.map (·.routeParts) <+: (calls.foldl call r).routes.map (·.routeParts) := by
  induction calls generalizing r with
  | nil => exact List.prefix_refl _
  | cons c calls ih => exact (r.call_parts c).trans (ih (r.call c))

theorem build_baseUrl (baseUrl : Bytes) (calls : List (Call H)) : (build baseUrl calls).baseUrl = fields slash baseUrl := by
  have hcalls : ∀ r : Router H, (calls.foldl Router.call r).baseUrl = r.baseUrl := by
    induction calls with
    | nil => exact fun _ => rfl
    | cons c calls ih => exact fun r => (ih (r.call c)).trans (r.call_cases c).1
  rw [build, hcalls]
  exact split_eq_fields baseUrl slash

theorem routeParts_congr {a b : Bytes} (h : fields slash a = fields slash b) : routeParts a = routeParts b := by
  rw [routeParts, routeParts, split_eq_fields, split_eq_fields, h]

/-- A pattern that was registered before names the route it named then. -/
theorem Router.createRoute_again {r r' : Router H} {a b : Bytes} {i : Nat} (h : r.createRoute a = .ok (r', i))
    (hab : fields slash a = fields slash b) (calls : List (Call H)) :
    (calls.foldl call r').createRoute b = .ok (calls.foldl call r', i) := by
  obtain ⟨parts, hparts, -, hmem, hi, -⟩ := createRoute_ok h
  obtain ⟨more, hmore⟩ := r'.calls_parts calls
  rw [createRoute, ← routeParts_congr hab, hparts]
  dsimp only
  rw [dif_pos (by rw [← hmore]; exact List.mem_append_left _ hmem), ← hmore, List.idxOf_append_of_mem hmem, hi]

/-! ## The methods of a route -/

/-- The methods of the registrations but OPTIONS, in the order of their first registration. -/
def methodNames (regs : List (Bytes × H)) : List Bytes := (regs.map (·.1)).eraseDups.filter (· ≠ bytes "OPTIONS")

theorem mem_methodNames {regs : List (Bytes × H)} {m : Bytes} :
    m ∈ methodNames regs ↔ m ≠ bytes "OPTIONS" ∧ m ∈ regs.map (·.1) := by
  rw [methodNames, List.mem_filter, List.mem_eraseDups, decide_eq_true_eq, and_comm]

theorem methodNames_nodup (regs : List (Bytes × H)) : (methodNames regs).Nodup := by
  rw [methodNames]
  exact (Lists.nodup_eraseDups _).filter _

theorem methodNames_concat (regs : List (Bytes × H)) (method : Bytes) (creator : H) :
    methodNames (regs ++ [(method, creator)]) =
      if method ∈ regs.map (·.1) ∨ method = bytes "OPTIONS" then methodNames regs else methodNames regs ++ [method] := by
  rw [methodNames, methodNames, List.map_append, List.eraseDups_append, List.filter_append]
  by_cases hm : method ∈ regs.map (·.1)
  · have hnone : ([(method, creator)].map (·.1)).removeAll (regs.map (·.1)) = [] := by simpa [List.removeAll] using hm
    rw [hnone, if_pos (.inl hm)]
    simp
  · have hone : ([(method, creator)].map (·.1)).removeAll (regs.map (·.1)) = [method] := by
      simpa [List.removeAll] using hm
    rw [hone, List.eraseDups_cons]
    by_cases ho : method = bytes "OPTIONS" <;> simp [hm, ho]

/-- A route is what the registrations on it make of it. -/
structure Route.Registered (r : Route H) (regs : List (Bytes × H)) : Prop where
  latest : ∀ m, r.methods.lookup m = regs.reverse.lookup m
  allMethods : r.allMethods = (bytes ", ").intercalate (methodNames regs)

theorem Route.registered_new (parts : List Part) : ({ routeParts := parts } : Route H).Registered [] :=
  ⟨fun _ => rfl, rfl⟩

/-- The latest registration is found first. -/
theorem latest_concat (regs : List (Bytes × H)) (method : Bytes) (creator : H) (m : Bytes) :
    (regs ++ [(method, creator)]).reverse.lookup m = if m = method then some creator else regs.reverse.lookup m := by
  rw [List.reverse_concat, List.lookup_cons]
  by_cases hm : m = method
  · simp [hm]
  · rw [beq_eq_false_iff_ne.2 hm, if_neg hm]

/-- The list of methods with one more is what `addMethodHandler` makes of it. -/
theorem methodNames_joined {regs : List (Bytes × H)} (hregs : ∀ reg ∈ regs, reg.1 ≠ []) (method : Bytes) :
    (bytes ", ").intercalate (methodNames regs ++ [method]) = (bytes ", ").intercalate (methodNames regs) ++
      if (bytes ", ").intercalate (methodNames regs) = [] then method else bytes ", " ++ method := by
  have hnames : ∀ m ∈ methodNames regs, m ≠ [] := by
    intro m hm
    obtain ⟨reg, hreg, rfl⟩ := List.mem_map.1 (mem_methodNames.1 hm).2
    exact hregs reg hreg
  rw [Lists.intercalate_concat]
  by_cases hempty : methodNames regs = []
  · have hnone := (Lists.intercalate_eq_nil (bytes ", ") hnames).2 hempty
    rw [if_pos hempty, if_pos hnone, hnone, List.nil_append]
  · rw [if_neg hempty, if_neg (mt (Lists.intercalate_eq_nil _ hnames).1 hempty)]

/-- A registration adds a method or replaces a handler. -/
theorem Route.Registered.addMethodHandler {r : Route H} {regs : List (Bytes × H)} (h : r.Registered regs)
    (hregs : ∀ reg ∈ regs, reg.1 ≠ []) (method : Bytes) (creator : H) :
    (r.addMethodHandler method creator).Registered (regs ++ [(method, creator)]) := by
  unfold Route.addMethodHandler
  cases hfound : r.methods.lookup method with
  | none =>
    have hnew : method ∉ regs.map (·.1) := Lists.lookup_reverse_eq_none.1 (h.latest method ▸ hfound)
    refine ⟨fun m => ?_, ?_⟩
    · rw [latest_concat]
      dsimp only
      rw [Lists.lookup_concat, ← h.latest]
      by_cases hm : m = method
      · rw [if_pos hm, if_pos hm, hm, hfound, Option.none_or]
      · rw [if_neg hm, if_neg hm, Option.or_none]
    · dsimp only
      rw [methodNames_concat, h.allMethods]
      by_cases ho : method = bytes "OPTIONS"
      · rw [if_neg (not_not.2 ho), if_pos (.inr ho)]
      · rw [if_pos ho, if_neg (not_or.2 ⟨hnew, ho⟩), methodNames_joined hregs]
  | some old =>
    have hold : method ∈ regs.map (·.1) := by
      by_contra hnew
      rw [h.latest, Lists.lookup_reverse_eq_none.2 hnew] at hfound
      cases hfound
    refine ⟨fun m => ?_, ?_⟩
    · rw [latest_concat]
      dsimp only
      rw [Lists.lookup_replace, ← h.latest]
      by_cases hm : m = method
      · rw [if_pos hm, hm, hfound]
        simp
      · simp only [if_neg hm, Option.map_id']
    · dsimp only
      rw [methodNames_concat, if_pos (.inl hold), h.allMethods]

/-! ## Every run of registrations -/

/-- What a call registers on the route `i`. -/
def Router.registers (r : Router H) (i : Nat) : Call H → List (Bytes × H)
  | .createRoute _ => []
  | .addMethodHandler j method creator => if j = i ∧ i < r.routes.length then [(method, creator)] else []

/-- What the calls register on it, one after the other. -/
def Router.registrations (i : Nat) : Router H → List (Call H) → List (Bytes × H)
  | _, [] => []
  | r, c :: calls => r.registers i c ++ registrations i (r.call c) calls

/-- The method of a registration is not empty. -/
def Call.Named : Call H → Prop
  | .createRoute _ => True
  | .addMethodHandler _ method _ => method ≠ []

instance : DecidablePred (Call.Named (H := H))
  | .createRoute _ => isTrue trivial
  | .addMethodHandler _ method _ => inferInstanceAs (Decidable (method ≠ []))

/-- Each route is what was registered on it, and nothing was on those to come. -/
structure Router.Registered (r : Router H) (regs : Nat → List (Bytes × H)) : Prop where
  routes : ∀ (i : Nat) (route : Route H), r.routes[i]? = some route → route.Registered (regs i)
  later : ∀ i, r.routes.length ≤ i → regs i = []
  named : ∀ i, ∀ reg ∈ regs i, reg.1 ≠ []

theorem Router.registers_other (r : Router H) (i : Nat) {c : Call H}
    (h : ∀ j method creator, c ≠ .addMethodHandler j method creator) : r.registers i c = [] := by
  cases c with
  | createRoute => rfl
  | addMethodHandler j method creator => exact absurd rfl (h j method creator)

/-- A new route has no method. -/
theorem Router.Registered.concat {r r' : Router H} {regs : Nat → List (Bytes × H)} (h : r.Registered regs)
    {parts : List Part} (hroutes : r'.routes = r.routes ++ [{ routeParts := parts }]) : r'.Registered regs := by
  refine ⟨fun i route hroute => ?_, fun i hi => h.later i ?_, h.named⟩
  · rw [hroutes] at hroute
    by_cases hi : i < r.routes.length
    · rw [List.getElem?_append_left hi] at hroute
      exact h.routes i route hroute
    · rw [List.getElem?_append_right (Nat.not_lt.1 hi), List.getElem?_singleton] at hroute
      split at hroute
      · cases hroute
        rw [h.later i (Nat.not_lt.1 hi)]
        exact Route.registered_new parts
      · cases hroute
  · rw [hroutes, List.length_append] at hi
    exact Nat.le_of_add_right_le hi

/-- A registration is one on its route. -/
theorem Router.Registered.modify {r r' : Router H} {regs : Nat → List (Bytes × H)} (h : r.Registered regs) {j : Nat}
    {method : Bytes} {creator : H} (hroutes : r'.routes = r.routes.modify j (·.addMethodHandler method creator))
    (hne : method ≠ []) : r'.Registered fun i => regs i ++ r.registers i (.addMethodHandler j method creator) := by
  refine ⟨fun i route hroute => ?_, fun i hi => ?_, fun i reg hreg => ?_⟩
  · rw [hroutes, List.getElem?_modify] at hroute
    obtain ⟨old, hold, rfl⟩ := Option.map_eq_some_iff.1 hroute
    have hi : i < r.routes.length := (List.getElem?_eq_some_iff.1 hold).1
    by_cases hj : j = i
    · rw [if_pos hj, registers, if_pos ⟨hj, hi⟩]
      exact (h.routes i old hold).addMethodHandler (h.named i) method creator
    · rw [if_neg hj, registers, if_neg fun hh => hj hh.1, List.append_nil]
      exact h.routes i old hold
  · rw [hroutes, List.length_modify] at hi
    rw [h.later i hi, registers, if_neg fun hh => Nat.not_lt.2 hi hh.2]
    rfl
  · rcases List.mem_append.1 hreg with hreg | hreg
    · exact h.named i reg hreg
    · rw [registers] at hreg
      split at hreg
      · rw [List.mem_singleton.1 hreg]
        exact hne
      · cases hreg

theorem Router.Registered.call {r : Router H} {regs : Nat → List (Bytes × H)} (h : r.Registered regs) {c : Call H}
    (hc : c.Named) : (r.call c).Registered fun i => regs i ++ r.registers i c := by
  obtain ⟨-, ⟨hroutes, hother⟩ | ⟨parts, hroutes, hother⟩ | ⟨j, method, creator, rfl, hroutes⟩⟩ := r.call_cases c
  · simp only [r.registers_other _ hother, List.append_nil]
    exact ⟨hroutes ▸ h.routes, hroutes ▸ h.later, h.named⟩
  · simp only [r.registers_other _ hother, List.append_nil]
    exact h.concat hroutes
  · exact h.modify hroutes hc

theorem Router.Registered.calls {r : Router H} {regs : Nat → List (Bytes × H)} (h : r.Registered regs)
    {calls : List (Call H)} (hc : ∀ c ∈ calls, c.Named) :
    (calls.foldl Router.call r).Registered fun i => regs i ++ registrations i r calls := by
  induction calls generalizing r regs with
  | nil =>
    simp only [registrations, List.append_nil]
    exact h
  | cons c calls ih =>
    have hstep := ih (h.call (hc c List.mem_cons_self)) fun c' hc' => hc c' (List.mem_cons_of_mem _ hc')
    simp only [List.append_assoc] at hstep
    exact hstep

theorem build_registered (baseUrl : Bytes) {calls : List (Call H)} (hc : ∀ c ∈ calls, c.Named) :
    (build baseUrl calls).Registered fun i => Router.registrations i (.ofBaseUrl baseUrl) calls := by
  have hstart : (Router.ofBaseUrl baseUrl : Router H).Registered fun _ => [] :=
    ⟨fun _ _ h => (by cases h), fun _ _ => rfl, fun _ _ h => (by cases h)⟩
  have hbuild := hstart.calls hc
  simp only [List.nil_append] at hbuild
  exact hbuild

/-! ## The registry and what is dispatched -/

/-- A route lists the methods that were registered on it and answers for them, with the latest handler. -/
structure Route.Answers (r : Route H) (regs : List (Bytes × H)) : Prop where
  allMethods : r.allMethods = (bytes ", ").intercalate (methodNames regs)
  nodup : (methodNames regs).Nodup
  listed : ∀ m, m ∈ methodNames regs ↔ m ≠ bytes "OPTIONS" ∧
    ∃ segments captures handler, r.createHandler segments m = .ok (some (captures, handler))
  found : ∀ segments m handler, r.Matches segments → regs.reverse.lookup m = some handler →
    ∃ captures, r.createHandler segments m = .ok (some (captures, handler))
  refused : ∀ segments m, r.Matches segments → regs.reverse.lookup m = none →
    r.createHandler segments m = .error (.response { statusCode := 405, fields := [(bytes "Allow", r.allMethods)] })

theorem Route.matches_self (r : Route H) : r.Matches (r.routeParts.map (·.2)) := by
  rw [Matches, List.forall₂_map_right_iff, List.forall₂_same]
  exact fun part _ => .inr rfl

theorem Route.createHandler_some {r : Route H} {segments : List Bytes} {m : Bytes} {captures : Fields} {handler : H}
    (h : r.createHandler segments m = .ok (some (captures, handler))) : r.methods.lookup m = some handler := by
  unfold createHandler at h
  split at h
  · cases h
  · split at h
    · cases h
    · split at h
      · cases h
      · cases h
        assumption

theorem Route.Registered.answers {r : Route H} {regs : List (Bytes × H)} (h : r.Registered regs) : r.Answers regs := by
  have hfound : ∀ segments m handler, r.Matches segments → regs.reverse.lookup m = some handler →
      ∃ captures, r.createHandler segments m = .ok (some (captures, handler)) := fun segments m handler hm hl =>
    createHandler_known hm ((h.latest m).trans hl)
  refine ⟨h.allMethods, methodNames_nodup regs, fun m => ?_, hfound, fun segments m hm hl => ?_⟩
  · rw [mem_methodNames]
    refine and_congr_right fun _ => ⟨fun hm => ?_, ?_⟩
    · cases hl : regs.reverse.lookup m with
      | none => exact absurd hm (Lists.lookup_reverse_eq_none.1 hl)
      | some handler =>
        obtain ⟨captures, hcreate⟩ := hfound _ m handler r.matches_self hl
        exact ⟨_, captures, handler, hcreate⟩
    · rintro ⟨segments, captures, handler, hcreate⟩
      by_contra hm
      have hnone := Lists.lookup_reverse_eq_none.2 hm
      rw [← h.latest, createHandler_some hcreate] at hnone
      cases hnone
  · have hknows : ¬ r.Knows m := by
      rw [Knows, h.latest, hl]
      simp
    exact createHandler_refuses hm hknows

/-- After any calls: the patterns are distinct, a pattern names its route again, a call that throws changes nothing, and
each route answers for what was registered on it. -/
theorem registry_consistent (baseUrl : Bytes) (calls : List (Call H)) (hc : ∀ c ∈ calls, c.Named) :
    ((build baseUrl calls).routes.map (·.routeParts)).Nodup ∧
    (∀ earlier later a b r i, calls = earlier ++ .createRoute a :: later →
      (build baseUrl earlier).createRoute a = .ok (r, i) → fields slash a = fields slash b →
      (build baseUrl calls).createRoute b = .ok (build baseUrl calls, i)) ∧
    (∀ route e, (createRouteIn route (build baseUrl calls).routes).1 = .error e →
      (createRouteIn route (build baseUrl calls).routes).2 = (build baseUrl calls).routes ∧
      build baseUrl (calls ++ [.createRoute route]) = build baseUrl calls) ∧
    ∀ (i : Nat) (route : Route H), (build baseUrl calls).routes[i]? = some route →
      route.Answers (Router.registrations i (.ofBaseUrl baseUrl) calls) := by
  refine ⟨(build baseUrl calls).distinct, ?_, ?_, fun i route hroute => ?_⟩
  · rintro earlier later a b r i rfl hcreate hab
    have hbuild : build baseUrl (earlier ++ .createRoute a :: later) = later.foldl Router.call r := by
      rw [build, List.foldl_append, List.foldl_cons]
      congr 1
      show (build baseUrl earlier).call (.createRoute a) = r
      simp only [Router.call, hcreate]
    rw [hbuild]
    exact Router.createRoute_again hcreate hab later
  · intro route e herror
    rw [Router.createRoute_eq] at herror ⊢
    cases hcreate : (build baseUrl calls).createRoute route with
    | ok found =>
      rw [hcreate] at herror
      cases herror
    | error e' =>
      refine ⟨rfl, ?_⟩
      rw [build, List.foldl_append]
      show (build baseUrl calls).call (.createRoute route) = _
      simp only [Router.call, hcreate]
  · exact ((build_registered baseUrl hc).routes i route hroute).answers

/-- Two routes; GET is registered on the first one, OPTIONS, and GET again. -/
def customerCalls : List (Call Nat) :=
  [.createRoute (bytes "/customers/{id}"), .addMethodHandler 0 (bytes "GET") 0, .createRoute (bytes "x"),
   .createRoute (bytes "/customers"), .addMethodHandler 0 (bytes "OPTIONS") 1, .addMethodHandler 1 (bytes "POST") 2,
   .createRoute (bytes "customers//{id}/"), .addMethodHandler 0 (bytes "GET") 3, .addMethodHandler 0 (bytes "PUT") 4]

theorem registry_consistent_customers : (build (bytes "/v1") customerCalls).routes.length = 2 ∧
    ∀ route : Route Nat, (build (bytes "/v1") customerCalls).routes[0]? = some route →
      route.Answers [(bytes "GET", 0), (bytes "OPTIONS", 1), (bytes "GET", 3), (bytes "PUT", 4)] := by
  have h := registry_consistent (bytes "/v1") customerCalls (by decide)
  have hregs : Router.registrations 0 (.ofBaseUrl (bytes "/v1")) customerCalls =
      [(bytes "GET", 0), (bytes "OPTIONS", 1), (bytes "GET", 3), (bytes "PUT", 4)] := by decide
  exact ⟨by decide, fun route hroute => hregs ▸ h.2.2.2 0 route hroute⟩

end Getodac.Restful
