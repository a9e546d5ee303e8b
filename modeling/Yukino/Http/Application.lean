import Mathlib.Data.List.Flatten
import Mathlib.Order.Basic
import Yukino.Http.Router
import Yukino.Lib.Runs

set_option autoImplicit false

/-!
# Groups of routes and their middlewares

An application has a tree of `Router`s, each with a prefix and middlewares of its own. A request
goes through the middlewares of all `Router`s whose prefix its path has, and then to the handler of
its route.

## Main definitions

* `matchRouterPath`, `normalizePrefix`.
* `Application`, `Op`, `step` — how an application is built.
* `Application.serveHTTP` — the chain of middlewares and the handler of a request.

## Main results

* `group_middlewares_iff` — the middlewares of a route's `Router` and of the ones above
  it are in the chain of a request, exactly if the path begins with the prefixes of those that have
  any.
* `middleware_bypassed` — a path with two slashes in front reaches a handler without
  the middlewares of its `Router`.

## Design

The trie drops empty segments and knows parameters, while `matchRouterPath` compares the path and
the prefix as they are. A `Router` is its place in the list of all, which is the order of
creation, and a middleware in a chain is tagged with its `Router`.
-/

namespace Yukino.Http

open List

/-- A `Router`: its parent is one that was created before. -/
structure Router (M : Type) where
  pref : Str
  middlewares : List M := []
  parent : Option ℕ := none

/-- A route, with the `Router` through which it was registered. -/
structure Route where
  router : ℕ
  method : Str
  comp : Str

structure Application (M : Type) where
  /-- The root comes first. -/
  routers : List (Router M) := [{ pref := [] }]
  router : Routes := {}
  /-- All registrations. -/
  routes : List Route := []

/-- The loop of `normalizePrefix` that removes slashes at the end. -/
def trimSlashes : Str → Str
  | [] => []
  | c :: cs =>
    match trimSlashes cs with
    | [] => if c = '/' then [] else [c]
    | d :: ds => c :: d :: ds

def normalizePrefix (pref : Str) : Str :=
  if pref = [] then []
  else trimSlashes (if pref.head? = some '/' then pref else '/' :: pref)

def matchRouterPath (requestPath routerPrefix : Str) : Bool :=
  if routerPrefix = [] || routerPrefix = ['/'] then true
  else if !routerPrefix.isPrefixOf requestPath then false
  else requestPath.length = routerPrefix.length ||
    requestPath[routerPrefix.length]? = some '/'

/-- How an application is built. -/
inductive Op (M : Type)
  /-- `Router.Router`. -/
  | router (r : ℕ) (pref : Str)
  /-- `Router.Use`. -/
  | use (r : ℕ) (middlewares : List M)
  /-- `Router.Get` and its siblings. -/
  | route (r : ℕ) (method comp : Str)

section Step

variable {M : Type}

/-- The step that an operation on an existing `Router` is. -/
def step (app : Application M) : Op M → Option (Application M)
  | .router r pref =>
    app.routers[r]?.map fun parent => { app with
      routers := app.routers ++
        [{ pref := parent.pref ++ normalizePrefix pref, parent := some r }] }
  | .use r middlewares =>
    app.routers[r]?.map fun router => { app with
      routers := app.routers.set r
        { router with middlewares := router.middlewares ++ middlewares } }
  | .route r method comp =>
    app.routers[r]?.map fun router => { app with
      router := app.router.addRoute method (router.pref ++ comp) app.routes.length
      routes := app.routes ++ [⟨r, method, comp⟩] }

namespace Application

variable (app : Application M)

/-- The middlewares of a `Router`. -/
def middlewaresOf (r : ℕ) : List (ℕ × M) :=
  match app.routers[r]? with
  | none => []
  | some router => router.middlewares.map fun m => (r, m)

/-- The `Router` has a prefix of the path. -/
def selects (path : Str) (r : ℕ) : Bool :=
  app.routers[r]?.any fun router => matchRouterPath path router.pref

/-- The loop of `ServeHTTP`. -/
def chain (path : Str) : List (ℕ × M) :=
  (range app.routers.length).flatMap fun r =>
    if app.selects path r then app.middlewaresOf r else []

/-- `ServeHTTP` and `handle`: the middlewares of the composed chain, and the handler of the route,
if there is one. -/
def serveHTTP (method path : Str) : List (ℕ × M) × Option ℕ :=
  (app.chain path, match app.router.getRoute method path with
    | none => none
    | some (n, _) => app.router.handlers (Routes.key method n.pattern))

/-- A `Router` and the ones above it, the root first; there are at most `n` above it. -/
def ancestry (app : Application M) : ℕ → ℕ → List ℕ
  | 0, r => [r]
  | n + 1, r =>
    match app.routers[r]?.bind Router.parent with
    | none => [r]
    | some p => app.ancestry n p ++ [r]

/-- The middlewares of a `Router` and the ones above it, ancestors first. -/
def groupMiddlewares (r : ℕ) : List (ℕ × M) :=
  (app.ancestry r r).flatMap app.middlewaresOf

end Application

end Step

/-! ## Prefixes -/

/-- The path is the prefix, or goes on behind it with a slash. -/
def Begins (path pref : Str) : Prop :=
  pref = [] ∨ pref = ['/'] ∨ path = pref ∨ (pref ++ ['/']) <+: path

lemma matchRouterPath_iff {path pref : Str} :
    matchRouterPath path pref = true ↔ Begins path pref := by
  unfold matchRouterPath Begins
  by_cases hroot : pref = [] ∨ pref = ['/']
  · rw [if_pos (by simpa using hroot)]
    exact iff_of_true rfl (hroot.imp_right .inl)
  rw [if_neg (by simpa using hroot)]
  rw [not_or] at hroot
  rw [or_iff_right hroot.1, or_iff_right hroot.2]
  by_cases hpre : pref <+: path
  · obtain ⟨rest, rfl⟩ := hpre
    have hpre : pref.isPrefixOf (pref ++ rest) = true :=
      List.isPrefixOf_iff_prefix.2 (prefix_append pref rest)
    rw [hpre]
    cases rest with
    | nil => simp
    | cons c cs => simp [eq_comm]
  · have hnot : pref.isPrefixOf path = false :=
      Bool.eq_false_iff.2 fun h => hpre (List.isPrefixOf_iff_prefix.1 h)
    rw [hnot]
    refine iff_of_false Bool.false_ne_true ?_
    rintro (rfl | h)
    · exact hpre (prefix_rfl)
    · exact hpre ((prefix_append pref ['/']).trans h)

/-! ## Chains -/

section Chains

variable {M : Type}

/-- A parent was created before its children. -/
def Ordered (app : Application M) : Prop :=
  ∀ (r : ℕ) (router : Router M) (p : ℕ),
    app.routers[r]? = some router → router.parent = some p → p < r

lemma Ordered.step (app : Application M) (op : Op M) (app' : Application M) (h : Ordered app)
    (hstep : step app op = some app') : Ordered app' := by
  cases op with
  | router r pref =>
    obtain ⟨parent, hr, rfl⟩ := Option.map_eq_some_iff.1 hstep
    have hlt : r < app.routers.length := (List.getElem?_eq_some_iff.1 hr).1
    intro i router p hi hp
    rcases Nat.lt_or_ge i app.routers.length with hlen | hlen
    · rw [getElem?_append_left hlen] at hi
      exact h i router p hi hp
    · rw [getElem?_append_right hlen] at hi
      rw [mem_singleton.1 (mem_of_getElem? hi)] at hp
      cases hp
      exact Nat.lt_of_lt_of_le hlt hlen
  | use r middlewares =>
    obtain ⟨old, hr, rfl⟩ := Option.map_eq_some_iff.1 hstep
    intro i router p hi hp
    by_cases hir : r = i
    · subst hir
      rw [List.getElem?_set_self (List.getElem?_eq_some_iff.1 hr).1] at hi
      cases hi
      exact h r old p hr hp
    · rw [getElem?_set_ne hir] at hi
      exact h i router p hi hp
  | route r method comp =>
    obtain ⟨router, hr, rfl⟩ := Option.map_eq_some_iff.1 hstep
    exact h

namespace Application

variable {app : Application M} {path : Str}

/-- **An ancestry is in the order of creation.** -/
lemma ancestry_sublist (h : Ordered app) (n r : ℕ) :
    (app.ancestry n r).Sublist (range (r + 1)) := by
  induction n generalizing r with
  | zero =>
    rw [range_succ]
    exact sublist_append_right ..
  | succ n ih =>
    rw [range_succ]
    unfold ancestry
    split
    · exact sublist_append_right ..
    · next p hp =>
      obtain ⟨router, hrouter, hparent⟩ := Option.bind_eq_some_iff.1 hp
      have hlt := h r router p hrouter hparent
      exact ((ih p).trans (range_sublist.2 hlt)).append (List.Sublist.refl _)

lemma middlewaresOf_eq_nil {r : ℕ} (h : app.routers.length ≤ r) : app.middlewaresOf r = [] := by
  unfold middlewaresOf
  rw [getElem?_eq_none h]

lemma fst_of_mem_middlewaresOf {r : ℕ} {x : ℕ × M} (h : x ∈ app.middlewaresOf r) : x.1 = r := by
  unfold middlewaresOf at h
  split at h
  · cases h
  · obtain ⟨m, -, rfl⟩ := mem_map.1 h
    rfl

/-- The chain holds the middlewares of the `Router`s that are selected. -/
lemma selects_of_mem_chain {x : ℕ × M} (h : x ∈ app.chain path) : app.selects path x.1 = true := by
  obtain ⟨r, -, hx⟩ := mem_flatMap.1 h
  split_ifs at hx with hsel
  · rw [fst_of_mem_middlewaresOf hx]
    exact hsel
  · cases hx

/-- **The middlewares of an ancestry are in the chain**, exactly if each of its `Router`s that has
any is selected. -/
lemma groupMiddlewares_sublist_iff (h : Ordered app) {r : ℕ} :
    (app.groupMiddlewares r).Sublist (app.chain path) ↔
      ∀ i ∈ app.ancestry r r, app.middlewaresOf i ≠ [] → app.selects path i = true := by
  constructor
  · intro hsub i hi hne
    obtain ⟨x, hx⟩ := exists_mem_of_ne_nil _ hne
    rw [← fst_of_mem_middlewaresOf hx]
    exact selects_of_mem_chain (hsub.subset (mem_flatMap.2 ⟨i, hi, hx⟩))
  · intro hsel
    have heq : app.groupMiddlewares r = (app.ancestry r r).flatMap fun i =>
        if app.selects path i then app.middlewaresOf i else [] := by
      refine congrArg flatten (map_congr_left fun i hi => ?_)
      by_cases hne : app.middlewaresOf i = []
      · rw [hne, ite_self]
      · rw [if_pos (hsel i hi hne)]
    rcases Nat.lt_or_ge r app.routers.length with hlt | hge
    · rw [heq]
      exact ((ancestry_sublist h r r).trans (range_sublist.2 hlt)).flatMap _
    · have hnone : app.routers[r]? = none := getElem?_eq_none hge
      have hself : app.ancestry r r = [r] := by
        cases r with
        | zero => rfl
        | succ r =>
          unfold ancestry
          rw [hnone]
          rfl
      unfold groupMiddlewares
      rw [hself, flatMap_singleton, middlewaresOf_eq_nil hge]
      exact nil_sublist _

end Application

end Chains

/-! ## Results -/

/-- **Which requests go through the middlewares of a group.** Let a request be dispatched to a
route. The middlewares of the `Router` through which the route was registered and of those above it
are in the composed chain, ancestors first, exactly if the path begins with the prefix of each of
them that has a middleware. -/
theorem group_middlewares_iff {M : Type} {ops : List (Op M)} {app : Application M}
    (hrun : Runs.run step {} ops = some app) :
    ∀ k route method path, app.routes[k]? = some route →
      (app.serveHTTP method path).2 = some k →
      ((app.groupMiddlewares route.router).Sublist (app.serveHTTP method path).1 ↔
        ∀ i ∈ app.ancestry route.router route.router, ∀ router, app.routers[i]? = some router →
          router.middlewares ≠ [] → Begins path router.pref) := by
  intro k route method path _ _
  have hinit : Ordered ({} : Application M) := by
    intro r router p hr hp
    have hrouter := mem_singleton.1 (mem_of_getElem? hr)
    rw [hrouter] at hp
    cases hp
  have hord : Ordered app := Runs.invariant Ordered.step hinit hrun
  refine (Application.groupMiddlewares_sublist_iff hord).trans (forall₂_congr fun i _ => ?_)
  unfold Application.middlewaresOf Application.selects
  cases hi : app.routers[i]? with
  | none => simp
  | some router => simp [matchRouterPath_iff]

/-- The group `/admin` with a middleware, and the route `/admin/users`. -/
def adminOps : List (Op String) :=
  [.router 0 "/admin".toList, .use 1 ["auth"], .route 1 "GET".toList "/users".toList]

def adminApp : Application String where
  routers := [{ pref := [] },
    { pref := "/admin".toList, middlewares := ["auth"], parent := some 0 }]
  router := ({} : Routes).addRoute "GET".toList "/admin/users".toList 0
  routes := [⟨1, "GET".toList, "/users".toList⟩]

theorem group_middlewares_admin :
    Runs.run step {} adminOps = some adminApp ∧
      (adminApp.serveHTTP "GET".toList "/admin/users".toList).2 = some 0 ∧
      (adminApp.groupMiddlewares 1).Sublist
        (adminApp.serveHTTP "GET".toList "/admin/users".toList).1 := by
  have hrun : Runs.run step {} adminOps = some adminApp := by rfl
  have hserve : (adminApp.serveHTTP "GET".toList "/admin/users".toList).2 = some 0 := by
    decide +kernel
  refine ⟨hrun, hserve, (group_middlewares_iff hrun 0 ⟨1, "GET".toList, "/users".toList⟩ _ _ rfl
    hserve).2 fun i hi router hrouter _ => ?_⟩
  rcases mem_cons.1 (show i ∈ [0, 1] from hi) with rfl | hi
  · cases hrouter
    exact .inl rfl
  · cases mem_singleton.1 hi
    cases hrouter
    exact .inr (.inr (.inr (by decide +kernel)))

/-- The request `GET //admin/users` is dispatched to the same route, without the middleware. -/
theorem middleware_bypassed :
    Runs.run step {} adminOps = some adminApp ∧
      adminApp.serveHTTP "GET".toList "//admin/users".toList = ([], some 0) ∧
      adminApp.groupMiddlewares 1 = [(1, "auth")] :=
  ⟨by rfl, by decide +kernel, by decide +kernel⟩

end Yukino.Http
