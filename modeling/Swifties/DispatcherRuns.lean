import Swifties.HandlerPrefixes

/-!
# A dispatcher in use

`registerPath` and `initRequestHandlers` can be called again on a dispatcher
that answers requests.  Its table only grows: a path keeps the handler that was
registered first, and a target moves to another handler only when a longer path
that matches it is new.
-/

namespace Swifties

open RoutingTable

namespace RequestHandlerDispatcher

inductive Call where
  | registerPath (pathUri handlerType : Text) (config : NginxConfig)
  | initRequestHandlers (config : NginxConfig)
  | getRequestHandler (target : Text)

inductive Answer where
  | registered (success : Bool)
  | initialized (count : ℕ)
  | found (handler : Option RequestHandler)

/-- A call of a member function; it fails where the function reads a missing
token or follows a null pointer. -/
def call (handlers : Handlers) : Call → Except Unit (Answer × Handlers)
  | .registerPath pathUri handlerType config =>
      match registerPath handlers pathUri handlerType config with
      | none => .error ()
      | some (registered, handlers) => .ok (.registered registered, handlers)
  | .initRequestHandlers config =>
      match initRequestHandlers handlers config with
      | none => .error ()
      | some (count, handlers) => .ok (.initialized count, handlers)
  | .getRequestHandler target =>
      .ok (.found (getRequestHandler handlers target), handlers)

def Answer.count : Answer → ℕ
  | .registered success => success.toNat
  | .initialized count => count
  | .found _ => 0

/-! ## What a call adds -/

theorem registerPath_grows {handlers table : Handlers}
    {pathUri handlerType : Text} {block : NginxConfig} {registered : Bool}
    (hregister : registerPath handlers pathUri handlerType block =
      some (registered, table)) : Grows registered.toNat handlers table := by
  unfold registerPath at hregister
  simp only at hregister
  split at hregister
  next =>
    cases hregister
    exact .refl _
  next hcontains =>
    rw [Bool.not_eq_true] at hcontains
    split at hregister
    next => cases hregister
    next =>
      cases hregister
      exact .refl _
    next handler _ =>
      cases hregister
      exact .insert hcontains handler

theorem registerLocations_grows {handlers table : Handlers}
    {block : NginxConfig} {count : ℕ}
    (hregister : registerLocations handlers block = some (count, table)) :
    Grows count handlers table := by
  induction block generalizing handlers count with
  | nil =>
      cases hregister
      exact .refl _
  | cons statement rest ih =>
      rw [registerLocations] at hregister
      split at hregister
      next => cases hregister
      next first arguments _ =>
        split at hregister
        next => exact ih hregister
        next =>
          split at hregister
          next pathUri handlerType more block _ =>
            split at hregister
            next => cases hregister
            next registered between hpath =>
              obtain ⟨⟨others, last⟩, hrest, hlast⟩ :=
                Option.map_eq_some_iff.mp hregister
              cases hlast
              exact (registerPath_grows hpath).trans (ih hrest)
          next => cases hregister

theorem registerServer_grows {handlers table : Handlers}
    {config : NginxConfig} {count : ℕ}
    (hregister : registerServer handlers config = some (count, table)) :
    Grows count handlers table := by
  induction config with
  | nil =>
      cases hregister
      exact .refl _
  | cons statement rest ih =>
      rw [registerServer] at hregister
      split at hregister
      next => cases hregister
      next =>
        split at hregister
        next =>
          split at hregister
          next => cases hregister
          next => exact registerLocations_grows hregister
        next => exact ih hregister

theorem contains_of_grows {added : ℕ} {handlers table : Handlers}
    (hgrows : Grows added handlers table) {path : Text}
    (hcontains : handlers.contains path = true) :
    table.contains path = true := by
  rw [Std.TreeMap.contains_eq_isSome_getElem?, Option.isSome_iff_exists]
    at hcontains ⊢
  obtain ⟨handler, hhandler⟩ := hcontains
  exact ⟨handler, hgrows.kept path handler hhandler⟩

theorem initRequestHandlers_grows {handlers table : Handlers}
    {config : NginxConfig} {count : ℕ}
    (hroot : handlers.contains ['/'] = true)
    (hinit : initRequestHandlers handlers config = some (count, table)) :
    Grows count handlers table := by
  obtain ⟨⟨registered, between⟩, hserver, hlast⟩ :=
    Option.map_eq_some_iff.mp hinit
  have hgrows := registerServer_grows hserver
  simp only [contains_of_grows hgrows hroot, if_true] at hlast
  cases hlast
  exact hgrows

theorem initRequestHandlers_root {handlers table : Handlers}
    {config : NginxConfig} {count : ℕ}
    (hinit : initRequestHandlers handlers config = some (count, table)) :
    table.contains ['/'] = true := by
  obtain ⟨⟨registered, between⟩, _, hlast⟩ := Option.map_eq_some_iff.mp hinit
  simp only at hlast
  split at hlast
  next hcontains =>
    cases hlast
    exact hcontains
  next =>
    cases hlast
    exact Std.TreeMap.contains_insert_self

theorem call_grows {handlers next : Handlers} {c : Call} {answer : Answer}
    (hroot : handlers.contains ['/'] = true)
    (hcall : call handlers c = .ok (answer, next)) :
    Grows answer.count handlers next := by
  cases c with
  | registerPath pathUri handlerType config =>
      rw [call] at hcall
      split at hcall
      next => cases hcall
      next hregister =>
        cases hcall
        exact registerPath_grows hregister
  | initRequestHandlers config =>
      rw [call] at hcall
      split at hcall
      next => cases hcall
      next hinit =>
        cases hcall
        exact initRequestHandlers_grows hroot hinit
  | getRequestHandler target =>
      cases hcall
      exact .refl _

/-! ## Whole runs -/

theorem run_grows_of_root {handlers last : Handlers} {calls : List Call}
    {answers : List Answer} (hroot : handlers.contains ['/'] = true)
    (hrun : Machine.run call handlers calls = .ok (answers, last)) :
    Grows (answers.map Answer.count).sum handlers last := by
  induction calls generalizing handlers answers with
  | nil =>
      cases hrun
      exact .refl _
  | cons c calls ih =>
      obtain ⟨answer, next, rest, hcall, hrest, rfl⟩ :=
        Machine.run_cons_eq_ok_iff.mp hrun
      have hgrows := call_grows hroot hcall
      have hlater := ih (contains_of_grows hgrows hroot) hrest
      rw [List.map_cons, List.sum_cons, Nat.add_comm]
      exact hgrows.trans hlater

theorem slash_prefix_of_head? {target : Text}
    (htarget : target.head? = some '/') :
    ['/'] <+: target.stripTrailingSlashes := by
  rw [← Text.stripTrailingSlashes_head?] at htarget
  obtain ⟨rest, hrest⟩ := List.head?_eq_some_iff.mp htarget
  rw [hrest]
  exact List.prefix_append ['/'] rest

theorem getRequestHandler_isSome {handlers : Handlers}
    (hroot : handlers.contains ['/'] = true) {target : Text}
    (htarget : target.head? = some '/') :
    ∃ handler, getRequestHandler handlers target = some handler := by
  rw [Std.TreeMap.contains_eq_isSome_getElem?, Option.isSome_iff_exists]
    at hroot
  obtain ⟨handler, hhandler⟩ := hroot
  exact longestMatch_isSome hhandler (List.cons_ne_nil _ _)
    (slash_prefix_of_head? htarget)

/-- Whatever calls a dispatcher has answered and whatever calls follow: no path
loses its handler, as many paths are added as the calls count, and every target
has a handler before and after, the same one unless a path that was added goes
further along the target. -/
theorem run_grows {config : NginxConfig} {count : ℕ}
    {start handlers last : Handlers} {earlier later : List Call}
    {before after : List Answer}
    (hinit : initRequestHandlers ∅ config = some (count, start))
    (hearlier : Machine.run call start earlier = .ok (before, handlers))
    (hlater : Machine.run call handlers later = .ok (after, last)) :
    (∀ (path : Text) (handler : RequestHandler),
      handlers[path]? = some handler → last[path]? = some handler) ∧
    last.size = handlers.size + (after.map Answer.count).sum ∧
    ∀ target : Text, target.head? = some '/' →
      ∃ handler handler', getRequestHandler handlers target = some handler ∧
        getRequestHandler last target = some handler' ∧
        (handler' = handler ∨ ∃ path path' : Text,
          handlers[path]? = some handler ∧ handlers[path']? = none ∧
          last[path']? = some handler' ∧ path <+: path' ∧ path ≠ path' ∧
          path' <+: target.stripTrailingSlashes) := by
  have hroot := contains_of_grows
    (run_grows_of_root (initRequestHandlers_root hinit) hearlier)
    (initRequestHandlers_root hinit)
  have hgrows := run_grows_of_root hroot hlater
  refine ⟨hgrows.kept, hgrows.size_eq, fun target htarget => ?_⟩
  obtain ⟨handler, hhandler⟩ := getRequestHandler_isSome hroot htarget
  obtain ⟨handler', hhandler', hcases⟩ := hgrows.longestMatch_cases hhandler
  exact ⟨handler, handler', hhandler, hhandler', hcases⟩

/-- The second location has the path of a location of the config, the third
one is longer. -/
theorem run_grows_static :
    let config : NginxConfig :=
      [.block ["server".toList]
        [.block ["location".toList, "/static".toList, "StaticHandler".toList]
          []]]
    let later : List Call :=
      [.registerPath "/static/".toList "EchoHandler".toList [],
        .registerPath "/static/echo".toList "EchoHandler".toList []]
    ∃ count start after last,
      initRequestHandlers ∅ config = some (count, start) ∧
      Machine.run call start later = .ok (after, last) ∧
      last.size = start.size + (after.map Answer.count).sum ∧
      ∀ target : Text, target.head? = some '/' →
        ∃ handler handler', getRequestHandler start target = some handler ∧
          getRequestHandler last target = some handler' ∧
          (handler' = handler ∨ ∃ path path' : Text,
            start[path]? = some handler ∧ start[path']? = none ∧
            last[path']? = some handler' ∧ path <+: path' ∧ path ≠ path' ∧
            path' <+: target.stripTrailingSlashes) := by
  intro config later
  have hok : ((initRequestHandlers ∅ config).any fun result =>
      (Machine.run call result.2 later).toBool) = true := by
    decide +kernel
  rw [Option.any_eq_true] at hok
  obtain ⟨⟨count, start⟩, hinit, hok⟩ := hok
  obtain ⟨⟨after, last⟩, hrun⟩ := Machine.exists_of_toBool hok
  have hnone : Machine.run call start [] = .ok ([], start) := rfl
  obtain ⟨_, hsize, hfound⟩ := run_grows hinit hnone hrun
  exact ⟨count, start, after, last, hinit, hrun, hsize, hfound⟩

end RequestHandlerDispatcher

end Swifties
