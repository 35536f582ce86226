import Swifties.Deployment
import Swifties.IoServiceRecords

/-!
# A deployment with a store

The config says where the records of the API locations are and who may ask for
them.  From the text of the config on: whatever the clients do and in whatever
order, the server is a map of the records to the users of the config, and to
nobody else.
-/

namespace Swifties

open FileTree RequestHandlerDispatcher RoutingTable

namespace IoService

variable {services : Services RequestHandler} {credentials : Credentials}
  {authTime : Int16} {now : ℤ} {fs : FileSystem}
  {pool : Pool FileSystem Server Connection} {events : List Event}
  {invocations : List (Option (ℕ × Invocation))}

/-- A call of a handler that a callback on this connection can make. -/
structure Served (services : Services RequestHandler)
    (credentials : Credentials)
    (call : RequestHandler × Request × Response) : Prop where
  put : ∃ bytes, services.put bytes = .done call.2.1
  credentials : Session.HasCredentials credentials call.2.1
  handler : services.getRequestHandler call.2.1.target = some call.1

/-- Every call of a handler in a run of the server is on a request that was
parsed, that has valid credentials and whose target finds the handler. -/
theorem run_served
    (hrun : Machine.run (step services) (start credentials authTime now fs)
      events = .ok (invocations, pool)) {i : ℕ} {done : Invocation}
    {call : RequestHandler × Request × Response}
    (hdone : some (i, done) ∈ invocations) (hcall : done.call = some call) :
    Served services credentials call := by
  have hact : ∀ (past : List Invocation) (fs : FileSystem)
      (connection : Connection) (completion : Completion) (done : Invocation)
      (next : Connection) (fs' : FileSystem),
      connection.session.credentials = credentials →
      act services fs connection completion = .ok (done, next, fs') →
      (∀ call, done.call = some call → Served services credentials call) ∧
        next.session.credentials = credentials := by
    intro past fs connection completion done next fs' hcredentials haction
    obtain ⟨rfl, rfl, _⟩ := act_eq_ok haction
    obtain ⟨hkept, _⟩ :=
      Connection.step_client services connection (completion.event fs)
    refine ⟨fun call hcall => ?_, hkept.trans hcredentials⟩
    obtain ⟨error, bytes, now, authNow, rfl, hexit, _⟩ :=
      call_eq_some_iff.mp hcall
    obtain ⟨⟨_, hput⟩, _, hvalid, hhandler⟩ :=
      Session.exit_handled_iff.mp hexit
    rw [hcredentials] at hvalid
    exact ⟨⟨_, hput⟩, hvalid, hhandler⟩
  obtain ⟨before, after, houtputs⟩ :=
    List.append_of_mem (Pool.mem_outputsOf_iff.mpr hdone)
  exact run_outputs (fun _ => rfl) hact hrun houtputs call hcall

end IoService

namespace Deployment

/-- An API handler that a target finds is that of a location. -/
theorem api_of_getRequestHandler {d : Deployment} {handlers : Handlers}
    (hroutes : HoldsRoutes d.config handlers) {target : Text}
    {api : RequestHandlerAPI}
    (hfound : getRequestHandler handlers target = some (.api api)) :
    ∃ path root, (path, LocationType.api root) ∈ d.locations ∧
      api = ⟨⟨⟨root⟩⟩, path.stripTrailingSlashes⟩ := by
  obtain ⟨key, hkey, _⟩ := longestMatch_eq_some_iff.mp hfound
  rw [hroutes, Option.or_eq_some_iff] at hkey
  rcases hkey with hroute | ⟨_, hfallback⟩
  · obtain ⟨entry, hfind, hentry⟩ := Option.map_eq_some_iff.mp hroute
    have hmem := List.mem_of_find?_eq_some hfind
    rw [routes_config] at hmem
    obtain ⟨⟨path, type⟩, hlocation, rfl⟩ := List.mem_map.mp hmem
    cases type with
    | api root =>
        cases hentry
        exact ⟨path, root, hlocation, rfl⟩
    | static root | echo | health | sleep => cases hentry
  · split at hfallback
    next => cases hfallback
    next => cases hfallback

/-- All API locations keep their records below one root, in the same directories
for creating and for reading. -/
def OneStore (d : Deployment) (root : Text) : Prop :=
  ∀ path other, (path, LocationType.api other) ∈ d.locations →
    other = root ∧
      (path.stripTrailingSlashes = ['/'] ∨ root.getLast? = some '/')

/-- The port, the timer, the users and the locations of `example_config3.conf`. -/
def shippedDeployment : Deployment where
  port := 80
  timer := 1800
  users :=
    [("tariq".toList, "123".toList), ("milly".toList, "456".toList),
      ("shravan".toList, "789".toList), ("umer".toList, "101".toList)]
  locations :=
    [("/static/".toList, .static "/data".toList), ("/echo/".toList, .echo),
      ("/api/".toList, .api "./api_storage/".toList),
      ("/health".toList, .health), ("/sleep".toList, .sleep)]
  port_le := by decide
  timer_le := by decide
  user_token := by
    simp only [List.forall_mem_cons]
    refine ⟨⟨by decide, ?_⟩, ⟨by decide, ?_⟩, ⟨by decide, ?_⟩, ⟨by decide, ?_⟩,
      by simp⟩ <;>
      exact PlainWord.wordToken ⟨by simp, by simp⟩
  location_token := by
    simp only [List.forall_mem_cons]
    refine ⟨⟨?_, ?_⟩, ⟨?_, ?_⟩, ⟨?_, ?_⟩, ⟨?_, ?_⟩, ⟨?_, ?_⟩, by simp⟩
    case refine_2 =>
      rintro _ ⟨⟩
      exact PlainWord.wordToken ⟨by simp, by simp⟩
    case refine_6 =>
      rintro _ ⟨⟩
      exact PlainWord.wordToken ⟨by simp, by simp⟩
    case refine_4 | refine_8 | refine_10 => rintro _ ⟨⟩
    all_goals exact PlainWord.wordToken ⟨by simp, by simp⟩

theorem oneStore_shippedDeployment :
    shippedDeployment.OneStore "./api_storage/".toList := by
  intro path other hlocation
  simp only [shippedDeployment, List.mem_cons, Prod.mk.injEq, reduceCtorEq,
    LocationType.api.injEq, and_false, List.not_mem_nil, or_false,
    false_or] at hlocation
  exact ⟨hlocation.2, .inr (by decide)⟩

end Deployment

end Swifties
