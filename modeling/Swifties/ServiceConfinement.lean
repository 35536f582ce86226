import Swifties.Confinement
import Swifties.DeploymentRuns

/-!
# What a run leaves alone

A handler changes the tree of files on the way to the paths of its storage.  So
does a run of the server, and where no request climbs with `..`, all that a run
changes lies below the roots of the API locations or on the way to them.
-/

namespace Swifties

open FileTree RequestHandlerDispatcher

namespace IoService

theorem serve_cwd {fs next : FileSystem}
    {call : RequestHandler × Request × Response} {answer : Response}
    (hserve : serve fs call = .ok (answer, next)) : next.cwd = fs.cwd := by
  obtain ⟨handler, req, res⟩ := call
  cases handler with
  | api api =>
      cases RequestHandlerAPI.handleRequest_effect hserve with
      | unchanged => rfl
      | created _ _ hwritten => exact (FileStorage.write_eq_ok hwritten).1
      | updated _ _ _ _ hwritten => exact (FileStorage.write_eq_ok hwritten).1
      | deleted _ _ _ hexists hremoved =>
          rw [CRUDHandler.exists?_eq, Option.isSome_iff_exists] at hexists
          obtain ⟨node, hnode⟩ := hexists
          exact (FileStorage.remove_eq_ok hnode hremoved).1
  | static | echo | health | sleep | notFound =>
      cases hserve
      rfl

/-- A call changes the tree only as an API handler, on the way to a path that it
passes to its storage. -/
def Touches (fs : FileSystem) (call : RequestHandler × Request × Response)
    (path : Path) : Prop :=
  ∃ api touched, call.1 = .api api ∧
    RequestHandlerAPI.PathCall api call.2.1 fs touched ∧
    OnWay fs.cwd touched path

theorem serve_touches {fs next : FileSystem}
    {call : RequestHandler × Request × Response} {answer : Response}
    (hserve : serve fs call = .ok (answer, next)) {path : Path}
    (hchanged : next.node? path ≠ fs.node? path) : Touches fs call path := by
  obtain ⟨handler, req, res⟩ := call
  cases handler with
  | api api =>
      obtain ⟨touched, hcall, hpath⟩ :=
        RequestHandlerAPI.handleRequest_changes hserve hchanged
      exact ⟨api, touched, rfl, hcall, hpath⟩
  | static | echo | health | sleep | notFound =>
      cases hserve
      exact (hchanged rfl).elim

variable {services : Services RequestHandler}
  {pool last : Pool FileSystem Server Connection} {events : List Event}
  {invocations : List (Option (ℕ × Invocation))}

/-- What a run of the server changes, one of its calls has touched. -/
theorem run_touches
    (hrun : Machine.run (step services) pool events = .ok (invocations, last))
    {path : Path}
    (hchanged : last.shared.node? path ≠ pool.shared.node? path) :
    ∃ call ∈ Pool.callsOf Invocation.call invocations, ∃ fs,
      fs.cwd = pool.shared.cwd ∧ Touches fs call path := by
  have hact : ∀ fs connection completion done next fs',
      (rules services).act fs connection completion = .ok (done, next, fs') →
        Machine.run serve fs done.call.toList =
          .ok (done.reply.toList, fs') :=
    fun _ _ _ _ _ _ haction => (act_eq_ok haction).2.2
  let view := fun fs : FileSystem => fs.node? path
  have hview : view last.shared ≠ view pool.shared := hchanged
  obtain ⟨before, call, after, _, fs, answer, next, hcalls, hbefore, hserve,
    hnode⟩ := Machine.run_changed (Pool.run_calls hact hrun) hview
  have hcwd : ∀ fs' call answer next, fs'.cwd = pool.shared.cwd → True →
      serve fs' call = .ok (answer, next) → next.cwd = pool.shared.cwd :=
    fun _ _ _ _ hcwd _ hserve => (serve_cwd hserve).trans hcwd
  have hmem : call ∈ Pool.callsOf Invocation.call invocations := by
    rw [hcalls]
    exact List.mem_append_right before List.mem_cons_self
  exact ⟨call, hmem, fs, Machine.run_invariant hcwd rfl
    (Machine.before_of_forall fun _ _ => trivial) hbefore,
    serve_touches hserve hnode⟩

end IoService

namespace Deployment

/-- Whatever the clients do: of the files and directories that are there when the
deployment starts, and of those that are not, a run changes only what lies below
the root of an API location or on the way to it, where these roots end with a
slash and no request to them climbs with `..`. -/
theorem main_changes_below {d : Deployment} {port authTime : Int16}
    {credentials : Credentials} {handlers : Handlers}
    (hmain : main d.text =
      some (.serving port authTime credentials handlers))
    (hslash : ∀ path root, (path, LocationType.api root) ∈ d.locations →
      root.getLast? = some '/')
    {put : Text → PutResult} {fs : FileSystem} {now : ℤ}
    {events : List IoService.Event}
    {invocations : List (Option (ℕ × Invocation))}
    {last : Pool FileSystem Server Connection}
    (hrun : Machine.run (IoService.step ⟨put, getRequestHandler handlers⟩)
      (IoService.start credentials authTime now fs) events =
        .ok (invocations, last))
    (hup : ∀ call ∈ Pool.callsOf Invocation.apiCall invocations, ∀ entity,
      call.1.entity? call.2.1 = some entity → ['.', '.'] ∉ entity.splitOn '/')
    {path : Path} (hchanged : last.shared.node? path ≠ fs.node? path) :
    ∃ location root, (location, LocationType.api root) ∈ d.locations ∧
      (resolve fs.cwd root <:+ path ∨ OnWay fs.cwd root path) := by
  obtain ⟨_, _, hserving, _, hroutes⟩ := d.serving_text
  rw [hmain, Option.some.injEq, StartResult.serving.injEq] at hserving
  obtain ⟨_, rfl, rfl, rfl⟩ := hserving
  obtain ⟨⟨handler, req, res⟩, hcall, fs', hcwd, api, touched, hapi, htouched,
    hpath⟩ := IoService.run_touches hrun hchanged
  cases hapi
  obtain ⟨i, done, hdone, hmade⟩ := Pool.mem_callsOf_iff.mp hcall
  have happ : done.apiCall = some (api, req, res) := by
    rw [Invocation.apiCall, hmade]
  obtain ⟨_, _, hhandler⟩ := IoService.run_served hrun hdone hmade
  obtain ⟨location, root, hlocation, rfl⟩ :=
    api_of_getRequestHandler hroutes hhandler
  obtain ⟨entity, id, hentity, rfl⟩ := htouched.entity
  have hclimbs := hup _ (Pool.mem_callsOf_iff.mpr ⟨i, done, hdone, happ⟩) entity
    hentity
  have hlast := hslash location root hlocation
  have hne : root ≠ [] := by
    rintro rfl
    cases hlast
  rw [hcwd] at hpath
  have hclimbs' : ['.', '.'] ∉
      (entity ++ '/' :: Text.decimal id).splitOn '/' := by
    rw [List.splitOn_append_cons_self, List.mem_append, not_or]
    exact ⟨hclimbs, (plainName_decimal id).up_not_mem⟩
  rw [FileStorage.getPath, List.append_assoc,
    onWay_base_append hlast hclimbs', ← List.append_assoc] at hpath
  let api : RequestHandlerAPI := ⟨⟨⟨root⟩⟩, location.stripTrailingSlashes⟩
  obtain ⟨hbelow, _⟩ := (RequestHandlerAPI.strictly_below_iff
    (show api.crudHandler.fileStorage.basePath ≠ [] from hne) fs.cwd entity
      id).mpr (staysBelow_of_not_mem hne (.inl hlast) hclimbs fs.cwd)
  refine ⟨location, root, hlocation, ?_⟩
  rcases hpath with hway | hsuffix
  · exact .inr hway
  · exact (List.suffix_or_suffix_of_suffix hbelow hsuffix).imp_right
      onWay_of_suffix

theorem main_changes_below_shipped :
    let path : Path :=
      ["1".toList, "Shoes".toList, "api_storage".toList, "srv".toList]
    ∃ port authTime credentials handlers invocations last,
      main shippedDeployment.text =
        some (.serving port authTime credentials handlers) ∧
      Machine.run (IoService.step
          ⟨IoService.shoesServices.put, getRequestHandler handlers⟩)
          (IoService.start credentials authTime 0 (.empty ["srv".toList]))
          IoService.shoesEvents = .ok (invocations, last) ∧
      ∃ location root,
        (location, LocationType.api root) ∈ shippedDeployment.locations ∧
        (resolve ["srv".toList] root <:+ path ∨
          OnWay ["srv".toList] root path) := by
  intro path
  let serves : StartResult → Bool
    | .serving _ authTime credentials handlers =>
        match Machine.run (IoService.step
            ⟨IoService.shoesServices.put, getRequestHandler handlers⟩)
            (IoService.start credentials authTime 0 (.empty ["srv".toList]))
            IoService.shoesEvents with
        | .ok (_, last) => (last.shared.node? path).isSome
        | .error _ => false
    | _ => false
  have hserves : (main shippedDeployment.text).any serves = true := by
    decide +kernel
  rw [Option.any_eq_true] at hserves
  obtain ⟨result, hmain, hresult⟩ := hserves
  cases result with
  | unableToParse | invalidPort | invalidAuthTime => cases hresult
  | serving port authTime credentials handlers =>
      simp only [serves] at hresult
      split at hresult
      next invocations last hrun =>
        refine ⟨port, authTime, credentials, handlers, invocations, last, hmain,
          hrun, main_changes_below hmain ?_ hrun ?_ ?_⟩
        · intro path root hlocation
          obtain ⟨rfl, _⟩ := oneStore_shippedDeployment path root hlocation
          decide
        · intro call hcall entity hentity
          obtain ⟨i, done, hdone, happ⟩ := Pool.mem_callsOf_iff.mp hcall
          obtain ⟨bytes, hput⟩ := (IoService.run_served hrun hdone
            (IoService.apiCall_eq_some happ)).put
          rw [IoService.shoesServices_put hput] at hentity
          have hshoes : entity = "Shoes".toList :=
            (Option.some.inj hentity).symm
          rw [hshoes]
          decide
        · rw [FileSystem.node?_empty, if_neg (by decide)]
          intro hnone
          rw [hnone] at hresult
          cases hresult
      next => cases hresult

end Deployment

end Swifties
