import Swifties.ApiRefinement
import Swifties.IoServiceRuns

/-!
# The server as a record store

However the sessions interleave, the answers that the API writes are those of
one store of records that gets their requests one at a time, in the order in
which their callbacks run.
-/

namespace Swifties

open FileTree

namespace Invocation

/-- The call of an API handler that the callback makes, if it makes one. -/
def apiCall (invocation : Invocation) :
    Option (RequestHandlerAPI × Request × Response) :=
  match invocation.call with
  | some (.api api, req, res) => some (api, req, res)
  | _ => none

end Invocation

namespace IoService

/-- The call asks a handler on the storage for something about an entity that
is in use. -/
structure AsksStore (storage : FileStorage) (used : Text → Prop)
    (call : RequestHandlerAPI × Request × Response) (asked : ResourceCall) :
    Prop where
  storage_eq : call.1.crudHandler.fileStorage = storage
  safe : call.1.SlashSafe
  asks : call.1.Asks call.2 asked
  entity_used : ∀ entity ∈ asked.entity?, used entity

variable {services : Services RequestHandler} {fs fs' : FileSystem}
  {connection : Connection} {completion : Completion}

theorem apiCall_eq_some {api : RequestHandlerAPI} {req : Request}
    {res : Response} {done : Invocation}
    (hcall : done.apiCall = some (api, req, res)) :
    done.call = some (.api api, req, res) := by
  rw [Invocation.apiCall] at hcall
  split at hcall
  next _ hsome =>
    cases hcall
    exact hsome
  next => cases hcall

/-- The files store the records, and `n` more creates do not use up the ids. -/
structure StoresFor (storage : FileStorage) (used : Text → Prop) (cwd : Path)
    (n : ℕ) (fs : FileSystem) (records : Records) : Prop where
  stores : storage.Stores used cwd fs records
  room : ∀ entity, (records.idsOf entity).card + n ≤ 2147483647

/-- A call is answered as the records respond, and uses up one id at most. -/
theorem AsksStore.serve {storage : FileStorage} {used : Text → Prop}
    {cwd : Path} {n : ℕ} {records : Records}
    {call : RequestHandlerAPI × Request × Response} {asked : ResourceCall}
    (hstore : AsksStore storage used call asked)
    (hplain : ∀ entity, used entity → PlainName entity)
    (hstores : StoresFor storage used cwd (n + 1) fs records) :
    ∃ answer next, IoService.serve fs (.api call.1, call.2) =
        .ok (answer, next) ∧
      RequestHandlerAPI.shown answer = (records.respond asked).1 ∧
      StoresFor storage used cwd n next (records.respond asked).2 := by
  obtain ⟨rfl, hsafe, hask, hentity⟩ := hstore
  obtain ⟨answer, next, hserve, hshown, hnext⟩ :=
    RequestHandlerAPI.serve_refines hsafe hplain hstores.stores hask
      fun entity hmem => by
        have hroom := hstores.room entity
        exact ⟨hentity entity hmem, by omega⟩
  refine ⟨answer, next, hserve, hshown, hnext, fun entity => ?_⟩
  have hroom := hstores.room entity
  have hle := Records.card_idsOf_respond_le records asked entity
  omega

variable {pool : Pool FileSystem Server Connection} {events : List Event}

theorem shoesServices_put {bytes : Text} {request : Request}
    (hput : shoesServices.put bytes = .done request) :
    request = shoesRequest := by
  simp only [shoesServices] at hput
  split at hput
  next =>
    cases hput
    rfl
  next => cases hput

end IoService

end Swifties
