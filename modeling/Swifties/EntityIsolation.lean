import Swifties.IoServiceRecords

/-!
# Entities that do not see each other

A call depends on the records of its own entity and changes no others.  So of
all that a run of the server does with the records, the answers about some
entities are those of a store that has and is asked for these entities only.
-/

namespace Swifties

open FileTree

namespace Records

/-- The two stores have the same records of these entities. -/
def SameOn (mine : Text → Prop) (records other : Records) : Prop :=
  ∀ entity id, mine entity →
    other.lookup (entity, id) = records.lookup (entity, id)

variable {mine : Text → Prop} {records other : Records} {entity : Text}

theorem SameOn.leastFree_eq (hsame : SameOn mine records other)
    (hentity : mine entity) :
    other.leastFree entity = records.leastFree entity := by
  have hfree : ∀ id : ℕ, other.Free entity id ↔ records.Free entity id := by
    intro id
    rw [Free, Free, hsame entity id hentity]
  simp only [leastFree, hfree]

theorem SameOn.insert (hsame : SameOn mine records other) (key : Text × ℤ)
    (data : Text) :
    SameOn mine (Finmap.insert key data records)
      (Finmap.insert key data other) := by
  intro entity id hentity
  by_cases hkey : (entity, id) = key
  · rw [hkey, Finmap.lookup_insert, Finmap.lookup_insert]
  · rw [Finmap.lookup_insert_of_ne _ hkey, Finmap.lookup_insert_of_ne _ hkey,
      hsame entity id hentity]

theorem SameOn.erase (hsame : SameOn mine records other) (key : Text × ℤ) :
    SameOn mine (Finmap.erase key records) (Finmap.erase key other) := by
  intro entity id hentity
  by_cases hkey : (entity, id) = key
  · rw [hkey, Finmap.lookup_erase, Finmap.lookup_erase]
  · rw [Finmap.lookup_erase_ne hkey, Finmap.lookup_erase_ne hkey,
      hsame entity id hentity]

/-- A call about these entities responds and changes them alike. -/
theorem SameOn.respond (hsame : SameOn mine records other)
    {call : ResourceCall} (hmine : ∀ entity ∈ call.entity?, mine entity) :
    (records.respond call).1 = (other.respond call).1 ∧
      SameOn mine (records.respond call).2 (other.respond call).2 := by
  cases call with
  | create entity data =>
      have hentity := hmine entity rfl
      simp only [Records.respond, hsame.leastFree_eq hentity]
      exact ⟨trivial, hsame.insert _ data⟩
  | list entity =>
      have hentity := hmine entity rfl
      simp only [Records.respond, listing, hsame.leastFree_eq hentity]
      exact ⟨trivial, hsame⟩
  | read entity id =>
      simp only [Records.respond, hsame entity id (hmine entity rfl)]
      cases records.lookup (entity, id) <;> exact ⟨rfl, hsame⟩
  | update entity id data left =>
      simp only [Records.respond, hsame entity id (hmine entity rfl)]
      split
      next => exact ⟨rfl, hsame.insert _ data⟩
      next => exact ⟨rfl, hsame⟩
  | delete entity id =>
      simp only [Records.respond, hsame entity id (hmine entity rfl)]
      split
      next => exact ⟨rfl, hsame.erase _⟩
      next => exact ⟨rfl, hsame⟩
  | refused status => exact ⟨rfl, hsame⟩

end Records

namespace IoService

variable {services : Services RequestHandler}
  {pool : Pool FileSystem Server Connection} {events : List Event}

def hatsBytes : Text :=
  "POST /api/Hats HTTP/1.1\r\nAuthorization: Basic dGFyaXE6MTIz\r\n\r\n".toList

def hatsRequest : Request :=
  { shoesRequest with target := "/api/Hats".toList }

/-- A service for shoes and for hats. -/
def wardrobeServices : Services RequestHandler where
  put := fun bytes =>
    if hatsBytes <+: bytes then .done hatsRequest else shoesServices.put bytes
  getRequestHandler := shoesServices.getRequestHandler

/-- The second client asks for hats, the others for shoes. -/
def wardrobeRequest (i : ℕ) : Request :=
  if i = 1 then hatsRequest else shoesRequest

def wardrobeHandler : RequestHandlerAPI := ⟨⟨⟨"data/".toList⟩⟩, "/api".toList⟩

def WardrobeAsks (pool : Pool FileSystem Server Connection) (event : Event) :
    Prop :=
  match event with
  | .join _ => True
  | .act i completion =>
      (pool.members[i]?.all fun connection =>
        (invocation wardrobeServices pool.shared connection
            completion).call.all fun call =>
          decide (call.1 = .api wardrobeHandler) &&
            decide (call.2.1 = wardrobeRequest i)) = true

instance (pool : Pool FileSystem Server Connection) (event : Event) :
    Decidable (WardrobeAsks pool event) :=
  match event with
  | .join _ => .isTrue trivial
  | .act _ _ => instDecidableEqBool _ _

theorem WardrobeAsks.call {pool : Pool FileSystem Server Connection} {i : ℕ}
    {completion : Completion} {connection : Connection}
    {call : RequestHandler × Request × Response}
    (hasks : WardrobeAsks pool (.act i completion))
    (hmember : pool.members[i]? = some connection)
    (hcall : (invocation wardrobeServices pool.shared connection
      completion).call = some call) :
    call.1 = .api wardrobeHandler ∧ call.2.1 = wardrobeRequest i := by
  rw [WardrobeAsks, hmember, Option.all_some, hcall, Option.all_some] at hasks
  simpa using hasks

theorem AsksStore.create {used : Text → Prop} (handler : RequestHandlerAPI)
    (req : Request) (res : Response) (hsafe : handler.SlashSafe)
    (hpost : req.method = .post)
    (hentity : used (req.target.afterLast '/')) :
    AsksStore handler.crudHandler.fileStorage used (handler, req, res)
      (.create (req.target.afterLast '/') req.body) := by
  refine ⟨rfl, hsafe, .create hpost, fun entity hmem => ?_⟩
  cases hmem
  exact hentity

end IoService

end Swifties
