import Swifties.CrudHandler
import Swifties.Http

/-!
# The API handler

`RequestHandlerAPI::handleRequest`, one definition for each branch on the
method.  A create takes the entity after the last slash of the whole target;
the other methods first remove the configured prefix.
-/

namespace Swifties

open FileTree

structure RequestHandlerAPI where
  crudHandler : CRUDHandler
  pathPrefix : Text
deriving DecidableEq, Repr

namespace RequestHandlerAPI

def removePrefix (handler : RequestHandlerAPI) (path : Text) : Option Text :=
  if path.length < handler.pathPrefix.length then none
  else if path.take handler.pathPrefix.length ≠ handler.pathPrefix then none
  else some (path.drop handler.pathPrefix.length)

/-- `std::isdigit(s[0])`; `s[0]` of an empty string is the null character. -/
def startsWithDigit : Text → Bool
  | [] => false
  | c :: _ => c.isDigit

/-- The loop of the list request, from the id and the body reached so far.
`left` counts the values that remain before `id++` overflows. -/
def listLoop (present : ℤ → Bool) : ℕ → ℤ → Text → Except Fault Text
  | 0, _, _ => .error .signedOverflow
  | left + 1, id, body =>
      if present id then
        let separated := if 1 < id then body ++ ", ".toList else body
        listLoop present left (id + 1) (separated ++ Text.decimal id)
      else .ok body

def list (handler : RequestHandlerAPI) (entityId : Text) (fs : FileSystem) :
    Except Fault Text := do
  let ids ← listLoop (fun id => handler.crudHandler.exists? entityId id fs)
    2147483647 1 "[".toList
  .ok (ids ++ "]".toList)

def handlePost (handler : RequestHandlerAPI) (req : Request) (res : Response)
    (fs : FileSystem) : Except Fault (Response × FileSystem) := do
  let entity := req.target.afterLast '/'
  let (responseBody, fs) ← handler.crudHandler.create entity req.body fs
  .ok (res.reply .ok responseBody, fs)

def handleGet (handler : RequestHandlerAPI) (req : Request) (res : Response)
    (fs : FileSystem) : Except Fault (Response × FileSystem) :=
  match handler.removePrefix req.target with
  | none =>
      .ok (res.reply .notFound "Invalid Request: get request".toList, fs)
  | some entityId =>
      let entity := entityId.beforeLast '/'
      let idStr := entityId.afterLast '/'
      if startsWithDigit idStr then
        match Text.lexicalCast idStr with
        | none =>
            .ok (res.reply .notFound
              "Invalid Request: retrieve failed".toList, fs)
        | some id =>
            if handler.crudHandler.exists? entity id fs then
              .ok (res.reply .ok (handler.crudHandler.read entity id fs), fs)
            else
              .ok (res.reply .notFound
                "Invalid Request: file not found".toList, fs)
      else do
        let responseBody ← handler.list entityId fs
        .ok (res.reply .ok responseBody, fs)

def handlePut (handler : RequestHandlerAPI) (req : Request) (res : Response)
    (fs : FileSystem) : Except Fault (Response × FileSystem) :=
  match handler.removePrefix req.target with
  | none => .ok (res.reply .notFound "Invalid Request".toList, fs)
  | some entityId =>
      let entity := entityId.beforeLast '/'
      let idStr := entityId.afterLast '/'
      match Text.lexicalCast idStr with
      | none => .ok (res.reply .notFound "Invalid Request".toList, fs)
      | some id => do
          let (success, fs) ←
            handler.crudHandler.update entity id req.body fs
          if success then
            .ok (Response.preparePayload { res with result := .ok }, fs)
          else .ok (res.reply .notFound "Invalid Request".toList, fs)

def handleDelete (handler : RequestHandlerAPI) (req : Request)
    (res : Response) (fs : FileSystem) :
    Except Fault (Response × FileSystem) :=
  match handler.removePrefix req.target with
  | none =>
      .ok (res.reply .notFound
        "Invalid Request: entity does not exist".toList, fs)
  | some entityId =>
      let entity := entityId.beforeLast '/'
      let idStr := entityId.afterLast '/'
      match Text.lexicalCast idStr with
      | none =>
          .ok (res.reply .badRequest
            "Invalid Request: entity_id could not be parsed".toList, fs)
      | some id => do
          let (success, fs) ← handler.crudHandler.delete entity id fs
          if success then
            .ok (res.reply .ok "successfully deleted".toList, fs)
          else
            .ok (res.reply .notFound
              "Invalid Request: entity id does not exist".toList, fs)

def handleRequest (handler : RequestHandlerAPI) (req : Request)
    (res : Response) (fs : FileSystem) :
    Except Fault (Response × FileSystem) :=
  let res := Response.set { res with version := req.version } .contentType
    "application/json".toList
  match req.method with
  | .post => handler.handlePost req res fs
  | .get => handler.handleGet req res fs
  | .put => handler.handlePut req res fs
  | .delete => handler.handleDelete req res fs
  | .other =>
      .ok (res.reply .badRequest
        "\x7b\"error\": \"Unsupported HTTP method\"\x7d".toList, fs)

variable {handler : RequestHandlerAPI} {req : Request}
  {fs next : FileSystem}

theorem handleRequest_post_ok (hpost : req.method = .post) {body : Text}
    (hcreate : handler.crudHandler.create (req.target.afterLast '/') req.body
      fs = .ok (body, next)) (res : Response) :
    ∃ answer, handler.handleRequest req res fs = .ok (answer, next) ∧
      answer.result = .ok ∧ answer.body = body := by
  simp only [handleRequest, hpost, handlePost, hcreate, bind, Except.bind]
  exact ⟨_, rfl, rfl, rfl⟩

theorem handleRequest_post_eq_ok {res answer : Response} (hpost : req.method = .post)
    (hanswer : handler.handleRequest req res fs = .ok (answer, next)) :
    ∃ id, handler.crudHandler.getNextId (req.target.afterLast '/') fs =
        .ok id ∧
      answer.result = .ok ∧ answer.body = CRUDHandler.idResponse id ∧
      handler.crudHandler.fileStorage.write (req.target.afterLast '/') id
        req.body fs = .ok next := by
  simp only [handleRequest, hpost, handlePost] at hanswer
  rw [Machine.bind_eq_ok_iff] at hanswer
  obtain ⟨⟨body, written⟩, hcreate, hok⟩ := hanswer
  cases hok
  obtain ⟨id, hid, rfl, hwritten⟩ := CRUDHandler.create_eq_ok hcreate
  exact ⟨id, hid, rfl, rfl, hwritten⟩

theorem handleRequest_get_id (hget : req.method = .get) {entityId : Text}
    {id : ℤ} (hstart : handler.removePrefix req.target = some entityId)
    (hdigit : startsWithDigit (entityId.afterLast '/') = true)
    (hcast : Text.lexicalCast (entityId.afterLast '/') = some id)
    (res : Response) (fs : FileSystem) :
    ∃ answer, handler.handleRequest req res fs = .ok (answer, fs) ∧
      match handler.crudHandler.fileStorage.find? fs
          (entityId.beforeLast '/') id with
      | none => answer.result = .notFound
      | some .dir | some .locked => answer.result = .ok ∧ answer.body = []
      | some (.file data) => answer.result = .ok ∧ answer.body = data := by
  simp only [handleRequest, hget, handleGet, hstart, hdigit, if_true, hcast,
    CRUDHandler.exists?_eq, CRUDHandler.read, FileStorage.read_eq]
  cases handler.crudHandler.fileStorage.find? fs (entityId.beforeLast '/')
      id with
  | none => exact ⟨_, rfl, rfl⟩
  | some node => cases node <;> exact ⟨_, rfl, rfl, rfl⟩

theorem startsWithDigit_decimal {id : ℤ} (hnonneg : 0 ≤ id) :
    startsWithDigit (Text.decimal id) = true := by
  obtain ⟨c, t, hdecimal, hc⟩ := Text.head_decimal_isDigit hnonneg
  rw [hdecimal]
  exact hc

theorem handleRequest_get_record (hget : req.method = .get)
    {entity : Text} {id : ℤ}
    (hstart : handler.removePrefix req.target =
      some (entity ++ '/' :: Text.decimal id))
    (hnonneg : 0 ≤ id) (hmax : id ≤ intMax) (res : Response)
    (fs : FileSystem) :
    ∃ answer, handler.handleRequest req res fs = .ok (answer, fs) ∧
      match handler.crudHandler.fileStorage.find? fs entity id with
      | none => answer.result = .notFound
      | some .dir | some .locked => answer.result = .ok ∧ answer.body = []
      | some (.file data) => answer.result = .ok ∧ answer.body = data := by
  have hslash := Text.slash_not_mem_decimal id
  have hafter : Text.afterLast (entity ++ '/' :: Text.decimal id) '/' =
      Text.decimal id := Text.afterLast_append_cons hslash
  have hanswer := handleRequest_get_id hget hstart
    (by rw [hafter, startsWithDigit_decimal hnonneg])
    (by rw [hafter, Text.lexicalCast_decimal hnonneg hmax]) res fs
  rwa [Text.beforeLast_append_cons hslash] at hanswer

/-! ## One equation for each method that names a record -/

/-- The record that an update or a delete of the target is about. -/
def record? (handler : RequestHandlerAPI) (target : Text) :
    Option (Text × ℤ) :=
  (handler.removePrefix target).bind fun entityId =>
    (Text.lexicalCast (entityId.afterLast '/')).map fun id =>
      (entityId.beforeLast '/', id)

/-- The response as every method gets it. -/
def typed (req : Request) (res : Response) : Response :=
  Response.set { res with version := req.version } .contentType
    "application/json".toList

theorem record?_eq_some_iff {target entity : Text} {id : ℤ} :
    handler.record? target = some (entity, id) ↔
      ∃ entityId, handler.removePrefix target = some entityId ∧
        Text.lexicalCast (entityId.afterLast '/') = some id ∧
        entityId.beforeLast '/' = entity := by
  rw [record?, Option.bind_eq_some_iff]
  simp only [Option.map_eq_some_iff, Prod.mk.injEq]
  constructor
  · rintro ⟨entityId, hstart, _, hcast, hentity, rfl⟩
    exact ⟨entityId, hstart, hcast, hentity⟩
  · rintro ⟨entityId, hstart, hcast, hentity⟩
    exact ⟨entityId, hstart, id, hcast, hentity, rfl⟩

theorem handleRequest_put (hput : req.method = .put) (res : Response)
    (fs : FileSystem) :
    handler.handleRequest req res fs =
      match handler.record? req.target with
      | none =>
          .ok ((typed req res).reply .notFound "Invalid Request".toList, fs)
      | some (entity, id) =>
          (handler.crudHandler.update entity id req.body fs).map fun result =>
            (if result.1 then
              Response.preparePayload { typed req res with result := .ok }
            else (typed req res).reply .notFound "Invalid Request".toList,
              result.2) := by
  simp only [handleRequest, hput, handlePut, record?, typed]
  cases handler.removePrefix req.target with
  | none => rfl
  | some entityId =>
      cases hcast : Text.lexicalCast (entityId.afterLast '/') with
      | none => simp [hcast]
      | some id =>
          simp only [Option.bind_some, hcast, Option.map_some]
          cases handler.crudHandler.update (entityId.beforeLast '/') id
              req.body fs with
          | error fault => rfl
          | ok result =>
              obtain ⟨success, written⟩ := result
              cases success <;> rfl

theorem handleRequest_delete (hdelete : req.method = .delete)
    (res : Response) (fs : FileSystem) :
    ∃ status refusal, status ≠ .ok ∧
      handler.handleRequest req res fs =
        match handler.record? req.target with
        | none => .ok ((typed req res).reply status refusal, fs)
        | some (entity, id) =>
            (handler.crudHandler.delete entity id fs).map fun result =>
              (if result.1 then
                (typed req res).reply .ok "successfully deleted".toList
              else
                (typed req res).reply .notFound
                  "Invalid Request: entity id does not exist".toList,
                result.2) := by
  simp only [handleRequest, hdelete, handleDelete, record?, typed]
  cases handler.removePrefix req.target with
  | none => exact ⟨.notFound, _, by decide, rfl⟩
  | some entityId =>
      cases hcast : Text.lexicalCast (entityId.afterLast '/') with
      | none => exact ⟨.badRequest, _, by decide, by simp [hcast]; rfl⟩
      | some id =>
          refine ⟨.notFound, [], by decide, ?_⟩
          simp only [Option.bind_some, hcast, Option.map_some]
          cases handler.crudHandler.delete (entityId.beforeLast '/') id
              fs with
          | error fault => rfl
          | ok result =>
              obtain ⟨success, removed⟩ := result
              cases success <;> rfl

/-- An update is answered with 200 exactly where something is at the path of
the record.  A regular file there then holds the body. -/
theorem put_ok_cases (hput : req.method = .put) {res answer : Response}
    (hanswer : handler.handleRequest req res fs = .ok (answer, next)) :
    (answer.result ≠ .ok ∧ next = fs) ∨
      ∃ entity id node, handler.record? req.target = some (entity, id) ∧
        handler.crudHandler.fileStorage.find? fs entity id = some node ∧
        handler.crudHandler.fileStorage.write entity id req.body fs =
          .ok next ∧
        answer = Response.preparePayload { typed req res with result := .ok } := by
  rw [handleRequest_put hput] at hanswer
  cases hrecord : handler.record? req.target with
  | none =>
      rw [hrecord] at hanswer
      cases hanswer
      exact .inl ⟨by simp, rfl⟩
  | some record =>
      obtain ⟨entity, id⟩ := record
      simp only [hrecord, Machine.map_eq_ok_iff] at hanswer
      obtain ⟨⟨success, written⟩, hupdate, hok⟩ := hanswer
      obtain ⟨hexists, hwritten⟩ := CRUDHandler.update_eq_ok hupdate
      cases success with
      | false =>
          cases hok
          exact .inl ⟨by simp, hwritten⟩
      | true =>
          cases hok
          rw [CRUDHandler.exists?_eq] at hexists
          obtain ⟨node, hnode⟩ := Option.isSome_iff_exists.mp hexists.symm
          exact .inr ⟨entity, id, node, rfl, hnode, hwritten, rfl⟩

theorem delete_ok_cases (hdelete : req.method = .delete)
    {res answer : Response}
    (hanswer : handler.handleRequest req res fs = .ok (answer, next)) :
    (answer.result ≠ .ok ∧ next = fs) ∨
      ∃ entity id node, handler.record? req.target = some (entity, id) ∧
        handler.crudHandler.fileStorage.find? fs entity id = some node ∧
        handler.crudHandler.fileStorage.remove entity id fs = .ok next ∧
        answer.result = .ok := by
  obtain ⟨status, refusal, hstatus, hrequest⟩ :=
    @handleRequest_delete handler req hdelete res fs
  rw [hrequest] at hanswer
  cases hrecord : handler.record? req.target with
  | none =>
      rw [hrecord] at hanswer
      cases hanswer
      exact .inl ⟨hstatus, rfl⟩
  | some record =>
      obtain ⟨entity, id⟩ := record
      simp only [hrecord, Machine.map_eq_ok_iff] at hanswer
      obtain ⟨⟨success, removed⟩, hdeleted, hok⟩ := hanswer
      obtain ⟨hexists, hremoved⟩ := CRUDHandler.delete_eq_ok hdeleted
      cases success with
      | false =>
          cases hok
          exact .inl ⟨by simp, hremoved⟩
      | true =>
          cases hok
          rw [CRUDHandler.exists?_eq] at hexists
          obtain ⟨node, hnode⟩ := Option.isSome_iff_exists.mp hexists.symm
          exact .inr ⟨entity, id, node, rfl, hnode, hremoved, rfl⟩

/-! ## What a request can do to the file system -/

/-- Only a create, an update of a record that exists and a delete of one touch
the file system, each through one call of the storage. -/
inductive Effect (handler : RequestHandlerAPI) (req : Request)
    (fs : FileSystem) : FileSystem → Prop
  | unchanged : Effect handler req fs fs
  | created {id : ℤ} {next : FileSystem} : req.method = .post →
      handler.crudHandler.getNextId (req.target.afterLast '/') fs = .ok id →
      handler.crudHandler.fileStorage.write (req.target.afterLast '/') id
        req.body fs = .ok next → Effect handler req fs next
  | updated {entityId : Text} {id : ℤ} {next : FileSystem} :
      req.method = .put → handler.removePrefix req.target = some entityId →
      Text.lexicalCast (entityId.afterLast '/') = some id →
      handler.crudHandler.exists? (entityId.beforeLast '/') id fs = true →
      handler.crudHandler.fileStorage.write (entityId.beforeLast '/') id
        req.body fs = .ok next → Effect handler req fs next
  | deleted {entityId : Text} {id : ℤ} {next : FileSystem} :
      req.method = .delete →
      handler.removePrefix req.target = some entityId →
      Text.lexicalCast (entityId.afterLast '/') = some id →
      handler.crudHandler.exists? (entityId.beforeLast '/') id fs = true →
      handler.crudHandler.fileStorage.remove (entityId.beforeLast '/') id
        fs = .ok next → Effect handler req fs next

theorem handleGet_fs {res answer : Response}
    (hanswer : handler.handleGet req res fs = .ok (answer, next)) :
    next = fs := by
  unfold handleGet at hanswer
  split at hanswer
  next => cases hanswer; rfl
  next entityId _ =>
    simp only at hanswer
    split at hanswer
    next =>
      split at hanswer
      next => cases hanswer; rfl
      next => split at hanswer <;> cases hanswer <;> rfl
    next =>
      rw [Machine.bind_eq_ok_iff] at hanswer
      obtain ⟨body, _, hok⟩ := hanswer
      cases hok
      rfl

theorem handleRequest_effect {res answer : Response}
    (hanswer : handler.handleRequest req res fs = .ok (answer, next)) :
    Effect handler req fs next := by
  cases hmethod : req.method with
  | post =>
      obtain ⟨id, hid, _, _, hwritten⟩ :=
        handleRequest_post_eq_ok hmethod hanswer
      exact .created hmethod hid hwritten
  | get =>
      simp only [handleRequest, hmethod] at hanswer
      rw [handleGet_fs hanswer]
      exact .unchanged
  | put =>
      rcases put_ok_cases hmethod hanswer with ⟨_, rfl⟩ |
        ⟨entity, id, node, hrecord, hnode, hwritten, _⟩
      · exact .unchanged
      · obtain ⟨entityId, hstart, hcast, rfl⟩ := record?_eq_some_iff.mp hrecord
        apply Effect.updated hmethod hstart hcast _ hwritten
        rw [CRUDHandler.exists?_eq, hnode, Option.isSome_some]
  | delete =>
      rcases delete_ok_cases hmethod hanswer with ⟨_, rfl⟩ |
        ⟨entity, id, node, hrecord, hnode, hremoved, _⟩
      · exact .unchanged
      · obtain ⟨entityId, hstart, hcast, rfl⟩ := record?_eq_some_iff.mp hrecord
        apply Effect.deleted hmethod hstart hcast _ hremoved
        rw [CRUDHandler.exists?_eq, hnode, Option.isSome_some]
  | other =>
      simp only [handleRequest, hmethod] at hanswer
      cases hanswer
      exact .unchanged

end RequestHandlerAPI

end Swifties
