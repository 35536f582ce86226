import Swifties.ApiListing
import Swifties.CrudRefinement

/-!
# The API as a record store

What the API is for: clients create, list, read, update and delete records, and
see only status codes and bodies.  The handler gives them what the finite map of
the records gives, whatever files there are besides.
-/

namespace Swifties

open FileTree

/-- What a request asks for.  An update is answered in whatever body the
response already has; a refusal has its status. -/
inductive ResourceCall where
  | create (entity data : Text)
  | list (entity : Text)
  | read (entity : Text) (id : ℤ)
  | update (entity : Text) (id : ℤ) (data left : Text)
  | delete (entity : Text) (id : ℤ)
  | refused (status : Status)

def ResourceCall.entity? : ResourceCall → Option Text
  | .create entity _ => some entity
  | .list entity => some entity
  | .read entity _ => some entity
  | .update entity _ _ _ => some entity
  | .delete entity _ => some entity
  | .refused _ => none

namespace Records

/-- The ids of the entity from 1 on, up to the first one that is free. -/
noncomputable def listing (records : Records) (entity : Text) : Text :=
  "[".toList ++
    RequestHandlerAPI.joined
      (RequestHandlerAPI.firstIds (records.leastFree entity - 1)) ++
    "]".toList

noncomputable def respond (records : Records) :
    ResourceCall → (Status × Text) × Records
  | .create entity data =>
      let id : ℤ := records.leastFree entity
      ((.ok, CRUDHandler.idResponse id), records.insert (entity, id) data)
  | .list entity => ((.ok, records.listing entity), records)
  | .read entity id =>
      match records.lookup (entity, id) with
      | some data => ((.ok, data), records)
      | none => ((.notFound, []), records)
  | .update entity id data left =>
      if (records.lookup (entity, id)).isSome then
        ((.ok, left), records.insert (entity, id) data)
      else ((.notFound, []), records)
  | .delete entity id =>
      if (records.lookup (entity, id)).isSome then
        ((.ok, "successfully deleted".toList), records.erase (entity, id))
      else ((.notFound, []), records)
  | .refused status => ((status, []), records)

theorem card_idsOf_respond_le (records : Records) (call : ResourceCall)
    (entity : Text) :
    ((records.respond call).2.idsOf entity).card ≤
      (records.idsOf entity).card + 1 := by
  cases call with
  | create target data => exact card_idsOf_insert_le _ _ _ _
  | list target => exact Nat.le_succ _
  | read target id =>
      rw [respond]
      cases records.lookup (target, id) <;> exact Nat.le_succ _
  | update target id data left =>
      rw [respond]
      split
      next => exact card_idsOf_insert_le _ _ _ _
      next => exact Nat.le_succ _
  | delete target id =>
      rw [respond]
      split
      next => exact (card_idsOf_erase_le _ _ _).trans (Nat.le_succ _)
      next => exact Nat.le_succ _
  | refused status => exact Nat.le_succ _

end Records

namespace CRUDHandler

variable {handler : CRUDHandler} {entity other : Text} {fs : FileSystem}

/-- Entities with one directory have the same records. -/
theorem update_congr
    (hsame : handler.fileStorage.SameDirectory fs.cwd other entity) (id : ℤ)
    (data : Text) :
    handler.update other id data fs = handler.update entity id data fs := by
  rw [update, update, exists?_eq, exists?_eq, hsame.find?_eq]
  cases hfind : handler.fileStorage.find? fs entity id with
  | none => rfl
  | some node =>
      obtain ⟨hreaches, _⟩ := FileStorage.find?_eq_some_iff.mp hfind
      rw [FileStorage.write_of_reaches hreaches,
        FileStorage.write_of_reaches (hsame.reaches_iff.mpr hreaches),
        hsame.recordPath_eq]

theorem delete_congr
    (hsame : handler.fileStorage.SameDirectory fs.cwd other entity) (id : ℤ) :
    handler.delete other id fs = handler.delete entity id fs := by
  simp only [delete, exists?_eq, FileStorage.remove_eq, hsame.find?_eq,
    hsame.recordPath_eq, hsame.reaches_iff]

variable {used : Text → Prop} {cwd : Path} {records : Records}

theorem update_refines (hplain : ∀ entity, used entity → PlainName entity)
    (hstores : handler.fileStorage.Stores used cwd fs records)
    (hentity : used entity) (id : ℤ) (data : Text) :
    ∃ next, handler.update entity id data fs =
        .ok ((records.lookup (entity, id)).isSome, next) ∧
      handler.fileStorage.Stores used cwd next
        (if (records.lookup (entity, id)).isSome then
          records.insert (entity, id) data
        else records) := by
  rw [update, exists?, hstores.exists?_eq hentity id]
  cases hpresent : (records.lookup (entity, id)).isSome with
  | false => exact ⟨fs, rfl, hstores⟩
  | true =>
      obtain ⟨written, hwritten, hnext⟩ :=
        hstores.write hplain hentity id data
      refine ⟨written, ?_, hnext⟩
      rw [if_pos rfl, hwritten]
      rfl

theorem delete_refines (hplain : ∀ entity, used entity → PlainName entity)
    (hstores : handler.fileStorage.Stores used cwd fs records)
    (hentity : used entity) (id : ℤ) :
    ∃ next, handler.delete entity id fs =
        .ok ((records.lookup (entity, id)).isSome, next) ∧
      handler.fileStorage.Stores used cwd next
        (if (records.lookup (entity, id)).isSome then
          records.erase (entity, id)
        else records) := by
  rw [delete, exists?, hstores.exists?_eq hentity id]
  cases hpresent : (records.lookup (entity, id)).isSome with
  | false => exact ⟨fs, rfl, hstores⟩
  | true =>
      obtain ⟨removed, hremoved, hnext⟩ :=
        hstores.remove hplain hentity hpresent
      refine ⟨removed, ?_, hnext⟩
      rw [if_pos rfl, hremoved]
      rfl

end CRUDHandler

namespace RequestHandlerAPI

variable {handler : RequestHandlerAPI} {req : Request} {res : Response}
  {fs : FileSystem} {entity idStr : Text} {id : ℤ}

/-- The target names the record of the entity that the string says. -/
def Names (handler : RequestHandlerAPI) (req : Request)
    (entity idStr : Text) : Prop :=
  req.target = handler.createTarget entity ++ '/' :: idStr ∧ '/' ∉ idStr

inductive Asks (handler : RequestHandlerAPI) :
    Request × Response → ResourceCall → Prop
  | create {req : Request} {res : Response} : req.method = .post →
      Asks handler (req, res) (.create (req.target.afterLast '/') req.body)
  | list {req : Request} {res : Response} {entity : Text} :
      req.method = .get → req.target = handler.createTarget entity →
      startsWithDigit entity = false →
      Asks handler (req, res) (.list entity)
  | read {req : Request} {res : Response} {entity idStr : Text} {id : ℤ} :
      req.method = .get → handler.Names req entity idStr →
      startsWithDigit idStr = true → Text.lexicalCast idStr = some id →
      Asks handler (req, res) (.read entity id)
  | update {req : Request} {res : Response} {entity idStr : Text} {id : ℤ} :
      req.method = .put → handler.Names req entity idStr →
      Text.lexicalCast idStr = some id →
      Asks handler (req, res) (.update entity id req.body res.body)
  | delete {req : Request} {res : Response} {entity idStr : Text} {id : ℤ} :
      req.method = .delete → handler.Names req entity idStr →
      Text.lexicalCast idStr = some id →
      Asks handler (req, res) (.delete entity id)
  | readNothing {req : Request} {res : Response} {entity idStr : Text} :
      req.method = .get → handler.Names req entity idStr →
      startsWithDigit idStr = true → Text.lexicalCast idStr = none →
      Asks handler (req, res) (.refused .notFound)
  | updateNothing {req : Request} {res : Response} {entity idStr : Text} :
      req.method = .put → handler.Names req entity idStr →
      Text.lexicalCast idStr = none →
      Asks handler (req, res) (.refused .notFound)
  | deleteNothing {req : Request} {res : Response} {entity idStr : Text} :
      req.method = .delete → handler.Names req entity idStr →
      Text.lexicalCast idStr = none →
      Asks handler (req, res) (.refused .badRequest)
  | unsupported {req : Request} {res : Response} : req.method = .other →
      Asks handler (req, res) (.refused .badRequest)

/-- What a client sees of an answer: the status, and of a success the body. -/
def shown (answer : Response) : Status × Text :=
  (answer.result, if answer.result = .ok then answer.body else [])

theorem shown_ok {answer : Response} (hok : answer.result = .ok) :
    shown answer = (.ok, answer.body) := by
  rw [shown, if_pos hok, hok]

theorem shown_of_ne {answer : Response} (hne : answer.result ≠ .ok) :
    shown answer = (answer.result, []) := by
  rw [shown, if_neg hne]

/-! ## One request -/

theorem Names.removePrefix (hnames : handler.Names req entity idStr) :
    handler.removePrefix req.target =
      some (handler.readEntity entity ++ '/' :: idStr) := by
  rw [hnames.1]
  exact handler.removePrefix_createTarget_append entity _

theorem Names.parts (hnames : handler.Names req entity idStr) :
    (handler.readEntity entity ++ '/' :: idStr).beforeLast '/' =
        handler.readEntity entity ∧
      (handler.readEntity entity ++ '/' :: idStr).afterLast '/' = idStr :=
  ⟨Text.beforeLast_append_cons hnames.2, Text.afterLast_append_cons hnames.2⟩

theorem Names.record? (hnames : handler.Names req entity idStr)
    (hcast : Text.lexicalCast idStr = some id) :
    handler.record? req.target = some (handler.readEntity entity, id) := by
  obtain ⟨hbefore, hafter⟩ := hnames.parts
  rw [record?_eq_some_iff]
  exact ⟨_, hnames.removePrefix, by rw [hafter, hcast], hbefore⟩

theorem refused_of_asks {status : Status}
    (hasks : handler.Asks (req, res) (.refused status)) (fs : FileSystem) :
    ∃ answer, handler.serve fs (req, res) = .ok (answer, fs) ∧
      shown answer = (status, []) := by
  cases hasks with
  | readNothing hget hnames hdigit hcast =>
      obtain ⟨_, hafter⟩ := hnames.parts
      simp only [serve, handleRequest, hget, handleGet, hnames.removePrefix,
        hafter, hdigit, if_true, hcast]
      exact ⟨_, rfl, shown_of_ne (by simp)⟩
  | updateNothing hput hnames hcast =>
      obtain ⟨_, hafter⟩ := hnames.parts
      simp only [serve, handleRequest, hput, handlePut, hnames.removePrefix,
        hafter, hcast]
      exact ⟨_, rfl, shown_of_ne (by simp)⟩
  | deleteNothing hdelete hnames hcast =>
      obtain ⟨_, hafter⟩ := hnames.parts
      simp only [serve, handleRequest, hdelete, handleDelete,
        hnames.removePrefix, hafter, hcast]
      exact ⟨_, rfl, shown_of_ne (by simp)⟩
  | unsupported hother =>
      simp only [serve, handleRequest, hother]
      exact ⟨_, rfl, shown_of_ne (by simp)⟩

/-- The directory of an entity is the one that reads look into. -/
def SlashSafe (handler : RequestHandlerAPI) : Prop :=
  handler.pathPrefix = ['/'] ∨
    handler.crudHandler.fileStorage.basePath.getLast? = some '/'

theorem SlashSafe.sameDirectory (hsafe : handler.SlashSafe) (cwd : Path)
    (entity : Text) :
    handler.crudHandler.fileStorage.SameDirectory cwd
      (handler.readEntity entity) entity := by
  unfold readEntity
  split
  next => exact .refl _ cwd entity
  next hprefix =>
    exact sameDirectory_slash (hsafe.resolve_left hprefix) cwd entity

section

variable {used : Text → Prop} {cwd : Path} {records : Records}

theorem list_eq_listing (hsafe : handler.SlashSafe)
    (hstores : handler.crudHandler.fileStorage.Stores used cwd fs records)
    (hentity : used entity) (hcard : (records.idsOf entity).card < 2147483647) :
    handler.list (handler.readEntity entity) fs =
      .ok (records.listing entity) := by
  have hstored : ∀ id, handler.crudHandler.exists? (handler.readEntity entity)
      id fs = (records.lookup (entity, id)).isSome := by
    intro id
    rw [← hstores.exists?_eq hentity id]
    exact stored_congr (hsafe.sameDirectory fs.cwd entity) id
  obtain ⟨⟨hpos, hfree⟩, hle, hbelow⟩ := Records.leastFree_spec hcard
  rw [list_eq_ok_iff]
  refine ⟨records.leastFree entity - 1, by omega, ?_, ?_, rfl⟩
  · rw [hstored, Nat.cast_pred hpos, sub_add_cancel, hfree]
    rfl
  · intro id hone hlt
    obtain ⟨n, rfl⟩ := Int.eq_ofNat_of_zero_le (show 0 ≤ id by omega)
    rw [hstored]
    exact hbelow n (by omega) (by omega)

/-- The files after the request store the records after the call, and the
client sees what the call responds. -/
def Answers (handler : RequestHandlerAPI) (used : Text → Prop) (cwd : Path)
    (fs : FileSystem) (records : Records) (request : Request × Response)
    (call : ResourceCall) : Prop :=
  ∃ answer next, handler.serve fs request = .ok (answer, next) ∧
    shown answer = (records.respond call).1 ∧
    handler.crudHandler.fileStorage.Stores used cwd next
      (records.respond call).2

variable {entity data : Text} {id : ℤ}

theorem Asks.answers_create
    (hasks : handler.Asks (req, res) (.create entity data))
    (hplain : ∀ entity, used entity → PlainName entity)
    (hstores : handler.crudHandler.fileStorage.Stores used cwd fs records)
    (hentity : used entity) (hcard : (records.idsOf entity).card < 2147483647) :
    handler.Answers used cwd fs records (req, res) (.create entity data) := by
  cases hasks with
  | create hpost =>
      have hid := hstores.getNextId_eq hentity hcard
      obtain ⟨written, hwritten, hnext⟩ := hstores.write hplain hentity
        (records.leastFree (req.target.afterLast '/')) req.body
      obtain ⟨answer, hanswer, hok, hbody⟩ := handleRequest_post_ok hpost
        (CRUDHandler.create_ok hid hwritten) res
      refine ⟨answer, written, hanswer, ?_, hnext⟩
      rw [shown_ok hok, hbody]
      rfl

theorem Asks.answers_list (hasks : handler.Asks (req, res) (.list entity))
    (hsafe : handler.SlashSafe)
    (hplain : ∀ entity, used entity → PlainName entity)
    (hstores : handler.crudHandler.fileStorage.Stores used cwd fs records)
    (hentity : used entity) (hcard : (records.idsOf entity).card < 2147483647) :
    handler.Answers used cwd fs records (req, res) (.list entity) := by
  cases hasks with
  | list hget htarget hdigit =>
      have hslash := (hplain entity hentity).2.2.2
      obtain ⟨typed, hanswer⟩ :=
        handleRequest_get_list hslash hdigit hget htarget res fs
      rw [list_eq_listing hsafe hstores hentity hcard] at hanswer
      exact ⟨_, fs, hanswer, shown_ok rfl, hstores⟩

theorem Asks.answers_read (hasks : handler.Asks (req, res) (.read entity id))
    (hsafe : handler.SlashSafe)
    (hstores : handler.crudHandler.fileStorage.Stores used cwd fs records)
    (hentity : used entity) :
    handler.Answers used cwd fs records (req, res) (.read entity id) := by
  cases hasks with
  | read hget hnames hdigit hcast =>
      obtain ⟨hbefore, hafter⟩ := hnames.parts
      obtain ⟨answer, hanswer, hnode⟩ := handleRequest_get_id hget
        hnames.removePrefix (by rw [hafter, hdigit])
        (by rw [hafter, hcast]) res fs
      rw [hbefore, (hsafe.sameDirectory fs.cwd entity).find?_eq,
        hstores.find?_eq hentity] at hnode
      refine ⟨answer, fs, hanswer, ?_⟩
      rw [Records.respond]
      cases hlookup : records.lookup (entity, id) with
      | none =>
          rw [hlookup] at hnode
          have hnotFound : answer.result = .notFound := hnode
          refine ⟨?_, hstores⟩
          rw [shown_of_ne (by rw [hnotFound]; decide), hnotFound]
      | some data =>
          rw [hlookup] at hnode
          obtain ⟨hok, hbody⟩ := hnode
          exact ⟨by rw [shown_ok hok, hbody], hstores⟩

theorem Asks.answers_update {left : Text}
    (hasks : handler.Asks (req, res) (.update entity id data left))
    (hsafe : handler.SlashSafe)
    (hplain : ∀ entity, used entity → PlainName entity)
    (hstores : handler.crudHandler.fileStorage.Stores used cwd fs records)
    (hentity : used entity) :
    handler.Answers used cwd fs records (req, res)
      (.update entity id data left) := by
  cases hasks with
  | update hput hnames hcast =>
      obtain ⟨next, hupdate, hnext⟩ :=
        CRUDHandler.update_refines hplain hstores hentity id req.body
      have hanswer : handler.handleRequest req res fs = _ :=
        handleRequest_put hput res fs
      simp only [hnames.record? hcast, CRUDHandler.update_congr
        (hsafe.sameDirectory fs.cwd entity), hupdate] at hanswer
      refine ⟨_, next, hanswer, ?_⟩
      rw [Records.respond]
      cases hpresent : (records.lookup (entity, id)).isSome with
      | false =>
          rw [hpresent] at hnext
          exact ⟨shown_of_ne (by simp), hnext⟩
      | true =>
          rw [hpresent] at hnext
          exact ⟨shown_ok rfl, hnext⟩

theorem Asks.answers_delete
    (hasks : handler.Asks (req, res) (.delete entity id))
    (hsafe : handler.SlashSafe)
    (hplain : ∀ entity, used entity → PlainName entity)
    (hstores : handler.crudHandler.fileStorage.Stores used cwd fs records)
    (hentity : used entity) :
    handler.Answers used cwd fs records (req, res) (.delete entity id) := by
  cases hasks with
  | delete hdelete hnames hcast =>
      obtain ⟨next, hdeleted, hnext⟩ :=
        CRUDHandler.delete_refines hplain hstores hentity id
      obtain ⟨status, refusal, _,
          (hanswer : handler.handleRequest req res fs = _)⟩ :=
        handleRequest_delete hdelete res fs
      simp only [hnames.record? hcast, CRUDHandler.delete_congr
        (hsafe.sameDirectory fs.cwd entity), hdeleted] at hanswer
      refine ⟨_, next, hanswer, ?_⟩
      rw [Records.respond]
      cases hpresent : (records.lookup (entity, id)).isSome with
      | false =>
          rw [hpresent] at hnext
          exact ⟨shown_of_ne (by simp), hnext⟩
      | true =>
          rw [hpresent] at hnext
          exact ⟨shown_ok rfl, hnext⟩

/-- One request does to the files what its call does to the records, and the
client sees what the call responds. -/
theorem serve_refines (hsafe : handler.SlashSafe)
    (hplain : ∀ entity, used entity → PlainName entity)
    {request : Request × Response} {call : ResourceCall}
    (hstores : handler.crudHandler.fileStorage.Stores used cwd fs records)
    (hasks : handler.Asks request call)
    (hcall : ∀ entity ∈ call.entity?, used entity ∧
      (records.idsOf entity).card < 2147483647) :
    handler.Answers used cwd fs records request call := by
  cases call with
  | create entity data =>
      obtain ⟨hentity, hcard⟩ := hcall entity rfl
      exact hasks.answers_create hplain hstores hentity hcard
  | list entity =>
      obtain ⟨hentity, hcard⟩ := hcall entity rfl
      exact hasks.answers_list hsafe hplain hstores hentity hcard
  | read entity id =>
      exact hasks.answers_read hsafe hstores (hcall entity rfl).1
  | update entity id data left =>
      exact hasks.answers_update hsafe hplain hstores (hcall entity rfl).1
  | delete entity id =>
      exact hasks.answers_delete hsafe hplain hstores (hcall entity rfl).1
  | refused status =>
      obtain ⟨answer, hanswer, hshown⟩ := refused_of_asks hasks fs
      exact ⟨answer, fs, hanswer, hshown, hstores⟩

end

/-! ## Runs of requests -/

end RequestHandlerAPI

end Swifties
