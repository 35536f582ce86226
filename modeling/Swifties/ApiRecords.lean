import Swifties.RequestHandlerAPI

/-!
# The record of a target

PUT and DELETE read the last segment of a target as a number, GET only if it
begins with a digit.  The three agree on the record of a target unless its
number is written with a sign, or something else than a file that can be opened
is found in the place of the record.
-/

namespace Swifties

open FileTree

namespace RequestHandlerAPI

variable {handler : RequestHandlerAPI} {req : Request} {fs next : FileSystem}

/-! ## A read after a change -/

/-- An update of the target that is answered with 200 is what a read of the same
target finds. -/
def UpdateSeen (handler : RequestHandlerAPI) (fs : FileSystem)
    (target : Text) : Prop :=
  ∀ (put get : Request) (res res' answer : Response) (next : FileSystem),
    put.method = .put → put.target = target →
    get.method = .get → get.target = target →
    handler.handleRequest put res fs = .ok (answer, next) →
    answer.result = .ok →
    ∃ found, handler.handleRequest get res' next = .ok (found, next) ∧
      found.result = .ok ∧ found.body = put.body

/-- After a delete of the target that is answered with 200, a read of the same
target finds nothing. -/
def DeleteSeen (handler : RequestHandlerAPI) (fs : FileSystem)
    (target : Text) : Prop :=
  ∀ (delete get : Request) (res res' answer : Response) (next : FileSystem),
    delete.method = .delete → delete.target = target →
    get.method = .get → get.target = target →
    handler.handleRequest delete res fs = .ok (answer, next) →
    answer.result = .ok →
    ∃ found, handler.handleRequest get res' next = .ok (found, next) ∧
      found.result = .notFound

/-- The record of the target, if it is found, is a file that can be opened, and
its number is written without a sign. -/
def UnsignedFile (handler : RequestHandlerAPI) (fs : FileSystem)
    (target : Text) : Prop :=
  ∀ entityId id node, handler.removePrefix target = some entityId →
    Text.lexicalCast (entityId.afterLast '/') = some id →
    handler.crudHandler.fileStorage.find? fs (entityId.beforeLast '/') id =
      some node →
    startsWithDigit (entityId.afterLast '/') = true ∧
      ∃ data, node = .file data

theorem list_ne_nil {entityId body : Text}
    (hlist : handler.list entityId fs = .ok body) : body ≠ [] := by
  rw [list, Machine.bind_eq_ok_iff] at hlist
  obtain ⟨ids, _, hbody⟩ := hlist
  cases hbody
  simp

theorem handleRequest_get_list_ne_nil (hget : req.method = .get)
    {entityId : Text} (hstart : handler.removePrefix req.target = some entityId)
    (hdigit : startsWithDigit (entityId.afterLast '/') = false)
    {res found : Response}
    (hfound : handler.handleRequest req res fs = .ok (found, next)) :
    found.body ≠ [] := by
  simp only [handleRequest, hget, handleGet, hstart, hdigit] at hfound
  obtain ⟨body, hlist, hanswer⟩ := Machine.bind_eq_ok_iff.mp hfound
  cases hanswer
  exact list_ne_nil hlist

theorem put_present (hput : req.method = .put) {entity : Text} {id : ℤ}
    {node : Node} (hrecord : handler.record? req.target = some (entity, id))
    (hnode : handler.crudHandler.fileStorage.find? fs entity id = some node)
    (res : Response) :
    ∃ answer next, handler.handleRequest req res fs = .ok (answer, next) ∧
      answer.result = .ok ∧
      handler.crudHandler.fileStorage.write entity id req.body fs =
        .ok next := by
  obtain ⟨⟨success, next⟩, hupdate⟩ :=
    handler.crudHandler.update_ok entity id req.body fs
  obtain ⟨hexists, hwritten⟩ := CRUDHandler.update_eq_ok hupdate
  rw [CRUDHandler.exists?_eq, hnode, Option.isSome_some] at hexists
  subst hexists
  simp only [handleRequest_put hput, hrecord, hupdate]
  exact ⟨_, next, rfl, rfl, hwritten⟩

theorem unsignedFile_of_updateSeen {target : Text}
    (hseen : handler.UpdateSeen fs target) : handler.UnsignedFile fs target := by
  intro entityId id node hstart hcast hnode
  have hrecord : handler.record? target = some (entityId.beforeLast '/', id) :=
    record?_eq_some_iff.mpr ⟨entityId, hstart, hcast, rfl⟩
  let get : Request := ⟨"GET".toList, target, 11, [], []⟩
  have hget : get.method = .get := rfl
  have hput : ∀ body, ∃ next found,
      handler.crudHandler.fileStorage.write (entityId.beforeLast '/') id body
        fs = .ok next ∧
      handler.handleRequest get (.make .ok 11) next = .ok (found, next) ∧
      found.body = body := by
    intro body
    let put : Request := ⟨"PUT".toList, target, 11, [], body⟩
    have hput : put.method = .put := rfl
    obtain ⟨answer, next, hanswer, hok, hwritten⟩ :=
      put_present hput hrecord hnode (.make .ok 11)
    obtain ⟨found, hfound, _, hbody⟩ := hseen put get _ (.make .ok 11) answer
      next rfl rfl rfl rfl hanswer hok
    exact ⟨next, found, hwritten, hfound, hbody⟩
  have hdigit : startsWithDigit (entityId.afterLast '/') = true := by
    by_contra hsign
    obtain ⟨next, found, _, hfound, hbody⟩ := hput []
    exact handleRequest_get_list_ne_nil hget hstart
      (Bool.eq_false_of_not_eq_true hsign) hfound hbody
  refine ⟨hdigit, ?_⟩
  obtain ⟨next, found, hwritten, hfound, hbody⟩ := hput ['x']
  have hkept := FileStorage.find?_overwrite hnode hwritten
  obtain ⟨found', hfound', hread⟩ := handleRequest_get_id hget
    hstart hdigit hcast (.make .ok 11) next
  rw [hfound, Except.ok.injEq, Prod.mk.injEq] at hfound'
  obtain ⟨rfl, _⟩ := hfound'
  rw [hkept] at hread
  cases node with
  | file data => exact ⟨data, rfl⟩
  | locked | dir =>
      have hempty : found.body = [] := hread.2
      rw [hbody] at hempty
      cases hempty

theorem updateSeen_of_unsignedFile {target : Text}
    (hfile : handler.UnsignedFile fs target) : handler.UpdateSeen fs target := by
  intro put get res res' answer next hput hputTarget hget hgetTarget hanswer hok
  rcases put_ok_cases hput hanswer with ⟨hnot, _⟩ |
    ⟨entity, id, node, hrecord, hnode, hwritten, _⟩
  · exact (hnot hok).elim
  · rw [hputTarget] at hrecord
    obtain ⟨entityId, hstart, hcast, rfl⟩ := record?_eq_some_iff.mp hrecord
    obtain ⟨hdigit, data, rfl⟩ := hfile entityId id node hstart hcast hnode
    rw [← hgetTarget] at hstart
    obtain ⟨found, hfound, hread⟩ :=
      handleRequest_get_id hget hstart hdigit hcast res' next
    have hwritable : writable (some (.file data)) = true := rfl
    rw [FileStorage.find?_overwrite hnode hwritten, if_pos hwritable] at hread
    exact ⟨found, hfound, hread⟩

theorem deleteSeen_of_unsignedFile {target : Text}
    (hfile : handler.UnsignedFile fs target) : handler.DeleteSeen fs target := by
  intro delete get res res' answer next hdelete hdeleteTarget hget hgetTarget
    hanswer hok
  rcases delete_ok_cases hdelete hanswer with ⟨hnot, _⟩ |
    ⟨entity, id, node, hrecord, hnode, hremoved, _⟩
  · exact (hnot hok).elim
  · rw [hdeleteTarget] at hrecord
    obtain ⟨entityId, hstart, hcast, rfl⟩ := record?_eq_some_iff.mp hrecord
    obtain ⟨hdigit, _⟩ := hfile entityId id node hstart hcast hnode
    rw [← hgetTarget] at hstart
    obtain ⟨found, hfound, hread⟩ :=
      handleRequest_get_id hget hstart hdigit hcast res' next
    rw [FileStorage.find?_removed hnode hremoved] at hread
    exact ⟨found, hfound, hread⟩

/-- GET sees what PUT and DELETE of the same target did exactly where the record
of the target is not found, or is a file that can be opened and whose number has
no sign. -/
theorem changes_seen_iff (handler : RequestHandlerAPI) (fs : FileSystem)
    (target : Text) :
    handler.UpdateSeen fs target ∧ handler.DeleteSeen fs target ↔
      handler.UnsignedFile fs target :=
  ⟨fun hseen => unsignedFile_of_updateSeen hseen.1, fun hfile =>
    ⟨updateSeen_of_unsignedFile hfile, deleteSeen_of_unsignedFile hfile⟩⟩

/-- With a sign in front of the number, GET answers with a list. -/
theorem not_changes_seen_sign :
    let handler : RequestHandlerAPI := ⟨⟨⟨"data/".toList⟩⟩, "/api".toList⟩
    let target := "/api/Shoes/+1".toList
    let get : Request := ⟨"GET".toList, target, 11, [], []⟩
    ∃ fs, (handler.handleRequest
          ⟨"POST".toList, "/api/Shoes".toList, 11, [], ['x']⟩ (.make .ok 11)
          (FileSystem.empty ["srv".toList])).map Prod.snd = .ok fs ∧
      (do
        let (updated, fs) ← handler.handleRequest
          ⟨"PUT".toList, target, 11, [], ['y']⟩ (.make .ok 11) fs
        let (found, fs) ← handler.handleRequest get (.make .ok 11) fs
        let (deleted, fs) ← handler.handleRequest
          ⟨"DELETE".toList, target, 11, [], []⟩ (.make .ok 11) fs
        let (missing, _) ← handler.handleRequest get (.make .ok 11) fs
        .ok (updated.result, found.body, deleted.result, missing.result)) =
          .ok (.ok, "[]".toList, .ok, .ok) ∧
      ¬ (handler.UpdateSeen fs target ∧ handler.DeleteSeen fs target) := by
  intro handler target get
  have hrecord : (handler.handleRequest
      ⟨"POST".toList, "/api/Shoes".toList, 11, [], ['x']⟩ (.make .ok 11)
      (FileSystem.empty ["srv".toList])).map (fun created =>
        handler.crudHandler.fileStorage.find? created.2 "/Shoes".toList 1) =
          .ok (some (.file ['x'])) := by
    decide +kernel
  have hrun : (do
      let (_, fs) ← handler.handleRequest
        ⟨"POST".toList, "/api/Shoes".toList, 11, [], ['x']⟩ (.make .ok 11)
        (FileSystem.empty ["srv".toList])
      let (updated, fs) ← handler.handleRequest
        ⟨"PUT".toList, target, 11, [], ['y']⟩ (.make .ok 11) fs
      let (found, fs) ← handler.handleRequest get (.make .ok 11) fs
      let (deleted, fs) ← handler.handleRequest
        ⟨"DELETE".toList, target, 11, [], []⟩ (.make .ok 11) fs
      let (missing, _) ← handler.handleRequest get (.make .ok 11) fs
      .ok (updated.result, found.body, deleted.result, missing.result)) =
        .ok (.ok, "[]".toList, .ok, .ok) := by
    decide +kernel
  cases hcreated : handler.handleRequest
      ⟨"POST".toList, "/api/Shoes".toList, 11, [], ['x']⟩ (.make .ok 11)
      (FileSystem.empty ["srv".toList]) with
  | error fault =>
      rw [hcreated] at hrecord
      cases hrecord
  | ok created =>
      rw [hcreated] at hrecord hrun
      refine ⟨created.2, rfl, hrun, fun hseen => ?_⟩
      have hfile := unsignedFile_of_updateSeen hseen.1 "/Shoes/+1".toList 1 _
        (by decide +kernel) (by decide +kernel) (Except.ok.inj hrecord)
      exact absurd hfile.1 (by decide +kernel)

end RequestHandlerAPI

end Swifties
