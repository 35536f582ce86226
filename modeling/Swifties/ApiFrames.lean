import Swifties.ApiRecords

/-!
# What a request leaves alone

The store of the API handler is the map from path strings to the data of the
files at the places they resolve to.  A request that is refused does not touch
it, and one that is answered with 200 changes it at a single path.  Two strings
name the same path when they resolve to the same place.
-/

namespace Swifties

open FileTree

namespace FileTree.FileSystem

def nodeData : Node → Option Text
  | .file data => some data
  | .locked | .dir => none

/-- The data of the file at the place that a path string resolves to. -/
def store (fs : FileSystem) (path : Text) : Option Text :=
  (fs.node? (resolve fs.cwd path)).bind nodeData

end FileTree.FileSystem

namespace FileStorage

variable {storage : FileStorage} {entity data : Text} {id : ℤ}
  {fs next : FileSystem}

theorem store_getPath (storage : FileStorage) (entity : Text) (id : ℤ)
    (fs : FileSystem) :
    fs.store (storage.getPath entity id) =
      (fs.node? (storage.recordPath fs.cwd entity id)).bind
        FileSystem.nodeData := by
  rw [FileSystem.store, resolve_getPath]

end FileStorage

namespace RequestHandlerAPI

variable {handler : RequestHandlerAPI} {req : Request} {res answer : Response}
  {fs next : FileSystem}

/-- The record that a request writes, if it gets that far. -/
def Writes (handler : RequestHandlerAPI) (req : Request) (fs : FileSystem)
    (entity : Text) (id : ℤ) : Prop :=
  (req.method = .post ∧ entity = req.target.afterLast '/' ∧
      handler.crudHandler.getNextId entity fs = .ok id) ∨
    (req.method = .put ∧ handler.record? req.target = some (entity, id))

/-- What a request writes is in its file afterwards. -/
def WritesSucceed (handler : RequestHandlerAPI) (req : Request)
    (fs : FileSystem) : Prop :=
  ∀ entity id written, handler.Writes req fs entity id →
    handler.crudHandler.fileStorage.write entity id req.body fs =
      .ok written →
    written.store (handler.crudHandler.fileStorage.getPath entity id) =
      some req.body

/-- A create finds its file as it has written it, where no `..` leads out of a
directory on the way. -/
theorem writesSucceed_of_post (hpost : req.method = .post)
    (hup : ['.', '.'] ∉ (handler.crudHandler.fileStorage.directoryName
      (req.target.afterLast '/')).splitOn '/') :
    handler.WritesSucceed req fs := by
  rintro entity id written (⟨_, rfl, hid⟩ | ⟨hput, _⟩) hwritten
  · obtain ⟨_, _, hnone⟩ := CRUDHandler.getNextId_spec hid
    rw [FileStorage.find?_eq_node? hup] at hnone
    obtain ⟨hcwd, hnodes⟩ := FileStorage.write_eq_ok hwritten
    have haway := (FileStorage.direct_of_not_mem hup fs.cwd).recordPath_not_onWay
      id
    rw [FileStorage.store_getPath, hcwd, hnodes, if_neg haway, hnone,
      if_pos ⟨rfl, rfl⟩]
    rfl
  · rw [hpost] at hput
    cases hput

theorem handleRequest_unchanged
    (hanswer : handler.handleRequest req res fs = .ok (answer, next))
    (hcase : (req.method = .get ∨ req.method = .other) ∨
      answer.result ≠ .ok) : next = fs := by
  cases hmethod : req.method with
  | get =>
      simp only [handleRequest, hmethod] at hanswer
      exact handleGet_fs hanswer
  | other =>
      simp only [handleRequest, hmethod] at hanswer
      cases hanswer
      rfl
  | post =>
      obtain ⟨_, _, hok, _, _⟩ := handleRequest_post_eq_ok hmethod hanswer
      simp [hmethod, hok] at hcase
  | put =>
      rcases put_ok_cases hmethod hanswer with ⟨_, hsame⟩ |
        ⟨_, _, _, _, _, _, rfl⟩
      · exact hsame
      · simp [hmethod] at hcase
  | delete =>
      rcases delete_ok_cases hmethod hanswer with ⟨_, hsame⟩ |
        ⟨_, _, _, _, _, _, hok⟩
      · exact hsame
      · simp [hmethod, hok] at hcase

end RequestHandlerAPI

end Swifties
