import Swifties.Dispatcher
import Swifties.PathClimbs

/-!
# Requests that leave their root

The static and the API handler put a part of the target behind their root and
leave `..` segments in it.  The path stays at or below the root exactly when the
levels that `..` climbs are entered again; the first segment is the last one of
the root with what follows it in the target.
-/

namespace Swifties

open FileTree

/-! ## Files served -/

namespace RequestHandlerStatic

def servedRoot (handler : RequestHandlerStatic) : Text :=
  "..".toList ++ handler.root

def Confined (handler : RequestHandlerStatic) (cwd : Path) (target : Text) :
    Prop :=
  resolve cwd handler.servedRoot <:+ resolve cwd (handler.uri target)

def behindPrefix (handler : RequestHandlerStatic) (target : Text) : Text :=
  target.drop handler.pathPrefix.length

theorem uri_eq {handler : RequestHandlerStatic}
    (hroot : handler.root.head? = some '/') (target : Text) :
    handler.uri target =
      handler.servedRoot ++ handler.behindPrefix target := by
  obtain ⟨below, hbelow⟩ := List.head?_eq_some_iff.mp hroot
  rw [uri, servedRoot, behindPrefix, hbelow]
  rfl

/-- A target is served from the root or below exactly when what follows the
prefix does not leave the root for good; so it is without `..`, where the target
goes on with a slash or the root ends with one. -/
theorem confined_iff {handler : RequestHandlerStatic}
    (hroot : handler.root.head? = some '/') (cwd : Path) (target : Text) :
    (handler.Confined cwd target ↔
      StaysBelow cwd handler.servedRoot (handler.behindPrefix target)) ∧
    (handler.root.getLast? = some '/' ∨ handler.behindPrefix target = [] ∨
        (handler.behindPrefix target).head? = some '/' →
      ['.', '.'] ∉ (handler.behindPrefix target).splitOn '/' →
      handler.Confined cwd target) := by
  have hne : handler.servedRoot ≠ [] := by simp [servedRoot]
  have hiff : handler.Confined cwd target ↔
      StaysBelow cwd handler.servedRoot (handler.behindPrefix target) := by
    rw [Confined, uri_eq hroot, resolve_suffix_append_iff hne]
  refine ⟨hiff, fun hslash hup => hiff.mpr ?_⟩
  apply staysBelow_of_not_mem hne _ hup
  rcases hslash with hlast | hrest
  · left
    obtain ⟨above, habove⟩ := List.getLast?_eq_some_iff.mp hlast
    rw [servedRoot, habove, ← List.append_assoc]
    exact List.getLast?_concat
  · exact .inr hrest

theorem confined_iff_hello :
    let handler : RequestHandlerStatic := ⟨"/data".toList, "/static".toList⟩
    (handler.Confined ["build".toList] "/static/hello.txt".toList ↔
      StaysBelow ["build".toList] handler.servedRoot
        (handler.behindPrefix "/static/hello.txt".toList)) ∧
    (handler.root.getLast? = some '/' ∨
        handler.behindPrefix "/static/hello.txt".toList = [] ∨
        (handler.behindPrefix "/static/hello.txt".toList).head? = some '/' →
      ['.', '.'] ∉
        (handler.behindPrefix "/static/hello.txt".toList).splitOn '/' →
      handler.Confined ["build".toList] "/static/hello.txt".toList) :=
  confined_iff rfl _ _

/-- A `..` behind the prefix serves a file next to the root. -/
theorem not_confined_parent :
    let config : NginxConfig :=
      [.block ["server".toList]
        [.block ["location".toList, "/static".toList, "StaticHandler".toList]
          [.simple ["root".toList, "/data".toList]]]]
    let handler : RequestHandlerStatic := ⟨"/data".toList, "/static".toList⟩
    let target := "/static/../secret".toList
    let fs := ((FileSystem.empty ["build".toList]).place ["data".toList] .dir
      rfl (by decide)).place ["secret".toList] (.file ['x']) rfl (by decide)
    (RequestHandlerDispatcher.initRequestHandlers ∅ config).map
        (fun result =>
          RequestHandlerDispatcher.getRequestHandler result.2 target) =
        some (some (.static handler)) ∧
      (handler.handleRequest ⟨"GET".toList, target, 11, [], []⟩ (.make .ok 11)
        fs).body = ['x'] ∧
      ¬ handler.Confined fs.cwd target := by
  intro config handler target fs
  refine ⟨by decide +kernel, by decide +kernel, ?_⟩
  unfold Confined
  decide +kernel

end RequestHandlerStatic

/-! ## Records stored -/

namespace RequestHandlerAPI

/-- The path of every `exists` that a request makes.  The write, read or remove
that may follow has the same path. -/
inductive PathCall (handler : RequestHandlerAPI) (req : Request)
    (fs : FileSystem) : Text → Prop
  | create {id : ℤ} : req.method = .post → 1 ≤ id →
      (∀ other, 1 ≤ other → other < id → handler.crudHandler.exists?
        (req.target.afterLast '/') other fs = true) →
      PathCall handler req fs (handler.crudHandler.fileStorage.getPath
        (req.target.afterLast '/') id)
  | list {entityId : Text} {id : ℤ} : req.method = .get →
      handler.removePrefix req.target = some entityId →
      startsWithDigit (entityId.afterLast '/') = false → 1 ≤ id →
      (∀ other, 1 ≤ other → other < id →
        handler.crudHandler.exists? entityId other fs = true) →
      PathCall handler req fs
        (handler.crudHandler.fileStorage.getPath entityId id)
  | read {entityId : Text} {id : ℤ} : req.method = .get →
      handler.removePrefix req.target = some entityId →
      startsWithDigit (entityId.afterLast '/') = true →
      Text.lexicalCast (entityId.afterLast '/') = some id →
      PathCall handler req fs (handler.crudHandler.fileStorage.getPath
        (entityId.beforeLast '/') id)
  | change {entityId : Text} {id : ℤ} :
      req.method = .put ∨ req.method = .delete →
      handler.removePrefix req.target = some entityId →
      Text.lexicalCast (entityId.afterLast '/') = some id →
      PathCall handler req fs (handler.crudHandler.fileStorage.getPath
        (entityId.beforeLast '/') id)

/-- The entity whose records a request accesses, if it gets that far. -/
def entity? (handler : RequestHandlerAPI) (req : Request) : Option Text :=
  let entityOf := fun entityId : Text =>
    (Text.lexicalCast (entityId.afterLast '/')).map fun _ =>
      entityId.beforeLast '/'
  match req.method with
  | .post => some (req.target.afterLast '/')
  | .get =>
      (handler.removePrefix req.target).bind fun entityId =>
        if startsWithDigit (entityId.afterLast '/') then entityOf entityId
        else some entityId
  | .put => (handler.removePrefix req.target).bind entityOf
  | .delete => (handler.removePrefix req.target).bind entityOf
  | .other => none

/-- Every path lies strictly below the root. -/
def Contained (handler : RequestHandlerAPI) (req : Request) (fs : FileSystem) :
    Prop :=
  ∀ path, PathCall handler req fs path →
    resolve fs.cwd handler.crudHandler.fileStorage.basePath <:+
        resolve fs.cwd path ∧
      resolve fs.cwd handler.crudHandler.fileStorage.basePath ≠
        resolve fs.cwd path

variable {handler : RequestHandlerAPI} {req : Request} {fs : FileSystem}

theorem PathCall.entity {path : Text} (hcall : PathCall handler req fs path) :
    ∃ entity id, handler.entity? req = some entity ∧
      path = handler.crudHandler.fileStorage.getPath entity id := by
  cases hcall with
  | create hpost _ _ => exact ⟨_, _, by rw [entity?, hpost], rfl⟩
  | list hget hstart hdigit _ _ =>
      exact ⟨_, _, by simp [entity?, hget, hstart, hdigit], rfl⟩
  | read hget hstart hdigit hcast =>
      exact ⟨_, _, by simp [entity?, hget, hstart, hdigit, hcast], rfl⟩
  | change hmethod hstart hcast =>
      refine ⟨_, _, ?_, rfl⟩
      rcases hmethod with hput | hdelete
      · simp [entity?, hput, hstart, hcast]
      · simp [entity?, hdelete, hstart, hcast]

theorem exists_pathCall {entity : Text}
    (hentity : handler.entity? req = some entity) (fs : FileSystem) :
    ∃ id, PathCall handler req fs
      (handler.crudHandler.fileStorage.getPath entity id) := by
  unfold entity? at hentity
  split at hentity
  next hpost =>
    cases hentity
    exact ⟨1, .create hpost le_rfl fun other h h' => by omega⟩
  next hget =>
    obtain ⟨entityId, hstart, hentity⟩ := Option.bind_eq_some_iff.mp hentity
    split at hentity
    next hdigit =>
      obtain ⟨id, hcast, rfl⟩ := Option.map_eq_some_iff.mp hentity
      exact ⟨id, .read hget hstart hdigit hcast⟩
    next hdigit =>
      cases hentity
      exact ⟨1, .list hget hstart (Bool.eq_false_of_not_eq_true hdigit) le_rfl
        fun other h h' => by omega⟩
  next hput =>
    obtain ⟨entityId, hstart, hentity⟩ := Option.bind_eq_some_iff.mp hentity
    obtain ⟨id, hcast, rfl⟩ := Option.map_eq_some_iff.mp hentity
    exact ⟨id, .change (.inl hput) hstart hcast⟩
  next hdelete =>
    obtain ⟨entityId, hstart, hentity⟩ := Option.bind_eq_some_iff.mp hentity
    obtain ⟨id, hcast, rfl⟩ := Option.map_eq_some_iff.mp hentity
    exact ⟨id, .change (.inr hdelete) hstart hcast⟩
  next => cases hentity

/-- A request changes the tree on the ways to the paths it passes to the storage
only. -/
theorem handleRequest_changes {res answer : Response} {next : FileSystem}
    (hanswer : handler.handleRequest req res fs = .ok (answer, next))
    {path : Path} (hchanged : next.node? path ≠ fs.node? path) :
    ∃ call, PathCall handler req fs call ∧ OnWay fs.cwd call path := by
  have hwrite : ∀ {entity data : Text} {id : ℤ},
      handler.crudHandler.fileStorage.write entity id data fs = .ok next →
      OnWay fs.cwd (handler.crudHandler.fileStorage.getPath entity id)
        path := by
    intro entity data id hwritten
    rw [FileStorage.onWay_getPath_iff]
    have hnode := (FileStorage.write_eq_ok hwritten).2 path
    split at hnode
    next hway => exact .inl hway
    next =>
      split at hnode
      next hpath => exact .inr hpath.1
      next => exact (hchanged hnode).elim
  cases handleRequest_effect hanswer with
  | unchanged => exact (hchanged rfl).elim
  | created hpost hid hwritten =>
      rw [CRUDHandler.getNextId, CRUDHandler.nextIdLoop_eq_ok_iff] at hid
      exact ⟨_, .create hpost hid.1 hid.2.2.2, hwrite hwritten⟩
  | updated hput hstart hcast _ hwritten =>
      exact ⟨_, .change (.inl hput) hstart hcast, hwrite hwritten⟩
  | deleted hdelete hstart hcast hexists hremoved =>
      refine ⟨_, .change (.inr hdelete) hstart hcast, ?_⟩
      rw [FileStorage.onWay_getPath_iff]
      rw [CRUDHandler.exists?_eq, Option.isSome_iff_exists] at hexists
      obtain ⟨node, hfound⟩ := hexists
      have hnode := (FileStorage.remove_eq_ok hfound hremoved).2 path
      split at hnode
      next hpath => exact .inr hpath
      next => exact (hchanged hnode).elim

theorem strictly_below_iff
    (hbase : handler.crudHandler.fileStorage.basePath ≠ []) (cwd : Path)
    (entity : Text) (id : ℤ) :
    (resolve cwd handler.crudHandler.fileStorage.basePath <:+
          resolve cwd (handler.crudHandler.fileStorage.getPath entity id) ∧
        resolve cwd handler.crudHandler.fileStorage.basePath ≠
          resolve cwd (handler.crudHandler.fileStorage.getPath entity id)) ↔
      StaysBelow cwd handler.crudHandler.fileStorage.basePath entity := by
  have hne : handler.crudHandler.fileStorage.basePath ++ entity ≠ [] := by
    simp [hbase]
  rw [FileStorage.resolve_getPath, FileStorage.recordPath,
    FileStorage.directory, FileStorage.directoryName, if_neg hne,
    ← resolve_suffix_append_iff hbase, List.suffix_cons_iff]
  constructor
  · rintro ⟨heq | hsuffix, hnot⟩
    · exact (hnot heq).elim
    · exact hsuffix
  · intro hsuffix
    refine ⟨.inr hsuffix, fun heq => ?_⟩
    have hlength := hsuffix.length_le
    rw [heq, List.length_cons] at hlength
    omega

/-- The files a request reaches are all below the root exactly when its entity
does not leave the root for good; so it is without `..`, where the root ends
with a slash. -/
theorem contained_iff
    (hbase : handler.crudHandler.fileStorage.basePath ≠ []) (req : Request)
    (fs : FileSystem) :
    (handler.Contained req fs ↔ ∀ entity, handler.entity? req = some entity →
      StaysBelow fs.cwd handler.crudHandler.fileStorage.basePath entity) ∧
    (handler.crudHandler.fileStorage.basePath.getLast? = some '/' →
      (∀ entity, handler.entity? req = some entity →
        ['.', '.'] ∉ entity.splitOn '/') → handler.Contained req fs) := by
  have hiff : handler.Contained req fs ↔
      ∀ entity, handler.entity? req = some entity →
        StaysBelow fs.cwd handler.crudHandler.fileStorage.basePath entity := by
    constructor
    · intro hcontained entity hentity
      obtain ⟨id, hcall⟩ := exists_pathCall hentity fs
      exact (strictly_below_iff hbase _ _ id).mp (hcontained _ hcall)
    · intro hstays path hcall
      obtain ⟨entity, id, hentity, rfl⟩ := hcall.entity
      exact (strictly_below_iff hbase _ _ id).mpr (hstays entity hentity)
  refine ⟨hiff, fun hlast hup => hiff.mpr fun entity hentity => ?_⟩
  exact staysBelow_of_not_mem hbase (.inl hlast) (hup entity hentity) _

theorem contained_iff_shoes :
    let handler : RequestHandlerAPI := ⟨⟨⟨"data/".toList⟩⟩, "/api".toList⟩
    let req : Request := ⟨"POST".toList, "/api/Shoes".toList, 11, [], ['x']⟩
    let fs := FileSystem.empty ["srv".toList]
    (handler.Contained req fs ↔ ∀ entity, handler.entity? req = some entity →
      StaysBelow fs.cwd handler.crudHandler.fileStorage.basePath entity) ∧
    (handler.crudHandler.fileStorage.basePath.getLast? = some '/' →
      (∀ entity, handler.entity? req = some entity →
        ['.', '.'] ∉ entity.splitOn '/') → handler.Contained req fs) := by
  intro handler req fs
  exact contained_iff (by decide) req fs

/-- A create of the entity `..` writes next to the root. -/
theorem not_contained_parent :
    let config : NginxConfig :=
      [.block ["server".toList]
        [.block ["location".toList, "/api/".toList, "APIHandler".toList]
          [.simple ["root".toList, "data/".toList]]]]
    let handler : RequestHandlerAPI := ⟨⟨⟨"data/".toList⟩⟩, "/api".toList⟩
    let req : Request := ⟨"POST".toList, "/api/..".toList, 11, [], ['x']⟩
    let fs := FileSystem.empty ["srv".toList]
    (RequestHandlerDispatcher.initRequestHandlers ∅ config).map
        (fun result =>
          RequestHandlerDispatcher.getRequestHandler result.2 req.target) =
        some (some (.api handler)) ∧
      (handler.handleRequest req (.make .ok 11) fs).map (fun answer =>
        answer.2.node? ["1".toList, "srv".toList]) =
          .ok (some (.file ['x'])) ∧
      ¬ handler.Contained req fs := by
  intro config handler req fs
  refine ⟨by decide +kernel, by decide +kernel, fun hcontained => ?_⟩
  have hcall : PathCall handler req fs
      (handler.crudHandler.fileStorage.getPath (req.target.afterLast '/') 1) :=
    .create rfl le_rfl fun other h h' => by omega
  have hsuffix := (hcontained _ hcall).1
  revert hsuffix
  decide +kernel

end RequestHandlerAPI

end Swifties
