import Swifties.CrudRefinement
import Swifties.RequestHandlers

/-!
# Reading back what was created

A create names the entity by the last segment of its target, a read by what
remains of its target after the prefix, with the slash that follows the
prefix.  The base directory and the entity are put together without a
separator, so the two agree on the file when the prefix is `/` or the base ends
with a slash, and only then in every file system.
-/

namespace Swifties

open FileTree

namespace RequestHandlerAPI

def createTarget (handler : RequestHandlerAPI) (entity : Text) : Text :=
  (if handler.pathPrefix = ['/'] then [] else handler.pathPrefix) ++
    '/' :: entity

def recordTarget (handler : RequestHandlerAPI) (entity : Text) (id : ℤ) :
    Text :=
  handler.createTarget entity ++ '/' :: Text.decimal id

def readEntity (handler : RequestHandlerAPI) (entity : Text) : Text :=
  if handler.pathPrefix = ['/'] then entity else '/' :: entity

/-- Every record is read back right after its creation, in every file system
where its file can be written. -/
def ReadsBack (handler : RequestHandlerAPI) : Prop :=
  ∀ (fs next : FileSystem) (entity : Text) (id : ℤ) (post get : Request)
    (res answer : Response),
    PlainName entity →
    post.method = .post → post.target = handler.createTarget entity →
    handler.handleRequest post res fs = .ok (answer, next) →
    answer.body = CRUDHandler.idResponse id →
    next.node? (handler.crudHandler.fileStorage.recordPath next.cwd entity
      id) = some (.file post.body) →
    get.method = .get → get.target = handler.recordTarget entity id →
    ∀ res', ∃ found, handler.handleRequest get res' next = .ok (found, next) ∧
      found.result = .ok ∧ found.body = post.body

theorem afterLast_createTarget (handler : RequestHandlerAPI) {entity : Text}
    (hentity : PlainName entity) :
    (handler.createTarget entity).afterLast '/' = entity :=
  Text.afterLast_append_cons hentity.2.2.2

theorem removePrefix_createTarget_append (handler : RequestHandlerAPI)
    (entity tail : Text) :
    handler.removePrefix (handler.createTarget entity ++ tail) =
      some (handler.readEntity entity ++ tail) := by
  rw [removePrefix, createTarget, readEntity]
  by_cases hstart : handler.pathPrefix = ['/']
  · simp [hstart]
  · simp [hstart]

theorem removePrefix_recordTarget (handler : RequestHandlerAPI)
    (entity : Text) (id : ℤ) :
    handler.removePrefix (handler.recordTarget entity id) =
      some (handler.readEntity entity ++ '/' :: Text.decimal id) := by
  rw [recordTarget]
  exact handler.removePrefix_createTarget_append entity _

theorem directoryName_slash {storage : FileStorage}
    (hbase : storage.basePath.getLast? = some '/') :
    ∃ above : Text, ∀ entity : Text,
      storage.directoryName ('/' :: entity) = above ++ '/' :: '/' :: entity ∧
        storage.directoryName entity = above ++ '/' :: entity := by
  obtain ⟨above, hbase⟩ := List.getLast?_eq_some_iff.mp hbase
  refine ⟨above, fun entity => ?_⟩
  simp [FileStorage.directoryName, hbase]

theorem directory_slash {storage : FileStorage}
    (hbase : storage.basePath.getLast? = some '/') (cwd : Path)
    (entity : Text) :
    storage.directory cwd ('/' :: entity) = storage.directory cwd entity := by
  obtain ⟨above, hnames⟩ := directoryName_slash hbase
  rw [FileStorage.directory, FileStorage.directory, (hnames entity).1,
    (hnames entity).2]
  exact resolve_append_slash_slash above entity cwd

theorem sameDirectory_slash {storage : FileStorage}
    (hbase : storage.basePath.getLast? = some '/') (cwd : Path)
    (entity : Text) : storage.SameDirectory cwd ('/' :: entity) entity := by
  refine ⟨directory_slash hbase cwd entity, fun path => ?_⟩
  obtain ⟨above, hnames⟩ := directoryName_slash hbase
  rw [FileStorage.OnWay, FileStorage.OnWay, (hnames entity).1,
    (hnames entity).2]
  exact onWay_append_slash_slash above entity cwd path

/-- Where the base does not end with a slash, the two directories are different,
except for an empty base in a file system whose working directory is the
root. -/
theorem directory_slash_ne {storage : FileStorage}
    (hbase : storage.basePath.getLast? ≠ some '/') {cwd : Path}
    (hcwd : storage.basePath = [] → cwd ≠ []) {entity : Text}
    (hentity : PlainName entity) :
    storage.directory cwd ('/' :: entity) ≠ storage.directory cwd entity := by
  have hne : storage.basePath ++ entity ≠ [] := by simp [hentity.1]
  have hne' : storage.basePath ++ '/' :: entity ≠ [] := by simp
  obtain ⟨stem, parent, hstem, hglue⟩ := resolve_glue cwd storage.basePath
  rw [FileStorage.directory, FileStorage.directory, FileStorage.directoryName,
    FileStorage.directoryName, if_neg hne, if_neg hne']
  by_cases hempty : storage.basePath = []
  · rw [hempty, List.nil_append, List.nil_append, resolve_cons_slash,
      resolve_of_not_mem hentity.2.2.2, enter_plain hentity,
      List.splitOn_eq_singleton hentity.2.2.2, List.foldl_cons,
      enter_plain hentity, List.foldl_nil]
    simpa using (hcwd hempty).symm
  · rw [hglue entity hentity, resolve_append_plain hempty hentity]
    simp [hstem hempty hbase]

theorem recordPath_eq_iff_directory (storage : FileStorage) (cwd : Path)
    (entity other : Text) (id : ℤ) :
    storage.recordPath cwd entity id = storage.recordPath cwd other id ↔
      storage.directory cwd entity = storage.directory cwd other := by
  simp [FileStorage.recordPath]

theorem readsBack_of_sameDirectory {handler : RequestHandlerAPI}
    (hsame : ∀ cwd entity, handler.crudHandler.fileStorage.SameDirectory cwd
      (handler.readEntity entity) entity) : handler.ReadsBack := by
  intro fs next entity id post get res answer hentity hpost hpostTarget
    hcreated hbody hfile hget hgetTarget res'
  obtain ⟨newId, hid, _, hanswer, hwritten⟩ :=
    handleRequest_post_eq_ok hpost hcreated
  rw [hpostTarget, handler.afterLast_createTarget hentity] at hid hwritten
  rw [hanswer] at hbody
  obtain rfl := CRUDHandler.idResponse_injective hbody
  obtain ⟨hone, hmax, _⟩ := CRUDHandler.getNextId_spec hid
  have hstart := handler.removePrefix_recordTarget entity newId
  rw [← hgetTarget] at hstart
  obtain ⟨found, hfound, hnode⟩ := handleRequest_get_record hget hstart
    (by omega) hmax res' next
  rw [(hsame next.cwd entity).find?_eq, FileStorage.find?_eq,
    if_pos (FileStorage.reaches_of_write hwritten), hfile] at hnode
  exact ⟨found, hfound, hnode⟩

/-- A name longer than all others is not on any way but its own. -/
theorem unobstructed_long {storage : FileStorage} {entity : Text}
    (hentity : PlainName entity) {cwd : Path}
    (hcwd : ∀ name ∈ cwd, name.length < entity.length)
    (hbase : storage.basePath.length < entity.length) :
    storage.Unobstructed (.empty cwd) entity := by
  constructor
  · exact storage.passable_empty cwd entity
  · intro path hway hbelow
    rw [FileSystem.empty_cwd] at hway hbelow ⊢
    obtain ⟨steps, hnames, hsteps⟩ := FileTree.onWay_glue cwd storage.basePath
    obtain ⟨stem, parent, _, hglue⟩ := resolve_glue cwd storage.basePath
    rw [FileStorage.OnWay, storage.directoryName_plain hentity,
      hsteps entity hentity.up_not_mem] at hway
    rw [FileStorage.directory, storage.directoryName_plain hentity] at hbelow ⊢
    rcases hway with ⟨step, hstep, hsuffix⟩ | hsuffix
    · have hmem : stem ++ entity ∈ step := by
        apply (hbelow.trans hsuffix).subset
        rw [hglue entity hentity]
        exact List.mem_cons_self
      rcases hnames step hstep _ hmem with habove | hshort
      · have hlength := hcwd _ habove
        simp at hlength
      · rw [List.length_append] at hshort
        omega
    · exact hsuffix.eq_of_length_le hbelow.length_le

theorem recordPath_absent_long {storage : FileStorage} {entity : Text}
    (hentity : PlainName entity) {cwd : Path}
    (hcwd : ∀ name ∈ cwd, name.length < entity.length) (id : ℤ) :
    (FileSystem.empty cwd).node? (storage.recordPath cwd entity id) =
      none := by
  rw [FileSystem.node?_empty, if_neg]
  intro hsuffix
  obtain ⟨stem, parent, hglue⟩ := storage.directory_glue cwd
  have hmem : stem ++ entity ∈ cwd := by
    apply hsuffix.subset
    rw [FileStorage.recordPath, hglue entity hentity]
    simp
  have hshort := hcwd _ hmem
  simp at hshort

/-- Of a record whose path leads to a directory at most, a read shows no
contents. -/
theorem get_of_only_dir {handler : RequestHandlerAPI} {req : Request}
    (hget : req.method = .get) {entity : Text} {id : ℤ}
    (hstart : handler.removePrefix req.target =
      some (entity ++ '/' :: Text.decimal id))
    (hnonneg : 0 ≤ id) (hmax : id ≤ intMax) {res found : Response}
    {fs next : FileSystem}
    (hdir : ∀ node,
      handler.crudHandler.fileStorage.find? fs entity id = some node →
        node = .dir)
    (hfound : handler.handleRequest req res fs = .ok (found, next))
    (hresult : found.result = .ok) : found.body = [] := by
  obtain ⟨answer, hanswer, hnode⟩ :=
    handleRequest_get_record hget hstart hnonneg hmax res fs
  rw [hfound, Except.ok.injEq, Prod.mk.injEq] at hanswer
  obtain ⟨rfl, _⟩ := hanswer
  cases hfind : handler.crudHandler.fileStorage.find? fs entity id with
  | none =>
      rw [hfind] at hnode
      have hmissing : found.result = .notFound := hnode
      rw [hresult] at hmissing
      cases hmissing
  | some node =>
      rw [hfind, hdir node hfind] at hnode
      exact hnode.2

/-- In an empty file system away from the root, the file of a created record is
not where the read looks for it. -/
theorem not_readsBack {handler : RequestHandlerAPI}
    (hstart : handler.pathPrefix ≠ ['/'])
    (hbase : handler.crudHandler.fileStorage.basePath.getLast? ≠ some '/') :
    ¬ handler.ReadsBack := by
  intro hreads
  let storage := handler.crudHandler.fileStorage
  let fs := FileSystem.empty [['w']]
  let entity := List.replicate (storage.basePath.length + 3) 'e'
  let post : Request := ⟨"POST".toList, handler.createTarget entity, 11, [], ['x']⟩
  let get : Request := ⟨"GET".toList, handler.recordTarget entity 1, 11, [], []⟩
  have hlength : entity.length = storage.basePath.length + 3 :=
    List.length_replicate
  have hentity : PlainName entity := by
    simp [entity, PlainName, List.replicate_succ]
  have hlong : ∀ name ∈ fs.cwd, name.length < entity.length := by
    simp [fs, hlength]
  have hfree : storage.Unobstructed fs entity := by
    apply unobstructed_long hentity hlong
    omega
  have habsent : fs.node? (storage.recordPath fs.cwd entity 1) = none :=
    recordPath_absent_long hentity hlong 1
  have hid : handler.crudHandler.getNextId entity fs = .ok 1 := by
    apply CRUDHandler.getNextId_of_find?
    rw [FileStorage.find?_eq, habsent, ite_self]
  have hwritable : writable (fs.node? (storage.recordPath fs.cwd entity 1)) =
      true := by
    rw [habsent]
    rfl
  obtain ⟨next, hwritten, hcwd, hnodes⟩ :=
    FileStorage.write_ok ['x'] hfree hwritable
  have htarget : post.target.afterLast '/' = entity :=
    handler.afterLast_createTarget hentity
  have hcreate := CRUDHandler.create_ok hid hwritten
  rw [← htarget] at hcreate
  obtain ⟨answer, hanswer, _, hbody⟩ :=
    handleRequest_post_ok (by rfl) hcreate (.make .ok 11)
  obtain ⟨found, hfound, hresult, hcontents⟩ :=
    hreads fs next entity 1 post get _ answer hentity rfl rfl hanswer hbody
      (by rw [hcwd, hnodes, if_pos rfl]) rfl rfl (.make .ok 11)
  have hne : storage.recordPath fs.cwd ('/' :: entity) 1 ≠
      storage.recordPath fs.cwd entity 1 := by
    rw [Ne, recordPath_eq_iff_directory]
    exact directory_slash_ne hbase (fun _ => by simp [fs]) hentity
  -- the read finds a directory at most
  have helsewhere : ∀ node,
      storage.find? next (handler.readEntity entity) 1 = some node →
        node = .dir := by
    intro node hsome
    rw [readEntity, if_neg hstart] at hsome
    obtain ⟨_, hat⟩ := FileStorage.find?_eq_some_iff.mp hsome
    rw [hcwd, hnodes, if_neg hne] at hat
    split at hat
    next => exact (Option.some.inj hat).symm
    next => exact FileSystem.dir_of_node?_empty hat
  have hempty := get_of_only_dir (by rfl)
    (handler.removePrefix_recordTarget entity 1) (by decide) (by decide)
    helsewhere hfound hresult
  rw [hcontents] at hempty
  cases hempty

/-- A handler reads back what it created, in every file system, exactly when
its prefix is `/` or its base directory is given with a final slash. -/
theorem readsBack_iff (path root : Text) :
    ReadsBack ⟨⟨⟨root⟩⟩, path.stripTrailingSlashes⟩ ↔
      path.stripTrailingSlashes = ['/'] ∨ root.getLast? = some '/' := by
  constructor
  · intro hreads
    by_contra hnot
    rw [not_or] at hnot
    exact not_readsBack hnot.1 hnot.2 hreads
  · intro hcase
    apply readsBack_of_sameDirectory
    intro cwd entity
    unfold readEntity
    split
    next => exact .refl _ cwd entity
    next hstart =>
      exact sameDirectory_slash (hcase.resolve_left hstart) cwd entity

theorem not_readsBack_api_root :
    (do
      let handler : RequestHandlerAPI :=
        ⟨⟨⟨"/api_root".toList⟩⟩, "/api".toList⟩
      let (created, fs) ← handler.handleRequest
        ⟨"POST".toList, "/api/foo".toList, 11, [], ['x']⟩ (.make .ok 11)
        (FileSystem.empty [['w']])
      let (found, _) ← handler.handleRequest
        ⟨"GET".toList, "/api/foo/1".toList, 11, [], []⟩ (.make .ok 11) fs
      .ok (created.body, found.result)) =
        .ok (CRUDHandler.idResponse 1, .notFound) ∧
    ¬ ReadsBack ⟨⟨⟨"/api_root".toList⟩⟩,
      Text.stripTrailingSlashes "/api".toList⟩ := by
  constructor
  · decide +kernel
  · exact not_readsBack (by decide) (by decide)

end RequestHandlerAPI

end Swifties
