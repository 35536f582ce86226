import Swifties.CrudRefinement
import Swifties.Dispatcher

/-!
# Requests that throw

`handleRequest` is `noexcept`, so a file-system call that throws inside it ends
the server.  Entities and ids share the names of one tree: a create throws when
a record has the path of a directory it needs, and a delete throws when the
path of its record is a directory with entries.  No other request throws.
-/

namespace Swifties

open FileTree

namespace RequestHandlerAPI

def serve (handler : RequestHandlerAPI) (fs : FileSystem)
    (call : Request × Response) : Except Fault (Response × FileSystem) :=
  handler.handleRequest call.1 call.2 fs

/-- A create meets nothing but directories on the way to that of its entity, and
a delete does not find a directory with entries under the path of its record. -/
def Clear (handler : RequestHandlerAPI) (fs : FileSystem)
    (call : Request × Response) : Prop :=
  match call.1.method with
  | .post =>
      handler.crudHandler.fileStorage.Passable fs
        (call.1.target.afterLast '/')
  | .delete =>
      ∀ entityId id, handler.removePrefix call.1.target = some entityId →
        Text.lexicalCast (entityId.afterLast '/') = some id →
        ¬ (handler.crudHandler.fileStorage.find? fs
            (entityId.beforeLast '/') id = some .dir ∧
          fs.hasChild (handler.crudHandler.fileStorage.recordPath fs.cwd
            (entityId.beforeLast '/') id) = true)
  | _ => True

theorem listLoop_eq_error {present : ℤ → Bool} {left : ℕ} {id : ℤ}
    {body : Text} {fault : Fault}
    (herror : listLoop present left id body = .error fault) :
    fault = .signedOverflow := by
  induction left generalizing id body with
  | zero =>
      rw [listLoop, Except.error.injEq] at herror
      exact herror.symm
  | succ left ih =>
      rw [listLoop] at herror
      split at herror
      next => exact ih herror
      next => cases herror

theorem handleGet_eq_error {handler : RequestHandlerAPI} {req : Request}
    {res : Response} {fs : FileSystem} {fault : Fault}
    (herror : handler.handleGet req res fs = .error fault) :
    fault = .signedOverflow := by
  unfold handleGet at herror
  split at herror
  next => cases herror
  next entityId _ =>
    simp only at herror
    split at herror
    next =>
      split at herror
      next => cases herror
      next =>
        split at herror
        next => cases herror
        next => cases herror
    next =>
      rw [list] at herror
      cases hids : listLoop
          (fun id => handler.crudHandler.exists? entityId id fs) 2147483647 1
          "[".toList with
      | error other =>
          rw [hids] at herror
          cases herror
          exact listLoop_eq_error hids
      | ok ids =>
          rw [hids] at herror
          cases herror

theorem handlePut_ok (handler : RequestHandlerAPI) (req : Request)
    (res : Response) (fs : FileSystem) :
    ∃ result, handler.handlePut req res fs = .ok result := by
  unfold handlePut
  split
  next => exact ⟨_, rfl⟩
  next entityId _ =>
    simp only
    split
    next => exact ⟨_, rfl⟩
    next id _ =>
      obtain ⟨⟨success, written⟩, hupdate⟩ := handler.crudHandler.update_ok
        (entityId.beforeLast '/') id req.body fs
      rw [hupdate]
      cases success <;> exact ⟨_, rfl⟩

theorem handlePost_filesystemError_iff {handler : RequestHandlerAPI}
    {req : Request} {res : Response} {fs : FileSystem} :
    handler.handlePost req res fs = .error .filesystemError ↔
      ¬ handler.crudHandler.fileStorage.Passable fs
        (req.target.afterLast '/') := by
  rw [← CRUDHandler.create_filesystemError_iff, handlePost]
  cases handler.crudHandler.create (req.target.afterLast '/') req.body fs <;>
    simp [bind, Except.bind]

theorem handleDelete_filesystemError_iff {handler : RequestHandlerAPI}
    {req : Request} {res : Response} {fs : FileSystem} :
    handler.handleDelete req res fs = .error .filesystemError ↔
      ∃ entityId id, handler.removePrefix req.target = some entityId ∧
        Text.lexicalCast (entityId.afterLast '/') = some id ∧
        handler.crudHandler.delete (entityId.beforeLast '/') id fs =
          .error .filesystemError := by
  unfold handleDelete
  split
  next hstart => simp [hstart]
  next entityId hstart =>
    simp only
    split
    next hcast => simp [hstart, hcast]
    next id hcast =>
      cases hdelete : handler.crudHandler.delete (entityId.beforeLast '/') id
          fs with
      | error fault => simp [hstart, hcast, hdelete, bind, Except.bind]
      | ok deleted =>
          obtain ⟨success, removed⟩ := deleted
          cases success <;> simp [hstart, hcast, hdelete, bind, Except.bind]

theorem serve_filesystemError_iff (handler : RequestHandlerAPI)
    (fs : FileSystem) (call : Request × Response) :
    handler.serve fs call = .error .filesystemError ↔
      ¬ handler.Clear fs call := by
  obtain ⟨req, res⟩ := call
  cases hmethod : req.method with
  | get =>
      simp only [serve, handleRequest, Clear, hmethod, not_true_eq_false,
        iff_false]
      intro herror
      cases handleGet_eq_error herror
  | post =>
      simp only [serve, handleRequest, Clear, hmethod]
      exact handlePost_filesystemError_iff
  | put =>
      simp only [serve, handleRequest, Clear, hmethod, not_true_eq_false,
        iff_false]
      intro herror
      obtain ⟨result, hresult⟩ := handler.handlePut_ok req _ fs
      rw [hresult] at herror
      cases herror
  | delete =>
      simp only [serve, handleRequest, Clear, hmethod,
        handleDelete_filesystemError_iff, CRUDHandler.delete_eq_error_iff,
        not_forall, not_not, true_and, exists_prop]
  | other =>
      simp only [serve, handleRequest, Clear, hmethod, not_true_eq_false,
        iff_false]
      intro herror
      cases herror

/-! ## Requests that never clash -/

/-- A create of a plain entity whose name is no numeral, or a delete that does
not climb with `..`. -/
structure Harmless (handler : RequestHandlerAPI) (req : Request) : Prop where
  create : req.method = .post → PlainName (req.target.afterLast '/') ∧
    ∀ id, req.target.afterLast '/' ≠ Text.decimal id
  delete : req.method = .delete → ∀ entityId,
    handler.removePrefix req.target = some entityId →
      ['.', '.'] ∉ (entityId.beforeLast '/').splitOn '/'

/-- The way to the base consists of directories and does not lead through the
base.  A directory below the base is one of an entity whose name is no numeral,
and nothing else stands right below the base. -/
structure Tidy (base : Text) (cwd : Path) (fs : FileSystem) : Prop where
  cwd_eq : fs.cwd = cwd
  way : ∀ path, OnWay cwd base path → fs.node? path = some .dir ∧
    (resolve cwd base <:+ path → path = resolve cwd base)
  dir : ∀ names, names ≠ [] →
    fs.node? (names ++ resolve cwd base) = some .dir →
      ∃ entity, names = [entity] ∧ ∀ id, entity ≠ Text.decimal id
  only_dirs : ∀ name node, fs.node? (name :: resolve cwd base) = some node →
    node = .dir

def EmptyDirectory (fs : FileSystem) (base : Text) : Prop :=
  fs.status base = some .dir ∧
    ∀ name, fs.node? (name :: resolve fs.cwd base) = none

theorem tidy_of_empty {base : Text} (hbase : base ≠ []) {fs : FileSystem}
    (hempty : EmptyDirectory fs base) : Tidy base fs.cwd fs := by
  obtain ⟨hstatus, hnone⟩ := hempty
  have hbelow : ∀ names, names ≠ [] →
      fs.node? (names ++ resolve fs.cwd base) ≠ some .dir := by
    intro names hne hnames
    rcases List.eq_nil_or_concat names with rfl | ⟨below, name, rfl⟩
    · exact hne rfl
    · rw [List.concat_eq_append, List.append_assoc, List.singleton_append]
        at hnames
      have hchild := FileSystem.node?_above hnames
        (List.suffix_append below (name :: resolve fs.cwd base))
      rw [hnone] at hchild
      cases hchild
  have hdirs := (FileSystem.status_eq_dir_iff hbase).mp hstatus
  refine ⟨rfl, fun path hway => ⟨hdirs path hway, ?_⟩, ?_, ?_⟩
  · rintro ⟨names, rfl⟩
    by_cases hnil : names = []
    · rw [hnil, List.nil_append]
    · exact (hbelow names hnil (hdirs _ hway)).elim
  · intro names hne hnames
    exact (hbelow names hne hnames).elim
  · intro name node hnode
    rw [hnone] at hnode
    cases hnode

theorem directory_below {storage : FileStorage}
    (hbase : storage.basePath.getLast? = some '/') (cwd : Path)
    (entity : Text) :
    storage.directory cwd entity =
      (entity.splitOn '/').foldl enter (resolve cwd storage.basePath) := by
  have hne : storage.basePath ≠ [] := by
    intro hnil
    simp [hnil] at hbase
  rw [FileStorage.directory, FileStorage.directoryName,
    if_neg (by simp [hne]), resolve_base_append hbase]

theorem directory_plain {storage : FileStorage}
    (hbase : storage.basePath.getLast? = some '/') (cwd : Path)
    {entity : Text} (hentity : PlainName entity) :
    storage.directory cwd entity =
      entity :: resolve cwd storage.basePath := by
  rw [directory_below hbase, List.splitOn_eq_singleton hentity.2.2.2]
  exact enter_plain hentity _

theorem onWay_plain {storage : FileStorage}
    (hbase : storage.basePath.getLast? = some '/') (cwd : Path)
    {entity : Text} (hentity : PlainName entity) (path : Path) :
    storage.OnWay cwd entity path ↔
      FileTree.OnWay cwd storage.basePath path ∨
        path = entity :: resolve cwd storage.basePath := by
  have hdirectory := directory_plain hbase cwd hentity
  rw [FileStorage.directory, storage.directoryName_plain hentity] at hdirectory
  rw [FileStorage.OnWay, storage.directoryName_plain hentity,
    onWay_base_append hbase hentity.up_not_mem, hdirectory, List.suffix_cons_iff,
    ← or_assoc, or_right_comm, or_iff_left_of_imp onWay_of_suffix]

section

variable {handler : RequestHandlerAPI} {cwd : Path} {fs next : FileSystem}
  {call : Request × Response} {answer : Response}

theorem tidy_clear
    (hbase : handler.crudHandler.fileStorage.basePath.getLast? = some '/')
    (htidy : Tidy handler.crudHandler.fileStorage.basePath cwd fs)
    (hharmless : handler.Harmless call.1) : handler.Clear fs call := by
  obtain ⟨hcwd, hway, hdirs, honly⟩ := htidy
  unfold Clear
  split
  next hpost =>
    obtain ⟨hplain, _⟩ := hharmless.create hpost
    intro path hpath node hnode
    rw [hcwd, onWay_plain hbase cwd hplain] at hpath
    rcases hpath with habove | rfl
    · rw [(hway path habove).1] at hnode
      exact (Option.some.inj hnode).symm
    · exact honly _ node hnode
  next hdelete =>
    rintro entityId id hstart - ⟨hfind, -⟩
    obtain ⟨_, hnode⟩ := FileStorage.find?_eq_some_iff.mp hfind
    obtain ⟨names, hnames⟩ := foldl_enter_of_not_mem
      (hharmless.delete hdelete entityId hstart)
      (resolve cwd handler.crudHandler.fileStorage.basePath)
    rw [FileStorage.recordPath, hcwd, directory_below hbase, hnames,
      ← List.cons_append] at hnode
    obtain ⟨entity, hentity, hnumeral⟩ := hdirs _ (by simp) hnode
    rw [List.cons.injEq] at hentity
    exact hnumeral id hentity.1.symm
  next => trivial

theorem tidy_write {storage : FileStorage} {entity data : Text} {id : ℤ}
    (hbase : storage.basePath.getLast? = some '/')
    (htidy : Tidy storage.basePath cwd fs)
    (hplain : PlainName entity) (hnumeral : ∀ id, entity ≠ Text.decimal id)
    (hwritten : storage.write entity id data fs = .ok next) :
    Tidy storage.basePath cwd next := by
  obtain ⟨hcwd, hway, hdirs, honly⟩ := htidy
  obtain ⟨hcwd', hnodes⟩ := FileStorage.write_eq_ok hwritten
  rw [hcwd] at hcwd' hnodes
  have hrecord : storage.recordPath cwd entity id =
      [Text.decimal id, entity] ++ resolve cwd storage.basePath := by
    rw [FileStorage.recordPath, directory_plain hbase cwd hplain]
    rfl
  rw [hrecord] at hnodes
  refine ⟨hcwd', fun path hpath => ⟨?_, (hway path hpath).2⟩, ?_, ?_⟩
  · rw [hnodes, if_pos]
    exact (onWay_plain hbase cwd hplain path).mpr (.inl hpath)
  · intro names hne hnames
    rw [hnodes] at hnames
    split at hnames
    next hpath =>
      rcases (onWay_plain hbase cwd hplain _).mp hpath with habove | heq
      · have hnil := (hway _ habove).2 (List.suffix_append _ _)
        exact (hne (List.append_left_eq_self.mp hnil)).elim
      · exact ⟨entity, List.append_cancel_right heq, hnumeral⟩
    next =>
      split at hnames
      next => cases hnames
      next => exact hdirs names hne hnames
  · intro name node hnode
    rw [hnodes] at hnode
    split at hnode
    next => exact (Option.some.inj hnode).symm
    next =>
      split at hnode
      next hpath =>
        have hlength := congrArg List.length hpath.1
        simp at hlength
      next => exact honly name node hnode

theorem tidy_overwrite {storage : FileStorage} {base : Text}
    {entity data : Text} {id : ℤ} {node : Node} (htidy : Tidy base cwd fs)
    (hnode : storage.find? fs entity id = some node)
    (hwritten : storage.write entity id data fs = .ok next) :
    Tidy base cwd next := by
  obtain ⟨hcwd, hway, hdirs, honly⟩ := htidy
  obtain ⟨hcwd', hnodes⟩ := FileStorage.overwrite_eq_ok hnode hwritten
  obtain ⟨_, hrecord⟩ := FileStorage.find?_eq_some_iff.mp hnode
  -- a directory stays one, and none is made
  have hdir : ∀ path, next.node? path = some .dir ↔
      fs.node? path = some .dir := by
    intro path
    rw [hnodes]
    split
    next hpath =>
      obtain ⟨rfl, hwritable⟩ := hpath
      rw [hrecord]
      cases node <;> simp [writable] at hwritable ⊢
    next => rfl
  have hpresent : ∀ path contents, next.node? path = some contents →
      ∃ old, fs.node? path = some old ∧ (old = .dir → contents = .dir) := by
    intro path contents hcontents
    rw [hnodes] at hcontents
    split at hcontents
    next hpath =>
      obtain ⟨rfl, hwritable⟩ := hpath
      refine ⟨node, hrecord, ?_⟩
      rintro rfl
      cases hwritable
    next => exact ⟨contents, hcontents, fun hdir => hdir⟩
  refine ⟨hcwd'.trans hcwd, ?_, ?_, ?_⟩
  · intro path hpath
    exact (hway path hpath).imp_left (hdir path).mpr
  · intro names hne hnames
    exact hdirs names hne ((hdir _).mp hnames)
  · intro name contents hcontents
    obtain ⟨old, hold, himp⟩ := hpresent _ contents hcontents
    exact himp (honly name old hold)

theorem tidy_remove {storage : FileStorage} {entity : Text} {id : ℤ}
    {node : Node} (hbase : storage.basePath.getLast? = some '/')
    (htidy : Tidy storage.basePath cwd fs)
    (hup : ['.', '.'] ∉ entity.splitOn '/')
    (hnode : storage.find? fs entity id = some node)
    (hremoved : storage.remove entity id fs = .ok next) :
    Tidy storage.basePath cwd next := by
  obtain ⟨hcwd, hway, hdirs, honly⟩ := htidy
  obtain ⟨hcwd', hnodes⟩ := FileStorage.remove_eq_ok hnode hremoved
  rw [hcwd] at hcwd' hnodes
  have hkept : ∀ path node, next.node? path = some node →
      fs.node? path = some node := by
    intro path node hnode
    rw [hnodes, Option.ite_none_left_eq_some] at hnode
    exact hnode.2
  refine ⟨hcwd', fun path hpath => ⟨?_, (hway path hpath).2⟩, ?_, ?_⟩
  · obtain ⟨names, hnames⟩ := foldl_enter_of_not_mem hup
      (resolve cwd storage.basePath)
    have hne : path ≠ storage.recordPath cwd entity id := by
      rw [FileStorage.recordPath, directory_below hbase, hnames,
        ← List.cons_append]
      rintro rfl
      have hnil := (hway _ hpath).2 (List.suffix_append _ _)
      cases List.append_left_eq_self.mp hnil
    rw [hnodes, if_neg hne]
    exact (hway path hpath).1
  · intro names hne hnames
    exact hdirs names hne (hkept _ _ hnames)
  · intro name contents hfile
    exact honly name contents (hkept _ _ hfile)

theorem tidy_serve
    (hbase : handler.crudHandler.fileStorage.basePath.getLast? = some '/')
    (htidy : Tidy handler.crudHandler.fileStorage.basePath cwd fs)
    (hharmless : handler.Harmless call.1)
    (hanswer : handler.serve fs call = .ok (answer, next)) :
    Tidy handler.crudHandler.fileStorage.basePath cwd next := by
  cases handleRequest_effect hanswer with
  | unchanged => exact htidy
  | created hpost _ hwritten =>
      obtain ⟨hplain, hnumeral⟩ := hharmless.create hpost
      exact tidy_write hbase htidy hplain hnumeral hwritten
  | updated _ _ _ hexists hwritten =>
      rw [CRUDHandler.exists?_eq, Option.isSome_iff_exists] at hexists
      obtain ⟨node, hnode⟩ := hexists
      exact tidy_overwrite htidy hnode hwritten
  | deleted hdelete hstart _ hexists hremoved =>
      rw [CRUDHandler.exists?_eq, Option.isSome_iff_exists] at hexists
      obtain ⟨node, hnode⟩ := hexists
      exact tidy_remove hbase htidy (hharmless.delete hdelete _ hstart) hnode
        hremoved

end

/-- A run throws exactly when some request of it is not clear when its turn
comes.  From an empty base directory that is given with a final slash, harmless
requests never throw. -/
theorem run_never_throws_iff (handler : RequestHandlerAPI) (fs : FileSystem)
    (calls : List (Request × Response)) :
    (Machine.run handler.serve fs calls ≠ .error .filesystemError ↔
      Machine.Before handler.Clear handler.serve fs calls) ∧
    (handler.crudHandler.fileStorage.basePath.getLast? = some '/' →
      EmptyDirectory fs handler.crudHandler.fileStorage.basePath →
      (∀ call ∈ calls, handler.Harmless call.1) →
      Machine.run handler.serve fs calls ≠ .error .filesystemError) := by
  have hiff : Machine.run handler.serve fs calls ≠ .error .filesystemError ↔
      Machine.Before handler.Clear handler.serve fs calls := by
    rw [Ne, Machine.run_error_iff handler.serve_filesystemError_iff, not_not]
  refine ⟨hiff, fun hbase hempty hharmless => ?_⟩
  rw [hiff]
  have hne : handler.crudHandler.fileStorage.basePath ≠ [] := by
    intro hnil
    simp [hnil] at hbase
  have htidy := tidy_of_empty hne hempty
  have hsafe : ∀ s (e : Request × Response),
      Tidy handler.crudHandler.fileStorage.basePath fs.cwd s →
      handler.Harmless e.1 → handler.Clear s e :=
    fun _ _ htidy he => tidy_clear hbase htidy he
  exact Machine.before_of_invariant hsafe
    (fun _ _ _ _ htidy he hnext => tidy_serve hbase htidy he hnext) htidy
    hharmless

/-- A create of the entity `1` makes a directory that a delete takes for a
record. -/
theorem run_throws_on_numeral_entity :
    let config : NginxConfig :=
      [.block ["server".toList]
        [.block ["location".toList, "/api/".toList, "APIHandler".toList]
          [.simple ["root".toList, "data/".toList]]]]
    let handler : RequestHandlerAPI := ⟨⟨⟨"data/".toList⟩⟩, "/api".toList⟩
    let fs := (FileSystem.empty []).place ["data".toList] .dir rfl (by simp)
    let post : Request := ⟨"POST".toList, "/api/1".toList, 11, [], ['x']⟩
    let delete : Request := ⟨"DELETE".toList, "/api/1".toList, 11, [], []⟩
    (RequestHandlerDispatcher.initRequestHandlers ∅ config).map
        (fun result =>
          RequestHandlerDispatcher.getRequestHandler result.2 post.target) =
        some (some (.api handler)) ∧
      post.target = delete.target ∧
      EmptyDirectory fs "data/".toList ∧
      Machine.run handler.serve fs
        [(post, .make .ok 11), (delete, .make .ok 11)] =
          .error .filesystemError := by
  intro config handler fs post delete
  refine ⟨by decide, rfl, ⟨rfl, fun name => ?_⟩, rfl⟩
  have hpath : resolve fs.cwd "data/".toList = ["data".toList] := by decide
  rw [hpath]
  simp [fs, FileSystem.node?_place]

end RequestHandlerAPI

end Swifties
