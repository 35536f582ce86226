import Swifties.FilePaths
import Swifties.Machine

/-!
# Records in files

`FileStorage` keeps the record `id` of an entity in the file
`base_path_ + entity + "/" + id`; `CRUDHandler` adds the choice of the next id
and the guards of update and delete.  An operation that throws, or that
overflows an `int`, ends with a fault; what it had done to the file system by
then is lost with the process, since every caller is `noexcept`.
-/

namespace Swifties

open FileTree

inductive Fault where
  | filesystemError
  | signedOverflow
deriving DecidableEq, Repr

def orThrow {β : Type} : Option β → Except Fault β
  | some b => .ok b
  | none => .error .filesystemError

structure FileStorage where
  basePath : Text
deriving DecidableEq, Repr

namespace FileStorage

def getPath (storage : FileStorage) (entity : Text) (id : ℤ) : Text :=
  storage.basePath ++ entity ++ '/' :: Text.decimal id

def write (storage : FileStorage) (entity : Text) (id : ℤ) (data : Text)
    (fs : FileSystem) : Except Fault FileSystem := do
  let path := storage.getPath entity id
  let made ← orThrow (fs.createDirectories (parentPath path))
  .ok (made.writeFile path data)

def read (storage : FileStorage) (entity : Text) (id : ℤ)
    (fs : FileSystem) : Text :=
  fs.readFile (storage.getPath entity id)

def remove (storage : FileStorage) (entity : Text) (id : ℤ)
    (fs : FileSystem) : Except Fault FileSystem := do
  let removed ← orThrow (fs.removePath (storage.getPath entity id))
  .ok removed.2

/-! ### Where a record is kept -/

/-- What `parent_path` takes the directory of an entity to be. -/
def directoryName (storage : FileStorage) (entity : Text) : Text :=
  if storage.basePath ++ entity = [] then ['/'] else storage.basePath ++ entity

def directory (storage : FileStorage) (cwd : Path) (entity : Text) : Path :=
  resolve cwd (storage.directoryName entity)

def recordPath (storage : FileStorage) (cwd : Path) (entity : Text) (id : ℤ) :
    Path :=
  Text.decimal id :: storage.directory cwd entity

/-- On the way to the directory of the entity. -/
def OnWay (storage : FileStorage) (cwd : Path) (entity : Text) (path : Path) :
    Prop :=
  FileTree.OnWay cwd (storage.directoryName entity) path

instance (storage : FileStorage) (cwd : Path) (entity : Text) (path : Path) :
    Decidable (storage.OnWay cwd entity path) :=
  inferInstanceAs (Decidable (FileTree.OnWay _ _ _))

/-- The walk to the directory of the entity ends in a directory. -/
def Reaches (storage : FileStorage) (fs : FileSystem) (entity : Text) : Prop :=
  fs.status (storage.directoryName entity) = some .dir

instance (storage : FileStorage) (fs : FileSystem) (entity : Text) :
    Decidable (storage.Reaches fs entity) :=
  inferInstanceAs (Decidable (_ = _))

/-- What is found under the path of a record. -/
def find? (storage : FileStorage) (fs : FileSystem) (entity : Text) (id : ℤ) :
    Option Node :=
  fs.status (storage.getPath entity id)

theorem directoryName_ne_nil (storage : FileStorage) (entity : Text) :
    storage.directoryName entity ≠ [] := by
  rw [directoryName]
  split
  next => simp
  next hne => exact hne

theorem parentPath_getPath (storage : FileStorage) (entity : Text) (id : ℤ) :
    parentPath (storage.getPath entity id) = storage.directoryName entity := by
  rw [getPath, parentPath_append (Text.slash_not_mem_decimal id),
    directoryName]

theorem directory_onWay (storage : FileStorage) (cwd : Path) (entity : Text) :
    storage.OnWay cwd entity (storage.directory cwd entity) :=
  onWay_of_suffix List.suffix_rfl

theorem resolve_getPath (storage : FileStorage) (cwd : Path) (entity : Text)
    (id : ℤ) :
    resolve cwd (storage.getPath entity id) =
      storage.recordPath cwd entity id := by
  rw [getPath, recordPath, directory, directoryName]
  split
  next hnil =>
    rw [hnil, List.nil_append, resolve_cons_slash, resolve_slash,
      List.splitOn_eq_singleton (Text.slash_not_mem_decimal id)]
    exact enter_plain (plainName_decimal id) []
  next hne => exact resolve_append_plain hne (plainName_decimal id) cwd

theorem reaches_iff {storage : FileStorage} {fs : FileSystem} {entity : Text} :
    storage.Reaches fs entity ↔ ∀ path, storage.OnWay fs.cwd entity path →
      fs.node? path = some .dir :=
  FileSystem.status_eq_dir_iff (storage.directoryName_ne_nil entity)

theorem Reaches.directory {storage : FileStorage} {fs : FileSystem}
    {entity : Text} (hreaches : storage.Reaches fs entity) :
    fs.node? (storage.directory fs.cwd entity) = some .dir :=
  reaches_iff.mp hreaches _ (storage.directory_onWay fs.cwd entity)

theorem Reaches.mono {storage : FileStorage} {fs next : FileSystem}
    {entity : Text} (hreaches : storage.Reaches fs entity)
    (hcwd : next.cwd = fs.cwd)
    (hdirs : ∀ path, fs.node? path = some .dir →
      next.node? path = some .dir) : storage.Reaches next entity := by
  rw [reaches_iff] at hreaches ⊢
  intro path hway
  rw [hcwd] at hway
  exact hdirs path (hreaches path hway)

theorem onWay_getPath_iff {storage : FileStorage} {cwd : Path} {entity : Text}
    {id : ℤ} {path : Path} :
    FileTree.OnWay cwd (storage.getPath entity id) path ↔
      storage.OnWay cwd entity path ∨
        path = storage.recordPath cwd entity id := by
  have hplain := plainName_decimal id
  rw [OnWay, recordPath, directory, directoryName]
  split
  next hnil =>
    have hup : ['.', '.'] ∉ ('/' :: Text.decimal id).splitOn '/' := by
      rw [splitOn_cons_slash, List.mem_cons, not_or]
      exact ⟨by simp, hplain.up_not_mem⟩
    rw [getPath, hnil, List.nil_append, onWay_iff hup, onWay_iff (by decide),
      resolve_cons_slash, List.splitOn_eq_singleton hplain.2.2.2,
      List.foldl_cons, List.foldl_nil, enter_plain hplain, resolve_slash,
      List.suffix_cons_iff, or_comm]
  next hne => exact onWay_append_plain hne hplain cwd path

theorem locate_getPath (storage : FileStorage) (fs : FileSystem)
    (entity : Text) (id : ℤ) :
    fs.locate (storage.getPath entity id) =
      if storage.Reaches fs entity then
        some (storage.recordPath fs.cwd entity id)
      else none := by
  rw [← resolve_getPath, getPath]
  unfold Reaches directoryName
  split
  next hnil =>
    have hplain := plainName_decimal id
    have hroot : fs.status ['/'] = some .dir := rfl
    rw [hnil, List.nil_append, if_pos hroot, resolve_cons_slash,
      List.splitOn_eq_singleton hplain.2.2.2, FileSystem.locate,
      if_neg (by simp), splitOn_cons_slash,
      List.splitOn_eq_singleton hplain.2.2.2]
    rfl
  next hne => exact FileSystem.locate_plain (plainName_decimal id) hne fs

theorem find?_eq (storage : FileStorage) (fs : FileSystem) (entity : Text)
    (id : ℤ) :
    storage.find? fs entity id =
      if storage.Reaches fs entity then
        fs.node? (storage.recordPath fs.cwd entity id)
      else none := by
  rw [find?, FileSystem.status, locate_getPath]
  split <;> rfl

theorem find?_eq_some_iff {storage : FileStorage} {fs : FileSystem}
    {entity : Text} {id : ℤ} {node : Node} :
    storage.find? fs entity id = some node ↔ storage.Reaches fs entity ∧
      fs.node? (storage.recordPath fs.cwd entity id) = some node := by
  rw [find?_eq, Option.ite_none_right_eq_some]

/-- Where no `..` leads out of a directory, the record is found if it is
there. -/
theorem find?_eq_node? {storage : FileStorage} {entity : Text}
    (hup : ['.', '.'] ∉ (storage.directoryName entity).splitOn '/')
    (fs : FileSystem) (id : ℤ) :
    storage.find? fs entity id =
      fs.node? (storage.recordPath fs.cwd entity id) := by
  rw [find?_eq]
  split
  next => rfl
  next hreaches =>
    cases hnode : fs.node? (storage.recordPath fs.cwd entity id) with
    | none => rfl
    | some node =>
        refine (hreaches (reaches_iff.mpr fun path hway => ?_)).elim
        rw [OnWay, onWay_iff hup] at hway
        exact FileSystem.node?_above (FileSystem.node?_parent hnode) hway

theorem read_eq (storage : FileStorage) (entity : Text) (id : ℤ)
    (fs : FileSystem) :
    storage.read entity id fs =
      match storage.find? fs entity id with
      | some (.file data) => data
      | _ => [] := rfl

/-! ### Writing and removing a record -/

/-- Nothing but directories stands on the way to the directory of the
entity. -/
def Passable (storage : FileStorage) (fs : FileSystem) (entity : Text) : Prop :=
  ∀ path, storage.OnWay fs.cwd entity path →
    ∀ node, fs.node? path = some node → node = .dir

/-- The way to the directory of the entity does not lead through that directory,
as one with `..` can. -/
def Direct (storage : FileStorage) (cwd : Path) (entity : Text) : Prop :=
  ∀ path, storage.OnWay cwd entity path →
    storage.directory cwd entity <:+ path →
      path = storage.directory cwd entity

/-- The directory of the entity can be made without touching its records. -/
def Unobstructed (storage : FileStorage) (fs : FileSystem) (entity : Text) :
    Prop :=
  storage.Passable fs entity ∧ storage.Direct fs.cwd entity

/-- Something is at the path of the record, whether the walk finds it or not, or
will be where the way there is made. -/
def Stands (storage : FileStorage) (fs : FileSystem) (entity : Text) (id : ℤ) :
    Prop :=
  storage.OnWay fs.cwd entity (storage.recordPath fs.cwd entity id) ∨
    fs.node? (storage.recordPath fs.cwd entity id) ≠ none

theorem passable_empty (storage : FileStorage) (cwd : Path) (entity : Text) :
    storage.Passable (.empty cwd) entity := by
  intro path _ node hnode
  exact FileSystem.dir_of_node?_empty hnode

theorem Reaches.passable {storage : FileStorage} {fs : FileSystem}
    {entity : Text} (hreaches : storage.Reaches fs entity) :
    storage.Passable fs entity := by
  intro path hway node hnode
  rw [reaches_iff.mp hreaches path hway] at hnode
  exact (Option.some.inj hnode).symm

/-- More directories on the way do not stand in it. -/
theorem Unobstructed.mono {storage : FileStorage} {fs next : FileSystem}
    {entity : Text} (hfree : storage.Unobstructed fs entity)
    (hcwd : next.cwd = fs.cwd)
    (hnodes : ∀ path, storage.OnWay fs.cwd entity path → ∀ node,
      next.node? path = some node → node = .dir ∨ fs.node? path = some node) :
    storage.Unobstructed next entity := by
  obtain ⟨hpassable, hdirect⟩ := hfree
  refine ⟨fun path hway node hnode => ?_, by rwa [hcwd]⟩
  rw [hcwd] at hway
  rcases hnodes path hway node hnode with hdir | hbefore
  · exact hdir
  · exact hpassable path hway node hbefore

theorem Direct.recordPath_not_onWay {storage : FileStorage} {cwd : Path}
    {entity : Text} (hdirect : storage.Direct cwd entity) (id : ℤ) :
    ¬ storage.OnWay cwd entity (storage.recordPath cwd entity id) := by
  intro hway
  have heq := hdirect _ hway (List.suffix_cons _ _)
  have hlength := congrArg List.length heq
  simp [recordPath] at hlength

/-- Without `..` the way leads straight to the directory. -/
theorem direct_of_not_mem {storage : FileStorage} {entity : Text}
    (hup : ['.', '.'] ∉ (storage.directoryName entity).splitOn '/')
    (cwd : Path) : storage.Direct cwd entity := by
  intro path hway hbelow
  rw [OnWay, onWay_iff hup] at hway
  exact hway.eq_of_length_le hbelow.length_le

theorem Reaches.stands_iff {storage : FileStorage} {fs : FileSystem}
    {entity : Text} (hreaches : storage.Reaches fs entity) (id : ℤ) :
    storage.Stands fs entity id ↔ storage.find? fs entity id ≠ none := by
  rw [Stands, find?_eq, if_pos hreaches]
  apply or_iff_right_of_imp
  intro hway hnone
  rw [reaches_iff.mp hreaches _ hway] at hnone
  cases hnone

/-- Without `..` what stands is found. -/
theorem stands_iff_of_not_mem {storage : FileStorage} {entity : Text}
    (hup : ['.', '.'] ∉ (storage.directoryName entity).splitOn '/')
    (fs : FileSystem) (id : ℤ) :
    storage.Stands fs entity id ↔ storage.find? fs entity id ≠ none := by
  rw [Stands, find?_eq_node? hup]
  exact or_iff_right ((direct_of_not_mem hup fs.cwd).recordPath_not_onWay id)

/-! ### Two entities in one directory -/

/-- The entities are kept in one directory, and the ways to it agree. -/
def SameDirectory (storage : FileStorage) (cwd : Path) (entity other : Text) :
    Prop :=
  storage.directory cwd entity = storage.directory cwd other ∧
    ∀ path, storage.OnWay cwd entity path ↔ storage.OnWay cwd other path

section

variable {storage : FileStorage} {cwd : Path} {entity other : Text}

theorem SameDirectory.refl (storage : FileStorage) (cwd : Path)
    (entity : Text) : storage.SameDirectory cwd entity entity :=
  ⟨rfl, fun _ => Iff.rfl⟩

theorem SameDirectory.recordPath_eq
    (hsame : storage.SameDirectory cwd entity other) (id : ℤ) :
    storage.recordPath cwd entity id = storage.recordPath cwd other id := by
  rw [recordPath, recordPath, hsame.1]

theorem SameDirectory.reaches_iff {fs : FileSystem}
    (hsame : storage.SameDirectory fs.cwd entity other) :
    storage.Reaches fs entity ↔ storage.Reaches fs other := by
  simp only [FileStorage.reaches_iff, hsame.2]

theorem SameDirectory.onWay_getPath_iff
    (hsame : storage.SameDirectory cwd entity other) {id : ℤ} {path : Path} :
    FileTree.OnWay cwd (storage.getPath entity id) path ↔
      FileTree.OnWay cwd (storage.getPath other id) path := by
  rw [FileStorage.onWay_getPath_iff, FileStorage.onWay_getPath_iff, hsame.2,
    hsame.recordPath_eq]

theorem SameDirectory.find?_eq {fs : FileSystem}
    (hsame : storage.SameDirectory fs.cwd entity other) (id : ℤ) :
    storage.find? fs entity id = storage.find? fs other id := by
  simp only [FileStorage.find?_eq, hsame.recordPath_eq, hsame.reaches_iff]

end

/-! ### What writing and removing do -/

theorem write_eq_error_iff {storage : FileStorage} {entity data : Text}
    {id : ℤ} {fs : FileSystem} {fault : Fault} :
    storage.write entity id data fs = .error fault ↔
      fault = .filesystemError ∧ ¬ storage.Passable fs entity := by
  have hiff : fs.createDirectories (storage.directoryName entity) = none ↔
      ¬ storage.Passable fs entity := by
    rw [FileSystem.createDirectories_eq_none_iff
      (storage.directoryName_ne_nil entity)]
    simp only [Passable, OnWay, not_forall, exists_prop]
    exact exists_congr fun path =>
      ⟨fun ⟨node, h⟩ => ⟨h.1, node, h.2⟩, fun ⟨h, node, h'⟩ => ⟨node, h, h'⟩⟩
  rw [write, parentPath_getPath, ← hiff]
  cases fs.createDirectories (storage.directoryName entity) with
  | none => simp [orThrow, bind, Except.bind, eq_comm]
  | some made => simp [orThrow, bind, Except.bind]

theorem passable_of_write {storage : FileStorage} {entity data : Text} {id : ℤ}
    {fs written : FileSystem}
    (hwritten : storage.write entity id data fs = .ok written) :
    storage.Passable fs entity := by
  by_contra hobstructed
  rw [write_eq_error_iff.mpr ⟨rfl, hobstructed⟩] at hwritten
  cases hwritten

/-- What a write does where it does not throw: all on the way are directories,
and the record holds the data unless it cannot be opened. -/
theorem write_eq_ok {storage : FileStorage} {entity data : Text} {id : ℤ}
    {fs written : FileSystem}
    (hwritten : storage.write entity id data fs = .ok written) :
    written.cwd = fs.cwd ∧
      ∀ other, written.node? other =
        if storage.OnWay fs.cwd entity other then some .dir
        else if other = storage.recordPath fs.cwd entity id ∧
            writable (fs.node? (storage.recordPath fs.cwd entity id)) =
              true then
          some (.file data)
        else fs.node? other := by
  rw [write, parentPath_getPath] at hwritten
  cases hmade : fs.createDirectories (storage.directoryName entity) with
  | none =>
      rw [hmade] at hwritten
      cases hwritten
  | some made =>
      rw [hmade] at hwritten
      cases hwritten
      obtain ⟨hcwd, hnodes⟩ := FileSystem.createDirectories_eq_some hmade
      have hreaches : storage.Reaches made entity := by
        rw [reaches_iff, hcwd]
        intro path hway
        rw [hnodes]
        exact if_pos hway
      have hlocate := storage.locate_getPath made entity id
      rw [if_pos hreaches, hcwd] at hlocate
      rw [FileSystem.writeFile, hlocate]
      refine ⟨by rw [FileSystem.write_cwd, hcwd], fun other => ?_⟩
      have hparent := hreaches.directory
      rw [hcwd] at hparent
      simp only [FileSystem.node?_write _ (storage.recordPath fs.cwd entity id) _
        hparent, hnodes]
      by_cases heq : other = storage.recordPath fs.cwd entity id
      · subst heq
        by_cases hway : storage.OnWay fs.cwd entity
            (storage.recordPath fs.cwd entity id)
        · simp only [OnWay] at hway ⊢
          simp [hway, writable_dir]
        · simp only [OnWay] at hway ⊢
          simp [hway]
      · simp [heq, OnWay]

/-- After a write the directory of the entity is found. -/
theorem reaches_of_write {storage : FileStorage} {entity data : Text} {id : ℤ}
    {fs written : FileSystem}
    (hwritten : storage.write entity id data fs = .ok written) :
    storage.Reaches written entity := by
  obtain ⟨hcwd, hnodes⟩ := write_eq_ok hwritten
  rw [reaches_iff, hcwd]
  intro path hway
  rw [hnodes, if_pos hway]

theorem write_ok {storage : FileStorage} {entity : Text} {id : ℤ}
    {fs : FileSystem} (data : Text)
    (hfree : storage.Unobstructed fs entity)
    (hwritable : writable (fs.node? (storage.recordPath fs.cwd entity id)) =
      true) :
    ∃ written, storage.write entity id data fs = .ok written ∧
      written.cwd = fs.cwd ∧
      ∀ other, written.node? other =
        if other = storage.recordPath fs.cwd entity id then some (.file data)
        else if storage.OnWay fs.cwd entity other then some .dir
        else fs.node? other := by
  cases hwritten : storage.write entity id data fs with
  | error fault => exact ((write_eq_error_iff.mp hwritten).2 hfree.1).elim
  | ok written =>
      obtain ⟨hcwd, hnodes⟩ := write_eq_ok hwritten
      refine ⟨written, rfl, hcwd, fun other => ?_⟩
      rw [hnodes]
      by_cases heq : other = storage.recordPath fs.cwd entity id
      · rw [if_pos heq, heq, if_neg (hfree.2.recordPath_not_onWay id),
          if_pos ⟨rfl, hwritable⟩]
      · simp [heq]

/-- Where the directory is there, nothing else has to be made. -/
theorem write_of_reaches {storage : FileStorage} {entity : Text}
    {fs : FileSystem} (hreaches : storage.Reaches fs entity) (id : ℤ)
    (data : Text) :
    storage.write entity id data fs =
      .ok (fs.write (storage.recordPath fs.cwd entity id) data) := by
  rw [write, parentPath_getPath, FileSystem.createDirectories_of_status
    (storage.directoryName_ne_nil entity) hreaches]
  simp only [orThrow, bind, Except.bind, FileSystem.writeFile, locate_getPath,
    if_pos hreaches]

/-- A write of a record that is found changes nothing else. -/
theorem overwrite_eq_ok {storage : FileStorage} {entity data : Text} {id : ℤ}
    {node : Node} {fs written : FileSystem}
    (hnode : storage.find? fs entity id = some node)
    (hwritten : storage.write entity id data fs = .ok written) :
    written.cwd = fs.cwd ∧
      ∀ other, written.node? other =
        if other = storage.recordPath fs.cwd entity id ∧
            writable (some node) = true then
          some (.file data)
        else fs.node? other := by
  obtain ⟨hreaches, hnode⟩ := find?_eq_some_iff.mp hnode
  rw [write_of_reaches hreaches, Except.ok.injEq] at hwritten
  subst hwritten
  refine ⟨FileSystem.write_cwd _ _ _, fun other => ?_⟩
  rw [FileSystem.node?_write _ (storage.recordPath fs.cwd entity id) _
    hreaches.directory, hnode]

/-- What is found after a write of a record that was found before. -/
theorem find?_overwrite {storage : FileStorage} {entity data : Text} {id : ℤ}
    {node : Node} {fs written : FileSystem}
    (hnode : storage.find? fs entity id = some node)
    (hwritten : storage.write entity id data fs = .ok written) :
    storage.find? written entity id =
      if writable (some node) = true then some (.file data) else some node := by
  obtain ⟨hcwd, hnodes⟩ := overwrite_eq_ok hnode hwritten
  rw [find?_eq, if_pos (reaches_of_write hwritten), hcwd, hnodes,
    (find?_eq_some_iff.mp hnode).2]
  simp only [true_and]

theorem remove_eq (storage : FileStorage) (entity : Text) (id : ℤ)
    (fs : FileSystem) :
    storage.remove entity id fs =
      if storage.Reaches fs entity then
        match fs.remove (storage.recordPath fs.cwd entity id) with
        | none => .error .filesystemError
        | some removed => .ok removed.2
      else .ok fs := by
  rw [remove, FileSystem.removePath, locate_getPath]
  by_cases hreaches : storage.Reaches fs entity
  · rw [if_pos hreaches, if_pos hreaches]
    simp only
    cases fs.remove (storage.recordPath fs.cwd entity id) <;> rfl
  · rw [if_neg hreaches, if_neg hreaches]
    rfl

theorem remove_eq_error_iff {storage : FileStorage} {entity : Text} {id : ℤ}
    {fs : FileSystem} {fault : Fault} :
    storage.remove entity id fs = .error fault ↔
      fault = .filesystemError ∧
        storage.find? fs entity id = some .dir ∧
        fs.hasChild (storage.recordPath fs.cwd entity id) = true := by
  have hiff := @FileSystem.remove_eq_none_iff fs
    (storage.recordPath fs.cwd entity id)
  have hne : storage.recordPath fs.cwd entity id ≠ [] := by simp [recordPath]
  rw [or_iff_right hne] at hiff
  rw [find?_eq_some_iff, remove_eq]
  by_cases hreaches : storage.Reaches fs entity
  · rw [if_pos hreaches, and_iff_right hreaches, ← hiff]
    cases fs.remove (storage.recordPath fs.cwd entity id) with
    | none => simp [eq_comm]
    | some removed => simp
  · simp [hreaches]

/-- A record that is found is removed, and nothing else. -/
theorem remove_eq_ok {storage : FileStorage} {entity : Text} {id : ℤ}
    {node : Node} {fs removed : FileSystem}
    (hnode : storage.find? fs entity id = some node)
    (hremoved : storage.remove entity id fs = .ok removed) :
    removed.cwd = fs.cwd ∧
      ∀ other, removed.node? other =
        if other = storage.recordPath fs.cwd entity id then none
        else fs.node? other := by
  rw [remove_eq, if_pos (find?_eq_some_iff.mp hnode).1] at hremoved
  cases hremove : fs.remove (storage.recordPath fs.cwd entity id) with
  | none => simp [hremove] at hremoved
  | some result =>
      simp only [hremove, Except.ok.injEq] at hremoved
      subst hremoved
      exact FileSystem.remove_eq_some hremove

theorem find?_removed {storage : FileStorage} {entity : Text} {id : ℤ}
    {node : Node} {fs removed : FileSystem}
    (hnode : storage.find? fs entity id = some node)
    (hremoved : storage.remove entity id fs = .ok removed) :
    storage.find? removed entity id = none := by
  obtain ⟨hcwd, hnodes⟩ := remove_eq_ok hnode hremoved
  rw [find?_eq, hcwd, hnodes, if_pos rfl, ite_self]

end FileStorage

structure CRUDHandler where
  fileStorage : FileStorage
deriving DecidableEq, Repr

namespace CRUDHandler

/-- The probing loop of `getNextId`: the first id from `id` on that is free.
`left` counts the values that remain before `++id` overflows. -/
def nextIdLoop (taken : ℤ → Bool) : ℕ → ℤ → Except Fault ℤ
  | 0, _ => .error .signedOverflow
  | left + 1, id => if taken id then nextIdLoop taken left (id + 1) else .ok id

theorem nextIdLoop_eq_ok_iff {taken : ℤ → Bool} {left : ℕ} {start id : ℤ} :
    nextIdLoop taken left start = .ok id ↔
      start ≤ id ∧ id < start + left ∧ taken id = false ∧
        ∀ other, start ≤ other → other < id → taken other = true := by
  induction left generalizing start with
  | zero => simp [nextIdLoop]; omega
  | succ left ih =>
      rw [nextIdLoop]
      cases htaken : taken start with
      | false =>
          simp only [Bool.false_eq_true, if_false, Except.ok.injEq]
          constructor
          · rintro rfl
            exact ⟨le_rfl, by omega, htaken, fun other h h' => by omega⟩
          · rintro ⟨hle, _, _, hbelow⟩
            by_contra hne
            have hstart := hbelow start le_rfl (by omega)
            simp [htaken] at hstart
      | true =>
          simp only [if_true, ih]
          constructor
          · rintro ⟨hle, hlt, hfree, hbelow⟩
            refine ⟨by omega, by push_cast; omega, hfree, ?_⟩
            intro other hother hlt'
            by_cases heq : other = start
            · rw [heq, htaken]
            · exact hbelow other (by omega) hlt'
          · rintro ⟨hle, hlt, hfree, hbelow⟩
            have hne : id ≠ start := by
              rintro rfl
              simp [htaken] at hfree
            push_cast at hlt
            exact ⟨by omega, by omega, hfree, fun other h h' =>
              hbelow other (by omega) h'⟩

theorem nextIdLoop_eq_error {taken : ℤ → Bool} {left : ℕ} {start : ℤ}
    {fault : Fault} (herror : nextIdLoop taken left start = .error fault) :
    fault = .signedOverflow := by
  induction left generalizing start with
  | zero =>
      rw [nextIdLoop, Except.error.injEq] at herror
      exact herror.symm
  | succ left ih =>
      rw [nextIdLoop] at herror
      split at herror
      next => exact ih herror
      next => cases herror

def getNextId (handler : CRUDHandler) (entity : Text) (fs : FileSystem) :
    Except Fault ℤ :=
  nextIdLoop (fun id => fs.exists? (handler.fileStorage.getPath entity id))
    2147483647 1

def idResponse (id : ℤ) : Text :=
  "\x7b\"id\": ".toList ++ Text.decimal id ++ "\x7d".toList

def create (handler : CRUDHandler) (entity data : Text) (fs : FileSystem) :
    Except Fault (Text × FileSystem) := do
  let id ← handler.getNextId entity fs
  let written ← handler.fileStorage.write entity id data fs
  .ok (idResponse id, written)

theorem idResponse_injective : Function.Injective idResponse := by
  intro id id' heq
  unfold idResponse at heq
  exact Text.decimal_injective
    (List.append_cancel_left (List.append_cancel_right heq))

theorem getNextId_spec {handler : CRUDHandler} {entity : Text}
    {fs : FileSystem} {id : ℤ} (hid : handler.getNextId entity fs = .ok id) :
    1 ≤ id ∧ id ≤ intMax ∧
      handler.fileStorage.find? fs entity id = none := by
  rw [getNextId, nextIdLoop_eq_ok_iff] at hid
  obtain ⟨hone, hlt, hfree, _⟩ := hid
  rw [FileSystem.exists?, Option.isSome_eq_false_iff,
    Option.isNone_iff_eq_none] at hfree
  rw [Nat.cast_ofNat] at hlt
  exact ⟨hone, by unfold intMax; omega, hfree⟩

theorem getNextId_of_find? {handler : CRUDHandler} {entity : Text}
    {fs : FileSystem} (hnone : handler.fileStorage.find? fs entity 1 = none) :
    handler.getNextId entity fs = .ok 1 := by
  rw [getNextId, nextIdLoop_eq_ok_iff]
  refine ⟨le_rfl, by norm_num, ?_, fun other h h' => by omega⟩
  rw [FileSystem.exists?, Option.isSome_eq_false_iff,
    Option.isNone_iff_eq_none]
  exact hnone

theorem create_ok {handler : CRUDHandler} {entity data : Text}
    {fs written : FileSystem} {id : ℤ}
    (hid : handler.getNextId entity fs = .ok id)
    (hwritten : handler.fileStorage.write entity id data fs = .ok written) :
    handler.create entity data fs = .ok (idResponse id, written) := by
  simp [create, hid, hwritten, bind, Except.bind]

theorem create_eq_ok {handler : CRUDHandler} {entity data body : Text}
    {fs next : FileSystem}
    (hcreate : handler.create entity data fs = .ok (body, next)) :
    ∃ id, handler.getNextId entity fs = .ok id ∧ body = idResponse id ∧
      handler.fileStorage.write entity id data fs = .ok next := by
  rw [create, Machine.bind_eq_ok_iff] at hcreate
  obtain ⟨id, hid, hcreate⟩ := hcreate
  rw [Machine.bind_eq_ok_iff] at hcreate
  obtain ⟨written, hwritten, hok⟩ := hcreate
  cases hok
  exact ⟨id, hid, rfl, hwritten⟩

def read (handler : CRUDHandler) (entity : Text) (id : ℤ)
    (fs : FileSystem) : Text :=
  handler.fileStorage.read entity id fs

def exists? (handler : CRUDHandler) (entity : Text) (id : ℤ)
    (fs : FileSystem) : Bool :=
  fs.exists? (handler.fileStorage.getPath entity id)

theorem exists?_eq (handler : CRUDHandler) (entity : Text) (id : ℤ)
    (fs : FileSystem) :
    handler.exists? entity id fs =
      (handler.fileStorage.find? fs entity id).isSome := by
  rw [exists?, FileSystem.exists?, FileStorage.find?]

def update (handler : CRUDHandler) (entity : Text) (id : ℤ) (data : Text)
    (fs : FileSystem) : Except Fault (Bool × FileSystem) :=
  if handler.exists? entity id fs then do
    let written ← handler.fileStorage.write entity id data fs
    .ok (true, written)
  else .ok (false, fs)

def delete (handler : CRUDHandler) (entity : Text) (id : ℤ)
    (fs : FileSystem) : Except Fault (Bool × FileSystem) :=
  if handler.exists? entity id fs then do
    let removed ← handler.fileStorage.remove entity id fs
    .ok (true, removed)
  else .ok (false, fs)

theorem create_filesystemError_iff {handler : CRUDHandler}
    {entity data : Text} {fs : FileSystem} :
    handler.create entity data fs = .error .filesystemError ↔
      ¬ handler.fileStorage.Passable fs entity := by
  constructor
  · intro herror
    rw [create] at herror
    cases hid : handler.getNextId entity fs with
    | error fault =>
        simp only [hid, bind, Except.bind, Except.error.injEq] at herror
        rw [herror] at hid
        cases nextIdLoop_eq_error hid
    | ok id =>
        cases hwritten : handler.fileStorage.write entity id data fs with
        | error fault => exact (FileStorage.write_eq_error_iff.mp hwritten).2
        | ok written => simp [hid, hwritten, bind, Except.bind] at herror
  · intro hobstructed
    have hid : handler.getNextId entity fs = .ok 1 := by
      apply getNextId_of_find?
      rw [Option.eq_none_iff_forall_ne_some]
      intro node hnode
      exact hobstructed (FileStorage.find?_eq_some_iff.mp hnode).1.passable
    have hwrite : handler.fileStorage.write entity 1 data fs =
        .error .filesystemError :=
      FileStorage.write_eq_error_iff.mpr ⟨rfl, hobstructed⟩
    simp [create, hid, hwrite, bind, Except.bind]

theorem update_ok (handler : CRUDHandler) (entity : Text) (id : ℤ)
    (data : Text) (fs : FileSystem) :
    ∃ result, handler.update entity id data fs = .ok result := by
  rw [update]
  split
  next hexists =>
    rw [exists?_eq, Option.isSome_iff_exists] at hexists
    obtain ⟨node, hnode⟩ := hexists
    have hfree := (FileStorage.find?_eq_some_iff.mp hnode).1.passable
    cases hwritten : handler.fileStorage.write entity id data fs with
    | error fault =>
        exact ((FileStorage.write_eq_error_iff.mp hwritten).2 hfree).elim
    | ok written => exact ⟨_, rfl⟩
  next => exact ⟨_, rfl⟩

theorem update_eq_ok {handler : CRUDHandler} {entity data : Text} {id : ℤ}
    {fs next : FileSystem} {success : Bool}
    (hupdate : handler.update entity id data fs = .ok (success, next)) :
    success = handler.exists? entity id fs ∧
      if success then
        handler.fileStorage.write entity id data fs = .ok next
      else next = fs := by
  rw [update] at hupdate
  split at hupdate
  next hexists =>
    rw [Machine.bind_eq_ok_iff] at hupdate
    obtain ⟨written, hwritten, hok⟩ := hupdate
    cases hok
    exact ⟨hexists.symm, hwritten⟩
  next hexists =>
    simp only [Except.ok.injEq, Prod.mk.injEq] at hupdate
    obtain ⟨rfl, rfl⟩ := hupdate
    simp [hexists]

theorem delete_eq_ok {handler : CRUDHandler} {entity : Text} {id : ℤ}
    {fs next : FileSystem} {success : Bool}
    (hdelete : handler.delete entity id fs = .ok (success, next)) :
    success = handler.exists? entity id fs ∧
      if success then handler.fileStorage.remove entity id fs = .ok next
      else next = fs := by
  rw [delete] at hdelete
  split at hdelete
  next hexists =>
    rw [Machine.bind_eq_ok_iff] at hdelete
    obtain ⟨removed, hremoved, hok⟩ := hdelete
    cases hok
    exact ⟨hexists.symm, hremoved⟩
  next hexists =>
    simp only [Except.ok.injEq, Prod.mk.injEq] at hdelete
    obtain ⟨rfl, rfl⟩ := hdelete
    simp [hexists]

theorem delete_eq_error_iff {handler : CRUDHandler} {entity : Text} {id : ℤ}
    {fs : FileSystem} {fault : Fault} :
    handler.delete entity id fs = .error fault ↔
      fault = .filesystemError ∧
        handler.fileStorage.find? fs entity id = some .dir ∧
        fs.hasChild (handler.fileStorage.recordPath fs.cwd entity id) =
          true := by
  rw [← FileStorage.remove_eq_error_iff, delete, exists?_eq]
  cases hremoved : handler.fileStorage.remove entity id fs with
  | ok removed => split <;> simp [bind, Except.bind]
  | error other =>
      obtain ⟨_, hdir, _⟩ := FileStorage.remove_eq_error_iff.mp hremoved
      simp [hdir, bind, Except.bind]

end CRUDHandler

end Swifties
