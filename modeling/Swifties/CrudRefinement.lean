import Swifties.Records

/-!
# Files refine records

The files of `CRUDHandler` store the records of the abstract map.  Entities
are plain names, so that the record paths of different entities and ids are
different files of directories at the same depth.
-/

namespace Swifties

open FileTree

namespace CRUDHandler

end CRUDHandler

namespace FileStorage

theorem directoryName_plain (storage : FileStorage) {entity : Text}
    (hentity : PlainName entity) :
    storage.directoryName entity = storage.basePath ++ entity :=
  if_neg (by simp [hentity.1])

theorem directory_glue (storage : FileStorage) (cwd : Path) :
    ∃ stem parent, ∀ entity, PlainName entity →
      storage.directory cwd entity = (stem ++ entity) :: parent := by
  obtain ⟨stem, parent, _, hglue⟩ := resolve_glue cwd storage.basePath
  refine ⟨stem, parent, fun entity hentity => ?_⟩
  rw [directory, storage.directoryName_plain hentity, hglue entity hentity]

/-- The ways to two entities without `..` differ in the last steps only, which
lead down to the directory. -/
theorem onWay_glue {storage : FileStorage} {cwd : Path} {entity other : Text}
    (hentity : ['.', '.'] ∉ entity.splitOn '/')
    (hother : ['.', '.'] ∉ other.splitOn '/') {path : Path}
    (hway : storage.OnWay cwd entity path) :
    storage.OnWay cwd other path ∨
      path <:+ storage.directory cwd entity := by
  by_cases hbase : storage.basePath = []
  · right
    have hup : ['.', '.'] ∉ (storage.directoryName entity).splitOn '/' := by
      rw [directoryName, hbase, List.nil_append]
      split
      next => decide
      next => exact hentity
    rw [OnWay, onWay_iff hup] at hway
    exact hway
  · obtain ⟨steps, _, hsteps⟩ := FileTree.onWay_glue cwd storage.basePath
    have hname : ∀ entity, storage.directoryName entity =
        storage.basePath ++ entity := fun entity => if_neg (by simp [hbase])
    rw [OnWay, hname, hsteps entity hentity] at hway
    rw [OnWay, hname, hsteps other hother, directory, hname]
    exact hway.imp_left .inl

theorem sameDirectory_of_directory {storage : FileStorage} {cwd : Path}
    {entity other : Text} (hentity : ['.', '.'] ∉ entity.splitOn '/')
    (hother : ['.', '.'] ∉ other.splitOn '/')
    (hdirectory : storage.directory cwd entity = storage.directory cwd other) :
    storage.SameDirectory cwd entity other := by
  refine ⟨hdirectory, fun path => ⟨fun hway => ?_, fun hway => ?_⟩⟩
  · rcases onWay_glue hentity hother hway with hsame | hsuffix
    · exact hsame
    · rw [hdirectory] at hsuffix
      exact onWay_of_suffix hsuffix
  · rcases onWay_glue hother hentity hway with hsame | hsuffix
    · exact hsame
    · rw [← hdirectory] at hsuffix
      exact onWay_of_suffix hsuffix

theorem recordPath_inj (storage : FileStorage) (cwd : Path)
    {entity other : Text} (hentity : PlainName entity)
    (hother : PlainName other) (id id' : ℤ) :
    storage.recordPath cwd entity id = storage.recordPath cwd other id' ↔
      (entity, id) = (other, id') := by
  obtain ⟨stem, parent, hglue⟩ := storage.directory_glue cwd
  simp only [recordPath, hglue entity hentity, hglue other hother,
    List.cons.injEq, List.append_cancel_left_eq, and_true, Prod.mk.injEq,
    Text.decimal_injective.eq_iff]
  exact and_comm

theorem recordPath_not_suffix (storage : FileStorage) (cwd : Path)
    {entity other : Text} (hentity : PlainName entity)
    (hother : PlainName other) (id : ℤ) :
    ¬ storage.recordPath cwd entity id <:+ storage.directory cwd other := by
  obtain ⟨stem, parent, hglue⟩ := storage.directory_glue cwd
  intro hsuffix
  have hlength := hsuffix.length_le
  simp [recordPath, hglue entity hentity, hglue other hother] at hlength

/-- The files of the entities in use hold exactly the records, the walk to a
record that is stored gets there, and nothing is in the way of the
directories. -/
structure Stores (storage : FileStorage) (used : Text → Prop) (cwd : Path)
    (fs : FileSystem) (records : Records) : Prop where
  cwd_eq : fs.cwd = cwd
  record : ∀ entity id, used entity →
    fs.node? (storage.recordPath cwd entity id) =
      (records.lookup (entity, id)).map Node.file
  reached : ∀ entity id, used entity →
    (records.lookup (entity, id)).isSome = true → storage.Reaches fs entity
  unobstructed : ∀ entity, used entity → storage.Unobstructed fs entity

section

variable {storage : FileStorage} {used : Text → Prop} {cwd : Path}
  {fs : FileSystem} {records : Records} {entity : Text}

theorem Stores.find?_eq (hstores : Stores storage used cwd fs records)
    (hentity : used entity) (id : ℤ) :
    storage.find? fs entity id =
      (records.lookup (entity, id)).map Node.file := by
  have hrecord := hstores.record entity id hentity
  rw [FileStorage.find?_eq, hstores.cwd_eq, hrecord]
  split
  next => rfl
  next hreaches =>
    cases hlookup : records.lookup (entity, id) with
    | none => rfl
    | some data =>
        exact (hreaches (hstores.reached entity id hentity
          (by rw [hlookup]; rfl))).elim

theorem Stores.exists?_eq (hstores : Stores storage used cwd fs records)
    (hentity : used entity) (id : ℤ) :
    fs.exists? (storage.getPath entity id) =
      (records.lookup (entity, id)).isSome := by
  change (storage.find? fs entity id).isSome = _
  rw [hstores.find?_eq hentity, Option.isSome_map]

theorem Stores.read_eq (hstores : Stores storage used cwd fs records)
    (hentity : used entity) (id : ℤ) :
    storage.read entity id fs = (records.lookup (entity, id)).getD [] := by
  rw [FileStorage.read_eq, hstores.find?_eq hentity]
  cases records.lookup (entity, id) <;> rfl

/-- No record is on the way to any entity. -/
theorem Stores.recordPath_not_onWay
    (hplain : ∀ entity, used entity → PlainName entity)
    (hstores : Stores storage used cwd fs records) (hentity : used entity)
    (id : ℤ) {other : Text} (hother : used other) :
    ¬ storage.OnWay cwd other (storage.recordPath cwd entity id) := by
  intro hway
  rcases onWay_glue (hplain other hother).up_not_mem
      (hplain entity hentity).up_not_mem hway with
    hown | hbelow
  · have hfree := hstores.unobstructed entity hentity
    rw [← hstores.cwd_eq] at hown
    exact hfree.2.recordPath_not_onWay id hown
  · exact storage.recordPath_not_suffix cwd (hplain entity hentity)
      (hplain other hother) id hbelow

theorem Stores.write (hplain : ∀ entity, used entity → PlainName entity)
    (hstores : Stores storage used cwd fs records) (hentity : used entity)
    (id : ℤ) (data : Text) :
    ∃ written, storage.write entity id data fs = .ok written ∧
      Stores storage used cwd written (records.insert (entity, id) data) := by
  have haway : ∀ other id', used other →
      ¬ storage.OnWay cwd entity (storage.recordPath cwd other id') ∧
        ¬ storage.OnWay cwd other (storage.recordPath cwd entity id) :=
    fun other id' hother =>
      ⟨hstores.recordPath_not_onWay hplain hother id' hentity,
        hstores.recordPath_not_onWay hplain hentity id hother⟩
  obtain ⟨hcwd, hrecord, hreached, hfree⟩ := hstores
  have hwritable : writable (fs.node? (storage.recordPath fs.cwd entity id)) =
      true := by
    rw [hcwd, hrecord entity id hentity]
    cases records.lookup (entity, id) <;> rfl
  obtain ⟨written, hwritten, hcwd', hnodes⟩ :=
    write_ok data (hfree entity hentity) hwritable
  have hreaches := reaches_of_write hwritten
  rw [hcwd] at hnodes hcwd'
  have hrecordNode : ∀ other id', used other →
      written.node? (storage.recordPath cwd other id') =
        ((records.insert (entity, id) data).lookup (other, id')).map
          Node.file := by
    intro other id' hother
    have hinj := storage.recordPath_inj cwd (hplain other hother)
      (hplain entity hentity) id' id
    rw [hnodes]
    by_cases hkey : (other, id') = (entity, id)
    · rw [if_pos (hinj.mpr hkey), hkey, Finmap.lookup_insert]
      rfl
    · rw [if_neg (fun heq => hkey (hinj.mp heq)), if_neg (haway other id' hother).1,
        Finmap.lookup_insert_of_ne _ hkey, hrecord other id' hother]
  refine ⟨written, hwritten, hcwd', hrecordNode, ?_, ?_⟩
  · intro other id' hother hlookup
    by_cases hkey : (other, id') = (entity, id)
    · cases hkey
      exact hreaches
    · rw [Finmap.lookup_insert_of_ne _ hkey] at hlookup
      apply (hreached other id' hother hlookup).mono (hcwd'.trans hcwd.symm)
      intro path hdir
      rw [hnodes]
      split
      next heq =>
        rw [heq, hrecord entity id hentity, Option.map_eq_some_iff] at hdir
        obtain ⟨_, _, hfile⟩ := hdir
        cases hfile
      next =>
        split
        next => rfl
        next => exact hdir
  · intro other hother
    apply (hfree other hother).mono (hcwd'.trans hcwd.symm)
    intro path hway node hnode
    rw [hcwd] at hway
    have hne : path ≠ storage.recordPath cwd entity id := by
      rintro rfl
      exact (haway other id hother).2 hway
    rw [hnodes, if_neg hne] at hnode
    split at hnode
    next => exact .inl (Option.some.inj hnode).symm
    next => exact .inr hnode

theorem Stores.remove (hplain : ∀ entity, used entity → PlainName entity)
    (hstores : Stores storage used cwd fs records) (hentity : used entity)
    {id : ℤ} (hpresent : (records.lookup (entity, id)).isSome = true) :
    ∃ removed, storage.remove entity id fs = .ok removed ∧
      Stores storage used cwd removed (records.erase (entity, id)) := by
  have hfind := hstores.find?_eq hentity id
  obtain ⟨hcwd, hrecord, hreached, hfree⟩ := hstores
  obtain ⟨data, hdata⟩ := Option.isSome_iff_exists.mp hpresent
  rw [hdata, Option.map_some] at hfind
  obtain ⟨removed, hremoved⟩ : ∃ removed,
      storage.remove entity id fs = .ok removed := by
    cases hremoved : storage.remove entity id fs with
    | error fault =>
        have hdir := (remove_eq_error_iff.mp hremoved).2.1
        rw [hfind] at hdir
        cases hdir
    | ok removed => exact ⟨removed, rfl⟩
  obtain ⟨hcwd', hnodes⟩ := remove_eq_ok hfind hremoved
  rw [hcwd] at hnodes hcwd'
  refine ⟨removed, hremoved, hcwd', ?_, ?_, ?_⟩
  · intro other id' hother
    have hinj := storage.recordPath_inj cwd (hplain other hother)
      (hplain entity hentity) id' id
    rw [hnodes]
    by_cases hkey : (other, id') = (entity, id)
    · rw [if_pos (hinj.mpr hkey), hkey, Finmap.lookup_erase]
      rfl
    · rw [if_neg (fun heq => hkey (hinj.mp heq)),
        Finmap.lookup_erase_ne hkey, hrecord other id' hother]
  · intro other id' hother hlookup
    have hkey : (other, id') ≠ (entity, id) := by
      intro hkey
      rw [hkey, Finmap.lookup_erase] at hlookup
      cases hlookup
    rw [Finmap.lookup_erase_ne hkey] at hlookup
    apply (hreached other id' hother hlookup).mono (hcwd'.trans hcwd.symm)
    intro path hdir
    rw [hnodes, if_neg]
    · exact hdir
    · rintro rfl
      rw [hrecord entity id hentity, hdata] at hdir
      cases hdir
  · intro other hother
    apply (hfree other hother).mono (hcwd'.trans hcwd.symm)
    intro path _ node hnode
    rw [hnodes, Option.ite_none_left_eq_some] at hnode
    exact .inr hnode.2

theorem Stores.getNextId_eq (hstores : Stores storage used cwd fs records)
    (hentity : used entity)
    (hcard : (records.idsOf entity).card < 2147483647) :
    CRUDHandler.getNextId ⟨storage⟩ entity fs =
      .ok (records.leastFree entity) := by
  obtain ⟨⟨hpos, hfree⟩, hle, hbelow⟩ := Records.leastFree_spec hcard
  rw [CRUDHandler.getNextId, CRUDHandler.nextIdLoop_eq_ok_iff]
  refine ⟨by omega, by push_cast; omega, ?_, ?_⟩
  · rw [hstores.exists?_eq hentity, hfree]
    rfl
  · intro other hone hlt
    obtain ⟨n, rfl⟩ := Int.eq_ofNat_of_zero_le (show 0 ≤ other by omega)
    rw [hstores.exists?_eq hentity]
    exact hbelow n (by omega) (by omega)

end

end FileStorage

namespace CRUDHandler

variable {handler : CRUDHandler} {used : Text → Prop} {cwd : Path}

end CRUDHandler

end Swifties
