import Swifties.ApiListing

/-!
# Collections of several segments

A create keeps the last segment of its target only, while a read keeps all that
follows the prefix.  So a create below one collection is seen by the reads of
another one whose whole path is that last segment.
-/

namespace Swifties

open FileTree

namespace Text

theorem afterLast_append_slash (s t : Text) :
    afterLast (s ++ '/' :: t) '/' = t.afterLast '/' := by
  rcases exists_split_last t '/' with ht | ⟨above, last, rfl, hlast⟩
  · rw [afterLast_append_cons ht, afterLast_of_not_mem ht]
  · rw [← List.cons_append, ← List.append_assoc, afterLast_append_cons hlast,
      afterLast_append_cons hlast]

theorem afterLast_mem_splitOn (s : Text) :
    s.afterLast '/' ∈ s.splitOn '/' := by
  rcases exists_split_last s '/' with hs | ⟨above, last, rfl, hlast⟩
  · rw [afterLast_of_not_mem hs, List.splitOn_eq_singleton hs]
    exact List.mem_singleton_self _
  · rw [afterLast_append_cons hlast, List.splitOn_append_cons_self,
      List.splitOn_eq_singleton hlast]
    simp

end Text

namespace RequestHandlerAPI

/-- A path of names, none of which begins with a digit. -/
def Collection (path : Text) : Prop :=
  ∀ segment ∈ path.splitOn '/',
    PlainName segment ∧ startsWithDigit segment = false

instance (name : Text) : Decidable (PlainName name) :=
  inferInstanceAs (Decidable (_ ∧ _ ∧ _ ∧ _))

instance (path : Text) : Decidable (Collection path) :=
  inferInstanceAs (Decidable (∀ segment ∈ path.splitOn '/', _ ∧ _))

/-- A list request on the collection, or a read of one of its records. -/
def ReadsCollection (handler : RequestHandlerAPI) (path : Text)
    (req : Request) : Prop :=
  req.method = .get ∧
    (req.target = handler.createTarget path ∨
      ∃ idStr, '/' ∉ idStr ∧ startsWithDigit idStr = true ∧
        req.target = handler.createTarget path ++ '/' :: idStr)

def bodyOf (answer : Except Fault (Response × FileSystem)) :
    Except Fault Text :=
  answer.map fun answer => answer.1.body

/-- No read of the collection tells the two file systems apart. -/
def SameReads (handler : RequestHandlerAPI) (path : Text)
    (fs next : FileSystem) : Prop :=
  ∀ get res, handler.ReadsCollection path get →
    bodyOf (handler.handleRequest get res next) =
      bodyOf (handler.handleRequest get res fs)

/-- The body of a read, by what is at the path of the record. -/
def readBody : Option Node → Text
  | none => "Invalid Request: file not found".toList
  | some .dir | some .locked => []
  | some (.file data) => data

/-- The directory of the last segment of the one path is not the one that reads
of the other look into, and making it makes no directory in the place of a
record there. -/
def Apart (handler : RequestHandlerAPI) (fs : FileSystem)
    (first second : Text) : Prop :=
  let storage := handler.crudHandler.fileStorage
  let made := storage.directory fs.cwd (first.afterLast '/')
  made ≠ storage.directory fs.cwd (handler.readEntity second) ∧
    ∀ id, 0 ≤ id → id ≤ intMax →
      storage.recordPath fs.cwd (handler.readEntity second) id <:+ made →
      fs.node? (storage.recordPath fs.cwd (handler.readEntity second) id) ≠
        none

/-- The directories that a create makes on the way to the base bring no record of
the path to light: the walk to its records gets through without them, or no
record is one of them, and at the records there is nothing but files that hold
the very text of the answer for a missing record, and not at the first one, which
a list shows. -/
def NothingHidden (handler : RequestHandlerAPI) (fs : FileSystem)
    (path : Text) : Prop :=
  let storage := handler.crudHandler.fileStorage
  let record := storage.recordPath fs.cwd (handler.readEntity path)
  storage.Reaches fs (handler.readEntity path) ∨
    fs.node? (record 1) = none ∧
      ∀ id, 0 ≤ id → id ≤ intMax →
        ¬ storage.OnWay fs.cwd (handler.readEntity path) (record id) ∧
          readBody (fs.node? (record id)) = readBody none

variable {handler : RequestHandlerAPI} {req : Request} {path : Text}
  {fs next : FileSystem}

theorem Collection.afterLast (hpath : Collection path) :
    PlainName (path.afterLast '/') ∧
      startsWithDigit (path.afterLast '/') = false :=
  hpath _ (Text.afterLast_mem_splitOn path)

/-! ## Bodies of reads -/

theorem bodyOf_get_id (hget : req.method = .get) {entityId : Text} {id : ℤ}
    (hstart : handler.removePrefix req.target = some entityId)
    (hdigit : startsWithDigit (entityId.afterLast '/') = true)
    (hcast : Text.lexicalCast (entityId.afterLast '/') = some id)
    (res : Response) (fs : FileSystem) :
    bodyOf (handler.handleRequest req res fs) =
      .ok (readBody (handler.crudHandler.fileStorage.find? fs
        (entityId.beforeLast '/') id)) := by
  simp only [handleRequest, hget, handleGet, hstart, hdigit, if_true, hcast,
    CRUDHandler.exists?_eq, CRUDHandler.read, FileStorage.read_eq]
  cases handler.crudHandler.fileStorage.find? fs (entityId.beforeLast '/')
      id with
  | none => rfl
  | some node => cases node <;> rfl

theorem bodyOf_get_list (hget : req.method = .get) {entityId : Text}
    (hstart : handler.removePrefix req.target = some entityId)
    (hdigit : startsWithDigit (entityId.afterLast '/') = false)
    (res : Response) (fs : FileSystem) :
    bodyOf (handler.handleRequest req res fs) = handler.list entityId fs := by
  simp only [handleRequest, hget, handleGet, hstart, hdigit]
  cases handler.list entityId fs <;> rfl

theorem listLoop_congr {present present' : ℤ → Bool} {left : ℕ} {id : ℤ}
    (hsame : ∀ other, id ≤ other → other < id + left →
      present other = present' other) (body : Text) :
    listLoop present left id body = listLoop present' left id body := by
  induction left generalizing id body with
  | zero => rfl
  | succ left ih =>
      rw [listLoop, listLoop, hsame id le_rfl (by omega)]
      split
      next =>
        apply ih
        intro other hle hlt
        exact hsame other (by omega) (by omega)
      next => rfl

theorem list_congr {entityId : Text}
    (hsame : ∀ id, 1 ≤ id → id ≤ intMax →
      handler.crudHandler.exists? entityId id next =
        handler.crudHandler.exists? entityId id fs) :
    handler.list entityId next = handler.list entityId fs := by
  rw [list, list]
  congr 1
  apply listLoop_congr
  intro id hone hlt
  exact hsame id hone (by unfold intMax; omega)

theorem list_of_not_first {entityId : Text}
    (hnone : handler.crudHandler.fileStorage.find? fs entityId 1 = none) :
    handler.list entityId fs =
      .ok ("[".toList ++ joined (firstIds 0) ++ "]".toList) := by
  rw [list_eq_ok_iff]
  refine ⟨0, by omega, ?_, fun other h h' => by omega, rfl⟩
  rw [CRUDHandler.exists?_eq, Nat.cast_zero, zero_add, hnone]
  rfl

theorem lexicalCast_bounds {s : Text} {id : ℤ}
    (hdigit : startsWithDigit s = true)
    (hcast : Text.lexicalCast s = some id) : 0 ≤ id ∧ id ≤ intMax := by
  unfold Text.lexicalCast at hcast
  rw [Option.filter_eq_some_iff, decide_eq_true_eq] at hcast
  obtain ⟨hvalue, _, hmax⟩ := hcast
  refine ⟨?_, hmax⟩
  split at hvalue
  next => cases hdigit
  next => cases hdigit
  next =>
    cases hdigits : Text.digitsValue? s with
    | none =>
        rw [hdigits] at hvalue
        cases hvalue
    | some n =>
        rw [hdigits] at hvalue
        cases hvalue
        exact Int.natCast_nonneg n

theorem removePrefix_createTarget (handler : RequestHandlerAPI)
    (path : Text) :
    handler.removePrefix (handler.createTarget path) =
      some (handler.readEntity path) := by
  simpa using handler.removePrefix_createTarget_append path []

theorem Collection.startsWithDigit_readEntity (hpath : Collection path)
    (handler : RequestHandlerAPI) :
    startsWithDigit ((handler.readEntity path).afterLast '/') = false := by
  rw [readEntity]
  split
  next => exact hpath.afterLast.2
  next =>
    have hafter := Text.afterLast_append_slash [] path
    rw [List.nil_append] at hafter
    rw [hafter]
    exact hpath.afterLast.2

/-- The reads of a collection look at its records only. -/
theorem sameReads_of_records (hpath : Collection path)
    (hlist : handler.list (handler.readEntity path) next =
      handler.list (handler.readEntity path) fs)
    (hrecords : ∀ id, 0 ≤ id → id ≤ intMax →
      readBody (handler.crudHandler.fileStorage.find? next
          (handler.readEntity path) id) =
        readBody (handler.crudHandler.fileStorage.find? fs
          (handler.readEntity path) id)) :
    handler.SameReads path fs next := by
  rintro get res ⟨hget, htarget | ⟨idStr, hslash, hdigit, htarget⟩⟩
  · have hstart := removePrefix_createTarget handler path
    rw [← htarget] at hstart
    have hnoDigit := hpath.startsWithDigit_readEntity handler
    rw [bodyOf_get_list hget hstart hnoDigit,
      bodyOf_get_list hget hstart hnoDigit, hlist]
  · have hstart := removePrefix_createTarget_append handler path ('/' :: idStr)
    rw [← htarget] at hstart
    have hafter : (handler.readEntity path ++ '/' :: idStr).afterLast '/' =
        idStr := Text.afterLast_append_cons hslash
    rw [← hafter] at hdigit
    cases hcast : Text.lexicalCast idStr with
    | none =>
        rw [← hafter] at hcast
        simp only [handleRequest, hget, handleGet, hstart, hdigit, if_true,
          hcast]
        rfl
    | some id =>
        obtain ⟨hnonneg, hmax⟩ := lexicalCast_bounds (hafter ▸ hdigit) hcast
        rw [← hafter] at hcast
        rw [bodyOf_get_id hget hstart hdigit hcast,
          bodyOf_get_id hget hstart hdigit hcast,
          Text.beforeLast_append_cons hslash, hrecords id hnonneg hmax]

theorem SameReads.record (hsame : handler.SameReads path fs next) {id : ℤ}
    (hnonneg : 0 ≤ id) (hmax : id ≤ intMax) :
    readBody (handler.crudHandler.fileStorage.find? next
        (handler.readEntity path) id) =
      readBody (handler.crudHandler.fileStorage.find? fs
        (handler.readEntity path) id) := by
  let get : Request := ⟨"GET".toList, handler.recordTarget path id, 11, [], []⟩
  have hslash := Text.slash_not_mem_decimal id
  have hget : get.method = .get := rfl
  have hstart : handler.removePrefix get.target = _ :=
    removePrefix_recordTarget handler path id
  have hafter : (handler.readEntity path ++ '/' :: Text.decimal id).afterLast
      '/' = Text.decimal id := Text.afterLast_append_cons hslash
  have hdigit := startsWithDigit_decimal hnonneg
  have hcast := Text.lexicalCast_decimal hnonneg hmax
  have hread := hsame get (.make .ok 11)
    ⟨rfl, .inr ⟨_, hslash, hdigit, rfl⟩⟩
  rw [← hafter] at hdigit hcast
  rw [hafter] at hcast
  rw [bodyOf_get_id hget hstart hdigit (hafter ▸ hcast),
    bodyOf_get_id hget hstart hdigit (hafter ▸ hcast),
    Text.beforeLast_append_cons hslash] at hread
  exact Except.ok.inj hread

theorem SameReads.list (hpath : Collection path)
    (hsame : handler.SameReads path fs next) :
    handler.list (handler.readEntity path) next =
      handler.list (handler.readEntity path) fs := by
  let get : Request := ⟨"GET".toList, handler.createTarget path, 11, [], []⟩
  have hget : get.method = .get := rfl
  have hstart : handler.removePrefix get.target = _ :=
    removePrefix_createTarget handler path
  have hdigit := hpath.startsWithDigit_readEntity handler
  have hread := hsame get (.make .ok 11) ⟨rfl, .inl rfl⟩
  rwa [bodyOf_get_list hget hstart hdigit,
    bodyOf_get_list hget hstart hdigit] at hread

theorem firstIds_injective : Function.Injective firstIds := by
  intro m n heq
  have hlength := congrArg List.length heq
  simpa [firstIds] using hlength

/-- Reads that are the same agree on the first record that is missing. -/
theorem SameReads.first_missing (hpath : Collection path)
    (hsame : handler.SameReads path fs next) {m : ℕ} (hlt : m < 2147483647)
    (hfree : handler.crudHandler.exists? (handler.readEntity path)
      ((m : ℤ) + 1) fs = false)
    (hbelow : ∀ id : ℤ, 1 ≤ id → id ≤ m →
      handler.crudHandler.exists? (handler.readEntity path) id fs = true) :
    handler.crudHandler.fileStorage.find? next (handler.readEntity path)
      ((m : ℤ) + 1) = none := by
  have hbefore : handler.list (handler.readEntity path) fs = .ok _ :=
    list_eq_ok_iff.mpr ⟨m, hlt, hfree, hbelow, rfl⟩
  rw [← hsame.list hpath, list_eq_ok_iff] at hbefore
  obtain ⟨m', _, habsent, _, hbody⟩ := hbefore
  have hm : m = m' := firstIds_injective (joined_injective
    (List.append_cancel_left (List.append_cancel_right hbody)))
  rwa [← hm, CRUDHandler.exists?_eq, Option.isSome_eq_false_iff,
    Option.isNone_iff_eq_none] at habsent

/-! ## A create next to a collection -/

theorem afterLast_createTarget_path (handler : RequestHandlerAPI)
    (path : Text) :
    (handler.createTarget path).afterLast '/' = path.afterLast '/' :=
  Text.afterLast_append_slash _ path

theorem Collection.up_not_mem (hpath : Collection path) :
    ['.', '.'] ∉ path.splitOn '/' := by
  intro hmem
  exact (hpath _ hmem).1.2.2.1 rfl

theorem Collection.up_not_mem_readEntity (hpath : Collection path)
    (handler : RequestHandlerAPI) :
    ['.', '.'] ∉ (handler.readEntity path).splitOn '/' := by
  rw [readEntity]
  split
  next => exact hpath.up_not_mem
  next =>
    rw [splitOn_cons_slash, List.mem_cons, not_or]
    exact ⟨by simp, hpath.up_not_mem⟩

theorem collection_afterLast (hpath : Collection path) :
    Collection (path.afterLast '/') := by
  intro segment hsegment
  rw [List.splitOn_eq_singleton (Text.not_mem_afterLast path '/'),
    List.mem_singleton] at hsegment
  rw [hsegment]
  exact hpath.afterLast

/-- A create comes through a record of another collection where the way to that
one does, too, or where the record is above the new directory. -/
theorem onWay_create {cwd : Path} {first second : Text}
    (hfirst : Collection first) (hsecond : Collection second) (id : ℤ) :
    handler.crudHandler.fileStorage.OnWay cwd (first.afterLast '/')
        (handler.crudHandler.fileStorage.recordPath cwd
          (handler.readEntity second) id) ↔
      handler.crudHandler.fileStorage.OnWay cwd (handler.readEntity second)
          (handler.crudHandler.fileStorage.recordPath cwd
            (handler.readEntity second) id) ∨
        handler.crudHandler.fileStorage.recordPath cwd
            (handler.readEntity second) id <:+
          handler.crudHandler.fileStorage.directory cwd
            (first.afterLast '/') := by
  have hup := (collection_afterLast hfirst).up_not_mem
  have hup' := hsecond.up_not_mem_readEntity handler
  constructor
  · exact FileStorage.onWay_glue hup hup'
  · rintro (hway | hsuffix)
    · apply (FileStorage.onWay_glue hup' hup hway).resolve_right
      intro hsuffix
      have hlength := hsuffix.length_le
      simp [FileStorage.recordPath] at hlength
    · exact onWay_of_suffix hsuffix

section

variable {first second data : Text} {id : ℤ}

/-- After a create the walk finds whatever is at the records of a collection. -/
theorem find?_of_write (hfirst : Collection first)
    (hsecond : Collection second)
    (hwritten : handler.crudHandler.fileStorage.write (first.afterLast '/') id
      data fs = .ok next) (other : ℤ) :
    handler.crudHandler.fileStorage.find? next (handler.readEntity second)
        other =
      next.node? (handler.crudHandler.fileStorage.recordPath fs.cwd
        (handler.readEntity second) other) := by
  obtain ⟨hcwd, hnodes⟩ := FileStorage.write_eq_ok hwritten
  rw [FileStorage.find?_eq, hcwd]
  split
  next => rfl
  next hmissed =>
    rw [eq_comm, Option.eq_none_iff_forall_ne_some]
    intro node hnode
    have hdir := FileSystem.node?_parent hnode
    apply hmissed
    rw [FileStorage.reaches_iff, hcwd]
    intro path hway
    rcases FileStorage.onWay_glue (hsecond.up_not_mem_readEntity handler)
      (collection_afterLast hfirst).up_not_mem hway with hon | hbelow
    · rw [hnodes, if_pos hon]
    · exact FileSystem.node?_above hdir hbelow

/-- In another directory a create makes a record appear only as a directory. -/
theorem node?_of_write
    (hdirectory : handler.crudHandler.fileStorage.directory fs.cwd
        (first.afterLast '/') ≠
      handler.crudHandler.fileStorage.directory fs.cwd
        (handler.readEntity second))
    (hwritten : handler.crudHandler.fileStorage.write (first.afterLast '/') id
      data fs = .ok next) (other : ℤ) :
    next.node? (handler.crudHandler.fileStorage.recordPath fs.cwd
        (handler.readEntity second) other) =
      if handler.crudHandler.fileStorage.OnWay fs.cwd (first.afterLast '/')
        (handler.crudHandler.fileStorage.recordPath fs.cwd
          (handler.readEntity second) other) then some .dir
      else fs.node? (handler.crudHandler.fileStorage.recordPath fs.cwd
        (handler.readEntity second) other) := by
  have hne : handler.crudHandler.fileStorage.recordPath fs.cwd
        (handler.readEntity second) other ≠
      handler.crudHandler.fileStorage.recordPath fs.cwd
        (first.afterLast '/') id := by
    intro heq
    exact hdirectory (List.cons.inj heq).2.symm
  obtain ⟨_, hnodes⟩ := FileStorage.write_eq_ok hwritten
  rw [hnodes, if_neg (c := _ ∧ _) (fun h => hne h.1)]

/-- A record that a create comes through was a directory before, unless the way
to the record itself comes through it. -/
theorem dir_of_onWay_create (hfirst : Collection first)
    (hsecond : Collection second) (hapart : handler.Apart fs first second)
    (hfree : handler.crudHandler.fileStorage.Passable fs (first.afterLast '/'))
    (hnonneg : 0 ≤ id) (hmax : id ≤ intMax)
    (hon : handler.crudHandler.fileStorage.OnWay fs.cwd (first.afterLast '/')
      (handler.crudHandler.fileStorage.recordPath fs.cwd
        (handler.readEntity second) id))
    (hoff : ¬ handler.crudHandler.fileStorage.OnWay fs.cwd
      (handler.readEntity second)
      (handler.crudHandler.fileStorage.recordPath fs.cwd
        (handler.readEntity second) id)) :
    fs.node? (handler.crudHandler.fileStorage.recordPath fs.cwd
      (handler.readEntity second) id) = some .dir := by
  have hsuffix := ((onWay_create hfirst hsecond id).mp hon).resolve_left hoff
  obtain ⟨node, hsome⟩ :=
    Option.ne_none_iff_exists'.mp (hapart.2 id hnonneg hmax hsuffix)
  rw [hsome, hfree _ hon node hsome]

/-- Where the walk to the records gets through, it finds the same as before. -/
theorem sameReads_of_reaches (hfirst : Collection first)
    (hsecond : Collection second) (hapart : handler.Apart fs first second)
    (hreaches : handler.crudHandler.fileStorage.Reaches fs
      (handler.readEntity second))
    (hwritten : handler.crudHandler.fileStorage.write (first.afterLast '/') id
      data fs = .ok next) : handler.SameReads second fs next := by
  have hsame : ∀ other, 0 ≤ other → other ≤ intMax →
      handler.crudHandler.fileStorage.find? next (handler.readEntity second)
          other =
        handler.crudHandler.fileStorage.find? fs (handler.readEntity second)
          other := by
    intro other hnonneg hmax
    rw [find?_of_write hfirst hsecond hwritten,
      node?_of_write hapart.1 hwritten, FileStorage.find?_eq,
      if_pos hreaches]
    split
    next hon =>
      rw [eq_comm]
      by_cases hway : handler.crudHandler.fileStorage.OnWay fs.cwd
          (handler.readEntity second)
          (handler.crudHandler.fileStorage.recordPath fs.cwd
            (handler.readEntity second) other)
      · exact FileStorage.reaches_iff.mp hreaches _ hway
      · exact dir_of_onWay_create hfirst hsecond hapart
          (FileStorage.passable_of_write hwritten) hnonneg hmax hon hway
    next => rfl
  apply sameReads_of_records hsecond
  · apply list_congr
    intro other hone hmax
    rw [CRUDHandler.exists?_eq, CRUDHandler.exists?_eq,
      hsame other (by omega) hmax]
  · intro other hnonneg hmax
    rw [hsame other hnonneg hmax]

theorem sameReads_of_apart (hfirst : Collection first)
    (hsecond : Collection second) (hapart : handler.Apart fs first second)
    (hhidden : handler.NothingHidden fs second)
    (hwritten : handler.crudHandler.fileStorage.write (first.afterLast '/') id
      data fs = .ok next) : handler.SameReads second fs next := by
  by_cases hreaches : handler.crudHandler.fileStorage.Reaches fs
      (handler.readEntity second)
  · exact sameReads_of_reaches hfirst hsecond hapart hreaches hwritten
  obtain ⟨hone, hrecords⟩ := hhidden.resolve_left hreaches
  have hmissing : ∀ other, handler.crudHandler.fileStorage.find? fs
      (handler.readEntity second) other = none := by
    intro other
    rw [FileStorage.find?_eq, if_neg hreaches]
  have hstill : ∀ other, 0 ≤ other → other ≤ intMax →
      handler.crudHandler.fileStorage.find? next (handler.readEntity second)
          other =
        fs.node? (handler.crudHandler.fileStorage.recordPath fs.cwd
          (handler.readEntity second) other) := by
    intro other hnonneg hmax
    rw [find?_of_write hfirst hsecond hwritten,
      node?_of_write hapart.1 hwritten, ite_eq_right_iff]
    intro hon
    exact (dir_of_onWay_create hfirst hsecond hapart
      (FileStorage.passable_of_write hwritten) hnonneg hmax hon
      (hrecords other hnonneg hmax).1).symm
  apply sameReads_of_records hsecond
  · rw [list_of_not_first (hmissing 1), list_of_not_first]
    rw [hstill 1 (by decide) (by decide), hone]
  · intro other hnonneg hmax
    rw [hstill other hnonneg hmax, hmissing, (hrecords other hnonneg hmax).2]

theorem directory_ne_of_sameReads (hfirst : Collection first)
    (hsecond : Collection second) (hsame : handler.SameReads second fs next)
    (hid : handler.crudHandler.getNextId (first.afterLast '/') fs = .ok id)
    (hwritten : handler.crudHandler.fileStorage.write (first.afterLast '/') id
      data fs = .ok next) :
    handler.crudHandler.fileStorage.directory fs.cwd (first.afterLast '/') ≠
      handler.crudHandler.fileStorage.directory fs.cwd
        (handler.readEntity second) := by
  intro hdirectory
  have hsameDirectory := FileStorage.sameDirectory_of_directory
    (hsecond.up_not_mem_readEntity handler)
    (collection_afterLast hfirst).up_not_mem hdirectory.symm
  obtain ⟨_, hnodes⟩ := FileStorage.write_eq_ok hwritten
  rw [CRUDHandler.getNextId, CRUDHandler.nextIdLoop_eq_ok_iff] at hid
  obtain ⟨hone, hlt, hfree, hbelow⟩ := hid
  have hstored := @stored_congr handler _ _ fs hsameDirectory
  obtain ⟨m, rfl⟩ : ∃ m : ℕ, id = (m : ℤ) + 1 := ⟨(id - 1).toNat, by omega⟩
  have habsent := hsame.first_missing hsecond (by omega)
    ((hstored _).trans hfree)
    fun other h h' => (hstored _).trans (hbelow other h (by omega))
  rw [find?_of_write hfirst hsecond hwritten, hsameDirectory.recordPath_eq,
    hnodes] at habsent
  split at habsent
  next => cases habsent
  next =>
    split at habsent
    next => cases habsent
    next hwritable => exact hwritable ⟨rfl, by rw [habsent]; rfl⟩

theorem apart_of_sameReads (hfirst : Collection first)
    (hsecond : Collection second) (hsame : handler.SameReads second fs next)
    (hid : handler.crudHandler.getNextId (first.afterLast '/') fs = .ok id)
    (hwritten : handler.crudHandler.fileStorage.write (first.afterLast '/') id
      data fs = .ok next) : handler.Apart fs first second := by
  have hdirectory :=
    directory_ne_of_sameReads hfirst hsecond hsame hid hwritten
  refine ⟨hdirectory, fun other hnonneg hmax hsuffix hnone => ?_⟩
  have hrecord := hsame.record hnonneg hmax
  rw [find?_of_write hfirst hsecond hwritten,
    node?_of_write hdirectory hwritten,
    if_pos ((onWay_create hfirst hsecond other).mpr (.inr hsuffix)),
    FileStorage.find?_eq, hnone, ite_self] at hrecord
  cases hrecord

theorem nothingHidden_of_sameReads (hfirst : Collection first)
    (hsecond : Collection second) (hsame : handler.SameReads second fs next)
    (hapart : handler.Apart fs first second)
    (hwritten : handler.crudHandler.fileStorage.write (first.afterLast '/') id
      data fs = .ok next) : handler.NothingHidden fs second := by
  by_cases hreaches : handler.crudHandler.fileStorage.Reaches fs
      (handler.readEntity second)
  · exact .inl hreaches
  right
  have hnode := node?_of_write hapart.1 hwritten
  have hfind := find?_of_write hfirst hsecond hwritten
  constructor
  · have hnone := hsame.first_missing (m := 0) hsecond (by omega)
      (by rw [CRUDHandler.exists?_eq, FileStorage.find?_eq, if_neg hreaches]; rfl)
      (fun other h h' => by omega)
    rw [Nat.cast_zero, zero_add, hfind, hnode] at hnone
    split at hnone
    next => cases hnone
    next => exact hnone
  · intro other hnonneg hmax
    have hrecord := hsame.record hnonneg hmax
    rw [hfind, hnode, FileStorage.find?_eq, if_neg hreaches] at hrecord
    split at hrecord
    next => cases hrecord
    next hoff =>
      exact ⟨fun hway => hoff ((onWay_create hfirst hsecond other).mpr
        (.inl hway)), hrecord⟩

end

/-- Without `..` nothing is hidden. -/
theorem nothingHidden_of_not_mem
    (hup : ['.', '.'] ∉ (handler.crudHandler.fileStorage.directoryName
      (handler.readEntity path)).splitOn '/') (fs : FileSystem) :
    handler.NothingHidden fs path := by
  by_cases hreaches : handler.crudHandler.fileStorage.Reaches fs
      (handler.readEntity path)
  · exact .inl hreaches
  right
  have hnone : ∀ id, fs.node? (handler.crudHandler.fileStorage.recordPath
      fs.cwd (handler.readEntity path) id) = none := by
    intro id
    rw [← FileStorage.find?_eq_node? hup, FileStorage.find?_eq,
      if_neg hreaches]
  refine ⟨hnone 1, fun id _ _ => ⟨?_, by rw [hnone]⟩⟩
  exact (FileStorage.direct_of_not_mem hup fs.cwd).recordPath_not_onWay id

theorem foldl_enter_plain {segments : List Text}
    (hplain : ∀ segment ∈ segments, PlainName segment) (above : Path) :
    segments.foldl enter above = segments.reverse ++ above := by
  induction segments generalizing above with
  | nil => rfl
  | cons segment segments ih =>
      rw [List.forall_mem_cons] at hplain
      rw [List.foldl_cons, ih hplain.2, enter_plain hplain.1]
      simp

theorem directory_collection {storage : FileStorage}
    (hbase : storage.basePath.getLast? = some '/') (hpath : Collection path)
    (cwd : Path) :
    storage.directory cwd path =
      (path.splitOn '/').reverse ++ resolve cwd storage.basePath := by
  have hne : storage.basePath ++ path ≠ [] := by
    intro hnil
    simp [(List.append_eq_nil_iff.mp hnil).1] at hbase
  rw [FileStorage.directory, FileStorage.directoryName, if_neg hne,
    resolve_base_append hbase,
    foldl_enter_plain fun segment hmem => (hpath segment hmem).1]

/-- Where the base directory is given with a final slash, only a collection that
is the last segment of the target is in the way. -/
theorem apart_iff {first second : Text}
    (hbase : handler.crudHandler.fileStorage.basePath.getLast? = some '/')
    (hfirst : Collection first) (hsecond : Collection second) :
    handler.Apart fs first second ↔ second ≠ first.afterLast '/' := by
  have hmade := directory_collection hbase (collection_afterLast hfirst) fs.cwd
  have hread : handler.crudHandler.fileStorage.directory fs.cwd
        (handler.readEntity second) =
      (second.splitOn '/').reverse ++
        resolve fs.cwd handler.crudHandler.fileStorage.basePath := by
    rw [← directory_collection hbase hsecond, readEntity]
    split
    next => rfl
    next => exact directory_slash hbase fs.cwd second
  rw [List.splitOn_eq_singleton (Text.not_mem_afterLast first '/')] at hmade
  constructor
  · rintro ⟨hne, _⟩ rfl
    rw [List.splitOn_eq_singleton (Text.not_mem_afterLast first '/')] at hread
    exact hne (hmade.trans hread.symm)
  · intro hne
    constructor
    · intro heq
      rw [hmade, hread] at heq
      have hsegments := List.reverse_injective (List.append_cancel_right heq)
      apply hne
      have hjoin : ['/'].intercalate (second.splitOn '/') = second :=
        List.intercalate_splitOn '/'
      rw [← hjoin, ← hsegments]
      simp
    · intro id _ _ hsuffix
      have hlength := hsuffix.length_le
      have hsegments := List.length_pos_iff.mpr
        (List.splitOn_ne_nil '/' second)
      rw [FileStorage.recordPath, hread, hmade] at hlength
      simp only [List.length_cons, List.length_append, List.length_reverse,
        List.length_nil] at hlength
      omega

/-- A create that succeeds is seen by no read of a collection exactly where the
two are apart and it brings nothing to light. -/
theorem create_unseen_iff {first second : Text} {post : Request}
    {res answer : Response} (hfirst : Collection first)
    (hsecond : Collection second) (hpost : post.method = .post)
    (htarget : post.target = handler.createTarget first)
    (hanswer : handler.handleRequest post res fs = .ok (answer, next)) :
    (handler.SameReads second fs next ↔
        handler.Apart fs first second ∧ handler.NothingHidden fs second) ∧
      (handler.crudHandler.fileStorage.basePath.getLast? = some '/' →
        (handler.Apart fs first second ↔ second ≠ first.afterLast '/')) ∧
      (['.', '.'] ∉ (handler.crudHandler.fileStorage.directoryName
          (handler.readEntity second)).splitOn '/' →
        handler.NothingHidden fs second) := by
  obtain ⟨id, hid, _, _, hwritten⟩ := handleRequest_post_eq_ok hpost hanswer
  rw [htarget, afterLast_createTarget_path] at hid hwritten
  refine ⟨⟨fun hsame => ?_, fun ⟨hapart, hhidden⟩ => ?_⟩, fun hbase => ?_,
    fun hup => nothingHidden_of_not_mem hup fs⟩
  · have hapart := apart_of_sameReads hfirst hsecond hsame hid hwritten
    exact ⟨hapart,
      nothingHidden_of_sameReads hfirst hsecond hsame hapart hwritten⟩
  · exact sameReads_of_apart hfirst hsecond hapart hhidden hwritten
  · exact apart_iff hbase hfirst hsecond

theorem create_unseen_iff_shoes :
    let handler : RequestHandlerAPI := ⟨⟨⟨"data/".toList⟩⟩, "/api".toList⟩
    let fs := FileSystem.empty ["srv".toList]
    ∃ answer next, handler.handleRequest
          ⟨"POST".toList, "/api/shop/Shoes".toList, 11, [], ['x']⟩
          (.make .ok 11) fs = .ok (answer, next) ∧
      ((handler.SameReads "Socks".toList fs next ↔
          handler.Apart fs "shop/Shoes".toList "Socks".toList ∧
            handler.NothingHidden fs "Socks".toList) ∧
        (handler.crudHandler.fileStorage.basePath.getLast? = some '/' →
          (handler.Apart fs "shop/Shoes".toList "Socks".toList ↔
            "Socks".toList ≠ Text.afterLast "shop/Shoes".toList '/')) ∧
        (['.', '.'] ∉ (handler.crudHandler.fileStorage.directoryName
            (handler.readEntity "Socks".toList)).splitOn '/' →
          handler.NothingHidden fs "Socks".toList)) := by
  intro handler fs
  have hok : (handler.handleRequest
      ⟨"POST".toList, "/api/shop/Shoes".toList, 11, [], ['x']⟩
      (.make .ok 11) fs).toBool = true := by
    decide +kernel
  obtain ⟨⟨answer, next⟩, hanswer⟩ := Machine.exists_of_toBool hok
  refine ⟨answer, next, hanswer, create_unseen_iff ?_ ?_ ?_ ?_ hanswer⟩
  · decide +kernel
  · decide +kernel
  · rfl
  · decide +kernel

/-- The record created by `POST /api/shop/Shoes` is listed by
`GET /api/Shoes`. -/
theorem not_create_unseen :
    let handler : RequestHandlerAPI := ⟨⟨⟨"data/".toList⟩⟩, "/api".toList⟩
    let fs := FileSystem.empty ["srv".toList]
    let get : Request := ⟨"GET".toList, "/api/Shoes".toList, 11, [], []⟩
    Collection "shop/Shoes".toList ∧ Collection "Shoes".toList ∧
      ∃ answer next, handler.handleRequest
            ⟨"POST".toList, "/api/shop/Shoes".toList, 11, [], ['x']⟩
            (.make .ok 11) fs = .ok (answer, next) ∧
        bodyOf (handler.handleRequest get (.make .ok 11) fs) =
          .ok "[]".toList ∧
        bodyOf (handler.handleRequest get (.make .ok 11) next) =
          .ok "[1]".toList ∧
        ¬ handler.SameReads "Shoes".toList fs next := by
  intro handler fs get
  refine ⟨by decide +kernel, by decide +kernel, ?_⟩
  have hbefore : bodyOf (handler.handleRequest get (.make .ok 11) fs) =
      .ok "[]".toList := by
    decide +kernel
  have hafter : (handler.handleRequest
      ⟨"POST".toList, "/api/shop/Shoes".toList, 11, [], ['x']⟩
      (.make .ok 11) fs).map (fun result =>
        bodyOf (handler.handleRequest get (.make .ok 11) result.2)) =
      .ok (.ok "[1]".toList) := by
    decide +kernel
  obtain ⟨⟨answer, next⟩, hanswer, hlist⟩ := Machine.map_eq_ok_iff.mp hafter
  refine ⟨answer, next, hanswer, hbefore, hlist, fun hsame => ?_⟩
  have hbodies := hsame get (.make .ok 11) ⟨rfl, .inl (by decide +kernel)⟩
  rw [hbefore, hlist] at hbodies
  cases hbodies

end RequestHandlerAPI

end Swifties
