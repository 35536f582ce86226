import Swifties.ApiRoundTrip
import Swifties.ApiSafety

/-!
# Listing a collection

A list request probes the ids from 1 on and stops at the first one without a
record.  A delete can leave records behind such a gap, which the list then does
not show.
-/

namespace Swifties

open FileTree

namespace RequestHandlerAPI

/-! ## The list of a set of ids -/

def joined (ids : List ℤ) : Text :=
  ", ".toList.intercalate (ids.map Text.decimal)

/-- The body lists the ids that are present, in ascending order. -/
def Lists (present : ℤ → Bool) (body : Text) : Prop :=
  ∃ ids : List ℤ, ids.Pairwise (· < ·) ∧
    (∀ id, id ∈ ids ↔ present id = true) ∧
    body = "[".toList ++ joined ids ++ "]".toList

/-- Every id in front of one that is present is present too, and the largest
`int` is not. -/
def NoGap (present : ℤ → Bool) : Prop :=
  (∀ id, present id = true → ∀ other, 1 ≤ other → other < id →
    present other = true) ∧
  present intMax = false

def firstIds (n : ℕ) : List ℤ := (List.range n).map fun i : ℕ => (i : ℤ) + 1

theorem mem_firstIds {n : ℕ} {id : ℤ} :
    id ∈ firstIds n ↔ 1 ≤ id ∧ id ≤ n := by
  rw [firstIds, List.mem_map]
  constructor
  · rintro ⟨i, hi, rfl⟩
    rw [List.mem_range] at hi
    omega
  · rintro ⟨hone, hle⟩
    exact ⟨(id - 1).toNat, List.mem_range.mpr (by omega), by omega⟩

theorem firstIds_pairwise (n : ℕ) : (firstIds n).Pairwise (· < ·) := by
  rw [firstIds, List.pairwise_map]
  apply List.pairwise_lt_range.imp
  intro i j hlt
  omega

theorem firstIds_succ (n : ℕ) : firstIds (n + 1) = firstIds n ++ [(n : ℤ) + 1] := by
  rw [firstIds, List.range_succ, List.map_append]
  rfl

theorem joined_concat {ids : List ℤ} (hids : ids ≠ []) (id : ℤ) :
    joined (ids ++ [id]) = joined ids ++ ", ".toList ++ Text.decimal id := by
  induction ids with
  | nil => exact (hids rfl).elim
  | cons first rest ih =>
      cases rest with
      | nil => simp [joined, List.intercalate_cons_cons]
      | cons second rest =>
          have hrest := ih (List.cons_ne_nil _ _)
          simp only [joined, List.cons_append, List.map_cons,
            List.intercalate_cons_cons] at hrest ⊢
          rw [hrest]
          simp only [List.append_assoc]

theorem joined_firstIds_succ (n : ℕ) :
    joined (firstIds (n + 1)) =
      (if 1 < (n : ℤ) + 1 then joined (firstIds n) ++ ", ".toList
        else joined (firstIds n)) ++ Text.decimal ((n : ℤ) + 1) := by
  rw [firstIds_succ]
  cases n with
  | zero => simp [joined, firstIds]
  | succ n =>
      rw [if_pos (by push_cast; omega)]
      apply joined_concat
      rw [firstIds_succ]
      simp

/-- Without the spaces, the ids are separated by single commas. -/
theorem filter_joined (ids : List ℤ) :
    (joined ids).filter (fun c => decide (c ≠ ' ')) =
      [','].intercalate (ids.map Text.decimal) := by
  have hdecimal : ∀ id : ℤ, (Text.decimal id).filter
      (fun c => decide (c ≠ ' ')) = Text.decimal id := by
    intro id
    rw [List.filter_eq_self]
    intro c hc
    have hne : c ≠ ' ' := by
      rintro rfl
      exact Text.not_mem_decimal (by decide) (by decide) hc
    simpa using hne
  induction ids with
  | nil => rfl
  | cons first rest ih =>
      cases rest with
      | nil => simpa [joined] using hdecimal first
      | cons second rest =>
          simp only [joined, List.map_cons, List.intercalate_cons_cons] at ih ⊢
          rw [List.filter_append, List.filter_append, hdecimal, ih]
          rfl

theorem joined_injective : Function.Injective joined := by
  have hempty : ∀ ids, joined ids = [] → ids = [] := by
    intro ids hnil
    have hfilter := filter_joined ids
    rw [hnil] at hfilter
    cases ids with
    | nil => rfl
    | cons first rest =>
        have hne := Text.decimal_ne_nil first
        cases rest with
        | nil => simp [hne.symm] at hfilter
        | cons second rest =>
            simp [List.intercalate_cons_cons] at hfilter
  intro ids ids' heq
  by_cases hids : ids = []
  · rw [hids] at heq ⊢
    exact (hempty ids' heq.symm).symm
  by_cases hids' : ids' = []
  · rw [hids'] at heq ⊢
    exact hempty ids heq
  have hsplit : ∀ ids : List ℤ, ids ≠ [] →
      ((joined ids).filter fun c => decide (c ≠ ' ')).splitOn ',' =
        ids.map Text.decimal := by
    intro ids hne
    rw [filter_joined]
    apply List.splitOn_intercalate
    · intro text htext
      obtain ⟨id, _, rfl⟩ := List.mem_map.mp htext
      exact Text.not_mem_decimal (by decide) (by decide)
    · simpa using hne
  have hdecimals := hsplit ids hids
  rw [heq, hsplit ids' hids'] at hdecimals
  exact (List.map_injective_iff.mpr Text.decimal_injective hdecimals).symm

theorem listLoop_eq_ok_iff {present : ℤ → Bool} {left n : ℕ} {body : Text} :
    listLoop present left ((n : ℤ) + 1) ("[".toList ++ joined (firstIds n)) =
        .ok body ↔
      ∃ m, n ≤ m ∧ m < n + left ∧ present ((m : ℤ) + 1) = false ∧
        (∀ id : ℤ, n < id → id ≤ m → present id = true) ∧
        body = "[".toList ++ joined (firstIds m) := by
  induction left generalizing n with
  | zero =>
      rw [listLoop]
      constructor
      · intro h
        cases h
      · rintro ⟨m, hle, hlt, _⟩
        omega
  | succ left ih =>
      rw [listLoop]
      cases hpresent : present ((n : ℤ) + 1) with
      | false =>
          simp only [Bool.false_eq_true, if_false, Except.ok.injEq]
          constructor
          · rintro rfl
            exact ⟨n, le_rfl, by omega, hpresent, fun id h h' => by omega, rfl⟩
          · rintro ⟨m, hle, _, _, hbelow, rfl⟩
            have heq : m = n := by
              by_contra hne
              have hnext := hbelow ((n : ℤ) + 1) (by omega) (by omega)
              rw [hpresent] at hnext
              cases hnext
            rw [heq]
      | true =>
          have hbody : (if 1 < (n : ℤ) + 1 then
                "[".toList ++ joined (firstIds n) ++ ", ".toList
              else "[".toList ++ joined (firstIds n)) ++
                Text.decimal ((n : ℤ) + 1) =
              "[".toList ++ joined (firstIds (n + 1)) := by
            rw [joined_firstIds_succ]
            split <;> simp
          have hnext := ih (n := n + 1)
          simp only [Nat.cast_add, Nat.cast_one] at hnext
          simp only [if_true, hbody, hnext]
          constructor
          · rintro ⟨m, hle, hlt, hfree, hbelow, rfl⟩
            refine ⟨m, by omega, by omega, hfree, fun id h h' => ?_, rfl⟩
            by_cases heq : id = (n : ℤ) + 1
            · rw [heq, hpresent]
            · exact hbelow id (by omega) h'
          · rintro ⟨m, hle, hlt, hfree, hbelow, rfl⟩
            have hne : m ≠ n := by
              rintro rfl
              rw [hpresent] at hfree
              cases hfree
            exact ⟨m, by omega, by omega, hfree,
              fun id h h' => hbelow id (by omega) h', rfl⟩

/-- The ids that a list shows are those in front of the first gap. -/
theorem list_eq_ok_iff {handler : RequestHandlerAPI} {entityId body : Text}
    {fs : FileSystem} :
    handler.list entityId fs = .ok body ↔
      ∃ m : ℕ, m < 2147483647 ∧
        handler.crudHandler.exists? entityId ((m : ℤ) + 1) fs = false ∧
        (∀ id : ℤ, 1 ≤ id → id ≤ m →
          handler.crudHandler.exists? entityId id fs = true) ∧
        body = "[".toList ++ joined (firstIds m) ++ "]".toList := by
  have hloop := @listLoop_eq_ok_iff
    (fun id => handler.crudHandler.exists? entityId id fs) 2147483647 0
  have hstart : "[".toList ++ joined (firstIds 0) = "[".toList := by
    simp [joined, firstIds]
  rw [hstart, Nat.cast_zero, zero_add] at hloop
  rw [list]
  constructor
  · intro hlist
    obtain ⟨ids, hids, hbody⟩ := Machine.bind_eq_ok_iff.mp hlist
    obtain ⟨m, _, hlt, hfree, hbelow, rfl⟩ := hloop.mp hids
    cases hbody
    exact ⟨m, by omega, hfree,
      fun id h h' => hbelow id (by omega) h', rfl⟩
  · rintro ⟨m, hlt, hfree, hbelow, rfl⟩
    rw [hloop.mpr ⟨m, Nat.zero_le m, by omega, hfree,
      fun id h h' => hbelow id (by omega) h', rfl⟩]
    rfl

/-- Of positive ids, those in front of the first gap are all exactly if there is
no gap. -/
theorem lists_firstIds_iff {present : ℤ → Bool}
    (hpos : ∀ id, present id = true → 1 ≤ id) :
    (∃ m : ℕ, m < 2147483647 ∧ present ((m : ℤ) + 1) = false ∧
        (∀ id : ℤ, 1 ≤ id → id ≤ m → present id = true) ∧
        Lists present ("[".toList ++ joined (firstIds m) ++ "]".toList)) ↔
      NoGap present := by
  constructor
  · rintro ⟨m, hlt, _, _, ids, _, hmem, heq⟩
    have hids : firstIds m = ids := joined_injective
      (List.append_cancel_left (List.append_cancel_right heq))
    have hpresent : ∀ id, present id = true ↔ 1 ≤ id ∧ id ≤ m := by
      intro id
      rw [← hmem, ← hids, mem_firstIds]
    constructor
    · intro id hid other hone hother
      rw [hpresent] at hid ⊢
      omega
    · rw [← Bool.not_eq_true, hpresent, intMax]
      omega
  · rintro ⟨hgap, hmax⟩
    have habsent : ∃ m : ℕ, present ((m : ℤ) + 1) = false := ⟨2147483646, hmax⟩
    have hfree := Nat.find_spec habsent
    have hle : Nat.find habsent ≤ 2147483646 := Nat.find_min' habsent hmax
    have hbelow : ∀ id : ℤ, 1 ≤ id → id ≤ Nat.find habsent →
        present id = true := by
      intro id hone hlast
      have hnot := Nat.find_min habsent
        (show (id - 1).toNat < Nat.find habsent by omega)
      rw [Bool.not_eq_false] at hnot
      rwa [show ((id - 1).toNat : ℤ) + 1 = id by omega] at hnot
    refine ⟨Nat.find habsent, by omega, hfree, hbelow,
      firstIds (Nat.find habsent), firstIds_pairwise _, fun id => ?_, rfl⟩
    rw [mem_firstIds]
    constructor
    · rintro ⟨hone, hlast⟩
      exact hbelow id hone hlast
    · intro hid
      refine ⟨hpos id hid, ?_⟩
      by_contra hgt
      rcases lt_or_eq_of_le (show (Nat.find habsent : ℤ) + 1 ≤ id by omega)
        with hlt | heq
      · rw [hgap id hid _ (by omega) hlt] at hfree
        cases hfree
      · rw [← heq, hfree] at hid
        cases hid

/-! ## The records of an entity -/

def stored (handler : RequestHandlerAPI) (entity : Text) (fs : FileSystem)
    (id : ℤ) : Bool :=
  handler.crudHandler.exists? entity id fs

/-- A create of the entity, or an update or delete of one of its records. -/
def OnEntity (handler : RequestHandlerAPI) (entity : Text) (req : Request) :
    Prop :=
  req.method = .post ∧ req.target.afterLast '/' = entity ∨
    (req.method = .put ∨ req.method = .delete) ∧
      ∃ idStr, '/' ∉ idStr ∧
        req.target = handler.createTarget entity ++ '/' :: idStr

/-- The answer to a list request shows the records of the entity. -/
def ListsRecords (handler : RequestHandlerAPI) (entity : Text)
    (fs : FileSystem) : Prop :=
  ∀ get res, get.method = .get → get.target = handler.createTarget entity →
    ∃ answer, handler.handleRequest get res fs = .ok (answer, fs) ∧
      answer.result = .ok ∧ Lists (handler.stored entity fs) answer.body

/-- A create does not take the largest `int` and brings nothing to light that
was not found before, and a delete takes the last record. -/
def AtEnd (handler : RequestHandlerAPI) (entity : Text) (fs : FileSystem)
    (call : Request × Response) : Prop :=
  match call.1.method with
  | .post =>
      handler.stored entity fs (intMax - 1) = false ∧
        ∀ id, handler.crudHandler.fileStorage.Stands fs entity id →
          handler.stored entity fs id = true
  | .delete =>
      ∀ id, Text.lexicalCast (call.1.target.afterLast '/') = some id →
        handler.stored entity fs id = true →
        ∀ other, id < other → handler.stored entity fs other = false
  | _ => True

section

variable {handler : RequestHandlerAPI} {entity other data : Text} {id : ℤ}
  {fs next : FileSystem}

theorem stored_eq_true_iff (id : ℤ) :
    handler.stored entity fs id = true ↔
      handler.crudHandler.fileStorage.find? fs entity id ≠ none := by
  rw [stored, CRUDHandler.exists?_eq, Option.isSome_iff_ne_none]

theorem stored_of_reaches
    (hreaches : handler.crudHandler.fileStorage.Reaches fs entity) (id : ℤ) :
    handler.stored entity fs id =
      (fs.node? (handler.crudHandler.fileStorage.recordPath fs.cwd entity
        id)).isSome := by
  rw [stored, CRUDHandler.exists?_eq, FileStorage.find?_eq, if_pos hreaches]

theorem stands_of_stored (hstored : handler.stored entity fs id = true) :
    handler.crudHandler.fileStorage.Stands fs entity id := by
  rw [stored_eq_true_iff, FileStorage.find?_eq] at hstored
  split at hstored
  next => exact .inr hstored
  next => exact (hstored rfl).elim

theorem stored_congr
    (hsame : handler.crudHandler.fileStorage.SameDirectory fs.cwd other entity)
    (id : ℤ) : handler.stored other fs id = handler.stored entity fs id := by
  rw [stored, stored, CRUDHandler.exists?_eq, CRUDHandler.exists?_eq,
    hsame.find?_eq]

theorem recordPath_eq_iff_id (storage : FileStorage) (cwd : Path)
    (entity : Text) (id id' : ℤ) :
    storage.recordPath cwd entity id = storage.recordPath cwd entity id' ↔
      id = id' := by
  simp [FileStorage.recordPath, Text.decimal_injective.eq_iff]

/-- After a write all that stands is found. -/
theorem stored_write
    (hsame : handler.crudHandler.fileStorage.SameDirectory fs.cwd other entity)
    (hwritten : handler.crudHandler.fileStorage.write other id data fs =
      .ok next) :
    next.cwd = fs.cwd ∧ ∀ id',
      (handler.crudHandler.fileStorage.Stands next entity id' ↔
        handler.stored entity next id' = true) ∧
      (handler.stored entity next id' = true ↔
        id' = id ∨ handler.crudHandler.fileStorage.Stands fs entity id') := by
  obtain ⟨hcwd, hnodes⟩ := FileStorage.write_eq_ok hwritten
  have hreaches := FileStorage.reaches_of_write hwritten
  have hsame' := hsame
  rw [← hcwd] at hsame'
  rw [hsame'.reaches_iff] at hreaches
  refine ⟨hcwd, fun id' => ?_⟩
  have hstands := hreaches.stands_iff id'
  rw [← stored_eq_true_iff] at hstands
  refine ⟨hstands, ?_⟩
  rw [← hstands, FileStorage.Stands, FileStorage.Stands, hcwd, hnodes,
    hsame.recordPath_eq]
  simp only [recordPath_eq_iff_id]
  by_cases hway : handler.crudHandler.fileStorage.OnWay fs.cwd entity
      (handler.crudHandler.fileStorage.recordPath fs.cwd entity id')
  · simp [hway]
  · rw [if_neg (fun h => hway ((hsame.2 _).mp h)), or_iff_right hway,
      or_iff_right hway]
    by_cases hid : id' = id
    · simp only [hid, true_and, true_or, iff_true]
      split
      next => simp
      next hwritable =>
        intro hnone
        rw [hnone] at hwritable
        exact hwritable rfl
    · simp [hid]

theorem stored_remove {node : Node}
    (hsame : handler.crudHandler.fileStorage.SameDirectory fs.cwd other entity)
    (hnode : handler.crudHandler.fileStorage.find? fs other id = some node)
    (hremoved : handler.crudHandler.fileStorage.remove other id fs =
      .ok next) :
    next.cwd = fs.cwd ∧
      (∀ id', handler.crudHandler.fileStorage.Stands next entity id' →
        handler.crudHandler.fileStorage.Stands fs entity id') ∧
      ((∀ id', handler.stored entity next id' = false) ∨
        ∀ id', handler.stored entity next id' =
          (decide (id' ≠ id) && handler.stored entity fs id')) := by
  obtain ⟨hcwd, hnodes⟩ := FileStorage.remove_eq_ok hnode hremoved
  have hreaches := (FileStorage.find?_eq_some_iff.mp hnode).1
  rw [hsame.reaches_iff] at hreaches
  rw [hsame.recordPath_eq] at hnodes
  refine ⟨hcwd, fun id' hstands => ?_, ?_⟩
  · rw [FileStorage.Stands, hcwd, hnodes] at hstands
    apply hstands.imp_right
    intro hleft hnone
    rw [hnone, ite_self] at hleft
    exact hleft rfl
  by_cases hstill : handler.crudHandler.fileStorage.Reaches next entity
  · right
    intro id'
    rw [stored_of_reaches hstill, stored_of_reaches hreaches, hcwd, hnodes]
    simp only [recordPath_eq_iff_id]
    by_cases hid : id' = id
    · rw [if_pos hid, decide_eq_false (not_not.mpr hid), Bool.false_and]
      rfl
    · rw [if_neg hid, decide_eq_true hid, Bool.true_and]
  · -- the directory that was removed was on the way to the others
    left
    intro id'
    rw [stored, CRUDHandler.exists?_eq, FileStorage.find?_eq, if_neg hstill]
    rfl

/-- What a request on the entity does to its records: nothing, a create of the
first free id, which brings to light all that stands, a delete of a record that
is there, or one of a directory that the way to all the others comes through. -/
inductive Change (handler : RequestHandlerAPI) (entity : Text)
    (call : Request × Response) (fs next : FileSystem) : Prop
  | same : (∀ id, handler.stored entity next id = handler.stored entity fs id) →
      Change handler entity call fs next
  | added {new : ℤ} : call.1.method = .post →
      (∀ id, 1 ≤ id → id < new → handler.stored entity fs id = true) →
      (∀ id, handler.stored entity next id = true ↔
        id = new ∨ handler.crudHandler.fileStorage.Stands fs entity id) →
      Change handler entity call fs next
  | dropped {old : ℤ} : call.1.method = .delete →
      Text.lexicalCast (call.1.target.afterLast '/') = some old →
      handler.stored entity fs old = true →
      (∀ id, handler.stored entity next id =
        (decide (id ≠ old) && handler.stored entity fs id)) →
      Change handler entity call fs next
  | lost : (∀ id, handler.stored entity next id = false) →
      Change handler entity call fs next

theorem serve_change {call : Request × Response} {answer : Response}
    (hsame : handler.crudHandler.fileStorage.SameDirectory fs.cwd
      (handler.readEntity entity) entity)
    (hon : handler.OnEntity entity call.1)
    (hanswer : handler.serve fs call = .ok (answer, next)) :
    next.cwd = fs.cwd ∧
      (∀ id, handler.crudHandler.fileStorage.Stands next entity id →
        1 ≤ id ∨ handler.crudHandler.fileStorage.Stands fs entity id) ∧
      Change handler entity call fs next := by
  have hrecord : ∀ entityId, call.1.method ≠ .post →
      handler.removePrefix call.1.target = some entityId →
      entityId.beforeLast '/' = handler.readEntity entity ∧
        entityId.afterLast '/' = call.1.target.afterLast '/' := by
    intro entityId hnotPost hstart
    rcases hon with ⟨hpost, _⟩ | ⟨_, idStr, hslash, htarget⟩
    · exact (hnotPost hpost).elim
    · rw [htarget, removePrefix_createTarget_append, Option.some_inj] at hstart
      rw [← hstart, htarget, Text.beforeLast_append_cons hslash,
        Text.afterLast_append_cons hslash, Text.afterLast_append_cons hslash]
      exact ⟨rfl, rfl⟩
  cases handleRequest_effect hanswer with
  | unchanged => exact ⟨rfl, fun _ => .inr, .same fun _ => rfl⟩
  | @created new _ hpost hid hwritten =>
      have hentity : call.1.target.afterLast '/' = entity := by
        rcases hon with ⟨_, hentity⟩ | ⟨hput | hdelete, _⟩
        · exact hentity
        · rw [hpost] at hput
          cases hput
        · rw [hpost] at hdelete
          cases hdelete
      rw [hentity] at hid hwritten
      rw [CRUDHandler.getNextId, CRUDHandler.nextIdLoop_eq_ok_iff] at hid
      obtain ⟨hcwd, hstored⟩ := stored_write (.refl _ _ _) hwritten
      refine ⟨hcwd, fun id hstands => ?_,
        .added hpost hid.2.2.2 fun id => (hstored id).2⟩
      rw [(hstored id).1, (hstored id).2] at hstands
      rcases hstands with heq | hold
      · exact .inl (heq ▸ hid.1)
      · exact .inr hold
  | @updated entityId old _ hput hstart _ hexists hwritten =>
      obtain ⟨hbefore, _⟩ := hrecord entityId (by rw [hput]; decide) hstart
      rw [hbefore] at hexists hwritten
      obtain ⟨hcwd, hstored⟩ := stored_write hsame hwritten
      rw [CRUDHandler.exists?_eq, hsame.find?_eq, Option.isSome_iff_exists]
        at hexists
      obtain ⟨node, hnode⟩ := hexists
      have hreaches := (FileStorage.find?_eq_some_iff.mp hnode).1
      -- what stands was found before, and so was the record
      have hbefore : ∀ id, handler.stored entity next id = true ↔
          handler.stored entity fs id = true := by
        intro id
        rw [(hstored id).2, hreaches.stands_iff, ← stored_eq_true_iff]
        apply or_iff_right_of_imp
        rintro rfl
        rw [stored_eq_true_iff, hnode]
        exact Option.some_ne_none node
      refine ⟨hcwd, fun id hstands => ?_,
        .same fun id => Bool.eq_iff_iff.mpr (hbefore id)⟩
      rw [(hstored id).1, hbefore] at hstands
      exact .inr (stands_of_stored hstands)
  | @deleted entityId old _ hdelete hstart hcast hexists hremoved =>
      obtain ⟨hbefore, hafter⟩ :=
        hrecord entityId (by rw [hdelete]; decide) hstart
      rw [hbefore] at hexists hremoved
      rw [hafter] at hcast
      have hpresent := stored_congr hsame old
      rw [stored, hexists] at hpresent
      rw [CRUDHandler.exists?_eq, Option.isSome_iff_exists] at hexists
      obtain ⟨node, hnode⟩ := hexists
      obtain ⟨hcwd, hstands, hstored⟩ := stored_remove hsame hnode hremoved
      refine ⟨hcwd, fun id hstill => .inr (hstands id hstill), ?_⟩
      rcases hstored with hlost | hdropped
      · exact .lost hlost
      · exact .dropped hdelete hcast hpresent.symm hdropped

theorem Change.noGap {call : Request × Response}
    (hchange : Change handler entity call fs next)
    (hend : handler.AtEnd entity fs call)
    (hgap : NoGap (handler.stored entity fs)) :
    NoGap (handler.stored entity next) := by
  obtain ⟨hbelow, hmax⟩ := hgap
  unfold AtEnd at hend
  cases hchange with
  | same hstored =>
      have heq : handler.stored entity next = handler.stored entity fs :=
        funext hstored
      rw [heq]
      exact ⟨hbelow, hmax⟩
  | @added new hpost hall hstored =>
      rw [hpost] at hend
      obtain ⟨hroom, hfound⟩ := hend
      constructor
      · intro id hid smaller hsmaller hlt
        rw [hstored] at hid
        have hbefore : handler.stored entity fs smaller = true := by
          rcases hid with heq | hold
          · exact hall smaller hsmaller (heq ▸ hlt)
          · exact hbelow id (hfound id hold) smaller hsmaller hlt
        exact (hstored smaller).mpr (.inr (stands_of_stored hbefore))
      · rw [← Bool.not_eq_true, hstored]
        rintro (heq | hold)
        · have hlast := hall (intMax - 1) (by decide) (by omega)
          rw [hroom] at hlast
          cases hlast
        · rw [hfound _ hold] at hmax
          cases hmax
  | @dropped old hdelete hcast hold hstored =>
      rw [hdelete] at hend
      constructor
      · intro id hid smaller hsmaller hlt
        rw [hstored, Bool.and_eq_true, decide_eq_true_eq] at hid
        have hlast : ¬ old < id := by
          intro hgt
          rw [hend old hcast hold id hgt] at hid
          cases hid.2
        rw [hstored, Bool.and_eq_true, decide_eq_true_eq]
        exact ⟨by omega, hbelow id hid.2 smaller hsmaller hlt⟩
      · rw [hstored, hmax, Bool.and_false]
  | lost hstored => exact ⟨fun id hid => by simp [hstored] at hid, hstored _⟩

theorem handleRequest_get_list (hentity : '/' ∉ entity)
    (hdigit : startsWithDigit entity = false) {get : Request}
    (hget : get.method = .get)
    (htarget : get.target = handler.createTarget entity) (res : Response)
    (fs : FileSystem) :
    ∃ typed : Response, handler.handleRequest get res fs =
      (handler.list (handler.readEntity entity) fs).map
        fun body => (typed.reply .ok body, fs) := by
  have hstart := removePrefix_createTarget_append handler entity []
  rw [List.append_nil, List.append_nil, ← htarget] at hstart
  have hlast : (handler.readEntity entity).afterLast '/' = entity := by
    unfold readEntity
    split
    next => exact Text.afterLast_of_not_mem hentity
    next => exact Text.afterLast_append_cons (s := []) hentity
  simp only [handleRequest, hget, handleGet, hstart, hlast, hdigit]
  refine ⟨Response.set { res with version := get.version } .contentType
    "application/json".toList, ?_⟩
  cases handler.list (handler.readEntity entity) fs <;> rfl

theorem listsRecords_iff (hentity : '/' ∉ entity)
    (hdigit : startsWithDigit entity = false)
    (hsame : handler.crudHandler.fileStorage.SameDirectory fs.cwd
      (handler.readEntity entity) entity)
    (hpos : ∀ id, handler.stored entity fs id = true → 1 ≤ id) :
    handler.ListsRecords entity fs ↔ NoGap (handler.stored entity fs) := by
  have hstored : ∀ id, handler.crudHandler.exists? (handler.readEntity entity)
      id fs = handler.stored entity fs id := stored_congr hsame
  rw [← lists_firstIds_iff hpos]
  constructor
  · intro hlists
    let get : Request :=
      ⟨"GET".toList, handler.createTarget entity, 11, [], []⟩
    obtain ⟨found, hfound, _, hbody⟩ := hlists get (.make .ok 11) rfl rfl
    have hget : get.method = .get := rfl
    obtain ⟨typed, hlist⟩ := handleRequest_get_list hentity hdigit hget rfl
      (.make .ok 11) fs
    rw [hfound, eq_comm, Machine.map_eq_ok_iff] at hlist
    obtain ⟨body, hbodies, hanswer⟩ := hlist
    cases hanswer
    obtain ⟨m, hlt, hfree, hbelow, rfl⟩ := list_eq_ok_iff.mp hbodies
    simp only [hstored] at hfree hbelow
    exact ⟨m, hlt, hfree, hbelow, hbody⟩
  · rintro ⟨m, hlt, hfree, hbelow, hbody⟩ get res hget htarget
    obtain ⟨typed, hlist⟩ :=
      handleRequest_get_list hentity hdigit hget htarget res fs
    have hbodies : handler.list (handler.readEntity entity) fs = .ok _ :=
      list_eq_ok_iff.mpr
        ⟨m, hlt, by rwa [hstored], by simpa only [hstored] using hbelow, rfl⟩
    rw [hbodies] at hlist
    exact ⟨_, hlist, rfl, hbody⟩

end

/-- After every run of requests on an entity, a list shows its records exactly
where no id in front of a record is free.  So it does as long as only the last
record is deleted. -/
theorem run_listsRecords_iff {handler : RequestHandlerAPI} {entity : Text}
    {fs last : FileSystem} {calls : List (Request × Response)}
    {answers : List Response} (hentity : '/' ∉ entity)
    (hdigit : startsWithDigit entity = false)
    (hsame : handler.crudHandler.fileStorage.SameDirectory fs.cwd
      (handler.readEntity entity) entity)
    (hpos : ∀ id, handler.crudHandler.fileStorage.Stands fs entity id → 1 ≤ id)
    (hcalls : ∀ call ∈ calls, handler.OnEntity entity call.1)
    (hrun : Machine.run handler.serve fs calls = .ok (answers, last)) :
    (handler.ListsRecords entity last ↔ NoGap (handler.stored entity last)) ∧
      (NoGap (handler.stored entity fs) →
        Machine.Before (handler.AtEnd entity) handler.serve fs calls →
        handler.ListsRecords entity last) := by
  let Inv : FileSystem → Prop := fun state =>
    state.cwd = fs.cwd ∧
      ∀ id, handler.crudHandler.fileStorage.Stands state entity id → 1 ≤ id
  have hstep : ∀ s (call : Request × Response) answer next, Inv s →
      handler.OnEntity entity call.1 → handler.serve s call = .ok (answer, next) →
      Inv next ∧ Change handler entity call s next := by
    intro s call answer next ⟨hcwd, hpos⟩ hon hanswer
    obtain ⟨hcwd', hstands, hchange⟩ :=
      serve_change (by rw [hcwd]; exact hsame) hon hanswer
    exact ⟨⟨hcwd'.trans hcwd, fun id hid => (hstands id hid).elim (fun hone => hone) (hpos id)⟩,
      hchange⟩
  have hlast : Inv last := Machine.run_invariant
    (fun s call answer next hinv hon hanswer =>
      (hstep s call answer next hinv hon hanswer).1)
    ⟨rfl, hpos⟩ (Machine.before_of_forall hcalls) hrun
  have hiff := listsRecords_iff hentity hdigit (by rw [hlast.1]; exact hsame)
    fun id hid => hlast.2 id (stands_of_stored hid)
  refine ⟨hiff, fun hgap hend => hiff.mpr ?_⟩
  have hstepGap : ∀ s (call : Request × Response) answer next,
      Inv s ∧ NoGap (handler.stored entity s) →
      handler.OnEntity entity call.1 ∧ handler.AtEnd entity s call →
      handler.serve s call = .ok (answer, next) →
      Inv next ∧ NoGap (handler.stored entity next) := by
    intro s call answer next hinv hcall hanswer
    obtain ⟨hnext, hchange⟩ := hstep s call answer next hinv.1 hcall.1 hanswer
    exact ⟨hnext, hchange.noGap hcall.2 hinv.2⟩
  exact (Machine.run_invariant hstepGap ⟨⟨rfl, hpos⟩, hgap⟩
    (hend.and_forall hcalls) hrun).2

/-- Two creates and a delete of the last record. -/
theorem run_listsRecords_iff_shoes :
    let handler : RequestHandlerAPI := ⟨⟨⟨"data/".toList⟩⟩, "/api".toList⟩
    let fs := FileSystem.empty ["srv".toList]
    let calls : List (Request × Response) :=
      [(⟨"POST".toList, "/api/Shoes".toList, 11, [], ['x']⟩, .make .ok 11),
        (⟨"POST".toList, "/api/Shoes".toList, 11, [], ['y']⟩, .make .ok 11),
        (⟨"DELETE".toList, "/api/Shoes/2".toList, 11, [], []⟩, .make .ok 11)]
    ∃ answers last, Machine.run handler.serve fs calls = .ok (answers, last) ∧
      ((handler.ListsRecords "Shoes".toList last ↔
          NoGap (handler.stored "Shoes".toList last)) ∧
        (NoGap (handler.stored "Shoes".toList fs) →
          Machine.Before (handler.AtEnd "Shoes".toList) handler.serve fs
            calls →
          handler.ListsRecords "Shoes".toList last)) := by
  intro handler fs calls
  have hok : (Machine.run handler.serve fs calls).toBool = true := by
    decide +kernel
  obtain ⟨⟨answers, last⟩, hrun⟩ := Machine.exists_of_toBool hok
  have hentity : PlainName "Shoes".toList := by simp [PlainName]
  have hdirectory : handler.crudHandler.fileStorage.directory fs.cwd
      (handler.readEntity "Shoes".toList) =
        handler.crudHandler.fileStorage.directory fs.cwd "Shoes".toList := by
    decide +kernel
  refine ⟨answers, last, hrun, run_listsRecords_iff hentity.2.2.2 ?_
    (FileStorage.sameDirectory_of_directory (by decide +kernel)
      hentity.up_not_mem hdirectory) ?_ ?_ hrun⟩
  · rfl
  · intro id hid
    rw [FileStorage.stands_iff_of_not_mem (by decide +kernel),
      FileStorage.find?_eq_node? (by decide +kernel)] at hid
    have hnone : fs.node? (handler.crudHandler.fileStorage.recordPath fs.cwd
        "Shoes".toList id) = none := by
      rw [FileSystem.node?_empty, if_neg]
      intro hsuffix
      have hbelow := (List.suffix_cons _ _).trans hsuffix
      revert hbelow
      decide +kernel
    exact (hid hnone).elim
  · simp only [calls, List.forall_mem_cons]
    refine ⟨.inl ⟨rfl, by decide +kernel⟩, .inl ⟨rfl, by decide +kernel⟩,
      .inr ⟨.inr rfl, ['2'], by simp, by decide +kernel⟩, by simp⟩

/-- Behind the gap that a delete of the first record leaves, the second record
is there and not listed. -/
theorem not_listsRecords_shoes :
    let handler : RequestHandlerAPI := ⟨⟨⟨"data/".toList⟩⟩, "/api".toList⟩
    let calls : List (Request × Response) :=
      [(⟨"POST".toList, "/api/Shoes".toList, 11, [], ['x']⟩, .make .ok 11),
        (⟨"POST".toList, "/api/Shoes".toList, 11, [], ['y']⟩, .make .ok 11),
        (⟨"DELETE".toList, "/api/Shoes/1".toList, 11, [], []⟩, .make .ok 11)]
    ∃ answers last, Machine.run handler.serve
        (FileSystem.empty ["srv".toList]) calls = .ok (answers, last) ∧
      (∀ answer ∈ answers, answer.result = .ok) ∧
      handler.stored "Shoes".toList last 2 = true ∧
      (handler.serve last
        (⟨"GET".toList, "/api/Shoes".toList, 11, [], []⟩, .make .ok 11)).map
          (fun answer => answer.1.body) = .ok "[]".toList ∧
      ¬ handler.ListsRecords "Shoes".toList last := by
  intro handler calls
  have hresult : (Machine.run handler.serve (FileSystem.empty ["srv".toList])
      calls).map (fun result => (result.1.all fun answer =>
        decide (answer.result = .ok), handler.stored "Shoes".toList result.2 2,
        (handler.serve result.2
          (⟨"GET".toList, "/api/Shoes".toList, 11, [], []⟩,
            .make .ok 11)).map fun answer => answer.1.body)) =
      .ok (true, true, .ok "[]".toList) := by
    decide +kernel
  obtain ⟨⟨answers, last⟩, hrun, hlast⟩ := Machine.map_eq_ok_iff.mp hresult
  simp only [Prod.mk.injEq] at hlast
  obtain ⟨hanswers, hstored, hbody⟩ := hlast
  refine ⟨answers, last, hrun, ?_, hstored, hbody, fun hlists => ?_⟩
  · simpa using hanswers
  · obtain ⟨answer, hanswer, _, ids, _, hmem, heq⟩ :=
      hlists ⟨"GET".toList, "/api/Shoes".toList, 11, [], []⟩ (.make .ok 11)
        rfl (by decide +kernel)
    rw [serve, hanswer] at hbody
    have hnone : joined ids = [] := by
      have hempty : answer.body = "[]".toList := Except.ok.inj hbody
      rw [heq] at hempty
      have hlength := congrArg List.length hempty
      simp at hlength
      exact hlength
    have hids : ids = [] := joined_injective (hnone.trans rfl)
    have htwo := (hmem 2).mpr hstored
    rw [hids] at htwo
    cases htwo

end RequestHandlerAPI

end Swifties
