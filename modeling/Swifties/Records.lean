import Swifties.CrudHandler
import Swifties.Machine

/-!
# The record store as a finite map

What `CRUDHandler` is for: a finite map from entities and ids to data, on which
the five calls act.  A create takes the least positive id that the entity does
not use.
-/

namespace Swifties

inductive CrudCall where
  | create (entity data : Text)
  | read (entity : Text) (id : ℤ)
  | update (entity : Text) (id : ℤ) (data : Text)
  | delete (entity : Text) (id : ℤ)
  | exists (entity : Text) (id : ℤ)
deriving DecidableEq, Repr

inductive CrudReply where
  | text (value : Text)
  | flag (value : Bool)
deriving DecidableEq, Repr

def CrudCall.entity : CrudCall → Text
  | .create entity _ => entity
  | .read entity _ => entity
  | .update entity _ _ => entity
  | .delete entity _ => entity
  | .exists entity _ => entity

abbrev Records := Finmap fun _ : Text × ℤ => Text

namespace Records

def idsOf (records : Records) (entity : Text) : Finset (Text × ℤ) :=
  records.keys.filter fun key => key.1 = entity

def Free (records : Records) (entity : Text) (id : ℕ) : Prop :=
  0 < id ∧ records.lookup (entity, (id : ℤ)) = none

noncomputable def leastFree (records : Records) (entity : Text) : ℕ :=
  sInf {id | records.Free entity id}

noncomputable def step (records : Records) : CrudCall → CrudReply × Records
  | .create entity data =>
      let id : ℤ := records.leastFree entity
      (.text (CRUDHandler.idResponse id), records.insert (entity, id) data)
  | .read entity id => (.text ((records.lookup (entity, id)).getD []), records)
  | .update entity id data =>
      if (records.lookup (entity, id)).isSome then
        (.flag true, records.insert (entity, id) data)
      else (.flag false, records)
  | .delete entity id =>
      if (records.lookup (entity, id)).isSome then
        (.flag true, records.erase (entity, id))
      else (.flag false, records)
  | .exists entity id =>
      (.flag (records.lookup (entity, id)).isSome, records)

/-- An entity with fewer than `bound` records leaves one of the ids up to
`bound` free. -/
theorem exists_free_le {records : Records} {entity : Text} {bound : ℕ}
    (hcard : (records.idsOf entity).card < bound) :
    ∃ id, records.Free entity id ∧ id ≤ bound := by
  by_contra hnone
  have hsubset : (Finset.Icc 1 bound).image (fun id : ℕ => (entity, (id : ℤ))) ⊆
      records.idsOf entity := by
    intro key hkey
    obtain ⟨id, hid, rfl⟩ := Finset.mem_image.mp hkey
    rw [Finset.mem_Icc] at hid
    rw [idsOf, Finset.mem_filter, Finmap.mem_keys, ← Finmap.lookup_isSome]
    refine ⟨?_, rfl⟩
    by_contra habsent
    rw [Option.not_isSome_iff_eq_none] at habsent
    exact hnone ⟨id, ⟨hid.1, habsent⟩, hid.2⟩
  have hinjective : Function.Injective fun id : ℕ => (entity, (id : ℤ)) := by
    intro a b heq
    simpa using heq
  have hle := Finset.card_le_card hsubset
  rw [Finset.card_image_of_injective _ hinjective, Nat.card_Icc] at hle
  omega

theorem leastFree_spec {records : Records} {entity : Text} {bound : ℕ}
    (hcard : (records.idsOf entity).card < bound) :
    records.Free entity (records.leastFree entity) ∧
      records.leastFree entity ≤ bound ∧
      ∀ id : ℕ, 0 < id → id < records.leastFree entity →
        (records.lookup (entity, (id : ℤ))).isSome = true := by
  obtain ⟨id, hfree, hle⟩ := exists_free_le hcard
  have hmem : {id | records.Free entity id}.Nonempty := ⟨id, hfree⟩
  refine ⟨Nat.sInf_mem hmem, (Nat.sInf_le hfree).trans hle, ?_⟩
  intro other hpos hlt
  have hnot : ¬ records.Free entity other := Nat.notMem_of_lt_sInf hlt
  by_contra habsent
  rw [Option.not_isSome_iff_eq_none] at habsent
  exact hnot ⟨hpos, habsent⟩

theorem card_idsOf_insert_le (records : Records) (key : Text × ℤ) (data : Text)
    (entity : Text) :
    (idsOf (records.insert key data) entity).card ≤
      (records.idsOf entity).card + 1 := by
  have hsubset : idsOf (records.insert key data) entity ⊆
      insert key (records.idsOf entity) := by
    intro other hother
    simp only [idsOf, Finset.mem_filter, Finset.mem_insert, Finmap.mem_keys,
      Finmap.mem_insert] at hother ⊢
    rcases hother with ⟨rfl | hmem, hentity⟩
    · exact .inl rfl
    · exact .inr ⟨hmem, hentity⟩
  exact (Finset.card_le_card hsubset).trans (Finset.card_insert_le _ _)

theorem card_idsOf_erase_le (records : Records) (key : Text × ℤ)
    (entity : Text) :
    (idsOf (records.erase key) entity).card ≤ (records.idsOf entity).card := by
  apply Finset.card_le_card
  intro other hother
  simp only [idsOf, Finset.mem_filter, Finmap.mem_keys, Finmap.mem_erase]
    at hother ⊢
  exact ⟨hother.1.2, hother.2⟩

end Records

end Swifties
