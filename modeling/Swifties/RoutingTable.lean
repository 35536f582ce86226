import Mathlib

/-!
# Routing tables

A table from keys to values that is filled first come first served and searched
by longest prefix.  The search goes through the entries in key order and keeps
the longest key so far that is a prefix of the target, starting from the empty
one, which is therefore never found.
-/

namespace Swifties
namespace RoutingTable

variable {α β : Type} [DecidableEq α]

/-! ## The scan for the longest prefix -/

/-- One entry of the scan: it replaces the best so far when it is a prefix of
the target and strictly longer. -/
def better (target : List α) (best : List α × Option β) (key : List α)
    (value : β) : List α × Option β :=
  if target.take key.length = key then
    if key.length > best.1.length then (key, some value) else best
  else best

theorem better_eq (target : List α) (best : List α × Option β)
    (key : List α) (value : β) :
    better target best key value =
      if key <+: target ∧ best.1.length < key.length then (key, some value)
      else best := by
  have hstart : target.take key.length = key ↔ key <+: target := by
    rw [List.prefix_iff_eq_take, eq_comm]
  simp only [better, hstart, ite_and]

theorem foldl_better (target : List α) (entries : List (List α × β))
    (best : List α × Option β) :
    let last := entries.foldl (fun b e => better target b e.1 e.2) best
    (last = best ∨ ∃ entry ∈ entries, last = (entry.1, some entry.2) ∧
      entry.1 <+: target ∧ best.1.length < entry.1.length) ∧
      best.1.length ≤ last.1.length ∧
      ∀ entry ∈ entries, entry.1 <+: target →
        entry.1.length ≤ last.1.length := by
  induction entries generalizing best with
  | nil => simp
  | cons entry entries ih =>
      simp only [List.foldl_cons]
      obtain ⟨hlast, hgrow, hmax⟩ := ih (better target best entry.1 entry.2)
      rw [better_eq] at hlast hgrow hmax ⊢
      split at hlast
      next hbetter =>
        rw [if_pos hbetter] at hgrow hmax ⊢
        refine ⟨.inr ?_, hbetter.2.le.trans hgrow, ?_⟩
        · rcases hlast with heq | ⟨other, hmem, heq, hstart, hlt⟩
          · exact ⟨entry, by simp, heq, hbetter⟩
          · exact ⟨other, by simp [hmem], heq, hstart, hbetter.2.trans hlt⟩
        · intro other hmem hstart
          rcases List.mem_cons.mp hmem with rfl | hmem
          · exact hgrow
          · exact hmax other hmem hstart
      next hworse =>
        rw [if_neg hworse] at hgrow hmax ⊢
        refine ⟨?_, hgrow, ?_⟩
        · rcases hlast with heq | ⟨other, hmem, heq, hstart, hlt⟩
          · exact .inl heq
          · exact .inr ⟨other, by simp [hmem], heq, hstart, hlt⟩
        · intro other hmem hstart
          rcases List.mem_cons.mp hmem with rfl | hmem
          · simp only [hstart, true_and, not_lt] at hworse
            exact hworse.trans hgrow
          · exact hmax other hmem hstart

/-! ## Registration -/

theorem find?_perm {routes routes' : List (List α × β)}
    (hperm : routes.Perm routes') (hnodup : (routes.map Prod.fst).Nodup)
    (key : List α) :
    (routes.find? fun route => decide (route.1 = key)) =
      routes'.find? fun route => decide (route.1 = key) := by
  induction hperm with
  | nil => rfl
  | cons route _ ih =>
      rw [List.map_cons, List.nodup_cons] at hnodup
      simp only [List.find?_cons, ih hnodup.2]
  | swap first second routes =>
      simp only [List.map_cons, List.nodup_cons, List.mem_cons, not_or]
        at hnodup
      by_cases hfirst : first.1 = key
      · have hsecond : second.1 ≠ key := fun heq =>
          hnodup.1.1 (heq.trans hfirst.symm)
        simp [hfirst, hsecond]
      · simp [List.find?_cons, hfirst]
  | trans hperm _ ih ih' =>
      exact (ih hnodup).trans (ih' ((hperm.map Prod.fst).nodup_iff.mp hnodup))

abbrev Table (α β : Type) [Ord α] := Std.TreeMap (List α) β

variable [Ord α] [Std.TransOrd α] [Std.LawfulEqOrd α]

def register (table : Table α β) (route : List α × β) : Bool × Table α β :=
  if table.contains route.1 then (false, table)
  else (true, table.insert route.1 route.2)

def registerAll : Table α β → List (List α × β) → ℕ × Table α β
  | table, [] => (0, table)
  | table, route :: routes =>
      let first := register table route
      let rest := registerAll first.2 routes
      (rest.1 + first.1.toNat, rest.2)

theorem getElem?_insert (table : Table α β) (key other : List α) (value : β) :
    (table.insert key value)[other]? =
      if key = other then some value else table[other]? := by
  simp only [Std.TreeMap.getElem?_insert, Std.LawfulEqCmp.compare_eq_iff_eq]

theorem getElem?_register (table : Table α β) (route : List α × β)
    (key : List α) :
    (register table route).2[key]? =
      table[key]?.or (if route.1 = key then some route.2 else none) := by
  rw [register, Std.TreeMap.contains_eq_isSome_getElem?]
  by_cases hkey : route.1 = key
  · subst hkey
    cases htaken : table[route.1]? <;> simp [htaken]
  · split <;> simp [getElem?_insert, hkey]

/-- The first route of each key wins, and only where the table had none. -/
theorem getElem?_registerAll (table : Table α β) (routes : List (List α × β))
    (key : List α) :
    (registerAll table routes).2[key]? =
      table[key]?.or
        ((routes.find? fun route => decide (route.1 = key)).map Prod.snd) := by
  induction routes generalizing table with
  | nil => simp [registerAll]
  | cons route routes ih =>
      rw [registerAll]
      simp only [ih, getElem?_register, Option.or_assoc]
      congr 1
      by_cases hkey : route.1 = key
      · simp [hkey]
      · simp [hkey]

theorem registerAll_fst (table : Table α β) (routes : List (List α × β)) :
    (registerAll table routes).1 =
      ((routes.map Prod.fst).toFinset.filter
        fun key => table[key]? = none).card := by
  induction routes generalizing table with
  | nil => rfl
  | cons route routes ih =>
      rw [registerAll]
      have hadded : (register table route).1 = table[route.1]?.isNone := by
        rw [register, Std.TreeMap.contains_eq_isSome_getElem?]
        cases table[route.1]? <;> rfl
      simp only [ih, hadded, List.map_cons, List.toFinset_cons,
        Finset.filter_insert]
      cases htaken : table[route.1]? with
      | some value =>
          have hsame : ∀ key : List α,
              (register table route).2[key]? = none ↔ table[key]? = none := by
            intro key
            rw [getElem?_register, Option.or_eq_none_iff]
            constructor
            · exact And.left
            · intro hnone
              refine ⟨hnone, if_neg ?_⟩
              rintro rfl
              simp [htaken] at hnone
          simp [hsame]
      | none =>
          have hnew : ∀ key : List α, (register table route).2[key]? = none ↔
              key ≠ route.1 ∧ table[key]? = none := by
            intro key
            rw [getElem?_register, Option.or_eq_none_iff, and_comm]
            simp [eq_comm]
          simp only [hnew, Option.isNone_none, Bool.toNat_true, if_true]
          rw [← Finset.card_insert_of_notMem (a := route.1) (by simp)]
          congr 1
          ext key
          simp only [Finset.mem_insert, Finset.mem_filter, List.mem_toFinset]
          by_cases hkey : key = route.1
          · simp [hkey]
          · simp [hkey]

/-! ## Search -/

def longestMatch (table : Table α β) (target : List α) : Option β :=
  (table.foldl (better target) ([], none)).2

/-- The key of the table that is the longest nonempty prefix of the target. -/
structure IsLongestPrefix (table : Table α β) (target key : List α) :
    Prop where
  isPrefix : key <+: target
  ne_nil : key ≠ []
  longest : ∀ other value, table[other]? = some value → other <+: target →
    other.length ≤ key.length

theorem longestMatch_eq_some_iff {table : Table α β} {target : List α}
    {value : β} :
    longestMatch table target = some value ↔
      ∃ key, table[key]? = some value ∧ IsLongestPrefix table target key := by
  have hentry : ∀ key value, (key, value) ∈ table.toList ↔
      table[key]? = some value := fun _ _ =>
    Std.TreeMap.mem_toList_iff_getElem?_eq_some
  obtain ⟨hlast, _, hmax⟩ := foldl_better target table.toList ([], none)
  rw [longestMatch, Std.TreeMap.foldl_eq_foldl_toList]
  generalize table.toList.foldl
    (fun b e => better target b e.1 e.2) ([], none) = last at hlast hmax ⊢
  have hlongest : ∀ other value, table[other]? = some value →
      other <+: target → other.length ≤ last.1.length :=
    fun other value hvalue => hmax (other, value) ((hentry _ _).mpr hvalue)
  constructor
  · intro hvalue
    rcases hlast with rfl | ⟨⟨key, found⟩, hmem, rfl, hstart, hlt⟩
    · simp at hvalue
    · simp only [Option.some.injEq] at hvalue
      subst hvalue
      refine ⟨key, (hentry _ _).mp hmem, hstart, ?_, hlongest⟩
      rintro rfl
      simp at hlt
  · rintro ⟨key, hvalue, hstart, hne, hmaxKey⟩
    have hle := hlongest key value hvalue hstart
    rcases hlast with rfl | ⟨⟨other, found⟩, hmem, rfl, hstart', hlt⟩
    · simp [hne] at hle
    · have hfound := (hentry _ _).mp hmem
      have hge := hmaxKey other found hfound hstart'
      have heq : key = other := by
        apply List.IsPrefix.eq_of_length _ (le_antisymm hle hge)
        exact List.prefix_of_prefix_length_le hstart hstart' hle
      rw [heq, hfound] at hvalue
      exact hvalue

theorem longestMatch_isSome {table : Table α β} {target key : List α}
    {value : β} (hvalue : table[key]? = some value) (hne : key ≠ [])
    (hstart : key <+: target) :
    ∃ found, longestMatch table target = some found := by
  obtain ⟨hlast, _, hmax⟩ := foldl_better target table.toList ([], none)
  rw [longestMatch, Std.TreeMap.foldl_eq_foldl_toList]
  have hle := hmax (key, value)
    (Std.TreeMap.mem_toList_iff_getElem?_eq_some.mpr hvalue) hstart
  rcases hlast with heq | ⟨entry, _, heq, _⟩
  · simp [heq, hne] at hle
  · exact ⟨entry.2, by rw [heq]⟩

theorem longestMatch_congr {table table' : Table α β}
    (hsame : ∀ key : List α, table[key]? = table'[key]?) (target : List α) :
    longestMatch table target = longestMatch table' target := by
  have hlongest : ∀ key, IsLongestPrefix table target key ↔
      IsLongestPrefix table' target key := by
    intro key
    constructor
    · rintro ⟨hstart, hne, hmax⟩
      exact ⟨hstart, hne, fun other value hvalue =>
        hmax other value ((hsame other).trans hvalue)⟩
    · rintro ⟨hstart, hne, hmax⟩
      exact ⟨hstart, hne, fun other value hvalue =>
        hmax other value ((hsame other).symm.trans hvalue)⟩
  apply Option.ext
  intro value
  simp only [longestMatch_eq_some_iff, hsame, hlongest]

/-! ## Growth -/

/-- The second table has all entries of the first one, and so many more. -/
structure Grows (added : ℕ) (table next : Table α β) : Prop where
  kept : ∀ (key : List α) (value : β), table[key]? = some value →
    next[key]? = some value
  size_eq : next.size = table.size + added

omit [DecidableEq α] [Std.TransOrd α] [Std.LawfulEqOrd α] in
theorem Grows.refl (table : Table α β) : Grows 0 table table :=
  ⟨fun _ _ hvalue => hvalue, rfl⟩

omit [DecidableEq α] [Std.TransOrd α] [Std.LawfulEqOrd α] in
theorem Grows.trans {m n : ℕ} {table next last : Table α β}
    (hfirst : Grows m table next) (hsecond : Grows n next last) :
    Grows (n + m) table last := by
  constructor
  · intro key value hvalue
    exact hsecond.kept key value (hfirst.kept key value hvalue)
  · rw [hsecond.size_eq, hfirst.size_eq]
    omega

theorem Grows.insert {table : Table α β} {key : List α}
    (habsent : table.contains key = false) (value : β) :
    Grows 1 table (table.insert key value) := by
  constructor
  · intro other found hfound
    rw [getElem?_insert, if_neg, hfound]
    rintro rfl
    rw [Std.TreeMap.contains_eq_isSome_getElem?, hfound] at habsent
    cases habsent
  · rw [Std.TreeMap.size_insert, if_neg]
    rw [habsent]
    exact Bool.false_ne_true

/-- In a table that has grown, a target finds what it found before, or a new
entry whose key goes further along the target. -/
theorem Grows.longestMatch_cases {added : ℕ} {table next : Table α β}
    (hgrows : Grows added table next) {target : List α} {value : β}
    (hvalue : longestMatch table target = some value) :
    ∃ found, longestMatch next target = some found ∧
      (found = value ∨ ∃ key other : List α, table[key]? = some value ∧
        table[other]? = none ∧ next[other]? = some found ∧
        key <+: other ∧ key ≠ other ∧ other <+: target) := by
  obtain ⟨key, hkey, hlongest⟩ := longestMatch_eq_some_iff.mp hvalue
  have hkept := hgrows.kept key value hkey
  obtain ⟨found, hfound⟩ :=
    longestMatch_isSome hkept hlongest.ne_nil hlongest.isPrefix
  obtain ⟨other, hother, hfurther⟩ := longestMatch_eq_some_iff.mp hfound
  have hstart : key <+: other :=
    List.prefix_of_prefix_length_le hlongest.isPrefix hfurther.isPrefix
      (hfurther.longest key value hkept hlongest.isPrefix)
  refine ⟨found, hfound, ?_⟩
  by_cases heq : key = other
  · left
    rw [← heq, hkept] at hother
    exact (Option.some.inj hother).symm
  · right
    refine ⟨key, other, hkey, ?_, hother, hstart, heq, hfurther.isPrefix⟩
    cases hold : table[other]? with
    | none => rfl
    | some earlier =>
        have hle := hlongest.longest other earlier hold hfurther.isPrefix
        exact (heq (hstart.eq_of_length_le hle)).elim

end RoutingTable
end Swifties
