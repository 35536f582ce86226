import Swifties.BlockOrders

/-!
# Where statements stand in a tree

All statements of a tree of blocks in document order, each with the number of
blocks around it and whether a search for the marked statements comes to it: a
block is searched up to its first marked statement, and the blocks in it only
when it has none.
-/

namespace Swifties
namespace BlockGrammar

variable {α β : Type}

structure Site (α : Type) where
  depth : ℕ
  first : Bool
  statement : Statement α

section

variable (marked : Statement α → Bool)

mutual

/-- The sites of a block.  `passed` says that a marked statement stands in front
of them in the block, or directly in a block around it, and `hidden` that one
stands anywhere directly in the block, or in one around it. -/
def sitesFrom (depth : ℕ) (passed hidden : Bool) :
    List (Statement α) → List (Site α)
  | [] => []
  | statement :: rest =>
      ⟨depth, !passed, statement⟩ ::
        (sitesBelow (depth + 1) hidden statement ++
          sitesFrom depth (passed || marked statement) hidden rest)

def sitesBelow (depth : ℕ) (hidden : Bool) : Statement α → List (Site α)
  | .simple _ => []
  | .block _ body => sitesFrom depth hidden (hidden || body.any marked) body

end

def sites (tree : List (Statement α)) : List (Site α) :=
  sitesFrom marked 0 false (tree.any marked) tree

theorem le_depth_of_mem_sitesFrom : ∀ {tree : List (Statement α)}
    {depth : ℕ} {passed hidden : Bool} {site : Site α},
      site ∈ sitesFrom marked depth passed hidden tree → depth ≤ site.depth
  | [], _, _, _, _, hmem => by cases hmem
  | .simple words :: rest, depth, passed, hidden, site, hmem => by
      rw [sitesFrom, sitesBelow, List.nil_append, List.mem_cons] at hmem
      rcases hmem with rfl | hrest
      · exact le_rfl
      · exact le_depth_of_mem_sitesFrom hrest
  | .block words body :: rest, depth, passed, hidden, site, hmem => by
      rw [sitesFrom, sitesBelow, List.mem_cons, List.mem_append] at hmem
      rcases hmem with rfl | hbody | hrest
      · exact le_rfl
      · have hle := le_depth_of_mem_sitesFrom hbody
        omega
      · exact le_depth_of_mem_sitesFrom hrest

/-- A walk over the sites of one depth is a walk over that level. -/
theorem findSome?_level (f : Statement α → Option β) :
    ∀ (tree : List (Statement α)) (base depth : ℕ) (passed hidden : Bool),
      (level depth tree).findSome? f =
        (sitesFrom marked base passed hidden tree).findSome? fun site =>
          if site.depth = base + depth then f site.statement else none
  | [], base, depth, passed, hidden => by
      rw [level_nil]
      rfl
  | .simple words :: rest, base, 0, passed, hidden => by
      have hrest := findSome?_level f rest base 0 (passed || marked (.simple words))
        hidden
      rw [sitesFrom, sitesBelow, List.nil_append, List.findSome?_cons, ← hrest,
        Nat.add_zero, if_pos rfl, level, List.findSome?_cons]
      rfl
  | .simple words :: rest, base, depth + 1, passed, hidden => by
      have hrest := findSome?_level f rest base (depth + 1)
        (passed || marked (.simple words)) hidden
      have hdepth : base ≠ base + (depth + 1) := by omega
      rw [sitesFrom, sitesBelow, List.nil_append, List.findSome?_cons, ← hrest,
        if_neg hdepth]
      rfl
  | .block words body :: rest, base, 0, passed, hidden => by
      have hrest := findSome?_level f rest base 0
        (passed || marked (.block words body)) hidden
      have hbelow : (sitesFrom marked (base + 1) hidden
          (hidden || body.any marked) body).findSome? (fun site =>
            if site.depth = base + 0 then f site.statement else none) =
          none := by
        rw [List.findSome?_eq_none_iff]
        intro site hsite
        have hle := le_depth_of_mem_sitesFrom marked hsite
        exact if_neg (by omega)
      rw [sitesFrom, sitesBelow, List.findSome?_cons, List.findSome?_append,
        hbelow, ← hrest, Nat.add_zero, if_pos rfl, level, List.findSome?_cons]
      rfl
  | .block words body :: rest, base, depth + 1, passed, hidden => by
      have hrest := findSome?_level f rest base (depth + 1)
        (passed || marked (.block words body)) hidden
      have hbody := findSome?_level f body (base + 1) depth hidden
        (hidden || body.any marked)
      have hdepth : base ≠ base + (depth + 1) := by omega
      rw [show base + 1 + depth = base + (depth + 1) by omega] at hbody
      rw [level_succ_cons_block, sitesFrom, sitesBelow, List.findSome?_cons,
        List.findSome?_append, List.findSome?_append, hbody, hrest,
        if_neg hdepth]

/-! ## The first marked statements -/

theorem findSome?_first_hidden (f : Statement α → Option β) :
    ∀ (tree : List (Statement α)) (depth : ℕ),
      ((sitesFrom marked depth true true tree).findSome? fun site =>
        if site.first = true then f site.statement else none) = none
  | [], _ => rfl
  | .simple words :: rest, depth => by
      rw [sitesFrom, sitesBelow, List.nil_append, List.findSome?_cons,
        Bool.true_or, findSome?_first_hidden f rest depth]
      rfl
  | .block words body :: rest, depth => by
      rw [sitesFrom, sitesBelow, List.findSome?_cons, List.findSome?_append,
        Bool.true_or, Bool.true_or, findSome?_first_hidden f rest depth,
        findSome?_first_hidden f body (depth + 1)]
      rfl

variable {marked}

/-- In a block with a marked statement the search sees its first one only. -/
theorem findSome?_first_marked {f : Statement α → Option β}
    (hf : ∀ statement, marked statement = false → f statement = none)
    {tree : List (Statement α)} (hany : tree.any marked = true) (depth : ℕ) :
    ((sitesFrom marked depth false true tree).findSome? fun site =>
      if site.first = true then f site.statement else none) =
      (tree.find? marked).bind f := by
  induction tree with
  | nil => cases hany
  | cons statement rest ih =>
      have hbelow : ((sitesBelow marked (depth + 1) true statement).findSome?
          fun site => if site.first = true then f site.statement else none) =
            none := by
        cases statement with
        | simple words => rfl
        | block words body =>
            rw [sitesBelow, Bool.true_or]
            exact findSome?_first_hidden marked f body (depth + 1)
      rw [sitesFrom, List.findSome?_cons, List.findSome?_append, hbelow]
      cases hmarked : marked statement with
      | true =>
          rw [Bool.false_or, findSome?_first_hidden, List.find?_cons, hmarked]
          change _ = f statement
          cases f statement <;> rfl
      | false =>
          rw [List.any_cons, hmarked, Bool.false_or] at hany
          rw [Bool.false_or, ih hany, List.find?_cons, hmarked, hf _ hmarked]
          rfl

end

end BlockGrammar
end Swifties
