import Swifties.BlockPointers

/-!
# Orders on the statements of a tree

All statements of a tree of blocks, in document order or one level of nesting
after the other.  A property of words that every shift respects holds all over
the tree.
-/

namespace Swifties
namespace BlockGrammar

variable {α : Type}

mutual

/-- Every statement in front of the statements of its own block. -/
def preorder : List (Statement α) → List (Statement α)
  | [] => []
  | statement :: rest =>
      statement :: (preorderBelow statement ++ preorder rest)

def preorderBelow : Statement α → List (Statement α)
  | .simple _ => []
  | .block _ body => preorder body

end

/-- The statements that stand in exactly `depth` blocks, in document order. -/
def level : ℕ → List (Statement α) → List (Statement α)
  | 0, tree => tree
  | depth + 1, tree =>
      level depth (tree.flatMap fun statement => statement.body?.getD [])

theorem level_nil (depth : ℕ) : level depth ([] : List (Statement α)) = [] := by
  induction depth with
  | zero => rfl
  | succ depth ih => exact ih

theorem level_append (depth : ℕ) (tree tree' : List (Statement α)) :
    level depth (tree ++ tree') = level depth tree ++ level depth tree' := by
  induction depth generalizing tree tree' with
  | zero => rfl
  | succ depth ih => rw [level, List.flatMap_append, ih, level, level]

theorem level_succ_cons_block (depth : ℕ) (words : List α)
    (body rest : List (Statement α)) :
    level (depth + 1) (.block words body :: rest) =
      level depth body ++ level (depth + 1) rest := by
  rw [level, List.flatMap_cons, level_append]
  rfl

theorem preorder_append (tree tree' : List (Statement α)) :
    preorder (tree ++ tree') = preorder tree ++ preorder tree' := by
  induction tree with
  | nil => rfl
  | cons statement tree ih =>
      rw [List.cons_append, preorder, preorder, ih, List.cons_append,
        List.append_assoc]

/-! ## Words of all statements -/

/-- Every statement of the tree has words, and all of them have the property. -/
def AllWords (P : α → Prop) (tree : List (Statement α)) : Prop :=
  ∀ statement ∈ preorder tree,
    statement.words ≠ [] ∧ ∀ a ∈ statement.words, P a

theorem allWords_nil (P : α → Prop) : AllWords P [] := by
  simp [AllWords, preorder]

theorem AllWords.concat {P : α → Prop} {tree : List (Statement α)}
    (htree : AllWords P tree) {statement : Statement α}
    (hwords : statement.words ≠ [] ∧ ∀ a ∈ statement.words, P a)
    (hbelow : AllWords P (statement.body?.getD [])) :
    AllWords P (tree ++ [statement]) := by
  have hbody : preorderBelow statement = preorder (statement.body?.getD []) := by
    cases statement <;> rfl
  intro other hmem
  rw [preorder_append, preorder, preorder, List.append_nil, List.mem_append,
    List.mem_cons, hbody] at hmem
  rcases hmem with hmem | rfl | hmem
  · exact htree other hmem
  · exact hwords
  · exact hbelow other hmem

/-- All statements read so far have words with the property. -/
structure Partial.AllWords (P : α → Prop) (p : Partial α) : Prop where
  frames : ∀ frame ∈ p.frames, BlockGrammar.AllWords P frame.before ∧
    frame.words ≠ [] ∧ ∀ a ∈ frame.words, P a
  finished : BlockGrammar.AllWords P p.finished
  pending : ∀ a ∈ p.pending, P a

theorem Partial.AllWords.shift {P : α → Prop} {p q : Partial α} {s : Symbol α}
    (hall : p.AllWords P) (hword : ∀ a, s = .word a → P a)
    (hshift : p.shift s = some q) : q.AllWords P := by
  obtain ⟨frames, finished, pending⟩ := p
  obtain ⟨hframes, hfinished, hpending⟩ := hall
  cases s with
  | word a =>
      cases hshift
      refine ⟨hframes, hfinished, ?_⟩
      rw [List.forall_mem_append, List.forall_mem_singleton]
      exact ⟨hpending, hword a rfl⟩
  | terminator =>
      cases pending with
      | nil => cases hshift
      | cons a as =>
          cases hshift
          have hwords : (Statement.simple (a :: as)).words ≠ [] ∧
              ∀ b ∈ (Statement.simple (a :: as)).words, P b :=
            ⟨List.cons_ne_nil a as, hpending⟩
          exact ⟨hframes, hfinished.concat hwords (allWords_nil P), by simp⟩
  | openBlock =>
      cases pending with
      | nil => cases hshift
      | cons a as =>
          cases hshift
          refine ⟨?_, allWords_nil P, by simp⟩
          rw [List.forall_mem_cons]
          exact ⟨⟨hfinished, List.cons_ne_nil a as, hpending⟩, hframes⟩
  | closeBlock =>
      cases pending with
      | cons a as => cases hshift
      | nil =>
          cases frames with
          | nil => cases hshift
          | cons frame frames =>
              cases hshift
              rw [List.forall_mem_cons] at hframes
              obtain ⟨hbefore, hwords⟩ := hframes.1
              exact ⟨hframes.2, hbefore.concat hwords hfinished, by simp⟩

theorem AllWords.plugFrames {P : α → Prop} {frames : List (Frame α)}
    (hframes : ∀ frame ∈ frames, AllWords P frame.before ∧
      frame.words ≠ [] ∧ ∀ a ∈ frame.words, P a) {c : List (Statement α)}
    (hc : AllWords P c) : AllWords P (plugFrames frames c) := by
  induction frames generalizing c with
  | nil => exact hc
  | cons frame frames ih =>
      rw [List.forall_mem_cons] at hframes
      obtain ⟨hbefore, hwords⟩ := hframes.1
      exact ih hframes.2 (hbefore.concat hwords hc)

end BlockGrammar
end Swifties
