import Swifties.BlockSymbols
import Swifties.ConfigGrammar

/-!
# What `Parse` leaves behind

`Parse` stops at the first symbol that has no place there and leaves the tree as
far as it was built, so the result and the tree depend on the symbols up to this
one, and tell them.
-/

namespace Swifties

open BlockGrammar

theorem outcome_congr {p : Partial Text} {w w' : List (Symbol Text)}
    (hcut : p.cut w = p.cut w') : outcome p w = outcome p w' := by
  induction w generalizing p w' with
  | nil =>
      have hhead := congrArg List.head? hcut
      rw [p.head?_cut, p.head?_cut, List.head?_nil, eq_comm,
        List.head?_eq_none_iff] at hhead
      rw [hhead]
  | cons s w ih =>
      have hhead := congrArg List.head? hcut
      rw [p.head?_cut, p.head?_cut, List.head?_cons, eq_comm,
        List.head?_eq_some_iff] at hhead
      obtain ⟨w', rfl⟩ := hhead
      simp only [Partial.cut, outcome] at hcut ⊢
      cases hshift : p.shift s with
      | none => rfl
      | some q =>
          simp only [hshift, List.cons.injEq, true_and] at hcut
          exact ih hcut

def ParseResult.tree : ParseResult → NginxConfig
  | .returned _ config => config
  | .undefined => []

theorem wordsOf_treeOf (p : Partial Text) : wordsOf (treeOf p) = p.words := by
  rw [treeOf, wordsOf_plugFrames, Partial.words, innermost]
  cases hpending : p.pending with
  | nil => simp
  | cons token tokens => simp [wordsOf_append]

theorem wordsOf_outcome (p : Partial Text) (w : List (Symbol Text)) :
    wordsOf (outcome p w).tree =
      p.words ++ (p.cut w).filterMap Symbol.word? := by
  induction w generalizing p with
  | nil =>
      rw [outcome, Partial.cut, List.filterMap_nil, List.append_nil]
      split
      next hclosed => simp [ParseResult.tree, Partial.words, hclosed, frameWords]
      next => exact wordsOf_treeOf p
  | cons s w ih =>
      rw [outcome, Partial.cut]
      cases hshift : p.shift s with
      | none =>
          have hmark : s.word? = none := by
            apply Symbol.word?_eq_none
            rintro a rfl
            cases hshift
          rw [List.filterMap_cons_none hmark, List.filterMap_nil,
            List.append_nil]
          exact wordsOf_treeOf p
      | some q =>
          simp only [ih q, Partial.words_shift hshift, List.filterMap_cons]
          cases s.word? <;> simp

/-- For symbols with the same marks, the result and the tree are the same
exactly if the symbols are, up to the first one that has no place. -/
theorem outcome_eq_iff {p : Partial Text} {w w' : List (Symbol Text)}
    (haligned : Aligned w w') :
    outcome p w = outcome p w' ↔ p.cut w = p.cut w' := by
  constructor
  · intro heq
    apply Partial.cut_congr_of_words haligned
    have hwords := congrArg (fun result => wordsOf result.tree) heq
    simp only [wordsOf_outcome] at hwords
    exact List.append_cancel_left hwords
  · exact outcome_congr

end Swifties
