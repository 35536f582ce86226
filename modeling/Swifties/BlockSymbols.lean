import Swifties.BlockPointers

/-!
# The symbols of a tree

A tree has exactly one derivation: its symbols can be read off it, so a tree
that has words in every statement determines the word it is derived from.  A
tree that is not complete still holds all words read so far, in their order.
-/

namespace Swifties
namespace BlockGrammar

variable {α : Type}

mutual

def flatten : List (Statement α) → List (Symbol α)
  | [] => []
  | statement :: statements =>
      flattenStatement statement ++ flatten statements

def flattenStatement : Statement α → List (Symbol α)
  | .simple words => words.map .word ++ [.terminator]
  | .block words body =>
      words.map .word ++ .openBlock :: (flatten body ++ [.closeBlock])

end

mutual

theorem DerivesConfig.eq_flatten {w : List (Symbol α)}
    {c : List (Statement α)} (h : DerivesConfig w c) : w = flatten c := by
  cases h with
  | nil => rfl
  | cons hstatement hrest =>
      rw [flatten, hstatement.eq_flatten, hrest.eq_flatten]

theorem DerivesStatement.eq_flatten {w : List (Symbol α)}
    {statement : Statement α} (h : DerivesStatement w statement) :
    w = flattenStatement statement := by
  cases h with
  | simple _ => rfl
  | block _ hbody => rw [flattenStatement, hbody.eq_flatten]

end

mutual

theorem derives_flatten : ∀ {c : List (Statement α)}, wellWorded c →
    DerivesConfig (flatten c) c
  | [], _ => .nil
  | _ :: _, hwords =>
      .cons (derives_flattenStatement hwords.1) (derives_flatten hwords.2)

theorem derives_flattenStatement : ∀ {statement : Statement α},
    statementWellWorded statement →
    DerivesStatement (flattenStatement statement) statement
  | .simple _, hwords => .simple hwords
  | .block _ _, hwords => .block hwords.1 (derives_flatten hwords.2)

end

theorem derivesConfig_iff {w : List (Symbol α)} {c : List (Statement α)} :
    DerivesConfig w c ↔ wellWorded c ∧ w = flatten c := by
  constructor
  · intro hderives
    exact ⟨hderives.wellWorded, hderives.eq_flatten⟩
  · rintro ⟨hwords, rfl⟩
    exact derives_flatten hwords

/-! ## Configs one after the other -/

def framesBehind (before : List (Statement α)) :
    List (Frame α) → List (Frame α)
  | [] => []
  | [frame] => [⟨before ++ frame.before, frame.words⟩]
  | frame :: outer :: frames => frame :: framesBehind before (outer :: frames)

/-- The machine with finished statements in front of all that it has read. -/
def Partial.behind (before : List (Statement α)) : Partial α → Partial α
  | ⟨[], finished, pending⟩ => ⟨[], before ++ finished, pending⟩
  | ⟨frame :: frames, finished, pending⟩ =>
      ⟨framesBehind before (frame :: frames), finished, pending⟩

theorem Partial.shift_behind (before : List (Statement α)) (p : Partial α)
    (s : Symbol α) :
    (p.behind before).shift s = (p.shift s).map (Partial.behind before) := by
  obtain ⟨frames, finished, pending⟩ := p
  cases frames with
  | nil =>
      cases s with
      | word a => rfl
      | terminator => cases pending <;> simp [behind, shift]
      | openBlock => cases pending <;> simp [behind, shift, framesBehind]
      | closeBlock => cases pending <;> rfl
  | cons frame frames =>
      cases s with
      | word a => rfl
      | terminator => cases pending <;> simp [behind, shift]
      | openBlock => cases pending <;> simp [behind, shift, framesBehind]
      | closeBlock =>
          cases pending with
          | nil => cases frames <;> simp [behind, shift, framesBehind]
          | cons a pending => cases frames <;> rfl

theorem Partial.shifts_behind (before : List (Statement α)) (p : Partial α)
    (w : List (Symbol α)) :
    (p.behind before).shifts w = (p.shifts w).map (Partial.behind before) := by
  induction w generalizing p with
  | nil => rfl
  | cons s w ih =>
      rw [shifts, shifts, shift_behind]
      cases p.shift s with
      | none => rfl
      | some q => exact ih q

theorem Partial.behind_eq_finished {before whole : List (Statement α)}
    {p : Partial α} (hbehind : p.behind before = ⟨[], whole, []⟩) :
    ∃ more, p = ⟨[], more, []⟩ ∧ whole = before ++ more := by
  obtain ⟨frames, finished, pending⟩ := p
  cases frames with
  | nil =>
      cases hbehind
      exact ⟨finished, rfl, rfl⟩
  | cons frame frames =>
      cases frames with
      | nil => cases hbehind
      | cons outer frames => cases hbehind

/-- What follows a config is a config, or the two together are none. -/
theorem DerivesConfig.append_iff {w v : List (Symbol α)}
    {c whole : List (Statement α)} (h : DerivesConfig w c) :
    DerivesConfig (w ++ v) whole ↔
      ∃ more, DerivesConfig v more ∧ whole = c ++ more := by
  constructor
  · intro hwhole
    have hbehind : (⟨[], c, []⟩ : Partial α) = Partial.start.behind c := by
      simp [Partial.start, Partial.behind]
    rw [← shifts_start_iff_derives, Partial.shifts_append,
      shifts_start_iff_derives.mpr h, Option.bind_some, hbehind,
      Partial.shifts_behind, Option.map_eq_some_iff] at hwhole
    obtain ⟨p, hshifts, hp⟩ := hwhole
    obtain ⟨more, rfl, hmore⟩ := Partial.behind_eq_finished hp
    exact ⟨more, shifts_start_iff_derives.mp hshifts, hmore⟩
  · rintro ⟨more, hmore, rfl⟩
    exact h.append hmore

/-! ## As far as a word can be read -/

/-- The symbols up to the first one that the machine does not shift, and this
one. -/
def Partial.cut (p : Partial α) : List (Symbol α) → List (Symbol α)
  | [] => []
  | s :: w =>
      match p.shift s with
      | none => [s]
      | some q => s :: q.cut w

theorem Partial.head?_cut (p : Partial α) (w : List (Symbol α)) :
    (p.cut w).head? = w.head? := by
  cases w with
  | nil => rfl
  | cons s w =>
      rw [cut]
      split <;> rfl

def Symbol.word? : Symbol α → Option α
  | .word a => some a
  | _ => none

theorem Symbol.exists_eq_word {s : Symbol α} (hs : s.word? ≠ none) :
    ∃ a, s = .word a := by
  cases s with
  | word a => exact ⟨a, rfl⟩
  | terminator => exact (hs rfl).elim
  | openBlock => exact (hs rfl).elim
  | closeBlock => exact (hs rfl).elim

theorem Symbol.word?_eq_none {s : Symbol α} (hs : ∀ a, s = .word a → False) :
    s.word? = none := by
  by_contra hword
  obtain ⟨a, ha⟩ := exists_eq_word hword
  exact hs a ha

def wordsOf (c : List (Statement α)) : List α :=
  (flatten c).filterMap Symbol.word?

theorem flatten_append (c c' : List (Statement α)) :
    flatten (c ++ c') = flatten c ++ flatten c' := by
  induction c with
  | nil => rfl
  | cons statement c ih =>
      rw [List.cons_append, flatten, flatten, ih, List.append_assoc]

theorem wordsOf_append (c c' : List (Statement α)) :
    wordsOf (c ++ c') = wordsOf c ++ wordsOf c' := by
  rw [wordsOf, flatten_append, List.filterMap_append]
  rfl

theorem filterMap_word (words : List α) :
    (words.map Symbol.word).filterMap Symbol.word? = words := by
  rw [List.filterMap_map]
  exact List.filterMap_some

@[simp] theorem wordsOf_simple (words : List α) :
    wordsOf [.simple words] = words := by
  rw [wordsOf, flatten, flattenStatement, flatten, List.append_nil,
    List.filterMap_append, filterMap_word]
  exact List.append_nil words

@[simp] theorem wordsOf_block (words : List α) (body : List (Statement α)) :
    wordsOf [.block words body] = words ++ wordsOf body := by
  rw [wordsOf, flatten, flattenStatement, flatten, List.append_nil,
    List.filterMap_append, filterMap_word, wordsOf]
  simp [List.filterMap_cons, Symbol.word?]

/-- The words in front of the innermost block, in their order. -/
def frameWords : List (Frame α) → List α
  | [] => []
  | frame :: frames =>
      frameWords frames ++ wordsOf frame.before ++ frame.words

theorem wordsOf_plugFrames (frames : List (Frame α))
    (c : List (Statement α)) :
    wordsOf (plugFrames frames c) = frameWords frames ++ wordsOf c := by
  induction frames generalizing c with
  | nil => rfl
  | cons frame frames ih =>
      rw [plugFrames, ih, Frame.plug, wordsOf_append, wordsOf_block, frameWords]
      simp only [List.append_assoc]

def Partial.words (p : Partial α) : List α :=
  frameWords p.frames ++ wordsOf p.finished ++ p.pending

/-- A shift adds the word that is read, and nothing where it is a mark. -/
theorem Partial.words_shift {p q : Partial α} {s : Symbol α}
    (hshift : p.shift s = some q) :
    q.words = p.words ++ s.word?.toList := by
  cases s with
  | word a =>
      cases hshift
      simp [words, Symbol.word?]
  | terminator =>
      cases hpending : p.pending with
      | nil => simp [shift, hpending] at hshift
      | cons a as =>
          simp only [shift, hpending, Option.some.injEq] at hshift
          subst hshift
          simp [words, hpending, Symbol.word?, wordsOf_append]
  | openBlock =>
      cases hpending : p.pending with
      | nil => simp [shift, hpending] at hshift
      | cons a as =>
          simp only [shift, hpending, Option.some.injEq] at hshift
          subst hshift
          simp [words, hpending, Symbol.word?, frameWords, wordsOf, flatten]
  | closeBlock =>
      cases hpending : p.pending with
      | cons a as => simp [shift, hpending] at hshift
      | nil =>
          cases hframes : p.frames with
          | nil => simp [shift, hpending, hframes] at hshift
          | cons frame frames =>
              simp only [shift, hpending, hframes, Option.some.injEq] at hshift
              subst hshift
              simp [words, hpending, hframes, Symbol.word?, frameWords,
                wordsOf_append]

/-! ## Words with the same marks -/

/-- Two words of the grammar that have the same marks as long as they have the
same words. -/
def Aligned : List (Symbol α) → List (Symbol α) → Prop
  | .word a :: w, .word b :: w' => a = b → Aligned w w'
  | s :: w, s' :: w' => s = s' ∧ Aligned w w'
  | [], [] => True
  | [], s :: _ => s.word? ≠ none
  | s :: _, [] => s.word? ≠ none

theorem Partial.words_cut_ne_nil (p : Partial α) {s : Symbol α}
    (hs : s.word? ≠ none) (w : List (Symbol α)) :
    (p.cut (s :: w)).filterMap Symbol.word? ≠ [] := by
  obtain ⟨a, rfl⟩ := Symbol.exists_eq_word hs
  simp [cut, shift, Symbol.word?]

/-- Where the marks are the same, the words that are read tell how far. -/
theorem Partial.cut_congr_of_words {p : Partial α} {w w' : List (Symbol α)}
    (haligned : Aligned w w')
    (hwords : (p.cut w).filterMap Symbol.word? =
      (p.cut w').filterMap Symbol.word?) : p.cut w = p.cut w' := by
  fun_induction Aligned w w' generalizing p with
  | case1 a w b w' ih =>
      simp only [cut, shift, List.filterMap_cons, Symbol.word?,
        List.cons.injEq] at hwords ⊢
      obtain ⟨rfl, htail⟩ := hwords
      exact ⟨rfl, ih (haligned rfl) htail⟩
  | case2 s w s' w' _ ih =>
      obtain ⟨rfl, hrest⟩ := haligned
      simp only [cut] at hwords ⊢
      cases hshift : p.shift s with
      | none => rfl
      | some q =>
          simp only [hshift] at hwords
          have htail : (q.cut w).filterMap Symbol.word? =
              (q.cut w').filterMap Symbol.word? := by
            cases hs : s.word? <;> simpa [hs] using hwords
          exact congrArg (s :: ·) (ih hrest htail)
  | case3 => rfl
  | case4 s w => exact (p.words_cut_ne_nil haligned w hwords.symm).elim
  | case5 s w => exact (p.words_cut_ne_nil haligned w hwords).elim

end BlockGrammar
end Swifties
