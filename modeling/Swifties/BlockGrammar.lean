import Swifties.Text

/-!
# A grammar of statements and nested blocks

A statement is a nonempty run of words closed either by a terminator or by a
block holding further statements.  The file gives the grammar as derivations
with their trees, a shift machine that reads a symbol at a time and keeps the
enclosing statements on a stack, and the equivalence of the two.  Nothing here
depends on what a word is.
-/

namespace Swifties
namespace BlockGrammar

variable {α : Type}

inductive Symbol (α : Type) where
  | word (a : α)
  | terminator
  | openBlock
  | closeBlock
deriving DecidableEq, Repr

inductive Statement (α : Type) where
  | simple (words : List α)
  | block (words : List α) (body : List (Statement α))

mutual

/-- `Config ::= Statement*`, together with the derivation tree. -/
inductive DerivesConfig : List (Symbol α) → List (Statement α) → Prop
  | nil : DerivesConfig [] []
  | cons {w rest : List (Symbol α)} {statement : Statement α}
      {statements : List (Statement α)} :
      DerivesStatement w statement → DerivesConfig rest statements →
      DerivesConfig (w ++ rest) (statement :: statements)

/-- `Statement ::= word+ (terminator | openBlock Config closeBlock)`. -/
inductive DerivesStatement : List (Symbol α) → Statement α → Prop
  | simple {words : List α} : words ≠ [] →
      DerivesStatement (words.map .word ++ [.terminator]) (.simple words)
  | block {words : List α} {w : List (Symbol α)}
      {body : List (Statement α)} : words ≠ [] → DerivesConfig w body →
      DerivesStatement (words.map .word ++ .openBlock :: (w ++ [.closeBlock]))
        (.block words body)

end

theorem DerivesConfig.append
    {w₁ w₂ : List (Symbol α)} {c₁ c₂ : List (Statement α)}
    (h₁ : DerivesConfig w₁ c₁) (h₂ : DerivesConfig w₂ c₂) :
    DerivesConfig (w₁ ++ w₂) (c₁ ++ c₂) := by
  induction c₁ generalizing w₁ with
  | nil =>
      cases h₁
      simpa using h₂
  | cons statement statements ih =>
      cases h₁ with
      | cons hstatement hrest =>
          rw [List.append_assoc, List.cons_append]
          exact .cons hstatement (ih hrest)

theorem DerivesConfig.concat
    {w₁ w₂ : List (Symbol α)} {c : List (Statement α)}
    {statement : Statement α}
    (h₁ : DerivesConfig w₁ c) (h₂ : DerivesStatement w₂ statement) :
    DerivesConfig (w₁ ++ w₂) (c ++ [statement]) := by
  have hsingle : DerivesConfig (w₂ ++ []) [statement] := .cons h₂ .nil
  rw [List.append_nil] at hsingle
  exact h₁.append hsingle

/-! ## The shift machine -/

structure Frame (α : Type) where
  before : List (Statement α)
  words : List α

/-- What has been read of a config: the open enclosing statements, innermost
first, the finished statements of the innermost block, and the words of the
statement being read. -/
structure Partial (α : Type) where
  frames : List (Frame α)
  finished : List (Statement α)
  pending : List α

def Partial.start : Partial α := ⟨[], [], []⟩

def Partial.shift (p : Partial α) : Symbol α → Option (Partial α)
  | .word a => some { p with pending := p.pending ++ [a] }
  | .terminator =>
      match p.pending with
      | [] => none
      | a :: as => some
          { p with finished := p.finished ++ [.simple (a :: as)], pending := [] }
  | .openBlock =>
      match p.pending with
      | [] => none
      | a :: as => some ⟨⟨p.finished, a :: as⟩ :: p.frames, [], []⟩
  | .closeBlock =>
      match p.pending, p.frames with
      | [], frame :: frames => some
          ⟨frames, frame.before ++ [.block frame.words p.finished], []⟩
      | _, _ => none

def Partial.shifts (p : Partial α) : List (Symbol α) → Option (Partial α)
  | [] => some p
  | s :: w =>
      match p.shift s with
      | some q => q.shifts w
      | none => none

theorem Partial.shifts_append (p : Partial α) (w₁ w₂ : List (Symbol α)) :
    p.shifts (w₁ ++ w₂) = (p.shifts w₁).bind fun q => q.shifts w₂ := by
  induction w₁ generalizing p with
  | nil => simp [shifts]
  | cons s w ih =>
      simp only [List.cons_append, shifts]
      cases p.shift s with
      | none => rfl
      | some q => exact ih q

/-! ## Everything derivable is read -/

theorem Partial.shifts_words (frames : List (Frame α))
    (finished : List (Statement α)) (pending words : List α) :
    Partial.shifts ⟨frames, finished, pending⟩ (words.map .word) =
      some ⟨frames, finished, pending ++ words⟩ := by
  induction words generalizing pending with
  | nil => simp [shifts]
  | cons a words ih =>
      simp only [List.map_cons, shifts, shift]
      rw [ih]
      simp

theorem Partial.shift_terminator {frames : List (Frame α)}
    {finished : List (Statement α)} {words : List α} (hwords : words ≠ []) :
    Partial.shift ⟨frames, finished, words⟩ .terminator =
      some ⟨frames, finished ++ [.simple words], []⟩ := by
  obtain ⟨a, as, rfl⟩ := List.exists_cons_of_ne_nil hwords
  rfl

theorem Partial.shift_openBlock {frames : List (Frame α)}
    {finished : List (Statement α)} {words : List α} (hwords : words ≠ []) :
    Partial.shift ⟨frames, finished, words⟩ .openBlock =
      some ⟨⟨finished, words⟩ :: frames, [], []⟩ := by
  obtain ⟨a, as, rfl⟩ := List.exists_cons_of_ne_nil hwords
  rfl

mutual

theorem DerivesConfig.shifts {w : List (Symbol α)}
    {c : List (Statement α)} (h : DerivesConfig w c)
    (frames : List (Frame α)) (finished : List (Statement α)) :
    Partial.shifts ⟨frames, finished, []⟩ w =
      some ⟨frames, finished ++ c, []⟩ := by
  cases h with
  | nil => simp [Partial.shifts]
  | cons hstatement hrest =>
      rw [Partial.shifts_append, hstatement.shifts frames finished]
      simp only [Option.bind_some]
      rw [hrest.shifts frames]
      simp

theorem DerivesStatement.shifts {w : List (Symbol α)}
    {statement : Statement α} (h : DerivesStatement w statement)
    (frames : List (Frame α)) (finished : List (Statement α)) :
    Partial.shifts ⟨frames, finished, []⟩ w =
      some ⟨frames, finished ++ [statement], []⟩ := by
  cases h with
  | simple hwords =>
      rw [Partial.shifts_append, Partial.shifts_words]
      simp [Partial.shifts, Partial.shift_terminator hwords]
  | @block words w body hwords hbody =>
      rw [Partial.shifts_append, Partial.shifts_words]
      simp only [Option.bind_some, List.nil_append, Partial.shifts,
        Partial.shift_openBlock hwords]
      rw [Partial.shifts_append, hbody.shifts (⟨finished, words⟩ :: frames) []]
      simp [Partial.shifts, Partial.shift]

end

/-! ## Everything read is derivable -/

inductive ReadsFrames : List (Symbol α) → List (Frame α) → Prop
  | nil : ReadsFrames [] []
  | cons {w before : List (Symbol α)} {frame : Frame α}
      {frames : List (Frame α)} :
      ReadsFrames w frames → DerivesConfig before frame.before →
      frame.words ≠ [] →
      ReadsFrames
        (w ++ before ++ frame.words.map .word ++ [.openBlock])
        (frame :: frames)

/-- The machine invariant: the symbols read so far are those of the open
frames, a derivation of the finished statements, and the pending words. -/
def Partial.Reads (w : List (Symbol α)) (p : Partial α) : Prop :=
  ∃ outer inner,
    w = outer ++ inner ++ p.pending.map .word ∧
      ReadsFrames outer p.frames ∧ DerivesConfig inner p.finished

theorem Partial.reads_start : Partial.Reads ([] : List (Symbol α)) .start :=
  ⟨[], [], by simp [start], .nil, .nil⟩

theorem Partial.Reads.shift {w : List (Symbol α)} {p q : Partial α}
    {s : Symbol α} (hreads : p.Reads w) (hshift : p.shift s = some q) :
    q.Reads (w ++ [s]) := by
  obtain ⟨outer, inner, rfl, hframes, hfinished⟩ := hreads
  cases s with
  | word a =>
      simp only [Partial.shift, Option.some.injEq] at hshift
      subst q
      exact ⟨outer, inner, by simp, hframes, hfinished⟩
  | terminator =>
      cases hpending : p.pending with
      | nil => simp [Partial.shift, hpending] at hshift
      | cons a as =>
          simp only [Partial.shift, hpending, Option.some.injEq] at hshift
          subst q
          have hstatement :
              DerivesStatement ((a :: as).map Symbol.word ++ [.terminator])
                (.simple (a :: as)) := .simple (by simp)
          exact ⟨outer, _, by simp, hframes, hfinished.concat hstatement⟩
  | openBlock =>
      cases hpending : p.pending with
      | nil => simp [Partial.shift, hpending] at hshift
      | cons a as =>
          simp only [Partial.shift, hpending, Option.some.injEq] at hshift
          subst q
          have hopen :
              ReadsFrames _ ((⟨p.finished, a :: as⟩ : Frame α) :: p.frames) :=
            .cons hframes hfinished (by simp)
          exact ⟨_, [], by simp, hopen, .nil⟩
  | closeBlock =>
      cases hpending : p.pending with
      | cons a as => simp [Partial.shift, hpending] at hshift
      | nil =>
          cases hstack : p.frames with
          | nil => simp [Partial.shift, hpending, hstack] at hshift
          | cons frame frames =>
              simp only [Partial.shift, hpending, hstack,
                Option.some.injEq] at hshift
              subst q
              rw [hstack] at hframes
              cases hframes with
              | cons houter hbefore hwords =>
                  have hstatement := DerivesStatement.block hwords hfinished
                  exact ⟨_, _, by simp, houter, hbefore.concat hstatement⟩

theorem Partial.Reads.shifts {w v : List (Symbol α)} {p q : Partial α}
    (hreads : p.Reads w) (hshifts : p.shifts v = some q) :
    q.Reads (w ++ v) := by
  induction v generalizing p w with
  | nil =>
      simp only [Partial.shifts, Option.some.injEq] at hshifts
      subst q
      simpa using hreads
  | cons s v ih =>
      simp only [Partial.shifts] at hshifts
      cases hshift : p.shift s with
      | none => simp [hshift] at hshifts
      | some next =>
          rw [hshift] at hshifts
          have htail := ih (hreads.shift hshift) hshifts
          simpa using htail

/-- The machine ends with every block closed and no pending word exactly on
the words of the grammar, and then holds the derivation tree. -/
theorem shifts_start_iff_derives {w : List (Symbol α)}
    {c : List (Statement α)} :
    Partial.start.shifts w = some ⟨[], c, []⟩ ↔ DerivesConfig w c := by
  constructor
  · intro hshifts
    obtain ⟨outer, inner, hw, hframes, hfinished⟩ :=
      Partial.reads_start.shifts hshifts
    cases hframes
    simp only [List.nil_append, List.map_nil, List.append_nil] at hw
    rwa [hw]
  · intro hderives
    exact hderives.shifts [] []

theorem DerivesConfig.unique {w : List (Symbol α)}
    {c c' : List (Statement α)} (h : DerivesConfig w c)
    (h' : DerivesConfig w c') : c = c' := by
  have heq := (shifts_start_iff_derives.mpr h).symm.trans
    (shifts_start_iff_derives.mpr h')
  simpa using heq

/-! ## Well-formed trees -/

mutual

def wellWorded : List (Statement α) → Prop
  | [] => True
  | s :: rest => statementWellWorded s ∧ wellWorded rest

def statementWellWorded : Statement α → Prop
  | .simple words => words ≠ []
  | .block words body => words ≠ [] ∧ wellWorded body

end

theorem wellWorded_iff {c : List (Statement α)} :
    wellWorded c ↔ ∀ s ∈ c, statementWellWorded s := by
  induction c with
  | nil => simp [wellWorded]
  | cons s rest ih => simp [wellWorded, ih]

mutual

theorem DerivesConfig.wellWorded {w : List (Symbol α)}
    {c : List (Statement α)} (h : DerivesConfig w c) :
    BlockGrammar.wellWorded c := by
  cases h with
  | nil => trivial
  | cons hstatement hrest =>
      exact ⟨hstatement.wellWorded, hrest.wellWorded⟩

theorem DerivesStatement.wellWorded {w : List (Symbol α)}
    {statement : Statement α} (h : DerivesStatement w statement) :
    statementWellWorded statement := by
  cases h with
  | simple hwords => exact hwords
  | block hwords hbody => exact ⟨hwords, hbody.wellWorded⟩

end

end BlockGrammar
end Swifties
