import Swifties.BlockGrammar

/-!
# Pointers into a tree of blocks

A pointer to a block is the list of statement indices that leads to it from
the root.  Reading and changing a tree through a pointer is related here to
the frames of the shift machine: the pointer of the innermost open block of a
partially read config addresses exactly the statements finished in it, and a
change made through it leaves the enclosing frames alone.
-/

namespace Swifties
namespace BlockGrammar

variable {α : Type}

namespace Statement

def words : Statement α → List α
  | .simple words => words
  | .block words _ => words

def body? : Statement α → Option (List (Statement α))
  | .simple _ => none
  | .block _ body => some body

def modifyBody (f : List (Statement α) → List (Statement α)) :
    Statement α → Statement α
  | .simple words => .simple words
  | .block words body => .block words (f body)

end Statement

abbrev Pointer := List ℕ

def blockAt : Pointer → List (Statement α) → Option (List (Statement α))
  | [], tree => some tree
  | i :: p, tree => (tree[i]?.bind Statement.body?).bind (blockAt p)

def modifyAt :
    Pointer → (List (Statement α) → List (Statement α)) →
      List (Statement α) → List (Statement α)
  | [], f, tree => f tree
  | i :: p, f, tree => tree.modify i (Statement.modifyBody (modifyAt p f))

theorem blockAt_append (p q : Pointer) (tree : List (Statement α)) :
    blockAt (p ++ q) tree = (blockAt p tree).bind (blockAt q) := by
  induction p generalizing tree with
  | nil => rfl
  | cons i p ih =>
      simp only [List.cons_append, blockAt]
      cases tree[i]?.bind Statement.body? with
      | none => rfl
      | some body => exact ih body

theorem modifyAt_append (p q : Pointer)
    (f : List (Statement α) → List (Statement α)) (tree : List (Statement α)) :
    modifyAt (p ++ q) f tree = modifyAt p (modifyAt q f) tree := by
  induction p generalizing tree with
  | nil => rfl
  | cons i p ih =>
      have hbody : modifyAt (p ++ q) f = modifyAt p (modifyAt q f) := by
        funext body
        exact ih body
      simp only [List.cons_append, modifyAt, hbody]

/-! ## Frames -/

def Frame.plug (frame : Frame α) (c : List (Statement α)) :
    List (Statement α) :=
  frame.before ++ [.block frame.words c]

theorem Frame.blockAt_plug (frame : Frame α) (c : List (Statement α)) :
    blockAt [frame.before.length] (frame.plug c) = some c := by
  simp [blockAt, plug, Statement.body?]

theorem Frame.modifyAt_plug (frame : Frame α)
    (f : List (Statement α) → List (Statement α)) (c : List (Statement α)) :
    modifyAt [frame.before.length] f (frame.plug c) = frame.plug (f c) := by
  have hlt : frame.before.length < (frame.plug c).length := by simp [plug]
  rw [modifyAt, List.modify_eq_take_cons_drop hlt]
  simp [plug, Statement.modifyBody, modifyAt]

def plugFrames : List (Frame α) → List (Statement α) → List (Statement α)
  | [], c => c
  | frame :: frames, c => plugFrames frames (frame.plug c)

def pointerOf : List (Frame α) → Pointer
  | [] => []
  | frame :: frames => pointerOf frames ++ [frame.before.length]

def pointersOf : List (Frame α) → List Pointer
  | [] => [[]]
  | frame :: frames => pointerOf (frame :: frames) :: pointersOf frames

theorem pointersOf_eq_cons (frames : List (Frame α)) :
    pointersOf frames = pointerOf frames :: (pointersOf frames).tail := by
  cases frames <;> rfl

theorem length_pointersOf (frames : List (Frame α)) :
    (pointersOf frames).length = frames.length + 1 := by
  induction frames with
  | nil => rfl
  | cons frame frames ih => simp [pointersOf, ih]

@[simp] theorem blockAt_pointerOf (frames : List (Frame α))
    (c : List (Statement α)) :
    blockAt (pointerOf frames) (plugFrames frames c) = some c := by
  induction frames generalizing c with
  | nil => rfl
  | cons frame frames ih =>
      rw [pointerOf, plugFrames, blockAt_append, ih]
      exact frame.blockAt_plug c

@[simp] theorem modifyAt_pointerOf (frames : List (Frame α))
    (f : List (Statement α) → List (Statement α)) (c : List (Statement α)) :
    modifyAt (pointerOf frames) f (plugFrames frames c) =
      plugFrames frames (f c) := by
  induction frames generalizing c f with
  | nil => rfl
  | cons frame frames ih =>
      rw [pointerOf, plugFrames, modifyAt_append, ih]
      rw [frame.modifyAt_plug, plugFrames]

/-! ## Chains of pointers -/

/-- One pointer leads to the body of the last statement of the block that the
other one leads to. -/
def LastBody (tree : List (Statement α)) (above below : Pointer) : Prop :=
  ∃ block statement body, blockAt below tree = some block ∧
    block.getLast? = some statement ∧ statement.body? = some body ∧
    above = below ++ [block.length - 1] ∧ blockAt above tree = some body

theorem lastBody_pointerOf (frame : Frame α) (frames : List (Frame α))
    (c : List (Statement α)) :
    LastBody (plugFrames (frame :: frames) c) (pointerOf (frame :: frames))
      (pointerOf frames) := by
  refine ⟨frame.plug c, .block frame.words c, c, ?_, ?_, rfl, ?_, ?_⟩
  · rw [plugFrames, blockAt_pointerOf]
  · simp [Frame.plug]
  · simp [pointerOf, Frame.plug]
  · exact blockAt_pointerOf (frame :: frames) c

theorem pointersOf_isChain (frames : List (Frame α))
    (c : List (Statement α)) :
    (pointersOf frames).IsChain (LastBody (plugFrames frames c)) := by
  induction frames generalizing c with
  | nil => exact .singleton []
  | cons frame frames ih =>
      have hlast := lastBody_pointerOf frame frames c
      have hrest := ih (frame.plug c)
      rw [pointersOf_eq_cons] at hrest
      rw [pointersOf, pointersOf_eq_cons frames]
      exact .cons_cons hlast hrest

theorem getLast?_pointersOf (frames : List (Frame α)) :
    (pointersOf frames).getLast? = some [] := by
  induction frames with
  | nil => rfl
  | cons frame frames ih =>
      rw [pointersOf_eq_cons] at ih
      rw [pointersOf, pointersOf_eq_cons frames, List.getLast?_cons_cons, ih]

end BlockGrammar
end Swifties
