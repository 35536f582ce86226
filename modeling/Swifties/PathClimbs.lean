import Swifties.FilePaths

/-!
# Climbing with `..`

What the segments of a path do to the directory they start from: they climb a
number of levels above it and then enter some names.  A path that starts in a
directory, or right above it, ends below it exactly when the names it enters
lead down again through the levels it left.
-/

namespace Swifties
namespace FileTree

/-- The levels climbed above the start so far, and the names entered below the
directory reached. -/
def climbStep (climbed : ℕ × Path) (segment : Text) : ℕ × Path :=
  if segment = [] ∨ segment = ['.'] then climbed
  else if segment = ['.', '.'] then
    match climbed.2 with
    | [] => (climbed.1 + 1, [])
    | _ :: names => (climbed.1, names)
  else (climbed.1, segment :: climbed.2)

def climb (segments : List Text) : ℕ × Path := segments.foldl climbStep (0, [])

example : climb ["..".toList, "a".toList, "..".toList, "b".toList] =
    (1, ["b".toList]) := by decide

theorem enter_climbStep (start : Path) (climbed : ℕ × Path) (segment : Text) :
    enter (climbed.2 ++ start.drop climbed.1) segment =
      (climbStep climbed segment).2 ++
        start.drop (climbStep climbed segment).1 := by
  unfold enter climbStep
  split_ifs
  · rfl
  · cases climbed.2 with
    | nil => simp
    | cons name names => rfl
  · rfl

theorem foldl_enter_eq (start : Path) (segments : List Text) :
    segments.foldl enter start =
      (climb segments).2 ++ start.drop (climb segments).1 := by
  have hfold : ∀ climbed : ℕ × Path,
      segments.foldl enter (climbed.2 ++ start.drop climbed.1) =
        (segments.foldl climbStep climbed).2 ++
          start.drop (segments.foldl climbStep climbed).1 := by
    induction segments with
    | nil => exact fun _ => rfl
    | cons segment segments ih =>
        intro climbed
        rw [List.foldl_cons, enter_climbStep, ih, List.foldl_cons]
  exact hfold (0, [])

/-- The names entered lead from the highest directory reached down to the root;
all of them are free where that directory is the root or below it. -/
def Reenters (root start : Path) (segments : List Text) : Prop :=
  root.take (root.length - (start.drop (climb segments).1).length) <:+
    (climb segments).2

theorem suffix_append_iff_take {root top : Path} (names : Path)
    (hcomparable : top <:+ root ∨ root <:+ top) :
    root <:+ names ++ top ↔ root.take (root.length - top.length) <:+ names := by
  rcases hcomparable with ⟨below, rfl⟩ | habove
  · rw [List.suffix_append_self_iff, List.length_append,
      Nat.add_sub_cancel_right, List.take_left]
  · have hlength := habove.length_le
    rw [Nat.sub_eq_zero_of_le hlength, List.take_zero]
    exact iff_of_true (List.suffix_append_of_suffix habove) List.nil_suffix

theorem drop_comparable_enter (start : Path) (segment : Text) (n : ℕ) :
    start.drop n <:+ enter start segment ∨
      enter start segment <:+ start.drop n := by
  unfold enter
  split_ifs
  · exact .inl (List.drop_suffix n start)
  · cases n with
    | zero => exact .inr (List.tail_suffix start)
    | succ n =>
        rw [← List.drop_one, Nat.add_comm, ← List.drop_drop]
        exact .inl (List.drop_suffix n _)
  · exact .inl ((List.drop_suffix n start).trans (List.suffix_cons _ _))

theorem suffix_foldl_enter_iff (start : Path) (segment : Text)
    (segments : List Text) :
    enter start segment <:+ segments.foldl enter start ↔
      Reenters (enter start segment) start segments := by
  rw [foldl_enter_eq, Reenters]
  exact suffix_append_iff_take _ (drop_comparable_enter _ _ _)

/-- The string up to its last slash, and with it. -/
def uptoLast (s : Text) : Text :=
  s.take (s.length - (s.afterLast '/').length)

theorem resolve_append_last {base : Text} (hbase : base ≠ []) (s : Text)
    (cwd : Path) :
    resolve cwd (base ++ s) =
      ((base.afterLast '/' ++ s).splitOn '/').foldl enter
        (resolve cwd (uptoLast base)) := by
  rcases Text.exists_split_last base '/' with hnot | ⟨above, last, rfl, hlast⟩
  · have hupto : uptoLast base = [] := by
      rw [uptoLast, Text.afterLast_of_not_mem hnot, Nat.sub_self,
        List.take_zero]
    have horigin : origin cwd (base ++ s) = cwd := by
      unfold origin
      split
      next hhead =>
        cases base with
        | nil => exact (hbase rfl).elim
        | cons c base =>
            rw [List.cons_append, List.head?_cons, Option.some_inj] at hhead
            exact (hnot (by simp [hhead])).elim
      next => rfl
    rw [hupto, Text.afterLast_of_not_mem hnot, resolve, horigin]
    rfl
  · have hupto : uptoLast (above ++ '/' :: last) = above ++ ['/'] := by
      have hlength : (above ++ '/' :: last).length - last.length =
          (above ++ ['/']).length := by
        simp only [List.length_append, List.length_cons, List.length_nil]
        omega
      rw [uptoLast, Text.afterLast_append_cons hlast, hlength,
        List.append_cons above '/' last, List.take_left]
    have hsplit : above ++ '/' :: last ++ s = above ++ ['/'] ++ (last ++ s) := by
      simp
    rw [hupto, Text.afterLast_append_cons hlast, hsplit,
      resolve_base_append (by simp)]

/-- The string behind the base does not leave the directory of the base for
good.  Its first segment belongs to the last one of the base. -/
def StaysBelow (cwd : Path) (base s : Text) : Prop :=
  Reenters (resolve cwd base) (resolve cwd (uptoLast base))
    ((base.afterLast '/' ++ s).splitOn '/')

theorem resolve_suffix_append_iff {base : Text} (hbase : base ≠ []) (s : Text)
    (cwd : Path) :
    resolve cwd base <:+ resolve cwd (base ++ s) ↔ StaysBelow cwd base s := by
  have hroot := resolve_append_last hbase [] cwd
  rw [List.append_nil, List.append_nil,
    List.splitOn_eq_singleton (Text.not_mem_afterLast base '/'),
    List.foldl_cons, List.foldl_nil] at hroot
  rw [resolve_append_last hbase s cwd, StaysBelow, hroot]
  exact suffix_foldl_enter_iff _ _ _

/-- Without `..`, a string stays below a base that it continues at a slash. -/
theorem staysBelow_of_not_mem {base s : Text} (hbase : base ≠ [])
    (hslash : base.getLast? = some '/' ∨ s = [] ∨ s.head? = some '/')
    (hup : ['.', '.'] ∉ s.splitOn '/') (cwd : Path) :
    StaysBelow cwd base s := by
  rw [← resolve_suffix_append_iff hbase]
  have hfold : ∀ segments : List Text, ['.', '.'] ∉ segments →
      resolve cwd base <:+ segments.foldl enter (resolve cwd base) := by
    intro segments hsegments
    obtain ⟨names, hnames⟩ :=
      foldl_enter_of_not_mem hsegments (resolve cwd base)
    rw [hnames]
    exact List.suffix_append names _
  rcases hslash with hlast | rfl | hhead
  · rw [resolve_base_append hlast]
    exact hfold _ hup
  · rw [List.append_nil]
  · obtain ⟨rest, rfl⟩ := List.head?_eq_some_iff.mp hhead
    rw [resolve_append hbase]
    apply hfold
    intro hmem
    rw [splitOn_cons_slash] at hup
    exact hup (List.mem_cons_of_mem _ hmem)

end FileTree
end Swifties
