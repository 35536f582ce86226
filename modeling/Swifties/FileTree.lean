import Swifties.Text

/-!
# A tree of files and directories

Regular files and directories keyed by path.  A path is the list of its
names, innermost first, so that the parent of `name :: path` is `path`; the
root is the empty list and always a directory.

The tree carries its own invariant, that the parent of everything present is a
directory, and every operation below is total: the operations that can throw
return `none` where they do.
-/

namespace Swifties
namespace FileTree

abbrev Path := List Text

/-- A locked file is a regular file that cannot be opened. -/
inductive Node where
  | file (data : Text)
  | locked
  | dir
deriving DecidableEq, Repr

/-- A write takes effect where nothing stands, or a file that can be opened. -/
def writable : Option Node → Bool
  | none | some (.file _) => true
  | some .locked | some .dir => false

theorem writable_dir : writable (some .dir) = false := rfl

theorem ne_dir_of_writable {found : Option Node}
    (hwritable : writable found = true) : found ≠ some .dir := by
  rintro rfl
  cases hwritable

structure FileSystem where
  cwd : Path
  nodes : Std.TreeMap Path Node
  parent_dir : ∀ (name : Text) (path : Path) (node : Node),
    nodes[name :: path]? = some node → path = [] ∨ nodes[path]? = some .dir

namespace FileSystem

def node? (fs : FileSystem) (path : Path) : Option Node :=
  if path = [] then some .dir else fs.nodes[path]?

@[simp] theorem node?_root (fs : FileSystem) : fs.node? [] = some .dir := rfl

theorem node?_parent {fs : FileSystem} {name : Text} {path : Path}
    {node : Node} (hnode : fs.node? (name :: path) = some node) :
    fs.node? path = some .dir := by
  rcases fs.parent_dir name path node hnode with rfl | hparent
  · rfl
  · unfold node?
    split
    next => rfl
    next => exact hparent

theorem node?_ancestor {fs : FileSystem} {path ancestor : Path} {node : Node}
    (hnode : fs.node? path = some node) (hsuffix : ancestor <:+ path)
    (hne : ancestor ≠ path) : fs.node? ancestor = some .dir := by
  induction path generalizing node with
  | nil => exact (hne (List.suffix_nil.mp hsuffix)).elim
  | cons name path ih =>
      have hparent := node?_parent hnode
      rcases List.suffix_cons_iff.mp hsuffix with heq | htail
      · exact (hne heq).elim
      · by_cases heq : ancestor = path
        · rw [heq]
          exact hparent
        · exact ih hparent htail heq

/-! ## Placing and erasing one node -/

def place (fs : FileSystem) (path : Path) (node : Node)
    (hparent : fs.node? path.tail = some .dir)
    (hfree : fs.node? path ≠ some .dir) : FileSystem where
  cwd := fs.cwd
  nodes := fs.nodes.insert path node
  parent_dir := by
    intro name parent child hchild
    by_cases hroot : parent = []
    · exact .inl hroot
    right
    by_cases hpath : path = name :: parent
    · subst hpath
      have hne : name :: parent ≠ parent := by simp
      simp only [node?, List.tail_cons, hroot, if_false] at hparent
      simpa [Std.TreeMap.getElem?_insert, hne] using hparent
    · simp only [Std.TreeMap.getElem?_insert, Std.LawfulEqCmp.compare_eq_iff_eq,
        hpath, if_false] at hchild
      have hdir : fs.node? parent = some .dir := node?_parent hchild
      have hne : path ≠ parent := by
        rintro rfl
        exact hfree hdir
      simp only [node?, hroot, if_false] at hdir
      simpa [Std.TreeMap.getElem?_insert, hne] using hdir

@[simp] theorem place_cwd {fs : FileSystem} {path : Path} {node : Node}
    {hparent : fs.node? path.tail = some .dir}
    {hfree : fs.node? path ≠ some .dir} :
    (fs.place path node hparent hfree).cwd = fs.cwd := rfl

theorem node?_place {fs : FileSystem} {path : Path} {node : Node}
    {hparent : fs.node? path.tail = some .dir}
    {hfree : fs.node? path ≠ some .dir} (other : Path) :
    (fs.place path node hparent hfree).node? other =
      if other = path then some node else fs.node? other := by
  have hpath : path ≠ [] := by
    rintro rfl
    exact hfree rfl
  by_cases hother : other = []
  · subst hother
    simp [node?, Ne.symm hpath]
  · simp only [node?, hother, if_false, place, Std.TreeMap.getElem?_insert,
      Std.LawfulEqCmp.compare_eq_iff_eq]
    by_cases heq : path = other
    · simp [heq]
    · simp [heq, Ne.symm heq]

def hasChild (fs : FileSystem) (path : Path) : Bool :=
  fs.nodes.keys.any fun other => decide (other ≠ [] ∧ other.tail = path)

theorem hasChild_eq_false {fs : FileSystem} {path : Path}
    (hchild : fs.hasChild path = false) (name : Text) :
    fs.nodes[name :: path]? = none := by
  apply Std.TreeMap.getElem?_eq_none
  rw [← Std.TreeMap.mem_keys]
  intro hmem
  simp only [hasChild, List.any_eq_false, decide_eq_true_eq] at hchild
  exact hchild _ hmem ⟨by simp, rfl⟩

def erase (fs : FileSystem) (path : Path)
    (hleaf : ∀ name : Text, fs.nodes[name :: path]? = none) : FileSystem where
  cwd := fs.cwd
  nodes := fs.nodes.erase path
  parent_dir := by
    intro name parent child hchild
    simp only [Std.TreeMap.getElem?_erase,
      Std.LawfulEqCmp.compare_eq_iff_eq] at hchild
    split at hchild
    next => simp at hchild
    next hpath =>
      rcases fs.parent_dir name parent child hchild with hroot | hdir
      · exact .inl hroot
      · right
        have hne : path ≠ parent := by
          rintro rfl
          simp [hleaf name] at hchild
        simpa [Std.TreeMap.getElem?_erase, hne] using hdir

theorem node?_erase {fs : FileSystem} {path : Path}
    {hleaf : ∀ name : Text, fs.nodes[name :: path]? = none}
    (hpath : path ≠ []) (other : Path) :
    (fs.erase path hleaf).node? other =
      if other = path then none else fs.node? other := by
  by_cases hother : other = []
  · subst hother
    simp [node?, Ne.symm hpath]
  · simp only [node?, hother, if_false, erase, Std.TreeMap.getElem?_erase,
      Std.LawfulEqCmp.compare_eq_iff_eq]
    by_cases heq : path = other
    · simp [heq]
    · simp [heq, Ne.symm heq]

theorem leaf_of_not_dir {fs : FileSystem} {path : Path}
    (hnode : fs.node? path ≠ some .dir) (name : Text) :
    fs.nodes[name :: path]? = none := by
  cases hchild : fs.nodes[name :: path]? with
  | none => rfl
  | some child => exact (hnode (node?_parent hchild)).elim

/-! ## Operations on paths -/

def makeDirectory (fs : FileSystem) (path : Path) : Option FileSystem :=
  match hnode : fs.node? path with
  | some .dir => some fs
  | some (.file _) | some .locked => none
  | none =>
      if hparent : fs.node? path.tail = some .dir then
        some (fs.place path .dir hparent (by simp [hnode]))
      else none

/-- Make a directory and all the missing ones above it; throws when a
component of the path is a regular file. -/
def makeDirectories (fs : FileSystem) : Path → Option FileSystem
  | [] => some fs
  | name :: path =>
      (fs.makeDirectories path).bind fun made => made.makeDirectory (name :: path)

/-- Open for writing, truncate and write; a path that cannot be opened is left
alone. -/
def write (fs : FileSystem) (path : Path) (data : Text) : FileSystem :=
  if h : fs.node? path.tail = some .dir ∧ writable (fs.node? path) = true then
    fs.place path (.file data) h.1 (ne_dir_of_writable h.2)
  else fs

/-- Remove a file or an empty directory and say whether there was one; throws
on a directory that is not empty, and on the root. -/
def remove (fs : FileSystem) (path : Path) : Option (Bool × FileSystem) :=
  match hnode : fs.node? path with
  | none => some (false, fs)
  | some (.file _) | some .locked =>
      some (true, fs.erase path (leaf_of_not_dir (by simp [hnode])))
  | some .dir =>
      if hempty : path ≠ [] ∧ fs.hasChild path = false then
        some (true, fs.erase path (hasChild_eq_false hempty.2))
      else none

theorem makeDirectory_eq_some {fs made : FileSystem} {path : Path}
    (hmade : fs.makeDirectory path = some made) :
    made.cwd = fs.cwd ∧ (∀ node, fs.node? path = some node → node = .dir) ∧
      ∀ other, made.node? other =
        if other = path then some .dir else fs.node? other := by
  unfold makeDirectory at hmade
  split at hmade
  next hnode =>
    simp only [Option.some.injEq] at hmade
    subst hmade
    refine ⟨rfl, by simp [hnode], fun other => ?_⟩
    split
    next heq => rw [heq, hnode]
    next => rfl
  next => simp at hmade
  next => simp at hmade
  next hnode =>
    split at hmade
    next =>
      simp only [Option.some.injEq] at hmade
      subst hmade
      exact ⟨rfl, by simp [hnode], node?_place⟩
    next => simp at hmade

theorem makeDirectory_isSome {fs : FileSystem} {name : Text} {path : Path}
    (hparent : fs.node? path = some .dir)
    (hfree : ∀ node, fs.node? (name :: path) = some node → node = .dir) :
    ∃ made, fs.makeDirectory (name :: path) = some made := by
  unfold makeDirectory
  split
  next => exact ⟨fs, rfl⟩
  next hfile => cases hfree _ hfile
  next hlocked => cases hfree _ hlocked
  next => exact ⟨_, dif_pos hparent⟩

/-- What `makeDirectories` does where it does not throw: nothing but directories
was on the way, the path and all above it are directories, and nothing else
changed. -/
theorem makeDirectories_eq_some {fs made : FileSystem} {path : Path}
    (hmade : fs.makeDirectories path = some made) :
    made.cwd = fs.cwd ∧
      (∀ ancestor node, ancestor <:+ path →
        fs.node? ancestor = some node → node = .dir) ∧
      ∀ other, made.node? other =
        if other <:+ path then some .dir else fs.node? other := by
  induction path generalizing made with
  | nil =>
      simp only [makeDirectories, Option.some.injEq] at hmade
      subst hmade
      refine ⟨rfl, ?_, fun other => ?_⟩
      · intro ancestor node hsuffix
        simp [List.suffix_nil.mp hsuffix, eq_comm]
      · split
        next hsuffix => rw [List.suffix_nil.mp hsuffix, node?_root]
        next => rfl
  | cons name path ih =>
      cases habove : fs.makeDirectories path with
      | none => simp [makeDirectories, habove] at hmade
      | some above =>
          simp only [makeDirectories, habove, Option.bind_some] at hmade
          obtain ⟨hcwd, hfree, hnodes⟩ := ih habove
          obtain ⟨hcwd', hfree', hnodes'⟩ := makeDirectory_eq_some hmade
          have hself : ¬ name :: path <:+ path := fun hsuffix => by
            have hlength := hsuffix.length_le
            simp at hlength
          refine ⟨hcwd'.trans hcwd, ?_, fun other => ?_⟩
          · intro ancestor node hsuffix
            rcases List.suffix_cons_iff.mp hsuffix with rfl | htail
            · simpa [hnodes, hself] using hfree' node
            · exact hfree ancestor node htail
          · rw [hnodes', hnodes]
            simp only [List.suffix_cons_iff]
            by_cases heq : other = name :: path
            · simp [heq]
            · simp [heq]

theorem makeDirectories_isSome {fs : FileSystem} {path : Path}
    (hfree : ∀ ancestor node, ancestor <:+ path →
      fs.node? ancestor = some node → node = .dir) :
    ∃ made, fs.makeDirectories path = some made := by
  induction path with
  | nil => exact ⟨fs, rfl⟩
  | cons name path ih =>
      obtain ⟨above, habove⟩ := ih fun ancestor node hsuffix =>
        hfree ancestor node (hsuffix.trans (List.suffix_cons name path))
      obtain ⟨_, _, hnodes⟩ := makeDirectories_eq_some habove
      have hself : ¬ name :: path <:+ path := fun hsuffix => by
        have hlength := hsuffix.length_le
        simp at hlength
      have hparent : above.node? path = some .dir := by simp [hnodes]
      have hnode : ∀ node, above.node? (name :: path) = some node →
          node = .dir := by
        intro node
        simpa [hnodes, hself] using hfree _ node (List.suffix_refl _)
      simpa [makeDirectories, habove] using makeDirectory_isSome hparent hnode

/-- Nothing has to be made where the directory is there. -/
theorem makeDirectories_of_dir {fs : FileSystem} {path : Path}
    (hdir : fs.node? path = some .dir) : fs.makeDirectories path = some fs := by
  induction path with
  | nil => rfl
  | cons name path ih =>
      rw [makeDirectories, ih (node?_parent hdir), Option.bind_some,
        makeDirectory]
      split
      next => rfl
      next hfile => simp [hdir] at hfile
      next hlocked => simp [hdir] at hlocked
      next hnone => simp [hdir] at hnone

theorem node?_write (fs : FileSystem) (path : Path) (data : Text)
    (hparent : fs.node? path.tail = some .dir) (other : Path) :
    (fs.write path data).node? other =
      if other = path ∧ writable (fs.node? path) = true then some (.file data)
      else fs.node? other := by
  by_cases hwritable : writable (fs.node? path) = true
  · rw [write, dif_pos ⟨hparent, hwritable⟩, node?_place]
    simp [hwritable]
  · rw [write, dif_neg fun h => hwritable h.2]
    simp [hwritable]

@[simp] theorem write_cwd (fs : FileSystem) (path : Path) (data : Text) :
    (fs.write path data).cwd = fs.cwd := by
  unfold write
  split <;> rfl

theorem remove_eq_some {fs removed : FileSystem} {path : Path} {found : Bool}
    (hremoved : fs.remove path = some (found, removed)) :
    removed.cwd = fs.cwd ∧
      ∀ other, removed.node? other =
        if other = path then none else fs.node? other := by
  unfold remove at hremoved
  split at hremoved
  next hnode =>
    simp only [Option.some.injEq, Prod.mk.injEq] at hremoved
    obtain ⟨_, rfl⟩ := hremoved
    refine ⟨rfl, fun other => ?_⟩
    split
    next heq => rw [heq, hnode]
    next => rfl
  next hnode =>
    simp only [Option.some.injEq, Prod.mk.injEq] at hremoved
    obtain ⟨_, rfl⟩ := hremoved
    have hpath : path ≠ [] := by
      rintro rfl
      simp at hnode
    exact ⟨rfl, node?_erase hpath⟩
  next hnode =>
    simp only [Option.some.injEq, Prod.mk.injEq] at hremoved
    obtain ⟨_, rfl⟩ := hremoved
    have hpath : path ≠ [] := by
      rintro rfl
      simp at hnode
    exact ⟨rfl, node?_erase hpath⟩
  next =>
    split at hremoved
    next hempty =>
      simp only [Option.some.injEq, Prod.mk.injEq] at hremoved
      obtain ⟨_, rfl⟩ := hremoved
      exact ⟨rfl, node?_erase hempty.1⟩
    next => simp at hremoved

theorem remove_eq_none_iff {fs : FileSystem} {path : Path} :
    fs.remove path = none ↔
      fs.node? path = some .dir ∧ (path = [] ∨ fs.hasChild path = true) := by
  unfold remove
  split
  next hnode => simp [hnode]
  next hnode => simp [hnode]
  next hnode => simp [hnode]
  next hnode =>
    by_cases hroot : path = []
    · simp [hroot]
    · by_cases hchild : fs.hasChild path = true
      · simp [hnode, hchild]
      · simp [hnode, hroot, hchild]

/-! ## A tree with the working directory only -/

def bare (cwd : Path) : FileSystem := ⟨cwd, ∅, by simp⟩

/-- The working directory and the directories above it, and nothing else. -/
def empty (cwd : Path) : FileSystem :=
  ((bare cwd).makeDirectories cwd).getD (bare cwd)

theorem empty_eq (cwd : Path) :
    (empty cwd).cwd = cwd ∧ ∀ path, (empty cwd).node? path =
      if path <:+ cwd then some .dir else none := by
  have hbare : ∀ path, (bare cwd).node? path =
      if path = [] then some .dir else none := by
    intro path
    simp [node?, bare]
  obtain ⟨made, hmade⟩ := @makeDirectories_isSome (bare cwd) cwd (by
    intro ancestor node _ hnode
    rw [hbare, Option.ite_none_right_eq_some] at hnode
    exact (Option.some.inj hnode.2).symm)
  obtain ⟨hcwd, _, hnodes⟩ := makeDirectories_eq_some hmade
  rw [empty, hmade, Option.getD_some]
  refine ⟨hcwd, fun path => ?_⟩
  rw [hnodes, hbare]
  split
  next => rfl
  next hsuffix =>
    rw [if_neg]
    rintro rfl
    exact hsuffix List.nil_suffix

@[simp] theorem empty_cwd (cwd : Path) : (empty cwd).cwd = cwd :=
  (empty_eq cwd).1

@[simp] theorem node?_empty (cwd path : Path) :
    (empty cwd).node? path = if path <:+ cwd then some .dir else none :=
  (empty_eq cwd).2 path

theorem dir_of_node?_empty {cwd path : Path} {node : Node}
    (hnode : (empty cwd).node? path = some node) : node = .dir := by
  rw [node?_empty, Option.ite_none_right_eq_some] at hnode
  exact (Option.some.inj hnode.2).symm

end FileSystem

end FileTree
end Swifties
