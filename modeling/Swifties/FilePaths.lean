import Swifties.FileTree

/-!
# Path strings

The library calls of the server take paths as strings.  Lexically, empty and `.`
segments of a string are dropped and `..` drops the segment before it; a string
that does not begin with `/` is taken from the working directory.  The operations
below are those of `std::filesystem`, `boost::filesystem` and the file streams:
they walk along the segments and find what the lexical path leads to only if
every step is taken in a directory.
-/

namespace Swifties
namespace FileTree

def enter (path : Path) (segment : Text) : Path :=
  if segment = [] ∨ segment = ['.'] then path
  else if segment = ['.', '.'] then path.tail
  else segment :: path

def origin (cwd : Path) (s : Text) : Path :=
  if s.head? = some '/' then [] else cwd

def resolve (cwd : Path) (s : Text) : Path :=
  (s.splitOn '/').foldl enter (origin cwd s)

/-- `std::filesystem::path::parent_path` of a string that ends in a name. -/
def parentPath (s : Text) : Text :=
  match s.findLastOf '/' with
  | none => []
  | some 0 => ['/']
  | some i => s.take i

/-- A name that resolution neither drops nor takes as a way up. -/
def PlainName (name : Text) : Prop :=
  name ≠ [] ∧ name ≠ ['.'] ∧ name ≠ ['.', '.'] ∧ '/' ∉ name

theorem enter_plain {name : Text} (hname : PlainName name) (path : Path) :
    enter path name = name :: path := by
  obtain ⟨hnil, hdot, hdots, _⟩ := hname
  simp [enter, hnil, hdot, hdots]

theorem PlainName.up_not_mem {name : Text} (hname : PlainName name) :
    ['.', '.'] ∉ name.splitOn '/' := by
  rw [List.splitOn_eq_singleton hname.2.2.2, List.mem_singleton]
  exact Ne.symm hname.2.2.1

theorem plainName_decimal (n : ℤ) : PlainName (Text.decimal n) := by
  refine ⟨Text.decimal_ne_nil n, ?_, ?_, Text.slash_not_mem_decimal n⟩
  · intro heq
    have hdot := Text.dot_not_mem_decimal n
    simp [heq] at hdot
  · intro heq
    have hdot := Text.dot_not_mem_decimal n
    simp [heq] at hdot

theorem resolve_of_not_mem {s : Text} (hs : '/' ∉ s) (cwd : Path) :
    resolve cwd s = enter cwd s := by
  have horigin : origin cwd s = cwd := by
    unfold origin
    split
    next hhead => exact (hs (List.mem_of_mem_head? hhead)).elim
    next => rfl
  simp [resolve, horigin, List.splitOn_eq_singleton hs]

theorem resolve_append {a : Text} (ha : a ≠ []) (b : Text) (cwd : Path) :
    resolve cwd (a ++ '/' :: b) =
      (b.splitOn '/').foldl enter (resolve cwd a) := by
  have hhead : (a ++ '/' :: b).head? = a.head? := by
    cases a with
    | nil => exact (ha rfl).elim
    | cons c a => rfl
  simp [resolve, origin, hhead, List.splitOn_append_cons_self]

theorem splitOn_cons_slash (b : Text) :
    ('/' :: b).splitOn '/' = [] :: b.splitOn '/' := by
  simpa using List.splitOn_append_cons_self (a := '/') [] b

theorem resolve_cons_slash (b : Text) (cwd : Path) :
    resolve cwd ('/' :: b) = (b.splitOn '/').foldl enter [] := by
  simp [resolve, origin, splitOn_cons_slash, enter]

theorem resolve_append_plain {a b : Text} (ha : a ≠ []) (hb : PlainName b)
    (cwd : Path) : resolve cwd (a ++ '/' :: b) = b :: resolve cwd a := by
  rw [resolve_append ha, List.splitOn_eq_singleton hb.2.2.2]
  exact enter_plain hb _

theorem resolve_append_slash_slash (a b : Text) (cwd : Path) :
    resolve cwd (a ++ '/' :: '/' :: b) = resolve cwd (a ++ '/' :: b) := by
  by_cases ha : a = []
  · subst ha
    simp [resolve_cons_slash, splitOn_cons_slash, enter]
  · simp [resolve_append ha, splitOn_cons_slash, enter]

theorem resolve_base_append {base : Text} (hbase : base.getLast? = some '/')
    (s : Text) (cwd : Path) :
    resolve cwd (base ++ s) =
      (s.splitOn '/').foldl enter (resolve cwd base) := by
  obtain ⟨above, rfl⟩ := List.getLast?_eq_some_iff.mp hbase
  rw [List.append_assoc, List.singleton_append]
  by_cases habove : above = []
  · subst habove
    rw [List.nil_append, List.nil_append, resolve_cons_slash,
      resolve_cons_slash]
    rfl
  · rw [resolve_append habove, resolve_append habove]
    rfl

theorem foldl_enter_of_not_mem {segments : List Text}
    (hup : ['.', '.'] ∉ segments) (path : Path) :
    ∃ names, segments.foldl enter path = names ++ path := by
  induction segments generalizing path with
  | nil => exact ⟨[], rfl⟩
  | cons segment segments ih =>
      simp only [List.mem_cons, not_or] at hup
      obtain ⟨names, hnames⟩ := ih hup.2 (enter path segment)
      rw [List.foldl_cons, hnames]
      unfold enter
      split_ifs with hskip
      · exact ⟨names, rfl⟩
      · exact (hup.1 (by assumption : segment = _).symm).elim
      · exact ⟨names ++ [segment], by simp⟩

theorem parentPath_append {a b : Text} (hb : '/' ∉ b) :
    parentPath (a ++ '/' :: b) = if a = [] then ['/'] else a := by
  rw [parentPath, Text.findLastOf_append_cons hb]
  cases a <;> simp

theorem resolve_slash (cwd : Path) : resolve cwd ['/'] = [] := by
  simp [resolve_cons_slash, enter]

/-- A plain name glued to any base only changes the last name of the path.  It
is the whole last name when the base is empty or ends with a slash. -/
theorem resolve_glue (cwd : Path) (base : Text) :
    ∃ stem parent, (base ≠ [] → base.getLast? ≠ some '/' → stem ≠ []) ∧
      ∀ name, PlainName name →
        resolve cwd (base ++ name) = (stem ++ name) :: parent := by
  have hglued : ∀ stem name : Text, '/' ∉ stem → PlainName name →
      PlainName (stem ++ name) := by
    intro stem name hstem ⟨hnil, hdot, hdots, hslash⟩
    refine ⟨by simp [hnil], ?_, ?_, by simp [hstem, hslash]⟩
    · intro heq
      rcases List.append_eq_singleton_iff.mp heq with ⟨_, h⟩ | ⟨_, h⟩
      · exact hdot h
      · exact hnil h
    · intro heq
      rcases stem with _ | ⟨c, _ | ⟨d, stem⟩⟩
      · exact hdots heq
      · simp only [List.cons_append, List.nil_append, List.cons.injEq] at heq
        exact hdot heq.2
      · simp only [List.cons_append, List.cons.injEq, List.append_eq_nil_iff]
          at heq
        exact hnil heq.2.2.2
  rcases Text.exists_split_last base '/' with hbase | ⟨above, stem, rfl, hstem⟩
  · refine ⟨base, cwd, fun hne _ => hne, fun name hname => ?_⟩
    have hplain := hglued base name hbase hname
    rw [resolve_of_not_mem hplain.2.2.2, enter_plain hplain]
  · have hne : above ++ '/' :: stem ≠ [] →
        (above ++ '/' :: stem).getLast? ≠ some '/' → stem ≠ [] := by
      rintro _ hlast rfl
      simp at hlast
    by_cases habove : above = []
    · subst habove
      refine ⟨stem, [], hne, fun name hname => ?_⟩
      have hplain := hglued stem name hstem hname
      rw [List.nil_append, List.cons_append, resolve_cons_slash,
        List.splitOn_eq_singleton hplain.2.2.2]
      exact enter_plain hplain []
    · refine ⟨stem, resolve cwd above, hne, fun name hname => ?_⟩
      rw [List.append_assoc, List.cons_append,
        resolve_append_plain habove (hglued stem name hstem hname)]

/-! ## Walking along a path -/

/-- The paths that a walk along the segments comes through. -/
def visited : Path → List Text → List Path
  | path, [] => [path]
  | path, segment :: segments => path :: visited (enter path segment) segments

theorem foldl_enter_mem_visited (path : Path) (segments : List Text) :
    segments.foldl enter path ∈ visited path segments := by
  induction segments generalizing path with
  | nil => exact List.mem_singleton_self path
  | cons segment segments ih => exact List.mem_cons_of_mem _ (ih _)

/-- A walk without `..` only goes down. -/
theorem suffix_of_mem_visited {segments : List Text}
    (hup : ['.', '.'] ∉ segments) {path step : Path}
    (hstep : step ∈ visited path segments) :
    step <:+ segments.foldl enter path := by
  induction segments generalizing path with
  | nil =>
      rw [visited, List.mem_singleton] at hstep
      rw [hstep]
      exact List.suffix_rfl
  | cons segment segments ih =>
      rw [visited, List.mem_cons] at hstep
      rcases hstep with rfl | hlater
      · obtain ⟨names, hnames⟩ := foldl_enter_of_not_mem hup step
        exact ⟨names, hnames.symm⟩
      · exact ih (fun hmem => hup (List.mem_cons_of_mem _ hmem)) hlater

/-- What is on the way of a walk along the string: the paths it comes through
and what is above them. -/
def OnWay (cwd : Path) (s : Text) (path : Path) : Prop :=
  ∃ step ∈ visited (origin cwd s) (s.splitOn '/'), path <:+ step

instance (cwd : Path) (s : Text) (path : Path) : Decidable (OnWay cwd s path) :=
  inferInstanceAs (Decidable (∃ step ∈ _, _))

theorem onWay_of_suffix {cwd : Path} {s : Text} {path : Path}
    (hsuffix : path <:+ resolve cwd s) : OnWay cwd s path :=
  ⟨_, foldl_enter_mem_visited _ _, hsuffix⟩

theorem onWay_iff {s : Text} (hup : ['.', '.'] ∉ s.splitOn '/') {cwd path : Path} :
    OnWay cwd s path ↔ path <:+ resolve cwd s := by
  constructor
  · rintro ⟨step, hstep, hsuffix⟩
    exact hsuffix.trans (suffix_of_mem_visited hup hstep)
  · exact onWay_of_suffix

theorem mem_visited_append {path step : Path} {segments rest : List Text} :
    step ∈ visited path (segments ++ rest) ↔
      step ∈ visited path segments ∨
        step ∈ visited (segments.foldl enter path) rest := by
  induction segments generalizing path with
  | nil =>
      have hself : path ∈ visited path rest := by cases rest <;> simp [visited]
      rw [List.nil_append, visited, List.mem_singleton, List.foldl_nil]
      exact ⟨.inr, fun h => h.elim (fun heq => heq ▸ hself) id⟩
  | cons segment segments ih => simp [visited, ih, or_assoc]

theorem onWay_append_slash_slash (a b : Text) (cwd path : Path) :
    OnWay cwd (a ++ '/' :: '/' :: b) path ↔ OnWay cwd (a ++ '/' :: b) path := by
  have horigin : origin cwd (a ++ '/' :: '/' :: b) =
      origin cwd (a ++ '/' :: b) := by
    cases a <;> rfl
  have hskip : ∀ found : Path, visited found ([] :: b.splitOn '/') =
      found :: visited found (b.splitOn '/') := fun _ => rfl
  have hfound := foldl_enter_mem_visited (origin cwd (a ++ '/' :: b))
    (a.splitOn '/')
  simp only [OnWay, List.splitOn_append_cons_self, splitOn_cons_slash, horigin,
    mem_visited_append, hskip, List.mem_cons, ← or_assoc]
  refine exists_congr fun step => and_congr_left fun _ => ?_
  rw [or_iff_left_of_imp (b := step = _) (by rintro rfl; exact hfound)]

theorem onWay_append_plain {a name : Text} (ha : a ≠ [])
    (hname : PlainName name) (cwd path : Path) :
    OnWay cwd (a ++ '/' :: name) path ↔
      OnWay cwd a path ∨ path = name :: resolve cwd a := by
  have horigin : origin cwd (a ++ '/' :: name) = origin cwd a := by
    cases a with
    | nil => exact (ha rfl).elim
    | cons c a => rfl
  have hend : (a.splitOn '/').foldl enter (origin cwd a) = resolve cwd a := rfl
  have hlast := foldl_enter_mem_visited (origin cwd a) (a.splitOn '/')
  rw [OnWay, OnWay, horigin, List.splitOn_append_cons_self,
    List.splitOn_eq_singleton hname.2.2.2]
  simp only [mem_visited_append, visited, hend, enter_plain hname,
    List.mem_cons, List.not_mem_nil, or_false]
  constructor
  · rintro ⟨step, hstep | rfl | rfl, hsuffix⟩
    · exact .inl ⟨step, hstep, hsuffix⟩
    · exact .inl ⟨_, hlast, hsuffix⟩
    · rcases List.suffix_cons_iff.mp hsuffix with heq | habove
      · exact .inr heq
      · exact .inl ⟨_, hlast, habove⟩
  · rintro (⟨step, hstep, hsuffix⟩ | rfl)
    · exact ⟨step, .inl hstep, hsuffix⟩
    · exact ⟨_, .inr (.inr rfl), List.suffix_rfl⟩

/-- The names on a way are those of its start and its segments. -/
theorem mem_of_mem_visited {path step : Path} {segments : List Text}
    (hstep : step ∈ visited path segments) {name : Text} (hname : name ∈ step) :
    name ∈ path ∨ name ∈ segments := by
  induction segments generalizing path with
  | nil =>
      rw [visited, List.mem_singleton] at hstep
      exact .inl (hstep ▸ hname)
  | cons segment segments ih =>
      rw [visited, List.mem_cons] at hstep
      rcases hstep with rfl | hlater
      · exact .inl hname
      · rcases ih hlater with hpath | hrest
        · unfold enter at hpath
          split_ifs at hpath
          · exact .inl hpath
          · exact .inl (List.mem_of_mem_tail hpath)
          · exact (List.mem_cons.mp hpath).symm.imp_right fun heq =>
              List.mem_cons.mpr (.inl heq)
        · exact .inr (List.mem_cons_of_mem _ hrest)

/-- Gluing strings together joins the last segment of the one and the first of
the other. -/
theorem splitOn_glue (base : Text) :
    ∃ segments stem, ∀ s : Text, ∃ first rest,
      s.splitOn '/' = first :: rest ∧
        (base ++ s).splitOn '/' = segments ++ (stem ++ first) :: rest := by
  obtain ⟨segments, stem, hname⟩ : ∃ segments stem, ∀ name : Text, '/' ∉ name →
      (base ++ name).splitOn '/' = segments ++ [stem ++ name] := by
    rcases Text.exists_split_last base '/' with hbase |
      ⟨above, stem, rfl, hstem⟩
    · refine ⟨[], base, fun name hname => ?_⟩
      rw [List.splitOn_eq_singleton (by simp [hbase, hname]), List.nil_append]
    · refine ⟨above.splitOn '/', stem, fun name hname => ?_⟩
      have hlast : '/' ∉ stem ++ name := by simp [hstem, hname]
      rw [List.append_assoc, List.cons_append, List.splitOn_append_cons_self,
        List.splitOn_eq_singleton hlast]
  refine ⟨segments, stem, fun s => ?_⟩
  by_cases hs : '/' ∈ s
  · obtain ⟨first, rest, rfl, hfirst⟩ := List.eq_append_cons_of_mem hs
    refine ⟨first, rest.splitOn '/', ?_, ?_⟩
    · rw [List.splitOn_append_cons_self, List.splitOn_eq_singleton hfirst,
        List.singleton_append]
    · rw [← List.append_assoc, List.splitOn_append_cons_self,
        hname first hfirst, List.append_assoc, List.singleton_append]
  · exact ⟨s, [], List.splitOn_eq_singleton hs, hname s hs⟩

theorem splitOn_of_glue {base stem : Text} {segments : List Text}
    (hglue : ∀ s : Text, ∃ first rest, s.splitOn '/' = first :: rest ∧
      (base ++ s).splitOn '/' = segments ++ (stem ++ first) :: rest) :
    base.splitOn '/' = segments ++ [stem] := by
  obtain ⟨first, rest, hnil, hbase⟩ := hglue []
  rw [List.splitOn_nil, List.cons.injEq] at hnil
  obtain ⟨rfl, rfl⟩ := hnil
  rwa [List.append_nil, List.append_nil] at hbase

theorem length_le_of_mem_splitOn {s segment : Text} {c : Char}
    (hsegment : segment ∈ s.splitOn c) : segment.length ≤ s.length := by
  have hmem : ∀ segments : List Text, segment ∈ segments →
      segment ∈ segments.intersperse [c] := by
    intro segments hsegments
    induction segments with
    | nil => cases hsegments
    | cons first segments ih =>
        cases segments with
        | nil => exact hsegments
        | cons second segments =>
            rw [List.mem_cons] at hsegments
            rw [List.intersperse_cons_cons, List.mem_cons, List.mem_cons]
            exact hsegments.imp_right fun hlater => .inr (ih hlater)
  have hsublist := List.sublist_flatten_of_mem (hmem _ hsegment)
  have hwhole : (List.intersperse [c] (s.splitOn c)).flatten = s :=
    List.intercalate_splitOn c
  rw [hwhole] at hsublist
  exact hsublist.length_le

/-- The way along a base and a string without `..` consists of steps that only
the base decides, with names no longer than the base, and of what is above the
end. -/
theorem onWay_glue (cwd : Path) (base : Text) :
    ∃ steps : List Path,
      (∀ step ∈ steps, ∀ name ∈ step,
        name ∈ cwd ∨ name.length ≤ base.length) ∧
      ∀ s : Text, ['.', '.'] ∉ s.splitOn '/' → ∀ path,
        OnWay cwd (base ++ s) path ↔
          (∃ step ∈ steps, path <:+ step) ∨
            path <:+ resolve cwd (base ++ s) := by
  by_cases hbase : base = []
  · refine ⟨[], by simp, fun s hup path => ?_⟩
    rw [hbase, List.nil_append, onWay_iff hup]
    simp
  have horigin : ∀ s : Text, origin cwd (base ++ s) = origin cwd base := by
    intro s
    cases base with
    | nil => exact (hbase rfl).elim
    | cons c base => rfl
  obtain ⟨segments, stem, hglue⟩ := splitOn_glue base
  refine ⟨visited (origin cwd base) segments, ?_, fun s hup path => ?_⟩
  · intro step hstep name hname
    rcases mem_of_mem_visited hstep hname with hstart | hsegment
    · unfold origin at hstart
      split at hstart
      next => cases hstart
      next => exact .inl hstart
    · refine .inr (length_le_of_mem_splitOn (c := '/') ?_)
      rw [splitOn_of_glue hglue]
      exact List.mem_append_left _ hsegment
  · obtain ⟨first, rest, hfirst, hsegments⟩ := hglue s
    rw [hfirst, List.mem_cons, not_or] at hup
    rw [OnWay, resolve, hsegments, horigin]
    simp only [mem_visited_append, visited, List.mem_cons, List.foldl_append,
      List.foldl_cons]
    have hstart := foldl_enter_mem_visited (origin cwd base) segments
    constructor
    · rintro ⟨step, hstep | rfl | hstep, hsuffix⟩
      · exact .inl ⟨step, hstep, hsuffix⟩
      · exact .inl ⟨_, hstart, hsuffix⟩
      · exact .inr (hsuffix.trans (suffix_of_mem_visited hup.2 hstep))
    · rintro (⟨step, hstep, hsuffix⟩ | hsuffix)
      · exact ⟨step, .inl hstep, hsuffix⟩
      · exact ⟨_, .inr (.inr (foldl_enter_mem_visited _ _)), hsuffix⟩

/-- Below a base that ends with a slash, a string without `..` leads straight
down. -/
theorem onWay_base_append {base : Text} (hbase : base.getLast? = some '/')
    {s : Text} (hup : ['.', '.'] ∉ s.splitOn '/') (cwd path : Path) :
    OnWay cwd (base ++ s) path ↔
      OnWay cwd base path ∨ path <:+ resolve cwd (base ++ s) := by
  obtain ⟨steps, _, hsteps⟩ := onWay_glue cwd base
  have hself := hsteps [] (by simp) path
  rw [List.append_nil] at hself
  have hbelow : path <:+ resolve cwd base →
      path <:+ resolve cwd (base ++ s) := by
    intro habove
    obtain ⟨names, hnames⟩ := foldl_enter_of_not_mem hup (resolve cwd base)
    rw [resolve_base_append hbase, hnames]
    exact habove.trans (List.suffix_append _ _)
  rw [hsteps s hup, hself, or_assoc, or_iff_right_of_imp hbelow]

namespace FileSystem

/-- Each segment is looked up in a directory, so that no segment, not even `..`,
follows a name that is missing or that of a regular file. -/
def walk (fs : FileSystem) : Path → List Text → Option Path
  | path, [] => some path
  | path, segment :: segments =>
      if fs.node? path = some .dir then fs.walk (enter path segment) segments
      else none

/-- The path that a string names, as long as the walk gets there; the last name
may be missing. -/
def locate (fs : FileSystem) (s : Text) : Option Path :=
  if s = [] then none else fs.walk (origin fs.cwd s) (s.splitOn '/')

def status (fs : FileSystem) (s : Text) : Option Node :=
  (fs.locate s).bind fs.node?

/-- `filesystem::exists`: true of files and directories alike. -/
def exists? (fs : FileSystem) (s : Text) : Bool := (fs.status s).isSome

/-- `std::filesystem::create_directories`; `none` is a `filesystem_error`.  The
directories that a `..` leaves again are made, too. -/
def createDirectories (fs : FileSystem) (s : Text) : Option FileSystem :=
  if s = [] then none
  else (visited (origin fs.cwd s) (s.splitOn '/')).foldlM makeDirectories fs

def writeFile (fs : FileSystem) (s data : Text) : FileSystem :=
  match fs.locate s with
  | none => fs
  | some path => fs.write path data

def readFile (fs : FileSystem) (s : Text) : Text :=
  match fs.status s with
  | some (.file data) => data
  | _ => []

/-- `boost::filesystem::remove`; `none` is a `filesystem_error`. -/
def removePath (fs : FileSystem) (s : Text) : Option (Bool × FileSystem) :=
  match fs.locate s with
  | none => some (false, fs)
  | some path => fs.remove path

theorem walk_append (fs : FileSystem) (path : Path) (segments : List Text)
    (segment : Text) :
    fs.walk path (segments ++ [segment]) =
      (fs.walk path segments).bind fun found =>
        if fs.node? found = some .dir then some (enter found segment)
        else none := by
  induction segments generalizing path with
  | nil => rfl
  | cons first segments ih =>
      rw [List.cons_append, walk, walk]
      split
      next => exact ih _
      next => rfl

theorem walk_eq {fs : FileSystem} {path found : Path} {segments : List Text}
    (hwalk : fs.walk path segments = some found) :
    found = segments.foldl enter path := by
  induction segments generalizing path with
  | nil => exact (Option.some.inj hwalk).symm
  | cons segment segments ih =>
      rw [walk, Option.ite_none_right_eq_some] at hwalk
      exact ih hwalk.2

/-- A walk that ends in a directory comes through directories only. -/
theorem dir_of_walk {fs : FileSystem} {path found : Path}
    {segments : List Text} (hwalk : fs.walk path segments = some found)
    (hfound : fs.node? found = some .dir) :
    ∀ step ∈ visited path segments, fs.node? step = some .dir := by
  induction segments generalizing path with
  | nil =>
      cases hwalk
      rw [visited, List.forall_mem_singleton]
      exact hfound
  | cons segment segments ih =>
      rw [walk, Option.ite_none_right_eq_some] at hwalk
      rw [visited, List.forall_mem_cons]
      exact ⟨hwalk.1, ih hwalk.2⟩

theorem walk_of_dirs {fs : FileSystem} {path : Path} {segments : List Text}
    (hdirs : ∀ step ∈ visited path segments, fs.node? step = some .dir) :
    fs.walk path segments = some (segments.foldl enter path) := by
  induction segments generalizing path with
  | nil => rfl
  | cons segment segments ih =>
      rw [visited, List.forall_mem_cons] at hdirs
      rw [walk, if_pos hdirs.1, ih hdirs.2, List.foldl_cons]

theorem node?_above {fs : FileSystem} {path above : Path}
    (hdir : fs.node? path = some .dir) (hsuffix : above <:+ path) :
    fs.node? above = some .dir := by
  by_cases heq : above = path
  · rwa [heq]
  · exact node?_ancestor hdir hsuffix heq

/-- A string names a directory exactly if all on the way are directories. -/
theorem status_eq_dir_iff {fs : FileSystem} {s : Text} (hs : s ≠ []) :
    fs.status s = some .dir ↔
      ∀ path, OnWay fs.cwd s path → fs.node? path = some .dir := by
  rw [status, locate, if_neg hs]
  constructor
  · intro hstatus path ⟨step, hstep, hsuffix⟩
    obtain ⟨found, hwalk, hfound⟩ := Option.bind_eq_some_iff.mp hstatus
    exact node?_above (dir_of_walk hwalk hfound step hstep) hsuffix
  · intro hdirs
    have hwalk := walk_of_dirs fun step hstep =>
      hdirs step ⟨step, hstep, List.suffix_rfl⟩
    rw [hwalk, Option.bind_some]
    exact hdirs _ (onWay_of_suffix List.suffix_rfl)

/-- A path to a name in a directory leads there if the directory is found. -/
theorem locate_plain {name : Text} (hname : PlainName name) {a : Text}
    (ha : a ≠ []) (fs : FileSystem) :
    fs.locate (a ++ '/' :: name) =
      if fs.status a = some .dir then some (resolve fs.cwd (a ++ '/' :: name))
      else none := by
  have horigin : origin fs.cwd (a ++ '/' :: name) = origin fs.cwd a := by
    cases a with
    | nil => exact (ha rfl).elim
    | cons c a => rfl
  rw [locate, if_neg (by simp), horigin, List.splitOn_append_cons_self,
    List.splitOn_eq_singleton hname.2.2.2, walk_append, status, locate,
    if_neg ha, resolve_append_plain ha hname]
  cases hwalk : fs.walk (origin fs.cwd a) (a.splitOn '/') with
  | none => rfl
  | some found =>
      have hfound : found = resolve fs.cwd a := walk_eq hwalk
      rw [Option.bind_some, Option.bind_some, enter_plain hname, hfound]

/-- What `makeDirectories` does along a list of paths. -/
theorem foldlM_makeDirectories {fs made : FileSystem} {paths : List Path}
    (hmade : paths.foldlM makeDirectories fs = some made) :
    made.cwd = fs.cwd ∧
      (∀ step ∈ paths, ∀ ancestor node, ancestor <:+ step →
        fs.node? ancestor = some node → node = .dir) ∧
      ∀ other, made.node? other =
        if ∃ step ∈ paths, other <:+ step then some .dir
        else fs.node? other := by
  induction paths generalizing fs with
  | nil =>
      cases hmade
      simp
  | cons path paths ih =>
      rw [List.foldlM_cons] at hmade
      obtain ⟨first, hfirst, hrest⟩ := Option.bind_eq_some_iff.mp hmade
      obtain ⟨hcwd, hfree, hnodes⟩ := makeDirectories_eq_some hfirst
      obtain ⟨hcwd', hfree', hnodes'⟩ := ih hrest
      refine ⟨hcwd'.trans hcwd, ?_, fun other => ?_⟩
      · rw [List.forall_mem_cons]
        refine ⟨hfree, fun step hstep ancestor node hsuffix hnode => ?_⟩
        have hlater := hfree' step hstep ancestor node hsuffix
        rw [hnodes] at hlater
        split at hlater
        next habove => exact hfree ancestor node habove hnode
        next => exact hlater hnode
      · rw [hnodes', hnodes]
        by_cases hpath : other <:+ path
        · simp [hpath]
        · simp [hpath]

theorem exists_foldlM_makeDirectories {fs : FileSystem} {paths : List Path}
    (hfree : ∀ step ∈ paths, ∀ ancestor node, ancestor <:+ step →
      fs.node? ancestor = some node → node = .dir) :
    ∃ made, paths.foldlM makeDirectories fs = some made := by
  induction paths generalizing fs with
  | nil => exact ⟨fs, rfl⟩
  | cons path paths ih =>
      rw [List.forall_mem_cons] at hfree
      obtain ⟨first, hfirst⟩ := makeDirectories_isSome hfree.1
      obtain ⟨_, _, hnodes⟩ := makeDirectories_eq_some hfirst
      obtain ⟨made, hmade⟩ := @ih first (by
        intro step hstep ancestor node hsuffix hnode
        rw [hnodes] at hnode
        split at hnode
        next => exact (Option.some.inj hnode).symm
        next => exact hfree.2 step hstep ancestor node hsuffix hnode)
      exact ⟨made, by rw [List.foldlM_cons, hfirst]; exact hmade⟩

/-- What `createDirectories` does where it does not throw: all on the way are
directories, and nothing else changed. -/
theorem createDirectories_eq_some {fs made : FileSystem} {s : Text}
    (hmade : fs.createDirectories s = some made) :
    made.cwd = fs.cwd ∧ ∀ other, made.node? other =
      if OnWay fs.cwd s other then some .dir else fs.node? other := by
  rw [createDirectories, Option.ite_none_left_eq_some] at hmade
  obtain ⟨hcwd, _, hnodes⟩ := foldlM_makeDirectories hmade.2
  exact ⟨hcwd, hnodes⟩

/-- It throws exactly if something else than a directory is on the way. -/
theorem createDirectories_eq_none_iff {fs : FileSystem} {s : Text}
    (hs : s ≠ []) :
    fs.createDirectories s = none ↔
      ∃ path node, OnWay fs.cwd s path ∧ fs.node? path = some node ∧
        node ≠ .dir := by
  rw [createDirectories, if_neg hs]
  constructor
  · intro hnone
    by_contra hfree
    obtain ⟨made, hmade⟩ := @exists_foldlM_makeDirectories fs
      (visited (origin fs.cwd s) (s.splitOn '/')) (by
        intro step hstep ancestor node hsuffix hnode
        by_contra hdir
        exact hfree ⟨ancestor, node, ⟨step, hstep, hsuffix⟩, hnode, hdir⟩)
    rw [hnone] at hmade
    cases hmade
  · rintro ⟨path, node, ⟨step, hstep, hsuffix⟩, hnode, hdir⟩
    rw [Option.eq_none_iff_forall_ne_some]
    intro made hmade
    obtain ⟨_, hfree, _⟩ := foldlM_makeDirectories hmade
    exact hdir (hfree step hstep path node hsuffix hnode)

theorem createDirectories_of_status {fs : FileSystem} {s : Text}
    (hs : s ≠ []) (hstatus : fs.status s = some .dir) :
    fs.createDirectories s = some fs := by
  rw [status_eq_dir_iff hs] at hstatus
  have hall : ∀ paths : List Path, (∀ path ∈ paths, fs.node? path = some .dir) →
      paths.foldlM makeDirectories fs = some fs := by
    intro paths hpaths
    induction paths with
    | nil => rfl
    | cons path paths ih =>
        rw [List.forall_mem_cons] at hpaths
        rw [List.foldlM_cons, makeDirectories_of_dir hpaths.1]
        exact ih hpaths.2
  rw [createDirectories, if_neg hs]
  exact hall _ fun path hpath => hstatus path ⟨path, hpath, List.suffix_rfl⟩

end FileSystem

end FileTree
end Swifties
