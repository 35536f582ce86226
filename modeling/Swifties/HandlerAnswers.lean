import Swifties.ResponseFields

/-!
# What the handlers answer with

An echo can be read back: two requests with the same echo are the same.  The
static handler answers with the file it finds, under the type that the ending of
its name has in the table.
-/

namespace Swifties

open FileTree

/-! ## Echoes -/

/-- The two texts up to a character that is in neither part before it. -/
theorem Text.append_cons_inj {s s' t t' : Text} {c : Char} (hs : c ∉ s)
    (hs' : c ∉ s') (heq : s ++ c :: t = s' ++ c :: t') : s = s' ∧ t = t' := by
  have hlength : s.length = s'.length := by
    have hfind := Text.find_append_cons (t := t) hs
    rw [heq, Text.find_append_cons hs', Option.some.injEq] at hfind
    exact hfind.symm
  obtain ⟨hstart, hrest⟩ := List.append_inj heq hlength
  exact ⟨hstart, (List.cons.inj hrest).2⟩

namespace Request

/-- What a parsed request never has: a space in the method or in the target, a
colon in a field name, or the end of a line in a field. -/
structure WellFormed (req : Request) : Prop where
  method : ' ' ∉ req.methodString
  target : ' ' ∉ req.target
  name : ∀ field ∈ req.fields, ':' ∉ field.1 ∧ '\r' ∉ field.1
  value : ∀ field ∈ req.fields, '\r' ∉ field.2

end Request

def fieldLine (field : Text × Text) : Text :=
  field.1 ++ ": ".toList ++ field.2 ++ ['\r', '\n']

theorem fieldLine_append (field : Text × Text) (rest : Text) :
    fieldLine field ++ rest =
      field.1 ++ ':' :: ' ' :: (field.2 ++ '\r' :: '\n' :: rest) := by
  simp [fieldLine]

/-- No field begins like the empty line behind the fields. -/
theorem fieldLine_ne_cr {field : Text × Text} (hname : '\r' ∉ field.1)
    (rest tail : Text) : fieldLine field ++ rest ≠ '\r' :: tail := by
  rw [fieldLine_append]
  intro heq
  cases hfield : field.1 with
  | nil =>
      rw [hfield] at heq
      cases heq
  | cons c name =>
      rw [hfield, List.cons_append, List.cons.injEq] at heq
      rw [hfield, heq.1] at hname
      exact hname List.mem_cons_self

theorem fields_inj {fields fields' : List (Text × Text)} {body body' : Text}
    (hname : ∀ field ∈ fields, ':' ∉ field.1 ∧ '\r' ∉ field.1)
    (hvalue : ∀ field ∈ fields, '\r' ∉ field.2)
    (hname' : ∀ field ∈ fields', ':' ∉ field.1 ∧ '\r' ∉ field.1)
    (hvalue' : ∀ field ∈ fields', '\r' ∉ field.2)
    (heq : fields.flatMap fieldLine ++ '\r' :: '\n' :: body =
      fields'.flatMap fieldLine ++ '\r' :: '\n' :: body') :
    fields = fields' ∧ body = body' := by
  induction fields generalizing fields' with
  | nil =>
      cases fields' with
      | nil => simpa using heq
      | cons field' fields' =>
          rw [List.forall_mem_cons] at hname'
          rw [List.flatMap_cons, List.append_assoc] at heq
          exact (fieldLine_ne_cr hname'.1.2 _ _ heq.symm).elim
  | cons field fields ih =>
      rw [List.forall_mem_cons] at hname hvalue
      cases fields' with
      | nil =>
          rw [List.flatMap_cons, List.append_assoc] at heq
          exact (fieldLine_ne_cr hname.1.2 _ _ heq).elim
      | cons field' fields' =>
          rw [List.forall_mem_cons] at hname' hvalue'
          rw [List.flatMap_cons, List.flatMap_cons, List.append_assoc,
            List.append_assoc, fieldLine_append, fieldLine_append] at heq
          obtain ⟨hfirst, hrest⟩ :=
            Text.append_cons_inj hname.1.1 hname'.1.1 heq
          obtain ⟨hsecond, hrest⟩ :=
            Text.append_cons_inj hvalue.1 hvalue'.1 (List.cons.inj hrest).2
          obtain ⟨hfields, hbody⟩ := ih hname.2 hvalue.2 hname'.2 hvalue'.2
            (List.cons.inj hrest).2
          exact ⟨by rw [Prod.ext hfirst hsecond, hfields], hbody⟩

theorem requestToString_eq (req : Request) :
    requestToString req =
      req.methodString ++ ' ' :: (req.target ++ ' ' :: ("HTTP/".toList ++
        (Text.decimal (req.version / 10 : ℕ) ++ '.' ::
          (Text.decimal (req.version % 10 : ℕ) ++ '\r' :: '\n' ::
            (req.fields.flatMap fieldLine ++ '\r' :: '\n' :: req.body))))) := by
  have hlines : (req.fields.flatMap fun field =>
      field.1 ++ ": ".toList ++ field.2 ++ ['\r', '\n']) =
        req.fields.flatMap fieldLine := rfl
  rw [requestToString, hlines]
  simp

theorem requestToString_inj {req other : Request} (hreq : req.WellFormed)
    (hother : other.WellFormed)
    (heq : requestToString req = requestToString other) : req = other := by
  rw [requestToString_eq, requestToString_eq] at heq
  obtain ⟨hmethod, heq⟩ := Text.append_cons_inj hreq.method hother.method heq
  obtain ⟨htarget, heq⟩ := Text.append_cons_inj hreq.target hother.target heq
  have hdot : ∀ n : ℤ, '.' ∉ Text.decimal n := fun n =>
    Text.not_mem_decimal (by decide) (by decide)
  have hcr : ∀ n : ℤ, '\r' ∉ Text.decimal n := fun n =>
    Text.not_mem_decimal (by decide) (by decide)
  obtain ⟨hmajor, heq⟩ := Text.append_cons_inj (hdot _) (hdot _)
    (List.append_cancel_left heq)
  obtain ⟨hminor, heq⟩ := Text.append_cons_inj (hcr _) (hcr _) heq
  obtain ⟨hfields, hbody⟩ := fields_inj hreq.name hreq.value hother.name
    hother.value (List.cons.inj heq).2
  have hversion : req.version = other.version := by
    have hquotient := Text.decimal_injective hmajor
    have hremainder := Text.decimal_injective hminor
    omega
  cases req
  cases other
  simp only at hmethod htarget hversion hfields hbody
  rw [hmethod, htarget, hversion, hfields, hbody]

/-- The body of an echo is the request: whatever is in the response before, two
requests are echoed alike only if they have the same method, target, version,
fields in the same order, and body. -/
theorem echo_body_eq_iff {req other : Request} (hreq : req.WellFormed)
    (hother : other.WellFormed) (res res' : Response) :
    (RequestHandlerEcho.handleRequest req res).body =
        (RequestHandlerEcho.handleRequest other res').body ↔ req = other := by
  constructor
  · intro hbody
    exact requestToString_inj hreq hother hbody
  · rintro rfl
    rfl

/-- The fields of the second request are in the body of the first one. -/
theorem echo_body_eq_iff_fields :
    let get : Request := ⟨"GET".toList, "/echo".toList, 11,
      [("Host".toList, "a".toList)], "b: c\r\n\r\n".toList⟩
    let other : Request := ⟨"GET".toList, "/echo".toList, 11,
      [("Host".toList, "a".toList), ("b".toList, "c".toList)], []⟩
    (RequestHandlerEcho.handleRequest get (.make .ok 11)).body =
        (RequestHandlerEcho.handleRequest other (.make .ok 11)).body ↔
      get = other :=
  echo_body_eq_iff ⟨by decide, by decide, by decide, by decide⟩
    ⟨by decide, by decide, by decide, by decide⟩ _ _

/-! ## Files -/

theorem extensionToType_eq_iff {extension type : Text} :
    extensionToType extension = type ↔
      (extension, type) ∈ mappings ∨
        type = "text/plain".toList ∧ ∀ m ∈ mappings, m.1 ≠ extension := by
  have hfirst : ∀ m ∈ mappings,
      mappings.find? (fun n => n.1 == m.1) = some m := by
    decide
  rw [extensionToType]
  cases hfind : mappings.find? fun m => m.1 == extension with
  | none =>
      rw [List.find?_eq_none] at hfind
      have hother : ∀ m ∈ mappings, m.1 ≠ extension := by
        intro m hm heq
        exact hfind m hm (by simp [heq])
      constructor
      · intro htype
        exact .inr ⟨htype.symm, hother⟩
      · rintro (hmem | ⟨rfl, _⟩)
        · exact (hother _ hmem rfl).elim
        · rfl
  | some m =>
      have hm := List.mem_of_find?_eq_some hfind
      have heq : m.1 = extension := by
        simpa using List.find?_some hfind
      subst heq
      constructor
      · rintro rfl
        exact .inl hm
      · rintro (hmem | ⟨_, hother⟩)
        · have hsame := hfirst _ hmem
          rw [hfind] at hsame
          rw [Option.some.inj hsame]
        · exact (hother m hm rfl).elim

theorem dot_suffix_iff {base extension other : Text}
    (hextension : '.' ∉ extension) (hother : '.' ∉ other) :
    '.' :: other <:+ base ++ '.' :: extension ↔ other = extension := by
  constructor
  · intro hsuffix
    rcases List.suffix_or_suffix_of_suffix hsuffix
      (List.suffix_append base ('.' :: extension)) with hin | hin
    · rcases List.suffix_cons_iff.mp hin with heq | hin
      · exact (List.cons.inj heq).2
      · exact (hextension (hin.subset List.mem_cons_self)).elim
    · rcases List.suffix_cons_iff.mp hin with heq | hin
      · exact (List.cons.inj heq).2.symm
      · exact (hother (hin.subset List.mem_cons_self)).elim
  · rintro rfl
    exact List.suffix_append base _

namespace RequestHandlerStatic

/-- The path that is opened always has a dot, in the `../` at its start. -/
theorem exists_extension (handler : RequestHandlerStatic) (target : Text) :
    ∃ base extension, handler.uri target = base ++ '.' :: extension ∧
      '.' ∉ extension := by
  rcases Text.exists_split_last (handler.uri target) '.' with hnone | hsplit
  · exact (hnone (by simp [uri])).elim
  · exact hsplit

/-- The type of the ending that the path has, if there is one in the table. -/
def TypeOf (uri type : Text) : Prop :=
  (∃ extension, (extension, type) ∈ mappings ∧ '.' :: extension <:+ uri) ∨
    type = "text/plain".toList ∧
      ∀ m ∈ mappings, ¬ '.' :: m.1 <:+ uri

theorem typeOf_iff {base extension type : Text} (hdot : '.' ∉ extension) :
    TypeOf (base ++ '.' :: extension) type ↔
      extensionToType extension = type := by
  have hdots : ∀ m ∈ mappings, '.' ∉ m.1 := by decide
  rw [TypeOf, extensionToType_eq_iff]
  constructor
  · rintro (⟨other, hmem, hsuffix⟩ | ⟨htype, hnone⟩)
    · rw [dot_suffix_iff hdot (hdots _ hmem)] at hsuffix
      rw [← hsuffix]
      exact .inl hmem
    · refine .inr ⟨htype, fun m hm heq => hnone m hm ?_⟩
      exact (dot_suffix_iff hdot (hdots m hm)).mpr heq
  · rintro (hmem | ⟨htype, hother⟩)
    · exact .inl ⟨extension, hmem, List.suffix_append base _⟩
    · refine .inr ⟨htype, fun m hm hsuffix => hother m hm ?_⟩
      exact (dot_suffix_iff hdot (hdots m hm)).mp hsuffix

theorem shown_of_file {handler : RequestHandlerStatic} {req : Request}
    {fs : FileSystem} {data base extension : Text}
    (huri : handler.uri req.target = base ++ '.' :: extension)
    (hdot : '.' ∉ extension)
    (hfile : fs.status (handler.uri req.target) = some (.file data))
    (res : Response) :
    (handler.handleRequest req res fs).shown =
      (.ok, data, some (extensionToType extension)) := by
  have hlast : (handler.uri req.target).findLastOf '.' = some base.length := by
    rw [huri, Text.findLastOf_append_cons hdot]
  have hrest : (handler.uri req.target).drop (base.length + 1) = extension := by
    rw [huri, ← List.drop_drop, List.drop_left]
    rfl
  simp only [handleRequest, hfile, hlast, hrest, Response.shown_preparePayload,
    Response.shown_set_contentType]
  rfl

theorem shown_of_no_file {handler : RequestHandlerStatic} {req : Request}
    {fs : FileSystem}
    (hnone : ∀ data, fs.status (handler.uri req.target) ≠ some (.file data))
    (res : Response) :
    (handler.handleRequest req res fs).shown =
      (.notFound, "File not found".toList, some "text/plain".toList) := by
  unfold handleRequest
  simp only
  rw [Response.shown_preparePayload, Response.shown_set_contentType]
  rfl

/-- For every method and every target: the bytes of a regular file at the path,
under the type that the ending of the path has in the table and as plain text
without one, and 404 where no regular file is found or it cannot be opened. -/
theorem answer_iff (handler : RequestHandlerStatic) (req : Request)
    (res : Response) (fs : FileSystem) :
    let answer := handler.handleRequest req res fs
    let uri := handler.uri req.target
    (∀ data, fs.status uri = some (.file data) →
      answer.result = .ok ∧ answer.body = data ∧
        ∀ type, answer.find .contentType = some type ↔ TypeOf uri type) ∧
    ((∀ data, fs.status uri ≠ some (.file data)) →
      answer.shown = (.notFound, "File not found".toList,
        some "text/plain".toList)) := by
  intro answer uri
  obtain ⟨base, extension, huri, hdot⟩ := handler.exists_extension req.target
  constructor
  · intro data hfile
    have hshown := shown_of_file huri hdot hfile res
    obtain ⟨hok, hrest⟩ := Prod.mk.inj hshown
    obtain ⟨hbody, htype⟩ := Prod.mk.inj hrest
    refine ⟨hok, hbody, fun type => ?_⟩
    rw [show uri = base ++ '.' :: extension from huri, typeOf_iff hdot]
    rw [show answer.find .contentType = _ from htype, Option.some.injEq]
  · intro hnone
    exact shown_of_no_file hnone res

end RequestHandlerStatic

end Swifties
