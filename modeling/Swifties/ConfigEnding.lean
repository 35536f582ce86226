import Swifties.TokenStreams

/-!
# The end of a configuration

A newline after the last character lets `ParseToken` finish the word, the
quoted string or the escape that it was reading.  Without the newline an
unfinished quoted string is an error, but an unfinished word and an unfinished
escape are taken for the end of the text and dropped.
-/

namespace Swifties

open BlockGrammar

/-- What a newline can make of an unfinished token: a word, after which only
the newline is left, or an error. -/
def Completed (result : Token × List Char) : Prop :=
  (result.1.type = .normal ∧ result.2 = ['\n']) ∨ result.1.type = .error

theorem closeQuote_newline (value : Text) (input : List Char) :
    (¬ (closeQuote value input).1.Final →
        closeQuote value (input ++ ['\n']) =
          ((closeQuote value input).1, (closeQuote value input).2 ++ ['\n'])) ∧
      ((closeQuote value input).1.Final →
        (closeQuote value input).1.type = .error ∧
          Completed (closeQuote value (input ++ ['\n']))) := by
  cases input with
  | nil =>
      refine ⟨fun hfinal => (hfinal (.inr rfl)).elim, fun _ => ?_⟩
      exact ⟨rfl, .inl ⟨rfl, rfl⟩⟩
  | cons c rest =>
      cases hends : endsQuoted c with
      | true => simp [closeQuote, hends, Token.Final]
      | false => simp [closeQuote, hends, Token.Final, Completed]

theorem parseTokenLoop_newline_token (state : TokenParserState) (value : Text)
    (input : List Char)
    (hfinal : ¬ (parseTokenLoop state value input).1.Final) :
    parseTokenLoop state value (input ++ ['\n']) =
      ((parseTokenLoop state value input).1,
        (parseTokenLoop state value input).2 ++ ['\n']) := by
  fun_induction parseTokenLoop state value input with
  | case1 => exact (hfinal (.inr rfl)).elim
  | case2 => exact (hfinal (.inl rfl)).elim
  | case3 | case4 | case8 => simp [parseTokenLoop]
  | case14 | case17 =>
      simpa [parseTokenLoop] using (closeQuote_newline _ _).1 hfinal
  | case20 value c rest hend | case22 value c rest hend =>
      simp [parseTokenLoop, hend]
  | _ => simp [parseTokenLoop, *]

theorem parseTokenLoop_newline_error (state : TokenParserState) (value : Text)
    (input : List Char)
    (herror : (parseTokenLoop state value input).1.type = .error) :
    Completed (parseTokenLoop state value (input ++ ['\n'])) := by
  fun_induction parseTokenLoop state value input with
  | case1 state value hquote =>
      rcases hquote with rfl | rfl
      · exact .inr (by simp [parseTokenLoop])
      · exact .inr (by simp [parseTokenLoop])
  | case2 | case3 | case4 | case8 | case20 | case22 => cases herror
  | case14 | case17 =>
      simpa [parseTokenLoop] using
        ((closeQuote_newline _ _).2 (.inr herror)).2
  | _ => simp [parseTokenLoop, *]

/-- What a newline makes of the end of the text in each state: it ends a
comment, and leaves nothing to complete in the first state only. -/
def AfterNewline (state : TokenParserState) (result : Token × List Char) :
    Prop :=
  match state with
  | .initialWhitespace => True
  | .tokenTypeComment => result.1.type = .comment ∧ result.2 = []
  | _ => Completed result

theorem parseTokenLoop_newline_eof (state : TokenParserState) (value : Text)
    (input : List Char)
    (heof : (parseTokenLoop state value input).1.type = .eof) :
    AfterNewline state (parseTokenLoop state value (input ++ ['\n'])) := by
  fun_induction parseTokenLoop state value input with
  | case1 state value hquote =>
      rcases hquote with rfl | rfl
      · cases heof
      · cases heof
  | case2 state value hquote =>
      cases state with
      | initialWhitespace => trivial
      | tokenTypeComment => simp [parseTokenLoop, AfterNewline]
      | tokenTypeNormal => exact .inl (by simp [parseTokenLoop, endsWord])
      | singleQuote => exact (hquote (.inl rfl)).elim
      | doubleQuote => exact (hquote (.inr rfl)).elim
      | escapeWithinSingleQuote => exact .inr (by simp [parseTokenLoop])
      | escapeWithinDoubleQuote => exact .inr (by simp [parseTokenLoop])
  | case14 | case17 =>
      have herror := ((closeQuote_newline _ _).2 (.inl heof)).1
      rw [heof] at herror
      cases herror
  | case20 | case22 => cases heof
  | case15 | case18 | case24 | case25 =>
      rename_i ih
      have hrest := ih heof
      simp only [List.cons_append, parseTokenLoop]
      exact hrest
  | case16 | case19 | case21 | case23 => simp [parseTokenLoop, *]
  | _ => trivial

/-! ## The last call -/

/-- The first character of the input that `ParseToken` does not skip. -/
def firstChar (input : List Char) : Option Char :=
  input.find? fun c => !isBlank c

theorem parseToken_newline_of_blank {input : List Char}
    (hfirst : firstChar input = none) :
    (parseToken (input ++ ['\n'])).1.type = .eof := by
  have hblank : ∀ c ∈ input ++ ['\n'], isBlank c = true := by
    intro c hmem
    rcases List.mem_append.mp hmem with hmem | hmem
    · simpa using List.find?_eq_none.mp hfirst c hmem
    · rw [List.mem_singleton.mp hmem]
      rfl
  have hskip := parseToken_append_blank hblank []
  rw [List.append_nil] at hskip
  rw [hskip]
  rfl

theorem parseToken_cons_newline {c : Char} {rest : List Char}
    (hblank : isBlank c = false)
    (heof : (parseToken (c :: rest)).1.type = .eof) :
    if c = '#' then
      (parseToken (c :: (rest ++ ['\n']))).1.type = .comment ∧
        (parseToken (c :: (rest ++ ['\n']))).2 = []
    else Completed (parseToken (c :: (rest ++ ['\n']))) := by
  unfold parseToken parseTokenLoop at heof ⊢
  split at heof
  next => cases heof
  next => cases heof
  next => exact parseTokenLoop_newline_eof _ _ _ heof
  next => exact parseTokenLoop_newline_eof _ _ _ heof
  next => exact parseTokenLoop_newline_eof _ _ _ heof
  next => cases heof
  next => cases hblank
  next => cases hblank
  next => cases hblank
  next => cases hblank
  next hopen hclose hcomment _ _ _ _ _ _ _ =>
    rw [if_neg hcomment]
    exact parseTokenLoop_newline_eof _ _ _ heof

/-- The last call on a text, and the same call once a newline follows. -/
theorem parseToken_newline {input : List Char}
    (hfinal : (parseToken input).1.Final) :
    ((parseToken input).1.type = .eof ∧
        (firstChar input = none ∨ firstChar input = some '#') ∧
        ((parseToken (input ++ ['\n'])).1.type = .eof ∨
          (parseToken (input ++ ['\n'])).1.type = .comment ∧
            (parseToken (input ++ ['\n'])).2 = [])) ∨
      (((parseToken input).1.type = .eof →
          ∃ c, firstChar input = some c ∧ c ≠ '#') ∧
        Completed (parseToken (input ++ ['\n']))) := by
  rcases hfinal with heof | herror
  · cases hfirst : firstChar input with
    | none =>
        exact .inl ⟨heof, .inl rfl, .inl (parseToken_newline_of_blank hfirst)⟩
    | some c =>
        obtain ⟨hc, blank, rest, rfl, hblank⟩ :=
          List.find?_eq_some_iff_append.mp hfirst
        have hskip : ∀ more, parseToken (blank ++ more) = parseToken more := by
          apply parseToken_append_blank
          simpa using hblank
        rw [hskip] at heof
        have hline := parseToken_cons_newline (by simpa using hc) heof
        rw [List.append_assoc, List.cons_append, hskip, hskip]
        split at hline
        next hhash =>
          subst hhash
          exact .inl ⟨heof, .inr rfl, .inr hline⟩
        next hhash => exact .inr ⟨fun _ => ⟨c, rfl, hhash⟩, hline⟩
  · right
    refine ⟨fun heof => ?_, parseTokenLoop_newline_error _ _ _ herror⟩
    rw [herror] at heof
    cases heof

/-! ## Whole texts -/

theorem Reads.newline {input last : List Char} {tokens : List Token}
    (hreads : Reads input tokens last) :
    Reads (input ++ ['\n']) tokens (last ++ ['\n']) := by
  induction hreads with
  | nil => exact .nil
  | cons htoken hfinal _ ih =>
      have hcall := parseTokenLoop_newline_token .initialWhitespace [] _
        (by rw [← parseToken, htoken]; exact hfinal)
      rw [← parseToken, ← parseToken, htoken] at hcall
      exact .cons hcall hfinal ih

/-- No config ends in the middle of a statement. -/
theorem not_derives_concat_word {α : Type} (w : List (Symbol α)) (a : α)
    (c : List (Statement α)) : ¬ DerivesConfig (w ++ [.word a]) c := by
  intro hderives
  rw [← shifts_start_iff_derives, Partial.shifts_append] at hderives
  obtain ⟨p, _, hlast⟩ := Option.bind_eq_some_iff.mp hderives
  simp [Partial.shifts, Partial.shift] at hlast

/-- The same result, with the same tree when it is `true`. -/
def SameParse (a b : Option ParseResult) : Prop :=
  ∃ result config config', a = some (.returned result config) ∧
    b = some (.returned result config') ∧ (result = true → config = config')

/-- The text is a whole config followed by the beginning of a token that
`ParseToken` takes for the end of the text. -/
def DropsTail (text : Text) : Prop :=
  ∃ tokens tail config c, Reads text tokens tail ∧
    DerivesConfig (symbols tokens) config ∧
    (parseToken tail).1.type = .eof ∧ firstChar tail = some c ∧ c ≠ '#'

theorem sameParse_of_true_iff {text text' : Text}
    (hiff : ∀ config, parseText text = some (.returned true config) ↔
      parseText text' = some (.returned true config)) :
    SameParse (parseText text) (parseText text') := by
  obtain ⟨result, config, hparse⟩ := parseText_returned text
  obtain ⟨result', config', hparse'⟩ := parseText_returned text'
  cases result with
  | true =>
      exact ⟨true, config, config, hparse, (hiff config).mp hparse, fun _ => rfl⟩
  | false =>
      cases result' with
      | true =>
          rw [(hiff config').mpr hparse'] at hparse
          cases hparse
      | false => exact ⟨false, config, config', hparse, hparse', by simp⟩

theorem parseText_newline_of_completed {text tail : List Char}
    {tokens : List Token} (hreads : Reads text tokens tail)
    (hcompleted : Completed (parseToken (tail ++ ['\n'])))
    (config : NginxConfig) :
    parseText (text ++ ['\n']) ≠ some (.returned true config) := by
  intro htrue
  rcases hcompleted with ⟨htype, hrest⟩ | herror
  · have hword : Reads (tail ++ ['\n']) [(parseToken (tail ++ ['\n'])).1]
        ['\n'] :=
      .single (Prod.ext rfl hrest) (by simp [Token.Final, htype])
    have hall := hreads.newline.append hword
    have hderives := ((parseText_true_iff hall (.inl rfl)).mp htrue).2
    rw [symbols, List.filterMap_append] at hderives
    simp only [List.filterMap_cons, Token.symbol?, htype] at hderives
    exact not_derives_concat_word _ _ config hderives
  · have heof := ((parseText_true_iff hreads.newline (.inr herror)).mp htrue).1
    rw [herror] at heof
    cases heof

theorem parseText_newline_of_ended {text tail : List Char}
    {tokens : List Token} (hreads : Reads text tokens tail)
    (heof : (parseToken tail).1.type = .eof)
    (hended : (parseToken (tail ++ ['\n'])).1.type = .eof ∨
      (parseToken (tail ++ ['\n'])).1.type = .comment ∧
        (parseToken (tail ++ ['\n'])).2 = [])
    (config : NginxConfig) :
    parseText text = some (.returned true config) ↔
      parseText (text ++ ['\n']) = some (.returned true config) := by
  rw [parseText_true_iff hreads (.inl heof)]
  rcases hended with heof' | ⟨htype, hrest⟩
  · rw [parseText_true_iff hreads.newline (.inl heof')]
    simp [heof, heof']
  · have hcomment : Reads (tail ++ ['\n']) [(parseToken (tail ++ ['\n'])).1]
        [] := .single (Prod.ext rfl hrest) (by simp [Token.Final, htype])
    have hall := hreads.newline.append hcomment
    have hend : (parseToken []).1.type = .eof := rfl
    rw [parseText_true_iff hall (.inl rfl), symbols, symbols,
      List.filterMap_append]
    simp [heof, hend, Token.symbol?, htype]

/-- A newline at the end makes a difference exactly for a whole config that is
followed by an unfinished word or escape. -/
theorem parseText_newline_iff (text : Text) :
    SameParse (parseText text) (parseText (text ++ ['\n'])) ↔
      ¬ DropsTail text := by
  constructor
  · rintro hsame ⟨tokens, tail, config, c, hreads, hderives, heof, hfirst, hc⟩
    have htrue := (parseText_true_iff hreads (.inl heof)).mpr ⟨heof, hderives⟩
    obtain ⟨result, tree, tree', hparse, hparse', _⟩ := hsame
    rw [htrue] at hparse
    cases hparse
    rcases parseToken_newline (.inl heof) with ⟨_, hnone | hhash, _⟩ |
      ⟨_, hcompleted⟩
    · simp [hfirst] at hnone
    · rw [hfirst] at hhash
      exact hc (Option.some.inj hhash)
    · exact parseText_newline_of_completed hreads hcompleted tree' hparse'
  · intro hkeeps
    apply sameParse_of_true_iff
    intro config
    obtain ⟨tokens, tail, hreads, hlast⟩ := exists_reads text
    rcases parseToken_newline hlast with ⟨heof, _, hended⟩ |
      ⟨hopen, hcompleted⟩
    · exact parseText_newline_of_ended hreads heof hended config
    · constructor
      · intro htrue
        obtain ⟨heof, hderives⟩ := (parseText_true_iff hreads hlast).mp htrue
        obtain ⟨c, hfirst, hc⟩ := hopen heof
        exact (hkeeps ⟨tokens, tail, config, c, hreads, hderives, heof, hfirst,
          hc⟩).elim
      · intro htrue
        exact (parseText_newline_of_completed hreads hcompleted config
          htrue).elim

/-- The word `time` at the end of the text is dropped. -/
theorem not_parseText_newline :
    ¬ SameParse (parseText "port 80; time".toList)
      (parseText ("port 80; time".toList ++ ['\n'])) := by
  rintro ⟨result, config, config', hparse, hparse', _⟩
  have htrue : parseText "port 80; time".toList =
      some (.returned true [.simple ["port".toList, "80".toList]]) := by
    rfl
  have hfalse : ∃ tree, parseText ("port 80; time".toList ++ ['\n']) =
      some (.returned false tree) := ⟨_, by rfl⟩
  obtain ⟨tree, hfalse⟩ := hfalse
  rw [htrue] at hparse
  cases hparse
  rw [hfalse] at hparse'
  cases hparse'

end Swifties
