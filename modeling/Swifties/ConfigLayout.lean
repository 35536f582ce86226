import Swifties.ConfigOutcome
import Swifties.TokenStreams
import Swifties.ConfigPrinter

/-!
# Words and blanks

A carriage return is a blank in front of a token but no end of a word.  Behind a
word it becomes a part of it, up to the next other blank or mark; where nothing
but carriage returns stands between two words, they are read as one.
-/

namespace Swifties

open BlockGrammar

def spell : Symbol Text → List Char
  | .word v => v
  | .terminator => [';']
  | .openBlock => ['{']
  | .closeBlock => ['}']

/-- A text written as lexemes, each with the blanks behind it. -/
def layoutText (items : List (Symbol Text × List Char)) : Text :=
  items.flatMap fun item => spell item.1 ++ item.2

def PlainWord (v : Text) : Prop :=
  v ≠ [] ∧
    ∀ c ∈ v, c ∉ [' ', '\t', '\n', '\r', ';', '{', '}', '#', '"', '\'']

structure Layout (items : List (Symbol Text × List Char)) : Prop where
  words : ∀ item ∈ items, ∀ v, item.1 = .word v → PlainWord v
  blanks : ∀ item ∈ items, item.2 ≠ [] ∧ ∀ c ∈ item.2, isBlank c = true

/-- The carriage returns at the beginning of a run of blanks. -/
def returns (blank : List Char) : List Char :=
  blank.takeWhile fun c => c == '\r'

/-- The symbols that a layout is read as, after the characters of a word that
has not ended yet.  A word that nothing ends is dropped. -/
def readings : Text → List (Symbol Text × List Char) → List (Symbol Text)
  | _, [] => []
  | pending, (.word v, blank) :: rest =>
      let word := pending ++ v ++ returns blank
      if returns blank = blank then readings word rest
      else .word word :: readings [] rest
  | pending, (symbol, _) :: rest =>
      (if pending = [] then [] else [.word pending]) ++
        symbol :: readings [] rest

/-- No carriage return stands directly behind a word. -/
def NoReturn (items : List (Symbol Text × List Char)) : Prop :=
  ∀ item ∈ items, item.1.word? ≠ none → item.2.head? ≠ some '\r'

theorem Layout.tail {item : Symbol Text × List Char}
    {items : List (Symbol Text × List Char)} (hlayout : Layout (item :: items)) :
    Layout items :=
  ⟨fun other hmem => hlayout.words other (List.mem_cons_of_mem _ hmem),
    fun other hmem => hlayout.blanks other (List.mem_cons_of_mem _ hmem)⟩

/-! ## Words that go on -/

theorem PlainWord.wordToken {v : Text} (hv : PlainWord v) : WordToken v := by
  obtain ⟨hne, hall⟩ := hv
  obtain ⟨c, rest, rfl⟩ := List.exists_cons_of_ne_nil hne
  have hchars : ∀ d ∈ c :: rest, isBlank d = false ∧
      d ∉ ['{', '}', '#', '"', '\'', ';'] ∧ endsWord d = false := by
    intro d hd
    have hnot := hall d hd
    simp only [List.mem_cons, List.not_mem_nil, or_false, not_or] at hnot
    simp [isBlank, endsWord, hnot]
  rw [List.forall_mem_cons] at hchars
  exact ⟨c, rest, rfl, ⟨hchars.1.1, hchars.1.2.1⟩,
    fun d hd => (hchars.2 d hd).2.2⟩

theorem WordToken.endsWord {v : Text} (hv : WordToken v) :
    ∀ c ∈ v, Swifties.endsWord c = false := by
  obtain ⟨c, rest, rfl, ⟨hblank, hfirst⟩, hrest⟩ := hv
  rw [List.forall_mem_cons]
  refine ⟨?_, hrest⟩
  simp only [isBlank, Bool.or_eq_false_iff] at hblank
  simp only [List.mem_cons, List.not_mem_nil, or_false, not_or] at hfirst
  simp [Swifties.endsWord, hblank, hfirst]

theorem WordToken.ne_nil {v : Text} (hv : WordToken v) : v ≠ [] := by
  obtain ⟨c, rest, rfl, _⟩ := hv
  exact List.cons_ne_nil c rest

theorem WordToken.append {v more : Text} (hv : WordToken v)
    (hmore : ∀ c ∈ more, Swifties.endsWord c = false) :
    WordToken (v ++ more) := by
  obtain ⟨c, rest, rfl, hfirst, hrest⟩ := hv
  exact ⟨c, rest ++ more, rfl, hfirst, List.forall_mem_append.mpr ⟨hrest, hmore⟩⟩

theorem returns_endsWord (blank : List Char) :
    ∀ c ∈ returns blank, endsWord c = false := by
  intro c hc
  have heq := List.mem_takeWhile_imp hc
  rw [beq_iff_eq] at heq
  rw [heq]
  rfl

/-- The word so far, with the next word and the carriage returns behind it. -/
theorem wordToken_glue {pending v : Text}
    (hpending : pending = [] ∨ WordToken pending) (hv : PlainWord v)
    (blank : List Char) : WordToken (pending ++ v ++ returns blank) := by
  apply WordToken.append _ (returns_endsWord blank)
  rcases hpending with rfl | hword
  · exact hv.wordToken
  · exact hword.append hv.wordToken.endsWord

/-! ## Texts that are read to their end -/

/-- The text is read to its end as these symbols. -/
def ReadsWhole (input : List Char) (w : List (Symbol Text)) : Prop :=
  ∃ tokens last, Reads input tokens last ∧
    (parseToken last).1.type = .eof ∧ symbols tokens = w

theorem ReadsWhole.blanks {blank input : List Char} {w : List (Symbol Text)}
    (hblank : ∀ c ∈ blank, isBlank c = true) (hreads : ReadsWhole input w) :
    ReadsWhole (blank ++ input) w := by
  obtain ⟨tokens, last, hreads, heof, hsymbols⟩ := hreads
  cases hreads with
  | nil =>
      refine ⟨[], blank ++ input, .nil, ?_, hsymbols⟩
      rwa [parseToken_append_blank hblank]
  | cons htoken hfinal htail =>
      refine ⟨_, last, .cons ?_ hfinal htail, heof, hsymbols⟩
      rw [parseToken_append_blank hblank, htoken]

theorem ReadsWhole.cons {input rest : List Char} {token : Token}
    {symbol : Symbol Text} {w : List (Symbol Text)}
    (htoken : parseToken input = (token, rest)) (hfinal : ¬ token.Final)
    (hsymbol : token.symbol? = some symbol) (hreads : ReadsWhole rest w) :
    ReadsWhole input (symbol :: w) := by
  obtain ⟨tokens, last, hreads, heof, rfl⟩ := hreads
  exact ⟨token :: tokens, last, .cons htoken hfinal hreads, heof, by
    simp [symbols, hsymbol]⟩

theorem ReadsWhole.word {v : Text} (hv : WordToken v) {d : Char}
    (hd : endsWord d = true) {more : List Char} {w : List (Symbol Text)}
    (hreads : ReadsWhole (d :: more) w) :
    ReadsWhole (v ++ d :: more) (.word v :: w) :=
  .cons (parseToken_printable (.inl hv) hd more) (by simp [Token.Final]) rfl
    hreads

theorem parseTokenLoop_word_eof {rest : Text}
    (hrest : ∀ c ∈ rest, endsWord c = false) (value : Text) :
    (parseTokenLoop .tokenTypeNormal value rest).1.type = .eof := by
  induction rest generalizing value with
  | nil => rfl
  | cons c rest ih =>
      rw [List.forall_mem_cons] at hrest
      rw [parseTokenLoop, if_neg (by simp [hrest.1])]
      exact ih hrest.2 _

/-- A word at the end of the text is taken for the end. -/
theorem readsWhole_word {v : Text} (hv : WordToken v) : ReadsWhole v [] := by
  obtain ⟨c, rest, rfl, ⟨hblank, hfirst⟩, hrest⟩ := hv
  refine ⟨[], _, .nil, ?_, rfl⟩
  simp only [isBlank, Bool.or_eq_false_iff, beq_eq_false_iff_ne,
    ne_eq] at hblank
  simp only [List.mem_cons, List.not_mem_nil, or_false, not_or] at hfirst
  have heof := parseTokenLoop_word_eof hrest [c]
  simpa [parseToken, parseTokenLoop, hblank, hfirst] using heof

theorem spell_mark {symbol : Symbol Text} (hmark : symbol.word? = none) :
    ∃ c, spell symbol = [c] ∧ mark? c = some symbol ∧ endsWord c = true := by
  cases symbol with
  | word v => cases hmark
  | terminator => exact ⟨';', rfl, rfl, rfl⟩
  | openBlock => exact ⟨'{', rfl, rfl, rfl⟩
  | closeBlock => exact ⟨'}', rfl, rfl, rfl⟩

theorem returns_append (blank : List Char) :
    ∃ more, blank = returns blank ++ more ∧
      (more = [] ↔ returns blank = blank) ∧ ∀ d ∈ more.head?, d ≠ '\r' := by
  refine ⟨blank.dropWhile fun c => c == '\r', ?_, ?_, ?_⟩
  · exact List.takeWhile_append_dropWhile.symm
  · rw [returns, List.takeWhile_eq_self_iff, List.dropWhile_eq_nil_iff]
  · intro d hd
    have hnot := List.head?_dropWhile_not (fun c => c == '\r') blank
    rw [hd] at hnot
    simpa using hnot

theorem endsWord_of_blank {c : Char} (hblank : isBlank c = true)
    (hreturn : c ≠ '\r') : endsWord c = true := by
  simp only [isBlank, Bool.or_eq_true, beq_iff_eq, or_assoc] at hblank
  rcases hblank with rfl | rfl | rfl | rfl
  · rfl
  · rfl
  · rfl
  · exact (hreturn rfl).elim

/-- Blanks end a word unless they begin with a carriage return. -/
theorem ReadsWhole.wordBlanks {v : Text} (hv : WordToken v) {blank : List Char}
    (hne : blank ≠ []) (hhead : ∀ d ∈ blank.head?, d ≠ '\r')
    (hblank : ∀ c ∈ blank, isBlank c = true) {input : List Char}
    {w : List (Symbol Text)} (hreads : ReadsWhole input w) :
    ReadsWhole (v ++ (blank ++ input)) (.word v :: w) := by
  obtain ⟨d, blank, rfl⟩ := List.exists_cons_of_ne_nil hne
  have hd : endsWord d = true :=
    endsWord_of_blank (hblank d List.mem_cons_self) (hhead d rfl)
  exact .word hv hd (hreads.blanks hblank)

theorem layoutText_cons (symbol : Symbol Text) (blank : List Char)
    (rest : List (Symbol Text × List Char)) :
    layoutText ((symbol, blank) :: rest) =
      spell symbol ++ (blank ++ layoutText rest) := by
  rw [layoutText, List.flatMap_cons, List.append_assoc]
  rfl

/-- A layout is read to its end as its readings, behind the characters of a word
that has not ended. -/
theorem readsWhole_layout {items : List (Symbol Text × List Char)}
    (hlayout : Layout items) {pending : Text}
    (hpending : pending = [] ∨ WordToken pending) :
    ReadsWhole (pending ++ layoutText items) (readings pending items) := by
  fun_induction readings pending items with
  | case1 pending =>
      rw [layoutText, List.flatMap_nil, List.append_nil]
      rcases hpending with rfl | hword
      · exact ⟨[], [], .nil, rfl, rfl⟩
      · exact readsWhole_word hword
  | case2 pending v blank rest word hgoes ih =>
      have hv := hlayout.words _ List.mem_cons_self v rfl
      have hrest := ih hlayout.tail (.inr (wordToken_glue hpending hv blank))
      have htext : word ++ layoutText rest =
          pending ++ layoutText ((.word v, blank) :: rest) := by
        simp only [word, hgoes, layoutText_cons, spell, List.append_assoc]
      rwa [htext] at hrest
  | case3 pending v blank rest word hends ih =>
      have hv := hlayout.words _ List.mem_cons_self v rfl
      have hblank := (hlayout.blanks _ List.mem_cons_self).2
      have hword : WordToken word := wordToken_glue hpending hv blank
      obtain ⟨more, hmore, hnil, hhead⟩ := returns_append blank
      have hblanks : ∀ c ∈ more, isBlank c = true := by
        intro c hc
        apply hblank
        rw [hmore]
        exact List.mem_append_right _ hc
      have hrest := ih hlayout.tail (.inl rfl)
      rw [List.nil_append] at hrest
      have htext : word ++ (more ++ layoutText rest) =
          pending ++ layoutText ((.word v, blank) :: rest) := by
        rw [layoutText_cons, spell]
        simp only [word, List.append_assoc]
        rw [← List.append_assoc (returns blank), ← hmore]
      rw [← htext]
      exact .wordBlanks hword (fun h => hends (hnil.mp h)) hhead hblanks hrest
  | case4 pending symbol blank rest hmark ih =>
      have hblank := (hlayout.blanks _ List.mem_cons_self).2
      have hrest := ReadsWhole.blanks hblank (ih hlayout.tail (.inl rfl))
      rw [List.nil_append] at hrest
      obtain ⟨c, hspell, hc, hends⟩ := spell_mark (Symbol.word?_eq_none hmark)
      obtain ⟨token, htoken, hfinal, hsymbol⟩ :=
        parseToken_mark hc (blank ++ layoutText rest)
      have hmarked := ReadsWhole.cons htoken hfinal hsymbol hrest
      rw [layoutText_cons, hspell, List.singleton_append]
      rcases hpending with rfl | hword
      · exact hmarked
      · rw [if_neg hword.ne_nil]
        exact .word hword hends hmarked

/-! ## What all layouts of the same lexemes have in common -/

/-- The characters other than carriage returns. -/
def content (s : List Char) : List Char := s.filter fun c => decide (c ≠ '\r')

theorem content_append (s t : List Char) :
    content (s ++ t) = content s ++ content t :=
  List.filter_append s t

theorem content_returns (blank : List Char) : content (returns blank) = [] := by
  rw [content, List.filter_eq_nil_iff]
  intro c hc
  have heq := List.mem_takeWhile_imp hc
  simpa using heq

theorem WordToken.content_eq {v : Text} (hv : WordToken v) :
    ∃ c rest, content v = c :: rest ∧ mark? c = none := by
  obtain ⟨c, rest, rfl, ⟨hblank, hfirst⟩, _⟩ := hv
  have hreturn : c ≠ '\r' := by
    rintro rfl
    cases hblank
  refine ⟨c, content rest, ?_, ?_⟩
  · rw [content, List.filter_cons_of_pos (by simpa using hreturn)]
    rfl
  · simp only [List.mem_cons, List.not_mem_nil, or_false, not_or] at hfirst
    unfold mark?
    split <;> simp_all

theorem word_of_mem_readings {items : List (Symbol Text × List Char)}
    (hlayout : Layout items) {pending : Text}
    (hpending : pending = [] ∨ WordToken pending) :
    ∀ v, Symbol.word v ∈ readings pending items → WordToken v := by
  fun_induction readings pending items with
  | case1 => simp
  | case2 pending v blank rest word _ ih =>
      have hv := hlayout.words _ List.mem_cons_self v rfl
      exact ih hlayout.tail (.inr (wordToken_glue hpending hv blank))
  | case3 pending v blank rest word _ ih =>
      have hv := hlayout.words _ List.mem_cons_self v rfl
      intro other hmem
      rcases List.mem_cons.mp hmem with heq | hmem
      · cases heq
        exact wordToken_glue hpending hv blank
      · exact ih hlayout.tail (.inl rfl) other hmem
  | case4 pending symbol blank rest hmark ih =>
      intro other hmem
      rcases List.mem_append.mp hmem with hmem | hmem
      · rcases hpending with rfl | hword
        · simp at hmem
        · rw [if_neg hword.ne_nil, List.mem_singleton] at hmem
          cases hmem
          exact hword
      · rcases List.mem_cons.mp hmem with heq | hmem
        · exact (hmark other heq.symm).elim
        · exact ih hlayout.tail (.inl rfl) other hmem

/-- The readings have the content of the lexemes, but for a last word that may
be dropped. -/
theorem content_readings {items : List (Symbol Text × List Char)}
    (hlayout : Layout items) {pending : Text}
    (hpending : pending = [] ∨ WordToken pending) :
    ∃ dropped, (∀ c ∈ dropped.head?, mark? c = none) ∧
      content ((readings pending items).flatMap spell) ++ dropped =
        content pending ++ content ((items.map Prod.fst).flatMap spell) := by
  fun_induction readings pending items with
  | case1 pending =>
      refine ⟨content pending, ?_, by simp [content]⟩
      rcases hpending with rfl | hword
      · simp [content]
      · obtain ⟨c, rest, hcontent, hmark⟩ := hword.content_eq
        rw [hcontent]
        simpa using hmark
  | case2 pending v blank rest word hgoes ih =>
      have hv := hlayout.words _ List.mem_cons_self v rfl
      obtain ⟨dropped, hdropped, heq⟩ :=
        ih hlayout.tail (.inr (wordToken_glue hpending hv blank))
      refine ⟨dropped, hdropped, heq.trans ?_⟩
      simp only [word, content_append, content_returns, List.append_nil,
        List.map_cons, List.flatMap_cons, spell, List.append_assoc]
  | case3 pending v blank rest word hends ih =>
      obtain ⟨dropped, hdropped, heq⟩ := ih hlayout.tail (.inl rfl)
      refine ⟨dropped, hdropped, ?_⟩
      rw [List.flatMap_cons, content_append, List.append_assoc, heq]
      simp only [word, spell, content_append, content_returns, List.append_nil,
        List.map_cons, List.flatMap_cons, List.append_assoc]
      rfl
  | case4 pending symbol blank rest hmark ih =>
      obtain ⟨dropped, hdropped, heq⟩ := ih hlayout.tail (.inl rfl)
      refine ⟨dropped, hdropped, ?_⟩
      rw [List.flatMap_append, List.flatMap_cons, content_append,
        content_append, List.append_assoc, List.append_assoc, heq]
      have hpending : content (List.flatMap spell
          (if pending = [] then [] else [Symbol.word pending])) =
            content pending := by
        split
        next hnil => rw [hnil]; rfl
        next => simp [spell]
      rw [hpending, List.map_cons, List.flatMap_cons, content_append]
      rfl

/-- The first character tells a mark from the other marks and from words. -/
theorem content_spell {s : Symbol Text}
    (hword : ∀ v, s = .word v → WordToken v) :
    ∃ c rest, content (spell s) = c :: rest ∧
      mark? c = if s.word? = none then some s else none := by
  cases s with
  | word v => exact (hword v rfl).content_eq
  | terminator => exact ⟨';', [], rfl, rfl⟩
  | openBlock => exact ⟨'{', [], rfl, rfl⟩
  | closeBlock => exact ⟨'}', [], rfl, rfl⟩

theorem eq_of_content {s s' : Symbol Text}
    (hword : ∀ v, s = .word v → WordToken v)
    (hword' : ∀ v, s' = .word v → WordToken v)
    (hnot : ∀ a b, s = .word a → s' = .word b → False) {t t' : List Char}
    (heq : content (spell s) ++ t = content (spell s') ++ t') : s = s' := by
  obtain ⟨c, rest, hc, hmark⟩ := content_spell hword
  obtain ⟨c', rest', hc', hmark'⟩ := content_spell hword'
  rw [hc, hc', List.cons_append, List.cons_append] at heq
  rw [← (List.cons.inj heq).1, hmark] at hmark'
  by_cases hs : s.word? = none
  · rw [if_pos hs] at hmark'
    split at hmark'
    next => exact Option.some.inj hmark'
    next => cases hmark'
  · rw [if_neg hs] at hmark'
    split at hmark'
    next => cases hmark'
    next hs' =>
      obtain ⟨a, rfl⟩ := Symbol.exists_eq_word hs
      obtain ⟨b, rfl⟩ := Symbol.exists_eq_word hs'
      exact (hnot a b rfl rfl).elim

/-- Where one side ends, only a word can stand on the other. -/
theorem word?_of_content {symbol : Symbol Text} {w : List (Symbol Text)}
    (hword : ∀ v, symbol = .word v → WordToken v) {t t' : List Char}
    (ht' : ∀ c ∈ t'.head?, mark? c = none)
    (heq : content ((symbol :: w).flatMap spell) ++ t =
      content ([].flatMap spell) ++ t') : symbol.word? ≠ none := by
  obtain ⟨c, rest, hc, hmark⟩ := content_spell hword
  intro hnone
  rw [List.flatMap_cons, content_append, hc] at heq
  have hhead : t'.head? = some c := by
    have hnil : content ([].flatMap spell) = [] := rfl
    rw [hnil, List.nil_append] at heq
    rw [← heq]
    rfl
  rw [ht' c hhead, if_pos hnone] at hmark
  cases hmark

theorem aligned_of_content {w w' : List (Symbol Text)}
    (hw : ∀ v, Symbol.word v ∈ w → WordToken v)
    (hw' : ∀ v, Symbol.word v ∈ w' → WordToken v) {t t' : List Char}
    (ht : ∀ c ∈ t.head?, mark? c = none)
    (ht' : ∀ c ∈ t'.head?, mark? c = none)
    (heq : content (w.flatMap spell) ++ t =
      content (w'.flatMap spell) ++ t') : Aligned w w' := by
  fun_induction Aligned w w' with
  | case1 a w b w' ih =>
      rintro rfl
      simp only [List.flatMap_cons, content_append, List.append_assoc] at heq
      exact ih (fun v hv => hw v (List.mem_cons_of_mem _ hv))
        (fun v hv => hw' v (List.mem_cons_of_mem _ hv))
        (List.append_cancel_left heq)
  | case2 s w s' w' hnot ih =>
      simp only [List.flatMap_cons, content_append, List.append_assoc]
        at heq
      have hsame : s = s' :=
        eq_of_content (fun v hv => hw v (hv ▸ List.mem_cons_self))
          (fun v hv => hw' v (hv ▸ List.mem_cons_self)) hnot heq
      refine ⟨hsame, ?_⟩
      rw [hsame] at heq
      exact ih (fun v hv => hw v (List.mem_cons_of_mem _ hv))
        (fun v hv => hw' v (List.mem_cons_of_mem _ hv))
        (List.append_cancel_left heq)
  | case3 => trivial
  | case4 s w =>
      exact word?_of_content (fun v hv => hw' v (hv ▸ List.mem_cons_self)) ht
        heq.symm
  | case5 s w =>
      exact word?_of_content (fun v hv => hw v (hv ▸ List.mem_cons_self)) ht'
        heq

theorem returns_of_head {blank : List Char} (hreturn : blank.head? ≠ some '\r') :
    returns blank = [] := by
  cases blank with
  | nil => rfl
  | cons c blank =>
      have hc : c ≠ '\r' := by simpa using hreturn
      rw [returns, List.takeWhile_cons_of_neg (by simpa using hc)]

theorem readings_of_noReturn {items : List (Symbol Text × List Char)}
    (hlayout : Layout items) (hreturn : NoReturn items) :
    readings [] items = items.map Prod.fst := by
  induction items with
  | nil => rfl
  | cons item rest ih =>
      obtain ⟨symbol, blank⟩ := item
      have hrest := ih hlayout.tail fun other hmem =>
        hreturn other (List.mem_cons_of_mem _ hmem)
      have hblank := (hlayout.blanks _ List.mem_cons_self).1
      cases symbol with
      | word v =>
          have hnone := returns_of_head
            (hreturn _ List.mem_cons_self (Option.some_ne_none v))
          rw [readings, hnone, if_neg hblank.symm, hrest]
          simp
      | terminator => simp [readings, hrest]
      | openBlock => simp [readings, hrest]
      | closeBlock => simp [readings, hrest]

/-- Two layouts of the same lexemes are parsed alike exactly if they are read as
the same symbols up to the first one that has no place, and so they are where no
word has a carriage return behind it. -/
theorem parseText_layout_iff {before before' : List Char}
    {x y : List (Symbol Text × List Char)}
    (hbefore : ∀ c ∈ before, isBlank c = true)
    (hbefore' : ∀ c ∈ before', isBlank c = true) (hx : Layout x) (hy : Layout y)
    (hsame : x.map Prod.fst = y.map Prod.fst) :
    (parseText (before ++ layoutText x) = parseText (before' ++ layoutText y) ↔
        Partial.start.cut (readings [] x) = Partial.start.cut (readings [] y)) ∧
      (NoReturn x → NoReturn y → readings [] x = readings [] y) := by
  obtain ⟨tokens, last, hreads, heof, hsymbols⟩ :=
    (readsWhole_layout hx (.inl rfl)).blanks hbefore
  obtain ⟨tokens', last', hreads', heof', hsymbols'⟩ :=
    (readsWhole_layout hy (.inl rfl)).blanks hbefore'
  obtain ⟨dropped, hdropped, hcontent⟩ := content_readings hx (.inl rfl)
  obtain ⟨dropped', hdropped', hcontent'⟩ := content_readings hy (.inl rfl)
  have haligned : Aligned (readings [] x) (readings [] y) := by
    apply aligned_of_content (word_of_mem_readings hx (.inl rfl))
      (word_of_mem_readings hy (.inl rfl)) hdropped hdropped'
    rw [hcontent, hcontent', hsame]
  rw [List.nil_append] at hreads hreads'
  constructor
  · rw [parseText_outcome hreads heof, parseText_outcome hreads' heof',
      Option.some_inj, hsymbols, hsymbols']
    exact outcome_eq_iff haligned
  · intro hreturn hreturn'
    rw [readings_of_noReturn hx hreturn, readings_of_noReturn hy hreturn', hsame]

theorem parseText_layout_iff_server :
    let x : List (Symbol Text × List Char) :=
      [(.word "server".toList, [' ']), (.openBlock, ['\n']),
        (.closeBlock, ['\n'])]
    let y : List (Symbol Text × List Char) :=
      [(.word "server".toList, ['\t']), (.openBlock, ['\r', '\n']),
        (.closeBlock, ['\r', '\n'])]
    (parseText (layoutText x) = parseText (['\r'] ++ layoutText y) ↔
        Partial.start.cut (readings [] x) = Partial.start.cut (readings [] y)) ∧
      (NoReturn x → NoReturn y → readings [] x = readings [] y) := by
  intro x y
  have hserver : PlainWord "server".toList := by
    simp [PlainWord]
  have hx : Layout x := by
    constructor
    · simpa [x] using hserver
    · simp [x, isBlank]
  have hy : Layout y := by
    constructor
    · simpa [y] using hserver
    · simp [y, isBlank]
  have hnil : ∀ c ∈ ([] : List Char), isBlank c = true := by simp
  have hreturn : ∀ c ∈ ['\r'], isBlank c = true := by simp [isBlank]
  exact parseText_layout_iff hnil hreturn hx hy rfl

/-- With a carriage return in front of each newline, the name of the block ends
in one. -/
theorem not_parseText_layout :
    ∃ x y : List (Symbol Text × List Char),
      Layout x ∧ Layout y ∧ x.map Prod.fst = y.map Prod.fst ∧
        layoutText x = "server\n\x7b\n\x7d\n".toList ∧
        layoutText y = "server\r\n\x7b\r\n\x7d\r\n".toList ∧
        parseText (layoutText x) ≠ parseText (layoutText y) := by
  have hserver : PlainWord "server".toList := by
    simp [PlainWord]
  refine ⟨[(.word "server".toList, ['\n']), (.openBlock, ['\n']),
      (.closeBlock, ['\n'])],
    [(.word "server".toList, ['\r', '\n']), (.openBlock, ['\r', '\n']),
      (.closeBlock, ['\r', '\n'])], ⟨?_, ?_⟩, ⟨?_, ?_⟩, rfl, rfl, rfl, ?_⟩
  · simpa using hserver
  · simp [isBlank]
  · simpa using hserver
  · simp [isBlank]
  · intro heq
    have hline : parseText "server\n\x7b\n\x7d\n".toList =
        some (.returned true [.block ["server".toList] []]) := by
      rfl
    have hreturn : parseText "server\r\n\x7b\r\n\x7d\r\n".toList =
        some (.returned true [.block ["server\r".toList] []]) := by
      rfl
    have htrees := hline.symm.trans (heq.trans hreturn)
    simp at htrees

end Swifties
