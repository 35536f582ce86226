import Swifties.ConfigPrinter

/-!
# Printing what was parsed

`ToString` writes every token as it is kept, with the backslashes of its quoted
strings already dropped.  Reading the result gives the same tree back unless a
string had a backslash in front of its own quote or of another backslash: that
character is read as something else the second time.
-/

namespace Swifties

open BlockGrammar

/-! ## Tokens and what they are read from -/

/-- The characters that a token is read from. -/
inductive Lexeme : List Char → Text → Prop
  | word {token : Text} : WordToken token → Lexeme token token
  | quoted {quote : Char} {inside : List Char} : quote = '"' ∨ quote = '\'' →
      Inside quote inside →
      Lexeme (quote :: (inside ++ [quote]))
        (quote :: (unescape inside ++ [quote]))

/-- The token begins as no comment and no blank does. -/
def Starts (token : Text) : Prop :=
  ∃ c rest, token = c :: rest ∧ isBlank c = false ∧ c ≠ '#'

theorem Lexeme.starts {lexeme : List Char} {token : Text}
    (hlexeme : Lexeme lexeme token) : Starts token := by
  cases hlexeme with
  | word hword =>
      obtain ⟨c, rest, rfl, ⟨hblank, hfirst⟩, _⟩ := hword
      refine ⟨c, rest, rfl, hblank, ?_⟩
      rintro rfl
      simp at hfirst
  | quoted hquote _ =>
      refine ⟨_, _, rfl, ?_⟩
      rcases hquote with rfl | rfl <;> decide

/-- Every `NORMAL` token is read from its lexeme, with blanks in front of it and
a character that ends words behind it. -/
theorem parseToken_normal {input rest : List Char} {token : Text}
    (htoken : parseToken input = (⟨.normal, token⟩, rest)) :
    ∃ blank lexeme, (∀ c ∈ blank, isBlank c = true) ∧
      input = blank ++ (lexeme ++ rest) ∧ Lexeme lexeme token ∧
      ∃ d more, rest = d :: more ∧ endsWord d = true := by
  induction input with
  | nil => cases htoken
  | cons c input ih =>
      by_cases hblank : isBlank c = true
      · rw [parseToken_cons_blank hblank] at htoken
        obtain ⟨blank, lexeme, hall, rfl, hlexeme, hrest⟩ := ih htoken
        refine ⟨c :: blank, lexeme, ?_, rfl, hlexeme, hrest⟩
        rw [List.forall_mem_cons]
        exact ⟨hblank, hall⟩
      · have hquoted : ∀ {quote : Char} {state : TokenParserState},
            Quotes quote state → quote = '"' ∨ quote = '\'' →
            parseTokenLoop state [quote] input = (⟨.normal, token⟩, rest) →
            ∃ blank lexeme, (∀ c ∈ blank, isBlank c = true) ∧
              quote :: input = blank ++ (lexeme ++ rest) ∧
              Lexeme lexeme token ∧
              ∃ d more, rest = d :: more ∧ endsWord d = true := by
          intro quote state hquotes hquote hloop
          obtain ⟨inside, hinside, rfl, rfl, hrest⟩ :=
            parseTokenLoop_quote_normal hquotes hloop
          exact ⟨[], _, by simp, by simp, .quoted hquote hinside, hrest⟩
        unfold parseToken parseTokenLoop at htoken
        split at htoken
        next => cases htoken
        next => cases htoken
        next =>
          have hnormal := parseTokenLoop_comment ['#'] input
          rw [htoken] at hnormal
          exact (hnormal rfl).elim
        next => exact hquoted .double (.inl rfl) htoken
        next => exact hquoted .single (.inr rfl) htoken
        next => cases htoken
        next => exact (hblank rfl).elim
        next => exact (hblank rfl).elim
        next => exact (hblank rfl).elim
        next => exact (hblank rfl).elim
        next hopen hclose hcomment hdouble hsingle hend _ _ _ _ =>
          obtain ⟨word, hword, rfl, rfl, hrest⟩ :=
            parseTokenLoop_word_normal htoken
          refine ⟨[], c :: word, by simp, rfl, .word ⟨c, word, rfl, ?_, hword⟩,
            hrest⟩
          refine ⟨Bool.eq_false_of_not_eq_true hblank, ?_⟩
          simp only [List.mem_cons, List.not_mem_nil, or_false, not_or]
          exact ⟨hopen, hclose, hcomment, hdouble, hsingle, hend⟩

/-! ## Tokens that read as themselves -/

/-- No backslash is dropped from a string that is printed as it was written: the
first one would shift what follows by one, and so on to the closing quote. -/
theorem not_mem_of_unescape_eq {quote : Char} (hquote : quote ≠ '\\')
    {inside : List Char} (hinside : Inside quote inside) {k : ℕ}
    {more rest : List Char}
    (heq : unescape inside ++ quote :: more =
      List.replicate k '\\' ++ (inside ++ quote :: rest)) :
    k = 0 ∧ quote ∉ inside ∧ '\\' ∉ inside := by
  induction hinside generalizing k with
  | nil =>
      cases k with
      | zero => simp
      | succ k =>
          rw [List.replicate_succ, List.cons_append] at heq
          exact (hquote (List.cons.inj heq).1).elim
  | @plain c inside hc hescape _ ih =>
      rw [unescape_plain hescape] at heq
      cases k with
      | zero =>
          obtain ⟨_, hmem, hmem'⟩ := @ih 0 (List.cons.inj heq).2
          simp [hmem, hmem', Ne.symm hc, Ne.symm hescape]
      | succ k =>
          rw [List.replicate_succ, List.cons_append] at heq
          exact (hescape (List.cons.inj heq).1).elim
  | @escape c inside _ ih =>
      have hshift : List.replicate k '\\' ++
            ('\\' :: c :: inside ++ quote :: rest) =
          '\\' :: (List.replicate k '\\' ++ c :: (inside ++ quote :: rest)) := by
        rw [← List.cons_append, ← List.replicate_succ, List.replicate_succ']
        simp
      rw [unescape, hshift, List.cons_append, List.cons.injEq] at heq
      obtain ⟨rfl, htail⟩ := heq
      have hnext := @ih (k + 1) (by
        rw [htail, List.replicate_succ']
        simp)
      exact (Nat.succ_ne_zero k hnext.1).elim

theorem Lexeme.self {lexeme more rest : List Char} {token : Text}
    (hlexeme : Lexeme lexeme token) (heq : token ++ more = lexeme ++ rest) :
    (WordToken token ∨ QuotedToken token) ∧ rest = more := by
  cases hlexeme with
  | word hword => exact ⟨.inl hword, (List.append_cancel_left heq).symm⟩
  | @quoted quote inside hquote hinside =>
      have hne : quote ≠ '\\' := by
        rcases hquote with rfl | rfl <;> decide
      simp only [List.cons_append, List.append_assoc, List.nil_append,
        List.cons.injEq, true_and] at heq
      obtain ⟨_, hmem, hmem'⟩ := @not_mem_of_unescape_eq quote hne inside
        hinside 0 more rest heq
      have hsame := (inside_of_not_mem hmem hmem').2
      rw [hsame] at heq ⊢
      refine ⟨.inr ⟨quote, inside, rfl, hquote, hmem, hmem'⟩, ?_⟩
      exact (List.cons.inj (List.append_cancel_left heq)).2.symm

theorem parseToken_self {token : Text} {more rest : List Char}
    (htoken : parseToken (token ++ more) = (⟨.normal, token⟩, rest)) :
    (WordToken token ∨ QuotedToken token) ∧ rest = more := by
  obtain ⟨blank, lexeme, hblank, heq, hlexeme, _⟩ := parseToken_normal htoken
  have hnil : blank = [] := by
    obtain ⟨c, tail, hstart, hc, _⟩ := hlexeme.starts
    cases blank with
    | nil => rfl
    | cons b blank =>
        rw [hstart, List.cons_append, List.cons_append, List.cons.injEq] at heq
        have hb := hblank b List.mem_cons_self
        rw [← heq.1, hc] at hb
        cases hb
  rw [hnil, List.nil_append] at heq
  exact hlexeme.self heq

theorem mark?_ne_word (c : Char) (token : Text) :
    mark? c ≠ some (.word token) := by
  unfold mark?
  split <;> simp

theorem symbol?_eq_word {token : Token} {v : Text}
    (hsymbol : token.symbol? = some (.word v)) : token = ⟨.normal, v⟩ := by
  obtain ⟨type, value⟩ := token
  unfold Token.symbol? at hsymbol
  split at hsymbol
  next htype =>
    cases hsymbol
    exact congrArg (fun type => Token.mk type value) htype
  all_goals cases hsymbol

/-- The first token of a text that begins as a token does is no comment. -/
theorem symbols_cons {v : Text} (hstarts : Starts v) {more rest : List Char}
    {token : Token} (htoken : parseToken (v ++ more) = (token, rest))
    (hfinal : ¬ token.Final) (tokens : List Token) :
    ∃ symbol, token.symbol? = some symbol ∧
      symbols (token :: tokens) = symbol :: symbols tokens := by
  obtain ⟨c, tail, rfl, hblank, hhash⟩ := hstarts
  rcases (parseToken_takes htoken hfinal).1.comment_or_symbol with
    ⟨hcomment, _⟩ | ⟨symbol, hsymbol⟩
  · have htype := congrArg (fun result => result.1.type) htoken
    exact (hhash (comment_of_parseToken hblank (htype.trans hcomment))).elim
  · exact ⟨symbol, hsymbol, by simp [symbols, hsymbol]⟩

/-- If a spelling is read as the symbols it spells, each of its words is one
that reads as itself. -/
theorem Spells.words {text : List Char} {w : List (Symbol Text)}
    (hspells : Spells text w) {tokens : List Token} {last : List Char}
    (hreads : Reads text tokens last) (hsymbols : symbols tokens = w)
    (hstarts : ∀ token : Text, Symbol.word token ∈ w → Starts token) :
    ∀ token : Text, Symbol.word token ∈ w →
      WordToken token ∨ QuotedToken token := by
  induction hspells generalizing tokens with
  | nil => simp
  | blank hblank _ ih =>
      cases hreads with
      | nil =>
          rw [← hsymbols]
          simp [symbols]
      | cons htoken hfinal htail =>
          rw [parseToken_cons_blank hblank] at htoken
          exact ih (.cons htoken hfinal htail) hsymbols hstarts
  | @mark c symbol rest w hmark _ ih =>
      cases hreads with
      | nil => cases hsymbols
      | cons htoken _ htail =>
          obtain ⟨token, hmarkToken, _, hsymbol⟩ := parseToken_mark hmark rest
          rw [hmarkToken] at htoken
          cases htoken
          simp only [symbols, List.filterMap_cons, hsymbol,
            List.cons.injEq, true_and] at hsymbols
          intro v hmem
          have hne : Symbol.word v ≠ symbol := by
            rintro rfl
            exact mark?_ne_word c v hmark
          exact ih htail hsymbols
            (fun v hv => hstarts v (List.mem_cons_of_mem _ hv)) v
            ((List.mem_cons.mp hmem).resolve_left hne)
  | @word v d more w hd _ ih =>
      cases hreads with
      | nil => cases hsymbols
      | @cons _ rest _ token tokens htoken hfinal htail =>
          have hfirst := hstarts v List.mem_cons_self
          obtain ⟨symbol, hsymbol, hcons⟩ :=
            symbols_cons hfirst htoken hfinal tokens
          rw [hcons, List.cons.injEq] at hsymbols
          rw [hsymbols.1] at hsymbol
          rw [symbol?_eq_word hsymbol] at htoken
          obtain ⟨hself, rfl⟩ := parseToken_self htoken
          have hrest := ih htail hsymbols.2
            fun v hv => hstarts v (List.mem_cons_of_mem _ hv)
          intro other hmem
          rcases List.mem_cons.mp hmem with heq | hmem
          · cases heq
            exact hself
          · exact hrest other hmem

/-- However a tree is spelled, it is read as the tree if its tokens read as
themselves. -/
theorem Spells.parseText {text : Text} {config : NginxConfig}
    (hspells : Spells text (flatten config)) (hconfig : Printable config) :
    Swifties.parseText text = some (.returned true config) := by
  obtain ⟨hwords, htokens⟩ := printable_iff.mp hconfig
  obtain ⟨tokens, hreads, hsymbols⟩ :=
    hspells.readsUpTo fun token hmem _ more hd =>
      parseToken_printable (htokens token hmem) hd more
  have hderives : DerivesConfig (symbols tokens) config := by
    rw [hsymbols]
    exact derives_flatten hwords
  exact parseText_of_readsUpTo hreads hderives

/-- What is printed for a tree is read as the tree exactly if its tokens read as
themselves. -/
theorem parseText_toString_eq_iff {config : NginxConfig}
    (hwords : wellWorded config)
    (hstarts : ∀ token : Text, Symbol.word token ∈ flatten config →
      Starts token) :
    parseText (NginxConfig.toString 0 config) =
        some (.returned true config) ↔ Printable config := by
  have hspells := spells_config hwords 0 .nil
  rw [List.append_nil, List.append_nil] at hspells
  constructor
  · intro hparse
    obtain ⟨tokens, last, hreads, hlast⟩ :=
      exists_reads (NginxConfig.toString 0 config)
    have hderives := ((parseText_true_iff hreads hlast).mp hparse).2
    exact printable_iff.mpr ⟨hwords,
      hspells.words hreads hderives.eq_flatten hstarts⟩
  · exact hspells.parseText

/-! ## Strings with escapes that are lost -/

/-- Some quoted string of the text has a backslash in front of its own quote or
of another backslash. -/
def EscapesDelimiter (text : Text) : Prop :=
  ∃ tokens blank quote inside c inside' more,
    Reads text tokens (blank ++
      quote :: (inside ++ '\\' :: c :: (inside' ++ quote :: more))) ∧
    (∀ b ∈ blank, isBlank b = true) ∧ (quote = '"' ∨ quote = '\'') ∧
    Inside quote inside ∧ Inside quote inside' ∧ (c = quote ∨ c = '\\')

theorem Inside.append {quote : Char} {inside inside' : List Char}
    (hinside : Inside quote inside) (hinside' : Inside quote inside') :
    Inside quote (inside ++ inside') ∧
      unescape (inside ++ inside') = unescape inside ++ unescape inside' := by
  induction hinside with
  | nil => exact ⟨hinside', rfl⟩
  | @plain c inside hc hescape _ ih =>
      refine ⟨.plain hc hescape ih.1, ?_⟩
      rw [List.cons_append, unescape_plain hescape, unescape_plain hescape,
        ih.2, List.cons_append]
  | @escape c inside _ ih =>
      refine ⟨.escape ih.1, ?_⟩
      rw [List.cons_append, List.cons_append, unescape, unescape, ih.2,
        List.cons_append]

/-- A quote or a backslash between the quotes of a token was escaped. -/
theorem exists_escape_of_mem {quote d : Char} (hd : d = quote ∨ d = '\\')
    {inside : List Char} (hinside : Inside quote inside)
    (hmem : d ∈ unescape inside) :
    ∃ front back, inside = front ++ '\\' :: d :: back ∧
      Inside quote front ∧ Inside quote back := by
  induction hinside with
  | nil => simp [unescape] at hmem
  | @plain c inside hc hescape hrest ih =>
      rw [unescape_plain hescape, List.mem_cons] at hmem
      have hne : d ≠ c := by
        rintro rfl
        exact hd.elim hc hescape
      obtain ⟨front, back, rfl, hfront, hback⟩ := ih (hmem.resolve_left hne)
      exact ⟨c :: front, back, rfl, .plain hc hescape hfront, hback⟩
  | @escape c inside hrest ih =>
      rw [unescape, List.mem_cons] at hmem
      rcases hmem with rfl | hmem
      · exact ⟨[], inside, rfl, .nil, hrest⟩
      · obtain ⟨front, back, rfl, hfront, hback⟩ := ih hmem
        exact ⟨'\\' :: c :: front, back, rfl, .escape hfront, hback⟩

theorem closeQuote_cases (value : Text) (input : List Char) :
    (closeQuote value input).1 = ⟨.normal, value⟩ ∨
      (closeQuote value input).1.type = .error := by
  cases input with
  | nil => exact .inr rfl
  | cons c input =>
      rw [closeQuote]
      split
      next => exact .inl rfl
      next => exact .inr rfl

theorem not_mem_of_printable {quote : Char}
    (hquote : quote = '"' ∨ quote = '\'') {body : Text}
    (hprintable : WordToken (quote :: (body ++ [quote])) ∨
      QuotedToken (quote :: (body ++ [quote]))) :
    quote ∉ body ∧ '\\' ∉ body := by
  rcases hprintable with ⟨c, rest, heq, ⟨_, hfirst⟩, _⟩ |
    ⟨other, body', heq, _, hmem, hmem'⟩
  · rw [← (List.cons.inj heq).1] at hfirst
    rcases hquote with rfl | rfl <;> simp at hfirst
  · obtain ⟨rfl, hbody⟩ := List.cons.inj heq
    rw [List.append_cancel_right hbody]
    exact ⟨hmem, hmem'⟩

theorem Reads.split {input last : List Char} {before after : List Token}
    {token : Token} (hreads : Reads input (before ++ token :: after) last) :
    ∃ middle rest, Reads input before middle ∧
      parseToken middle = (token, rest) := by
  induction before generalizing input with
  | nil =>
      cases hreads with
      | cons htoken _ _ => exact ⟨input, _, .nil, htoken⟩
  | cons first before ih =>
      cases hreads with
      | cons htoken hfinal htail =>
          obtain ⟨middle, rest, hbefore, hmiddle⟩ := ih htail
          exact ⟨middle, rest, .cons htoken hfinal hbefore, hmiddle⟩

/-- The calls on a text are the same as far as they go. -/
theorem Reads.continue {input middle last : List Char}
    {part tokens : List Token} (hpart : Reads input part middle)
    (hreads : Reads input tokens last) (hlast : (parseToken last).1.Final) :
    ∃ more, tokens = part ++ more ∧ Reads middle more last := by
  induction hpart generalizing tokens with
  | nil => exact ⟨tokens, rfl, hreads⟩
  | cons htoken hfinal _ ih =>
      cases hreads with
      | nil =>
          rw [htoken] at hlast
          exact (hfinal hlast).elim
      | cons htoken' _ htail =>
          rw [htoken] at htoken'
          cases htoken'
          obtain ⟨more, rfl, hmore⟩ := ih htail
          exact ⟨more, rfl, hmore⟩

theorem word_mem_symbols_iff {tokens : List Token} {v : Text} :
    Symbol.word v ∈ symbols tokens ↔ ⟨.normal, v⟩ ∈ tokens := by
  rw [symbols, List.mem_filterMap]
  constructor
  · rintro ⟨token, hmem, hsymbol⟩
    rwa [← symbol?_eq_word hsymbol]
  · intro hmem
    exact ⟨_, hmem, rfl⟩

/-- Every word of a text is read from its lexeme somewhere in the text. -/
theorem exists_lexeme {text last : List Char} {tokens : List Token}
    (hreads : Reads text tokens last) {v : Text}
    (hmem : Symbol.word v ∈ symbols tokens) :
    ∃ before blank lexeme rest, Reads text before (blank ++ (lexeme ++ rest)) ∧
      (∀ b ∈ blank, isBlank b = true) ∧ Lexeme lexeme v := by
  obtain ⟨before, after, rfl⟩ :=
    List.append_of_mem (word_mem_symbols_iff.mp hmem)
  obtain ⟨middle, rest, hbefore, htoken⟩ := hreads.split
  obtain ⟨blank, lexeme, hblank, rfl, hlexeme, _⟩ := parseToken_normal htoken
  exact ⟨before, blank, lexeme, rest, hbefore, hblank, hlexeme⟩

/-- Every quoted string that is begun in a text without errors is one of its
words. -/
theorem quoted_mem_symbols {text last : List Char} {tokens part : List Token}
    (hreads : Reads text tokens last) (heof : (parseToken last).1.type = .eof)
    {quote : Char} (hquote : quote = '"' ∨ quote = '\'')
    {blank inside more : List Char} (hblank : ∀ b ∈ blank, isBlank b = true)
    (hinside : Inside quote inside)
    (hpart : Reads text part (blank ++ quote :: (inside ++ quote :: more))) :
    Symbol.word (quote :: (unescape inside ++ [quote])) ∈ symbols tokens := by
  have hcall := parseToken_quoted hquote hinside more
  rw [← parseToken_append_blank hblank] at hcall
  obtain ⟨rest, rfl, hrest⟩ := hpart.continue hreads (.inl heof)
  have hcases := closeQuote_cases (quote :: (unescape inside ++ [quote])) more
  rw [← hcall] at hcases
  cases hrest with
  | nil =>
      rw [heof] at hcases
      rcases hcases with hnormal | herror
      · rw [hnormal] at heof
        cases heof
      · cases herror
  | @cons _ _ _ token _ htoken hfinal _ =>
      rw [htoken] at hcases
      obtain rfl : token = _ :=
        hcases.resolve_right fun herror => hfinal (.inr herror)
      apply word_mem_symbols_iff.mpr
      exact List.mem_append_right part List.mem_cons_self

theorem words_printable_iff {text last : List Char} {tokens : List Token}
    (hreads : Reads text tokens last)
    (heof : (parseToken last).1.type = .eof) :
    (∀ v : Text, Symbol.word v ∈ symbols tokens →
        WordToken v ∨ QuotedToken v) ↔ ¬ EscapesDelimiter text := by
  constructor
  · rintro hall ⟨part, blank, quote, inside, c, inside', more, hpart, hblank,
      hquote, hinside, hinside', hc⟩
    obtain ⟨hboth, hunescape⟩ := hinside.append (.escape (c := c) hinside')
    have hbegun : Reads text part (blank ++
        quote :: ((inside ++ '\\' :: c :: inside') ++ quote :: more)) := by
      simpa using hpart
    have hfree := not_mem_of_printable hquote
      (hall _ (quoted_mem_symbols hreads heof hquote hblank hboth hbegun))
    rw [hunescape, unescape] at hfree
    rcases hc with rfl | rfl
    · exact hfree.1 (by simp)
    · exact hfree.2 (by simp)
  · intro hnot v hmem
    obtain ⟨before, blank, lexeme, rest, hbefore, hblank, hlexeme⟩ :=
      exists_lexeme hreads hmem
    cases hlexeme with
    | word hword => exact .inl hword
    | @quoted quote inside hquote hinside =>
        have hfree : ∀ d, d = quote ∨ d = '\\' → d ∉ unescape inside := by
          intro d hd hmem
          obtain ⟨front, back, rfl, hfront, hback⟩ :=
            exists_escape_of_mem hd hinside hmem
          apply hnot
          refine ⟨before, blank, quote, front, d, back, rest, ?_, hblank,
            hquote, hfront, hback, hd⟩
          simpa using hbefore
        exact .inr ⟨quote, unescape inside, rfl, hquote,
          hfree quote (.inl rfl), hfree '\\' (.inr rfl)⟩

/-- A parsed config is printed as a text that parses to it exactly if no string
of the original escapes its own quote or a backslash. -/
theorem parseText_reprint_iff {text : Text} {config : NginxConfig}
    (hparse : parseText text = some (.returned true config)) :
    parseText (NginxConfig.toString 0 config) =
        some (.returned true config) ↔ ¬ EscapesDelimiter text := by
  obtain ⟨tokens, last, hreads, hlast⟩ := exists_reads text
  obtain ⟨heof, hderives⟩ := (parseText_true_iff hreads hlast).mp hparse
  obtain ⟨hwords, hsymbols⟩ := derivesConfig_iff.mp hderives
  have hstarts : ∀ token : Text, Symbol.word token ∈ flatten config →
      Starts token := by
    intro token hmem
    rw [← hsymbols] at hmem
    obtain ⟨_, _, _, _, _, _, hlexeme⟩ := exists_lexeme hreads hmem
    exact hlexeme.starts
  rw [parseText_toString_eq_iff hwords hstarts, printable_iff,
    and_iff_right hwords, ← hsymbols]
  exact words_printable_iff hreads heof

theorem parseText_reprint_iff_server :
    let text := "server \x7b root \"a;\\n\" # x\n; \x7d".toList
    ∃ config, parseText text = some (.returned true config) ∧
      (parseText (NginxConfig.toString 0 config) =
        some (.returned true config) ↔ ¬ EscapesDelimiter text) := by
  intro text
  have hparse : parseText text = some (.returned true
      [.block ["server".toList]
        [.simple ["root".toList, "\"a;n\"".toList]]]) := by
    rfl
  exact ⟨_, hparse, parseText_reprint_iff hparse⟩

/-- The backslash of `"a\"b"` is dropped, and what is printed is no config. -/
theorem not_parseText_reprint :
    ∃ config, parseText "name \"a\\\"b\";".toList =
        some (.returned true config) ∧
      parseText (NginxConfig.toString 0 config) ≠
        some (.returned true config) := by
  have hparse : parseText "name \"a\\\"b\";".toList =
      some (.returned true [.simple ["name".toList, "\"a\"b\"".toList]]) := by
    rfl
  refine ⟨_, hparse, fun hreprint => ?_⟩
  have hfalse : ∃ tree, parseText (NginxConfig.toString 0
      [.simple ["name".toList, "\"a\"b\"".toList]]) =
        some (.returned false tree) := ⟨_, by rfl⟩
  obtain ⟨tree, hfalse⟩ := hfalse
  rw [hfalse] at hreprint
  cases hreprint

end Swifties
