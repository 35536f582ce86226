import Swifties.ConfigLayout
import Swifties.ConfigReprint

/-!
# The language of configs

Which texts `Parse` accepts, character by character and without its states: a
text is a sequence of blanks, marks, comments, words and quoted strings, and the
symbols it is made of derive the tree.  At the end of the text, an unfinished
comment, word or escape is dropped.
-/

namespace Swifties

open BlockGrammar

def endsLine (c : Char) : Bool := c == '\n' || c == '\r'

/-- The lexical grammar.  Words and quoted strings are followed by a character
that ends words, which is not part of them. -/
inductive Lexes : List Char → List (Symbol Text) → Prop
  | nil : Lexes [] []
  | blank {c : Char} {rest : List Char} {w : List (Symbol Text)} :
      isBlank c = true → Lexes rest w → Lexes (c :: rest) w
  | mark {c : Char} {symbol : Symbol Text} {rest : List Char}
      {w : List (Symbol Text)} : mark? c = some symbol → Lexes rest w →
      Lexes (c :: rest) (symbol :: w)
  | comment {line : List Char} {c : Char} {rest : List Char}
      {w : List (Symbol Text)} : (∀ d ∈ line, endsLine d = false) →
      endsLine c = true → Lexes rest w → Lexes ('#' :: (line ++ c :: rest)) w
  | token {lexeme : List Char} {v : Text} {d : Char} {more : List Char}
      {w : List (Symbol Text)} : Lexeme lexeme v → endsWord d = true →
      Lexes (d :: more) w → Lexes (lexeme ++ d :: more) (.word v :: w)
  | lastComment {line : List Char} : (∀ d ∈ line, endsLine d = false) →
      Lexes ('#' :: line) []
  | lastWord {v : Text} : WordToken v → Lexes v []
  | lastEscape {quote : Char} {inside : List Char} :
      quote = '"' ∨ quote = '\'' → Inside quote inside →
      Lexes (quote :: (inside ++ ['\\'])) []

/-! ## What is read of a text -/

theorem symbols_cons_eq (token : Token) (tokens : List Token) :
    symbols (token :: tokens) = token.symbol?.toList ++ symbols tokens := by
  rw [symbols, List.filterMap_cons]
  cases token.symbol? <;> rfl

/-- A text is read to its end as the symbol of its first token, if it has one,
and what the rest is read as. -/
theorem readsWhole_step {input rest : List Char} {token : Token}
    (htoken : parseToken input = (token, rest)) (hfinal : ¬ token.Final)
    {w : List (Symbol Text)} :
    ReadsWhole input w ↔
      ∃ w', ReadsWhole rest w' ∧ w = token.symbol?.toList ++ w' := by
  constructor
  · rintro ⟨tokens, last, hreads, heof, rfl⟩
    cases hreads with
    | nil =>
        rw [htoken] at heof
        exact (hfinal (.inl heof)).elim
    | @cons _ _ _ first tokens hfirst _ hrest =>
        rw [htoken] at hfirst
        cases hfirst
        exact ⟨symbols tokens, ⟨tokens, last, hrest, heof, rfl⟩,
          symbols_cons_eq token tokens⟩
  · rintro ⟨w', ⟨tokens, last, hreads, heof, rfl⟩, rfl⟩
    exact ⟨token :: tokens, last, .cons htoken hfinal hreads, heof,
      symbols_cons_eq token tokens⟩

theorem readsWhole_of_eof {input : List Char}
    (heof : (parseToken input).1.type = .eof) {w : List (Symbol Text)} :
    ReadsWhole input w ↔ w = [] := by
  constructor
  · rintro ⟨tokens, last, hreads, _, rfl⟩
    cases hreads with
    | nil => rfl
    | cons hfirst hfinal _ =>
        rw [hfirst] at heof
        exact (hfinal (.inl heof)).elim
  · rintro rfl
    exact ⟨[], input, .nil, heof, rfl⟩

theorem ReadsWhole.congr {input input' : List Char} {w : List (Symbol Text)}
    (hsame : parseToken input' = parseToken input)
    (hreads : ReadsWhole input w) : ReadsWhole input' w := by
  obtain ⟨tokens, last, hreads, heof, hsymbols⟩ := hreads
  cases hreads with
  | nil => exact ⟨[], input', .nil, by rw [hsame, heof], hsymbols⟩
  | cons hfirst hfinal hrest =>
      exact ⟨_, last, .cons (hsame.trans hfirst) hfinal hrest, heof, hsymbols⟩

/-! ## Comments -/

theorem parseTokenLoop_comment_line {line : List Char}
    (hline : ∀ d ∈ line, endsLine d = false) (value : Text) {c : Char}
    (hc : endsLine c = true) (rest : List Char) :
    parseTokenLoop .tokenTypeComment value (line ++ c :: rest) =
      (⟨.comment, value ++ line⟩, rest) := by
  induction line generalizing value with
  | nil =>
      have hends : c = '\n' ∨ c = '\r' := by simpa [endsLine] using hc
      rw [List.nil_append, parseTokenLoop, if_pos hends, List.append_nil]
  | cons d line ih =>
      rw [List.forall_mem_cons] at hline
      have hnot : ¬ (d = '\n' ∨ d = '\r') := by
        simpa [endsLine] using hline.1
      rw [List.cons_append, parseTokenLoop, if_neg hnot, ih hline.2]
      simp

theorem parseTokenLoop_comment_end {line : List Char}
    (hline : ∀ d ∈ line, endsLine d = false) (value : Text) :
    (parseTokenLoop .tokenTypeComment value line).1.type = .eof := by
  induction line generalizing value with
  | nil => rfl
  | cons d line ih =>
      rw [List.forall_mem_cons] at hline
      have hnot : ¬ (d = '\n' ∨ d = '\r') := by
        simpa [endsLine] using hline.1
      rw [parseTokenLoop, if_neg hnot]
      exact ih hline.2 _

/-- A text has no end of a line, or a first one. -/
theorem exists_endsLine (input : List Char) :
    (∀ d ∈ input, endsLine d = false) ∨
      ∃ line c rest, input = line ++ c :: rest ∧
        (∀ d ∈ line, endsLine d = false) ∧ endsLine c = true := by
  induction input with
  | nil => exact .inl fun d hd => by cases hd
  | cons c input ih =>
      cases hc : endsLine c with
      | true => exact .inr ⟨[], c, input, rfl, by simp, hc⟩
      | false =>
          rcases ih with hnone | ⟨line, d, rest, rfl, hline, hd⟩
          · exact .inl (List.forall_mem_cons.mpr ⟨hc, hnone⟩)
          · exact .inr ⟨c :: line, d, rest, rfl,
              List.forall_mem_cons.mpr ⟨hc, hline⟩, hd⟩

/-! ## Strings and words -/

theorem parseTokenLoop_inside_escape {quote : Char} {state : TokenParserState}
    (hquotes : Quotes quote state) {inside : List Char}
    (hinside : Inside quote inside) (value : Text) :
    (parseTokenLoop state value (inside ++ ['\\'])).1.type = .eof := by
  induction hinside generalizing value with
  | nil =>
      rw [List.nil_append, parseTokenLoop_quote_cons hquotes,
        if_neg (Ne.symm hquotes.ne_escape), if_pos rfl]
  | plain hquote hescape _ ih =>
      rw [List.cons_append, parseTokenLoop_quote_cons hquotes, if_neg hquote,
        if_neg hescape]
      exact ih _
  | escape _ ih =>
      rw [List.cons_append, parseTokenLoop_quote_cons hquotes,
        if_neg (Ne.symm hquotes.ne_escape), if_pos rfl]
      exact ih _

/-- A string is closed, or it is an error unless it ends in an escape. -/
theorem parseTokenLoop_quote_cases {quote : Char} {state : TokenParserState}
    (hquotes : Quotes quote state) (value : Text) (input : List Char) :
    (∃ inside, Inside quote inside ∧ input = inside ++ ['\\']) ∨
      (parseTokenLoop state value input).1.type = .error ∨
      ∃ v, (parseTokenLoop state value input).1 = ⟨.normal, v⟩ := by
  induction hlength : input.length using Nat.strong_induction_on
      generalizing value input with
  | _ n ih =>
      cases input with
      | nil => cases hquotes <;> exact .inr (.inl rfl)
      | cons c input =>
          rw [List.length_cons] at hlength
          rw [parseTokenLoop_quote_cons hquotes]
          split
          next =>
            rcases closeQuote_cases (value ++ [c]) input with hnormal | herror
            · exact .inr (.inr ⟨_, hnormal⟩)
            · exact .inr (.inl herror)
          next hc =>
            split
            next hescape =>
              cases input with
              | nil =>
                  rw [hescape]
                  exact .inl ⟨[], .nil, rfl⟩
              | cons d input =>
                  rw [List.length_cons] at hlength
                  rcases ih _ (by omega) (value ++ [d]) input rfl with
                    ⟨inside, hinside, rfl⟩ | hother
                  · rw [hescape]
                    exact .inl ⟨'\\' :: d :: inside, .escape hinside, rfl⟩
                  · exact .inr hother
            next hescape =>
              rcases ih _ (by omega) (value ++ [c]) input rfl with
                ⟨inside, hinside, rfl⟩ | hother
              · exact .inl ⟨c :: inside, .plain hc hescape hinside, rfl⟩
              · exact .inr hother

theorem parseTokenLoop_word_cases (value : Text) (input : List Char) :
    (∀ d ∈ input, endsWord d = false) ∨
      ∃ v, (parseTokenLoop .tokenTypeNormal value input).1 = ⟨.normal, v⟩ := by
  induction input generalizing value with
  | nil => exact .inl fun d hd => by cases hd
  | cons c input ih =>
      rw [parseTokenLoop]
      split
      next => exact .inr ⟨value, rfl⟩
      next hends =>
        rcases ih (value ++ [c]) with hnone | hword
        · refine .inl (List.forall_mem_cons.mpr ⟨?_, hnone⟩)
          exact Bool.eq_false_of_not_eq_true hends
        · exact .inr hword

/-! ## The grammar describes what is read -/

theorem Lexes.blanks {blank rest : List Char} {w : List (Symbol Text)}
    (hblank : ∀ c ∈ blank, isBlank c = true) (hlexes : Lexes rest w) :
    Lexes (blank ++ rest) w := by
  induction blank with
  | nil => exact hlexes
  | cons c blank ih =>
      rw [List.forall_mem_cons] at hblank
      exact .blank hblank.1 (ih hblank.2)

theorem parseToken_lexeme {lexeme : List Char} {v : Text}
    (hlexeme : Lexeme lexeme v) {d : Char} (hd : endsWord d = true)
    (more : List Char) :
    parseToken (lexeme ++ d :: more) = (⟨.normal, v⟩, d :: more) := by
  cases hlexeme with
  | word hword => exact parseToken_printable (.inl hword) hd more
  | quoted hquote hinside =>
      have hread := parseToken_quoted hquote hinside (d :: more)
      have hends : endsQuoted d = true := hd
      rw [closeQuote, if_pos hends] at hread
      simpa using hread

theorem Lexes.reads {text : List Char} {w : List (Symbol Text)}
    (hlexes : Lexes text w) : ReadsWhole text w := by
  induction hlexes with
  | nil => exact (readsWhole_of_eof rfl).mpr rfl
  | blank hblank _ ih => exact ih.congr (parseToken_cons_blank hblank _)
  | mark hmark _ ih =>
      obtain ⟨token, htoken, hfinal, hsymbol⟩ := parseToken_mark hmark _
      exact .cons htoken hfinal hsymbol ih
  | @comment line c rest w hline hc _ ih =>
      have htoken : parseToken ('#' :: (line ++ c :: rest)) =
          (⟨.comment, '#' :: line⟩, rest) :=
        parseTokenLoop_comment_line hline ['#'] hc rest
      exact (readsWhole_step htoken (by simp [Token.Final])).mpr ⟨_, ih, rfl⟩
  | token hlexeme hd _ ih =>
      exact .cons (parseToken_lexeme hlexeme hd _) (by simp [Token.Final]) rfl
        ih
  | @lastComment line hline =>
      have heof : (parseToken ('#' :: line)).1.type = .eof :=
        parseTokenLoop_comment_end hline ['#']
      exact (readsWhole_of_eof heof).mpr rfl
  | lastWord hword => exact readsWhole_word hword
  | lastEscape hquote hinside =>
      rw [readsWhole_of_eof]
      rcases hquote with rfl | rfl
      · exact parseTokenLoop_inside_escape .double hinside ['"']
      · exact parseTokenLoop_inside_escape .single hinside ['\'']

/-- What the first call on a text finds: nothing but what the grammar drops at
the end, an error, or a token that the grammar has too. -/
inductive Front (input : List Char) : Token × List Char → Prop
  | last {token : Token} {rest : List Char} : Lexes input [] →
      token.type = .eof → Front input (token, rest)
  | error {token : Token} {rest : List Char} : token.type = .error →
      Front input (token, rest)
  | more {token : Token} {rest : List Char} : ¬ token.Final →
      (∀ w, Lexes rest w → Lexes input (token.symbol?.toList ++ w)) →
      Front input (token, rest)

theorem Front.of_eof {input : List Char} (hlexes : Lexes input [])
    (heof : (parseToken input).1.type = .eof) :
    Front input (parseToken input) :=
  .last hlexes heof

theorem Front.of_normal {input : List Char} {v : Text}
    (hnormal : (parseToken input).1 = ⟨.normal, v⟩) :
    Front input (parseToken input) := by
  have hread : parseToken input = (⟨.normal, v⟩, (parseToken input).2) := by
    rw [← hnormal]
  obtain ⟨blank, lexeme, hblank, hinput, hlexeme, d, more, hrest, hd⟩ :=
    parseToken_normal hread
  rw [hread]
  refine .more (by simp [Token.Final]) fun w hlexes => ?_
  rw [hinput]
  rw [hrest] at hlexes ⊢
  exact (Lexes.token hlexeme hd hlexes).blanks hblank

theorem front_quote {quote : Char} {state : TokenParserState}
    (hquotes : Quotes quote state) (hquote : quote = '"' ∨ quote = '\'')
    {rest : List Char}
    (hread : parseToken (quote :: rest) = parseTokenLoop state [quote] rest) :
    Front (quote :: rest) (parseToken (quote :: rest)) := by
  rcases parseTokenLoop_quote_cases hquotes [quote] rest with
    ⟨inside, hinside, rfl⟩ | herror | ⟨v, hnormal⟩
  · apply Front.of_eof (.lastEscape hquote hinside)
    rw [hread]
    exact parseTokenLoop_inside_escape hquotes hinside [quote]
  · rw [hread]
    exact .error herror
  · exact .of_normal (by rw [hread, hnormal])

theorem front_comment (rest : List Char) :
    Front ('#' :: rest) (parseToken ('#' :: rest)) := by
  rcases exists_endsLine rest with hline | ⟨line, c, rest, rfl, hline, hc⟩
  · exact .of_eof (.lastComment hline) (parseTokenLoop_comment_end hline ['#'])
  · have hread : parseToken ('#' :: (line ++ c :: rest)) =
        (⟨.comment, '#' :: line⟩, rest) :=
      parseTokenLoop_comment_line hline ['#'] hc rest
    rw [hread]
    exact .more (by simp [Token.Final]) fun w hlexes =>
      .comment hline hc hlexes

theorem front_word {c : Char} (hblank : ¬ isBlank c = true)
    (hmark : mark? c = none) (hcomment : c ≠ '#') (hdouble : c ≠ '"')
    (hsingle : c ≠ '\'') (rest : List Char) :
    Front (c :: rest) (parseToken (c :: rest)) := by
  have hfirst : isBlank c = false ∧ c ∉ ['{', '}', '#', '"', '\'', ';'] := by
    refine ⟨Bool.eq_false_of_not_eq_true hblank, ?_⟩
    simp only [List.mem_cons, List.not_mem_nil, or_false, not_or]
    refine ⟨?_, ?_, hcomment, hdouble, hsingle, ?_⟩ <;>
      rintro rfl <;> cases hmark
  have hread : parseToken (c :: rest) =
      parseTokenLoop .tokenTypeNormal [c] rest := by
    obtain ⟨hnot, hchars⟩ := hfirst
    simp only [isBlank, Bool.or_eq_false_iff, beq_eq_false_iff_ne,
      ne_eq] at hnot
    simp only [List.mem_cons, List.not_mem_nil, or_false, not_or] at hchars
    simp [parseToken, parseTokenLoop, hnot, hchars]
  rcases parseTokenLoop_word_cases [c] rest with hrest | ⟨v, hnormal⟩
  · apply Front.of_eof (.lastWord ⟨c, rest, rfl, hfirst, hrest⟩)
    rw [hread]
    exact parseTokenLoop_word_eof hrest [c]
  · exact .of_normal (by rw [hread, hnormal])

theorem front (input : List Char) : Front input (parseToken input) := by
  induction input with
  | nil => exact .last .nil rfl
  | cons c rest ih =>
      by_cases hblank : isBlank c = true
      · rw [parseToken_cons_blank hblank]
        generalize parseToken rest = result at ih ⊢
        cases ih with
        | last hlexes heof => exact .last (.blank hblank hlexes) heof
        | error herror => exact .error herror
        | more hfinal hlexes =>
            exact .more hfinal fun w hrest => .blank hblank (hlexes w hrest)
      · cases hmark : mark? c with
        | some symbol =>
            obtain ⟨token, htoken, hfinal, hsymbol⟩ :=
              parseToken_mark hmark rest
            rw [htoken]
            refine .more hfinal fun w hlexes => ?_
            rw [hsymbol]
            exact .mark hmark hlexes
        | none =>
            by_cases hcomment : c = '#'
            · rw [hcomment]
              exact front_comment rest
            · by_cases hdouble : c = '"'
              · rw [hdouble]
                exact front_quote .double (.inl rfl) rfl
              · by_cases hsingle : c = '\''
                · rw [hsingle]
                  exact front_quote .single (.inr rfl) rfl
                · exact front_word hblank hmark hcomment hdouble hsingle rest

/-! ## The texts that are accepted -/

theorem lexes_iff {text : List Char} {w : List (Symbol Text)} :
    Lexes text w ↔ ReadsWhole text w := by
  constructor
  · exact Lexes.reads
  · rintro ⟨tokens, last, hreads, heof, rfl⟩
    induction hreads with
    | @nil input =>
        have hfront := front input
        generalize parseToken input = result at hfront heof
        cases hfront with
        | last hlexes _ => exact hlexes
        | error herror =>
            rw [herror] at heof
            cases heof
        | more hfinal _ => exact (hfinal (.inl heof)).elim
    | @cons input rest last token tokens htoken hfinal _ ih =>
        have hfront := front input
        rw [htoken] at hfront
        cases hfront with
        | last _ heof => exact (hfinal (.inl heof)).elim
        | error herror => exact (hfinal (.inr herror)).elim
        | more _ hlexes =>
            rw [symbols_cons_eq]
            exact hlexes _ (ih heof)

theorem parseText_true_iff_readsWhole {text : Text} {config : NginxConfig} :
    parseText text = some (.returned true config) ↔
      ∃ w, ReadsWhole text w ∧ DerivesConfig w config := by
  obtain ⟨tokens, last, hreads, hlast⟩ := exists_reads text
  rw [parseText_true_iff hreads hlast]
  constructor
  · rintro ⟨heof, hderives⟩
    exact ⟨_, ⟨tokens, last, hreads, heof, rfl⟩, hderives⟩
  · rintro ⟨_, ⟨tokens', last', hreads', heof', rfl⟩, hderives⟩
    obtain ⟨more, rfl, hmore⟩ := hreads.continue hreads' (.inl heof')
    cases hmore with
    | nil =>
        rw [List.append_nil] at hderives
        exact ⟨heof', hderives⟩
    | cons htoken hfinal _ =>
        rw [htoken] at hlast
        exact (hfinal hlast).elim

/-- `Parse` accepts a text with a tree exactly if the text is lexically well
formed and its symbols derive the tree. -/
theorem parseText_true_iff_lexes {text : Text} {config : NginxConfig} :
    parseText text = some (.returned true config) ↔
      ∃ w, Lexes text w ∧ DerivesConfig w config := by
  simp only [lexes_iff]
  exact parseText_true_iff_readsWhole

/-! ## Configs one after the other -/

/-- The text is empty or its last character is a newline. -/
def LinesWhole (text : List Char) : Prop := ∀ c ∈ text.getLast?, c = '\n'

theorem LinesWhole.suffix {before rest : List Char}
    (hwhole : LinesWhole (before ++ rest)) : LinesWhole rest := by
  intro c hc
  apply hwhole
  rw [List.getLast?_append, Option.mem_def.mp hc]
  rfl

theorem LinesWhole.newline_mem {text : List Char} (hwhole : LinesWhole text)
    (hne : text ≠ []) : '\n' ∈ text := by
  have hlast := List.getLast?_eq_some_getLast hne
  rw [← hwhole _ hlast]
  exact List.getLast_mem hne

theorem readsWhole_step_append {input rest second : List Char} {token : Token}
    {w₁ : List (Symbol Text)} (htoken : parseToken input = (token, rest))
    (hfinal : ¬ token.Final)
    (hrest : ∀ w, ReadsWhole rest w ↔
      ∃ w₂, ReadsWhole second w₂ ∧ w = w₁ ++ w₂) (w : List (Symbol Text)) :
    ReadsWhole input w ↔
      ∃ w₂, ReadsWhole second w₂ ∧ w = token.symbol?.toList ++ w₁ ++ w₂ := by
  simp only [readsWhole_step htoken hfinal, hrest, List.append_assoc]
  constructor
  · rintro ⟨_, ⟨w₂, hsecond, rfl⟩, rfl⟩
    exact ⟨w₂, hsecond, rfl⟩
  · rintro ⟨w₂, hsecond, rfl⟩
    exact ⟨_, ⟨w₂, hsecond, rfl⟩, rfl⟩

/-- Behind whole lines, a text is read as it is by itself. -/
theorem Lexes.append_iff {text : List Char} {w₁ : List (Symbol Text)}
    (hlexes : Lexes text w₁) (hwhole : LinesWhole text) {second : List Char}
    {w : List (Symbol Text)} :
    Lexes (text ++ second) w ↔ ∃ w₂, Lexes second w₂ ∧ w = w₁ ++ w₂ := by
  simp only [lexes_iff]
  induction hlexes generalizing w with
  | nil => simp
  | @blank c rest w₁ hblank _ ih =>
      have htail : LinesWhole ([c] ++ rest) := hwhole
      have hsame := parseToken_cons_blank hblank (rest ++ second)
      rw [← ih htail.suffix]
      exact ⟨ReadsWhole.congr hsame.symm, ReadsWhole.congr hsame⟩
  | @mark c symbol rest w₁ hmark _ ih =>
      have htail : LinesWhole ([c] ++ rest) := hwhole
      obtain ⟨token, htoken, hfinal, hsymbol⟩ :=
        parseToken_mark hmark (rest ++ second)
      have hstep := readsWhole_step_append htoken hfinal
        (fun _ => ih htail.suffix) w
      rwa [hsymbol] at hstep
  | @comment line c rest w₁ hline hc _ ih =>
      have htail : LinesWhole (('#' :: line ++ [c]) ++ rest) := by
        simpa using hwhole
      have htoken : parseToken ('#' :: (line ++ c :: (rest ++ second))) =
          (⟨.comment, '#' :: line⟩, rest ++ second) :=
        parseTokenLoop_comment_line hline ['#'] hc (rest ++ second)
      have hstep := readsWhole_step_append htoken (by simp [Token.Final])
        (fun _ => ih htail.suffix) w
      simpa [Token.symbol?] using hstep
  | @token lexeme v d more w₁ hlexeme hd _ ih =>
      have htail : LinesWhole (lexeme ++ d :: more) := hwhole
      have htoken := parseToken_lexeme hlexeme hd (more ++ second)
      have hstep := readsWhole_step_append htoken (by simp [Token.Final])
        (fun _ => ih htail.suffix) w
      simpa [Token.symbol?] using hstep
  | @lastComment line hline =>
      have hmem := hwhole.newline_mem (List.cons_ne_nil _ _)
      rw [List.mem_cons, or_iff_right (by decide)] at hmem
      cases hline _ hmem
  | lastWord hword =>
      have hmem := hwhole.newline_mem hword.ne_nil
      cases hword.endsWord _ hmem
  | @lastEscape quote inside _ _ =>
      have hlast := hwhole '\\' (by
        rw [← List.cons_append, List.getLast?_append]
        rfl)
      cases hlast

/-- Behind the lines of a config, a text is accepted exactly if it is by
itself, and the trees are put together. -/
theorem parseText_append_iff {first second : Text}
    {config whole : NginxConfig}
    (hfirst : parseText (first ++ ['\n']) = some (.returned true config)) :
    parseText (first ++ '\n' :: second) = some (.returned true whole) ↔
      ∃ more, parseText second = some (.returned true more) ∧
        whole = config ++ more := by
  obtain ⟨w₁, hreads, hderives⟩ := parseText_true_iff_readsWhole.mp hfirst
  have hlexes := lexes_iff.mpr hreads
  have hwhole : LinesWhole (first ++ ['\n']) := by
    intro c hc
    rw [List.getLast?_append] at hc
    simpa [eq_comm] using hc
  have hsplit : first ++ '\n' :: second = (first ++ ['\n']) ++ second := by
    simp
  rw [hsplit, parseText_true_iff_readsWhole]
  simp only [parseText_true_iff_readsWhole, ← lexes_iff,
    hlexes.append_iff hwhole]
  constructor
  · rintro ⟨_, ⟨w₂, hsecond, rfl⟩, hboth⟩
    obtain ⟨more, hmore, rfl⟩ := hderives.append_iff.mp hboth
    exact ⟨more, ⟨w₂, hsecond, hmore⟩, rfl⟩
  · rintro ⟨more, ⟨w₂, hsecond, hmore⟩, rfl⟩
    exact ⟨_, ⟨w₂, hsecond, rfl⟩, hderives.append_iff.mpr ⟨more, hmore, rfl⟩⟩

theorem parseText_append_iff_server :
    let first := "port 80; # x".toList
    let second := "server \x7b root \"a;\"; \x7d".toList
    let config : NginxConfig := [.simple ["port".toList, "80".toList]]
    ∀ whole, parseText (first ++ '\n' :: second) = some (.returned true whole) ↔
      ∃ more, parseText second = some (.returned true more) ∧
        whole = config ++ more := by
  intro first second config whole
  have hfirst : parseText (first ++ ['\n']) = some (.returned true config) :=
    rfl
  exact parseText_append_iff hfirst

end Swifties
