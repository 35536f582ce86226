import Swifties.TokenStreams

/-!
# How tokens are spelled

What `ParseToken` consumes for a word is the word.  For a quoted string it is
longer than the token by the backslashes, which are dropped; the two states for
quoted strings are alike but for the quote.
-/

namespace Swifties

/-! ## Quoted strings -/

/-- What stands between the quotes of a string: a character other than the
quote, or any character behind a backslash. -/
inductive Inside (quote : Char) : List Char → Prop
  | nil : Inside quote []
  | plain {c : Char} {rest : List Char} : c ≠ quote → c ≠ '\\' →
      Inside quote rest → Inside quote (c :: rest)
  | escape {c : Char} {rest : List Char} : Inside quote rest →
      Inside quote ('\\' :: c :: rest)

def unescape : List Char → Text
  | '\\' :: c :: rest => c :: unescape rest
  | c :: rest => c :: unescape rest
  | [] => []

inductive Quotes : Char → TokenParserState → Prop
  | single : Quotes '\'' .singleQuote
  | double : Quotes '"' .doubleQuote

variable {quote : Char} {state : TokenParserState}

theorem Quotes.ne_escape (hquotes : Quotes quote state) : quote ≠ '\\' := by
  cases hquotes <;> decide

theorem unescape_plain {c : Char} (hc : c ≠ '\\') (rest : List Char) :
    unescape (c :: rest) = c :: unescape rest := by
  rw [unescape.eq_2]
  intro d more heq _
  exact hc heq

theorem inside_of_not_mem {body : List Char} (hquote : quote ∉ body)
    (hescape : '\\' ∉ body) : Inside quote body ∧ unescape body = body := by
  induction body with
  | nil => exact ⟨.nil, rfl⟩
  | cons c body ih =>
      simp only [List.mem_cons, not_or] at hquote hescape
      obtain ⟨hinside, hsame⟩ := ih hquote.2 hescape.2
      refine ⟨.plain (Ne.symm hquote.1) (Ne.symm hescape.1) hinside, ?_⟩
      rw [unescape_plain (Ne.symm hescape.1), hsame]

theorem parseTokenLoop_quote_cons (hquotes : Quotes quote state)
    (value : Text) (c : Char) (rest : List Char) :
    parseTokenLoop state value (c :: rest) =
      if c = quote then closeQuote (value ++ [c]) rest
      else if c = '\\' then
        match rest with
        | [] => (⟨.eof, value⟩, [])
        | d :: rest => parseTokenLoop state (value ++ [d]) rest
      else parseTokenLoop state (value ++ [c]) rest := by
  cases hquotes with
  | single => cases rest <;> simp [parseTokenLoop]
  | double => cases rest <;> simp [parseTokenLoop]

theorem parseTokenLoop_inside (hquotes : Quotes quote state)
    {inside : List Char} (hinside : Inside quote inside) (value : Text)
    (rest : List Char) :
    parseTokenLoop state value (inside ++ quote :: rest) =
      closeQuote (value ++ unescape inside ++ [quote]) rest := by
  induction hinside generalizing value with
  | nil =>
      rw [List.nil_append, parseTokenLoop_quote_cons hquotes, if_pos rfl]
      simp [unescape]
  | @plain c inside hquote hescape _ ih =>
      rw [List.cons_append, parseTokenLoop_quote_cons hquotes, if_neg hquote,
        if_neg hescape, ih, unescape_plain hescape]
      simp
  | @escape c inside _ ih =>
      rw [List.cons_append, List.cons_append,
        parseTokenLoop_quote_cons hquotes, if_neg hquotes.ne_escape.symm,
        if_pos rfl]
      simp only [ih, unescape]
      simp

theorem parseToken_quoted {quote : Char} (hquote : quote = '"' ∨ quote = '\'')
    {inside : List Char} (hinside : Inside quote inside) (more : List Char) :
    parseToken (quote :: (inside ++ quote :: more)) =
      closeQuote (quote :: (unescape inside ++ [quote])) more := by
  rcases hquote with rfl | rfl
  · exact parseTokenLoop_inside .double hinside ['"'] more
  · exact parseTokenLoop_inside .single hinside ['\''] more

/-- The text with a backslash in front of each quote and each backslash. -/
def escape (quote : Char) : Text → Text
  | [] => []
  | c :: rest =>
      if c = quote ∨ c = '\\' then '\\' :: c :: escape quote rest
      else c :: escape quote rest

theorem inside_escape (quote : Char) (body : Text) :
    Inside quote (escape quote body) := by
  induction body with
  | nil => exact .nil
  | cons c body ih =>
      rw [escape]
      split
      next => exact .escape ih
      next hplain =>
        rw [not_or] at hplain
        exact .plain hplain.1 hplain.2 ih

theorem unescape_escape (quote : Char) (body : Text) :
    unescape (escape quote body) = body := by
  induction body with
  | nil => rfl
  | cons c body ih =>
      rw [escape]
      split
      next => rw [unescape, ih]
      next hplain =>
        rw [not_or] at hplain
        rw [unescape_plain hplain.2, ih]

/-- Every text is the inside of a quoted token, once it is escaped. -/
theorem parseToken_escape {quote : Char} (hquote : quote = '"' ∨ quote = '\'')
    (body : Text) {d : Char} (hd : d ∈ [' ', '\t', '\n', ';', '{', '}'])
    (rest : List Char) :
    parseToken (quote :: (escape quote body ++ quote :: d :: rest)) =
      (⟨.normal, quote :: (body ++ [quote])⟩, d :: rest) := by
  have hends : endsQuoted d = true := by
    simpa [endsQuoted, or_assoc] using hd
  rw [parseToken_quoted hquote (inside_escape quote body),
    unescape_escape, closeQuote, if_pos hends]

theorem parseToken_escape_quotes :
    parseToken ('"' :: (escape '"' "a\"\\".toList ++ '"' :: ';' :: ['#'])) =
      (⟨.normal, '"' :: ("a\"\\".toList ++ ['"'])⟩, ';' :: ['#']) :=
  parseToken_escape (.inl rfl) "a\"\\".toList (by simp) ['#']

theorem closeQuote_normal {value v : Text} {input rest : List Char}
    (hclose : closeQuote value input = (⟨.normal, v⟩, rest)) :
    v = value ∧ rest = input ∧
      ∃ d more, input = d :: more ∧ endsWord d = true := by
  cases input with
  | nil => cases hclose
  | cons c input =>
      rw [closeQuote] at hclose
      split at hclose
      next hends =>
        cases hclose
        exact ⟨rfl, rfl, c, input, rfl, hends⟩
      next => cases hclose

/-- A quoted string that is read to its end. -/
theorem parseTokenLoop_quote_normal (hquotes : Quotes quote state)
    {value v : Text} {input rest : List Char}
    (hloop : parseTokenLoop state value input = (⟨.normal, v⟩, rest)) :
    ∃ inside, Inside quote inside ∧ input = inside ++ quote :: rest ∧
      v = value ++ unescape inside ++ [quote] ∧
      ∃ d more, rest = d :: more ∧ endsWord d = true := by
  induction hlength : input.length using Nat.strong_induction_on
      generalizing value input with
  | _ n ih =>
      cases input with
      | nil => cases hquotes <;> cases hloop
      | cons c input =>
          rw [parseTokenLoop_quote_cons hquotes] at hloop
          rw [List.length_cons] at hlength
          split at hloop
          next hc =>
            obtain ⟨rfl, rfl, hends⟩ := closeQuote_normal hloop
            exact ⟨[], .nil, by simp [hc], by simp [unescape, hc], hends⟩
          next hc =>
            split at hloop
            next hescape =>
              cases input with
              | nil => cases hloop
              | cons d input =>
                  rw [List.length_cons] at hlength
                  obtain ⟨inside, hinside, rfl, rfl, hends⟩ :=
                    ih _ (by omega) hloop rfl
                  refine ⟨c :: d :: inside, ?_, rfl, ?_, hends⟩
                  · rw [hescape]
                    exact .escape hinside
                  · rw [hescape, unescape]
                    simp
            next hescape =>
              obtain ⟨inside, hinside, rfl, rfl, hends⟩ :=
                ih _ (by omega) hloop rfl
              refine ⟨c :: inside, .plain hc hescape hinside, rfl, ?_, hends⟩
              rw [unescape_plain hescape]
              simp

/-! ## Words -/

theorem parseTokenLoop_word {rest : Text}
    (hrest : ∀ c ∈ rest, endsWord c = false) (value : Text) {d : Char}
    (hd : endsWord d = true) (more : List Char) :
    parseTokenLoop .tokenTypeNormal value (rest ++ d :: more) =
      (⟨.normal, value ++ rest⟩, d :: more) := by
  induction rest generalizing value with
  | nil => simp [parseTokenLoop, hd]
  | cons c rest ih =>
      rw [List.forall_mem_cons] at hrest
      rw [List.cons_append, parseTokenLoop, if_neg (by simp [hrest.1]),
        ih hrest.2]
      simp

theorem parseTokenLoop_word_normal {value v : Text} {input rest : List Char}
    (hloop : parseTokenLoop .tokenTypeNormal value input =
      (⟨.normal, v⟩, rest)) :
    ∃ word, (∀ c ∈ word, endsWord c = false) ∧ input = word ++ rest ∧
      v = value ++ word ∧ ∃ d more, rest = d :: more ∧ endsWord d = true := by
  induction input generalizing value with
  | nil => cases hloop
  | cons c input ih =>
      rw [parseTokenLoop] at hloop
      split at hloop
      next hends =>
        cases hloop
        exact ⟨[], by simp, rfl, by simp, c, input, rfl, hends⟩
      next hends =>
        obtain ⟨word, hword, rfl, rfl, hrest⟩ := ih hloop
        refine ⟨c :: word, ?_, rfl, by simp, hrest⟩
        rw [List.forall_mem_cons]
        exact ⟨Bool.eq_false_of_not_eq_true hends, hword⟩

/-! ## Comments -/

theorem parseTokenLoop_comment (value : Text) (input : List Char) :
    (parseTokenLoop .tokenTypeComment value input).1.type ≠ .normal := by
  induction input generalizing value with
  | nil => simp [parseTokenLoop]
  | cons c input ih =>
      rw [parseTokenLoop]
      split
      next => simp
      next => exact ih _

theorem closeQuote_comment (value : Text) (input : List Char) :
    (closeQuote value input).1.type ≠ .comment := by
  cases input with
  | nil => simp [closeQuote]
  | cons c input =>
      rw [closeQuote]
      split <;> simp

theorem state_of_comment {state : TokenParserState} {value : Text}
    {input : List Char}
    (hcomment : (parseTokenLoop state value input).1.type = .comment) :
    state = .initialWhitespace ∨ state = .tokenTypeComment := by
  fun_induction parseTokenLoop state value input with
  | case14 | case17 => exact (closeQuote_comment _ _ hcomment).elim
  | case15 | case16 | case18 | case19 | case23 | case24 | case25 =>
      rename_i ih
      rcases ih hcomment with h | h <;> cases h
  | _ => simp_all

/-- Only `#` begins a comment. -/
theorem comment_of_parseToken {c : Char} (hblank : isBlank c = false)
    {rest : List Char}
    (hcomment : (parseToken (c :: rest)).1.type = .comment) : c = '#' := by
  unfold parseToken parseTokenLoop at hcomment
  split at hcomment
  next => cases hcomment
  next => cases hcomment
  next => rfl
  next => rcases state_of_comment hcomment with h | h <;> cases h
  next => rcases state_of_comment hcomment with h | h <;> cases h
  next => cases hcomment
  next => cases hblank
  next => cases hblank
  next => cases hblank
  next => cases hblank
  next => rcases state_of_comment hcomment with h | h <;> cases h

/-! ## Spellings of a sequence of symbols -/

open BlockGrammar

def mark? : Char → Option (Symbol Text)
  | '{' => some .openBlock
  | '}' => some .closeBlock
  | ';' => some .terminator
  | _ => none

/-- A text that spells the symbols one after the other, with blanks between
them, where every word is followed by a character that ends words. -/
inductive Spells : List Char → List (Symbol Text) → Prop
  | nil : Spells [] []
  | blank {c : Char} {rest : List Char} {w : List (Symbol Text)} :
      isBlank c = true → Spells rest w → Spells (c :: rest) w
  | mark {c : Char} {symbol : Symbol Text} {rest : List Char}
      {w : List (Symbol Text)} : mark? c = some symbol → Spells rest w →
      Spells (c :: rest) (symbol :: w)
  | word {v : Text} {d : Char} {more : List Char} {w : List (Symbol Text)} :
      endsWord d = true → Spells (d :: more) w →
      Spells (v ++ d :: more) (.word v :: w)

theorem Spells.blanks {blank rest : List Char} {w : List (Symbol Text)}
    (hblank : ∀ c ∈ blank, isBlank c = true) (hspells : Spells rest w) :
    Spells (blank ++ rest) w := by
  induction blank with
  | nil => exact hspells
  | cons c blank ih =>
      rw [List.forall_mem_cons] at hblank
      exact .blank hblank.1 (ih hblank.2)

theorem parseToken_mark {c : Char} {symbol : Symbol Text}
    (hmark : mark? c = some symbol) (rest : List Char) :
    ∃ token : Token, parseToken (c :: rest) = (token, rest) ∧
      ¬ token.Final ∧ token.symbol? = some symbol := by
  unfold mark? at hmark
  split at hmark
  all_goals cases hmark
  · exact ⟨⟨.startBlock, ['{']⟩, rfl, by simp [Token.Final], rfl⟩
  · exact ⟨⟨.endBlock, ['}']⟩, rfl, by simp [Token.Final], rfl⟩
  · exact ⟨⟨.statementEnd, [';']⟩, rfl, by simp [Token.Final], rfl⟩

/-- A spelling reads as its symbols if each of its words reads as itself. -/
theorem Spells.readsUpTo {text : List Char} {w : List (Symbol Text)}
    (hspells : Spells text w)
    (hwords : ∀ v : Text, Symbol.word v ∈ w → ∀ d more, endsWord d = true →
      parseToken (v ++ d :: more) = (⟨.normal, v⟩, d :: more)) :
    ∃ tokens, ReadsUpTo text tokens [] ∧ symbols tokens = w := by
  induction hspells with
  | nil => exact ⟨[], .nil [], rfl⟩
  | blank hblank _ ih =>
      obtain ⟨tokens, hreads, hsymbols⟩ := ih hwords
      exact ⟨tokens, hreads.skipOne hblank, hsymbols⟩
  | @mark c symbol rest w hmark _ ih =>
      obtain ⟨tokens, hreads, hsymbols⟩ :=
        ih fun v hv => hwords v (List.mem_cons_of_mem _ hv)
      obtain ⟨token, htoken, hfinal, hsymbol⟩ := parseToken_mark hmark rest
      refine ⟨[token] ++ tokens, (ReadsUpTo.single htoken hfinal).append hreads,
        ?_⟩
      simpa [symbols, hsymbol] using hsymbols
  | @word v d more w hd _ ih =>
      obtain ⟨tokens, hreads, hsymbols⟩ :=
        ih fun v hv => hwords v (List.mem_cons_of_mem _ hv)
      have htoken := hwords v List.mem_cons_self d more hd
      refine ⟨[⟨.normal, v⟩] ++ tokens, (ReadsUpTo.single htoken
        (by simp [Token.Final])).append hreads, ?_⟩
      simpa [symbols, Token.symbol?] using hsymbols

end Swifties
