import Swifties.ConfigGrammar

/-!
# The tokens of a text

`ParseToken` either ends the stream, with `EOF` or `ERROR`, or takes at least
one character off it.  A text is therefore a finite sequence of tokens followed
by an input on which the stream ends, and `Parse` of the text is `Parse` of
this sequence.
-/

namespace Swifties

open BlockGrammar

/-- `EOF` and `ERROR`, after which `Parse` reads no further token. -/
def Token.Final (token : Token) : Prop :=
  token.type = .eof ∨ token.type = .error

/-- The calls of `ParseToken` that lead from a text to the input `rest`. -/
inductive Reads : List Char → List Token → List Char → Prop
  | nil {input : List Char} : Reads input [] input
  | cons {input rest last : List Char} {token : Token} {tokens : List Token} :
      parseToken input = (token, rest) → ¬ token.Final →
      Reads rest tokens last → Reads input (token :: tokens) last

theorem Reads.append {input middle last : List Char}
    {tokens more : List Token} (hreads : Reads input tokens middle)
    (hmore : Reads middle more last) : Reads input (tokens ++ more) last := by
  induction hreads with
  | nil => exact hmore
  | cons htoken hfinal _ ih => exact .cons htoken hfinal (ih hmore)

theorem Reads.single {input rest : List Char} {token : Token}
    (htoken : parseToken input = (token, rest)) (hfinal : ¬ token.Final) :
    Reads input [token] rest :=
  .cons htoken hfinal .nil

/-! ## What one call takes off the input -/

/-- A result of `ParseToken` that ends the stream, or a token that leaves at
most `bound` characters unread. -/
def Takes (result : Token × List Char) (bound : ℕ) : Prop :=
  result.1.Final ∨ result.1.Plain ∧ result.2.length ≤ bound

theorem Takes.mono {result : Token × List Char} {bound bound' : ℕ}
    (htakes : Takes result bound) (hle : bound ≤ bound') :
    Takes result bound' :=
  htakes.imp_right fun h => ⟨h.1, h.2.trans hle⟩

theorem closeQuote_takes (value : Text) (input : List Char) :
    Takes (closeQuote value input) input.length := by
  cases input with
  | nil => exact .inl (.inr rfl)
  | cons c rest =>
      cases hends : endsQuoted c with
      | true =>
          simp only [closeQuote, hends, if_true]
          exact .inr ⟨.inl rfl, le_rfl⟩
      | false =>
          simp only [closeQuote, hends]
          exact .inl (.inr rfl)

/-- What a state leaves unread at most: only the first state needs to take a
character before it can return a token. -/
def leaves : TokenParserState → ℕ → ℕ
  | .initialWhitespace, n => n - 1
  | _, n => n

theorem parseTokenLoop_takes (state : TokenParserState) (value : Text)
    (input : List Char) :
    Takes (parseTokenLoop state value input) (leaves state input.length) := by
  fun_induction parseTokenLoop state value input with
  | case1 => exact .inl (.inr rfl)
  | case2 => exact .inl (.inl rfl)
  | case3 | case4 | case8 =>
      exact .inr ⟨by simp [Token.Plain], by simp [leaves]⟩
  | case14 | case17 =>
      exact (closeQuote_takes _ _).mono (by simp [leaves])
  | case20 | case22 =>
      exact .inr ⟨by simp [Token.Plain], by simp [leaves]⟩
  | _ => rename_i ih; exact ih.mono (by simp [leaves])

/-- `ParseToken` returns a token of the text only if it has taken a character
off it, whatever it put back with `unget`. -/
theorem parseTokenLoop_lt (value : Text) (input : List Char)
    (hfinal : ¬ (parseTokenLoop .initialWhitespace value input).1.Final) :
    (parseTokenLoop .initialWhitespace value input).2.length <
      input.length := by
  have htakes := parseTokenLoop_takes .initialWhitespace value input
  have hle := (htakes.resolve_left hfinal).2
  cases input with
  | nil => exact (hfinal (.inl rfl)).elim
  | cons c rest =>
      simp only [leaves, List.length_cons] at hle ⊢
      omega

theorem parseToken_takes {input rest : List Char} {token : Token}
    (htoken : parseToken input = (token, rest)) (hfinal : ¬ token.Final) :
    token.Plain ∧ rest.length < input.length := by
  have htakes := parseTokenLoop_takes .initialWhitespace [] input
  have hlt := parseTokenLoop_lt [] input
  rw [← parseToken, htoken] at htakes hlt
  exact ⟨(htakes.resolve_left hfinal).1, hlt hfinal⟩

/-! ## Whole texts -/

theorem Reads.plain {input last : List Char} {tokens : List Token}
    (hreads : Reads input tokens last) : ∀ token ∈ tokens, token.Plain := by
  induction hreads with
  | nil => simp
  | cons htoken hfinal _ ih =>
      rw [List.forall_mem_cons]
      exact ⟨(parseToken_takes htoken hfinal).1, ih⟩

theorem Reads.length_le {input last : List Char} {tokens : List Token}
    (hreads : Reads input tokens last) :
    tokens.length + last.length ≤ input.length := by
  induction hreads with
  | nil => simp
  | cons htoken hfinal _ ih =>
      have hlt := (parseToken_takes htoken hfinal).2
      rw [List.length_cons]
      omega

theorem exists_reads (input : List Char) :
    ∃ tokens last, Reads input tokens last ∧ (parseToken last).1.Final := by
  induction hlength : input.length using Nat.strong_induction_on
      generalizing input with
  | _ n ih =>
      by_cases hfinal : (parseToken input).1.Final
      · exact ⟨[], input, .nil, hfinal⟩
      · have hlt := (parseToken_takes rfl hfinal).2
        obtain ⟨tokens, last, hreads, hlast⟩ :=
          ih _ (hlength ▸ hlt) (parseToken input).2 rfl
        exact ⟨_ :: tokens, last, .cons rfl hfinal hreads, hlast⟩

/-- `Parse` sees a text only through its tokens. -/
theorem parseLoop_reads {input last : List Char} {tokens : List Token}
    (hreads : Reads input tokens last) (hlast : (parseToken last).1.Final)
    (fuel : ℕ) (state : ParserState) :
    parseLoop parseToken fuel input state =
      parseLoop nextToken fuel (tokens ++ [(parseToken last).1]) state := by
  induction hreads generalizing fuel state with
  | nil =>
      cases fuel with
      | zero => rfl
      | succ fuel =>
          simp only [parseLoop, List.nil_append, nextToken]
          rcases hlast with htype | htype
          · simp only [ParserState.step, htype]
            split_ifs <;> rfl
          · simp only [ParserState.step, htype]
  | cons htoken hfinal _ ih =>
      cases fuel with
      | zero => rfl
      | succ fuel =>
          simp only [parseLoop, List.cons_append, nextToken, htoken]
          cases state.step _ with
          | next state => exact ih hlast fuel state
          | returned result config => rfl
          | undefined => rfl

theorem Reads.exists_fuel {input last : List Char} {tokens : List Token}
    (hreads : Reads input tokens last) :
    ∃ extra, input.length + 1 = extra + 1 + tokens.length := by
  have hle := hreads.length_le
  exact ⟨input.length - tokens.length, by omega⟩

/-- The whole result for a text that is read to its end. -/
theorem parseText_outcome {text last : List Char} {tokens : List Token}
    (hreads : Reads text tokens last)
    (heof : (parseToken last).1.type = .eof) :
    parseText text = some (outcome .start (symbols tokens)) := by
  obtain ⟨extra, hfuel⟩ := hreads.exists_fuel
  rw [parseText, parse, parseLoop_reads hreads (.inl heof), hfuel]
  have hend : (nextToken [(parseToken last).1]).1.type = .eof := heof
  exact parseLoop_outcome hreads.plain hend ParserState.initial_tracks extra

theorem parseText_error {text last : List Char} {tokens : List Token}
    (hreads : Reads text tokens last)
    (herror : (parseToken last).1.type = .error) :
    ∃ config, parseText text = some (.returned false config) := by
  obtain ⟨extra, hfuel⟩ := hreads.exists_fuel
  rw [parseText, parse, parseLoop_reads hreads (.inr herror), hfuel]
  exact parseLoop_error hreads.plain herror ParserState.initial_tracks

theorem parseText_reads {text last : List Char} {tokens : List Token}
    (hreads : Reads text tokens last) (hlast : (parseToken last).1.Final) :
    (∃ config, (parseToken last).1.type = .eof ∧
        DerivesConfig (symbols tokens) config ∧
        parseText text = some (.returned true config)) ∨
      (∀ config, (parseToken last).1.type = .eof →
        ¬ DerivesConfig (symbols tokens) config) ∧
        ∃ config, parseText text = some (.returned false config) := by
  rcases hlast with heof | herror
  · rw [parseText_outcome hreads heof]
    obtain ⟨result, config, houtcome⟩ := exists_outcome .start (symbols tokens)
    have hderives : ∀ tree, outcome .start (symbols tokens) =
        .returned true tree ↔ DerivesConfig (symbols tokens) tree := by
      intro tree
      rw [outcome_true_iff]
      exact shifts_start_iff_derives
    rw [houtcome] at hderives ⊢
    cases result with
    | true => exact .inl ⟨config, heof, (hderives config).mp rfl, rfl⟩
    | false =>
        right
        refine ⟨fun tree _ htree => ?_, config, rfl⟩
        cases (hderives tree).mpr htree
  · right
    refine ⟨fun config heof => ?_, parseText_error hreads herror⟩
    rw [herror] at heof
    cases heof

theorem parseText_true_iff {text last : List Char} {tokens : List Token}
    (hreads : Reads text tokens last) (hlast : (parseToken last).1.Final)
    {config : NginxConfig} :
    parseText text = some (.returned true config) ↔
      (parseToken last).1.type = .eof ∧
        DerivesConfig (symbols tokens) config := by
  rcases parseText_reads hreads hlast with
    ⟨tree, heof, hderives, htrue⟩ | ⟨hnone, tree, hfalse⟩
  · rw [htrue]
    simp only [Option.some.injEq, ParseResult.returned.injEq, true_and, heof]
    constructor
    · rintro rfl
      exact hderives
    · exact hderives.unique
  · rw [hfalse]
    simp only [Option.some.injEq, ParseResult.returned.injEq,
      Bool.false_eq_true, false_and, false_iff, not_and]
    exact hnone config

/-- `Parse` of a text ends, and follows no dangling pointer. -/
theorem parseText_returned (text : Text) :
    ∃ result config, parseText text = some (.returned result config) := by
  obtain ⟨tokens, last, hreads, hlast⟩ := exists_reads text
  rcases parseText_reads hreads hlast with
    ⟨config, _, _, htrue⟩ | ⟨_, config, hfalse⟩
  · exact ⟨true, config, htrue⟩
  · exact ⟨false, config, hfalse⟩

/-! ## Blanks between tokens -/

def isBlank (c : Char) : Bool := c == ' ' || c == '\t' || c == '\n' || c == '\r'

theorem parseToken_cons_blank {c : Char} (hblank : isBlank c = true)
    (rest : List Char) : parseToken (c :: rest) = parseToken rest := by
  simp only [isBlank, Bool.or_eq_true, beq_iff_eq] at hblank
  rcases hblank with ((rfl | rfl) | rfl) | rfl <;>
    simp [parseToken, parseTokenLoop]

theorem parseToken_append_blank {blank : List Char}
    (hblank : ∀ c ∈ blank, isBlank c = true) (rest : List Char) :
    parseToken (blank ++ rest) = parseToken rest := by
  induction blank with
  | nil => rfl
  | cons c blank ih =>
      rw [List.forall_mem_cons] at hblank
      rw [List.cons_append, parseToken_cons_blank hblank.1, ih hblank.2]

/-- The calls that lead to the input `rest`, up to blanks in front of it. -/
def ReadsUpTo (input : List Char) (tokens : List Token)
    (rest : List Char) : Prop :=
  ∃ blank, (∀ c ∈ blank, isBlank c = true) ∧
    Reads input tokens (blank ++ rest)

theorem ReadsUpTo.nil (input : List Char) : ReadsUpTo input [] input :=
  ⟨[], by simp, .nil⟩

theorem ReadsUpTo.single {input rest : List Char} {token : Token}
    (htoken : parseToken input = (token, rest)) (hfinal : ¬ token.Final) :
    ReadsUpTo input [token] rest :=
  ⟨[], by simp, .single htoken hfinal⟩

theorem ReadsUpTo.skip {input rest blank : List Char} {tokens : List Token}
    (hblank : ∀ c ∈ blank, isBlank c = true)
    (hreads : ReadsUpTo input tokens rest) :
    ReadsUpTo (blank ++ input) tokens rest := by
  obtain ⟨more, hmore, hreads⟩ := hreads
  cases hreads with
  | nil =>
      refine ⟨blank ++ more, List.forall_mem_append.mpr ⟨hblank, hmore⟩, ?_⟩
      rw [List.append_assoc]
      exact .nil
  | cons htoken hfinal htail =>
      refine ⟨more, hmore, .cons ?_ hfinal htail⟩
      rw [parseToken_append_blank hblank, htoken]

theorem ReadsUpTo.skipOne {c : Char} (hblank : isBlank c = true)
    {input rest : List Char} {tokens : List Token}
    (hreads : ReadsUpTo input tokens rest) :
    ReadsUpTo (c :: input) tokens rest :=
  ReadsUpTo.skip (by simpa using hblank : ∀ d ∈ [c], isBlank d = true) hreads

theorem ReadsUpTo.append {input middle rest : List Char}
    {tokens more : List Token} (hreads : ReadsUpTo input tokens middle)
    (hmore : ReadsUpTo middle more rest) :
    ReadsUpTo input (tokens ++ more) rest := by
  obtain ⟨blank, hblank, hreads⟩ := hreads
  obtain ⟨blank', hblank', hmore⟩ := hmore.skip hblank
  exact ⟨blank', hblank', hreads.append hmore⟩

/-- A text whose tokens derive a config, and nothing but blanks after them. -/
theorem parseText_of_readsUpTo {text : List Char} {tokens : List Token}
    {config : NginxConfig} (hreads : ReadsUpTo text tokens [])
    (hderives : DerivesConfig (symbols tokens) config) :
    parseText text = some (.returned true config) := by
  obtain ⟨blank, hblank, hreads⟩ := hreads
  have hend : (parseToken (blank ++ [])).1.type = .eof := by
    rw [parseToken_append_blank hblank]
    rfl
  exact (parseText_true_iff hreads (.inl hend)).mpr ⟨hend, hderives⟩

end Swifties
