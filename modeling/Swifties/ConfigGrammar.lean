import Swifties.ConfigParser

/-!
# The parser recognises the block grammar

Between two tokens the tree, the pointer stack and the last token type of
`Parse` are those of one state of the shift machine: the tree is the innermost
statements plugged into the open frames, and the stack holds the pointers of
these frames.  Each iteration of the loop is one shift, a rejected symbol is a
`false` result, and an accepting `EOF` is the final state of the machine.
-/

namespace Swifties

open BlockGrammar

def Token.symbol? (token : Token) : Option (Symbol Text) :=
  match token.type with
  | .normal => some (.word token.value)
  | .statementEnd => some .terminator
  | .startBlock => some .openBlock
  | .endBlock => some .closeBlock
  | _ => none

/-- The token types that `ParseToken` returns before `EOF` or `ERROR`. -/
def Token.Plain (token : Token) : Prop :=
  token.type = .normal ∨ token.type = .startBlock ∨ token.type = .endBlock ∨
    token.type = .statementEnd ∨ token.type = .comment

/-- A token sequence as a word of the grammar, with its comments removed. -/
def symbols (tokens : List Token) : List (Symbol Text) :=
  tokens.filterMap Token.symbol?

def innermost (p : Partial Text) : NginxConfig :=
  match p.pending with
  | [] => p.finished
  | token :: tokens => p.finished ++ [.simple (token :: tokens)]

structure ParserState.Tracks (state : ParserState) (p : Partial Text) :
    Prop where
  config : state.config = plugFrames p.frames (innermost p)
  stack : state.configStack = pointersOf p.frames
  pending : state.lastTokenType = .normal ↔ p.pending ≠ []
  boundary : p.pending = [] →
    (state.lastTokenType = .start ∧ p.frames = []) ∨
      state.lastTokenType = .statementEnd ∨ state.lastTokenType = .endBlock ∨
      (state.lastTokenType = .startBlock ∧ p.frames ≠ [])

namespace ParserState

theorem tracks_initial (config : NginxConfig) :
    (initial config).Tracks ⟨[], config, []⟩ where
  config := rfl
  stack := rfl
  pending := by simp [initial]
  boundary := fun _ => .inl ⟨rfl, rfl⟩

theorem initial_tracks : (initial []).Tracks Partial.start := tracks_initial []

/-! ## Changes through the top pointer -/

theorem modifyTopBack?_pointersOf (frames : List (Frame Text))
    (finished : NginxConfig) (back : NginxConfigStatement) (last : TokenType)
    (f : NginxConfigStatement → NginxConfigStatement) :
    modifyTopBack? ⟨plugFrames frames (finished ++ [back]),
        pointersOf frames, last⟩ f =
      some (plugFrames frames (finished ++ [f back])) := by
  rw [pointersOf_eq_cons]
  simp [modifyTopBack?]

theorem appendToken_first (frames : List (Frame Text))
    (finished : NginxConfig) {last : TokenType} (hlast : last ≠ .normal)
    (value : Text) :
    appendToken ⟨plugFrames frames finished, pointersOf frames, last⟩ value =
      .next ⟨plugFrames frames (finished ++ [.simple [value]]),
        pointersOf frames, .normal⟩ := by
  have hchanged := modifyTopBack?_pointersOf frames finished
    NginxConfigStatement.empty last (NginxConfigStatement.pushToken value)
  rw [pointersOf_eq_cons] at hchanged ⊢
  simp only [appendToken, if_pos hlast, modifyAt_pointerOf,
    NginxConfig.emplaceBack]
  rw [hchanged]
  rfl

theorem appendToken_more (frames : List (Frame Text))
    (finished : NginxConfig) (tokens : List Text) (value : Text) :
    appendToken ⟨plugFrames frames (finished ++ [.simple tokens]),
        pointersOf frames, .normal⟩ value =
      .next ⟨plugFrames frames (finished ++ [.simple (tokens ++ [value])]),
        pointersOf frames, .normal⟩ := by
  have hchanged := modifyTopBack?_pointersOf frames finished
    (.simple tokens) .normal (NginxConfigStatement.pushToken value)
  rw [pointersOf_eq_cons] at hchanged ⊢
  simp only [appendToken, ne_eq, not_true_eq_false, if_false]
  rw [hchanged]
  rfl

theorem openChild_pointersOf (frames : List (Frame Text))
    (finished : NginxConfig) (tokens : List Text) (last : TokenType) :
    openChild ⟨plugFrames frames (finished ++ [.simple tokens]),
        pointersOf frames, last⟩ =
      .next ⟨plugFrames (⟨finished, tokens⟩ :: frames) [],
        pointersOf (⟨finished, tokens⟩ :: frames), .startBlock⟩ := by
  have hchanged := modifyTopBack?_pointersOf frames finished
    (.simple tokens) last NginxConfigStatement.resetChildBlock
  rw [pointersOf_eq_cons] at hchanged
  simp only [openChild, pointersOf, pointerOf]
  rw [pointersOf_eq_cons frames]
  simp only [hchanged, blockAt_pointerOf]
  simp [plugFrames, Frame.plug, NginxConfigStatement.resetChildBlock]

/-! ## One iteration is one shift -/

theorem Tracks.eq_pending {state : ParserState} {p : Partial Text}
    (htracks : state.Tracks p) (hpending : p.pending ≠ []) :
    state = ⟨plugFrames p.frames (p.finished ++ [.simple p.pending]),
      pointersOf p.frames, .normal⟩ := by
  obtain ⟨token, tokens, heq⟩ := List.exists_cons_of_ne_nil hpending
  obtain ⟨config, stack, last⟩ := state
  obtain ⟨rfl, rfl, hlast, _⟩ := htracks
  obtain rfl : last = .normal := hlast.mpr hpending
  simp [innermost, heq]

theorem Tracks.eq_boundary {state : ParserState} {p : Partial Text}
    (htracks : state.Tracks p) (hpending : p.pending = []) :
    state = ⟨plugFrames p.frames p.finished, pointersOf p.frames,
      state.lastTokenType⟩ := by
  obtain ⟨config, stack, last⟩ := state
  obtain ⟨rfl, rfl, _, _⟩ := htracks
  simp [innermost, hpending]

theorem tracks_pending (frames : List (Frame Text)) (finished : NginxConfig)
    {tokens : List Text} (htokens : tokens ≠ []) :
    Tracks ⟨plugFrames frames (finished ++ [.simple tokens]),
      pointersOf frames, .normal⟩ ⟨frames, finished, tokens⟩ := by
  obtain ⟨token, rest, rfl⟩ := List.exists_cons_of_ne_nil htokens
  exact ⟨rfl, rfl, by simp, by simp⟩

theorem step_comment (state : ParserState) {token : Token}
    (htype : token.type = .comment) : state.step token = .next state := by
  simp [step, htype]

theorem Tracks.step_word {state : ParserState} {p : Partial Text}
    {token : Token} (htracks : state.Tracks p) (htype : token.type = .normal) :
    ∃ next, state.step token = .next next ∧
      next.Tracks { p with pending := p.pending ++ [token.value] } := by
  refine ⟨_, ?_, tracks_pending p.frames p.finished (by simp)⟩
  by_cases hpending : p.pending = []
  · have hstep : state.step token = state.appendToken token.value := by
      rcases htracks.boundary hpending with ⟨h, _⟩ | h | h | ⟨h, _⟩ <;>
        simp [step, htype, h]
    have hlast : state.lastTokenType ≠ .normal := fun h =>
      htracks.pending.mp h hpending
    rw [hstep, htracks.eq_boundary hpending, appendToken_first _ _ hlast,
      hpending, List.nil_append]
  · rw [htracks.eq_pending hpending]
    simp only [step, htype]
    exact appendToken_more p.frames p.finished p.pending token.value

theorem Tracks.step_terminator {state : ParserState} {p : Partial Text}
    {token : Token} (htracks : state.Tracks p)
    (htype : token.type = .statementEnd) (hpending : p.pending ≠ []) :
    ∃ next, state.step token = .next next ∧
      next.Tracks ⟨p.frames, p.finished ++ [.simple p.pending], []⟩ := by
  rw [htracks.eq_pending hpending]
  exact ⟨_, by simp [step, htype]; rfl, ⟨rfl, rfl, by simp, by simp⟩⟩

theorem Tracks.step_openBlock {state : ParserState} {p : Partial Text}
    {token : Token} (htracks : state.Tracks p)
    (htype : token.type = .startBlock) (hpending : p.pending ≠ []) :
    ∃ next, state.step token = .next next ∧
      next.Tracks ⟨⟨p.finished, p.pending⟩ :: p.frames, [], []⟩ := by
  rw [htracks.eq_pending hpending]
  have hopen := openChild_pointersOf p.frames p.finished p.pending .normal
  exact ⟨_, by simpa [step, htype] using hopen,
    ⟨rfl, rfl, by simp, by simp⟩⟩

theorem Tracks.step_closeBlock {state : ParserState} {p : Partial Text}
    {token : Token} {frame : Frame Text} {frames : List (Frame Text)}
    (htracks : state.Tracks p) (htype : token.type = .endBlock)
    (hpending : p.pending = []) (hframes : p.frames = frame :: frames) :
    ∃ next, state.step token = .next next ∧
      next.Tracks
        ⟨frames, frame.before ++ [.block frame.words p.finished], []⟩ := by
  have hlast : state.lastTokenType = .statementEnd ∨
      state.lastTokenType = .endBlock ∨ state.lastTokenType = .startBlock := by
    rcases htracks.boundary hpending with ⟨_, h⟩ | h | h | ⟨h, _⟩
    · simp [hframes] at h
    · exact .inl h
    · exact .inr (.inl h)
    · exact .inr (.inr h)
  have hstack : state.configStack =
      pointerOf (frame :: frames) ::
        pointerOf frames :: (pointersOf frames).tail := by
    rw [htracks.stack, hframes, pointersOf, ← pointersOf_eq_cons]
  refine ⟨{ state with
      configStack := pointersOf frames, lastTokenType := .endBlock }, ?_, ?_⟩
  · rw [pointersOf_eq_cons frames]
    rcases hlast with h | h | h <;> simp [step, htype, h, hstack]
  · have hconfig := htracks.config
    rw [innermost, hpending, hframes] at hconfig
    exact ⟨hconfig, rfl, by simp, by simp⟩

theorem Tracks.step_shift {state : ParserState} {p q : Partial Text}
    {token : Token} {symbol : Symbol Text} (htracks : state.Tracks p)
    (hsymbol : token.symbol? = some symbol) (hshift : p.shift symbol = some q) :
    ∃ next, state.step token = .next next ∧ next.Tracks q := by
  unfold Token.symbol? at hsymbol
  split at hsymbol
  next htype =>
    cases hsymbol
    cases hshift
    exact htracks.step_word htype
  next htype =>
    cases hsymbol
    cases hpending : p.pending with
    | nil => simp [Partial.shift, hpending] at hshift
    | cons token tokens =>
        simp only [Partial.shift, hpending, Option.some.injEq] at hshift
        subst q
        rw [← hpending]
        exact htracks.step_terminator htype (by simp [hpending])
  next htype =>
    cases hsymbol
    cases hpending : p.pending with
    | nil => simp [Partial.shift, hpending] at hshift
    | cons token tokens =>
        simp only [Partial.shift, hpending, Option.some.injEq] at hshift
        subst q
        rw [← hpending]
        exact htracks.step_openBlock htype (by simp [hpending])
  next htype =>
    cases hsymbol
    cases hpending : p.pending with
    | cons token tokens => simp [Partial.shift, hpending] at hshift
    | nil =>
        cases hframes : p.frames with
        | nil => simp [Partial.shift, hpending, hframes] at hshift
        | cons frame frames =>
            simp only [Partial.shift, hpending, hframes,
              Option.some.injEq] at hshift
            subst q
            exact htracks.step_closeBlock htype hpending hframes
  next => simp at hsymbol

theorem Tracks.step_reject {state : ParserState} {p : Partial Text}
    {token : Token} {symbol : Symbol Text} (htracks : state.Tracks p)
    (hsymbol : token.symbol? = some symbol) (hshift : p.shift symbol = none) :
    state.step token = .returned false state.config := by
  unfold Token.symbol? at hsymbol
  split at hsymbol
  next =>
    cases hsymbol
    simp [Partial.shift] at hshift
  next htype =>
    cases hsymbol
    cases hpending : p.pending with
    | cons token tokens => simp [Partial.shift, hpending] at hshift
    | nil =>
        have hlast : state.lastTokenType ≠ .normal := fun h =>
          htracks.pending.mp h hpending
        simp [step, htype, hlast]
  next htype =>
    cases hsymbol
    cases hpending : p.pending with
    | cons token tokens => simp [Partial.shift, hpending] at hshift
    | nil =>
        have hlast : state.lastTokenType ≠ .normal := fun h =>
          htracks.pending.mp h hpending
        simp [step, htype, hlast]
  next htype =>
    cases hsymbol
    cases hpending : p.pending with
    | cons token tokens =>
        have hlast : state.lastTokenType = .normal :=
          htracks.pending.mpr (by simp [hpending])
        simp [step, htype, hlast]
    | nil =>
        cases hframes : p.frames with
        | cons frame frames => simp [Partial.shift, hpending, hframes] at hshift
        | nil =>
            have hstack := htracks.stack
            rw [hframes] at hstack
            rcases htracks.boundary hpending with ⟨h, _⟩ | h | h | ⟨_, h⟩
            · simp [step, htype, h]
            · simp [step, htype, h, hstack, pointersOf]
            · simp [step, htype, h, hstack, pointersOf]
            · exact (h hframes).elim
  next => simp at hsymbol

theorem Tracks.step_eof_accept {state : ParserState} {config : NginxConfig}
    {token : Token} (htracks : state.Tracks ⟨[], config, []⟩)
    (htype : token.type = .eof) :
    state.step token = .returned true config := by
  have hconfig : state.config = config := htracks.config
  have hstack : state.configStack = [[]] := htracks.stack
  rcases htracks.boundary rfl with ⟨h, _⟩ | h | h | ⟨_, h⟩
  · simp [step, htype, h, hstack, hconfig]
  · simp [step, htype, h, hstack, hconfig]
  · simp [step, htype, h, hstack, hconfig]
  · exact (h rfl).elim

theorem Tracks.step_eof_reject {state : ParserState} {p : Partial Text}
    {token : Token} (htracks : state.Tracks p) (htype : token.type = .eof)
    (hopen : p.pending ≠ [] ∨ p.frames ≠ []) :
    state.step token = .returned false state.config := by
  rcases hopen with hpending | hframes
  · have hlast : state.lastTokenType = .normal := htracks.pending.mpr hpending
    simp [step, htype, hlast]
  · have hlength : 1 < state.configStack.length := by
      rw [htracks.stack, length_pointersOf]
      have := List.length_pos_of_ne_nil hframes
      omega
    simp [step, htype, hlength]

end ParserState

/-! ## Whole runs -/

theorem Token.Plain.comment_or_symbol {token : Token} (hplain : token.Plain) :
    token.type = .comment ∧ token.symbol? = none ∨
      ∃ symbol, token.symbol? = some symbol := by
  rcases hplain with h | h | h | h | h <;> simp [Token.symbol?, h]

/-- The loop reads a run of plain tokens as the shift machine does, whatever
follows them, and stops at the first symbol that is not shifted. -/
theorem parseLoop_prefix {tokens : List Token} {state : ParserState}
    {p : Partial Text} (hplain : ∀ token ∈ tokens, token.Plain)
    (htracks : state.Tracks p) :
    (∃ q next, p.shifts (symbols tokens) = some q ∧ next.Tracks q ∧
        ∀ fuel rest,
          parseLoop nextToken (fuel + tokens.length) (tokens ++ rest) state =
            parseLoop nextToken fuel rest next) ∨
      ∃ front symbol back q, ∃ next : ParserState,
        symbols tokens = front ++ symbol :: back ∧
        p.shifts front = some q ∧ q.shift symbol = none ∧ next.Tracks q ∧
        ∀ fuel rest,
          parseLoop nextToken (fuel + tokens.length) (tokens ++ rest) state =
            some (.returned false next.config) := by
  induction tokens generalizing state p with
  | nil => exact .inl ⟨p, state, rfl, htracks, by simp⟩
  | cons token tokens ih =>
      simp only [List.mem_cons, forall_eq_or_imp] at hplain
      rcases hplain.1.comment_or_symbol with ⟨htype, hnone⟩ | ⟨symbol, hsome⟩
      · have hstep := ParserState.step_comment state htype
        have hrest := ih hplain.2 htracks
        simpa [← Nat.add_assoc, parseLoop, nextToken, hstep, symbols, hnone]
          using hrest
      · have hsymbols : symbols (token :: tokens) =
            symbol :: symbols tokens := by simp [symbols, hsome]
        rw [hsymbols, Partial.shifts]
        cases hshift : p.shift symbol with
        | none =>
            have hstep := htracks.step_reject hsome hshift
            exact .inr ⟨[], symbol, symbols tokens, p, state, rfl, rfl, hshift,
              htracks, by simp [← Nat.add_assoc, parseLoop, nextToken, hstep]⟩
        | some q =>
            obtain ⟨next, hstep, hnext⟩ := htracks.step_shift hsome hshift
            have hloop : ∀ fuel rest,
                parseLoop nextToken (fuel + (token :: tokens).length)
                    (token :: tokens ++ rest) state =
                  parseLoop nextToken (fuel + tokens.length) (tokens ++ rest)
                    next := by
              simp [← Nat.add_assoc, parseLoop, nextToken, hstep]
            simp only [hloop]
            rcases ih hplain.2 hnext with hread |
              ⟨front, other, back, r, last, heq, hfront, hother, hlast, hstop⟩
            · exact .inl hread
            · refine .inr ⟨symbol :: front, other, back, r, last, by simp [heq],
                ?_, hother, hlast, hstop⟩
              rw [Partial.shifts, hshift]
              exact hfront

/-- The tree in progress. -/
def treeOf (p : Partial Text) : NginxConfig := plugFrames p.frames (innermost p)

/-- The result of `Parse` on symbols that `EOF` follows, from the state that it
has reached. -/
def outcome (p : Partial Text) : List (Symbol Text) → ParseResult
  | [] =>
      if p.pending = [] ∧ p.frames = [] then .returned true p.finished
      else .returned false (treeOf p)
  | s :: w =>
      match p.shift s with
      | none => .returned false (treeOf p)
      | some q => outcome q w

theorem outcome_append {p q : Partial Text} {front : List (Symbol Text)}
    (hfront : p.shifts front = some q) (w : List (Symbol Text)) :
    outcome p (front ++ w) = outcome q w := by
  induction front generalizing p with
  | nil =>
      cases hfront
      rfl
  | cons s front ih =>
      rw [Partial.shifts] at hfront
      rw [List.cons_append, outcome]
      cases hshift : p.shift s with
      | none => simp [hshift] at hfront
      | some next =>
          rw [hshift] at hfront
          exact ih hfront

theorem outcome_true_iff {p : Partial Text} {w : List (Symbol Text)}
    {config : NginxConfig} :
    outcome p w = .returned true config ↔
      p.shifts w = some ⟨[], config, []⟩ := by
  induction w generalizing p with
  | nil =>
      obtain ⟨frames, finished, pending⟩ := p
      rw [outcome, Partial.shifts]
      split
      next hclosed =>
        obtain ⟨rfl, rfl⟩ := hclosed
        simp
      next hopen =>
        simp only [ParseResult.returned.injEq, Bool.false_eq_true, false_and,
          Option.some.injEq, Partial.mk.injEq, false_iff]
        rintro ⟨rfl, _, rfl⟩
        exact hopen ⟨rfl, rfl⟩
  | cons s w ih =>
      rw [outcome, Partial.shifts]
      cases p.shift s with
      | none => simp
      | some q => exact ih

theorem exists_outcome (p : Partial Text) (w : List (Symbol Text)) :
    ∃ result config, outcome p w = .returned result config := by
  fun_induction outcome p w with
  | case1 p _ => exact ⟨true, p.finished, rfl⟩
  | case2 p _ => exact ⟨false, treeOf p, rfl⟩
  | case3 p _ _ _ => exact ⟨false, treeOf p, rfl⟩
  | case4 _ _ _ _ _ ih => exact ih

theorem ParserState.Tracks.step_eof {state : ParserState} {p : Partial Text}
    {eof : Token} (htracks : state.Tracks p) (heof : eof.type = .eof) :
    ∃ result config, outcome p [] = .returned result config ∧
      state.step eof = .returned result config := by
  by_cases hopen : p.pending ≠ [] ∨ p.frames ≠ []
  · have hnot : ¬ (p.pending = [] ∧ p.frames = []) := by tauto
    refine ⟨false, treeOf p, if_neg hnot, ?_⟩
    rw [htracks.step_eof_reject heof hopen, treeOf, htracks.config]
  · obtain ⟨frames, finished, pending⟩ := p
    simp only [ne_eq, not_or, not_not] at hopen
    obtain ⟨rfl, rfl⟩ := hopen
    exact ⟨true, finished, if_pos ⟨rfl, rfl⟩, htracks.step_eof_accept heof⟩

/-- The loop ends with the outcome of the symbols that it has read. -/
theorem parseLoop_outcome {tokens rest : List Token} {state : ParserState}
    {p : Partial Text} (hplain : ∀ token ∈ tokens, token.Plain)
    (heof : (nextToken rest).1.type = .eof) (htracks : state.Tracks p)
    (fuel : ℕ) :
    parseLoop nextToken (fuel + 1 + tokens.length) (tokens ++ rest) state =
      some (outcome p (symbols tokens)) := by
  rcases parseLoop_prefix hplain htracks with
    ⟨q, next, hshifts, hnext, hloop⟩ |
    ⟨front, symbol, back, q, next, hsymbols, hfront, hreject, hnext, hloop⟩
  · have hend := outcome_append hshifts []
    rw [List.append_nil] at hend
    obtain ⟨result, config, houtcome, hstep⟩ := hnext.step_eof heof
    rw [hloop (fuel + 1) rest, hend, houtcome, parseLoop, hstep]
  · rw [hloop (fuel + 1) rest, hsymbols, outcome_append hfront, outcome,
      hreject, treeOf, hnext.config]

theorem parseLoop_error {fuel : ℕ} {tokens rest : List Token} {error : Token}
    {state : ParserState} {p : Partial Text}
    (hplain : ∀ token ∈ tokens, token.Plain) (herror : error.type = .error)
    (htracks : state.Tracks p) :
    ∃ config, parseLoop nextToken (fuel + 1 + tokens.length)
      (tokens ++ error :: rest) state = some (.returned false config) := by
  rcases parseLoop_prefix hplain htracks with
    ⟨q, next, _, _, hloop⟩ | ⟨_, _, _, _, next, _, _, _, _, hloop⟩
  · refine ⟨next.config, ?_⟩
    rw [hloop (fuel + 1) (error :: rest)]
    simp [parseLoop, nextToken, ParserState.step, herror]
  · exact ⟨next.config, hloop (fuel + 1) (error :: rest)⟩

/-- `Parse` accepts exactly the token sequences of the grammar, leaves their
derivation tree in the config, and rejects every sequence with an error. -/
theorem parse_iff_derives (fuel : ℕ) (tokens : List Token)
    (hplain : ∀ token ∈ tokens, token.Plain) (hfuel : tokens.length < fuel) :
    (∃ result config,
        parse nextToken fuel tokens [] = some (.returned result config)) ∧
      (∀ config,
        parse nextToken fuel tokens [] = some (.returned true config) ↔
          DerivesConfig (symbols tokens) config) ∧
      ∀ error rest, error.type = TokenType.error →
        ∃ config, parse nextToken fuel (tokens ++ error :: rest) [] =
          some (.returned false config) := by
  obtain ⟨extra, rfl⟩ : ∃ extra, fuel = extra + 1 + tokens.length :=
    ⟨fuel - tokens.length - 1, by omega⟩
  have hend : (nextToken []).1.type = .eof := rfl
  have hloop := parseLoop_outcome hplain hend ParserState.initial_tracks extra
  rw [List.append_nil] at hloop
  refine ⟨?_, ?_, ?_⟩
  · obtain ⟨result, config, houtcome⟩ := exists_outcome .start (symbols tokens)
    exact ⟨result, config, hloop.trans (congrArg some houtcome)⟩
  · intro config
    rw [parse, hloop, Option.some_inj, outcome_true_iff]
    exact shifts_start_iff_derives
  · intro error rest herror
    exact parseLoop_error hplain herror ParserState.initial_tracks

theorem parse_iff_derives_server :
    DerivesConfig
      [.word "server".toList, .openBlock, .word "port".toList,
        .word "80".toList, .terminator, .closeBlock]
      [.block ["server".toList] [.simple ["port".toList, "80".toList]]] :=
  ((parse_iff_derives 8
      [⟨.normal, "server".toList⟩, ⟨.startBlock, ['{']⟩,
        ⟨.comment, "# port".toList⟩, ⟨.normal, "port".toList⟩,
        ⟨.normal, "80".toList⟩, ⟨.statementEnd, [';']⟩, ⟨.endBlock, ['}']⟩]
      (by simp [Token.Plain]) (by decide)).2.1 _).mp rfl

/-! ## Any token source -/

theorem ParserState.Tracks.step_cases {state : ParserState} {p : Partial Text}
    (htracks : state.Tracks p) (token : Token) :
    (∃ next q, state.step token = .next next ∧ next.Tracks q ∧
        p.shifts token.symbol?.toList = some q) ∨
      (∃ config, state.step token = .returned false config) ∨
      (state.step token = .returned true p.finished ∧
        p.frames = [] ∧ p.pending = []) := by
  cases hsymbol : token.symbol? with
  | some symbol =>
      cases hshift : p.shift symbol with
      | none => exact .inr (.inl ⟨_, htracks.step_reject hsymbol hshift⟩)
      | some q =>
          obtain ⟨next, hstep, hnext⟩ := htracks.step_shift hsymbol hshift
          exact .inl ⟨next, q, hstep, hnext, by
            simp [Partial.shifts, hshift]⟩
  | none =>
      cases htype : token.type with
      | normal => simp [Token.symbol?, htype] at hsymbol
      | startBlock => simp [Token.symbol?, htype] at hsymbol
      | endBlock => simp [Token.symbol?, htype] at hsymbol
      | statementEnd => simp [Token.symbol?, htype] at hsymbol
      | comment =>
          exact .inl ⟨state, p, step_comment state htype, htracks, rfl⟩
      | start => exact .inr (.inl ⟨state.config, by simp [step, htype]⟩)
      | error => exact .inr (.inl ⟨state.config, by simp [step, htype]⟩)
      | eof =>
          by_cases hopen : p.pending ≠ [] ∨ p.frames ≠ []
          · exact .inr (.inl ⟨_, htracks.step_eof_reject htype hopen⟩)
          · obtain ⟨frames, finished, pending⟩ := p
            simp only [ne_eq, not_or, not_not] at hopen
            obtain ⟨rfl, rfl⟩ := hopen
            exact .inr (.inr ⟨htracks.step_eof_accept htype, rfl, rfl⟩)

theorem parseLoop_true_shifts {σ : Type} {next : σ → Token × σ} {fuel : ℕ}
    {input : σ} {state : ParserState} {p : Partial Text} {config : NginxConfig}
    (htracks : state.Tracks p)
    (hloop : parseLoop next fuel input state = some (.returned true config)) :
    ∃ w, p.shifts w = some ⟨[], config, []⟩ := by
  induction fuel generalizing input state p with
  | zero => simp [parseLoop] at hloop
  | succ fuel ih =>
      rcases htracks.step_cases (next input).1 with
        ⟨state', q, hstep, hnext, hshifts⟩ | ⟨_, hstep⟩ |
          ⟨hstep, hframes, hpending⟩
      · simp only [parseLoop, hstep] at hloop
        obtain ⟨v, hv⟩ := ih hnext hloop
        exact ⟨_, (p.shifts_append _ v).trans (by rw [hshifts]; exact hv)⟩
      · simp [parseLoop, hstep] at hloop
      · simp only [parseLoop, hstep, Option.some.injEq, ParseResult.returned.injEq,
          true_and] at hloop
        obtain ⟨frames, finished, pending⟩ := p
        subst hframes hpending hloop
        exact ⟨[], rfl⟩

theorem parse_true_derives {σ : Type} {next : σ → Token × σ} {fuel : ℕ}
    {input : σ} {config : NginxConfig}
    (hparse : parse next fuel input [] = some (.returned true config)) :
    ∃ w, DerivesConfig w config := by
  obtain ⟨w, hshifts⟩ :=
    parseLoop_true_shifts ParserState.initial_tracks hparse
  exact ⟨w, shifts_start_iff_derives.mp hshifts⟩

end Swifties
