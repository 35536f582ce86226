import Swifties.BlockOrders
import Swifties.ConfigReprint

/-!
# Runs of the parser

Every iteration of `Parse` reads a token off the text, and the ones that go on
leave fewer characters, so the loop ends.  In between, the tree, the stack and
the type of the last token fit together: no access to the top of the stack or to
the last statement fails, and no statement is without a token.
-/

namespace Swifties

open BlockGrammar

/-! ## Termination -/

theorem ParserState.not_final_of_step {state next : ParserState} {token : Token}
    (hstep : state.step token = .next next) : ¬ token.Final := by
  rintro (htype | htype)
  · simp only [step, htype] at hstep
    split_ifs at hstep
  · simp only [step, htype] at hstep
    cases hstep

theorem parseLoop_returned {σ : Type} {next : σ → Token × σ} {input : σ}
    {state : ParserState} {result : Bool} {tree : NginxConfig}
    (hstep : state.step (next input).1 = .returned result tree) (fuel : ℕ) :
    parseLoop next fuel input state =
      if 1 ≤ fuel then some (.returned result tree) else none := by
  cases fuel with
  | zero => rfl
  | succ fuel =>
      rw [parseLoop, hstep]
      simp

/-- Where every token but the last lowers a measure of the input, the measure
bounds the number of tokens that the loop reads. -/
theorem parseLoop_terminates {σ : Type} {next : σ → Token × σ} {unread : σ → ℕ}
    (hnext : ∀ input, ¬ (next input).1.Final →
      unread (next input).2 < unread input)
    {input : σ} {state : ParserState} {p : Partial Text}
    (htracks : state.Tracks p) :
    ∃ n ≤ unread input + 1, ∃ result tree, ∀ fuel,
      parseLoop next fuel input state =
        if n ≤ fuel then some (.returned result tree) else none := by
  induction hunread : unread input using Nat.strong_induction_on
      generalizing input state p with
  | _ m ih =>
      rcases htracks.step_cases (next input).1 with
        ⟨state', q, hstep, htracks', _⟩ | ⟨tree, hstep⟩ | ⟨hstep, _, _⟩
      · have hlt := hnext input (ParserState.not_final_of_step hstep)
        obtain ⟨n, hn, result, tree, hloop⟩ :=
          ih _ (hunread ▸ hlt) htracks' rfl
        refine ⟨n + 1, by omega, result, tree, fun fuel => ?_⟩
        cases fuel with
        | zero => rfl
        | succ fuel =>
            rw [parseLoop, hstep]
            simp only [hloop, Nat.add_le_add_iff_right]
      · exact ⟨1, by omega, false, tree, parseLoop_returned hstep⟩
      · exact ⟨1, by omega, true, _, parseLoop_returned hstep⟩

/-- A token is read off the text for good, and so `Parse` of any text reads at
most one token more than it has characters. -/
theorem parse_terminates :
    (∀ (value : Text) (input : List Char),
        ¬ (parseTokenLoop .initialWhitespace value input).1.Final →
        (parseTokenLoop .initialWhitespace value input).2.length <
          input.length) ∧
      ∀ (text : Text) (config : NginxConfig),
        ∃ n ≤ text.length + 1, ∃ result tree, ∀ fuel,
          parse parseToken fuel text config =
            if n ≤ fuel then some (.returned result tree) else none := by
  constructor
  · exact parseTokenLoop_lt
  · intro text config
    exact parseLoop_terminates (parseTokenLoop_lt [])
      (ParserState.tracks_initial config)

/-! ## The states between two tokens -/

/-- The input and the state that a run of `Parse` on the text gets to, in front
of one of its iterations. -/
inductive Reached (text : Text) : List Char → ParserState → Prop
  | start : Reached text text (.initial [])
  | step {input : List Char} {state next : ParserState} :
      Reached text input state →
      state.step (parseToken input).1 = .next next →
      Reached text (parseToken input).2 next

/-- Every statement of the tree has a token, and no token is empty. -/
def HasTokens (config : NginxConfig) : Prop :=
  ∀ statement : NginxConfigStatement, statement ∈ preorder config →
    statement.tokens ≠ [] ∧ ∀ token ∈ statement.tokens, token ≠ []

/-- The last entry of the stack is the whole config, and each other one is the
child block of the last statement of the entry below.  Behind a word the last
statement of the top has no child block. -/
structure ParserState.Sound (state : ParserState) : Prop where
  bottom : state.configStack.getLast? = some []
  chain : state.configStack.IsChain (LastBody state.config)
  last : state.lastTokenType = .normal →
    ∃ (top : Pointer) (block : NginxConfig) (statement : NginxConfigStatement),
      state.configStack.head? = some top ∧
        blockAt top state.config = some block ∧
        block.getLast? = some statement ∧ statement.childBlock = none
  tokens : HasTokens state.config

theorem ParserState.Tracks.sound {state : ParserState} {p : Partial Text}
    (htracks : state.Tracks p) (hall : p.AllWords fun token => token ≠ []) :
    state.Sound := by
  constructor
  · rw [htracks.stack]
    exact getLast?_pointersOf p.frames
  · rw [htracks.stack, htracks.config]
    exact pointersOf_isChain p.frames (innermost p)
  · intro hlast
    rw [htracks.eq_pending (htracks.pending.mp hlast)]
    refine ⟨pointerOf p.frames, p.finished ++ [.simple p.pending],
      .simple p.pending, ?_, ?_, ?_, rfl⟩
    · rw [pointersOf_eq_cons]
      rfl
    · exact blockAt_pointerOf _ _
    · simp
  · have hinner : AllWords (fun token : Text => token ≠ []) (innermost p) := by
      unfold innermost
      split
      next => exact hall.finished
      next token tokens hpending =>
        apply hall.finished.concat _ (allWords_nil _)
        have hwords := hall.pending
        rw [hpending] at hwords
        exact ⟨List.cons_ne_nil token tokens, hwords⟩
    rw [htracks.config]
    exact AllWords.plugFrames hall.frames hinner

theorem parseToken_ne_nil {input : List Char} {value : Text}
    (hsymbol : (parseToken input).1.symbol? = some (.word value)) :
    value ≠ [] := by
  have htoken : parseToken input = (⟨.normal, value⟩, (parseToken input).2) :=
    Prod.ext (symbol?_eq_word hsymbol) rfl
  obtain ⟨_, _, _, _, hlexeme, _⟩ := parseToken_normal htoken
  obtain ⟨c, rest, rfl, _⟩ := hlexeme.starts
  exact List.cons_ne_nil c rest

theorem Reached.tracks {text : Text} {input : List Char} {state : ParserState}
    (hreached : Reached text input state) :
    ∃ p, state.Tracks p ∧ p.AllWords fun token => token ≠ [] := by
  induction hreached with
  | start =>
      refine ⟨.start, ParserState.initial_tracks, ?_, ?_, ?_⟩
      · simp [Partial.start]
      · exact allWords_nil _
      · simp [Partial.start]
  | @step input state next _ hstep ih =>
      obtain ⟨p, htracks, hall⟩ := ih
      rcases htracks.step_cases (parseToken input).1 with
        ⟨next', q, hstep', hnext, hshifts⟩ | ⟨_, hstep'⟩ | ⟨hstep', _, _⟩
      · rw [hstep] at hstep'
        cases hstep'
        refine ⟨q, hnext, ?_⟩
        cases hsymbol : (parseToken input).1.symbol? with
        | none =>
            rw [hsymbol] at hshifts
            cases hshifts
            exact hall
        | some symbol =>
            rw [hsymbol] at hshifts
            have hshift : p.shift symbol = some q := by
              simp only [Option.toList_some, Partial.shifts] at hshifts
              split at hshifts
              next r hr => rwa [← hshifts]
              next => cases hshifts
            apply hall.shift _ hshift
            rintro value rfl
            exact parseToken_ne_nil hsymbol
      · rw [hstep] at hstep'
        cases hstep'
      · rw [hstep] at hstep'
        cases hstep'

theorem ParserState.appendToken_ne_returned (state : ParserState)
    (value : Text) (result : Bool) (config : NginxConfig) :
    state.appendToken value ≠ .returned result config := by
  unfold appendToken
  split
  next => simp
  next => simp only; split <;> simp

theorem ParserState.openChild_ne_returned (state : ParserState)
    (result : Bool) (config : NginxConfig) :
    state.openChild ≠ .returned result config := by
  unfold openChild
  split
  next => simp
  next => split <;> simp

/-- `Parse` leaves the tree as it is when it returns. -/
theorem ParserState.config_of_returned {state : ParserState} {token : Token}
    {result : Bool} {config : NginxConfig}
    (hstep : state.step token = .returned result config) :
    config = state.config := by
  cases htype : token.type with
  | error | start =>
      simp only [step, htype] at hstep
      cases hstep
      rfl
  | comment => simp [step, htype] at hstep
  | normal =>
      have hword := state.appendToken_ne_returned token.value result config
      simp only [step, htype] at hstep
      split at hstep
      case h_6 =>
        cases hstep
        rfl
      all_goals exact (hword hstep).elim
  | statementEnd =>
      simp only [step, htype] at hstep
      split at hstep
      next =>
        cases hstep
        rfl
      next => cases hstep
  | startBlock =>
      have hopen := state.openChild_ne_returned result config
      simp only [step, htype] at hstep
      split at hstep
      next =>
        cases hstep
        rfl
      next => exact (hopen hstep).elim
  | endBlock =>
      simp only [step, htype] at hstep
      split at hstep
      next =>
        cases hstep
        rfl
      next =>
        split at hstep
        next => cases hstep
        next =>
          cases hstep
          rfl
        next => cases hstep
  | eof =>
      simp only [step, htype] at hstep
      split_ifs at hstep
      all_goals
        cases hstep
        rfl

theorem exists_reached {text : Text} {fuel : ℕ} {input : List Char}
    {state : ParserState} {result : Bool} {config : NginxConfig}
    (hreached : Reached text input state)
    (hloop : parseLoop parseToken fuel input state =
      some (.returned result config)) :
    ∃ input' state', Reached text input' state' ∧
      state'.step (parseToken input').1 = .returned result config := by
  induction fuel generalizing input state with
  | zero => cases hloop
  | succ fuel ih =>
      rw [parseLoop] at hloop
      cases hstep : state.step (parseToken input).1 with
      | next next =>
          rw [hstep] at hloop
          exact ih (hreached.step hstep) hloop
      | returned =>
          rw [hstep] at hloop
          cases hloop
          exact ⟨input, state, hreached, hstep⟩
      | undefined =>
          rw [hstep] at hloop
          cases hloop

/-- In front of every token that `Parse` reads its state is sound and the step on
the token is defined; the tree of the result has tokens as well. -/
theorem parse_sound (text : Text) :
    (∀ input state, Reached text input state →
        state.Sound ∧ state.step (parseToken input).1 ≠ .undefined) ∧
      ∃ result config, parseText text = some (.returned result config) ∧
        HasTokens config ∧
        ∃ input state, Reached text input state ∧
          state.step (parseToken input).1 = .returned result config := by
  have hall : ∀ input state, Reached text input state →
      state.Sound ∧ state.step (parseToken input).1 ≠ .undefined := by
    intro input state hreached
    obtain ⟨p, htracks, hwords⟩ := hreached.tracks
    refine ⟨htracks.sound hwords, ?_⟩
    rcases htracks.step_cases (parseToken input).1 with
      ⟨_, _, hstep, _⟩ | ⟨_, hstep⟩ | ⟨hstep, _, _⟩
    · simp [hstep]
    · simp [hstep]
    · simp [hstep]
  obtain ⟨result, config, hparse⟩ := parseText_returned text
  obtain ⟨input, state, hreached, hstep⟩ := exists_reached .start hparse
  refine ⟨hall, result, config, hparse, ?_, input, state, hreached, hstep⟩
  rw [ParserState.config_of_returned hstep]
  exact (hall input state hreached).1.tokens

end Swifties
