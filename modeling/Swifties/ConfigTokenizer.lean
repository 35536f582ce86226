import Swifties.ConfigTree

/-!
# The config tokenizer

`NginxConfigParser::ParseToken` reads one token from the stream.  The stream is
the list of characters not yet read: `get` takes the head, `unget` puts the
character back in front, and `good()` fails once `get` has been called on the
empty list.  The recursion follows the characters, so the function is total.
-/

namespace Swifties

inductive TokenType where
  | start
  | normal
  | startBlock
  | endBlock
  | comment
  | statementEnd
  | eof
  | error
deriving DecidableEq, Repr

inductive TokenParserState where
  | initialWhitespace
  | singleQuote
  | doubleQuote
  | tokenTypeComment
  | tokenTypeNormal
  | escapeWithinSingleQuote
  | escapeWithinDoubleQuote
deriving DecidableEq, Repr

structure Token where
  type : TokenType
  value : Text
deriving DecidableEq, Repr

def endsQuoted (c : Char) : Bool :=
  c == ' ' || c == '\t' || c == '\n' || c == ';' || c == '{' || c == '}'

def endsWord (c : Char) : Bool :=
  c == ' ' || c == '\t' || c == '\n' || c == ';' || c == '{' || c == '}'

/-- The lookahead after a closing quote: `get`, then `unget` or an error. -/
def closeQuote (value : Text) : List Char → Token × List Char
  | [] => (⟨.error, value⟩, [])
  | c :: rest =>
      if endsQuoted c then (⟨.normal, value⟩, c :: rest)
      else (⟨.error, value⟩, rest)

/-- The loop of `ParseToken`, from the state and value reached so far. -/
def parseTokenLoop :
    TokenParserState → Text → List Char → Token × List Char
  | state, value, [] =>
      if state = .singleQuote ∨ state = .doubleQuote then
        (⟨.error, value⟩, [])
      else (⟨.eof, value⟩, [])
  | .initialWhitespace, value, c :: rest =>
      match c with
      | '{' => (⟨.startBlock, [c]⟩, rest)
      | '}' => (⟨.endBlock, [c]⟩, rest)
      | '#' => parseTokenLoop .tokenTypeComment [c] rest
      | '"' => parseTokenLoop .doubleQuote [c] rest
      | '\'' => parseTokenLoop .singleQuote [c] rest
      | ';' => (⟨.statementEnd, [c]⟩, rest)
      | ' ' | '\t' | '\n' | '\r' =>
          parseTokenLoop .initialWhitespace value rest
      | _ => parseTokenLoop .tokenTypeNormal (value ++ [c]) rest
  | .singleQuote, value, c :: rest =>
      if c = '\'' then closeQuote (value ++ [c]) rest
      else if c = '\\' then
        parseTokenLoop .escapeWithinSingleQuote value rest
      else parseTokenLoop .singleQuote (value ++ [c]) rest
  | .doubleQuote, value, c :: rest =>
      if c = '"' then closeQuote (value ++ [c]) rest
      else if c = '\\' then
        parseTokenLoop .escapeWithinDoubleQuote value rest
      else parseTokenLoop .doubleQuote (value ++ [c]) rest
  | .tokenTypeComment, value, c :: rest =>
      if c = '\n' ∨ c = '\r' then (⟨.comment, value⟩, rest)
      else parseTokenLoop .tokenTypeComment (value ++ [c]) rest
  | .tokenTypeNormal, value, c :: rest =>
      if endsWord c then (⟨.normal, value⟩, c :: rest)
      else parseTokenLoop .tokenTypeNormal (value ++ [c]) rest
  | .escapeWithinSingleQuote, value, c :: rest =>
      parseTokenLoop .singleQuote (value ++ [c]) rest
  | .escapeWithinDoubleQuote, value, c :: rest =>
      parseTokenLoop .doubleQuote (value ++ [c]) rest

def parseToken (input : List Char) : Token × List Char :=
  parseTokenLoop .initialWhitespace [] input

end Swifties
