import Swifties.BlockPointers

/-!
# Parsed configurations

`NginxConfig` and `NginxConfigStatement` of the config parser.  A statement
whose `child_block_` is null is a `simple` statement of the block grammar, one
whose `child_block_` points to a config is a `block`; a config is its
`statements_` in order.
-/

namespace Swifties

open BlockGrammar

abbrev NginxConfigStatement := Statement Text

abbrev NginxConfig := List NginxConfigStatement

namespace NginxConfigStatement

def tokens (statement : NginxConfigStatement) : List Text := statement.words

def childBlock (statement : NginxConfigStatement) : Option NginxConfig :=
  statement.body?

def empty : NginxConfigStatement := .simple []

def pushToken (token : Text) : NginxConfigStatement → NginxConfigStatement
  | .simple tokens => .simple (tokens ++ [token])
  | .block tokens child => .block (tokens ++ [token]) child

/-- `child_block_.reset(new_config)` for a fresh, empty config. -/
def resetChildBlock : NginxConfigStatement → NginxConfigStatement
  | .simple tokens => .block tokens []
  | .block tokens _ => .block tokens []

@[simp] theorem tokens_simple (tokens : List Text) :
    NginxConfigStatement.tokens (.simple tokens) = tokens := rfl

@[simp] theorem tokens_block (tokens : List Text) (child : NginxConfig) :
    NginxConfigStatement.tokens (.block tokens child) = tokens := rfl

@[simp] theorem childBlock_simple (tokens : List Text) :
    NginxConfigStatement.childBlock (.simple tokens) = none := rfl

@[simp] theorem childBlock_block (tokens : List Text) (child : NginxConfig) :
    NginxConfigStatement.childBlock (.block tokens child) = some child := rfl

theorem tokens_ne_nil {config : NginxConfig}
    {statement : NginxConfigStatement} (hwords : wellWorded config)
    (hmem : statement ∈ config) : statement.tokens ≠ [] := by
  have hstatement := wellWorded_iff.mp hwords statement hmem
  cases statement with
  | simple tokens => exact hstatement
  | block tokens child => exact hstatement.1

theorem wellWorded_childBlock {config child : NginxConfig}
    {statement : NginxConfigStatement} (hwords : wellWorded config)
    (hmem : statement ∈ config) (hchild : statement.childBlock = some child) :
    wellWorded child := by
  have hstatement := wellWorded_iff.mp hwords statement hmem
  cases statement with
  | simple tokens => simp at hchild
  | block tokens body =>
      simp only [childBlock_block, Option.some.injEq] at hchild
      rw [← hchild]
      exact hstatement.2

end NginxConfigStatement

namespace NginxConfig

def emplaceBack (config : NginxConfig) : NginxConfig :=
  config ++ [NginxConfigStatement.empty]

/-- A change of `statements_.back()`; `none` when the vector is empty. -/
def modifyBack? (f : NginxConfigStatement → NginxConfigStatement)
    (config : NginxConfig) : Option NginxConfig :=
  match config.getLast? with
  | some last => some (config.dropLast ++ [f last])
  | none => none

@[simp] theorem modifyBack?_concat
    (f : NginxConfigStatement → NginxConfigStatement) (config : NginxConfig)
    (last : NginxConfigStatement) :
    modifyBack? f (config ++ [last]) = some (config ++ [f last]) := by
  simp [modifyBack?]

end NginxConfig

end Swifties
