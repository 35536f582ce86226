import Swifties.ConfigTree

/-!
# Queries on a configuration

`get_config_port` and `get_auth_time` are one search with different keywords:
first the statements of the config that have no block, then the blocks in
order.  `get_credentials` stops at the first `credentials` statement or block it
meets; it is `none` where it would follow a null `child_block_` or read a token
that is not there.
-/

namespace Swifties

open BlockGrammar

abbrev Credentials := Std.TreeMap Text Text

namespace NginxConfig

/-- The first loop: the value of the first statement without a block that has
the keyword and one more token. -/
def ownNumber (keyword : Text) : NginxConfig → Option ℤ
  | [] => none
  | .simple [first, second] :: rest =>
      if first = keyword then
        let ret := Text.atoi second
        some (if 0 ≤ ret ∧ ret ≤ 0xffff then ret else -1)
      else ownNumber keyword rest
  | _ :: rest => ownNumber keyword rest

mutual

/-- The second loop, over the statements with a block. -/
def numberBelow (keyword : Text) : NginxConfig → ℤ
  | [] => -1
  | statement :: rest =>
      let ret := statementNumber keyword statement
      if ret ≠ -1 then ret else numberBelow keyword rest

def statementNumber (keyword : Text) : NginxConfigStatement → ℤ
  | .simple _ => -1
  | .block _ child =>
      match ownNumber keyword child with
      | some ret => ret
      | none => numberBelow keyword child

end

def getNumber (keyword : Text) (config : NginxConfig) : ℤ :=
  match ownNumber keyword config with
  | some ret => ret
  | none => numberBelow keyword config

theorem statementNumber_block (keyword : Text) (tokens : List Text)
    (child : NginxConfig) :
    statementNumber keyword (.block tokens child) = getNumber keyword child := by
  rw [statementNumber, getNumber]

def InRange (ret : ℤ) : Prop := ret = -1 ∨ 0 ≤ ret ∧ ret ≤ 0xffff

theorem ownNumber_inRange {keyword : Text} {config : NginxConfig} {ret : ℤ}
    (hown : ownNumber keyword config = some ret) : InRange ret := by
  fun_induction ownNumber keyword config with
  | case1 => cases hown
  | case2 second rest value =>
      rw [Option.some_inj] at hown
      subst hown
      split
      next hvalid => exact .inr hvalid
      next => exact .inl rfl
  | case3 first second rest hfirst ih => exact ih hown
  | case4 statement rest _ ih => exact ih hown

theorem numberBelow_inRange (keyword : Text) : ∀ (config : NginxConfig),
    InRange (numberBelow keyword config)
  | [] => .inl rfl
  | .simple tokens :: rest => by
      rw [numberBelow, statementNumber]
      exact numberBelow_inRange keyword rest
  | .block tokens child :: rest => by
      have hchild : InRange (statementNumber keyword (.block tokens child)) := by
        rw [statementNumber]
        cases hown : ownNumber keyword child with
        | some ret => exact ownNumber_inRange hown
        | none => exact numberBelow_inRange keyword child
      rw [numberBelow]
      split
      next => exact hchild
      next => exact numberBelow_inRange keyword rest

theorem getNumber_inRange (keyword : Text) (config : NginxConfig) :
    InRange (getNumber keyword config) := by
  rw [getNumber]
  cases hown : ownNumber keyword config with
  | some ret => exact ownNumber_inRange hown
  | none => exact numberBelow_inRange keyword config

def getConfigPort (config : NginxConfig) : ℤ := getNumber "port".toList config

def getAuthTime (config : NginxConfig) : ℤ := getNumber "timer".toList config

def addCredential (credentials : Credentials)
    (statement : NginxConfigStatement) : Credentials :=
  match statement.tokens with
  | [credential] =>
      match credential.find ':' with
      | some i =>
          credentials.insert (credential.take i) (credential.drop (i + 1))
      | none => credentials
  | _ => credentials

mutual

def getCredentials : NginxConfig → Option Credentials
  | [] => some ∅
  | statement :: rest =>
      match statementCredentials statement with
      | some result => result
      | none => getCredentials rest

/-- What `get_credentials` returns at a statement; `none` when it goes on to
the next one. -/
def statementCredentials :
    NginxConfigStatement → Option (Option Credentials)
  | .simple tokens =>
      match tokens with
      | [] => some none
      | first :: _ => if first = "credentials".toList then some none else none
  | .block tokens child =>
      match tokens with
      | [] => some none
      | first :: _ =>
          if first = "credentials".toList then
            some (some (child.foldl addCredential ∅))
          else some (getCredentials child)

end

end NginxConfig

end Swifties
