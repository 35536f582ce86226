import Swifties.ConfigSearch
import Swifties.Session

/-!
# Credentials of a session

`get_credentials` and `authenticate` each cut a string at its first colon, the
one an entry of the config and the other the decoded header.  Both cuts can be
undone, so a header is accepted exactly when the decoded text is, as a whole,
the last entry of its user.
-/

namespace Swifties

open BlockGrammar

/-- What stands before the first colon. -/
def userOf (s : Text) : Text := s.takeWhile fun c => c != ':'

/-- What stands behind the first colon. -/
def passwordOf (s : Text) : Text := s.drop ((userOf s).length + 1)

theorem userOf_append {user : Text} (huser : ':' ∉ user) (password : Text) :
    userOf (user ++ ':' :: password) = user := by
  have hall : ∀ c ∈ user, (c != ':') = true := by
    intro c hc
    rw [bne_iff_ne]
    rintro rfl
    exact huser hc
  rw [userOf, List.takeWhile_append_of_pos hall]
  simp

theorem eq_userOf_append {s : Text} (hs : ':' ∈ s) :
    s = userOf s ++ ':' :: passwordOf s := by
  obtain ⟨user, password, rfl, huser⟩ := List.eq_append_cons_of_mem hs
  rw [passwordOf, userOf_append huser]
  simp

theorem find_colon {s : Text} (hs : ':' ∈ s) :
    s.find ':' = some (userOf s).length := by
  obtain ⟨user, password, rfl, huser⟩ := List.eq_append_cons_of_mem hs
  rw [Text.find_append_cons huser, userOf_append huser]

theorem take_userOf (s : Text) : s.take (userOf s).length = userOf s :=
  (List.prefix_iff_eq_take.mp (List.takeWhile_prefix _)).symm

theorem find_eq_none_of_not_mem {s : Text} (hs : ':' ∉ s) :
    s.find ':' = none := by
  rw [Text.find, List.findIdx?_eq_none_iff]
  intro c hc
  rw [beq_eq_false_iff_ne]
  rintro rfl
  exact hs hc

/-! ## Entries -/

/-- The only token of a statement, if it has a colon. -/
def entryText? (statement : NginxConfigStatement) : Option Text :=
  match statement.tokens with
  | [credential] => if ':' ∈ credential then some credential else none
  | _ => none

def entryTexts (block : NginxConfig) : List Text :=
  block.filterMap entryText?

/-- The last entry of a user. -/
def lastEntry (entries : List Text) (user : Text) : Option Text :=
  (entries.filter fun entry => decide (userOf entry = user)).getLast?

theorem mem_entryTexts {block : NginxConfig} {entry : Text}
    (hmem : entry ∈ entryTexts block) : ':' ∈ entry := by
  obtain ⟨statement, _, hentry⟩ := List.mem_filterMap.mp hmem
  unfold entryText? at hentry
  split at hentry
  next credential _ =>
    split at hentry
    next hcolon =>
      cases hentry
      exact hcolon
    next => cases hentry
  next => cases hentry

theorem credentialEntry?_eq (statement : NginxConfigStatement) :
    credentialEntry? statement =
      (entryText? statement).map fun entry =>
        (userOf entry, passwordOf entry) := by
  unfold credentialEntry? entryText?
  cases statement.tokens with
  | nil => rfl
  | cons credential more =>
      cases more with
      | cons next more => rfl
      | nil =>
          by_cases hcolon : ':' ∈ credential
          · simp [find_colon hcolon, hcolon, take_userOf, passwordOf]
          · simp [find_eq_none_of_not_mem hcolon, hcolon]

theorem credentialEntries_eq (block : NginxConfig) :
    credentialEntries block =
      (entryTexts block).map fun entry =>
        (userOf entry, passwordOf entry) := by
  rw [credentialEntries, entryTexts, List.map_filterMap]
  exact List.filterMap_congr fun statement _ => credentialEntry?_eq statement

theorem lastPassword_eq (entries : List Text) (user : Text) :
    lastPassword
        (entries.map fun entry => (userOf entry, passwordOf entry)) user =
      (lastEntry entries user).map passwordOf := by
  rw [lastPassword, lastEntry, List.filter_map, List.getLast?_map,
    Option.map_map]
  rfl

theorem lastEntry_spec {entries : List Text} {user entry : Text}
    (hlast : lastEntry entries user = some entry) :
    entry ∈ entries ∧ userOf entry = user := by
  have hmem := List.mem_of_getLast? hlast
  rw [List.mem_filter, decide_eq_true_eq] at hmem
  exact hmem

/-- The password of the last entry tells as much as the entry itself. -/
theorem lastPassword_eq_some_iff {block : NginxConfig} {text : Text}
    (hcolon : ':' ∈ text) :
    lastPassword (credentialEntries block) (userOf text) =
        some (passwordOf text) ↔
      lastEntry (entryTexts block) (userOf text) = some text := by
  rw [credentialEntries_eq, lastPassword_eq, Option.map_eq_some_iff]
  constructor
  · rintro ⟨entry, hlast, hpassword⟩
    obtain ⟨hmem, huser⟩ := lastEntry_spec hlast
    rw [hlast, eq_userOf_append (mem_entryTexts hmem), huser, hpassword,
      ← eq_userOf_append hcolon]
  · intro hlast
    exact ⟨text, hlast, rfl⟩

/-! ## The decision of `authenticate` -/

theorem validHeader_iff (credentials : Credentials) (authHeader : Text) :
    Session.validHeader credentials authHeader = true ↔
      "Basic ".toList <+: authHeader ∧
        ':' ∈ Base64.decode (authHeader.drop 6) ∧
        credentials[userOf (Base64.decode (authHeader.drop 6))]? =
          some (passwordOf (Base64.decode (authHeader.drop 6))) := by
  have hprefix : authHeader.take 6 = "Basic ".toList ↔
      "Basic ".toList <+: authHeader := by
    rw [List.prefix_iff_eq_take, eq_comm]
    rfl
  unfold Session.validHeader
  rw [← hprefix]
  split
  next hbasic =>
    simp only [hbasic, true_and]
    by_cases hcolon : ':' ∈ Base64.decode (authHeader.drop 6)
    · simp only [find_colon hcolon, take_userOf, Session.accepts, hcolon,
        true_and, beq_iff_eq]
      rfl
    · simp [find_eq_none_of_not_mem hcolon, hcolon]
  next hbasic =>
    rw [Bool.false_eq_true, false_iff]
    exact fun h => hbasic h.1

theorem getCredentials_lastPassword {config block : NginxConfig}
    {statement : NginxConfigStatement} {credentials : Credentials}
    (hwords : wellWorded config)
    (hfirst : (openingStatements config).find? isCredentials = some statement)
    (hblock : statement.childBlock = some block)
    (hcredentials : config.getCredentials = some credentials) (user : Text) :
    credentials[user]? = lastPassword (credentialEntries block) user := by
  have hresult := getCredentials_eq config hwords
  simp only [hfirst, hblock, Option.map_some] at hresult
  rw [hcredentials, Option.some_inj] at hresult
  rw [hresult, foldl_addCredential_getElem?, Std.TreeMap.getElem?_emptyc,
    Option.or_none]

/-- A header is accepted exactly when the text it encodes is the last entry of
its user in the block that `get_credentials` reads; only then the time of the
last authentication is set. -/
theorem authenticate_iff {config block : NginxConfig}
    {statement : NginxConfigStatement} {session : Session}
    (hwords : wellWorded config)
    (hfirst : (openingStatements config).find? isCredentials = some statement)
    (hblock : statement.childBlock = some block)
    (hcredentials : config.getCredentials = some session.credentials)
    (authHeader : Text) (now : ℤ) :
    ((session.authenticate authHeader now).1 = true ↔
      "Basic ".toList <+: authHeader ∧
        ':' ∈ Base64.decode (authHeader.drop 6) ∧
        lastEntry (entryTexts block)
            (userOf (Base64.decode (authHeader.drop 6))) =
          some (Base64.decode (authHeader.drop 6))) ∧
    (session.authenticate authHeader now).2 =
      (if (session.authenticate authHeader now).1 then
        { session with lastAuthTime := now } else session) ∧
    (now ≠ session.lastAuthTime →
      ((session.authenticate authHeader now).2.lastAuthTime ≠
          session.lastAuthTime ↔
        (session.authenticate authHeader now).1 = true)) := by
  have hresult : (session.authenticate authHeader now).1 =
      Session.validHeader session.credentials authHeader := by
    unfold Session.authenticate
    split
    next hvalid => exact hvalid.symm
    next hinvalid => exact (Bool.eq_false_of_not_eq_true hinvalid).symm
  have hsession : (session.authenticate authHeader now).2 =
      if (session.authenticate authHeader now).1 then
        { session with lastAuthTime := now } else session := by
    rw [hresult]
    unfold Session.authenticate
    split <;> rfl
  refine ⟨?_, hsession, fun hnow => ?_⟩
  · rw [hresult, validHeader_iff]
    apply and_congr_right
    intro _
    apply and_congr_right
    intro hcolon
    rw [getCredentials_lastPassword hwords hfirst hblock hcredentials,
      lastPassword_eq_some_iff hcolon]
  · rw [hsession]
    split
    next htrue => simp [htrue, hnow]
    next hfalse => simp [hfalse]

/-- The second entry of a user replaces the first, and a password may have
colons. -/
theorem authenticate_iff_tariq :
    let block : NginxConfig :=
      [.simple ["tariq:123".toList], .simple ["tariq:1:3".toList]]
    let session := Session.make (block.foldl NginxConfig.addCredential ∅) 10 0
    let authHeader := "Basic dGFyaXE6MToz".toList
    ((session.authenticate authHeader 5).1 = true ↔
      "Basic ".toList <+: authHeader ∧
        ':' ∈ Base64.decode (authHeader.drop 6) ∧
        lastEntry (entryTexts block)
            (userOf (Base64.decode (authHeader.drop 6))) =
          some (Base64.decode (authHeader.drop 6))) ∧
    (session.authenticate authHeader 5).2 =
      (if (session.authenticate authHeader 5).1 then
        { session with lastAuthTime := 5 } else session) ∧
    (5 ≠ session.lastAuthTime →
      ((session.authenticate authHeader 5).2.lastAuthTime ≠
          session.lastAuthTime ↔
        (session.authenticate authHeader 5).1 = true)) := by
  intro block session authHeader
  let config : NginxConfig := [.block ["credentials".toList] block]
  have hwords : wellWorded config := by
    simp [config, block, wellWorded, statementWellWorded]
  have hfirst : (openingStatements config).find? isCredentials =
      some (.block ["credentials".toList] block) := by
    rfl
  exact authenticate_iff hwords hfirst rfl rfl authHeader 5

end Swifties
