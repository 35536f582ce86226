import Swifties.BlockOrders
import Swifties.ConfigQueries

/-!
# What `get_credentials` finds

`get_credentials` looks for the first `credentials` block in document order.  It
walks the tree depth first and gives up early: of the blocks at the top it looks
into the first one only.
-/

namespace Swifties

open BlockGrammar NginxConfigStatement

/-! ## Credentials -/

mutual

/-- The statements that begin before the first block of the config closes, in
document order. -/
def openingStatements : NginxConfig → NginxConfig
  | [] => []
  | statement :: rest =>
      match openingBelow statement with
      | some inner => statement :: inner
      | none => statement :: openingStatements rest

def openingBelow : NginxConfigStatement → Option NginxConfig
  | .simple _ => none
  | .block _ child => some (openingStatements child)

end

def isCredentials (statement : NginxConfigStatement) : Bool :=
  decide (statement.tokens.head? = some "credentials".toList)

def CredentialsGuarded (config : NginxConfig) : Prop :=
  ∀ statement, (openingStatements config).find? isCredentials =
    some statement → statement.childBlock ≠ none

theorem isCredentials_iff {statement : NginxConfigStatement} {first : Text}
    {arguments : List Text} (htokens : statement.tokens = first :: arguments) :
    isCredentials statement = true ↔ first = "credentials".toList := by
  rw [isCredentials, htokens, decide_eq_true_eq, List.head?_cons,
    Option.some_inj]

/-- `get_credentials` reads the block of the first `credentials` statement that
begins before any block has closed. -/
theorem getCredentials_eq : ∀ (config : NginxConfig), wellWorded config →
    config.getCredentials =
      match (openingStatements config).find? isCredentials with
      | none => some ∅
      | some statement =>
          statement.childBlock.map fun block =>
            block.foldl NginxConfig.addCredential ∅
  | [], _ => by
      rw [NginxConfig.getCredentials, openingStatements, List.find?_nil]
  | .simple [] :: rest, hwords => (hwords.1 rfl).elim
  | .block [] child :: rest, hwords => (hwords.1.1 rfl).elim
  | .simple (first :: tokens) :: rest, hwords => by
      have hrest := getCredentials_eq rest hwords.2
      have hiff := isCredentials_iff (tokens_simple (first :: tokens))
      rw [NginxConfig.getCredentials, NginxConfig.statementCredentials,
        openingStatements, openingBelow]
      by_cases hfirst : first = "credentials".toList
      · rw [if_pos hfirst, List.find?_cons_of_pos (hiff.mpr hfirst)]
        rfl
      · rw [if_neg hfirst, List.find?_cons_of_neg (by rwa [hiff])]
        exact hrest
  | .block (first :: tokens) child :: rest, hwords => by
      have hchild := getCredentials_eq child hwords.1.2
      have hiff := isCredentials_iff (tokens_block (first :: tokens) child)
      rw [NginxConfig.getCredentials, NginxConfig.statementCredentials,
        openingStatements, openingBelow]
      by_cases hfirst : first = "credentials".toList
      · rw [if_pos hfirst, List.find?_cons_of_pos (hiff.mpr hfirst)]
        rfl
      · rw [if_neg hfirst, List.find?_cons_of_neg (by rwa [hiff])]
        exact hchild

theorem getCredentials_ne_none_iff {config : NginxConfig}
    (hwords : wellWorded config) :
    config.getCredentials ≠ none ↔ CredentialsGuarded config := by
  rw [getCredentials_eq config hwords, CredentialsGuarded]
  cases (openingStatements config).find? isCredentials with
  | none => simp
  | some statement => simp

/-- A user and a password, split at the first colon of the only token. -/
def credentialEntry? (statement : NginxConfigStatement) :
    Option (Text × Text) :=
  match statement.tokens with
  | [credential] =>
      (credential.find ':').map fun i =>
        (credential.take i, credential.drop (i + 1))
  | _ => none

def credentialEntries (block : NginxConfig) : List (Text × Text) :=
  block.filterMap credentialEntry?

/-- The password of the last entry for the user. -/
def lastPassword (entries : List (Text × Text)) (user : Text) : Option Text :=
  (entries.filter fun entry => decide (entry.1 = user)).getLast?.map Prod.snd

theorem lastPassword_cons (entry : Text × Text) (entries : List (Text × Text))
    (user : Text) :
    lastPassword (entry :: entries) user =
      (lastPassword entries user).or
        (if entry.1 = user then some entry.2 else none) := by
  unfold lastPassword
  by_cases huser : entry.1 = user
  · simp only [huser, decide_true, List.filter_cons_of_pos, if_true]
    cases hrest : entries.filter fun entry => decide (entry.1 = user) with
    | nil => rfl
    | cons next rest => simp [List.getLast?_cons]
  · simp [huser]

theorem addCredential_eq (credentials : Credentials)
    (statement : NginxConfigStatement) :
    NginxConfig.addCredential credentials statement =
      match credentialEntry? statement with
      | some entry => credentials.insert entry.1 entry.2
      | none => credentials := by
  unfold NginxConfig.addCredential credentialEntry?
  cases statement.tokens with
  | nil => rfl
  | cons credential more =>
      cases more with
      | cons next more => rfl
      | nil => cases hfind : credential.find ':' <;> simp [hfind]

theorem foldl_addCredential_getElem? (block : NginxConfig)
    (credentials : Credentials) (user : Text) :
    (block.foldl NginxConfig.addCredential credentials)[user]? =
      (lastPassword (credentialEntries block) user).or credentials[user]? := by
  induction block generalizing credentials with
  | nil => rfl
  | cons statement block ih =>
      rw [List.foldl_cons, ih, addCredential_eq]
      cases hentry : credentialEntry? statement with
      | none => simp [credentialEntries, hentry]
      | some entry =>
          have hentries : credentialEntries (statement :: block) =
              entry :: credentialEntries block := by
            simp [credentialEntries, hentry]
          rw [hentries, lastPassword_cons, Option.or_assoc]
          congr 1
          simp only [Std.TreeMap.getElem?_insert,
            Std.LawfulEqCmp.compare_eq_iff_eq]
          split <;> simp [*]

/-- The block of the first `credentials` statement in document order. -/
def firstCredentialsBlock (config : NginxConfig) : NginxConfig :=
  (((preorder config).find? isCredentials).bind childBlock).getD []

/-- The first `credentials` statement begins before any block has closed, or
its block has no entry. -/
def CredentialsReached (config : NginxConfig) : Prop :=
  (openingStatements config).find? isCredentials =
      (preorder config).find? isCredentials ∨
    credentialEntries (firstCredentialsBlock config) = []

theorem openingStatements_isPrefix : ∀ (config : NginxConfig),
    openingStatements config <+: preorder config
  | [] => List.prefix_refl _
  | .simple tokens :: rest => by
      rw [openingStatements, openingBelow, preorder, preorderBelow,
        List.nil_append, List.cons_prefix_cons]
      exact ⟨rfl, openingStatements_isPrefix rest⟩
  | .block tokens child :: rest => by
      rw [openingStatements, openingBelow, preorder, preorderBelow,
        List.cons_prefix_cons]
      exact ⟨rfl,
        (openingStatements_isPrefix child).trans (List.prefix_append _ _)⟩

theorem find?_openingStatements (config : NginxConfig) :
    (openingStatements config).find? isCredentials = none ∨
      (openingStatements config).find? isCredentials =
        (preorder config).find? isCredentials := by
  obtain ⟨rest, hrest⟩ := openingStatements_isPrefix config
  rw [← hrest, List.find?_append]
  cases (openingStatements config).find? isCredentials with
  | none => exact .inl rfl
  | some statement => exact .inr rfl

theorem lastPassword_ne_none {entries : List (Text × Text)}
    {entry : Text × Text} (hmem : entry ∈ entries) :
    lastPassword entries entry.1 ≠ none := by
  have hfilter : entry ∈
      entries.filter fun other => decide (other.1 = entry.1) := by
    simp [hmem]
  rw [lastPassword, Ne, Option.map_eq_none_iff, List.getLast?_eq_none_iff]
  exact List.ne_nil_of_mem hfilter

theorem getCredentials_of_find_eq {config : NginxConfig}
    (hwords : wellWorded config)
    (hblocks : ∀ statement : NginxConfigStatement,
      statement ∈ preorder config →
      isCredentials statement = true → statement.childBlock ≠ none)
    (hfind : (openingStatements config).find? isCredentials =
      (preorder config).find? isCredentials) :
    ∃ credentials, config.getCredentials = some credentials ∧
      ∀ user : Text, credentials[user]? = lastPassword
        (credentialEntries (firstCredentialsBlock config)) user := by
  have hresult := getCredentials_eq config hwords
  rw [hfind] at hresult
  cases hfirst : (preorder config).find? isCredentials with
  | none =>
      rw [hfirst] at hresult
      refine ⟨∅, hresult, fun user => ?_⟩
      simp [firstCredentialsBlock, hfirst, credentialEntries, lastPassword]
  | some statement =>
      have hblock := hblocks statement (List.mem_of_find?_eq_some hfirst)
        (List.find?_some hfirst)
      obtain ⟨block, hblock⟩ := Option.ne_none_iff_exists'.mp hblock
      simp only [hfirst, hblock, Option.map_some] at hresult
      refine ⟨_, hresult, fun user => ?_⟩
      rw [foldl_addCredential_getElem?]
      simp [firstCredentialsBlock, hfirst, hblock]

/-- The credentials are those of the first `credentials` block exactly when the
search reaches it before a block closes, or it has nothing to add. -/
theorem getCredentials_first_iff {config : NginxConfig}
    (hwords : wellWorded config)
    (hblocks : ∀ statement : NginxConfigStatement,
      statement ∈ preorder config →
      isCredentials statement = true → statement.childBlock ≠ none) :
    (∃ credentials, config.getCredentials = some credentials ∧
      ∀ user : Text, credentials[user]? =
        lastPassword (credentialEntries (firstCredentialsBlock config)) user) ↔
      CredentialsReached config := by
  have hresult := getCredentials_eq config hwords
  constructor
  · rintro ⟨credentials, hcredentials, hpasswords⟩
    rcases find?_openingStatements config with hnone | hfind
    · right
      rw [hnone] at hresult
      rw [hresult] at hcredentials
      cases hcredentials
      rw [List.eq_nil_iff_forall_not_mem]
      intro entry hmem
      have huser := hpasswords entry.1
      rw [Std.TreeMap.getElem?_emptyc] at huser
      exact lastPassword_ne_none hmem huser.symm
    · exact .inl hfind
  · rintro (hfind | hempty)
    · exact getCredentials_of_find_eq hwords hblocks hfind
    · rcases find?_openingStatements config with hnone | hfind
      · rw [hnone] at hresult
        exact ⟨∅, hresult, fun user => by simp [hempty, lastPassword]⟩
      · exact getCredentials_of_find_eq hwords hblocks hfind

theorem getCredentials_first_iff_server :
    let config : NginxConfig :=
      [.block ["credentials".toList] [.simple ["tariq:123".toList]],
        .block ["server".toList] []]
    (∃ credentials, config.getCredentials = some credentials ∧
      ∀ user : Text, credentials[user]? =
        lastPassword (credentialEntries (firstCredentialsBlock config)) user) ↔
      CredentialsReached config := by
  intro config
  apply getCredentials_first_iff
  · simp [config, wellWorded, statementWellWorded]
  · intro statement hmem hcredentials
    simp only [config, preorder, preorderBelow, List.mem_cons,
      List.mem_append, List.not_mem_nil, or_false] at hmem
    rcases hmem with rfl | rfl | rfl
    · simp
    · simp [isCredentials] at hcredentials
    · simp

/-- With the `server` block in front, no user can log in. -/
theorem not_getCredentials_first :
    let config : NginxConfig :=
      [.block ["server".toList] [],
        .block ["credentials".toList] [.simple ["tariq:123".toList]]]
    lastPassword (credentialEntries (firstCredentialsBlock config))
        "tariq".toList = some "123".toList ∧
      config.getCredentials = some ∅ ∧
      ¬ ∃ credentials, config.getCredentials = some credentials ∧
        ∀ user : Text, credentials[user]? =
          lastPassword (credentialEntries (firstCredentialsBlock config))
            user := by
  intro config
  have hpassword : lastPassword
      (credentialEntries (firstCredentialsBlock config)) "tariq".toList =
        some "123".toList := by decide
  refine ⟨hpassword, rfl, ?_⟩
  rintro ⟨credentials, hcredentials, hpasswords⟩
  have hempty : credentials = ∅ := (Option.some.inj hcredentials).symm
  have huser := hpasswords "tariq".toList
  rw [hempty, hpassword, Std.TreeMap.getElem?_emptyc] at huser
  cases huser

end Swifties
