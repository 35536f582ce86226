import Swifties.ConfigParser
import Swifties.ConfigSearch
import Swifties.BlockSites

/-!
# Ports and times

`get_config_port` and `get_auth_time` look for a number depth first and take the
first number of a block for its answer, valid or not, so it need not be the
outermost one.  They read the text of a keyword statement with `atoi` and check
the range afterwards: a text that is no numeral, or a numeral beyond 32 bits, can
come out in range.  So `80abc` is port 80 and `'80'` is port 0.
-/

namespace Swifties

open BlockGrammar NginxConfigStatement

namespace Text

theorem digitsValue?_eq_some_iff {s : Text} {n : ℕ} :
    digitsValue? s = some n ↔
      s ≠ [] ∧ s.all Char.isDigit = true ∧ Nat.ofDigitChars 10 s 0 = n := by
  rw [digitsValue?, Option.ite_none_right_eq_some, Option.some_inj, and_assoc]

theorem not_isSpace_of_isDigit {c : Char} (hdigit : c.isDigit = true) :
    isSpace c = false := by
  rw [Char.isDigit_iff_toNat] at hdigit
  have hzero : '0'.toNat = 48 := rfl
  have hspace : c ≠ ' ' := by
    rintro rfl
    simp at hdigit
  simp only [isSpace, beq_eq_false_iff_ne.mpr hspace, Bool.false_or,
    Bool.and_eq_false_iff, decide_eq_false_iff_not]
  omega

/-- A numeral up to the largest port is read as its value. -/
theorem atoi_eq_of_digitsValue? {s : Text} {n : ℕ}
    (hvalue : digitsValue? s = some n) (hmax : n ≤ 0xffff) :
    atoi s = n := by
  obtain ⟨hne, hall, hn⟩ := digitsValue?_eq_some_iff.mp hvalue
  have htake : s.takeWhile Char.isDigit = s :=
    List.takeWhile_eq_self_iff.mpr (List.all_eq_true.mp hall)
  cases s with
  | nil => exact (hne rfl).elim
  | cons c t =>
      have hc : c.isDigit = true := by
        simp only [List.all_cons, Bool.and_eq_true] at hall
        exact hall.1
      have hdrop : (c :: t).dropWhile isSpace = c :: t :=
        List.dropWhile_cons_of_neg (by simp [not_isSpace_of_isDigit hc])
      have hminus : c ≠ '-' := by
        rintro rfl
        exact absurd hc (by decide)
      have hplus : c ≠ '+' := by
        rintro rfl
        exact absurd hc (by decide)
      simp only [atoi, hdrop]
      split
      next digits heq =>
        rw [List.cons.injEq] at heq
        exact (hminus heq.1).elim
      next digits heq =>
        rw [List.cons.injEq] at heq
        exact (hplus heq.1).elim
      next =>
        rw [htake, hn, min_eq_left (by omega)]
        apply Int.bmod_eq_of_le <;> omega

end Text

/-! ## The numbers that the search takes -/

/-- The number of a statement without a block that has the keyword and one more
token. -/
def keywordValue? (keyword : Text) : NginxConfigStatement → Option ℤ
  | .simple [first, second] =>
      if first = keyword then some (Text.atoi second) else none
  | _ => none

def isValid (value : ℤ) : Bool := decide (0 ≤ value ∧ value ≤ 0xffff)

def validValue? (keyword : Text) (statement : NginxConfigStatement) :
    Option ℤ :=
  (keywordValue? keyword statement).filter isValid

/-- The first valid value of the shallowest level that has one. -/
def OutermostValue (keyword : Text) (config : NginxConfig) (value : ℤ) : Prop :=
  ∃ depth, (level depth config).findSome? (validValue? keyword) = some value ∧
    ∀ shallower < depth,
      (level shallower config).findSome? (validValue? keyword) = none

def NoValue (keyword : Text) (config : NginxConfig) : Prop :=
  ∀ depth, (level depth config).findSome? (validValue? keyword) = none

def FirstOutermost (keyword : Text) (config : NginxConfig) (ret : ℤ) : Prop :=
  OutermostValue keyword config ret ∨ NoValue keyword config ∧ ret = -1

theorem OutermostValue.unique {keyword : Text} {config : NginxConfig}
    {value ret : ℤ} (hvalue : OutermostValue keyword config value)
    (hret : FirstOutermost keyword config ret) : ret = value := by
  obtain ⟨depth, hfound, hshallower⟩ := hvalue
  rcases hret with ⟨depth', hfound', hshallower'⟩ | ⟨hnone, _⟩
  · rcases Nat.lt_trichotomy depth depth' with hlt | heq | hgt
    · rw [hshallower' depth hlt] at hfound
      cases hfound
    · rw [← heq, hfound, Option.some_inj] at hfound'
      exact hfound'.symm
    · rw [hshallower depth' hgt] at hfound'
      cases hfound'
  · rw [hnone depth] at hfound
    cases hfound

theorem validValue?_isValid {keyword : Text} {statement : NginxConfigStatement}
    {value : ℤ} (hvalue : validValue? keyword statement = some value) :
    isValid value = true := by
  rw [validValue?, Option.filter_eq_some_iff] at hvalue
  exact hvalue.2

theorem OutermostValue.isValid {keyword : Text} {config : NginxConfig}
    {value : ℤ} (hvalue : OutermostValue keyword config value) :
    isValid value = true := by
  obtain ⟨depth, hfound, _⟩ := hvalue
  obtain ⟨statement, _, hstatement⟩ := List.exists_of_findSome?_eq_some hfound
  exact validValue?_isValid hstatement

mutual

/-- The numbers of the first keyword statements: those that no keyword
statement of the same block stands before, in blocks that stand in no block with
a keyword statement. -/
def firstNumbersBelow (keyword : Text) : NginxConfig → List ℤ
  | [] => []
  | statement :: rest =>
      firstNumbersWithin keyword statement ++ firstNumbersBelow keyword rest

def firstNumbersWithin (keyword : Text) : NginxConfigStatement → List ℤ
  | .simple _ => []
  | .block _ child =>
      match child.findSome? (keywordValue? keyword) with
      | some value => [value]
      | none => firstNumbersBelow keyword child

end

def firstNumbers (keyword : Text) (config : NginxConfig) : List ℤ :=
  match config.findSome? (keywordValue? keyword) with
  | some value => [value]
  | none => firstNumbersBelow keyword config

theorem firstNumbersWithin_block (keyword : Text) (tokens : List Text)
    (child : NginxConfig) :
    firstNumbersWithin keyword (.block tokens child) =
      firstNumbers keyword child := by
  rw [firstNumbersWithin, firstNumbers]

theorem ownNumber_eq (keyword : Text) (config : NginxConfig) :
    NginxConfig.ownNumber keyword config =
      (config.findSome? (keywordValue? keyword)).map fun value =>
        if isValid value = true then value else -1 := by
  fun_induction NginxConfig.ownNumber keyword config with
  | case1 => rfl
  | case2 second rest ret => simp [keywordValue?, isValid, ret]
  | case3 first second rest hfirst ih =>
      simpa [keywordValue?, hfirst] using ih
  | case4 statement rest hother ih =>
      have hnone : keywordValue? keyword statement = none := by
        unfold keywordValue?
        split
        next first second => exact (hother first second rfl).elim
        next => rfl
      rw [List.findSome?_cons, hnone]
      exact ih

theorem isValid_ne {value : ℤ} (hvalid : isValid value = true) :
    value ≠ -1 := by
  rw [isValid, decide_eq_true_eq] at hvalid
  omega

theorem getNumber_eq_of_below {keyword : Text} {config : NginxConfig}
    (hbelow : NginxConfig.numberBelow keyword config =
      ((firstNumbersBelow keyword config).find? isValid).getD (-1)) :
    NginxConfig.getNumber keyword config =
      ((firstNumbers keyword config).find? isValid).getD (-1) := by
  rw [NginxConfig.getNumber, firstNumbers, ownNumber_eq]
  cases config.findSome? (keywordValue? keyword) with
  | none => exact hbelow
  | some value =>
      simp only [Option.map_some, List.find?_singleton]
      split <;> rfl

theorem numberBelow_eq (keyword : Text) : ∀ (config : NginxConfig),
    NginxConfig.numberBelow keyword config =
      ((firstNumbersBelow keyword config).find? isValid).getD (-1)
  | [] => rfl
  | .simple tokens :: rest => by
      rw [NginxConfig.numberBelow, NginxConfig.statementNumber,
        firstNumbersBelow, firstNumbersWithin, List.nil_append]
      exact numberBelow_eq keyword rest
  | .block tokens child :: rest => by
      have hchild := getNumber_eq_of_below (numberBelow_eq keyword child)
      have hrest := numberBelow_eq keyword rest
      rw [NginxConfig.numberBelow, NginxConfig.statementNumber_block, hchild,
        firstNumbersBelow, firstNumbersWithin_block, List.find?_append]
      cases hfind : (firstNumbers keyword child).find? isValid with
      | none => simpa using hrest
      | some value =>
          have hne := isValid_ne (List.find?_some hfind)
          simp [hne]

/-- The search answers with the first valid one of the first numbers. -/
theorem getNumber_eq (keyword : Text) (config : NginxConfig) :
    NginxConfig.getNumber keyword config =
      ((firstNumbers keyword config).find? isValid).getD (-1) :=
  getNumber_eq_of_below (numberBelow_eq keyword config)

/-! ## The texts the search reads -/

/-- The second token of a keyword statement without a block. -/
def keywordText? (keyword : Text) : NginxConfigStatement → Option Text
  | .simple [first, second] => if first = keyword then some second else none
  | _ => none

mutual

/-- The texts of the first keyword statements, as `firstNumbersBelow` has their
numbers. -/
def firstTextsBelow (keyword : Text) : NginxConfig → List Text
  | [] => []
  | statement :: rest =>
      firstTextsWithin keyword statement ++ firstTextsBelow keyword rest

def firstTextsWithin (keyword : Text) : NginxConfigStatement → List Text
  | .simple _ => []
  | .block _ child =>
      match child.findSome? (keywordText? keyword) with
      | some text => [text]
      | none => firstTextsBelow keyword child

end

def firstTexts (keyword : Text) (config : NginxConfig) : List Text :=
  match config.findSome? (keywordText? keyword) with
  | some text => [text]
  | none => firstTextsBelow keyword config

/-- The text that the search reads its answer from: the first of the first
texts that `atoi` brings into range. -/
def readText? (keyword : Text) (config : NginxConfig) : Option Text :=
  (firstTexts keyword config).find? fun text => isValid (Text.atoi text)

theorem keywordValue?_eq (keyword : Text) (statement : NginxConfigStatement) :
    keywordValue? keyword statement =
      (keywordText? keyword statement).map Text.atoi := by
  fun_cases keywordText? keyword statement with
  | case1 second => simp [keywordValue?]
  | case2 first second hfirst => simp [keywordValue?, hfirst]
  | case3 statement hother =>
      unfold keywordValue?
      split
      next first second => exact (hother first second rfl).elim
      next => rfl

theorem keywordText?_eq_some_iff {keyword text : Text}
    {statement : NginxConfigStatement} :
    keywordText? keyword statement = some text ↔
      statement = .simple [keyword, text] := by
  unfold keywordText?
  split
  next first second =>
    rw [Option.ite_none_right_eq_some, Option.some_inj]
    simp
  next hother =>
    constructor
    · intro hnone
      cases hnone
    · rintro rfl
      exact (hother keyword text rfl).elim

theorem findSome?_keywordValue? (keyword : Text) (config : NginxConfig) :
    config.findSome? (keywordValue? keyword) =
      (config.findSome? (keywordText? keyword)).map Text.atoi := by
  rw [List.map_findSome?]
  congr 1
  funext statement
  exact keywordValue?_eq keyword statement

theorem firstNumbers_eq_of_below {keyword : Text} {config : NginxConfig}
    (hbelow : firstNumbersBelow keyword config =
      (firstTextsBelow keyword config).map Text.atoi) :
    firstNumbers keyword config =
      (firstTexts keyword config).map Text.atoi := by
  rw [firstNumbers, firstTexts, findSome?_keywordValue?]
  cases config.findSome? (keywordText? keyword) with
  | none => exact hbelow
  | some text => rfl

theorem firstTextsWithin_block (keyword : Text) (tokens : List Text)
    (child : NginxConfig) :
    firstTextsWithin keyword (.block tokens child) =
      firstTexts keyword child := by
  rw [firstTextsWithin, firstTexts]

theorem firstNumbersBelow_eq (keyword : Text) : ∀ (config : NginxConfig),
    firstNumbersBelow keyword config =
      (firstTextsBelow keyword config).map Text.atoi
  | [] => rfl
  | .simple tokens :: rest => by
      rw [firstNumbersBelow, firstNumbersWithin, firstTextsBelow,
        firstTextsWithin, List.nil_append, List.nil_append]
      exact firstNumbersBelow_eq keyword rest
  | .block tokens child :: rest => by
      rw [firstNumbersBelow, firstNumbersWithin_block, firstTextsBelow,
        firstTextsWithin_block, List.map_append,
        firstNumbersBelow_eq keyword rest,
        firstNumbers_eq_of_below (firstNumbersBelow_eq keyword child)]

theorem firstNumbers_eq (keyword : Text) (config : NginxConfig) :
    firstNumbers keyword config =
      (firstTexts keyword config).map Text.atoi :=
  firstNumbers_eq_of_below (firstNumbersBelow_eq keyword config)

theorem getNumber_eq_readText? (keyword : Text) (config : NginxConfig) :
    NginxConfig.getNumber keyword config =
      ((readText? keyword config).map Text.atoi).getD (-1) := by
  rw [getNumber_eq, firstNumbers_eq, List.find?_map, readText?]
  rfl

/-- The tree has a statement of the keyword and this text. -/
def HasText (keyword : Text) (config : NginxConfig) (text : Text) : Prop :=
  .simple [keyword, text] ∈ preorder config

theorem hasText_cons {keyword : Text} {statement : NginxConfigStatement}
    {rest : NginxConfig} {text : Text} (hrest : HasText keyword rest text) :
    HasText keyword (statement :: rest) text := by
  rw [HasText, preorder]
  exact List.mem_cons_of_mem _ (List.mem_append_right _ hrest)

theorem hasText_block {keyword : Text} {tokens : List Text}
    {child rest : NginxConfig} {text : Text}
    (hchild : HasText keyword child text) :
    HasText keyword (.block tokens child :: rest) text := by
  rw [HasText, preorder, preorderBelow]
  exact List.mem_cons_of_mem _ (List.mem_append_left _ hchild)

theorem hasText_of_mem {keyword : Text} {config : NginxConfig} {text : Text}
    (hmem : .simple [keyword, text] ∈ config) : HasText keyword config text := by
  induction config with
  | nil => cases hmem
  | cons statement rest ih =>
      rcases List.mem_cons.mp hmem with rfl | hrest
      · exact List.mem_cons_self
      · exact hasText_cons (ih hrest)

theorem firstTexts_subset_of_below {keyword : Text} {config : NginxConfig}
    (hbelow : ∀ text ∈ firstTextsBelow keyword config,
      HasText keyword config text) :
    ∀ text ∈ firstTexts keyword config, HasText keyword config text := by
  intro text hmem
  rw [firstTexts] at hmem
  cases hfind : config.findSome? (keywordText? keyword) with
  | none =>
      rw [hfind] at hmem
      exact hbelow text hmem
  | some found =>
      rw [hfind, List.mem_singleton] at hmem
      subst hmem
      obtain ⟨statement, hstatement, htext⟩ :=
        List.exists_of_findSome?_eq_some hfind
      rw [keywordText?_eq_some_iff.mp htext] at hstatement
      exact hasText_of_mem hstatement

theorem firstTextsBelow_subset (keyword : Text) : ∀ (config : NginxConfig),
    ∀ text ∈ firstTextsBelow keyword config, HasText keyword config text
  | [], text, hmem => by cases hmem
  | .simple tokens :: rest, text, hmem => by
      rw [firstTextsBelow, firstTextsWithin, List.nil_append] at hmem
      exact hasText_cons (firstTextsBelow_subset keyword rest text hmem)
  | .block tokens child :: rest, text, hmem => by
      rw [firstTextsBelow, firstTextsWithin_block, List.mem_append] at hmem
      rcases hmem with hchild | hrest
      · apply hasText_block
        exact firstTexts_subset_of_below
          (firstTextsBelow_subset keyword child) text hchild
      · exact hasText_cons (firstTextsBelow_subset keyword rest text hrest)

/-! ## When the answer is the outermost valid number -/

def isNumber (keyword : Text) (statement : NginxConfigStatement) : Bool :=
  (keywordValue? keyword statement).isSome

/-- The statements of the config in document order.  The first keyword
statements are those that no keyword statement of the same block stands before,
in blocks that stand in no block with a keyword statement. -/
def numberSites (keyword : Text) (config : NginxConfig) : List (Site Text) :=
  sites (isNumber keyword) config

/-- The statement that stands behind `front` is the outermost valid one: the
valid ones in front of it are deeper, and none behind it is shallower. -/
structure Outermost (keyword : Text) (front : List (Site Text))
    (site : Site Text) (back : List (Site Text)) : Prop where
  valid : (validValue? keyword site.statement).isSome = true
  before : ∀ other ∈ front,
    (validValue? keyword other.statement).isSome = true →
      site.depth < other.depth
  after : ∀ other ∈ back,
    (validValue? keyword other.statement).isSome = true →
      site.depth ≤ other.depth

/-- The statement that stands behind `front` is a first keyword statement and
valid, and no valid first keyword statement stands before it. -/
structure FirstShown (keyword : Text) (front : List (Site Text))
    (site : Site Text) : Prop where
  first : site.first = true
  valid : (validValue? keyword site.statement).isSome = true
  before : ∀ other ∈ front,
    (validValue? keyword other.statement).isSome = true → other.first = false

/-- No statement is valid, or the outermost valid statement is itself a first
keyword statement with no valid one before it. -/
def OutermostShown (keyword : Text) (config : NginxConfig) : Prop :=
  NoValue keyword config ∨
    ∃ front site back, numberSites keyword config = front ++ site :: back ∧
      Outermost keyword front site back ∧ FirstShown keyword front site

/-- The first valid one of the first keyword statements is not the outermost
valid statement, but has the same number. -/
def SameNumber (keyword : Text) (config : NginxConfig) : Prop :=
  ∃ front site back front' site' back',
    numberSites keyword config = front ++ site :: back ∧
      Outermost keyword front site back ∧
      numberSites keyword config = front' ++ site' :: back' ∧
      FirstShown keyword front' site' ∧ front'.length ≠ front.length ∧
      keywordValue? keyword site'.statement =
        keywordValue? keyword site.statement

theorem findSome?_validValue? (keyword : Text) (config : NginxConfig) :
    ((config.findSome? (keywordValue? keyword)).filter isValid) =
      (config.find? (isNumber keyword)).bind (validValue? keyword) := by
  induction config with
  | nil => rfl
  | cons statement rest ih =>
      rw [List.findSome?_cons, List.find?_cons, isNumber]
      cases hvalue : keywordValue? keyword statement with
      | none => exact ih
      | some value =>
          change _ = validValue? keyword statement
          rw [validValue?, hvalue]

theorem validValue?_of_not_isNumber {keyword : Text}
    {statement : NginxConfigStatement}
    (hnumber : isNumber keyword statement = false) :
    validValue? keyword statement = none := by
  rw [isNumber, Option.isSome_eq_false_iff, Option.isNone_iff_eq_none]
    at hnumber
  rw [validValue?, hnumber]
  rfl

def firstValid? (keyword : Text) (sites : List (Site Text)) : Option ℤ :=
  sites.findSome? fun site =>
    if site.first = true then validValue? keyword site.statement else none

theorem find?_firstNumbers_of_below {keyword : Text} {config : NginxConfig}
    {depth : ℕ}
    (hbelow : config.any (isNumber keyword) = false →
      (firstNumbersBelow keyword config).find? isValid =
        firstValid? keyword
          (sitesFrom (isNumber keyword) depth false false config)) :
    (firstNumbers keyword config).find? isValid =
      firstValid? keyword (sitesFrom (isNumber keyword) depth false
        (config.any (isNumber keyword)) config) := by
  cases hany : config.any (isNumber keyword) with
  | true =>
      rw [firstValid?, findSome?_first_marked
        (fun _ => validValue?_of_not_isNumber) hany, ← findSome?_validValue?,
        firstNumbers]
      cases hfound : config.findSome? (keywordValue? keyword) with
      | none =>
          rw [List.any_eq_true] at hany
          obtain ⟨statement, hmem, hnumber⟩ := hany
          rw [List.findSome?_eq_none_iff] at hfound
          rw [isNumber, hfound statement hmem] at hnumber
          cases hnumber
      | some value => simp only [List.find?_singleton, Option.filter_some]
  | false =>
      have hnone : config.findSome? (keywordValue? keyword) = none := by
        rw [List.any_eq_false] at hany
        rw [List.findSome?_eq_none_iff]
        intro statement hmem
        simpa [isNumber] using hany statement hmem
      rw [firstNumbers, hnone]
      exact hbelow hany

theorem find?_firstNumbersBelow (keyword : Text) :
    ∀ (config : NginxConfig) (depth : ℕ),
      config.any (isNumber keyword) = false →
      (firstNumbersBelow keyword config).find? isValid =
        firstValid? keyword
          (sitesFrom (isNumber keyword) depth false false config)
  | [], _, _ => rfl
  | .simple tokens :: rest, depth, hany => by
      rw [List.any_cons, Bool.or_eq_false_iff] at hany
      have hrest := find?_firstNumbersBelow keyword rest depth hany.2
      rw [firstNumbersBelow, firstNumbersWithin, List.nil_append, hrest,
        firstValid?, firstValid?, sitesFrom, sitesBelow, List.nil_append,
        List.findSome?_cons, hany.1, validValue?_of_not_isNumber hany.1]
      rfl
  | .block tokens child :: rest, depth, hany => by
      rw [List.any_cons, Bool.or_eq_false_iff] at hany
      have hrest := find?_firstNumbersBelow keyword rest depth hany.2
      have hchild := find?_firstNumbers_of_below
        (find?_firstNumbersBelow keyword child (depth + 1))
      rw [firstNumbersBelow, firstNumbersWithin_block, List.find?_append,
        hchild, hrest, firstValid?, firstValid?, firstValid?, sitesFrom,
        sitesBelow, List.findSome?_cons, List.findSome?_append, hany.1,
        validValue?_of_not_isNumber hany.1]
      rfl

/-- The search answers with the number of the first valid one of the first
keyword statements. -/
theorem getNumber_eq_firstValid? (keyword : Text) (config : NginxConfig) :
    NginxConfig.getNumber keyword config =
      (firstValid? keyword (numberSites keyword config)).getD (-1) := by
  rw [getNumber_eq, numberSites, sites,
    find?_firstNumbers_of_below (find?_firstNumbersBelow keyword config 0)]

theorem firstValid?_eq_some_iff {keyword : Text} {places : List (Site Text)}
    {value : ℤ} :
    firstValid? keyword places = some value ↔
      ∃ front site back, places = front ++ site :: back ∧
        FirstShown keyword front site ∧
        validValue? keyword site.statement = some value := by
  rw [firstValid?, List.findSome?_eq_some_iff]
  refine exists_congr fun front => exists_congr fun site =>
    exists_congr fun back => and_congr_right fun _ => ?_
  constructor
  · rintro ⟨hsite, hfront⟩
    rw [Option.ite_none_right_eq_some] at hsite
    refine ⟨⟨hsite.1, by rw [hsite.2]; rfl, ?_⟩, hsite.2⟩
    intro other hmem hvalid
    by_contra hfirst
    have hnone := hfront other hmem
    rw [if_pos (Bool.eq_true_of_not_eq_false hfirst)] at hnone
    rw [hnone] at hvalid
    cases hvalid
  · rintro ⟨⟨hfirst, _, hbefore⟩, hvalue⟩
    refine ⟨by rw [if_pos hfirst, hvalue], fun other hmem => ?_⟩
    rw [ite_eq_right_iff]
    intro hother
    by_contra hne
    have hvalid := Option.isSome_iff_ne_none.mpr hne
    rw [hbefore other hmem hvalid] at hother
    cases hother

theorem findSome?_level_numberSites (keyword : Text) (config : NginxConfig)
    (depth : ℕ) :
    (level depth config).findSome? (validValue? keyword) =
      (numberSites keyword config).findSome? fun site =>
        if site.depth = depth then validValue? keyword site.statement
        else none := by
  have hlevel := findSome?_level (isNumber keyword) (validValue? keyword)
    config 0 depth false (config.any (isNumber keyword))
  rwa [Nat.zero_add] at hlevel

theorem findSome?_level_eq_none_iff {keyword : Text} {config : NginxConfig}
    {depth : ℕ} :
    (level depth config).findSome? (validValue? keyword) = none ↔
      ∀ site ∈ numberSites keyword config,
        (validValue? keyword site.statement).isSome = true →
          site.depth ≠ depth := by
  rw [findSome?_level_numberSites, List.findSome?_eq_none_iff]
  refine forall₂_congr fun site _ => ?_
  rw [ite_eq_right_iff, Option.isSome_iff_ne_none]
  exact not_imp_not.symm.trans (by simp only [ne_eq])

theorem outermostValue_iff {keyword : Text} {config : NginxConfig} {value : ℤ} :
    OutermostValue keyword config value ↔
      ∃ front site back, numberSites keyword config = front ++ site :: back ∧
        Outermost keyword front site back ∧
        validValue? keyword site.statement = some value := by
  simp only [OutermostValue, findSome?_level_eq_none_iff]
  constructor
  · rintro ⟨depth, hfound, hshallower⟩
    rw [findSome?_level_numberSites, List.findSome?_eq_some_iff] at hfound
    obtain ⟨front, site, back, hsplit, hsite, hfront⟩ := hfound
    rw [Option.ite_none_right_eq_some] at hsite
    obtain ⟨rfl, hvalue⟩ := hsite
    have hdeeper : ∀ other ∈ numberSites keyword config,
        (validValue? keyword other.statement).isSome = true →
          site.depth ≤ other.depth := by
      intro other hmem hvalid
      by_contra hlt
      exact hshallower other.depth (by omega) other hmem hvalid rfl
    rw [hsplit] at hdeeper
    refine ⟨front, site, back, hsplit, ⟨by rw [hvalue]; rfl, ?_, ?_⟩, hvalue⟩
    · intro other hmem hvalid
      have hle := hdeeper other (List.mem_append_left _ hmem) hvalid
      have hne : other.depth ≠ site.depth := by
        intro heq
        have hnone := hfront other hmem
        rw [if_pos heq] at hnone
        rw [hnone] at hvalid
        cases hvalid
      omega
    · intro other hmem hvalid
      exact hdeeper other
        (List.mem_append_right _ (List.mem_cons_of_mem _ hmem)) hvalid
  · rintro ⟨front, site, back, hsplit, ⟨_, hbefore, hafter⟩, hvalue⟩
    refine ⟨site.depth, ?_, ?_⟩
    · rw [findSome?_level_numberSites, List.findSome?_eq_some_iff]
      refine ⟨front, site, back, hsplit, by rw [if_pos rfl, hvalue], ?_⟩
      intro other hmem
      rw [ite_eq_right_iff]
      intro heq
      by_contra hne
      have hlt := hbefore other hmem (Option.isSome_iff_ne_none.mpr hne)
      omega
    · intro shallower hlt other hmem hvalid
      rw [hsplit, List.mem_append, List.mem_cons] at hmem
      rcases hmem with hfront | rfl | hback
      · have hdeeper := hbefore other hfront hvalid
        omega
      · omega
      · have hdeeper := hafter other hback hvalid
        omega

theorem keywordValue?_eq_of_validValue? {keyword : Text}
    {statement : NginxConfigStatement} {value : ℤ}
    (hvalue : validValue? keyword statement = some value) :
    keywordValue? keyword statement = some value :=
  (Option.filter_eq_some_iff.mp hvalue).1

theorem firstValid?_eq_none_of_noValue {keyword : Text} {config : NginxConfig}
    (hnone : NoValue keyword config) :
    firstValid? keyword (numberSites keyword config) = none := by
  by_contra hne
  obtain ⟨value, hvalue⟩ := Option.ne_none_iff_exists'.mp hne
  obtain ⟨front, site, back, hsplit, hshown, _⟩ :=
    firstValid?_eq_some_iff.mp hvalue
  have hmem : site ∈ numberSites keyword config := by simp [hsplit]
  exact findSome?_level_eq_none_iff.mp (hnone site.depth) site hmem
    hshown.valid rfl

/-- The value shown is the outermost one if the two statements have the same
number, all the more if they are one statement. -/
theorem outermostValue_getNumber {keyword : Text} {config : NginxConfig}
    {front back front' back' : List (Site Text)} {site site' : Site Text}
    (hsplit : numberSites keyword config = front ++ site :: back)
    (houtermost : Outermost keyword front site back)
    (hsplit' : numberSites keyword config = front' ++ site' :: back')
    (hshown : FirstShown keyword front' site')
    (hsame : keywordValue? keyword site'.statement =
      keywordValue? keyword site.statement) :
    OutermostValue keyword config (NginxConfig.getNumber keyword config) := by
  obtain ⟨value, hvalue⟩ := Option.isSome_iff_exists.mp houtermost.valid
  have hvalue' : validValue? keyword site'.statement = some value := by
    rw [validValue?, hsame]
    exact hvalue
  have hfirst : firstValid? keyword (numberSites keyword config) =
      some value :=
    firstValid?_eq_some_iff.mpr ⟨front', site', back', hsplit', hshown, hvalue'⟩
  rw [getNumber_eq_firstValid?, hfirst]
  exact outermostValue_iff.mpr ⟨front, site, back, hsplit, houtermost, hvalue⟩

theorem shown_of_outermostValue {keyword : Text} {config : NginxConfig}
    (hvalue : OutermostValue keyword config
      (NginxConfig.getNumber keyword config)) :
    OutermostShown keyword config ∨ SameNumber keyword config := by
  have hget := getNumber_eq_firstValid? keyword config
  cases hfirst : firstValid? keyword (numberSites keyword config) with
  | none =>
      have hvalid := hvalue.isValid
      rw [hget, hfirst] at hvalid
      cases hvalid
  | some value =>
      rw [hget, hfirst, Option.getD_some] at hvalue
      obtain ⟨front', site', back', hsplit', hshown, hvalue'⟩ :=
        firstValid?_eq_some_iff.mp hfirst
      obtain ⟨front, site, back, hsplit, houtermost, hvalue⟩ :=
        outermostValue_iff.mp hvalue
      by_cases hlength : front'.length = front.length
      · left; right
        obtain ⟨rfl, htail⟩ :=
          List.append_inj (hsplit'.symm.trans hsplit) hlength
        rw [List.cons.injEq] at htail
        exact ⟨front', site, back, hsplit, houtermost, htail.1 ▸ hshown⟩
      · right
        refine ⟨front, site, back, front', site', back', hsplit, houtermost,
          hsplit', hshown, hlength, ?_⟩
        rw [keywordValue?_eq_of_validValue? hvalue',
          keywordValue?_eq_of_validValue? hvalue]

theorem getNumber_firstOutermost_iff (keyword : Text) (config : NginxConfig) :
    FirstOutermost keyword config (NginxConfig.getNumber keyword config) ↔
      OutermostShown keyword config ∨ SameNumber keyword config := by
  constructor
  · rintro (hvalue | ⟨hnone, _⟩)
    · exact shown_of_outermostValue hvalue
    · exact .inl (.inl hnone)
  · rintro ((hnone | ⟨front, site, back, hsplit, houtermost, hshown⟩) |
      ⟨front, site, back, front', site', back', hsplit, houtermost, hsplit',
        hshown, _, hsame⟩)
    · right
      rw [getNumber_eq_firstValid?, firstValid?_eq_none_of_noValue hnone]
      exact ⟨hnone, rfl⟩
    · exact .inl
        (outermostValue_getNumber hsplit houtermost hsplit hshown rfl)
    · exact .inl
        (outermostValue_getNumber hsplit houtermost hsplit' hshown hsame)

/-- The port and the timeout are the outermost valid ones exactly where the
outermost valid statement is the first valid one of the first keyword
statements, but for one that has the same number. -/
theorem getConfigPort_getAuthTime_iff (config : NginxConfig) :
    (FirstOutermost "port".toList config config.getConfigPort ↔
        OutermostShown "port".toList config ∨
          SameNumber "port".toList config) ∧
      (FirstOutermost "timer".toList config config.getAuthTime ↔
        OutermostShown "timer".toList config ∨
          SameNumber "timer".toList config) :=
  ⟨getNumber_firstOutermost_iff _ _, getNumber_firstOutermost_iff _ _⟩

/-- A valid port behind one that is out of range is not found. -/
theorem not_getConfigPort_firstOutermost :
    let config : NginxConfig :=
      [.simple ["port".toList, "70000".toList],
        .simple ["port".toList, "80".toList]]
    OutermostValue "port".toList config 80 ∧ config.getConfigPort = -1 ∧
      ¬ FirstOutermost "port".toList config config.getConfigPort := by
  intro config
  have hvalue : OutermostValue "port".toList config 80 :=
    ⟨0, by decide +kernel, fun _ hlt => absurd hlt (Nat.not_lt_zero _)⟩
  have hport : config.getConfigPort = -1 := by decide +kernel
  refine ⟨hvalue, hport, fun hfirst => ?_⟩
  have heq := hvalue.unique hfirst
  rw [hport] at heq
  cases heq

/-! ## When the answer is a numeral of the tree -/

theorem hasText_of_readText? {keyword : Text} {config : NginxConfig}
    {text : Text} (hread : readText? keyword config = some text) :
    HasText keyword config text :=
  firstTexts_subset_of_below (firstTextsBelow_subset keyword config) text
    (List.mem_of_find?_eq_some hread)

/-- A number that is returned is the value of the numeral of some keyword
statement. -/
def NumeralReturned (keyword : Text) (config : NginxConfig) (ret : ℤ) : Prop :=
  ret ≠ -1 → ∃ text n, HasText keyword config text ∧
    Text.digitsValue? text = some n ∧ (n : ℤ) = ret

/-- The text the search reads, if any, is a numeral up to `0xffff`. -/
def NumeralRead (keyword : Text) (config : NginxConfig) : Prop :=
  ∀ text, readText? keyword config = some text →
    ∃ n, Text.digitsValue? text = some n ∧ n ≤ 0xffff

/-- Another keyword statement has the numeral of what `atoi` makes of the text
the search reads. -/
def NumeralElsewhere (keyword : Text) (config : NginxConfig) : Prop :=
  ∃ text, readText? keyword config = some text ∧
    ∃ other n, other ≠ text ∧ HasText keyword config other ∧
      Text.digitsValue? other = some n ∧ (n : ℤ) = Text.atoi text

theorem getNumber_numeral_iff (keyword : Text) (config : NginxConfig) :
    NumeralReturned keyword config (NginxConfig.getNumber keyword config) ↔
      NumeralRead keyword config ∨ NumeralElsewhere keyword config := by
  rw [getNumber_eq_readText?]
  cases hread : readText? keyword config with
  | none =>
      apply iff_of_true
      · intro hne
        exact (hne rfl).elim
      · left
        intro text htext
        rw [hread] at htext
        cases htext
  | some text =>
      rw [Option.map_some, Option.getD_some]
      have hvalid : isValid (Text.atoi text) = true := by
        simpa using List.find?_some hread
      constructor
      · intro hreturned
        obtain ⟨other, n, hother, hvalue, hn⟩ := hreturned (isValid_ne hvalid)
        by_cases hsame : other = text
        · left
          intro found hfound
          rw [hread, Option.some_inj] at hfound
          subst hfound
          rw [isValid, ← hn, decide_eq_true_eq] at hvalid
          exact ⟨n, hsame ▸ hvalue, by omega⟩
        · right
          exact ⟨text, hread, other, n, hsame, hother, hvalue, hn⟩
      · rintro (hnumeral | ⟨found, hfound, other, n, _, hother, hvalue, hn⟩) _
        · obtain ⟨n, hvalue, hmax⟩ := hnumeral text hread
          exact ⟨text, n, hasText_of_readText? hread, hvalue,
            (Text.atoi_eq_of_digitsValue? hvalue hmax).symm⟩
        · rw [hread, Option.some_inj] at hfound
          subst hfound
          exact ⟨other, n, hother, hvalue, hn⟩

/-- The port and the timeout are numerals of the tree exactly where the text
that is read is one, but for a numeral elsewhere of the number it is read as. -/
theorem getConfigPort_getAuthTime_numeral_iff (config : NginxConfig) :
    (NumeralReturned "port".toList config config.getConfigPort ↔
        NumeralRead "port".toList config ∨
          NumeralElsewhere "port".toList config) ∧
      (NumeralReturned "timer".toList config config.getAuthTime ↔
        NumeralRead "timer".toList config ∨
          NumeralElsewhere "timer".toList config) :=
  ⟨getNumber_numeral_iff _ _, getNumber_numeral_iff _ _⟩

/-- `port 80abc;` is port 80. -/
theorem not_getConfigPort_numeral :
    ∃ config, parseText "port 80abc;".toList = some (.returned true config) ∧
      config.getConfigPort = 80 ∧
      ¬ NumeralReturned "port".toList config config.getConfigPort := by
  let config : NginxConfig := [.simple ["port".toList, "80abc".toList]]
  have hport : config.getConfigPort = 80 := by decide +kernel
  refine ⟨config, rfl, hport, fun hreturned => ?_⟩
  rw [hport] at hreturned
  obtain ⟨text, n, htext, hvalue, _⟩ := hreturned (by omega)
  have heq : text = "80abc".toList := by
    simpa [HasText, config, preorder, preorderBelow] using htext
  have hnone : Text.digitsValue? "80abc".toList = none := by decide
  rw [heq, hnone] at hvalue
  cases hvalue

end Swifties
