import Swifties.BlockSymbols
import Swifties.TokenSpelling

/-!
# Printing a configuration

`ToString` writes a statement on a line of its own, indented by its depth, its
tokens separated by one space, and a block in braces.  What it writes parses
back to the same tree as long as every token is one that `ParseToken` can
return.
-/

namespace Swifties

open BlockGrammar

/-- `depth` times two spaces. -/
def indent : ℕ → Text
  | 0 => []
  | depth + 1 => ' ' :: ' ' :: indent depth

def joinTokens : List Text → Text
  | [] => []
  | [token] => token
  | token :: tokens => token ++ ' ' :: joinTokens tokens

mutual

def NginxConfig.toString (depth : ℕ) : NginxConfig → Text
  | [] => []
  | statement :: statements =>
      NginxConfigStatement.toString depth statement ++
        NginxConfig.toString depth statements

def NginxConfigStatement.toString (depth : ℕ) : NginxConfigStatement → Text
  | .simple tokens => indent depth ++ joinTokens tokens ++ [';'] ++ ['\n']
  | .block tokens child =>
      indent depth ++ joinTokens tokens ++ [' ', '{', '\n'] ++
        NginxConfig.toString (depth + 1) child ++ indent depth ++ ['}'] ++
        ['\n']

end

/-- A token without quotes. -/
def WordToken (token : Text) : Prop :=
  ∃ c rest, token = c :: rest ∧
    (isBlank c = false ∧ c ∉ ['{', '}', '#', '"', '\'', ';']) ∧
    ∀ d ∈ rest, endsWord d = false

/-- A token in quotes, with nothing escaped in it. -/
def QuotedToken (token : Text) : Prop :=
  ∃ quote body, token = quote :: (body ++ [quote]) ∧
    (quote = '"' ∨ quote = '\'') ∧ quote ∉ body ∧ '\\' ∉ body

def PrintableTokens (tokens : List Text) : Prop :=
  tokens ≠ [] ∧ ∀ token ∈ tokens, WordToken token ∨ QuotedToken token

mutual

def Printable : NginxConfig → Prop
  | [] => True
  | statement :: statements =>
      PrintableStatement statement ∧ Printable statements

def PrintableStatement : NginxConfigStatement → Prop
  | .simple tokens => PrintableTokens tokens
  | .block tokens child => PrintableTokens tokens ∧ Printable child

end

theorem indent_blank (depth : ℕ) : ∀ c ∈ indent depth, isBlank c = true := by
  induction depth with
  | zero => simp [indent]
  | succ depth ih =>
      rw [indent, List.forall_mem_cons, List.forall_mem_cons]
      exact ⟨rfl, rfl, ih⟩

/-! ## One token -/

theorem parseToken_printable {token : Text}
    (htoken : WordToken token ∨ QuotedToken token) {d : Char}
    (hd : endsWord d = true) (more : List Char) :
    parseToken (token ++ d :: more) = (⟨.normal, token⟩, d :: more) := by
  rcases htoken with ⟨c, rest, rfl, ⟨hblank, hfirst⟩, hrest⟩ |
    ⟨quote, body, rfl, hquotes, hquote, hescape⟩
  · simp only [isBlank, Bool.or_eq_false_iff, beq_eq_false_iff_ne,
      ne_eq] at hblank
    simp only [List.mem_cons, List.not_mem_nil, or_false, not_or] at hfirst
    have hloop := parseTokenLoop_word hrest [c] hd more
    simp [parseToken, parseTokenLoop, hblank, hfirst, hloop]
  · obtain ⟨hinside, hsame⟩ := inside_of_not_mem hquote hescape
    have hends : endsQuoted d = true := hd
    rcases hquotes with rfl | rfl
    · have hloop := parseTokenLoop_inside .double hinside ['"'] (d :: more)
      simp [parseToken, parseTokenLoop, hloop, closeQuote, hends, hsame]
    · have hloop := parseTokenLoop_inside .single hinside ['\''] (d :: more)
      simp [parseToken, parseTokenLoop, hloop, closeQuote, hends, hsame]

/-! ## Whole trees -/

theorem spells_tokens {tokens : List Text} (htokens : tokens ≠ []) {d : Char}
    (hd : endsWord d = true) {more : List Char} {w : List (Symbol Text)}
    (hspells : Spells (d :: more) w) :
    Spells (joinTokens tokens ++ d :: more) (tokens.map .word ++ w) := by
  induction tokens with
  | nil => exact (htokens rfl).elim
  | cons token tokens ih =>
      cases tokens with
      | nil => exact .word hd hspells
      | cons next tokens =>
          rw [joinTokens, List.append_assoc, List.cons_append]
          · exact .word rfl (.blank rfl (ih (List.cons_ne_nil _ _)))
          · exact List.cons_ne_nil _ _

mutual

/-- What is printed for a config spells it, at any depth and before any further
input. -/
theorem spells_config {config : NginxConfig} (hwords : wellWorded config)
    (depth : ℕ) {rest : List Char} {w : List (Symbol Text)}
    (hspells : Spells rest w) :
    Spells (NginxConfig.toString depth config ++ rest)
      (flatten config ++ w) := by
  match config, hwords with
  | [], _ => exact hspells
  | statement :: statements, ⟨hstatement, hstatements⟩ =>
      rw [NginxConfig.toString, flatten, List.append_assoc, List.append_assoc]
      exact spells_statement hstatement depth
        (spells_config hstatements depth hspells)

theorem spells_statement {statement : NginxConfigStatement}
    (hwords : statementWellWorded statement) (depth : ℕ) {rest : List Char}
    {w : List (Symbol Text)} (hspells : Spells rest w) :
    Spells (NginxConfigStatement.toString depth statement ++ rest)
      (flattenStatement statement ++ w) := by
  match statement, hwords with
  | .simple tokens, htokens =>
      have hend : Spells (';' :: '\n' :: rest) (.terminator :: w) :=
        .mark rfl (.blank rfl hspells)
      simpa [NginxConfigStatement.toString, flattenStatement] using
        (spells_tokens htokens rfl hend).blanks (indent_blank depth)
  | .block tokens child, ⟨htokens, hchild⟩ =>
      have hclose : Spells ('}' :: '\n' :: rest) (.closeBlock :: w) :=
        .mark rfl (.blank rfl hspells)
      have hbody := spells_config hchild (depth + 1)
        (hclose.blanks (indent_blank depth))
      have hopen : Spells (' ' :: '{' :: '\n' :: _) (.openBlock :: _) :=
        .blank rfl (.mark rfl (.blank rfl hbody))
      simpa [NginxConfigStatement.toString, flattenStatement] using
        (spells_tokens htokens rfl hopen).blanks (indent_blank depth)

end

mutual

theorem printable_iff : ∀ {config : NginxConfig}, Printable config ↔
    wellWorded config ∧ ∀ token : Text, Symbol.word token ∈ flatten config →
      WordToken token ∨ QuotedToken token
  | [] => by simp [Printable, wellWorded, flatten]
  | statement :: statements => by
      have hfirst := @printableStatement_iff statement
      have hrest := @printable_iff statements
      simp only [Printable, wellWorded, flatten, List.mem_append, hfirst, hrest,
        or_imp, forall_and]
      tauto

theorem printableStatement_iff : ∀ {statement : NginxConfigStatement},
    PrintableStatement statement ↔ statementWellWorded statement ∧
      ∀ token : Text, Symbol.word token ∈ flattenStatement statement →
        WordToken token ∨ QuotedToken token
  | .simple tokens => by
      simp [PrintableStatement, PrintableTokens, statementWellWorded,
        flattenStatement]
  | .block tokens child => by
      have hchild := @printable_iff child
      have hmem : ∀ token : Text,
          Symbol.word token ∈ flattenStatement (.block tokens child) ↔
            token ∈ tokens ∨ Symbol.word token ∈ flatten child := by
        simp [flattenStatement]
      simp only [PrintableStatement, PrintableTokens, statementWellWorded,
        hchild, hmem, or_imp, forall_and]
      tauto

end

theorem parseText_toString {config : NginxConfig} (hconfig : Printable config) :
    parseText (NginxConfig.toString 0 config) =
      some (.returned true config) := by
  obtain ⟨hwords, htokens⟩ := printable_iff.mp hconfig
  have hspells := spells_config hwords 0 .nil
  rw [List.append_nil, List.append_nil] at hspells
  obtain ⟨tokens, hreads, hsymbols⟩ := hspells.readsUpTo fun token hmem d more hd =>
    parseToken_printable (htokens token hmem) hd more
  apply parseText_of_readsUpTo hreads
  rw [hsymbols]
  exact derives_flatten hwords

theorem parseText_toString_nested :
    let config : NginxConfig :=
      [.block ["server".toList]
        [.simple ["root".toList, "'a b'".toList], .block ["x".toList] []]]
    parseText (NginxConfig.toString 0 config) =
      some (.returned true config) := by
  intro config
  have hserver : WordToken "server".toList :=
    ⟨'s', "erver".toList, rfl, by simp [isBlank], by simp [endsWord]⟩
  have hroot : WordToken "root".toList :=
    ⟨'r', "oot".toList, rfl, by simp [isBlank], by simp [endsWord]⟩
  have hquoted : QuotedToken "'a b'".toList :=
    ⟨'\'', "a b".toList, rfl, .inr rfl, by simp, by simp⟩
  have hx : WordToken "x".toList :=
    ⟨'x', [], rfl, by simp [isBlank], by simp⟩
  have hone : ∀ token, WordToken token → PrintableTokens [token] :=
    fun token hword => ⟨by simp, by simpa using .inl hword⟩
  have htwo : PrintableTokens ["root".toList, "'a b'".toList] := by
    refine ⟨by simp, fun token hmem => ?_⟩
    rcases List.mem_pair.mp hmem with rfl | rfl
    · exact .inl hroot
    · exact .inr hquoted
  exact parseText_toString
    ⟨⟨hone _ hserver, htwo, ⟨hone _ hx, trivial⟩, trivial⟩, trivial⟩

end Swifties
