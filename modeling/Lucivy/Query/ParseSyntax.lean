import Lucivy.Foundation.Utf8
import Lucivy.Query.BooleanWeight

/-! # The Boolean syntax of a query

`parse` queries with Boolean syntax (`lucivy_core/src/query.rs`): the value is cut into tokens, a
recursive descent parser builds a tree, the tree is lowered to `must` / `should` / `must_not`
clauses over substring queries, and those are built into a query. The parser is given a bound on the
depth of its calls; `parseBooleanSyntax` gives one that no run reaches
(`parseOr_ne_outOfFuel`).

* `tokenize` — `tokenize_parse_syntax`.
* `parseOr`, `parseAnd`, `parseUnary`, `parseAtom` — the parser, with the loops of the first two.
* `lower`, `buildQuery` — `lower_parse_ast`, and `build_query` on what it yields. -/

namespace Lucivy.Query

open Lucivy.Foundation

/-! ## Tokens -/

/-- `char::is_whitespace`. -/
def isWhitespace (c : Char) : Bool :=
  let n := c.toNat
  (9 ≤ n && n ≤ 13) || n == 0x20 || n == 0x85 || n == 0xA0 || n == 0x1680 ||
    (0x2000 ≤ n && n ≤ 0x200A) || n == 0x2028 || n == 0x2029 || n == 0x202F || n == 0x205F ||
    n == 0x3000

/-- `str::trim`. -/
def trim (text : Text) : Text :=
  ((text.dropWhile isWhitespace).reverse.dropWhile isWhitespace).reverse

inductive ParseTok where
  | lparen
  | rparen
  | and
  | or
  | not
  | plus
  | minus
  | text (value : Text)
deriving DecidableEq, Repr

/-- A character of a word. -/
def inWord (c : Char) : Bool := !isWhitespace c && c != '"'

/-- The parentheses at the end of a word, which is given from its end; the first letter stays. -/
def stripClosers : Text → Nat → Text × Nat
  | [], closers => ([], closers)
  | [c], closers => ([c], closers)
  | c :: c' :: word, closers =>
    if c = ')' then stripClosers (c' :: word) (closers + 1) else (c :: c' :: word, closers)

/-- A word, or an operator. -/
def wordToken (word : Text) : ParseTok :=
  if word = "AND".toList then .and
  else if word = "OR".toList then .or
  else if word = "NOT".toList then .not
  else .text word

/-- The tokens of a word: its closing parentheses group, unless it has an opening one. -/
def wordTokens (word : Text) : List ParseTok :=
  if word.contains '(' then [wordToken word]
  else
    let stripped := stripClosers word.reverse 0
    wordToken stripped.1.reverse :: List.replicate stripped.2 .rparen

/-- The token of a quoted text, unless it is blank. -/
def quotedTokens (text : Text) : List ParseTok :=
  if (trim text).isEmpty then [] else [.text (trim text)]

/-- A sign is one only in front of something. -/
def isSign (c : Char) (rest : Text) : Bool :=
  (c == '+' || c == '-') && rest.head?.any fun next => !isWhitespace next

/-- The loop of `tokenize_parse_syntax`, for a value of at most so many characters. -/
def tokenizeUpTo : Nat → Text → List ParseTok
  | 0, _ => []
  | _, [] => []
  | n + 1, c :: rest =>
    if isWhitespace c then tokenizeUpTo n rest
    else if c = '"' then
      quotedTokens (rest.takeWhile (· != '"')) ++
        tokenizeUpTo n ((rest.dropWhile (· != '"')).drop 1)
    else if isSign c rest then (if c = '+' then .plus else .minus) :: tokenizeUpTo n rest
    else if c = '(' then .lparen :: tokenizeUpTo n rest
    else wordTokens ((c :: rest).takeWhile inWord) ++ tokenizeUpTo n ((c :: rest).dropWhile inWord)

/-- **`tokenize_parse_syntax`.** -/
def tokenize (value : Text) : List ParseTok := tokenizeUpTo value.length value

/-! ## Trees -/

inductive ParseAst where
  | leaf (value : Text)
  | required (inner : ParseAst)
  | not (inner : ParseAst)
  | and (items : List ParseAst)
  | or (items : List ParseAst)

/-- Why there is no tree. -/
inductive ParseError where
  | refused (message : String)
  /-- The bound on the calls was too low. -/
  | outOfFuel
deriving DecidableEq, Repr

/-- A token as `{:?}` writes it; the quotes of a text are left out. -/
def ParseTok.debug : ParseTok → String
  | .lparen => "LParen"
  | .rparen => "RParen"
  | .and => "And"
  | .or => "Or"
  | .not => "Not"
  | .plus => "Plus"
  | .minus => "Minus"
  | .text value =>
    let text := String.ofList value
    s!"Text({text})"

/-- One item alone, or a group. -/
def collapse (group : List ParseAst → ParseAst) : List ParseAst → ParseAst
  | [item] => item
  | items => group items

/-- The parenthesis that has to stand behind a group. -/
def closeGroup : ParseAst × List ParseTok → Except ParseError (ParseAst × List ParseTok)
  | (inner, .rparen :: toks) => .ok (inner, toks)
  | _ => .error (.refused
      "unbalanced '(' — a parenthesis inside a word (`f(x`) is literal, one standing alone groups")

mutual

def parseOr : Nat → List ParseTok → Except ParseError (ParseAst × List ParseTok)
  | 0, _ => .error .outOfFuel
  | fuel + 1, toks => do
      let first ← parseAnd fuel toks
      let items ← orLoop fuel [first.1] first.2
      .ok (collapse .or items.1, items.2)

/-- The loop of `parse_or`. Operands side by side are joined as by `OR`. -/
def orLoop : Nat → List ParseAst → List ParseTok → Except ParseError (List ParseAst × List ParseTok)
  | 0, _, _ => .error .outOfFuel
  | _ + 1, items, [] => .ok (items, [])
  | _ + 1, items, .rparen :: toks => .ok (items, .rparen :: toks)
  | _ + 1, _, .and :: _ => .error (.refused "dangling AND")
  | fuel + 1, items, .or :: toks => do
      let next ← parseAnd fuel toks
      orLoop fuel (items ++ [next.1]) next.2
  | fuel + 1, items, tok :: toks => do
      let next ← parseAnd fuel (tok :: toks)
      orLoop fuel (items ++ [next.1]) next.2

def parseAnd : Nat → List ParseTok → Except ParseError (ParseAst × List ParseTok)
  | 0, _ => .error .outOfFuel
  | fuel + 1, toks => do
      let first ← parseUnary fuel toks
      let items ← andLoop fuel [first.1] first.2
      .ok (collapse .and items.1, items.2)

/-- The loop of `parse_and`. -/
def andLoop : Nat → List ParseAst → List ParseTok →
    Except ParseError (List ParseAst × List ParseTok)
  | 0, _, _ => .error .outOfFuel
  | fuel + 1, items, .and :: toks => do
      let next ← parseUnary fuel toks
      andLoop fuel (items ++ [next.1]) next.2
  | _ + 1, items, toks => .ok (items, toks)

def parseUnary : Nat → List ParseTok → Except ParseError (ParseAst × List ParseTok)
  | 0, _ => .error .outOfFuel
  | fuel + 1, .not :: toks => do
      let inner ← parseUnary fuel toks
      .ok (.not inner.1, inner.2)
  | fuel + 1, .minus :: toks => do
      let inner ← parseUnary fuel toks
      .ok (.not inner.1, inner.2)
  | fuel + 1, .plus :: toks => do
      let inner ← parseUnary fuel toks
      .ok (.required inner.1, inner.2)
  | fuel + 1, toks => parseAtom fuel toks

def parseAtom : Nat → List ParseTok → Except ParseError (ParseAst × List ParseTok)
  | 0, _ => .error .outOfFuel
  | fuel + 1, .lparen :: toks => do
      let inner ← parseOr fuel toks
      closeGroup inner
  | _ + 1, .text value :: toks => .ok (.leaf value, toks)
  | _ + 1, .rparen :: _ => .error (.refused "unbalanced ')'")
  | _ + 1, tok :: _ =>
    let other := tok.debug
    .error (.refused s!"unexpected {other}")
  | _ + 1, [] => .error (.refused "expected a term")

end

/-- A bound on the calls for so many tokens. -/
def fuelFor (toks : List ParseTok) : Nat := 4 * toks.length + 4

/-- **`parse_boolean_syntax`.** -/
def parseBooleanSyntax (value : Text) : Except ParseError ParseAst :=
  if (tokenize value).isEmpty then .error (.refused "parse query has no terms")
  else do
    let result ← parseOr (fuelFor (tokenize value)) (tokenize value)
    match result.2 with
    | [] => .ok result.1
    | tok :: _ =>
      let other := tok.debug
      .error (.refused s!"unexpected {other} after the query")

/-! ## Lowering -/

/-- What `lower_parse_ast` makes: `contains` and `boolean` configs. A list that is absent there is
empty here. -/
inductive QueryConfig where
  | contains (field : Option Text) (value : Text)
  /-- Clauses. -/
  | boolean (must should mustNot : List QueryConfig)

/-- The members of a group, by what becomes of them. -/
structure GroupClauses where
  must : List QueryConfig
  should : List QueryConfig
  mustNot : List QueryConfig

/-- A leaf over the fields. -/
def leafConfig (fields : List (Option Text)) (value : Text) : QueryConfig :=
  match fields.map fun field => QueryConfig.contains field value with
  | [config] => config
  | should => .boolean [] should []

/-- The end of `group`: a group needs a member that is not excluded. -/
def groupConfig (clauses : GroupClauses) : Except String QueryConfig :=
  if clauses.must.isEmpty && clauses.should.isEmpty then
    .error "a group needs at least one positive term (NOT/- alone matches nothing)"
  else .ok (.boolean clauses.must clauses.should clauses.mustNot)

mutual

/-- **`lower_parse_ast`.** -/
def lower (fields : List (Option Text)) : ParseAst → Except String QueryConfig
  | .leaf value => .ok (leafConfig fields value)
  | .required inner => lower fields inner
  | .not _ => .error "a query cannot be only a negation"
  | .and items => do
      let clauses ← lowerGroup fields true items
      groupConfig clauses
  | .or items => do
      let clauses ← lowerGroup fields false items
      groupConfig clauses

/-- The loop of `group`. -/
def lowerGroup (fields : List (Option Text)) (conjunctive : Bool) :
    List ParseAst → Except String GroupClauses
  | [] => .ok ⟨[], [], []⟩
  | .not inner :: items => do
      let config ← lower fields inner
      let clauses ← lowerGroup fields conjunctive items
      .ok ⟨clauses.must, clauses.should, config :: clauses.mustNot⟩
  | .required inner :: items => do
      let config ← lower fields inner
      let clauses ← lowerGroup fields conjunctive items
      .ok ⟨config :: clauses.must, clauses.should, clauses.mustNot⟩
  | other :: items => do
      let config ← lower fields other
      let clauses ← lowerGroup fields conjunctive items
      .ok (if conjunctive then ⟨config :: clauses.must, clauses.should, clauses.mustNot⟩
        else ⟨clauses.must, config :: clauses.should, clauses.mustNot⟩)

end

/-! ## Building -/

section Build

variable {δ : Type} (contains : Option Text → Text → Except String (Scorer δ)) (scoring : Bool)

mutual

/-- `build_query` on a config of the lowering; how a substring query is built is given. -/
def buildQuery : QueryConfig → Except String (Scorer δ)
  | .contains field value => contains field value
  | .boolean must should mustNot => do
      let musts ← buildAll must
      let shoulds ← buildAll should
      let mustNots ← buildAll mustNot
      let clauses := musts.map (fun scorer => (Occur.must, scorer)) ++
        (shoulds.map (fun scorer => (Occur.should, scorer)) ++
          mustNots.map fun scorer => (Occur.mustNot, scorer))
      if clauses.isEmpty then .error "boolean query has no clauses"
      else .ok (booleanScorer clauses scoring)

/-- The loop over the configs of one kind. -/
def buildAll : List QueryConfig → Except String (List (Scorer δ))
  | [] => .ok []
  | config :: configs => do
      let scorer ← buildQuery config
      let scorers ← buildAll configs
      .ok (scorer :: scorers)

end

/-- An error behind the parser. -/
def refuse {α : Type} : Except String α → Except ParseError α
  | .ok value => .ok value
  | .error message => .error (.refused message)

/-- **A `parse` query with Boolean syntax**: `expand_parse_boolean`, then `build_query`. -/
def parseQuery (fields : List (Option Text)) (value : Text) : Except ParseError (Scorer δ) := do
  let ast ← parseBooleanSyntax value
  let config ← refuse (lower fields ast)
  refuse (buildQuery contains scoring config)

end Build

end Lucivy.Query
