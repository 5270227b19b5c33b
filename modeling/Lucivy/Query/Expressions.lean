import Lucivy.Query.Layout
import Lucivy.Query.ParserProgress

/-! # Boolean expressions and the trees the parser builds

The grammar of the query syntax, with `NOT` and the signs binding tighter than `AND` and `AND`
tighter than `OR`; operands side by side are joined as by `OR`. An expression has a row of pieces it
is written with, and a tree. The parser builds that tree from the row (`parseOr_pieces`), and
whatever it accepts has as many opening as closing parentheses (`parserTook`): so it accepts a
layout of an expression only where the tokenizer has read the whole row, and with that tree
(`parseBooleanSyntax_layout`).

* `OrExpr`, `AndExpr`, `UnaryExpr` — the grammar, with `pieces` and `ast`.
* `parseOr_pieces` — the row of an expression parses to its tree.
* `parseBooleanSyntax_layout` — an accepted layout of an expression has its tree. -/

namespace Lucivy.Query

open Lucivy.Foundation List

/-! ## The grammar -/

mutual

/-- Alternatives, joined by `OR` or side by side. -/
inductive OrExpr where
  | single (operand : AndExpr)
  | join (operand : AndExpr) (written : Bool) (rest : OrExpr)

/-- Operands joined by `AND`. -/
inductive AndExpr where
  | single (operand : UnaryExpr)
  | join (operand : UnaryExpr) (rest : AndExpr)

/-- A term, a group, or one of them negated or signed. -/
inductive UnaryExpr where
  | not (operand : UnaryExpr)
  | minus (operand : UnaryExpr)
  | plus (operand : UnaryExpr)
  | word (text : Text)
  | phrase (text : Text)
  | group (inner : OrExpr)

end

/-- What stands between two alternatives. -/
def joiner (written : Bool) : List Piece := if written then [.or] else []

mutual

/-- The pieces an expression is written with. -/
def OrExpr.pieces : OrExpr → List Piece
  | .single operand => operand.pieces
  | .join operand written rest => operand.pieces ++ (joiner written ++ rest.pieces)

def AndExpr.pieces : AndExpr → List Piece
  | .single operand => operand.pieces
  | .join operand rest => operand.pieces ++ .and :: rest.pieces

def UnaryExpr.pieces : UnaryExpr → List Piece
  | .not operand => .not :: operand.pieces
  | .minus operand => .minus :: operand.pieces
  | .plus operand => .plus :: operand.pieces
  | .word text => [.word text]
  | .phrase text => [.phrase text]
  | .group inner => .opening :: (inner.pieces ++ [.closing])

end

mutual

/-- The trees of the alternatives. -/
def OrExpr.items : OrExpr → List ParseAst
  | .single operand => [collapse .and operand.items]
  | .join operand _ rest => collapse .and operand.items :: rest.items

/-- The trees of the operands. -/
def AndExpr.items : AndExpr → List ParseAst
  | .single operand => [operand.ast]
  | .join operand rest => operand.ast :: rest.items

/-- The tree of a unary expression. -/
def UnaryExpr.ast : UnaryExpr → ParseAst
  | .not operand => .not operand.ast
  | .minus operand => .not operand.ast
  | .plus operand => .required operand.ast
  | .word text => .leaf text
  | .phrase text => .leaf (trim text)
  | .group inner => collapse .or inner.items

end

/-- The tree of a conjunction. -/
def AndExpr.ast (expr : AndExpr) : ParseAst := collapse .and expr.items

/-- **The tree of an expression.** -/
def OrExpr.ast (expr : OrExpr) : ParseAst := collapse .or expr.items

/-- The tokens of an expression, where the whole row is read. -/
def OrExpr.tokens (expr : OrExpr) : List ParseTok := expr.pieces.map Piece.token

def AndExpr.tokens (expr : AndExpr) : List ParseTok := expr.pieces.map Piece.token

def UnaryExpr.tokens (expr : UnaryExpr) : List ParseTok := expr.pieces.map Piece.token

/-- The token between two alternatives. -/
def joinTokens (written : Bool) : List ParseTok := if written then [.or] else []

/-- The tokens of one operand, -/
@[simp] theorem OrExpr.tokens_single (operand : AndExpr) :
    (OrExpr.single operand).tokens = operand.tokens := by
  simp [OrExpr.tokens, OrExpr.pieces, AndExpr.tokens]

/-- and of more, with the `OR` if it is written. -/
@[simp] theorem OrExpr.tokens_join (operand : AndExpr) (written : Bool) (rest : OrExpr) :
    (OrExpr.join operand written rest).tokens =
      operand.tokens ++ (joinTokens written ++ rest.tokens) := by
  cases written <;>
    simp [OrExpr.tokens, OrExpr.pieces, AndExpr.tokens, joiner, joinTokens, Piece.token]

/-- The tokens of one operand, -/
@[simp] theorem AndExpr.tokens_single (operand : UnaryExpr) :
    (AndExpr.single operand).tokens = operand.tokens := by
  simp [AndExpr.tokens, AndExpr.pieces, UnaryExpr.tokens]

/-- and of more. -/
@[simp] theorem AndExpr.tokens_join (operand : UnaryExpr) (rest : AndExpr) :
    (AndExpr.join operand rest).tokens = operand.tokens ++ .and :: rest.tokens := by
  simp [AndExpr.tokens, AndExpr.pieces, UnaryExpr.tokens, Piece.token]

/-- `NOT`. -/
@[simp] theorem UnaryExpr.tokens_not (operand : UnaryExpr) :
    (UnaryExpr.not operand).tokens = .not :: operand.tokens := by
  simp [UnaryExpr.tokens, UnaryExpr.pieces, Piece.token]

/-- A minus. -/
@[simp] theorem UnaryExpr.tokens_minus (operand : UnaryExpr) :
    (UnaryExpr.minus operand).tokens = .minus :: operand.tokens := by
  simp [UnaryExpr.tokens, UnaryExpr.pieces, Piece.token]

/-- A plus. -/
@[simp] theorem UnaryExpr.tokens_plus (operand : UnaryExpr) :
    (UnaryExpr.plus operand).tokens = .plus :: operand.tokens := by
  simp [UnaryExpr.tokens, UnaryExpr.pieces, Piece.token]

/-- A word. -/
@[simp] theorem UnaryExpr.tokens_word (text : Text) :
    (UnaryExpr.word text).tokens = [.text text] := by
  simp [UnaryExpr.tokens, UnaryExpr.pieces, Piece.token]

/-- A phrase, trimmed. -/
@[simp] theorem UnaryExpr.tokens_phrase (text : Text) :
    (UnaryExpr.phrase text).tokens = [.text (trim text)] := by
  simp [UnaryExpr.tokens, UnaryExpr.pieces, Piece.token]

/-- A group. -/
@[simp] theorem UnaryExpr.tokens_group (inner : OrExpr) :
    (UnaryExpr.group inner).tokens = .lparen :: (inner.tokens ++ [.rparen]) := by
  simp [UnaryExpr.tokens, UnaryExpr.pieces, OrExpr.tokens, Piece.token]

/-! ## The row of an expression parses to its tree -/

/-- A token an operand can start with. -/
def ParseTok.starts : ParseTok → Bool
  | .lparen | .not | .plus | .minus | .text _ => true
  | .rparen | .and | .or => false

/-- An operand begins with a token that starts one. -/
theorem UnaryExpr.tokens_starts (expr : UnaryExpr) :
    ∃ tok rest, expr.tokens = tok :: rest ∧ tok.starts = true := by
  cases expr <;> simp [ParseTok.starts]

/-- So does a conjunction. -/
theorem AndExpr.tokens_starts (expr : AndExpr) :
    ∃ tok rest, expr.tokens = tok :: rest ∧ tok.starts = true := by
  cases expr with
  | single operand => simpa using operand.tokens_starts
  | join operand rest =>
    obtain ⟨tok, toks, htoks, hstarts⟩ := operand.tokens_starts
    exact ⟨tok, _, by rw [AndExpr.tokens_join, htoks]; rfl, hstarts⟩

/-- So does a disjunction. -/
theorem OrExpr.tokens_starts (expr : OrExpr) :
    ∃ tok rest, expr.tokens = tok :: rest ∧ tok.starts = true := by
  cases expr with
  | single operand => simpa using operand.tokens_starts
  | join operand written rest =>
    obtain ⟨tok, toks, htoks, hstarts⟩ := operand.tokens_starts
    exact ⟨tok, _, by rw [OrExpr.tokens_join, htoks]; rfl, hstarts⟩

/-- A conjunction has a token. -/
theorem AndExpr.tokens_pos (expr : AndExpr) : 0 < expr.tokens.length := by
  obtain ⟨tok, rest, htoks, _⟩ := expr.tokens_starts
  simp [htoks]

/-- An operand has a token. -/
theorem UnaryExpr.tokens_pos (expr : UnaryExpr) : 0 < expr.tokens.length := by
  obtain ⟨tok, rest, htoks, _⟩ := expr.tokens_starts
  simp [htoks]

/-- Where a conjunction ends. -/
def EndsAnd (toks : List ParseTok) : Prop := ∀ tok ∈ toks.head?, tok ≠ .and

/-- Where alternatives end. -/
def EndsOr (toks : List ParseTok) : Prop := ∀ tok ∈ toks.head?, tok = .rparen

variable {toks : List ParseTok}

/-- Where a disjunction ends, a conjunction does. -/
theorem EndsOr.endsAnd (hends : EndsOr toks) : EndsAnd toks := by
  intro tok htok
  rw [hends tok htok]
  decide

/-- The loop stops there. -/
theorem andLoop_ends (hends : EndsAnd toks) (fuel : Nat) (items : List ParseAst) :
    andLoop (fuel + 1) items toks = .ok (items, toks) := by
  cases toks with
  | nil => rfl
  | cons tok toks => cases tok <;> first | rfl | exact absurd rfl (hends _ rfl)

/-- So does the outer loop. -/
theorem orLoop_ends (hends : EndsOr toks) (fuel : Nat) (items : List ParseAst) :
    orLoop (fuel + 1) items toks = .ok (items, toks) := by
  cases toks with
  | nil => rfl
  | cons tok toks =>
    obtain rfl := hends tok rfl
    rfl

/-- A conjunction from its loop. -/
theorem parseAnd_of_tail {fuel : Nat} {items : List ParseAst} {more : List ParseTok}
    (h : andTail fuel [] toks = .ok (items, more)) :
    parseAnd (fuel + 1) toks = .ok (collapse .and items, more) := by
  rw [parseAnd_eq, h]
  rfl

/-- A disjunction from its loop. -/
theorem parseOr_of_tail {fuel : Nat} {items : List ParseAst} {more : List ParseTok}
    (h : orTail fuel [] toks = .ok (items, more)) :
    parseOr (fuel + 1) toks = .ok (collapse .or items, more) := by
  rw [parseOr_eq, h]
  rfl

/-- The loop takes the next alternative, joined by `OR` or side by side. -/
theorem orLoop_join (written : Bool) (hstarts : ∃ tok rest, toks = tok :: rest ∧ tok.starts = true)
    (fuel : Nat) (items : List ParseAst) :
    orLoop (fuel + 1) items (joinTokens written ++ toks) = orTail fuel items toks := by
  obtain ⟨tok, rest, rfl, htok⟩ := hstarts
  cases written with
  | true => rfl
  | false => cases tok <;> first | rfl | exact absurd htok (by decide)

/-- What begins an operand still begins it. -/
theorem append_starts (more : List ParseTok)
    (hstarts : ∃ tok rest, toks = tok :: rest ∧ tok.starts = true) :
    ∃ tok rest, toks ++ more = tok :: rest ∧ tok.starts = true := by
  obtain ⟨tok, rest, rfl, htok⟩ := hstarts
  exact ⟨tok, rest ++ more, rfl, htok⟩

/-- What stands behind an operand of `OR` is no `AND`. -/
theorem endsAnd_join (written : Bool) (rest : OrExpr) (more : List ParseTok) :
    EndsAnd (joinTokens written ++ (rest.tokens ++ more)) := by
  obtain ⟨tok, toks, htoks, hstarts⟩ := rest.tokens_starts
  intro tok' htok'
  cases written with
  | true =>
    obtain rfl : .or = tok' := by simpa [joinTokens] using htok'
    decide
  | false =>
    obtain rfl : tok = tok' := by simpa [joinTokens, htoks] using htok'
    rintro rfl
    exact absurd hstarts (by decide)

mutual

/-- The row of an expression, alternative by alternative. -/
theorem orTail_pieces : ∀ (expr : OrExpr) (fuel : Nat) (items : List ParseAst)
    (more : List ParseTok), 4 * expr.tokens.length + 3 ≤ fuel → EndsOr more →
    orTail fuel items (expr.tokens ++ more) = .ok (items ++ expr.items, more)
  | .single operand, fuel, items, more, hfuel, hends => by
      obtain ⟨fuel, rfl⟩ : ∃ n, fuel = n + 1 := ⟨fuel - 1, by omega⟩
      rw [OrExpr.tokens_single] at hfuel ⊢
      have hrest := andTail_pieces operand fuel [] more (by omega) hends.endsAnd
      rw [orTail, parseAnd_of_tail hrest]
      exact orLoop_ends hends fuel _
  | .join operand written rest, fuel, items, more, hfuel, hends => by
      have hpos := operand.tokens_pos
      obtain ⟨fuel, rfl⟩ : ∃ n, fuel = n + 1 := ⟨fuel - 1, by omega⟩
      rw [OrExpr.tokens_join] at hfuel ⊢
      simp only [length_append] at hfuel
      have hfirst := andTail_pieces operand fuel [] _ (by omega) (endsAnd_join written rest more)
      rw [orTail, append_assoc, append_assoc, parseAnd_of_tail hfirst]
      refine (orLoop_join written (append_starts more rest.tokens_starts) fuel _).trans ?_
      rw [orTail_pieces rest fuel _ more (by omega) hends, append_assoc]
      rfl

/-- The parser reads back a conjunction. -/
theorem andTail_pieces : ∀ (expr : AndExpr) (fuel : Nat) (items : List ParseAst)
    (more : List ParseTok), 4 * expr.tokens.length + 2 ≤ fuel → EndsAnd more →
    andTail fuel items (expr.tokens ++ more) = .ok (items ++ expr.items, more)
  | .single operand, fuel, items, more, hfuel, hends => by
      obtain ⟨fuel, rfl⟩ : ∃ n, fuel = n + 1 := ⟨fuel - 1, by omega⟩
      rw [AndExpr.tokens_single] at hfuel ⊢
      rw [andTail, parseUnary_pieces operand (fuel + 1) more (by omega)]
      exact andLoop_ends hends fuel _
  | .join operand rest, fuel, items, more, hfuel, hends => by
      have hpos := operand.tokens_pos
      obtain ⟨fuel, rfl⟩ : ∃ n, fuel = n + 1 := ⟨fuel - 1, by omega⟩
      rw [AndExpr.tokens_join] at hfuel ⊢
      simp only [length_append, length_cons] at hfuel
      rw [andTail, append_assoc, parseUnary_pieces operand (fuel + 1) _ (by omega)]
      refine (andTail_pieces rest fuel (items ++ [operand.ast]) more (by omega) hends).trans ?_
      rw [append_assoc]
      rfl

/-- And an operand. -/
theorem parseUnary_pieces : ∀ (expr : UnaryExpr) (fuel : Nat) (more : List ParseTok),
    4 * expr.tokens.length + 2 ≤ fuel →
    parseUnary fuel (expr.tokens ++ more) = .ok (expr.ast, more)
  | .not operand, fuel, more, hfuel
  | .minus operand, fuel, more, hfuel
  | .plus operand, fuel, more, hfuel => by
      obtain ⟨fuel, rfl⟩ : ∃ n, fuel = n + 1 := ⟨fuel - 1, by omega⟩
      simp only [UnaryExpr.tokens_not, UnaryExpr.tokens_minus, UnaryExpr.tokens_plus,
        length_cons] at hfuel ⊢
      rw [cons_append, parseUnary, parseUnary_pieces operand fuel more (by omega)]
      rfl
  | .word text, fuel, more, hfuel
  | .phrase text, fuel, more, hfuel => by
      obtain ⟨fuel, rfl⟩ : ∃ n, fuel = n + 2 := ⟨fuel - 2, by omega⟩
      simp only [UnaryExpr.tokens_word, UnaryExpr.tokens_phrase]
      rfl
  | .group inner, fuel, more, hfuel => by
      rw [UnaryExpr.tokens_group] at hfuel ⊢
      simp only [length_append, length_cons, length_nil] at hfuel
      obtain ⟨fuel, rfl⟩ : ∃ n, fuel = n + 3 := ⟨fuel - 3, by omega⟩
      have hends : EndsOr ([.rparen] ++ more) := by
        intro tok htok
        simpa using htok.symm
      change parseAtom (fuel + 2) (.lparen :: (inner.tokens ++ [.rparen] ++ more)) = _
      rw [parseAtom, append_assoc, parseOr_of_tail (orTail_pieces inner fuel [] _ (by omega) hends)]
      rfl

end

/-- **The row of an expression parses to its tree.** -/
theorem parseOr_pieces (expr : OrExpr) (fuel : Nat) (more : List ParseTok)
    (hfuel : 4 * expr.tokens.length + 4 ≤ fuel) (hends : EndsOr more) :
    parseOr fuel (expr.tokens ++ more) = .ok (expr.ast, more) := by
  obtain ⟨fuel, rfl⟩ : ∃ n, fuel = n + 1 := ⟨fuel - 1, by omega⟩
  rw [parseOr_of_tail (orTail_pieces expr fuel [] more (by omega) hends)]
  rfl

/-! ## Layouts of expressions -/

mutual

/-- Every parenthesis of an expression is closed. -/
theorem OrExpr.pieces_balanced : ∀ expr : OrExpr,
    expr.pieces.count .opening = expr.pieces.count .closing
  | .single operand => by
      rw [OrExpr.pieces]
      exact operand.pieces_balanced
  | .join operand written rest => by
      have hoperand := operand.pieces_balanced
      have hrest := rest.pieces_balanced
      cases written <;> simp [OrExpr.pieces, joiner, hoperand, hrest]

/-- The parentheses of a conjunction, -/
theorem AndExpr.pieces_balanced : ∀ expr : AndExpr,
    expr.pieces.count .opening = expr.pieces.count .closing
  | .single operand => by
      rw [AndExpr.pieces]
      exact operand.pieces_balanced
  | .join operand rest => by
      have hoperand := operand.pieces_balanced
      have hrest := rest.pieces_balanced
      simp [AndExpr.pieces, hoperand, hrest]

/-- and of an operand. -/
theorem UnaryExpr.pieces_balanced : ∀ expr : UnaryExpr,
    expr.pieces.count .opening = expr.pieces.count .closing
  | .not operand | .minus operand | .plus operand => by
      simpa [UnaryExpr.pieces] using operand.pieces_balanced
  | .word text | .phrase text => by simp [UnaryExpr.pieces]
  | .group inner => by
      have hinner := inner.pieces_balanced
      simp [UnaryExpr.pieces, hinner]

end

/-- What `parse_boolean_syntax` accepts is all of the tokens. -/
theorem parseBooleanSyntax_ok {value : Text} {ast : ParseAst}
    (h : parseBooleanSyntax value = .ok ast) :
    parseOr (fuelFor (tokenize value)) (tokenize value) = .ok (ast, []) := by
  rw [parseBooleanSyntax] at h
  split at h
  · cases h
  · obtain ⟨result, hresult, h⟩ := bind_eq_ok.mp h
    obtain ⟨ast', toks⟩ := result
    cases toks with
    | nil =>
      cases h
      exact hresult
    | cons tok toks => cases h

/-- The tokens of an accepted query are balanced. -/
theorem tokenize_balanced {value : Text} {ast : ParseAst} (h : parseBooleanSyntax value = .ok ast) :
    (tokenize value).count .lparen = (tokenize value).count .rparen := by
  have htook := ((parserTook _).or (parseBooleanSyntax_ok h)).balanced
  simpa using htook

/-- **An accepted layout of an expression has the expression's tree.** -/
theorem parseBooleanSyntax_layout {expr : OrExpr} {value : Text}
    (hlayout : Layout expr.pieces value) {ast : ParseAst}
    (h : parseBooleanSyntax value = .ok ast) : ast = expr.ast := by
  have htokens : tokenize value = expr.tokens := by
    rcases hlayout.reads.row with hrow | hlost
    · exact hrow
    · -- a lost parenthesis would leave the tokens unbalanced
      have hopenings := hlayout.reads.openings
      have hbalanced := tokenize_balanced h
      have hpieces := expr.pieces_balanced
      omega
  have hparse := parseBooleanSyntax_ok h
  have hpieces : parseOr (fuelFor expr.tokens) (expr.tokens ++ []) = .ok (expr.ast, []) :=
    parseOr_pieces expr _ [] le_rfl (by intro tok htok; cases htok)
  rw [append_nil, ← htokens, hparse] at hpieces
  injection hpieces with hpair
  exact congrArg Prod.fst hpair

end Lucivy.Query
