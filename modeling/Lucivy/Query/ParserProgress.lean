import Lucivy.Foundation.Results
import Lucivy.Query.ParseSyntax

/-! # What the parser consumes

Whatever the parser accepts, it takes tokens off the front in which as many parentheses open as
close, and at least one of them. The first is why a query with a lost parenthesis is refused; the
second is why the bound on the calls is never reached.

* `Took` — what one call takes off the tokens.
* `parserTook` — every part of the parser, by induction on the bound.
* `parseOr_ne_outOfFuel` — the bound of `parse_boolean_syntax` is enough. -/

namespace Lucivy.Query

open Lucivy.Foundation List

/-! ## What the loops and the unary parser do with the next token -/

/-- One operand of `AND` and those behind it. -/
def andTail (fuel : Nat) (items : List ParseAst) (toks : List ParseTok) :
    Except ParseError (List ParseAst × List ParseTok) := do
  let next ← parseUnary fuel toks
  andLoop fuel (items ++ [next.1]) next.2

/-- One alternative and those behind it. -/
def orTail (fuel : Nat) (items : List ParseAst) (toks : List ParseTok) :
    Except ParseError (List ParseAst × List ParseTok) := do
  let next ← parseAnd fuel toks
  orLoop fuel (items ++ [next.1]) next.2

theorem parseAnd_eq (fuel : Nat) (toks : List ParseTok) : parseAnd (fuel + 1) toks = (do
    let items ← andTail fuel [] toks
    .ok (collapse .and items.1, items.2)) :=
  (bind_assoc ..).symm

theorem parseOr_eq (fuel : Nat) (toks : List ParseTok) : parseOr (fuel + 1) toks = (do
    let items ← orTail fuel [] toks
    .ok (collapse .or items.1, items.2)) :=
  (bind_assoc ..).symm

/-- The loop of `parse_and` ends, or takes what stands behind `AND`. -/
theorem andLoop_cases (fuel : Nat) (items : List ParseAst) (toks : List ParseTok) :
    andLoop (fuel + 1) items toks = .ok (items, toks) ∨
      ∃ rest, toks = .and :: rest ∧ andLoop (fuel + 1) items toks = andTail fuel items rest := by
  cases toks with
  | nil => exact .inl rfl
  | cons tok toks =>
    cases tok with
    | and => exact .inr ⟨toks, rfl, rfl⟩
    | _ => exact .inl rfl

/-- `parse_unary` goes on to an atom, or takes a sign or `NOT`. -/
theorem parseUnary_cases (fuel : Nat) (toks : List ParseTok) :
    parseUnary (fuel + 1) toks = parseAtom fuel toks ∨
      ∃ (tok : ParseTok) (wrap : ParseAst → ParseAst) (rest : List ParseTok),
        toks = tok :: rest ∧ tok ≠ .lparen ∧ tok ≠ .rparen ∧
        parseUnary (fuel + 1) toks = (do
          let inner ← parseUnary fuel rest
          Except.ok (wrap inner.1, inner.2)) := by
  cases toks with
  | nil => exact .inl rfl
  | cons tok toks =>
    cases tok with
    | not => exact .inr ⟨.not, .not, toks, rfl, by decide, by decide, rfl⟩
    | minus => exact .inr ⟨.minus, .not, toks, rfl, by decide, by decide, rfl⟩
    | plus => exact .inr ⟨.plus, .required, toks, rfl, by decide, by decide, rfl⟩
    | _ => exact .inl rfl

/-! ## What is taken -/

/-- What a call takes off the front: something, and as many opening as closing parentheses. -/
structure Took (toks rest : List ParseTok) : Prop where
  shorter : rest.length < toks.length
  balanced : toks.count .lparen + rest.count .rparen = toks.count .rparen + rest.count .lparen

theorem Took.trans {toks mid rest : List ParseTok} (hfirst : Took toks mid)
    (hnext : Took mid rest) :
    Took toks rest where
  shorter := hnext.shorter.trans hfirst.shorter
  balanced := by
    have := hfirst.balanced
    have := hnext.balanced
    omega

/-- A token that is no parenthesis in front. -/
theorem Took.cons {tok : ParseTok} (hopen : tok ≠ .lparen) (hclose : tok ≠ .rparen)
    {toks rest : List ParseTok} (htook : Took toks rest) : Took (tok :: toks) rest where
  shorter := htook.shorter.trans (Nat.lt_succ_self _)
  balanced := by
    rw [count_cons_of_ne hopen, count_cons_of_ne hclose]
    exact htook.balanced

theorem Took.single {tok : ParseTok} (hopen : tok ≠ .lparen) (hclose : tok ≠ .rparen)
    (toks : List ParseTok) : Took (tok :: toks) toks where
  shorter := Nat.lt_succ_self _
  balanced := by
    rw [count_cons_of_ne hopen, count_cons_of_ne hclose]
    omega

/-- A group in its parentheses. -/
theorem Took.group {toks rest : List ParseTok} (htook : Took toks (.rparen :: rest)) :
    Took (.lparen :: toks) rest where
  shorter := by
    have := htook.shorter
    simp only [length_cons] at this ⊢
    omega
  balanced := by
    have := htook.balanced
    simp at this ⊢
    omega

/-- The loops may take nothing. -/
def TookAny (toks rest : List ParseTok) : Prop := rest = toks ∨ Took toks rest

theorem Took.trans_any {toks mid rest : List ParseTok} (hfirst : Took toks mid)
    (hnext : TookAny mid rest) : Took toks rest := by
  rcases hnext with rfl | hnext
  · exact hfirst
  · exact hfirst.trans hnext

/-- What every part of the parser takes, for one bound. -/
structure ParserTook (fuel : Nat) : Prop where
  /-- `parse_or`. -/
  or : ∀ {toks result}, parseOr fuel toks = .ok result → Took toks result.2
  orLoop : ∀ {items toks result}, orLoop fuel items toks = .ok result → TookAny toks result.2
  /-- `parse_and`. -/
  and : ∀ {toks result}, parseAnd fuel toks = .ok result → Took toks result.2
  andLoop : ∀ {items toks result}, andLoop fuel items toks = .ok result → TookAny toks result.2
  /-- `parse_unary`. -/
  unary : ∀ {toks result}, parseUnary fuel toks = .ok result → Took toks result.2
  /-- `parse_atom`. -/
  atom : ∀ {toks result}, parseAtom fuel toks = .ok result → Took toks result.2

variable {toks : List ParseTok}

/-- A loop that took an operand goes on behind it. -/
theorem took_orTail {fuel : Nat} (hsmaller : ParserTook fuel) {items : List ParseAst}
    {result : List ParseAst × List ParseTok} (h : orTail fuel items toks = .ok result) :
    Took toks result.2 := by
  obtain ⟨next, hnext, h⟩ := bind_eq_ok.mp h
  exact (hsmaller.and hnext).trans_any (hsmaller.orLoop h)

theorem took_andTail {fuel : Nat} (hsmaller : ParserTook fuel) {items : List ParseAst}
    {result : List ParseAst × List ParseTok} (h : andTail fuel items toks = .ok result) :
    Took toks result.2 := by
  obtain ⟨next, hnext, h⟩ := bind_eq_ok.mp h
  exact (hsmaller.unary hnext).trans_any (hsmaller.andLoop h)

/-- A sign or `NOT` in front of an operand. -/
theorem took_signed {fuel : Nat} (hsmaller : ParserTook fuel) {wrap : ParseAst → ParseAst}
    {tok : ParseTok} (hopen : tok ≠ .lparen) (hclose : tok ≠ .rparen)
    {result : ParseAst × List ParseTok}
    (h : (do
      let inner ← parseUnary fuel toks
      Except.ok (wrap inner.1, inner.2)) = .ok result) : Took (tok :: toks) result.2 := by
  obtain ⟨inner, hinner, h⟩ := bind_eq_ok.mp h
  cases h
  exact (hsmaller.unary hinner).cons hopen hclose

theorem closeGroup_ok {inner : ParseAst × List ParseTok} {result : ParseAst × List ParseTok}
    (h : closeGroup inner = .ok result) : inner.2 = .rparen :: result.2 := by
  obtain ⟨ast, toks⟩ := inner
  cases toks with
  | nil => cases h
  | cons tok toks =>
    cases tok with
    | rparen =>
      cases h
      rfl
    | _ => cases h

/-- **Every part of the parser takes a balanced row off the front.** -/
theorem parserTook (fuel : Nat) : ParserTook fuel := by
  induction fuel with
  | zero =>
    constructor <;> intros <;> simp_all [parseOr, orLoop, parseAnd, andLoop, parseUnary, parseAtom]
  | succ fuel ih =>
    refine ⟨?_, ?_, ?_, ?_, ?_, ?_⟩
    · intro toks result h
      rw [parseOr_eq] at h
      obtain ⟨items, hitems, ⟨⟩⟩ := bind_eq_ok.mp h
      exact took_orTail ih hitems
    · intro items toks result h
      cases toks with
      | nil =>
        cases h
        exact .inl rfl
      | cons tok toks =>
        cases tok with
        | rparen =>
          cases h
          exact .inl rfl
        | and => cases h
        | or => exact .inr ((took_orTail ih h).cons (by decide) (by decide))
        | lparen | not | plus | minus | text value => exact .inr (took_orTail ih h)
    · intro toks result h
      rw [parseAnd_eq] at h
      obtain ⟨items, hitems, ⟨⟩⟩ := bind_eq_ok.mp h
      exact took_andTail ih hitems
    · intro items toks result h
      rcases andLoop_cases fuel items toks with heq | ⟨rest, rfl, heq⟩
      · rw [heq] at h
        cases h
        exact .inl rfl
      · exact .inr ((took_andTail ih (heq ▸ h)).cons (by decide) (by decide))
    · intro toks result h
      rcases parseUnary_cases fuel toks with heq | ⟨tok, wrap, rest, rfl, hopen, hclose, heq⟩
      · exact ih.atom (heq ▸ h)
      · exact took_signed ih hopen hclose (heq ▸ h)
    · intro toks result h
      cases toks with
      | nil => cases h
      | cons tok toks =>
        cases tok with
        | lparen =>
          obtain ⟨inner, hinner, h⟩ := bind_eq_ok.mp h
          have htook := ih.or hinner
          rw [closeGroup_ok h] at htook
          exact htook.group
        | text value =>
          cases h
          exact Took.single (by simp) (by simp) _
        | _ => cases h

/-! ## The bound on the calls -/

/-- No part of the parser reaches a bound that is large enough for its tokens. -/
structure Bounded (fuel : Nat) : Prop where
  or : ∀ {toks}, 4 * toks.length + 4 ≤ fuel → parseOr fuel toks ≠ .error .outOfFuel
  orLoop : ∀ {items toks}, 4 * toks.length + 4 ≤ fuel → orLoop fuel items toks ≠ .error .outOfFuel
  and : ∀ {toks}, 4 * toks.length + 3 ≤ fuel → parseAnd fuel toks ≠ .error .outOfFuel
  andLoop : ∀ {items toks}, 4 * toks.length + 1 ≤ fuel → andLoop fuel items toks ≠ .error .outOfFuel
  unary : ∀ {toks}, 4 * toks.length + 2 ≤ fuel → parseUnary fuel toks ≠ .error .outOfFuel
  atom : ∀ {toks}, 4 * toks.length + 1 ≤ fuel → parseAtom fuel toks ≠ .error .outOfFuel

theorem bounded_orTail {fuel : Nat} (hsmaller : Bounded fuel) {items : List ParseAst}
    (hfuel : 4 * toks.length + 3 ≤ fuel) : orTail fuel items toks ≠ .error .outOfFuel := by
  intro h
  rcases bind_eq_error.mp h with h | ⟨next, hnext, h⟩
  · exact hsmaller.and hfuel h
  · have hshorter := ((parserTook fuel).and hnext).shorter
    exact hsmaller.orLoop (by omega) h

theorem bounded_andTail {fuel : Nat} (hsmaller : Bounded fuel) {items : List ParseAst}
    (hfuel : 4 * toks.length + 2 ≤ fuel) : andTail fuel items toks ≠ .error .outOfFuel := by
  intro h
  rcases bind_eq_error.mp h with h | ⟨next, hnext, h⟩
  · exact hsmaller.unary hfuel h
  · have hshorter := ((parserTook fuel).unary hnext).shorter
    exact hsmaller.andLoop (by omega) h

theorem bounded_signed {fuel : Nat} (hsmaller : Bounded fuel) {wrap : ParseAst → ParseAst}
    (hfuel : 4 * toks.length + 2 ≤ fuel) :
    (do
      let inner ← parseUnary fuel toks
      Except.ok (wrap inner.1, inner.2)) ≠ .error .outOfFuel := by
  intro h
  rcases bind_eq_error.mp h with h | ⟨inner, -, h⟩
  · exact hsmaller.unary hfuel h
  · cases h

theorem closeGroup_ne (inner : ParseAst × List ParseTok) :
    closeGroup inner ≠ .error .outOfFuel := by
  obtain ⟨ast, toks⟩ := inner
  cases toks with
  | nil => simp [closeGroup]
  | cons tok toks => cases tok <;> simp [closeGroup]

theorem parser_bounded (fuel : Nat) : Bounded fuel := by
  induction fuel with
  | zero => constructor <;> intros <;> omega
  | succ fuel ih =>
    refine ⟨?_, ?_, ?_, ?_, ?_, ?_⟩
    · intro toks hfuel h
      rw [parseOr_eq] at h
      rcases bind_eq_error.mp h with h | ⟨items, -, ⟨⟩⟩
      exact bounded_orTail ih (by omega) h
    · intro items toks hfuel h
      cases toks with
      | nil => cases h
      | cons tok toks =>
        rw [length_cons] at hfuel
        have hside : 4 * (tok :: toks).length + 3 ≤ fuel := by
          rw [length_cons]
          omega
        cases tok with
        | rparen | and => cases h
        | or => exact bounded_orTail ih (by omega) h
        | lparen | not | plus | minus | text value => exact bounded_orTail ih hside h
    · intro toks hfuel h
      rw [parseAnd_eq] at h
      rcases bind_eq_error.mp h with h | ⟨items, -, ⟨⟩⟩
      exact bounded_andTail ih (by omega) h
    · intro items toks hfuel h
      rcases andLoop_cases fuel items toks with heq | ⟨rest, rfl, heq⟩
      · rw [heq] at h
        cases h
      · rw [length_cons] at hfuel
        exact bounded_andTail ih (by omega) (heq ▸ h)
    · intro toks hfuel h
      rcases parseUnary_cases fuel toks with heq | ⟨tok, wrap, rest, rfl, -, -, heq⟩
      · exact ih.atom (by omega) (heq ▸ h)
      · rw [length_cons] at hfuel
        exact bounded_signed ih (by omega) (heq ▸ h)
    · intro toks hfuel h
      cases toks with
      | nil => cases h
      | cons tok toks =>
        cases tok with
        | lparen =>
          rw [length_cons] at hfuel
          rcases bind_eq_error.mp h with h | ⟨inner, -, h⟩
          · exact ih.or (by omega) h
          · exact closeGroup_ne inner h
        | _ => cases h

/-- **The bound of `parse_boolean_syntax` is not reached.** -/
theorem parseOr_ne_outOfFuel (toks : List ParseTok) :
    parseOr (fuelFor toks) toks ≠ .error .outOfFuel :=
  (parser_bounded _).or le_rfl

end Lucivy.Query
