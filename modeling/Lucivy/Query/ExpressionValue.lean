import Lucivy.Query.Expressions

/-! # What a Boolean query matches

The value of an expression for a document, and the query that is built from its tree. Among
operands of `AND`, negation and signs have their Boolean value. Among alternatives the rule is
another one: members with `+` are required and negated ones excluded, and bare ones matter only if
nothing is required; then one of them has to hold. So `a OR NOT b` does not match a document with
neither word, though its Boolean value is true (`or_not_refuses_neither`).

* `OrExpr.value` — the value by that rule; `OrExpr.booleanValue` — the Boolean one.
* `lower_value` — a query built from a tree matches by the value of the tree.
* `parseQuery_matches` — **a query that is accepted matches by the value of its expression.** -/

namespace Lucivy.Query

open Lucivy.Foundation List ParseAst

/-! ## Values -/

/-- How a member takes part in a group. -/
inductive Sign where
  | bare
  | required
  | excluded
deriving DecidableEq, Repr

/-- What is known of the members of a group. -/
structure Alternatives where
  /-- Every required member holds. -/
  required : Bool
  /-- Every excluded member holds, that is, what it negates does not. -/
  excluded : Bool
  /-- There is a required member. -/
  hasRequired : Bool
  /-- A bare member holds. -/
  optional : Bool
deriving DecidableEq, Repr

open Alternatives

/-- A group of one member. -/
def Alternatives.member : Sign → Bool → Alternatives
  | .bare, holds => ⟨true, true, false, holds⟩
  | .required, holds => ⟨holds, true, true, false⟩
  | .excluded, holds => ⟨true, holds, false, false⟩

/-- The members of both groups. -/
def Alternatives.join (first rest : Alternatives) : Alternatives where
  required := first.required && rest.required
  excluded := first.excluded && rest.excluded
  hasRequired := first.hasRequired || rest.hasRequired
  optional := first.optional || rest.optional

/-- **When a group of alternatives holds**: all that is required, nothing that is excluded, and a
bare member unless something is required. -/
def Alternatives.holds (group : Alternatives) : Bool :=
  group.required && group.excluded && (group.hasRequired || group.optional)

mutual

/-- The sign of an operand; parentheses around it do not change it. -/
def OrExpr.sign : OrExpr → Sign
  | .single operand => operand.sign
  | .join _ _ _ => .bare

def AndExpr.sign : AndExpr → Sign
  | .single operand => operand.sign
  | .join _ _ => .bare

def UnaryExpr.sign : UnaryExpr → Sign
  | .not _ => .excluded
  | .minus _ => .excluded
  | .plus _ => .required
  | .word _ => .bare
  | .phrase _ => .bare
  | .group inner => inner.sign

end

section Values

variable (leaf : Text → Bool)

mutual

/-- **The value of an expression**, from those of its terms. -/
def OrExpr.value : OrExpr → Bool
  | .single operand => operand.value
  | .join operand _ rest => ((member operand.sign operand.value).join rest.alternatives).holds

/-- The members of alternatives. -/
def OrExpr.alternatives : OrExpr → Alternatives
  | .single operand => .member operand.sign operand.value
  | .join operand _ rest => (member operand.sign operand.value).join rest.alternatives

def AndExpr.value : AndExpr → Bool
  | .single operand => operand.value
  | .join operand rest => operand.value && rest.value

def UnaryExpr.value : UnaryExpr → Bool
  | .not operand => !operand.value
  | .minus operand => !operand.value
  | .plus operand => operand.value
  | .word text => leaf text
  | .phrase text => leaf (trim text)
  | .group inner => inner.value

end

mutual

/-- The Boolean value of an expression, where alternatives are a disjunction. -/
def OrExpr.booleanValue : OrExpr → Bool
  | .single operand => operand.booleanValue
  | .join operand _ rest => operand.booleanValue || rest.booleanValue

def AndExpr.booleanValue : AndExpr → Bool
  | .single operand => operand.booleanValue
  | .join operand rest => operand.booleanValue && rest.booleanValue

def UnaryExpr.booleanValue : UnaryExpr → Bool
  | .not operand => !operand.booleanValue
  | .minus operand => !operand.booleanValue
  | .plus operand => operand.booleanValue
  | .word text => leaf text
  | .phrase text => leaf (trim text)
  | .group inner => inner.booleanValue

end

/-! ## The value of a tree -/

/-- The sign of a member of a group. -/
def ParseAst.sign : ParseAst → Sign
  | .not _ => .excluded
  | .required _ => .required
  | .leaf _ => .bare
  | .and _ => .bare
  | .or _ => .bare

/-- In a conjunction a bare member is required. -/
def Sign.within (conjunctive : Bool) (sign : Sign) : Sign :=
  if conjunctive && sign == .bare then .required else sign

mutual

/-- The value of a tree. -/
def ParseAst.value : ParseAst → Bool
  | .leaf text => leaf text
  | .required inner => inner.value
  | .not inner => !inner.value
  | .and items => (members true items).required && (members true items).excluded
  | .or items => (members false items).holds

/-- What is known of the members of a group. -/
def ParseAst.members (conjunctive : Bool) : List ParseAst → Alternatives
  | [] => ⟨true, true, false, false⟩
  | item :: items => (member (item.sign.within conjunctive) item.value).join
      (members conjunctive items)

end

/-- A group of one member and none. -/
def Alternatives.none : Alternatives := ⟨true, true, false, false⟩

/-- Nothing to join. -/
@[simp] theorem Alternatives.join_none (group : Alternatives) : group.join .none = group := by
  simp [Alternatives.join, Alternatives.none]

/-- A group without members. -/
theorem ParseAst.members_nil (conjunctive : Bool) : members leaf conjunctive [] = .none := by
  rw [members, Alternatives.none]

/-- Outside a negation a sign stays. -/
@[simp] theorem Sign.within_false (sign : Sign) : sign.within false = sign := by
  simp [Sign.within]

/-- In a conjunction a member holds if it is no required one that fails and no excluded one. -/
theorem member_within_true (sign : Sign) (holds : Bool) :
    ((member (sign.within true) holds).required &&
      (member (sign.within true) holds).excluded) = holds := by
  cases sign <;> simp [Sign.within, member]

/-- A group is contradictory if both parts are. -/
theorem join_both (first rest : Alternatives) :
    ((first.join rest).required && (first.join rest).excluded) =
      ((first.required && first.excluded) && (rest.required && rest.excluded)) := by
  simp only [Alternatives.join]
  ac_rfl

/-- A conjunction has an operand. -/
theorem AndExpr.items_ne_nil (expr : AndExpr) : expr.items ≠ [] := by
  cases expr <;> simp [AndExpr.items]

/-- A disjunction has an operand. -/
theorem OrExpr.items_ne_nil (expr : OrExpr) : expr.items ≠ [] := by
  cases expr <;> simp [OrExpr.items]

mutual

/-- The tree of an expression has its value. -/
theorem OrExpr.ast_value : ∀ expr : OrExpr,
    expr.ast.value leaf = expr.value leaf ∧ expr.ast.sign = expr.sign ∧
      members leaf false expr.items = expr.alternatives leaf
  | .single operand => by
      obtain ⟨hvalue, hsign⟩ := operand.ast_value
      refine ⟨hvalue, hsign, ?_⟩
      change members leaf false [operand.ast] = _
      rw [members, members_nil, join_none, Sign.within_false, hvalue, hsign, OrExpr.alternatives]
  | .join operand written rest => by
      obtain ⟨hvalue, hsign⟩ := operand.ast_value
      obtain ⟨-, -, hrest⟩ := rest.ast_value
      have hmembers : members leaf false (OrExpr.join operand written rest).items =
          (OrExpr.join operand written rest).alternatives leaf := by
        change members leaf false (operand.ast :: rest.items) = _
        rw [members, Sign.within_false, hvalue, hsign, hrest, OrExpr.alternatives]
      have hast : (OrExpr.join operand written rest).ast =
          .or (OrExpr.join operand written rest).items := by
        obtain ⟨item, items, hitems⟩ := exists_cons_of_ne_nil rest.items_ne_nil
        simp only [OrExpr.ast, OrExpr.items, hitems, collapse]
      refine ⟨?_, ?_, hmembers⟩
      · rw [hast, value, hmembers, OrExpr.alternatives, OrExpr.value]
      · rw [hast]
        rfl

/-- So does the tree of a conjunction. -/
theorem AndExpr.ast_value : ∀ expr : AndExpr,
    expr.ast.value leaf = expr.value leaf ∧ expr.ast.sign = expr.sign
  | .single operand => operand.ast_value
  | .join operand rest => by
      have hast : (AndExpr.join operand rest).ast = .and (AndExpr.join operand rest).items := by
        obtain ⟨item, items, hitems⟩ := exists_cons_of_ne_nil rest.items_ne_nil
        simp only [AndExpr.ast, AndExpr.items, hitems, collapse]
      rw [hast]
      exact ⟨(AndExpr.join operand rest).items_value, rfl⟩

/-- A conjunction has the value of all its operands. -/
theorem AndExpr.items_value : ∀ expr : AndExpr,
    (ParseAst.and expr.items).value leaf = expr.value leaf
  | .single operand => by
      obtain ⟨hvalue, -⟩ := operand.ast_value
      rw [AndExpr.items, value, members, members_nil,
        join_none, member_within_true, hvalue, AndExpr.value]
  | .join operand rest => by
      obtain ⟨hvalue, -⟩ := operand.ast_value
      have hrest := rest.items_value
      rw [value] at hrest ⊢
      rw [AndExpr.items, members, join_both, member_within_true, hvalue, hrest, AndExpr.value]

/-- And that of an operand. -/
theorem UnaryExpr.ast_value : ∀ expr : UnaryExpr,
    expr.ast.value leaf = expr.value leaf ∧ expr.ast.sign = expr.sign
  | .not operand | .minus operand | .plus operand => by
      obtain ⟨hvalue, -⟩ := operand.ast_value
      simp [UnaryExpr.ast, value, UnaryExpr.value, hvalue, ParseAst.sign, UnaryExpr.sign]
  | .word text | .phrase text => by
      simp [UnaryExpr.ast, value, UnaryExpr.value, ParseAst.sign, UnaryExpr.sign]
  | .group inner => by
      obtain ⟨hvalue, hsign, -⟩ := inner.ast_value
      rw [UnaryExpr.value, UnaryExpr.sign]
      exact ⟨hvalue, hsign⟩

end

end Values

/-! ## The query of a tree -/

section Build

variable {δ : Type} (contains : Option Text → Text → Except String (Scorer δ))

/-- Whether a query that may not have been built matches a document. -/
def builtHits (built : Except String (Scorer δ)) (d : δ) : Bool :=
  match built with
  | .ok scorer => scorer.hits d
  | .error _ => false

/-- A term holds if its substring query matches in one of the fields. -/
def termHolds (fields : List (Option Text)) (d : δ) (text : Text) : Bool :=
  fields.any fun field => builtHits (contains field text) d

variable {contains} {scoring : Bool} {fields : List (Option Text)} {d : δ}

variable {config : QueryConfig} {scorers : List (Scorer δ)} {scorer : Scorer δ}
  {items : List ParseAst} {clauses : GroupClauses}

/-- The scorers of a list of configs, one by one. -/
theorem buildAll_cons {configs : List QueryConfig}
    (h : buildAll contains scoring (config :: configs) = .ok scorers) :
    ∃ scorer rest, scorers = scorer :: rest ∧ buildQuery contains scoring config = .ok scorer ∧
      buildAll contains scoring configs = .ok rest := by
  obtain ⟨scorer, hscorer, h⟩ := bind_eq_ok.mp h
  obtain ⟨rest, hrest, h⟩ := bind_eq_ok.mp h
  cases h
  exact ⟨scorer, rest, rfl, hscorer, hrest⟩

/-- No query, no scorer. -/
theorem buildAll_nil (h : buildAll contains scoring [] = .ok scorers) : scorers = [] := by
  cases h
  rfl

/-- The scorers of one kind, of three rows. -/
theorem scorersOf_clauses (musts shoulds mustNots : List (Scorer δ)) (occur : Occur) :
    scorersOf occur (musts.map (fun scorer => (Occur.must, scorer)) ++
      (shoulds.map (fun scorer => (Occur.should, scorer)) ++
        mustNots.map fun scorer => (Occur.mustNot, scorer))) =
      match occur with
      | .must => musts
      | .should => shoulds
      | .mustNot => mustNots := by
  cases occur <;> simp [scorersOf, filter_map, Function.comp_def]

/-- What is known of the members of a group, from their scorers. -/
def Alternatives.ofScorers (d : δ) (musts shoulds mustNots : List (Scorer δ)) : Alternatives where
  required := musts.all fun scorer => scorer.hits d
  excluded := mustNots.all fun scorer => !scorer.hits d
  hasRequired := !musts.isEmpty
  optional := shoulds.any fun scorer => scorer.hits d

/-- A built group matches if its members say so. -/
theorem buildQuery_boolean {must should mustNot : List QueryConfig}
    (h : buildQuery contains scoring (.boolean must should mustNot) = .ok scorer) (d : δ) :
    ∃ musts shoulds mustNots, buildAll contains scoring must = .ok musts ∧
      buildAll contains scoring should = .ok shoulds ∧
      buildAll contains scoring mustNot = .ok mustNots ∧
      scorer.hits d = (ofScorers d musts shoulds mustNots).holds := by
  obtain ⟨musts, hmusts, h⟩ := bind_eq_ok.mp h
  obtain ⟨shoulds, hshoulds, h⟩ := bind_eq_ok.mp h
  obtain ⟨mustNots, hmustNots, h⟩ := bind_eq_ok.mp h
  dsimp only at h
  split at h
  · cases h
  · cases h
    refine ⟨musts, shoulds, mustNots, hmusts, hshoulds, hmustNots, ?_⟩
    rw [Bool.eq_iff_iff, booleanScorer_hits, ClausesHold, scorersOf_clauses, scorersOf_clauses,
      scorersOf_clauses]
    simp only [holds, ofScorers]
    cases musts <;> simp

/-! ### Members added to a group -/

section

variable (scorer : Scorer δ) (musts shoulds mustNots : List (Scorer δ))

/-- One more required scorer. -/
theorem ofScorers_must_cons :
    ofScorers d (scorer :: musts) shoulds mustNots =
      (member .required (scorer.hits d)).join (ofScorers d musts shoulds mustNots) := by
  simp [ofScorers, member, Alternatives.join]

/-- One more optional scorer. -/
theorem ofScorers_should_cons :
    ofScorers d musts (scorer :: shoulds) mustNots =
      (member .bare (scorer.hits d)).join (ofScorers d musts shoulds mustNots) := by
  simp [ofScorers, member, Alternatives.join]

/-- One more excluded scorer. -/
theorem ofScorers_mustNot_cons :
    ofScorers d musts shoulds (scorer :: mustNots) =
      (member .excluded (!scorer.hits d)).join (ofScorers d musts shoulds mustNots) := by
  simp [ofScorers, member, Alternatives.join]

end

/-! ### Leaves -/

/-- A term holds if one of its fields contains it. -/
theorem any_contains {text : Text}
    (h : buildAll contains scoring (fields.map fun field => .contains field text) = .ok scorers) :
    (scorers.any fun scorer => scorer.hits d) = termHolds contains fields d text := by
  induction fields generalizing scorers with
  | nil =>
    obtain rfl := buildAll_nil h
    rfl
  | cons field fields ih =>
    obtain ⟨scorer, rest, rfl, hscorer, hrest⟩ := buildAll_cons h
    rw [buildQuery] at hscorer
    have hhead : builtHits (contains field text) d = scorer.hits d := by
      rw [hscorer]
      rfl
    have hrest := ih hrest
    rw [termHolds] at hrest ⊢
    rw [any_cons, any_cons, hrest, hhead]

/-- A leaf matches if its term holds. -/
theorem leafConfig_value {text : Text}
    (h : buildQuery contains scoring (leafConfig fields text) = .ok scorer) :
    scorer.hits d = termHolds contains fields d text := by
  rcases fields with _ | ⟨field, _ | ⟨field', fields⟩⟩
  · cases h
  · have h : contains field text = .ok scorer := h
    simp [termHolds, builtHits, h]
  · -- several fields: a group of bare members
    obtain ⟨musts, shoulds, mustNots, hmusts, hshoulds, hmustNots, hhits⟩ := buildQuery_boolean h d
    obtain rfl := buildAll_nil hmusts
    obtain rfl := buildAll_nil hmustNots
    rw [hhits, ← any_contains hshoulds]
    simp [holds, ofScorers]

/-! ### Groups -/

variable (contains scoring fields d) in
/-- The query of a tree matches by the tree's value. -/
def LowersTo (ast : ParseAst) : Prop :=
  ∀ config scorer, lower fields ast = .ok config → buildQuery contains scoring config = .ok scorer →
    scorer.hits d = ast.value (termHolds contains fields d)

variable (contains scoring fields d) in
/-- The clauses of a group match by what is known of its members. -/
def GroupLowersTo (items : List ParseAst) : Prop :=
  ∀ conjunctive clauses musts shoulds mustNots, lowerGroup fields conjunctive items = .ok clauses →
    buildAll contains scoring clauses.must = .ok musts →
    buildAll contains scoring clauses.should = .ok shoulds →
    buildAll contains scoring clauses.mustNot = .ok mustNots →
    ofScorers d musts shoulds mustNots = members (termHolds contains fields d) conjunctive items

section

variable {inner : ParseAst} (hinner : LowersTo contains scoring fields d inner)
  (hitems : GroupLowersTo contains scoring fields d items)
include hinner hitems

/-- A negated member. -/
theorem groupLowersTo_not :
    GroupLowersTo contains scoring fields d (.not inner :: items) := by
  intro conjunctive clauses musts shoulds mustNots h hmusts hshoulds hmustNots
  obtain ⟨config, hconfig, h⟩ := bind_eq_ok.mp h
  obtain ⟨rest, hrest, h⟩ := bind_eq_ok.mp h
  cases h
  obtain ⟨scorer, mustNots, rfl, hscorer, hmustNots⟩ := buildAll_cons hmustNots
  rw [ofScorers_mustNot_cons, hitems _ _ _ _ _ hrest hmusts hshoulds hmustNots, members,
    value, hinner _ _ hconfig hscorer]
  cases conjunctive <;> rfl

/-- A member with a sign. -/
theorem groupLowersTo_required :
    GroupLowersTo contains scoring fields d (.required inner :: items) := by
  intro conjunctive clauses musts shoulds mustNots h hmusts hshoulds hmustNots
  obtain ⟨config, hconfig, h⟩ := bind_eq_ok.mp h
  obtain ⟨rest, hrest, h⟩ := bind_eq_ok.mp h
  cases h
  obtain ⟨scorer, musts, rfl, hscorer, hmusts⟩ := buildAll_cons hmusts
  rw [ofScorers_must_cons, hitems _ _ _ _ _ hrest hmusts hshoulds hmustNots, members,
    value, hinner _ _ hconfig hscorer]
  cases conjunctive <;> rfl

end

/-- A bare member, which a conjunction requires. -/
theorem groupLowersTo_bare {item : ParseAst} (hbare : item.sign = .bare)
    (hitem : LowersTo contains scoring fields d item)
    (hitems : GroupLowersTo contains scoring fields d items) :
    GroupLowersTo contains scoring fields d (item :: items) := by
  intro conjunctive clauses musts shoulds mustNots h hmusts hshoulds hmustNots
  have h : (do
      let config ← lower fields item
      let clauses ← lowerGroup fields conjunctive items
      .ok (if conjunctive then ⟨config :: clauses.must, clauses.should, clauses.mustNot⟩
        else ⟨clauses.must, config :: clauses.should, clauses.mustNot⟩)) =
      Except.ok (ε := String) clauses := by
    cases item with
    | leaf text => exact h
    | and items => exact h
    | or items => exact h
    | not inner => cases hbare
    | required inner => cases hbare
  obtain ⟨config, hconfig, h⟩ := bind_eq_ok.mp h
  obtain ⟨rest, hrest, h⟩ := bind_eq_ok.mp h
  cases h
  cases conjunctive with
  | true =>
    obtain ⟨scorer, musts, rfl, hscorer, hmusts⟩ := buildAll_cons hmusts
    rw [ofScorers_must_cons, hitems _ _ _ _ _ hrest hmusts hshoulds hmustNots, members,
      hitem _ _ hconfig hscorer, hbare]
    rfl
  | false =>
    obtain ⟨scorer, shoulds, rfl, hscorer, hshoulds⟩ := buildAll_cons hshoulds
    rw [ofScorers_should_cons, hitems _ _ _ _ _ hrest hmusts hshoulds hmustNots, members,
      hitem _ _ hconfig hscorer, hbare]
    rfl

/-- A group that is accepted. -/
theorem groupConfig_ok (h : groupConfig clauses = .ok config) :
    config = .boolean clauses.must clauses.should clauses.mustNot ∧
      (clauses.must.isEmpty && clauses.should.isEmpty) = false := by
  rw [groupConfig] at h
  split at h
  · cases h
  · rename_i hpositive
    cases h
    exact ⟨rfl, by simpa using hpositive⟩

/-- A group matches by what is known of its members. -/
theorem group_hits {conjunctive : Bool} (hitems : GroupLowersTo contains scoring fields d items)
    (hclauses : lowerGroup fields conjunctive items = .ok clauses)
    (hconfig : groupConfig clauses = .ok config)
    (hscorer : buildQuery contains scoring config = .ok scorer) :
    scorer.hits d = (members (termHolds contains fields d) conjunctive items).holds ∧
      (clauses.should = [] →
        (members (termHolds contains fields d) conjunctive items).hasRequired = true) := by
  obtain ⟨rfl, hpositive⟩ := groupConfig_ok hconfig
  obtain ⟨musts, shoulds, mustNots, hmusts, hshoulds, hmustNots, hhits⟩ :=
    buildQuery_boolean hscorer d
  have hmembers := hitems _ _ _ _ _ hclauses hmusts hshoulds hmustNots
  refine ⟨by rw [hhits, hmembers], fun hnone => ?_⟩
  rw [← hmembers]
  cases hmust : clauses.must with
  | nil => simp [hmust, hnone] at hpositive
  | cons config configs =>
    rw [hmust] at hmusts
    obtain ⟨scorer, musts, rfl, -, -⟩ := buildAll_cons hmusts
    rfl

/-- A conjunction has no optional clauses. -/
theorem lowerGroup_should (h : lowerGroup fields true items = .ok clauses) :
    clauses.should = [] := by
  induction items generalizing clauses with
  | nil =>
    cases h
    rfl
  | cons item items ih =>
    -- every member leaves the optional clauses of the rest as they are
    obtain ⟨rest, hrest, hshould⟩ : ∃ rest, lowerGroup fields true items = .ok rest ∧
        clauses.should = rest.should := by
      cases item <;> simp only [lowerGroup] at h <;> obtain ⟨config, -, h⟩ := bind_eq_ok.mp h <;>
        obtain ⟨rest, hrest, h⟩ := bind_eq_ok.mp h <;>
        cases h <;>
        exact ⟨rest, hrest, rfl⟩
    rw [hshould, ih hrest]

mutual

/-- **A query built from a tree matches by the value of the tree.** -/
theorem lower_value : ∀ ast : ParseAst, LowersTo contains scoring fields d ast
  | .leaf text => by
      intro config scorer hconfig hscorer
      cases hconfig
      rw [leafConfig_value hscorer, value]
  | .required inner => by
      intro config scorer hconfig hscorer
      rw [lower] at hconfig
      rw [lower_value inner config scorer hconfig hscorer, value]
  | .not inner => by
      intro config scorer hconfig hscorer
      cases hconfig
  | .and items => by
      intro config scorer hconfig hscorer
      rw [lower] at hconfig
      obtain ⟨clauses, hclauses, hconfig⟩ := bind_eq_ok.mp hconfig
      obtain ⟨hhits, hrequired⟩ := group_hits (lowerGroup_value items) hclauses hconfig hscorer
      rw [hhits, value, holds, hrequired (lowerGroup_should hclauses)]
      simp
  | .or items => by
      intro config scorer hconfig hscorer
      rw [lower] at hconfig
      obtain ⟨clauses, hclauses, hconfig⟩ := bind_eq_ok.mp hconfig
      obtain ⟨hhits, -⟩ := group_hits (lowerGroup_value items) hclauses hconfig hscorer
      rw [hhits, value]

/-- The clauses of a group, member by member. -/
theorem lowerGroup_value : ∀ items : List ParseAst, GroupLowersTo contains scoring fields d items
  | [] => by
      intro conjunctive clauses musts shoulds mustNots h hmusts hshoulds hmustNots
      cases h
      obtain rfl := buildAll_nil hmusts
      obtain rfl := buildAll_nil hshoulds
      obtain rfl := buildAll_nil hmustNots
      rw [members]
      rfl
  | .not inner :: items => groupLowersTo_not (lower_value inner) (lowerGroup_value items)
  | .required inner :: items => groupLowersTo_required (lower_value inner) (lowerGroup_value items)
  | .leaf text :: items =>
    groupLowersTo_bare rfl (lower_value (.leaf text)) (lowerGroup_value items)
  | .and inner :: items =>
    groupLowersTo_bare rfl (lower_value (.and inner)) (lowerGroup_value items)
  | .or inner :: items => groupLowersTo_bare rfl (lower_value (.or inner)) (lowerGroup_value items)

end

/-- A success is not refused. -/
theorem refuse_eq_ok {α : Type} {result : Except String α} {a : α}
    (h : refuse result = .ok a) : result = .ok a := by
  cases result <;> cases h
  rfl

/-- A refusal is the parser's own error. -/
theorem refuse_ne_outOfFuel {α : Type} (result : Except String α) :
    refuse result ≠ .error .outOfFuel := by
  cases result <;> simp [refuse]

/-- The parser's bound is not what refuses a query. -/
theorem parseBooleanSyntax_ne_outOfFuel (value : Text) :
    parseBooleanSyntax value ≠ .error .outOfFuel := by
  intro h
  rw [parseBooleanSyntax] at h
  split at h
  · cases h
  · rcases bind_eq_error.mp h with h | ⟨⟨ast, toks⟩, -, h⟩
    · exact parseOr_ne_outOfFuel _ h
    · cases toks <;> cases h

/-- **The parser never runs out of fuel.** -/
theorem parseQuery_ne_outOfFuel (contains : Option Text → Text → Except String (Scorer δ))
    (scoring : Bool) (fields : List (Option Text)) (value : Text) :
    parseQuery contains scoring fields value ≠ .error .outOfFuel := by
  intro h
  rcases bind_eq_error.mp h with h | ⟨ast, -, h⟩
  · exact parseBooleanSyntax_ne_outOfFuel value h
  · rcases bind_eq_error.mp h with h | ⟨config, -, h⟩
    · exact refuse_ne_outOfFuel _ h
    · exact refuse_ne_outOfFuel _ h

/-- **A query that is not refused matches a document exactly when the value of the expression it
writes is true for it**: for every expression, however it is laid out. -/
theorem parseQuery_matches (contains : Option Text → Text → Except String (Scorer δ))
    (scoring : Bool) (fields : List (Option Text)) (expr : OrExpr) (value : Text)
    (hlayout : Layout expr.pieces value) :
    (∃ message, parseQuery contains scoring fields value = .error (.refused message)) ∨
      ∃ scorer, parseQuery contains scoring fields value = .ok scorer ∧
        ∀ d, scorer.hits d = expr.value (termHolds contains fields d) := by
  cases h : parseQuery contains scoring fields value with
  | error e =>
    cases e with
    | refused message => exact .inl ⟨message, rfl⟩
    | outOfFuel => exact absurd h (parseQuery_ne_outOfFuel contains scoring fields value)
  | ok scorer =>
    refine .inr ⟨scorer, rfl, fun d => ?_⟩
    obtain ⟨ast, hast, hrest⟩ := bind_eq_ok.mp h
    obtain ⟨config, hconfig, hscorer⟩ := bind_eq_ok.mp hrest
    rw [parseBooleanSyntax_layout hlayout hast] at hconfig
    rw [lower_value expr.ast config scorer (refuse_eq_ok hconfig) (refuse_eq_ok hscorer)]
    exact (expr.ast_value _).1

end Build

/-! ## Runs -/

/-- Documents as texts, and a term as a part of one. -/
def containsText (_ : Option Text) (text : Text) : Except String (Scorer Text) :=
  .ok (.docs fun d => d.tails.any fun tail => text.isPrefixOf tail)

/-- `a OR NOT b`. -/
def orNot : OrExpr :=
  .join (.single (.word ['a'])) true (.single (.single (.not (.word ['b']))))

/-- `(a b) AND NOT "c d"`. -/
def groupAndNot : OrExpr :=
  .single (.join (.group (.join (.single (.word ['a'])) false (.single (.single (.word ['b'])))))
    (.single (.not (.phrase ['c', ' ', 'd']))))

/-- A letter is a word. -/
theorem isWord_letter {c : Char} (hc : c ∈ ['a', 'b']) : IsWord [c] := by
  simp only [mem_cons, not_mem_nil, or_false] at hc
  rcases hc with rfl | rfl <;> exact ⟨isRun_cons (by decide) (by decide), by decide, by decide⟩

/-- A blank ends a word. -/
theorem stops_space (text : Text) : Stops (' ' :: text) := by
  intro c hc
  obtain rfl : ' ' = c := by simpa using hc
  decide

/-- So does the end. -/
theorem stops_nil : Stops [] := by
  intro c hc
  cases hc

def orNotText : Text := ['a', ' ', 'O', 'R', ' ', 'N', 'O', 'T', ' ', 'b']

def groupAndNotText : Text :=
  ['(', 'a', ' ', 'b', ')', ' ', 'A', 'N', 'D', ' '] ++
    ['N', 'O', 'T', ' ', '"', 'c', ' ', 'd', '"']

/-- The first example, written out. -/
theorem layout_orNot : Layout orNot.pieces orNotText := by
  have hb : Layout [.word ['b']] ['b'] := .word 0 (isWord_letter (by decide)) stops_nil .nil
  have hnot : Layout [.not, .word ['b']] ("NOT".toList ++ [' ', 'b']) :=
    .operator .not (stops_space _) (.space (by decide) hb)
  have hor : Layout [.or, .not, .word ['b']] ("OR".toList ++ ' ' :: ("NOT".toList ++ [' ', 'b'])) :=
    .operator .or (stops_space _) (.space (by decide) hnot)
  exact .word 0 (isWord_letter (by decide)) (stops_space _) (.space (by decide) hor)

/-- The second. -/
theorem layout_groupAndNot : Layout groupAndNot.pieces groupAndNotText := by
  have hphrase : Layout [.phrase ['c', ' ', 'd']] ['"', 'c', ' ', 'd', '"'] :=
    .phrase (by simp) (by decide) .nil
  have hnot : Layout [.not, .phrase ['c', ' ', 'd']]
      ("NOT".toList ++ [' ', '"', 'c', ' ', 'd', '"']) :=
    .operator .not (stops_space _) (.space (by decide) hphrase)
  have hand : Layout [.and, .not, .phrase ['c', ' ', 'd']]
      ("AND".toList ++ ' ' :: ("NOT".toList ++ [' ', '"', 'c', ' ', 'd', '"'])) :=
    .operator .and (stops_space _) (.space (by decide) hnot)
  have hb := Layout.word 1 (isWord_letter (by decide : 'b' ∈ ['a', 'b'])) (stops_space _)
    (.space (by decide : isWhitespace ' ' = true) hand)
  exact .opening (.word 0 (isWord_letter (by decide)) (stops_space _) (.space (by decide) hb))

/-- Documents with one of the words, without and with the phrase. -/
theorem parseQuery_matches_group :
    ∃ scorer, parseQuery containsText false [none] groupAndNotText = .ok scorer ∧
      scorer.hits ['x', 'b', 'y'] = true ∧ scorer.hits ['a', 'c', ' ', 'd'] = false := by
  rcases parseQuery_matches containsText false [none] groupAndNot _ layout_groupAndNot with
    ⟨message, h⟩ | ⟨scorer, h, hhits⟩
  · have hok : (parseQuery containsText false [none] groupAndNotText).isOk = true := by
      decide
    rw [h] at hok
    cases hok
  · refine ⟨scorer, h, ?_, ?_⟩
    · rw [hhits]
      decide
    · rw [hhits]
      decide

/-- **A negated alternative excludes**: `a OR NOT b` is accepted and does not match a document with
neither word, though the Boolean value is true for it. -/
theorem or_not_refuses_neither :
    Layout orNot.pieces orNotText ∧
      (parseQuery containsText false [none] orNotText).toOption.map (fun scorer =>
        scorer.hits ['c']) = some false ∧
      orNot.booleanValue (termHolds containsText [none] ['c']) = true := by
  refine ⟨layout_orNot, ?_, ?_⟩
  · decide
  · decide

end Lucivy.Query
