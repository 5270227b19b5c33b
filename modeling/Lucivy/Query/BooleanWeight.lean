import Mathlib.Data.List.Basic

/-! # Boolean queries

`BooleanQuery::new` and the scorer of `BooleanWeight` (`src/query/boolean_query/`), as far as the
documents go that a query matches; scores are left out. A scorer is known by its documents, but for
the two kinds the weight takes out of its lists before it combines them: the one that matches
nothing and the one that matches everything. A scorer that happens to match nothing or everything
may be of either sort, and the result does not depend on it.

* `minimumRequired` — how many of the optional clauses have to match.
* `complexScorer`, `weightScorer` — the scorer of a weight.
* `booleanScorer_hits` — **every required clause matches, no excluded one does, and, if nothing is
  required, some optional one does.** -/

namespace Lucivy.Query

open List

inductive Occur where
  | must
  | should
  | mustNot
deriving DecidableEq, Repr

/-- A scorer, by the documents it goes through. -/
inductive Scorer (δ : Type) where
  /-- `EmptyScorer`. -/
  | empty
  /-- `AllScorer`. -/
  | all
  /-- Any other. -/
  | docs (holds : δ → Bool)

open Scorer

namespace Scorer

variable {δ : Type}

/-- The document is among the scorer's. -/
def hits : Scorer δ → δ → Bool
  | .empty, _ => false
  | .all, _ => true
  | .docs holds, d => holds d

/-- `EmptyScorer`, by its type. -/
def isEmptyScorer : Scorer δ → Bool
  | .empty => true
  | _ => false

/-- `AllScorer`, by its type. -/
def isAllScorer : Scorer δ → Bool
  | .all => true
  | _ => false

/-- Neither of the two. -/
def isOther : Scorer δ → Bool
  | .docs _ => true
  | _ => false

end Scorer

variable {δ : Type}

/-- `scorer_union`: a single scorer stays what it is. -/
def scorerUnion : List (Scorer δ) → Scorer δ
  | [scorer] => scorer
  | scorers => .docs fun d => scorers.any fun scorer => scorer.hits d

def intersectScorers : List (Scorer δ) → Scorer δ
  | [] => .empty
  | [scorer] => scorer
  | scorers => .docs fun d => scorers.all fun scorer => scorer.hits d

def scorerDisjunction (minimum : Nat) : List (Scorer δ) → Scorer δ
  | [scorer] => scorer
  | scorers => .docs fun d => minimum ≤ scorers.countP fun scorer => scorer.hits d

def exclude (included excluded : Scorer δ) : Scorer δ :=
  .docs fun d => included.hits d && !excluded.hits d

def effectiveMustScorer (must : List (Scorer δ)) (removedAll : Nat) : Option (Scorer δ) :=
  match must with
  | [] => if 0 < removedAll then some .all else none
  | must => some (intersectScorers must)

def effectiveShouldScorerForUnion (should : Scorer δ) (removedAll : Nat) (scoring : Bool) :
    Scorer δ :=
  if 0 < removedAll then if scoring then scorerUnion [should, .all] else .all else should

/-- `ShouldScorersCombinationMethod`. -/
inductive ShouldMethod (δ : Type) where
  /-- No influence. -/
  | ignored
  /-- On the score only. -/
  | optional (scorer : Scorer δ)
  /-- On the documents. -/
  | required (scorer : Scorer δ)

/-- The scorers of one kind of clause. -/
def scorersOf (occur : Occur) (clauses : List (Occur × Scorer δ)) : List (Scorer δ) :=
  (clauses.filter fun clause => clause.1 = occur).map Prod.snd

/-- How the include part is put together from the `must` scorers and the method; the counts are of
the scorers of everything that were taken out. -/
def includeScorer (method : ShouldMethod δ) (must : List (Scorer δ)) (mustAll shouldAll : Nat)
    (scoring : Bool) : Scorer δ :=
  match method with
  | .ignored => (effectiveMustScorer must (mustAll + shouldAll)).getD .empty
  | .optional should =>
    match effectiveMustScorer must mustAll with
    | none => effectiveShouldScorerForUnion should shouldAll scoring
    | some must => must
  | .required should =>
    match effectiveMustScorer must mustAll with
    | none => should
    | some must => intersectScorers [must, should]

/-- `BooleanWeight::complex_scorer`. -/
def complexScorer (clauses : List (Occur × Scorer δ)) (minimum : Nat) (scoring : Bool) :
    Scorer δ :=
  let musts := scorersOf .must clauses
  let shoulds := scorersOf .should clauses
  let mustNots := scorersOf .mustNot clauses
  let must := musts.filter isOther
  let should := shoulds.filter isOther
  let mustNot := mustNots.filter isOther
  let mustAll := musts.countP isAllScorer
  let shouldAll := shoulds.countP isAllScorer
  if musts.any isEmptyScorer then .empty
  else if mustNots.any isAllScorer then .empty
  else
    let effective := minimum - shouldAll
    if should.length < effective then .empty
    else
      let included :=
        if effective = 0 then
          if should.isEmpty then includeScorer .ignored must mustAll shouldAll scoring
          else includeScorer (.optional (scorerUnion should)) must mustAll shouldAll scoring
        else if effective = 1 then
          includeScorer (.required (scorerUnion should)) must mustAll shouldAll scoring
        else if should.length = effective then
          includeScorer .ignored (must ++ should) mustAll shouldAll scoring
        else
          includeScorer (.required (scorerDisjunction effective should)) must mustAll
            shouldAll scoring
      if mustNot.isEmpty then included else exclude included (scorerUnion mustNot)

/-- The scorer of a `BooleanWeight`. -/
def weightScorer (clauses : List (Occur × Scorer δ)) (minimum : Nat) (scoring : Bool) : Scorer δ :=
  match clauses with
  | [] => .empty
  | [clause] => if clause.1 = .mustNot then .empty else clause.2
  | clauses => complexScorer clauses minimum scoring

/-- The loop of `BooleanQuery::new`, which stops at a clause that is not optional. -/
def minimumRequired : List Occur → Nat → Nat
  | [], required => required
  | .should :: occurs, _ => minimumRequired occurs 1
  | .must :: _, _ => 0
  | .mustNot :: _, _ => 0

/-- **The scorer of `BooleanQuery::new`.** -/
def booleanScorer (clauses : List (Occur × Scorer δ)) (scoring : Bool) : Scorer δ :=
  weightScorer clauses (minimumRequired (clauses.map Prod.fst) 0) scoring

/-! ## The documents of a combination -/

section Documents

variable {scorers : List (Scorer δ)} {d : δ}

theorem hits_scorerUnion (scorers : List (Scorer δ)) (d : δ) :
    (scorerUnion scorers).hits d = scorers.any fun scorer => scorer.hits d := by
  rw [scorerUnion.eq_def]
  split
  · simp
  · rfl

theorem hits_intersectScorers (hne : scorers ≠ []) (d : δ) :
    (intersectScorers scorers).hits d = scorers.all fun scorer => scorer.hits d := by
  rw [intersectScorers.eq_def]
  split
  · exact absurd rfl hne
  · simp
  · rfl

theorem hits_exclude (included excluded : Scorer δ) (d : δ) :
    (exclude included excluded).hits d = (included.hits d && !excluded.hits d) := rfl

/-- Some scorer of a list matches: one of everything, or one of the others. -/
theorem any_hits_iff (scorers : List (Scorer δ)) (d : δ) :
    (∃ scorer ∈ scorers, scorer.hits d = true) ↔
      0 < scorers.countP isAllScorer ∨ ∃ scorer ∈ scorers.filter isOther, scorer.hits d = true := by
  rw [countP_pos_iff, ← exists_or]
  refine exists_congr fun scorer => ?_
  cases scorer <;> simp [isAllScorer, isOther, hits]

/-- All scorers of a list match: there is none of nothing, and the others do. -/
theorem all_hits_iff (scorers : List (Scorer δ)) (d : δ) :
    (∀ scorer ∈ scorers, scorer.hits d = true) ↔
      scorers.any isEmptyScorer = false ∧
        ∀ scorer ∈ scorers.filter isOther, scorer.hits d = true := by
  rw [any_eq_false, ← forall_and]
  refine forall_congr' fun scorer => ?_
  cases scorer <;> simp [isEmptyScorer, isOther, hits]

/-- The effective `must` scorer is there if there are clauses, and matches if they all do. -/
theorem effectiveMustScorer_eq (musts : List (Scorer δ)) :
    (musts.filter isOther = [] ∧ musts.countP isAllScorer = 0 ∧
      effectiveMustScorer (musts.filter isOther) (musts.countP isAllScorer) = none) ∨
    (musts ≠ [] ∧ ∃ scorer, effectiveMustScorer (musts.filter isOther)
        (musts.countP isAllScorer) = some scorer ∧
      ∀ d, scorer.hits d = true ↔ ∀ other ∈ musts.filter isOther, other.hits d = true) := by
  cases hothers : musts.filter isOther with
  | nil =>
    by_cases hall : 0 < musts.countP isAllScorer
    · refine .inr ⟨?_, .all, by rw [effectiveMustScorer, if_pos hall],
        fun d => by simp [Scorer.hits]⟩
      rintro rfl
      exact absurd hall (by simp)
    · exact .inl ⟨rfl, by omega, by rw [effectiveMustScorer, if_neg hall]⟩
  | cons other others =>
    refine .inr ⟨?_, _, rfl, fun d => ?_⟩
    · rintro rfl
      cases hothers
    · rw [hits_intersectScorers (cons_ne_nil _ _), all_eq_true]

end Documents

/-! ## The documents of a weight -/

section Weight

variable {clauses : List (Occur × Scorer δ)} {scoring : Bool} {d : δ}

theorem mem_scorersOf {occur : Occur} {scorer : Scorer δ} :
    scorer ∈ scorersOf occur clauses ↔ (occur, scorer) ∈ clauses := by
  simp [scorersOf]

/-- The loop yields 1 if all clauses are optional, and 0 otherwise. -/
theorem minimumRequired_eq (occurs : List Occur) (required : Nat) :
    (∀ occur ∈ occurs, occur = .should) ∧
        minimumRequired occurs required = (if occurs = [] then required else 1) ∨
      (∃ occur ∈ occurs, occur ≠ .should) ∧ minimumRequired occurs required = 0 := by
  induction occurs generalizing required with
  | nil => exact .inl ⟨forall_mem_nil _, rfl⟩
  | cons occur occurs ih =>
    cases occur with
    | must => exact .inr ⟨⟨.must, mem_cons_self, by decide⟩, rfl⟩
    | mustNot => exact .inr ⟨⟨.mustNot, mem_cons_self, by decide⟩, rfl⟩
    | should =>
      rcases ih 1 with ⟨hall, hmin⟩ | ⟨⟨occur, hoccur, hne⟩, hmin⟩
      · refine .inl ⟨forall_mem_cons.mpr ⟨rfl, hall⟩, ?_⟩
        rw [minimumRequired, hmin]
        split <;> simp
      · exact .inr ⟨⟨occur, mem_cons_of_mem _ hoccur, hne⟩, hmin⟩

/-- A list without scorers of nothing is empty if nothing else is in it. -/
theorem eq_nil_of_special {musts : List (Scorer δ)} (hempty : musts.any isEmptyScorer = false)
    (hothers : musts.filter isOther = []) (hall : musts.countP isAllScorer = 0) :
    musts = [] := by
  refine eq_nil_iff_forall_not_mem.mpr fun scorer hscorer => ?_
  cases scorer with
  | empty => exact any_eq_false.mp hempty _ hscorer rfl
  | all => exact countP_eq_zero.mp hall _ hscorer rfl
  | docs holds =>
    have hmem : Scorer.docs holds ∈ musts.filter isOther := mem_filter.mpr ⟨hscorer, rfl⟩
    rw [hothers] at hmem
    exact not_mem_nil hmem

section Include

variable {musts : List (Scorer δ)} {should : Scorer δ} {shouldAll : Nat}

/-- The optional clauses on the score: they decide if nothing is required. -/
theorem includeScorer_optional_hits (hempty : musts.any isEmptyScorer = false) :
    (includeScorer (.optional should) (musts.filter isOther)
        (musts.countP isAllScorer) shouldAll scoring).hits d = true ↔
      (∀ other ∈ musts.filter isOther, other.hits d = true) ∧
        (musts = [] → 0 < shouldAll ∨ should.hits d = true) := by
  rcases effectiveMustScorer_eq musts with ⟨hothers, hall, hnone⟩ | ⟨hne, scorer, hsome, hhits⟩
  · have hmusts := eq_nil_of_special hempty hothers hall
    have hinclude : includeScorer (.optional should) (musts.filter isOther)
        (musts.countP isAllScorer) shouldAll scoring =
          effectiveShouldScorerForUnion should shouldAll scoring := by
      simp only [includeScorer, hnone]
    rw [hinclude, effectiveShouldScorerForUnion]
    simp only [hmusts]
    by_cases hpos : 0 < shouldAll
    · cases scoring
      · simp [hpos, Scorer.hits]
      · rw [if_pos hpos, if_pos rfl, hits_scorerUnion]
        simp [hpos, Scorer.hits]
    · simp [hpos]
  · simp [includeScorer, hsome, hhits, hne]

/-- The optional clauses on the documents, where nothing is required. -/
theorem includeScorer_required_hits :
    (includeScorer (.required should) ([] : List (Scorer δ)) 0 shouldAll scoring).hits d =
      should.hits d := rfl

/-- No optional clause but those of everything. -/
theorem includeScorer_ignored_hits (hempty : musts.any isEmptyScorer = false) :
    (includeScorer .ignored (musts.filter isOther) (musts.countP isAllScorer) shouldAll
        scoring).hits d = true ↔
      (∀ other ∈ musts.filter isOther, other.hits d = true) ∧ (musts = [] → 0 < shouldAll) := by
  rw [includeScorer]
  cases hothers : musts.filter isOther with
  | nil =>
    rw [effectiveMustScorer]
    by_cases hpos : 0 < musts.countP isAllScorer + shouldAll
    · rw [if_pos hpos]
      simp only [Option.getD_some, Scorer.hits, not_mem_nil, true_iff]
      refine ⟨fun _ h => h.elim, ?_⟩
      rintro rfl
      simpa using hpos
    · have hall : musts.countP isAllScorer = 0 := by omega
      have hmusts := eq_nil_of_special hempty hothers hall
      rw [if_neg hpos]
      simp only [hmusts, true_imp_iff]
      constructor
      · intro h
        cases h
      · omega
  | cons other others =>
    have hne : musts ≠ [] := by
      rintro rfl
      cases hothers
    simp [effectiveMustScorer, hits_intersectScorers (cons_ne_nil _ _), hne]

end Include

/-- What the clauses say about a document. -/
def ClausesHold (clauses : List (Occur × Scorer δ)) (d : δ) : Prop :=
  (∀ scorer ∈ scorersOf .must clauses, scorer.hits d = true) ∧
    (∀ scorer ∈ scorersOf .mustNot clauses, ¬ scorer.hits d = true) ∧
    (scorersOf .must clauses = [] → ∃ scorer ∈ scorersOf .should clauses, scorer.hits d = true)

/-- The excluded part: no scorer of everything, and none of the others matches. -/
theorem none_hits_iff (scorers : List (Scorer δ)) (d : δ) :
    (∀ scorer ∈ scorers, ¬ scorer.hits d = true) ↔
      scorers.any isAllScorer = false ∧
        ∀ scorer ∈ scorers.filter isOther, ¬ scorer.hits d = true := by
  rw [any_eq_false, ← forall_and]
  refine forall_congr' fun scorer => ?_
  cases scorer <;> simp [isAllScorer, isOther, hits]

theorem complexScorer_hits {minimum : Nat}
    (hminimum : minimum = 0 ∨ minimum = 1 ∧ scorersOf .must clauses = []) :
    (complexScorer clauses minimum scoring).hits d = true ↔ ClausesHold clauses d := by
  rw [ClausesHold, all_hits_iff, none_hits_iff, any_hits_iff]
  unfold complexScorer
  generalize hmusts : scorersOf .must clauses = musts at *
  generalize scorersOf .should clauses = shoulds
  generalize scorersOf .mustNot clauses = mustNots
  by_cases hempty : musts.any isEmptyScorer = true
  · simp [hempty, Scorer.hits]
  rw [if_neg hempty]
  rw [Bool.not_eq_true] at hempty
  by_cases hexcluded : mustNots.any isAllScorer = true
  · simp [hexcluded, Scorer.hits]
  rw [if_neg hexcluded]
  rw [Bool.not_eq_true] at hexcluded
  -- what the include part says, whichever way it was put together
  have key : ∀ included : Scorer δ,
      (included.hits d = true ↔
        (∀ other ∈ musts.filter isOther, other.hits d = true) ∧
          (musts = [] → 0 < shoulds.countP isAllScorer ∨
            ∃ scorer ∈ shoulds.filter isOther, scorer.hits d = true)) →
      ((if (mustNots.filter isOther).isEmpty = true then included
          else exclude included (scorerUnion (mustNots.filter isOther))).hits d = true ↔
        (musts.any isEmptyScorer = false ∧ ∀ scorer ∈ musts.filter isOther, scorer.hits d = true) ∧
          (mustNots.any isAllScorer = false ∧
            ∀ scorer ∈ mustNots.filter isOther, ¬ scorer.hits d = true) ∧
          (musts = [] → 0 < shoulds.countP isAllScorer ∨
            ∃ scorer ∈ shoulds.filter isOther, scorer.hits d = true)) := by
    intro included hincluded
    split
    · next hnone =>
      rw [hincluded, isEmpty_iff.mp hnone]
      simp [hempty, hexcluded]
    · rw [hits_exclude, hits_scorerUnion, Bool.and_eq_true, hincluded, Bool.not_eq_true',
        any_eq_false, hempty, hexcluded]
      tauto
  rcases hminimum with rfl | ⟨rfl, rfl⟩
  · -- nothing has to match: the optional clauses decide only if nothing is required
    rw [Nat.zero_sub, if_neg (Nat.not_lt_zero _), if_pos rfl]
    apply key
    split
    · next hnone =>
      rw [includeScorer_ignored_hits hempty, isEmpty_iff.mp hnone]
      simp
    · rw [includeScorer_optional_hits hempty, hits_scorerUnion, any_eq_true]
  · -- only optional clauses: one of them has to match, unless one matches everything
    by_cases hall : 0 < shoulds.countP isAllScorer
    · rw [show 1 - shoulds.countP isAllScorer = 0 by omega, if_neg (Nat.not_lt_zero _), if_pos rfl]
      apply key
      split
      · rw [includeScorer_ignored_hits hempty]
        simp [hall]
      · rw [includeScorer_optional_hits hempty]
        simp [hall]
    · rw [show 1 - shoulds.countP isAllScorer = 1 by omega]
      by_cases hothers : (shoulds.filter isOther).length < 1
      · rw [Nat.lt_one_iff, length_eq_zero_iff] at hothers
        simp [Scorer.hits, hothers, hall]
      · rw [if_neg hothers]
        apply key
        rw [if_neg Nat.one_ne_zero, if_pos rfl, filter_nil, countP_nil, includeScorer_required_hits,
          hits_scorerUnion,
          any_eq_true]
        simp [hall]

/-- **The documents of a Boolean query.** -/
theorem booleanScorer_hits (clauses : List (Occur × Scorer δ)) (scoring : Bool) (d : δ) :
    (booleanScorer clauses scoring).hits d = true ↔ ClausesHold clauses d := by
  rw [booleanScorer, weightScorer.eq_def]
  split
  · simp [Scorer.hits, ClausesHold, scorersOf]
  · next clause =>
    obtain ⟨occur, scorer⟩ := clause
    cases occur <;> simp [ClausesHold, scorersOf, Scorer.hits]
  · refine complexScorer_hits ?_
    rcases minimumRequired_eq (clauses.map Prod.fst) 0 with ⟨hall, hminimum⟩ | ⟨-, hminimum⟩
    · rw [hminimum]
      split
      · exact .inl rfl
      · refine .inr ⟨rfl, eq_nil_iff_forall_not_mem.mpr fun scorer hscorer => ?_⟩
        have hmust := hall _ (mem_map_of_mem (mem_scorersOf.mp hscorer))
        cases hmust
    · exact .inl hminimum

/-- **A Boolean query is a set of clauses**: their order, repeated clauses and whether scores are
asked for do not change its documents. -/
theorem booleanScorer_set {clauses others : List (Occur × Scorer δ)}
    (hsame : ∀ clause, clause ∈ others ↔ clause ∈ clauses) (scoring scoring' : Bool) (d : δ) :
    (booleanScorer others scoring).hits d = (booleanScorer clauses scoring').hits d := by
  rw [Bool.eq_iff_iff]
  simp only [booleanScorer_hits, ClausesHold, eq_nil_iff_forall_not_mem, mem_scorersOf, hsame]

theorem booleanScorer_set_repeated :
    (booleanScorer [(.mustNot, .empty), (.should, .docs (· == 1)), (.mustNot, .empty)] true).hits
      1 =
      (booleanScorer [(.should, .docs (· == 1)), (.mustNot, .empty)] false).hits 1 :=
  booleanScorer_set (by grind) true false 1

end Weight

end Lucivy.Query
