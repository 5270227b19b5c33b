import Lucivy.Query.BooleanWeight
import Lucivy.Tokenizer.Lowercase

/-! # Filters on string fields

The `eq` and the `starts_with` filter of `build_filter_clause` (`lucivy_core/src/query.rs`) on a
field that `build_schema` made from the type `string`: such a field is not tokenized, so that the
one term of a value is the value. The regular expressions are those of an outside crate, which is
a parameter here; what is asked of it is said where it is used.

* `RegexCrate`, `ReadsPrefix` — the crate, and that it reads the filter's pattern as it is meant.
* `startsWithFilter` — the filter, which lowercases its prefix; the terms are not lowercased.
* `startsWith_exact_iff` — **the filter is exact for all values that fit into a term and have no
  line feed behind the prefix, just when the prefix is its own lowercase**. -/

namespace Lucivy.Query.StringFilter

open Lucivy.Foundation Lucivy.Tokenizer List
open String (utf8Len)

/-! ## Patterns -/

/-- The characters that `regex_escape` writes a backslash before. -/
def specialChars : Text :=
  ['\\', '.', '*', '+', '?', '(', ')', '[', ']', '{', '}', '|', '^', '$']

def regexEscape (s : Text) : Text :=
  s.flatMap fun c => if c ∈ specialChars then ['\\', c] else [c]

/-- The crate of regular expressions over terms (`tantivy_fst::Regex`). -/
structure RegexCrate where
  Automaton : Type
  /-- `Regex::new`, with what it says of a pattern that it refuses. -/
  new : Text → Except String Automaton
  /-- The automaton accepts the whole term. -/
  accepts : Automaton → Text → Bool

/-- The filter's pattern for a prefix. -/
def prefixPattern (start : Text) : Text := regexEscape start ++ ['.', '+']

/-- **The crate reads the pattern as it is meant**: an escaped character and one that needs no
escape stand for themselves, `.+` for one or more characters that are no line feed. -/
def RegexCrate.ReadsPrefix (crate : RegexCrate) (start : Text) : Prop :=
  ∀ automaton, crate.new (prefixPattern start) = .ok automaton → ∀ term,
    crate.accepts automaton term = true ↔ ∃ rest, term = start ++ rest ∧ rest ≠ [] ∧ '\n' ∉ rest

/-! ## Filters -/

/-- `MAX_TOKEN_LEN`. -/
def maxTokenLen : Nat := 65530

/-- The terms of a value: the raw tokenizer gives the whole text, and `index_text` drops what is
too long. -/
def stringTerms (value : Text) : List Text :=
  if maxTokenLen < utf8Len value then [] else [value]

/-- `TermQuery`, over the terms of a document. -/
def termQuery (term : Text) : Scorer (List Text) := .docs fun terms => terms.contains term

/-- `RegexQuery`, over the terms of a document. -/
def regexQuery (crate : RegexCrate) (automaton : crate.Automaton) : Scorer (List Text) :=
  .docs fun terms => terms.any (crate.accepts automaton)

/-- `"eq"`. -/
def eqFilter (value : Text) : Scorer (List Text) := termQuery value

/-- `"starts_with"`. -/
def startsWithFilter (crate : RegexCrate) (table : CaseTable) (start : Text) :
    Except String (Scorer (List Text)) :=
  let lower := table.strToLowercase start
  let exact := termQuery lower
  match crate.new (prefixPattern lower) with
  | .error e =>
    .error s!"invalid starts_with pattern: An invalid argument was passed: 'RegexQueryError: {e}'"
  | .ok automaton =>
    .ok (booleanScorer [(.should, exact), (.should, regexQuery crate automaton)] false)

/-! ## What a prefix filter matches -/

/-- **The filter agrees with the value**: there is one, it matches the value exactly when the value
begins with the prefix, and if `eq` matches it for the value, then it does for the value's
prefix. -/
def StartsWithExact (crate : RegexCrate) (table : CaseTable) (start value : Text) : Prop :=
  ∃ scorer, startsWithFilter crate table start = .ok scorer ∧
    (scorer.hits (stringTerms value) = true ↔ start <+: value) ∧
    ((eqFilter value).hits (stringTerms value) = true → start <+: value →
      scorer.hits (stringTerms value) = true)

section Matches

variable {crate : RegexCrate} {table : CaseTable} {start : Text}
  (hreads : crate.ReadsPrefix (table.strToLowercase start)) {automaton : crate.Automaton}
  (hnew : crate.new (prefixPattern (table.strToLowercase start)) = .ok automaton)
include hreads hnew

/-- **What the filter matches**: the values that begin with the lowercased prefix and have no line
feed behind it. -/
theorem startsWithFilter_eq : ∃ scorer, startsWithFilter crate table start = .ok scorer ∧
    ∀ value, scorer.hits (stringTerms value) = true ↔ utf8Len value ≤ maxTokenLen ∧
      ∃ rest, value = table.strToLowercase start ++ rest ∧ '\n' ∉ rest := by
  have hok : startsWithFilter crate table start = .ok (booleanScorer
      [(.should, termQuery (table.strToLowercase start)),
        (.should, regexQuery crate automaton)] false) := by
    rw [startsWithFilter, hnew]
  refine ⟨_, hok, fun value => ?_⟩
  rw [booleanScorer_hits]
  by_cases hlong : maxTokenLen < utf8Len value
  · simp [ClausesHold, scorersOf, termQuery, regexQuery, Scorer.hits, stringTerms, hlong]
  · have hunion : (table.strToLowercase start = value ∨ crate.accepts automaton value = true) ↔
        ∃ rest, value = table.strToLowercase start ++ rest ∧ '\n' ∉ rest := by
      rw [hreads automaton hnew]
      constructor
      · rintro (heq | ⟨rest, hrest, -, hline⟩)
        · exact ⟨[], by rw [append_nil, heq], not_mem_nil⟩
        · exact ⟨rest, hrest, hline⟩
      · rintro ⟨rest, hrest, hline⟩
        by_cases hempty : rest = []
        · exact .inl (by rw [hrest, hempty, append_nil])
        · exact .inr ⟨rest, hrest, hempty, hline⟩
    rw [← hunion]
    simp [ClausesHold, scorersOf, termQuery, regexQuery, Scorer.hits, stringTerms, hlong,
      Nat.le_of_not_lt hlong]

/-- The filter agrees with a value just when what it matches is what begins with the prefix. -/
theorem startsWithExact_iff {value : Text} : StartsWithExact crate table start value ↔
    (start <+: value ↔ utf8Len value ≤ maxTokenLen ∧
      ∃ rest, value = table.strToLowercase start ++ rest ∧ '\n' ∉ rest) := by
  obtain ⟨scorer, hok, hhits⟩ := startsWithFilter_eq hreads hnew
  simp only [StartsWithExact, hok, Except.ok.injEq, exists_eq_left', hhits]
  exact ⟨fun h => h.1.symm, fun h => ⟨h.symm, fun _ hstart => h.mp hstart⟩⟩

/-- **When `starts_with` is exact.** Let the crate accept the pattern and the prefix fit into a
term, lowercased or not. For all values that fit into a term and have no line feed behind the
prefix the filter agrees with the value, just when the prefix is its own lowercase. -/
theorem startsWith_exact_iff (hfits : utf8Len start ≤ maxTokenLen)
    (hlower : utf8Len (table.strToLowercase start) ≤ maxTokenLen) :
    (∀ value, utf8Len value ≤ maxTokenLen → (∀ rest, value = start ++ rest → '\n' ∉ rest) →
      StartsWithExact crate table start value) ↔ table.strToLowercase start = start := by
  simp only [startsWithExact_iff hreads hnew]
  constructor
  · intro h
    -- the prefix itself, as a value, begins with its lowercase
    obtain ⟨-, rest, hrest, -⟩ := (h start hfits fun rest hrest => by
      rw [self_eq_append_right.mp hrest]
      exact not_mem_nil).mp (prefix_refl _)
    -- and its lowercase, as a value, with the prefix
    have hprefix : start <+: table.strToLowercase start := by
      refine (h _ hlower fun rest' hrest' => ?_).mpr ⟨hlower, [], by simp, not_mem_nil⟩
      have hlen := congrArg length hrest
      have hlen' := congrArg length hrest'
      rw [length_append] at hlen hlen'
      have hnil : rest' = [] := length_eq_zero_iff.mp (by omega)
      simp [hnil]
    exact IsPrefix.eq_of_length_le ⟨rest, hrest.symm⟩ hprefix.length_le
  · intro hsame value hvalue hline
    rw [hsame]
    constructor
    · rintro ⟨rest, rfl⟩
      exact ⟨hvalue, rest, rfl, hline rest rfl⟩
    · rintro ⟨-, rest, rfl, -⟩
      exact prefix_append ..

end Matches

/-- A crate that reads every pattern as that of one prefix. -/
def onePrefixCrate (start : Text) : RegexCrate where
  Automaton := Unit
  new _ := .ok ()
  accepts _ term :=
    start.isPrefixOf term && term ≠ start && !(term.drop start.length).contains '\n'

theorem readsPrefix_onePrefixCrate (start : Text) : (onePrefixCrate start).ReadsPrefix start := by
  intro automaton _ term
  simp only [onePrefixCrate, Bool.and_eq_true, isPrefixOf_iff_prefix, decide_eq_true_eq]
  constructor
  · rintro ⟨⟨⟨rest, rfl⟩, hne⟩, hline⟩
    exact ⟨rest, rfl, fun hnil => hne (by rw [hnil, append_nil]), by simpa using hline⟩
  · rintro ⟨rest, rfl, hne, hline⟩
    exact ⟨⟨prefix_append .., fun h => hne (append_right_eq_self.mp h)⟩, by simpa using hline⟩

/-- A lowercase prefix with a character that is escaped. -/
theorem startsWith_exact_lowercase :
    StartsWithExact (onePrefixCrate ['a', '.']) asciiCase ['a', '.'] ['a', '.', 'B'] :=
  (@startsWith_exact_iff (onePrefixCrate _) asciiCase _ (readsPrefix_onePrefixCrate _) () rfl
    (by decide) (by decide)).mpr (by decide) _ (by decide) (by simp)

/-- **A capital letter is never found**: `Foo` does not begin with `Foo`, although `eq` matches. -/
theorem startsWith_misses : ∃ scorer,
    startsWithFilter (onePrefixCrate ['f', 'o', 'o']) asciiCase ['F', 'o', 'o'] = .ok scorer ∧
      (onePrefixCrate ['f', 'o', 'o']).ReadsPrefix (asciiCase.strToLowercase ['F', 'o', 'o']) ∧
      (eqFilter ['F', 'o', 'o']).hits (stringTerms ['F', 'o', 'o']) = true ∧
      scorer.hits (stringTerms ['F', 'o', 'o']) = false :=
  ⟨_, rfl, readsPrefix_onePrefixCrate _, by decide⟩

end Lucivy.Query.StringFilter
