import Mathlib.Algebra.GroupWithZero.Nat
import Mathlib.Algebra.Order.BigOperators.Group.List
import Mathlib.Algebra.Order.Group.Nat
import Mathlib.Data.List.Induction
import Mathlib.Logic.Function.Basic

/-! # The document frequencies of suffix queries

What `BuildWeightNode` (`lucivy_core/src/search_dag.rs`) makes of the frequencies that the suffix
queries of a Boolean query counted in their prescans: every leaf writes its own under a text, the
`cache_key`, into one map, and every leaf reads the map back. A federated search overrides them with
the map that `ExportableStats::merge` added up from the nodes' exports.

What a leaf matches in a segment is the parameter `prescan`, with any filter in the segment.

* `cacheKey` — the keys; that of a `contains` leaf leaves out how it is anchored.
* `buildWeight`, `scoringDocFreq` — the leaves of the weight, and the frequency each scores with.
* `leaf_frequencies_iff` — **a leaf scores with its own frequency exactly when the last leaf of its
  key matches as many documents**, but for a leaf that matches nothing, or one document list that
  stands in for a frequency of zero. Merged exports always give what one node would count. -/

namespace Lucivy.Query.LeafFrequencies

open List

/-- `FuzzyMetric`, over the type of the similarities. -/
inductive FuzzyMetric (σ : Type) where
  | levenshtein
  | jaroWinkler (minSimilarity : σ)
deriving DecidableEq

/-- A suffix query: `ContainsQueryV3` (also for `startsWith` and exact terms), `FuzzyQueryV3` or
`RegexQueryV3`. -/
inductive SuffixLeaf (σ : Type) where
  | contains (field : Nat) (queryText : String) (anchorStart exactMatch strictSeparators : Bool)
  | fuzzy (field : Nat) (queryText : String) (distance : Nat) (strictSeparators : Bool)
      (metric : FuzzyMetric σ)
  | regex (field : Nat) (pattern : String) (anchorStart : Bool)
deriving DecidableEq

/-- A query, as far as it holds suffix queries. -/
inductive QueryTree (σ : Type) where
  | leaf (leaf : SuffixLeaf σ)
  /-- Any other query that is no `BooleanQuery`. -/
  | other
  | boolean (subqueries : List (QueryTree σ))

mutual

/-- The suffix queries, in the order in which a `BooleanQuery` visits them. -/
def QueryTree.leaves {σ : Type} : QueryTree σ → List (SuffixLeaf σ)
  | .leaf leaf => [leaf]
  | .other => []
  | .boolean subqueries => leavesOf subqueries

/-- The suffix queries of a row of queries. -/
def leavesOf {σ : Type} : List (QueryTree σ) → List (SuffixLeaf σ)
  | [] => []
  | query :: queries => query.leaves ++ leavesOf queries

end

/-- A suffix query with its `global_doc_freq`. -/
structure LeafState (σ : Type) where
  leaf : SuffixLeaf σ
  globalDocFreq : Nat
deriving DecidableEq

/-- The maps of frequencies by key. -/
abbrev DocFreqs := String → Option Nat

variable {σ ι : Type} (digits : σ → String) (prescan : SuffixLeaf σ → ι → List (Nat × Nat))

/-- `cache_key` of the three queries; `digits` writes a similarity with three decimals. -/
def cacheKey : SuffixLeaf σ → String
  | .contains field text _ _ _ => s!"{field}:{text}"
  | .fuzzy field text distance _ .levenshtein => s!"{field}:fuzzy:{text}:{distance}"
  | .fuzzy field text distance _ (.jaroWinkler similarity) =>
    s!"{field}:fuzzy:{text}:{distance}:jw{digits similarity}"
  | .regex field pattern _ => s!"{field}:regex:{pattern}"

/-- The documents a leaf matches in the segments. -/
def docFreq (segments : List ι) (leaf : SuffixLeaf σ) : Nat :=
  (segments.map fun segment => (prescan leaf segment).length).sum

/-- `prescan_segments`: from zero on, `record_prescan` for each segment. -/
def prescanSegments (segments : List ι) (leaf : SuffixLeaf σ) : LeafState σ :=
  ⟨leaf, segments.foldl (fun freq segment => freq + (prescan leaf segment).length) 0⟩

/-- `collect_prescan_doc_freqs`: a later leaf overwrites an earlier one of its key. -/
def collectPrescanDocFreqs (query : List (LeafState σ)) (out : DocFreqs) : DocFreqs :=
  query.foldl (fun out q => Function.update out (cacheKey digits q.leaf) (some q.globalDocFreq)) out

def setGlobalContainsDocFreqs (freqs : DocFreqs) (q : LeafState σ) : LeafState σ :=
  match freqs (cacheKey digits q.leaf) with
  | some freq => { q with globalDocFreq := freq }
  | none => q

/-- `*total.entry(key).or_insert(0) += freq`, for every entry of the second map. -/
def addFreqs (total more : DocFreqs) : DocFreqs := fun key =>
  match more key with
  | some freq => some ((total key).getD 0 + freq)
  | none => total key

/-- The map of `ExportableStats::merge`. -/
def merge (stats : List DocFreqs) : DocFreqs := stats.foldl addFreqs fun _ => none

/-- The map of `export_stats`. -/
def exportStats (tree : QueryTree σ) (segments : List ι) : DocFreqs :=
  collectPrescanDocFreqs digits (tree.leaves.map (prescanSegments prescan segments)) fun _ => none

/-- `BuildWeightNode::execute`. An empty map sets nothing, so that the source's tests for one are
left out. -/
def buildWeight (tree : QueryTree σ) (segments : List ι) (globalStats : Option DocFreqs) :
    List (LeafState σ) :=
  let query := tree.leaves.map (prescanSegments prescan segments)
  let sfxFreqs := addFreqs (fun _ => none) (collectPrescanDocFreqs digits query fun _ => none)
  let query := query.map (setGlobalContainsDocFreqs digits sfxFreqs)
  match globalStats with
  | some freqs => query.map (setGlobalContainsDocFreqs digits freqs)
  | none => query

/-- The frequency that `SfxWeight` scores a segment with: that of the segment where there is no
global one. -/
def scoringDocFreq (q : LeafState σ) (segment : ι) : Nat :=
  if 0 < q.globalDocFreq then q.globalDocFreq else (prescan q.leaf segment).length

/-- The leaf that writes the key of `leaf` last. -/
def lastLeaf (leaves : List (SuffixLeaf σ)) (leaf : SuffixLeaf σ) : SuffixLeaf σ :=
  (leaves.reverse.find? fun other => cacheKey digits other = cacheKey digits leaf).getD leaf

/-! ## What the leaves read back -/

variable {digits prescan} {leaves : List (SuffixLeaf σ)} {leaf : SuffixLeaf σ}

theorem prescanSegments_eq (segments : List ι) :
    prescanSegments prescan segments = fun leaf => ⟨leaf, docFreq prescan segments leaf⟩ := by
  funext leaf
  rw [prescanSegments, docFreq, sum_eq_foldl, foldl_map]

/-- **The map holds what the last leaf of a key wrote.** -/
theorem collect_eq (leaves : List (SuffixLeaf σ)) (freq : SuffixLeaf σ → Nat) (key : String) :
    collectPrescanDocFreqs digits (leaves.map fun leaf => ⟨leaf, freq leaf⟩) (fun _ => none) key =
      (leaves.reverse.find? fun other => cacheKey digits other = key).map freq := by
  induction leaves using List.reverseRecOn with
  | nil => rfl
  | append_singleton leaves last ih =>
    rw [collectPrescanDocFreqs] at ih ⊢
    rw [map_append, foldl_append, reverse_append]
    by_cases hkey : cacheKey digits last = key
    · simp [hkey]
    · simpa [hkey, Function.update_of_ne (Ne.symm hkey)] using ih

/-- A leaf finds its key, and there the frequency of the last leaf that has it. -/
theorem collect_cacheKey (hleaf : leaf ∈ leaves) (freq : SuffixLeaf σ → Nat) :
    collectPrescanDocFreqs digits (leaves.map fun leaf => ⟨leaf, freq leaf⟩) (fun _ => none)
      (cacheKey digits leaf) = some (freq (lastLeaf digits leaves leaf)) := by
  rw [collect_eq, lastLeaf]
  cases hfind : leaves.reverse.find? fun other => cacheKey digits other = cacheKey digits leaf with
  | some last => rfl
  | none => exact absurd (by simp) (find?_eq_none.mp hfind leaf (mem_reverse.mpr hleaf))

/-- Setting frequencies from a map that has every leaf's key. -/
theorem map_setGlobal {freqs : DocFreqs} {freq freq' : SuffixLeaf σ → Nat}
    (h : ∀ leaf ∈ leaves, freqs (cacheKey digits leaf) = some (freq' leaf)) :
    (leaves.map fun leaf => (⟨leaf, freq leaf⟩ : LeafState σ)).map
      (setGlobalContainsDocFreqs digits freqs) = leaves.map fun leaf => ⟨leaf, freq' leaf⟩ := by
  rw [map_map]
  refine map_congr_left fun leaf hleaf => ?_
  simp [setGlobalContainsDocFreqs, h leaf hleaf]

/-- **The weight of a local search**: each leaf has the frequency of the last leaf of its key. -/
theorem buildWeight_none (tree : QueryTree σ) (segments : List ι) :
    buildWeight digits prescan tree segments none = tree.leaves.map fun leaf =>
      ⟨leaf, docFreq prescan segments (lastLeaf digits tree.leaves leaf)⟩ := by
  rw [buildWeight, prescanSegments_eq]
  refine map_setGlobal fun leaf hleaf => ?_
  rw [addFreqs, collect_cacheKey hleaf]
  exact congrArg some (Nat.zero_add _)

/-- Merging adds up what the exports hold under a key that all of them have. -/
theorem merge_eq {nodes : List (List ι)} {stats : List ι → DocFreqs} {key : String}
    {freq : List ι → Nat} (hne : nodes ≠ []) (h : ∀ node, stats node key = some (freq node)) :
    merge (nodes.map stats) key = some (nodes.map freq).sum := by
  induction nodes using List.reverseRecOn with
  | nil => exact absurd rfl hne
  | append_singleton nodes last ih =>
    rw [map_append, merge, foldl_append, ← merge, map_singleton, foldl_cons, foldl_nil, addFreqs, h]
    by_cases hempty : nodes = []
    · simp [hempty, merge]
    · rw [ih hempty]
      simp

/-- **Merged exports give what one node would count**, wherever they are searched with. -/
theorem buildWeight_merge (tree : QueryTree σ) {nodes : List (List ι)} (hne : nodes ≠ [])
    (searched : List ι) :
    buildWeight digits prescan tree searched
      (some (merge (nodes.map (exportStats digits prescan tree)))) =
      buildWeight digits prescan tree nodes.flatten none := by
  have hover : ∀ freqs, buildWeight digits prescan tree searched (some freqs) =
      (buildWeight digits prescan tree searched none).map
        (setGlobalContainsDocFreqs digits freqs) := fun _ => rfl
  rw [hover, buildWeight_none, buildWeight_none]
  refine map_setGlobal fun leaf hleaf => ?_
  have hexport : ∀ node, exportStats digits prescan tree node (cacheKey digits leaf) =
      some (docFreq prescan node (lastLeaf digits tree.leaves leaf)) := fun node => by
    rw [exportStats, prescanSegments_eq, collect_cacheKey hleaf]
  rw [merge_eq hne hexport, docFreq, map_flatten, sum_flatten, map_map]
  rfl

/-- **When every leaf scores with its own frequency.** In the segments where it matches a document,
a leaf has the frequency of what it matches, and the merged exports of any nodes that hold the
segments give each leaf what one node gives: exactly if, for each leaf, the last leaf of its key
matches equally many documents; or the leaf matches nothing; or that last one does, and the leaf
has all its documents in one segment. -/
theorem leaf_frequencies_iff (tree : QueryTree σ) (segments : List ι) :
    ((∀ q ∈ buildWeight digits prescan tree segments none, ∀ segment ∈ segments,
        prescan q.leaf segment ≠ [] →
        scoringDocFreq prescan q segment = docFreq prescan segments q.leaf) ∧
      ∀ nodes : List (List ι), nodes ≠ [] → nodes.flatten = segments → ∀ searched,
        buildWeight digits prescan tree searched
          (some (merge (nodes.map (exportStats digits prescan tree)))) =
        buildWeight digits prescan tree segments none) ↔
      ∀ leaf ∈ tree.leaves, ∀ last, last = lastLeaf digits tree.leaves leaf →
        docFreq prescan segments last = docFreq prescan segments leaf ∨
        docFreq prescan segments leaf = 0 ∨
        docFreq prescan segments last = 0 ∧ ∀ segment ∈ segments, prescan leaf segment ≠ [] →
          (prescan leaf segment).length = docFreq prescan segments leaf := by
  -- the half about merged exports holds for any leaves
  refine (and_iff_left ?_).trans ?_
  · rintro nodes hne rfl searched
    exact buildWeight_merge tree hne searched
  rw [buildWeight_none, forall_mem_map]
  refine forall₂_congr fun leaf _ => ?_
  rw [forall_eq]
  simp only [scoringDocFreq]
  generalize docFreq prescan segments (lastLeaf digits tree.leaves leaf) = freq
  constructor
  · intro h
    by_cases hzero : docFreq prescan segments leaf = 0
    · exact .inr (.inl hzero)
    · by_cases hfreq : 0 < freq
      · -- the leaf matches a document in some segment, which is scored with the frequency
        obtain ⟨n, hn, hpos⟩ := exists_mem_ne_zero_of_sum_ne_zero hzero
        obtain ⟨segment, hsegment, rfl⟩ := mem_map.mp hn
        have hscored := h segment hsegment (ne_nil_of_length_pos (Nat.pos_of_ne_zero hpos))
        rw [if_pos hfreq] at hscored
        exact .inl hscored
      · simp only [if_neg hfreq] at h
        exact .inr (.inr ⟨by omega, h⟩)
  · rintro (rfl | hzero | ⟨rfl, h⟩) segment hsegment hne
    all_goals
      have hlen := length_pos_iff.mpr hne
      have hle : (prescan leaf segment).length ≤ docFreq prescan segments leaf :=
        single_le_sum (by simp) _ (mem_map_of_mem hsegment)
    · rw [if_pos (by omega)]
    · omega
    · exact h segment hsegment hne

/-- **Two leaves of one key**: `ab` anywhere, which two documents hold, and `ab` at the start of a
token, which one of them does. The first leaf scores with the frequency of the second. -/
theorem contains_takes_startsWith_freq :
    let anywhere : SuffixLeaf Unit := .contains 0 "ab" false false false
    let atStart : SuffixLeaf Unit := .contains 0 "ab" true false false
    let prescan := fun leaf (_ : Unit) => if leaf = anywhere then [(0, 1), (1, 1)] else [(0, 1)]
    buildWeight (fun _ => "") prescan (.boolean [.leaf anywhere, .leaf atStart]) [()] none =
        [⟨anywhere, 1⟩, ⟨atStart, 1⟩] ∧ docFreq prescan [()] anywhere = 2 := by
  refine ⟨?_, by decide⟩
  rw [buildWeight_none]
  decide

end Lucivy.Query.LeafFrequencies
