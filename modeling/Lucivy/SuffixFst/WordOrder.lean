import Lucivy.Briques.WordSpans

/-! # The words of a collection in order

Words are captured in the order of the text: by document, by value, by word, a tail entry right
behind its word. So their first positions increase, and where one value ends and the next begins
there is an empty position between their words.

* `WordsOrdered` — the words of a value: their positions, and where their tails stand.
* `placedValues` — the values of a collection, with the position of their first chunk.
* `collect_wordPostings_placed` — the word postings, value by value.
* `placedValues_pairwise` — a value ends before the next one begins. -/

namespace Lucivy.SuffixFst

open Lucivy.Foundation Lucivy.Tokenizer Lucivy.Briques List
open String (utf8Len utf8Len_nil utf8Len_append)
open Collector (collect)

/-! ## The words of a value -/

/-- **Words in order**, on the chunks from `first` up to `stop`. -/
structure WordsOrdered (first stop : Nat) (words : List (Word × Option Word)) : Prop where
  /-- They lie on these chunks. -/
  bounds : ∀ w ∈ words.flatMap withTail, first ≤ w.first ∧ w.first ≤ w.last ∧ w.last < stop
  /-- No two start on one chunk. -/
  sorted : (words.flatMap withTail).Pairwise fun a b => a.first < b.first
  /-- A word ends before the next begins. -/
  apart : (words.map Prod.fst).Pairwise fun a b => a.last < b.first
  /-- A tail starts behind its word and ends with it. -/
  tails : ∀ p ∈ words, ∀ t ∈ p.2, p.1.first < t.first ∧ t.last = p.1.last

theorem WordsOrdered.nil (first stop : Nat) : WordsOrdered first stop [] :=
  ⟨by simp, by simp, by simp, by simp⟩

theorem WordsOrdered.mono {first first' stop : Nat} {words : List (Word × Option Word)}
    (h : WordsOrdered first stop words) (hle : first' ≤ first) : WordsOrdered first' stop words :=
  ⟨fun w hw => ⟨hle.trans (h.bounds w hw).1, (h.bounds w hw).2⟩, h.sorted, h.apart, h.tails⟩

/-- One more word before the others. -/
theorem WordsOrdered.cons {first middle stop : Nat} {w : Word} {tail : Option Word}
    {words : List (Word × Option Word)} (h : WordsOrdered middle stop words)
    (hfirst : first ≤ w.first) (hspan : w.first ≤ w.last) (hlast : w.last < middle)
    (hmiddle : middle ≤ stop)
    (htail : ∀ t ∈ tail, w.first < t.first ∧ t.first ≤ t.last ∧ t.last = w.last) :
    WordsOrdered first stop ((w, tail) :: words) := by
  have hhead : ∀ u ∈ withTail (w, tail), first ≤ u.first ∧ u.first ≤ u.last ∧ u.last = w.last := by
    refine forall_mem_cons.mpr ⟨⟨hfirst, hspan, rfl⟩, fun u hu => ?_⟩
    obtain ⟨h1, h2, h3⟩ := htail u (Option.mem_toList.mp hu)
    exact ⟨by omega, h2, h3⟩
  refine ⟨fun u hu => ?_, ?_, ?_, forall_mem_cons.mpr
    ⟨fun t ht => ⟨(htail t ht).1, (htail t ht).2.2⟩, h.tails⟩⟩
  · rw [flatMap_cons, mem_append] at hu
    rcases hu with hu | hu
    · have := hhead u hu
      omega
    · have := h.bounds u hu
      omega
  · refine pairwise_append.mpr ⟨?_, h.sorted, fun u hu u' hu' => ?_⟩
    · cases tail with
      | none => exact pairwise_singleton _ _
      | some t =>
        refine pairwise_cons.mpr ⟨fun u hu => ?_, pairwise_singleton _ _⟩
        rw [mem_singleton.mp hu]
        exact (htail t rfl).1
    · have h1 := hhead u hu
      have h2 := h.bounds u' hu'
      omega
  · refine pairwise_cons.mpr ⟨fun u hu => ?_, h.apart⟩
    obtain ⟨p, hp, rfl⟩ := mem_map.mp hu
    have := (h.bounds p.1 (mem_flatMap.mpr ⟨p, hp, mem_cons_self⟩)).1
    dsimp only
    omega

/-- **A tail starts in a later chunk of its word**: it is cut behind more bytes than a chunk
has. -/
theorem tailWord_place {v : Text} {group : List Chunk} (hgroup : group ∈ wordGroups (valueChunks v))
    {first sepLen : Nat} {overlap : Text} {t : Word}
    (ht : t ∈ tailWord group first (group.flatMap Chunk.content) overlap sepLen) :
    first < t.first ∧ t.first ≤ t.last ∧ t.last = first + group.length - 1 := by
  obtain ⟨sep, hsep⟩ := (isWordGroup_of_mem hgroup).text
  rw [Option.mem_def, tailWord] at ht
  generalize group.flatMap Chunk.content = content at ht hsep
  split at ht
  · next hlong =>
    have hle := utf8Len_cutAfter_le (utf8Len content - defaultMaxToken) content
    have hge := le_utf8Len_cutAfter (utf8Len content - defaultMaxToken) content
    have happend := congrArg utf8Len (cutAfter_append (utf8Len content - defaultMaxToken) content)
    cases ht
    simp only [maxChunkBytes, defaultMaxToken, utf8Len_append] at hlong hle hge happend
    obtain ⟨n, hn⟩ : ∃ n, n = utf8Len (cutAfter (utf8Len content - 8) content).1 := ⟨_, rfl⟩
    have hfar : 256 ≤ n := by
      rcases hge with hge | hnil
      · omega
      · rw [hnil, utf8Len_nil] at happend
        omega
    have hlt : n < utf8Len (group.map Chunk.text).flatten := by
      rw [hsep, utf8Len_append]
      omega
    obtain ⟨before, c, after, heq, hfound, hin, hsum⟩ := chunkHolding_spec hlt
    -- no chunk is long enough to hold the cut and be the first
    have hc : utf8Len c.text ≤ chunkBound := by
      have hmem : c ∈ (wordGroups (valueChunks v)).flatten :=
        mem_flatten.mpr ⟨group, hgroup, by rw [heq]; simp⟩
      rw [wordGroups, flatten_splitBy] at hmem
      exact segmentAndChunk_le hmem
    have hpos : 0 < before.length := by
      refine length_pos_iff.mpr fun hnil => ?_
      rw [hnil, map_nil, flatten_nil, utf8Len_nil] at hsum
      simp only [chunkBound, defaultMaxToken] at hc
      omega
    have hlen : before.length < group.length := by
      rw [heq, length_append, length_cons]
      omega
    simp only [defaultMaxToken, ← hn]
    exact ⟨by omega, by omega, trivial⟩
  · cases ht

theorem wordsOrdered_valueWords {v : Text} {groups : List (List Chunk)}
    (h : ∀ group ∈ groups, group ∈ wordGroups (valueChunks v)) (first : Nat) :
    WordsOrdered first (first + groups.flatten.length) (valueWords first groups) := by
  induction groups generalizing first with
  | nil => exact .nil _ _
  | cons group later ih =>
    have hgroup := h group mem_cons_self
    have hpos := length_pos_iff.mpr (isWordGroup_of_mem hgroup).ne_nil
    have hrest := ih (forall_mem_cons.mp h).2 (first + group.length)
    rw [flatten_cons, length_append, ← add_assoc, valueWords]
    split
    · exact hrest.mono (Nat.le_add_right _ _)
    · refine hrest.cons (Nat.le_refl _) ?_ ?_ (Nat.le_add_right _ _) fun t ht => ?_
      · dsimp only
        omega
      · dsimp only
        omega
      · exact tailWord_place hgroup ht

/-- **The words of a value are in order.** -/
theorem wordsOrdered_mainWords (v : Text) :
    WordsOrdered 0 (valueTokens v).length (mainWords v) := by
  have hlen : (valueTokens v).length = 0 + (wordGroups (valueChunks v)).flatten.length := by
    rw [valueTokens, Collector.length_chunkTokens, wordGroups, flatten_splitBy, zero_add]
  rw [hlen]
  exact wordsOrdered_valueWords (fun _ => id) 0

/-! ## The values of a collection -/

/-- A value where it stands. -/
structure PlacedValue where
  doc : Nat
  /-- The position of its first chunk. -/
  start : Nat
  value : Text

/-- The values of a document, the first at `start`. -/
def placedFrom (doc : Nat) : Nat → List Text → List PlacedValue
  | _, [] => []
  | start, v :: vs => ⟨doc, start, v⟩ :: placedFrom doc (start + (docSlots [v]).length) vs

/-- The values of a collection. -/
def placedValues (docs : List (List Text)) : List PlacedValue :=
  docs.zipIdx.flatMap fun p => placedFrom p.2 0 p.1

theorem length_docSlots_singleton (v : Text) :
    (docSlots [v]).length = (valueTokens v).length + 1 := by
  rw [docSlots, length_append, length_map]
  rfl

theorem mem_placedFrom {doc start : Nat} {values : List Text} {x : PlacedValue}
    (h : x ∈ placedFrom doc start values) : ∃ before after, values = before ++ x.value :: after ∧
      x.doc = doc ∧ x.start = start + (docSlots before).length := by
  induction values generalizing start with
  | nil => cases h
  | cons v vs ih =>
    rcases mem_cons.mp h with rfl | h
    · exact ⟨[], vs, rfl, rfl, rfl⟩
    · obtain ⟨before, after, rfl, hdoc, hstart⟩ := ih h
      refine ⟨v :: before, after, rfl, hdoc, ?_⟩
      rw [hstart, add_assoc, ← length_append, ← docSlots_append, singleton_append]

/-- A placed value is a value of the collection. -/
theorem exists_valueAt {docs : List (List Text)} {x : PlacedValue} (h : x ∈ placedValues docs) :
    ∃ y : ValueAt docs, y.doc = x.doc ∧ y.start = x.start ∧ y.value = x.value := by
  obtain ⟨⟨values, doc⟩, hdoc, hx⟩ := mem_flatMap.mp h
  obtain ⟨before, after, rfl, rfl, hstart⟩ := mem_placedFrom hx
  refine ⟨⟨x.doc, before, x.value, after, ?_⟩, rfl, ?_, rfl⟩
  · exact mem_zipIdx_iff_getElem?.mp hdoc
  · rw [hstart, zero_add]
    rfl

theorem map_value_placedValues (docs : List (List Text)) :
    (placedValues docs).map PlacedValue.value = docs.flatten := by
  have hdoc : ∀ (values : List Text) doc start,
      (placedFrom doc start values).map PlacedValue.value = values := by
    intro values
    induction values with
    | nil => exact fun _ _ => rfl
    | cons v vs ih => exact fun doc start => by rw [placedFrom, map_cons, ih]
  rw [placedValues, map_flatMap]
  simp only [hdoc]
  rw [flatMap_def, zipIdx_map_fst]

/-- The word postings of a document, value by value. -/
theorem docWordPostings_placed (doc start : Nat) (values : List Text) :
    docWordPostings doc start values =
      (placedFrom doc start values).flatMap fun x => valueWordPostings x.doc x.start x.value := by
  induction values generalizing start with
  | nil => rfl
  | cons v vs ih => rw [docWordPostings, placedFrom, flatMap_cons, ih]

/-- **The word postings of a collection, value by value.** -/
theorem collect_wordPostings_placed (docs : List (List Text)) :
    (collect docs).wordPostings =
      (placedValues docs).flatMap fun x => valueWordPostings x.doc x.start x.value := by
  rw [collect_wordPostings, placedValues, flatMap_assoc]
  simp only [docWordPostings_placed]

/-- One value ends before the other begins, an empty position between them. -/
def PlacedValue.Before (x y : PlacedValue) : Prop :=
  x.doc < y.doc ∨ x.doc = y.doc ∧ x.start + (valueTokens x.value).length < y.start

theorem placedFrom_pairwise (doc start : Nat) (values : List Text) :
    (placedFrom doc start values).Pairwise PlacedValue.Before := by
  induction values generalizing start with
  | nil => exact .nil
  | cons v vs ih =>
    refine pairwise_cons.mpr ⟨fun y hy => .inr ?_, ih _⟩
    obtain ⟨before, after, -, hdoc, hstart⟩ := mem_placedFrom hy
    rw [length_docSlots_singleton] at hstart
    exact ⟨hdoc.symm, by dsimp only; omega⟩

/-- **The values of a collection stand one behind the other.** -/
theorem placedValues_pairwise (docs : List (List Text)) :
    (placedValues docs).Pairwise PlacedValue.Before := by
  refine pairwise_flatMap.mpr ⟨fun p _ => placedFrom_pairwise p.2 0 p.1, ?_⟩
  have hidx : docs.zipIdx.Pairwise fun p q => p.2 < q.2 := by
    refine pairwise_iff_getElem.mpr fun i j hi hj hij => ?_
    rw [getElem_zipIdx, getElem_zipIdx]
    omega
  refine hidx.imp fun {p q} hpq x hx y hy => .inl ?_
  obtain ⟨-, -, -, hx, -⟩ := mem_placedFrom hx
  obtain ⟨-, -, -, hy, -⟩ := mem_placedFrom hy
  rwa [hx, hy]

end Lucivy.SuffixFst
