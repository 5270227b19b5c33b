import Mathlib.Data.List.Find
import Lucivy.Tokenizer.ChunkLaws
import Lucivy.SuffixFst.ByteOffsets
import Lucivy.Briques.Layout

/-! # The spans of the words

`.word_sfxpost` without byte spans (`suffix_fst/word_sfxpost.rs`): an entry names the chunk a
word starts in and where in that chunk; the length of its content is read from `.termtexts`,
whose meta has sixteen bits for it.

* `wordGroups_chunksFrom` — the chunks grouped by word are the chunks of the segments.
* `mem_valueWords` — a word of a value is that of a group, or the tail of a long one.
* `MapFits` — the limits of the `.posmap` that chunk offsets are read from.
* `SpanStored` — the span of a word is what the files say.
* `spanStored_iff_wordsFit` — within these limits it is for every word of a value, just when
  content and last separators of each fit sixteen bits. -/

namespace Lucivy.Briques

open Lucivy.Foundation Lucivy.Tokenizer Lucivy.SuffixFst List Collector Chunk BriquesContext
open String (utf8Len utf8Len_nil utf8Len_cons utf8Len_append)

/-! ## The chunks of a word -/

/-- The chunks of a segment are one group. -/
theorem wordGroups_segmentChunks {maxToken : Nat} (hmax : 0 < maxToken) {seg : Segment}
    (h : seg.text ≠ []) (wordId : Nat) :
    wordGroups (segmentChunks maxToken seg wordId) = [segmentChunks maxToken seg wordId] := by
  refine splitBy_of_isChain (segmentChunks_ne_nil hmax h wordId) ?_
  refine (pairwise_of_forall_mem_list fun c hc d hd => ?_).isChain
  rw [wordId_of_mem_segmentChunks hc, wordId_of_mem_segmentChunks hd]
  exact beq_self_eq_true _

/-- **The groups are the segments' chunks.** -/
theorem wordGroups_chunksFrom {maxToken : Nat} (hmax : 0 < maxToken) (k : Nat)
    {segs : List Segment} (h : ∀ s ∈ segs, s.text ≠ []) :
    wordGroups (chunksFrom maxToken k segs) =
      (segs.zipIdx k).map fun p => segmentChunks maxToken p.1 p.2 := by
  induction segs generalizing k with
  | nil => rfl
  | cons seg segs ih =>
    have hrest : ∀ s ∈ segs, s.text ≠ [] := (forall_mem_cons.mp h).2
    have hsplit : wordGroups (segmentChunks maxToken seg k ++ chunksFrom maxToken (k + 1) segs) =
        wordGroups (segmentChunks maxToken seg k) ++
          wordGroups (chunksFrom maxToken (k + 1) segs) := by
      refine splitBy_append fun c hc d hd => ?_
      rw [wordId_of_mem_segmentChunks (mem_of_getLast? hc), head?_chunksFrom hmax (k + 1) hrest hd]
      exact beq_false_of_ne (Nat.ne_of_lt (Nat.lt_succ_self k))
    rw [chunksFrom_cons, hsplit, wordGroups_segmentChunks hmax (h seg mem_cons_self),
      ih (k + 1) hrest]
    rfl

/-- What is known of the chunks of a word: the content is contiguous from the first chunk. -/
structure IsWordGroup (group : List Chunk) : Prop where
  ne_nil : group ≠ []
  /-- The content comes first, separators behind. -/
  text : ∃ sep, (group.map Chunk.text).flatten = group.flatMap content ++ sep

variable {group : List Chunk}

theorem isWordGroup_of_mem {v : Text} (h : group ∈ wordGroups (valueChunks v)) :
    IsWordGroup group := by
  obtain ⟨-, hwf⟩ := splitIntoSegments_spec v
  have hne : ∀ s ∈ splitIntoSegments v, s.text ≠ [] := fun s hs => (hwf s hs).text_ne
  have hgroups : wordGroups (valueChunks v) =
      ((splitIntoSegments v).zipIdx 0).map fun p => segmentChunks defaultMaxToken p.1 p.2 :=
    wordGroups_chunksFrom (by decide) 0 hne
  rw [hgroups] at h
  obtain ⟨p, hp, rfl⟩ := mem_map.mp h
  have hseg := hne p.1 (fst_mem_of_mem_zipIdx hp)
  have htiles : Tiles (equalChunks p.1 defaultMaxToken) p.1.content p.1.sep 1 :=
    equalChunks_tiles_of (by decide) (one_le_base (by decide))
  refine ⟨segmentChunks_ne_nil (by decide) hseg p.2, p.1.sep, ?_⟩
  rw [segmentChunks_flatten (by decide), flatMap_def, segmentChunks_map_content,
    ← flatMap_def, htiles.content, Segment.text]

/-! ## The words of a value -/

/-- A place in a list is its head, or a place in its tail. -/
theorem exists_eq_append_cons {α : Type} {a : α} {l : List α} {P : List α → α → List α → Prop} :
    (∃ before x after, a :: l = before ++ x :: after ∧ P before x after) ↔
      P [] a l ∨ ∃ before x after, l = before ++ x :: after ∧ P (a :: before) x after := by
  simp only [cons_eq_append_iff, or_and_right, exists_or]
  constructor <;> grind

/-- The separators of the last chunk of a group. -/
def lastSepLen (group : List Chunk) : Nat := (group.getLast?.map sepLen).getD 0

/-- The word of a group. -/
def mainWord (first : Nat) (group : List Chunk) (later : List (List Chunk)) : Word :=
  ⟨wordToken (group.flatMap content) (contentOverlap later)
      (min (utf8Len (group.flatMap content) + lastSepLen group) 65535) (lastSepLen group)
      ((group.head?.map isWordStart).getD false),
    group.flatMap content, contentOverlap later, first, first + group.length - 1, 0⟩

/-- The word of a group and its tail, if it has content. -/
def groupWords (first : Nat) (group : List Chunk) (later : List (List Chunk)) : List Word :=
  if group.flatMap content = [] then []
  else mainWord first group later :: (tailWord group first (group.flatMap content)
    (contentOverlap later) (lastSepLen group)).toList

theorem flatMap_valueWords_cons (first : Nat) (group : List Chunk) (later : List (List Chunk)) :
    (valueWords first (group :: later)).flatMap withTail = groupWords first group later ++
      (valueWords (first + group.length) later).flatMap withTail := by
  rw [valueWords, groupWords]
  by_cases h : group.flatMap content = []
  · simp [h]
  · simp only [h]
    rfl

/-- **A word of a value** comes from one of its groups, and counts its chunks from there. -/
theorem mem_valueWords {first : Nat} {groups : List (List Chunk)} {w : Word} :
    w ∈ (valueWords first groups).flatMap withTail ↔ ∃ before group later,
      groups = before ++ group :: later ∧ w ∈ groupWords (first + before.flatten.length)
        group later := by
  induction groups generalizing first with
  | nil => simp [valueWords]
  | cons group groups ih =>
    rw [flatMap_valueWords_cons, mem_append, ih, exists_eq_append_cons]
    simp [add_assoc]

theorem chunkHolding_cons_cons (c d : Chunk) (rest : List Chunk) (n : Nat) :
    chunkHolding (c :: d :: rest) n = if n < utf8Len c.text then (0, n)
      else ((chunkHolding (d :: rest) (n - utf8Len c.text)).1 + 1,
        (chunkHolding (d :: rest) (n - utf8Len c.text)).2) := rfl

/-- **The chunk that holds a byte**: it lies inside the chunk found, behind the chunks before. -/
theorem chunkHolding_spec {n : Nat} (h : n < utf8Len (group.map Chunk.text).flatten) :
    ∃ before c after, group = before ++ c :: after ∧ (chunkHolding group n).1 = before.length ∧
      (chunkHolding group n).2 < utf8Len c.text ∧
      utf8Len (before.map Chunk.text).flatten + (chunkHolding group n).2 = n := by
  induction group generalizing n with
  | nil => exact absurd h (Nat.not_lt_zero n)
  | cons c rest ih =>
    cases rest with
    | nil => exact ⟨[], c, [], rfl, rfl, by simpa [chunkHolding] using h, by simp [chunkHolding]⟩
    | cons d rest =>
      rw [map_cons, flatten_cons, utf8Len_append] at h
      rw [chunkHolding_cons_cons]
      split
      · next hlt => exact ⟨[], c, d :: rest, rfl, rfl, hlt, by simp⟩
      · obtain ⟨before, c', after, heq, hfirst, hin, hsum⟩ :=
          ih (n := n - utf8Len c.text) (by omega)
        refine ⟨c :: before, c', after, by rw [heq]; rfl, ?_, hin, ?_⟩
        · exact congrArg (· + 1) hfirst
        · rw [map_cons, flatten_cons, utf8Len_append]
          omega

/-- **Where a word stands among the chunks of its value**: its first chunk, and its content
from there. -/
structure StandsIn (chunks : List Chunk) (w : Word) : Prop where
  /-- The chunk holds its first byte. -/
  first : ∃ before c after, chunks = before ++ c :: after ∧ w.first = before.length ∧
    w.tailOff < utf8Len c.text
  /-- The content stands there. -/
  content : ∃ a b, (chunks.map Chunk.text).flatten = a ++ w.content ++ b ∧
    utf8Len a = utf8Len ((chunks.take w.first).map Chunk.text).flatten + w.tailOff

/-- The word of a group starts with the group. -/
theorem standsIn_mainWord {before : List (List Chunk)} {later : List (List Chunk)}
    (hgroup : IsWordGroup group) (hcontent : group.flatMap content ≠ [])
    (hne : ∀ c ∈ group, c.text ≠ []) :
    StandsIn (before ++ group :: later).flatten (mainWord before.flatten.length group later) := by
  obtain ⟨c, rest, rfl⟩ := exists_cons_of_ne_nil hgroup.ne_nil
  obtain ⟨sep, hsep⟩ := hgroup.text
  refine ⟨⟨before.flatten, c, rest ++ later.flatten, by simp, rfl, ?_⟩, ?_⟩
  · exact utf8Len_pos (hne c mem_cons_self)
  · refine ⟨(before.flatten.map Chunk.text).flatten,
      sep ++ (later.flatten.map Chunk.text).flatten, ?_, ?_⟩
    · rw [flatten_append, flatten_cons, map_append, map_append,
        flatten_append, flatten_append, hsep]
      simp [mainWord]
    · rw [flatten_append, mainWord]
      simp

/-- A tail starts in the chunk that holds its first byte. -/
theorem standsIn_tailWord {before : List (List Chunk)} {later : List (List Chunk)} {overlap : Text}
    {sepLen : Nat} {w : Word} (hgroup : IsWordGroup group)
    (hw : w ∈ tailWord group before.flatten.length (group.flatMap content) overlap sepLen) :
    StandsIn (before ++ group :: later).flatten w := by
  obtain ⟨sep, hsep⟩ := hgroup.text
  rw [Option.mem_def, tailWord] at hw
  split at hw
  · next hlong =>
    have hcut := cutAfter_append (utf8Len (group.flatMap content) - defaultMaxToken)
      (group.flatMap content)
    have hle := utf8Len_cutAfter_le (utf8Len (group.flatMap content) - defaultMaxToken)
      (group.flatMap content)
    cases hw
    generalize cutAfter (utf8Len (group.flatMap content) - defaultMaxToken)
      (group.flatMap content) = cut at *
    have hlt : utf8Len cut.1 < utf8Len (group.map Chunk.text).flatten := by
      rw [hsep, utf8Len_append]
      simp only [defaultMaxToken] at hlong hle
      omega
    obtain ⟨front, c, after, heq, hfirst, hin, hsum⟩ := chunkHolding_spec hlt
    have htake : ((before ++ group :: later).flatten.take
        (before.flatten.length + (chunkHolding group (utf8Len cut.1)).1)) =
          before.flatten ++ front := by
      rw [flatten_append, take_length_add_append, hfirst, flatten_cons, heq]
      simp
    refine ⟨⟨before.flatten ++ front, c, after ++ later.flatten, ?_, ?_, hin⟩,
      (before.flatten.map Chunk.text).flatten ++ cut.1,
      sep ++ (later.flatten.map Chunk.text).flatten, ?_, ?_⟩
    · rw [heq]
      simp
    · rw [length_append, hfirst]
    · rw [flatten_append, flatten_cons, map_append, map_append,
        flatten_append, flatten_append, hsep]
      simp only [append_assoc]
      rw [← append_assoc cut.1, hcut]
    · rw [htake, map_append, flatten_append, utf8Len_append, utf8Len_append]
      dsimp only
      omega
  · cases hw

/-- **Every word of a value stands where its posting says.** -/
theorem standsIn_of_mem_allWords {v : Text} {w : Word} (h : w ∈ allWords v) :
    StandsIn (valueChunks v) w := by
  have hflat : (wordGroups (valueChunks v)).flatten = valueChunks v := flatten_splitBy ..
  obtain ⟨before, group, later, hgroups, hw⟩ := mem_valueWords.mp h
  have hgroup : IsWordGroup group := isWordGroup_of_mem (v := v) (by rw [hgroups]; simp)
  rw [← hflat, hgroups]
  rw [groupWords, zero_add] at hw
  split at hw
  · cases hw
  · next hcontent =>
    rcases mem_cons.mp hw with rfl | hw
    · refine standsIn_mainWord hgroup hcontent fun c hc => ?_
      have hmem : c ∈ (wordGroups (valueChunks v)).flatten := by
        rw [hgroups]
        simp [hc]
      rw [hflat] at hmem
      exact (segmentAndChunk_wellFormed (by decide) hmem).text_ne
    · exact standsIn_tailWord hgroup (Option.mem_toList.mp hw)

/-! ## What the files say of a word -/

namespace ValueAt

variable {docs : List (List Text)} (x : ValueAt docs)

/-- The posting of a word of the value. -/
def wordPosting (w : Word) : WordPosting :=
  ⟨w.token.ordinal, x.doc, x.start + w.first, x.start + w.last, w.tailOff⟩

end ValueAt

/-- The word postings of a value whose first chunk is at `start`. -/
def valueWordPostings (doc start : Nat) (v : Text) : List WordPosting :=
  (allWords v).map fun w => ⟨w.token.ordinal, doc, start + w.first, start + w.last, w.tailOff⟩

/-- The word postings of the values of a document, the first at `start`. -/
def docWordPostings (doc : Nat) : Nat → List Text → List WordPosting
  | _, [] => []
  | start, v :: vs =>
    valueWordPostings doc start v ++ docWordPostings doc (start + (docSlots [v]).length) vs

theorem addValue_wordPostings (c : Collector) (v : Text) :
    (c.addValue v).wordPostings =
      c.wordPostings ++ valueWordPostings c.currentDocId c.currentValueTiStart v := by
  rw [addValue]
  split
  · next hnil =>
    rw [valueWordPostings, allWords_of_nil hnil]
    exact (append_nil _).symm
  · rfl

theorem foldl_addValue_wordPostings (values : List Text) (c : Collector) :
    (values.foldl addValue c).wordPostings =
      c.wordPostings ++ docWordPostings c.currentDocId c.currentValueTiStart values := by
  induction values generalizing c with
  | nil => exact (append_nil _).symm
  | cons v values ih =>
    rw [foldl_cons, ih, addValue_wordPostings, (addValue_postings c v).2,
      addValue_currentDocId, docWordPostings, append_assoc]

/-- **The word postings of a collection** are those of its documents. -/
theorem collect_wordPostings (docs : List (List Text)) :
    (collect docs).wordPostings = docs.zipIdx.flatMap fun p => docWordPostings p.2 0 p.1 := by
  induction docs using List.reverseRecOn with
  | nil => rfl
  | append_singleton docs values ih =>
    have hdoc := (collect_postings docs).2
    rw [collect_concat, zipIdx_append, flatMap_append, ← ih]
    refine (foldl_addValue_wordPostings values (collect docs).beginDoc).trans ?_
    rw [beginDoc, hdoc]
    simp

theorem mem_docWordPostings {doc start : Nat} {values : List Text} {p : WordPosting} :
    p ∈ docWordPostings doc start values ↔ ∃ before v after, values = before ++ v :: after ∧
      p ∈ valueWordPostings doc (start + (docSlots before).length) v := by
  induction values generalizing start with
  | nil => simp [docWordPostings]
  | cons v values ih =>
    have hslots : ∀ vs, (docSlots (v :: vs)).length =
        (docSlots [v]).length + (docSlots vs).length := by
      intro vs
      rw [← length_append, ← docSlots_append, singleton_append]
    rw [docWordPostings, mem_append, ih, exists_eq_append_cons]
    generalize (docSlots [v]).length = n at hslots ⊢
    simp only [hslots, add_assoc]
    rfl

/-- **The word postings of a segment** are those of the words of its values. -/
theorem mem_wordSfxpost (table : CaseTable) {docs : List (List Text)} {p : WordPosting} :
    p ∈ (ofCollection table docs).wordSfxpost ↔
      ∃ x : ValueAt docs, ∃ w ∈ allWords x.value, p = x.wordPosting w := by
  rw [show (ofCollection table docs).wordSfxpost = _ from collect_wordPostings docs, mem_flatMap]
  constructor
  · rintro ⟨⟨values, doc⟩, hdoc, hp⟩
    obtain ⟨before, v, after, hvalues, hp⟩ := mem_docWordPostings.mp hp
    obtain ⟨w, hw, rfl⟩ := mem_map.mp hp
    refine ⟨⟨doc, before, v, after, ?_⟩, w, hw, ?_⟩
    · rw [← hvalues]
      exact mem_zipIdx_iff_getElem?.mp hdoc
    · simp [ValueAt.wordPosting, ValueAt.start]
  · rintro ⟨x, w, hw, rfl⟩
    refine ⟨(_, x.doc), mem_zipIdx_iff_getElem?.mpr x.doc_eq, ?_⟩
    refine mem_docWordPostings.mpr ⟨x.before, x.value, x.after, rfl, ?_⟩
    refine mem_map.mpr ⟨w, hw, ?_⟩
    simp [ValueAt.wordPosting, ValueAt.start]

/-! ## The position map of the segment -/

/-- `own_len` of the term entries, by the final ordinals that `into_data` gives. -/
def ownLens (docs : List (List Text)) (number : Ordinal → UInt32) (o : UInt32) : Option UInt16 :=
  ((Collector.collect docs).tokens.find? (number ·.ordinal = o)).map (UInt16.ofNat ·.info.ownLen)

/-- The `.posmap` of the segment. -/
def posmapBytes (docs : List (List Text)) (number : Ordinal → UInt32) : Bytes :=
  (PosMapWriter.ofEntries ((Collector.collect docs).postings.map
    (ChunkPosting.mapEntry number))).serializeWithLens (some (ownLens docs number))

/-- **The segment is within the limits of its position map.** -/
structure MapFits (docs : List (List Text)) (number : Ordinal → UInt32) : Prop where
  /-- Different entries have different final ordinals. -/
  numbered : ∀ t ∈ (Collector.collect docs).tokens, ∀ u ∈ (Collector.collect docs).tokens,
    number t.ordinal = number u.ordinal → t.ordinal = u.ordinal
  /-- Those of the chunks fit three bytes; otherwise no checkpoints are written. -/
  narrow : ∀ p ∈ (Collector.collect docs).postings, number p.ordinal < PosMapFile.maxOrdinal3
  /-- No document and no position has the last number of all. -/
  placed : ∀ p ∈ (Collector.collect docs).postings, p.docId < 2 ^ 32 - 1 ∧ p.position < 2 ^ 32 - 1
  /-- The offsets of a value fit 32 bits. -/
  bytes : ∀ v ∈ docs.flatten, utf8Len v < 2 ^ 32
  /-- A buffer holds the file. -/
  buffer : (posmapBytes docs number).length < 2 ^ 64

/-- The final ordinal of a chunk leads to its length. -/
theorem ownLens_chunk {docs : List (List Text)} {number : Ordinal → UInt32}
    (hfits : MapFits docs number) (y : ValueAt docs) {t : Token} (ht : t ∈ y.tokens) :
    ownLens docs number (number t.ordinal) = some (UInt16.ofNat t.info.ownLen) ∧
      t.info.ownLen < 2 ^ 16 := by
  have hshort : ∀ n ∈ y.tokens.map (·.info.ownLen), n < 2 ^ 16 := by
    rw [ValueAt.tokens, valueTokens, ownLen_chunkTokens]
    refine forall_mem_map.mpr fun c hc => ?_
    have hle := segmentAndChunk_le hc
    simp only [chunkBound, defaultMaxToken] at hle
    omega
  refine ⟨?_, hshort _ (mem_map_of_mem ht)⟩
  have hentry : (Collector.collect docs).tokens.find? (·.ordinal = t.ordinal) = some t :=
    entry_chunk asciiCase y ht
  have hmem := mem_of_find?_eq_some hentry
  have hsame : (Collector.collect docs).tokens.find? (number ·.ordinal = number t.ordinal) =
      (Collector.collect docs).tokens.find? (·.ordinal = t.ordinal) := by
    refine find?_congr fun u hu => ?_
    exact decide_eq_decide.mpr ⟨hfits.numbered u hu t hmem, congrArg number⟩
  rw [ownLens, hsame, hentry]
  rfl

/-- A posting is that of a chunk. -/
theorem exists_chunk_of_posting {docs : List (List Text)} {p : ChunkPosting}
    (hp : p ∈ (Collector.collect docs).postings) :
    ∃ y : ValueAt docs, ∃ t ∈ y.tokens, t.ordinal = p.ordinal := by
  obtain ⟨values, hvalues, hslot⟩ := Collector.mem_collect_postings.mp hp
  obtain ⟨before, v, after, i, rfl, -, t, ht, hord⟩ := exists_value_of_slot hslot
  exact ⟨⟨p.docId, before, v, after, hvalues⟩, t, mem_of_getElem? ht, hord⟩

/-- **Within the limits the file gives the offset of every chunk.** -/
theorem byteAt_posmapBytes {docs : List (List Text)} {number : Ordinal → UInt32}
    (hfits : MapFits docs number) :
    ∃ r, PosMapReader.openBytes (posmapBytes docs number) = some r ∧
      ∀ y : ValueAt docs, ∀ i < y.texts.length,
        (r.byteAt y.doc (y.start + i) (ownLens docs number)).map UInt32.toNat =
          some (utf8Len (y.texts.take i).flatten) := by
  have hlens : ∀ p ∈ (Collector.collect docs).postings,
      ownLens docs number (number p.ordinal) =
          some ((ownLens docs number (number p.ordinal)).getD 0) ∧
        ((ofCollection asciiCase docs).info p.ordinal).map TokenMeta.ownLen =
          some ((ownLens docs number (number p.ordinal)).getD 0).toNat := by
    intro p hp
    obtain ⟨y, t, ht, hord⟩ := exists_chunk_of_posting hp
    obtain ⟨hlen, hshort⟩ := ownLens_chunk hfits y ht
    rw [← hord, hlen, ownLen_chunk asciiCase y ht]
    exact ⟨rfl, congrArg some (UInt16.toNat_ofNat_of_lt' hshort).symm⟩
  obtain ⟨r, hopen, hr⟩ := @byteAt_ofPostings (fun o => (ownLens docs number o).getD 0) _ _ _
    (fun ord => ((ofCollection asciiCase docs).info ord).map TokenMeta.ownLen)
    PosMap.collect_postings_one hfits.placed hfits.narrow hlens hfits.buffer
  refine ⟨r, hopen, fun y i hi => ?_⟩
  have hlt : i < y.tokens.length := y.length_tokens.symm ▸ hi
  have hord := ordinalAt_value asciiCase y hi.le
  rw [getElem?_eq_getElem hlt] at hord
  have hbytes : utf8Len (y.texts.take i).flatten < 2 ^ 32 := by
    have hle : utf8Len (y.texts.take i).flatten ≤ utf8Len y.texts.flatten := by
      conv_rhs => rw [← take_append_drop i y.texts, flatten_append, utf8Len_append]
      exact Nat.le_add_right ..
    rw [y.texts_flatten] at hle
    exact lt_of_le_of_lt hle (hfits.bytes _ y.value_mem)
  rw [hr _ (PosMap.ordinalAt_eq_some.mp hord)]
  have hat : (PosMap.ofPostings (Collector.collect docs).postings).byteAt _ y.doc (y.start + i) =
    _ :=
    byteAt_value asciiCase y hi
  rw [hat, Option.map_some, Option.map_some, UInt32.toNat_ofNat_of_lt' hbytes]

section Spans

variable (table : CaseTable) {docs : List (List Text)} (number : Ordinal → UInt32)
  (x : ValueAt docs)

/-- **The content length of a word's entry**: whichever word the entry was made for, it is what
this word's meta says. -/
theorem info_word {w : Word} (h : w ∈ allWords x.value) :
    ∃ m, (ofCollection table docs).info w.token.ordinal = some m ∧
      m.ownLen - m.sepLen = w.token.info.ownLen - w.token.info.sepLen := by
  obtain ⟨u, -, hu, hord⟩ := entry_interned table x (mem_append_right _ (mem_map_of_mem h))
  have hshape : u.info.shape = w.token.info.shape := congrArg Ordinal.shape hord
  refine ⟨u.info, congrArg (Option.map Token.info) hu, ?_⟩
  rw [TokenMeta.shape, TokenMeta.shape, stripped_of_mem_valueWords h, if_pos rfl] at hshape
  split at hshape
  · exact congrArg (·.2.1) hshape
  · cases congrArg (·.1) hshape

/-- **The span of a word is what the files say.** -/
structure SpanStored (w : Word) : Prop where
  /-- It has a posting. -/
  posted : x.wordPosting w ∈ (ofCollection table docs).wordSfxpost
  /-- The chunk at its first position starts behind the value's earlier chunks. -/
  chunk_start : ∃ r, PosMapReader.openBytes (posmapBytes docs number) = some r ∧
    (r.byteAt x.doc (x.wordPosting w).firstPosition (ownLens docs number)).map UInt32.toNat =
      some ((x.tokens.take w.first).map (·.info.ownLen)).sum
  /-- That chunk holds the word's first byte. -/
  first_byte : ∃ t, x.tokens[w.first]? = some t ∧ (x.wordPosting w).tailOff < t.info.ownLen
  /-- The content is as many bytes from there as the word's entry says. -/
  content : ∃ m, (ofCollection table docs).info (x.wordPosting w).ordinal = some m ∧
    ∃ a b, x.value = a ++ w.content ++ b ∧
      utf8Len a = ((x.tokens.take w.first).map (·.info.ownLen)).sum + (x.wordPosting w).tailOff ∧
      utf8Len w.content = m.ownLen - m.sepLen

theorem sum_ownLen_take (n : Nat) : ((x.tokens.take n).map (·.info.ownLen)).sum =
    utf8Len (((valueChunks x.value).take n).map Chunk.text).flatten := by
  rw [ValueAt.tokens, valueTokens, map_take, ownLen_chunkTokens, utf8Len_flatten, map_take,
    map_take, map_map]
  rfl

/-- A word whose span the files have is as long as its meta says. -/
theorem length_of_spanStored {w : Word} (h : w ∈ allWords x.value)
    (hstored : SpanStored table number x w) :
    utf8Len w.content = w.token.info.ownLen - w.token.info.sepLen := by
  obtain ⟨m, hm, hlen⟩ := info_word table x h
  obtain ⟨-, -, -, m', hm', -, -, -, -, hcontent⟩ := hstored
  rw [Option.some.inj (hm'.symm.trans hm)] at hcontent
  rw [hcontent, hlen]

/-- Within the limits of the map, all but the length of the content is always right. -/
theorem spanStored_iff (hfits : MapFits docs number) {w : Word} (h : w ∈ allWords x.value) :
    SpanStored table number x w ↔
      utf8Len w.content = w.token.info.ownLen - w.token.info.sepLen := by
  obtain ⟨m, hm, hlen⟩ := info_word table x h
  refine ⟨length_of_spanStored table number x h, ?_⟩
  · intro hcontent
    obtain ⟨r, hopen, hr⟩ := byteAt_posmapBytes hfits
    obtain ⟨⟨before, c, after, hchunks, hfirst, hin⟩, a, b, htext, ha⟩ := standsIn_of_mem_allWords h
    have htokens : x.tokens[w.first]?.map (·.info.ownLen) = some (utf8Len c.text) := by
      rw [← getElem?_map, ValueAt.tokens, valueTokens, ownLen_chunkTokens, hchunks, hfirst]
      simp
    obtain ⟨t, ht, hown⟩ := Option.map_eq_some_iff.mp htokens
    have hlt : w.first < x.texts.length := by
      rw [← x.length_tokens]
      exact (List.getElem?_eq_some_iff.mp ht).1
    refine ⟨(mem_wordSfxpost table).mpr ⟨x, w, h, rfl⟩, ?_, ⟨t, ht, ?_⟩, m, hm, a, b, ?_, ?_, ?_⟩
    · refine ⟨r, hopen, ?_⟩
      rw [sum_ownLen_take, map_take]
      exact hr x w.first hlt
    · rw [hown]
      exact hin
    · rw [← htext]
      exact (segmentAndChunk_flatten (by decide) x.value).symm
    · rw [sum_ownLen_take]
      exact ha
    · rw [hcontent, hlen]

/-- **Content and last separators of every word fit sixteen bits.** -/
def wordsFit (text : Text) : Bool :=
  (wordGroups (valueChunks text)).all fun group =>
    utf8Len (group.flatMap content) + lastSepLen group ≤ 65535

/-- The separators of a chunk are few. -/
theorem lastSepLen_le {v : Text} {group : List Chunk} (h : group ∈ wordGroups (valueChunks v)) :
    lastSepLen group ≤ 65535 := by
  rw [lastSepLen]
  cases hlast : group.getLast? with
  | none => exact Nat.zero_le _
  | some c =>
    have hc : c ∈ valueChunks v := by
      rw [← flatten_splitBy (fun c d : Chunk => c.wordId == d.wordId) (valueChunks v)]
      exact mem_flatten.mpr ⟨group, h, mem_of_getLast? hlast⟩
    have hlen := (segmentAndChunk_wellFormed (by decide) hc).text_len
    have hle := segmentAndChunk_le hc
    simp only [chunkBound, defaultMaxToken] at hle
    simp only [Option.map_some, Option.getD_some]
    omega

/-- A tail is short: its length is never cut. -/
theorem ownLen_tailWord {group : List Chunk} {first : Nat} {content overlap : Text} {sepLen : Nat}
    {w : Word} (h : w ∈ tailWord group first content overlap sepLen) :
    utf8Len w.content = w.token.info.ownLen - w.token.info.sepLen := by
  rw [Option.mem_def, tailWord] at h
  split at h
  · cases h
    simp only [wordToken]
    omega
  · cases h

/-- **The spans of a value's words can be read from the files** — the words' postings are all
there are, and each is where the files say — just when content and last separators of every
word fit sixteen bits, in a segment within the limits of its position map. -/
theorem spanStored_iff_wordsFit (hfits : MapFits docs number) :
    (∀ p ∈ (ofCollection table docs).wordSfxpost,
      ∃ y : ValueAt docs, ∃ w ∈ allWords y.value, p = y.wordPosting w) ∧
    ((∀ w ∈ allWords x.value, SpanStored table number x w) ↔ wordsFit x.value = true) := by
  refine ⟨fun p hp => (mem_wordSfxpost table).mp hp, ?_⟩
  rw [wordsFit, all_eq_true]
  constructor
  · intro h group hgroup
    refine decide_eq_true ?_
    obtain ⟨before, later, hgroups⟩ := append_of_mem hgroup
    have hsep := lastSepLen_le hgroup
    by_cases hcontent : group.flatMap content = []
    · rw [hcontent, utf8Len_nil, zero_add]
      exact hsep
    · have hw : mainWord before.flatten.length group later ∈ allWords x.value := by
        refine mem_valueWords.mpr ⟨before, group, later, hgroups, ?_⟩
        rw [groupWords, if_neg hcontent, zero_add]
        exact mem_cons_self ..
      have hlen := length_of_spanStored table number x hw (h _ hw)
      simp only [mainWord, wordToken] at hlen
      omega
  · intro h w hw
    rw [spanStored_iff table number x hfits hw]
    obtain ⟨before, group, later, hgroups, hw⟩ := mem_valueWords.mp hw
    have hfit := of_decide_eq_true (h group (by rw [hgroups]; simp))
    rw [groupWords] at hw
    split at hw
    · cases hw
    · rcases mem_cons.mp hw with rfl | hw
      · simp only [mainWord, wordToken]
        omega
      · exact ownLen_tailWord (Option.mem_toList.mp hw)

end Spans

/-- The entries of a collection numbered in the order they are interned. -/
def internNumber (docs : List (List Text)) (o : Ordinal) : UInt32 :=
  UInt32.ofNat (((Collector.collect docs).tokens.map Token.ordinal).idxOf o)

/-- Two words in each of two values are within the limits. -/
theorem mapFits_two_values :
    MapFits [["ab cd".toList, "cd  ef".toList]]
      (internNumber [["ab cd".toList, "cd  ef".toList]]) where
  numbered := by decide +kernel
  narrow := by decide +kernel
  placed := by decide +kernel
  bytes := by decide +kernel
  buffer := by decide +kernel

theorem spanStored_second_value :
    wordsFit "cd  ef".toList = true ∧ ∃ x : ValueAt [["ab cd".toList, "cd  ef".toList]],
      x.value = "cd  ef".toList ∧ (allWords x.value).length = 2 ∧ ∀ w ∈ allWords x.value,
        SpanStored asciiCase (internNumber [["ab cd".toList, "cd  ef".toList]]) x w :=
  ⟨by decide, ⟨0, ["ab cd".toList], "cd  ef".toList, [], rfl⟩, rfl, by decide,
    (spanStored_iff_wordsFit asciiCase _ _ mapFits_two_values).2.mpr (by decide)⟩

/-- A text without separators is one segment. -/
theorem splitIntoSegments_of_content {t : Text} (hne : t ≠ [])
    (h : ∀ c ∈ t, isContentChar c = true) : splitIntoSegments t = [⟨t, []⟩] := by
  obtain ⟨c, rest, rfl⟩ := exists_cons_of_ne_nil hne
  have hc : isContentChar c = true := h c mem_cons_self
  have htake : (c :: rest).takeWhile isContentChar = c :: rest := takeWhile_eq_self_iff.mpr h
  have hdrop : (c :: rest).dropWhile isContentChar = [] := dropWhile_eq_nil_iff.mpr h
  rw [splitIntoSegments, takeWhile_cons_of_neg (by simp [hc]),
    dropWhile_cons_of_neg (by simp [hc]), length_cons, splitLoop, htake, hdrop]
  · cases rest.length <;> rfl
  · exact hne

/-- The length of a word without separators is lost when it does not fit sixteen bits. -/
theorem span_lost_of_long (table : CaseTable) {t : Text} (h : ∀ c ∈ t, isContentChar c = true)
    (hlen : 65535 < utf8Len t) :
    ∃ x : ValueAt [[t]], x.value = t ∧
      ∃ w ∈ allWords x.value, w.content = t ∧ ∀ number, ¬ SpanStored table number x w := by
  have hne : t ≠ [] := by
    rintro rfl
    exact absurd hlen (by decide)
  have hgroups : wordGroups (valueChunks t) = [segmentChunks defaultMaxToken ⟨t, []⟩ 0] := by
    have htext : ∀ s ∈ [(⟨t, []⟩ : Segment)], s.text ≠ [] := by
      intro s hs
      rw [mem_singleton.mp hs]
      exact fun hnil => hne (append_eq_nil_iff.mp hnil).1
    rw [valueChunks, segmentAndChunk, splitIntoSegments_of_content hne h]
    exact wordGroups_chunksFrom (by decide) 0 htext
  have hcontent : (segmentChunks defaultMaxToken ⟨t, []⟩ 0).flatMap content = t := by
    rw [flatMap_def, segmentChunks_map_content, ← flatMap_def,
      (equalChunks_tiles_of (by decide) (one_le_base (by decide))).content]
  have hw : mainWord 0 (segmentChunks defaultMaxToken ⟨t, []⟩ 0) [] ∈ allWords t := by
    refine mem_valueWords.mpr ⟨[], _, [], hgroups, ?_⟩
    rw [groupWords, hcontent, if_neg hne]
    exact mem_cons_self ..
  refine ⟨⟨0, [], t, [], rfl⟩, rfl, _, hw, hcontent, fun number hstored => ?_⟩
  have hread := length_of_spanStored table number ⟨0, [], t, [], rfl⟩ hw hstored
  simp only [mainWord, wordToken, hcontent] at hread
  omega

/-- A word of `a`s, one byte too long for the sixteen bits. -/
def tooLongWord : Text := List.replicate 65536 'a'

/-- **The length of a word beyond sixteen bits is lost**: the entry of a word of 65536 bytes
says 65535, however the entries are numbered. -/
theorem tooLongWord_span_lost :
    ∃ x : ValueAt [[tooLongWord]], x.value = tooLongWord ∧
      ∃ w ∈ allWords x.value, w.content = tooLongWord ∧
        ∀ number, ¬ SpanStored asciiCase number x w := by
  refine span_lost_of_long asciiCase (fun c hc => ?_) ?_
  · rw [eq_of_mem_replicate hc]
    rfl
  · rw [tooLongWord, utf8Len_replicate_a]
    decide

end Lucivy.Briques
