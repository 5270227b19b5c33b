import Mathlib.Algebra.BigOperators.Group.List.Basic
import Lucivy.Tokenizer.EqualChunk

/-! # The laws of the chunks

What the equal-chunk tokenizer promises of the chunks of a text, for every maximum chunk size:
they tile the text, none is empty, each is content followed by separators, the words are numbered
in order and begin where they are marked, and no chunk is longer than the maximum. A cut moves to
the next character boundary, so the last of these depends on where the characters lie.

* `Lawful` — the promises.
* `textFits` — no character reaches from before a planned cut to behind the maximum.
* `lawful_iff_textFits` — the tokenizer keeps its promises exactly for such texts. -/

namespace Lucivy.Tokenizer

open Lucivy.Foundation List
open String (utf8Len utf8Len_cons utf8Len_append)

/-- **The laws of the chunks of a text.** -/
structure Lawful (text : Text) (maxToken : Nat) (chunks : List Chunk) : Prop where
  /-- They concatenate to the text. -/
  tiles : (chunks.map Chunk.text).flatten = text
  /-- Every cut lies between two characters of the text. -/
  cuts : ∀ k, ((chunks.take k).map Chunk.text).flatten <+: text
  text_ne : ∀ c ∈ chunks, c.text ≠ []
  /-- Each is content followed by separators, of the stated lengths. -/
  content_sep : ∀ c ∈ chunks, ∃ content sep, c.text = content ++ sep ∧
    (∀ d ∈ content, isContentChar d = true) ∧ (∀ d ∈ sep, isContentChar d = false) ∧
    c.contentLen = utf8Len content ∧ c.sepLen = utf8Len sep
  /-- The two lengths are all of it. -/
  text_len : ∀ c ∈ chunks, c.contentLen + c.sepLen = utf8Len c.text
  /-- The first word has number 0. -/
  first_word : ∀ c ∈ chunks.head?, c.wordId = 0
  /-- The words follow each other without a gap. -/
  next_word : chunks.IsChain fun c d => d.wordId = c.wordId ∨ d.wordId = c.wordId + 1
  /-- A chunk is marked just when it is the first of its word. -/
  word_start : ∀ before c after, chunks = before ++ c :: after →
    (c.isWordStart = true ↔ ∀ d ∈ before, d.wordId ≠ c.wordId)
  /-- None is longer than the maximum. -/
  bounded : ∀ c ∈ chunks, utf8Len c.text ≤ maxToken

/-! ## Where a cut may go too far -/

/-- No character of the text starts within the first `target` bytes and ends behind the first
`maxToken`. -/
def cutFits (maxToken target : Nat) (rest : Text) : Bool :=
  (offsets 0 rest).all fun p => !(p.1 < target && maxToken < p.1 + p.2.utf8Size)

/-- The planned cuts of what is left of a segment, one behind the other: `n` chunks are still
planned, the next one is number `i`. -/
def cutsFit (maxToken base extra : Nat) : Nat → Nat → Text → Bool
  | 0, _, _ => true
  | n + 1, i, rest =>
    let target := if i < extra then base + 1 else base
    cutFits maxToken target rest && cutsFit maxToken base extra n (i + 1) (cutAfter target rest).2

/-- The planned cuts of a segment that is longer than the maximum. -/
def segmentFits (maxToken : Nat) (seg : Segment) : Bool :=
  let total := utf8Len seg.text
  let numChunks := plannedChunks total maxToken
  total ≤ maxToken || cutsFit maxToken (total / numChunks) (total % numChunks) numChunks 0 seg.text

/-- **The characters of a text fit its planned cuts**: none starts before the planned end of a
chunk and ends more than the maximum behind the chunk's start. -/
def textFits (maxToken : Nat) (text : Text) : Bool :=
  (splitIntoSegments text).all (segmentFits maxToken)

/-- The cut stays within the maximum just when no character reaches over both marks. -/
theorem cutAfter_le_iff (maxToken : Nat) (rest : Text) {off n : Nat} (hoff : off ≤ maxToken) :
    off + utf8Len (cutAfter n rest).1 ≤ maxToken ↔
      ∀ p ∈ offsets off rest, p.1 < off + n → p.1 + p.2.utf8Size ≤ maxToken := by
  induction rest generalizing off n with
  | nil => simpa [cutAfter, offsets] using hoff
  | cons c rest ih =>
    cases n with
    | zero =>
      refine ⟨fun _ p hp hlt => ?_, fun _ => by simpa using hoff⟩
      have := (lt_of_mem_offsets hp).1
      omega
    | succ n =>
      simp only [cutAfter, offsets, utf8Len_cons, forall_mem_cons]
      -- behind the character the marks are as far as before, or already passed
      have htail : (∀ p ∈ offsets (off + c.utf8Size) rest, p.1 < off + (n + 1) →
            p.1 + p.2.utf8Size ≤ maxToken) ↔
          ∀ p ∈ offsets (off + c.utf8Size) rest,
            p.1 < off + c.utf8Size + (n + 1 - c.utf8Size) → p.1 + p.2.utf8Size ≤ maxToken := by
        refine forall₂_congr fun p hp => ?_
        have := (lt_of_mem_offsets hp).1
        omega
      rw [htail]
      constructor
      · intro h
        have hle : off + c.utf8Size ≤ maxToken := by omega
        exact ⟨fun _ => hle, (ih hle).mp (by omega)⟩
      · rintro ⟨hle, hrest⟩
        have := (ih (hle (by omega))).mpr hrest
        omega

theorem cutFits_iff (maxToken target : Nat) (rest : Text) :
    cutFits maxToken target rest = true ↔ utf8Len (cutAfter target rest).1 ≤ maxToken := by
  have h := cutAfter_le_iff maxToken rest (n := target) (Nat.zero_le _)
  rw [Nat.zero_add, Nat.zero_add] at h
  rw [h, cutFits, all_eq_true]
  refine forall₂_congr fun p _ => ?_
  simp only [Bool.not_eq_true', Bool.and_eq_false_iff, decide_eq_false_iff_not]
  omega

/-- **The chunk loop keeps to the maximum just when the planned cuts fit.** -/
theorem equalChunksLoop_bounded {maxToken contentLen base extra : Nat} (n i offset : Nat)
    (rest : Text) :
    (∀ r ∈ equalChunksLoop contentLen base extra n i offset rest, utf8Len r.text ≤ maxToken) ↔
      cutsFit maxToken base extra n i rest = true := by
  induction n generalizing i offset rest with
  | zero => exact ⟨fun _ => rfl, fun _ r hr => (not_mem_nil hr).elim⟩
  | succ n ih =>
    by_cases hrest : rest = []
    · subst hrest
      have hdone : ∀ k j, cutsFit maxToken base extra k j [] = true := by
        intro k
        induction k with
        | zero => exact fun _ => rfl
        | succ k ihk => exact fun j => by rw [cutsFit]; exact ihk (j + 1)
      exact ⟨fun _ => hdone _ _, fun _ r hr => (not_mem_nil hr).elim⟩
    · rw [equalChunksLoop_succ n i offset hrest rfl, forall_mem_cons, cutsFit,
        Bool.and_eq_true, cutFits_iff, ih]

theorem equalChunks_bounded {maxToken : Nat} (seg : Segment) :
    (∀ r ∈ equalChunks seg maxToken, utf8Len r.text ≤ maxToken) ↔
      segmentFits maxToken seg = true := by
  rw [segmentFits, Bool.or_eq_true, decide_eq_true_eq]
  by_cases hone : utf8Len seg.text ≤ maxToken
  · exact ⟨fun _ => .inl hone, fun _ r hr => equalChunks_le_of_le hone hr⟩
  · rw [equalChunks_of_lt (Nat.lt_of_not_le hone), equalChunksLoop_bounded]
    exact ⟨.inr, fun h => h.resolve_left hone⟩

/-! ## Content and separators -/

/-- A run of chunks that tiles content and separators: what follows the content of a chunk has
none, as all the content there is has been counted. -/
theorem sep_of_tiles {raws : List RawChunk} {content sep : Text} {base : Nat}
    (h : Tiles raws content sep base) (hsep : ∀ d ∈ sep, isContentChar d = false) {r : RawChunk}
    (hr : r ∈ raws) : ∀ d ∈ (cutBefore r.contentLen r.text).2, isContentChar d = false := by
  have hsplit : List.countP isContentChar ∘ RawChunk.text = fun r : RawChunk =>
      r.content.countP isContentChar + (cutBefore r.contentLen r.text).2.countP isContentChar := by
    funext r
    rw [RawChunk.content, ← List.countP_append, cutBefore_append]
    rfl
  have hcount := congrArg (List.countP isContentChar) h.text
  have hnone : sep.countP isContentChar = 0 :=
    List.countP_eq_zero.mpr fun d hd => by rw [hsep d hd]; exact Bool.false_ne_true
  rw [List.countP_append, hnone, add_zero, List.countP_flatMap,
    hsplit, List.sum_map_add] at hcount
  have hcontent := congrArg (List.countP isContentChar) h.content
  rw [List.countP_flatMap] at hcontent
  have hzero := Nat.add_left_cancel (hcount.trans hcontent.symm : _ = _ + 0)
  have hmem := List.sum_eq_zero_iff_forall_eq_nat.mp hzero _ (List.mem_map.mpr ⟨r, hr, rfl⟩)
  exact fun d hd => by simpa using List.countP_eq_zero.mp hmem d hd

/-- **Each chunk of a segment is content followed by separators.** -/
theorem content_sep_of_tiles {raws : List RawChunk} {content sep : Text} {base : Nat}
    (h : Tiles raws content sep base) (hcontent : ∀ d ∈ content, isContentChar d = true)
    (hsep : ∀ d ∈ sep, isContentChar d = false) {r : RawChunk} (hr : r ∈ raws) :
    ∃ content sep, r.text = content ++ sep ∧ (∀ d ∈ content, isContentChar d = true) ∧
      (∀ d ∈ sep, isContentChar d = false) ∧ r.contentLen = utf8Len content ∧
      r.sepLen = utf8Len sep := by
  have hwf := h.wellFormed r hr
  have htext : r.content ++ (cutBefore r.contentLen r.text).2 = r.text := cutBefore_append _ _
  refine ⟨r.content, _, htext.symm, fun d hd => hcontent d ?_, sep_of_tiles h hsep hr,
    hwf.content_len.symm, ?_⟩
  · rw [← h.content]
    exact mem_flatMap.mpr ⟨r, hr, hd⟩
  · have := hwf.text_len
    rw [← htext, utf8Len_append, hwf.content_len] at this
    omega

/-! ## Words -/

/-- The chunks of one segment are numbered alike, and the first one is marked. -/
theorem segmentChunks_word {maxToken : Nat} {seg : Segment} {wordId : Nat}
    {before after : List Chunk}
    {c : Chunk} (h : segmentChunks maxToken seg wordId = before ++ c :: after) :
    c.wordId = wordId ∧ (c.isWordStart = true ↔ before = []) := by
  have hget : (segmentChunks maxToken seg wordId)[before.length]? = some c := by
    rw [h, getElem?_append_right (le_refl _), Nat.sub_self]
    rfl
  rw [segmentChunks, getElem?_map, getElem?_zipIdx] at hget
  cases hraw : (equalChunks seg maxToken)[before.length]? with
  | none => rw [hraw] at hget; cases hget
  | some r =>
    rw [hraw] at hget
    cases hget
    refine ⟨rfl, ?_⟩
    rw [beq_iff_eq, zero_add, length_eq_zero_iff]

theorem wordId_of_mem_segmentChunks {maxToken : Nat} {seg : Segment} {wordId : Nat} {c : Chunk}
    (h : c ∈ segmentChunks maxToken seg wordId) : c.wordId = wordId := by
  obtain ⟨-, -, -, -, -, hid⟩ := exists_raw_of_mem_segmentChunks h
  exact hid

/-- The chunks of some segments, the first of them number `k`. -/
def chunksFrom (maxToken k : Nat) (segs : List Segment) : List Chunk :=
  (segs.zipIdx k).flatMap fun p => segmentChunks maxToken p.1 p.2

@[simp] theorem chunksFrom_cons (maxToken k : Nat) (seg : Segment) (segs : List Segment) :
    chunksFrom maxToken k (seg :: segs) =
      segmentChunks maxToken seg k ++ chunksFrom maxToken (k + 1) segs := rfl

theorem le_wordId_of_mem_chunksFrom {maxToken k : Nat} {segs : List Segment} {c : Chunk}
    (h : c ∈ chunksFrom maxToken k segs) : k ≤ c.wordId := by
  induction segs generalizing k with
  | nil => cases h
  | cons seg segs ih =>
    rcases mem_append.mp h with h | h
    · exact (wordId_of_mem_segmentChunks h).ge
    · exact (Nat.le_succ k).trans (ih h)

/-- **A chunk is marked just when it is the first of its word.** -/
theorem chunksFrom_word_start {maxToken k : Nat} {segs : List Segment} {before after : List Chunk}
    {c : Chunk} (h : chunksFrom maxToken k segs = before ++ c :: after) :
    c.isWordStart = true ↔ ∀ d ∈ before, d.wordId ≠ c.wordId := by
  induction segs generalizing k before with
  | nil => cases (append_eq_nil_iff.mp h.symm).2
  | cons seg segs ih =>
    -- in a later segment the words before have smaller numbers
    have hlater : ∀ {rest}, before = segmentChunks maxToken seg k ++ rest →
        chunksFrom maxToken (k + 1) segs = rest ++ c :: after →
        (c.isWordStart = true ↔ ∀ d ∈ before, d.wordId ≠ c.wordId) := by
      rintro rest rfl hrest
      have hlt : k < c.wordId := le_wordId_of_mem_chunksFrom
        (hrest ▸ mem_append_right _ mem_cons_self)
      rw [ih hrest, forall_mem_append]
      refine ⟨fun hnew => ⟨fun d hd => ?_, hnew⟩, And.right⟩
      rw [wordId_of_mem_segmentChunks hd]
      exact ne_of_lt hlt
    rcases append_eq_append_iff.mp h with ⟨rest, hbefore, hrest⟩ | ⟨rest, hseg, hrest⟩
    · exact hlater hbefore hrest
    · cases rest with
      | nil =>
        exact hlater ((append_nil _).symm.trans (hseg.symm.trans (append_nil _).symm)) hrest.symm
      | cons c' rest =>
        obtain ⟨rfl, -⟩ := List.cons.inj hrest
        obtain ⟨hid, hstart⟩ := segmentChunks_word hseg
        rw [hstart]
        constructor
        · rintro rfl d hd
          exact (not_mem_nil hd).elim
        · intro hnew
          refine eq_nil_iff_forall_not_mem.mpr fun d hd => hnew d hd ?_
          rw [hid]
          exact wordId_of_mem_segmentChunks (hseg ▸ mem_append_left _ hd)

section AnySize

variable {maxToken : Nat} (hmax : 0 < maxToken)
include hmax

theorem head?_chunksFrom (k : Nat) {segs : List Segment} (hsegs : ∀ s ∈ segs, s.text ≠ [])
    {c : Chunk}
    (h : c ∈ (chunksFrom maxToken k segs).head?) : c.wordId = k := by
  cases segs with
  | nil => cases h
  | cons seg segs =>
    rw [chunksFrom_cons, head?_append_of_ne_nil _
      (segmentChunks_ne_nil hmax (hsegs seg mem_cons_self) k)] at h
    exact wordId_of_mem_segmentChunks (mem_of_head? h)

/-- **The words are numbered without a gap.** -/
theorem chunksFrom_next_word (k : Nat) {segs : List Segment} (hsegs : ∀ s ∈ segs, s.text ≠ []) :
    (chunksFrom maxToken k segs).IsChain
      fun c d => d.wordId = c.wordId ∨ d.wordId = c.wordId + 1 := by
  induction segs generalizing k with
  | nil => exact .nil
  | cons seg segs ih =>
    have hrest : ∀ s ∈ segs, s.text ≠ [] := (forall_mem_cons.mp hsegs).2
    rw [chunksFrom_cons, isChain_append]
    refine ⟨?_, ih (k + 1) hrest, fun c hc d hd => .inr ?_⟩
    · refine (pairwise_of_forall_mem_list fun c hc d hd => .inl ?_).isChain
      rw [wordId_of_mem_segmentChunks hc, wordId_of_mem_segmentChunks hd]
    · rw [head?_chunksFrom hmax (k + 1) hrest hd, wordId_of_mem_segmentChunks (mem_of_getLast? hc)]

end AnySize

/-! ## The tokenizer -/

/-- Chunks are within the maximum just when the segments' planned cuts fit. -/
theorem chunksFrom_bounded (maxToken k : Nat) (segs : List Segment) :
    (∀ c ∈ chunksFrom maxToken k segs, utf8Len c.text ≤ maxToken) ↔
      segs.all (segmentFits maxToken) = true := by
  induction segs generalizing k with
  | nil => exact ⟨fun _ => rfl, fun _ c hc => (not_mem_nil hc).elim⟩
  | cons seg segs ih =>
    have hseg : (∀ c ∈ segmentChunks maxToken seg k, utf8Len c.text ≤ maxToken) ↔
        ∀ r ∈ equalChunks seg maxToken, utf8Len r.text ≤ maxToken := by
      have := congrArg (fun l : List Text => ∀ t ∈ l, utf8Len t ≤ maxToken)
        (segmentChunks_map_text seg k maxToken)
      simpa only [forall_mem_map] using this.to_iff
    rw [chunksFrom_cons, forall_mem_append, hseg, equalChunks_bounded, ih, all_cons,
      Bool.and_eq_true]

/-- **The tokenizer keeps its promises exactly for the texts whose characters fit the planned
cuts**: all but the maximum hold of every text. -/
theorem lawful_iff_textFits (text : Text) {maxToken : Nat} (hmax : 0 < maxToken) :
    Lawful text maxToken (segmentAndChunk text maxToken) ↔ textFits maxToken text = true := by
  have hchunks : segmentAndChunk text maxToken = chunksFrom maxToken 0 (splitIntoSegments text) :=
    rfl
  obtain ⟨-, hwf⟩ := splitIntoSegments_spec text
  have hne : ∀ s ∈ splitIntoSegments text, s.text ≠ [] := fun s hs => (hwf s hs).text_ne
  rw [textFits, ← chunksFrom_bounded maxToken 0, ← hchunks]
  refine ⟨fun h => h.bounded, fun hbounded => ⟨segmentAndChunk_flatten hmax text, fun k => ?_,
    fun c hc => (segmentAndChunk_wellFormed hmax hc).text_ne, fun c hc => ?_,
    fun c hc => (segmentAndChunk_wellFormed hmax hc).text_len, fun c hc => ?_, ?_,
    fun before c after h => chunksFrom_word_start (hchunks ▸ h), hbounded⟩⟩
  · have htile := segmentAndChunk_flatten hmax text
    rw [← take_append_drop k (segmentAndChunk text maxToken), map_append, flatten_append] at htile
    exact ⟨_, htile⟩
  · obtain ⟨p, hp, hc⟩ := mem_flatMap.mp hc
    obtain ⟨r, hr, htext, hcontent, hsep, -⟩ := exists_raw_of_mem_segmentChunks hc
    have hseg := hwf p.1 (fst_mem_of_mem_zipIdx hp)
    rw [htext, hcontent, hsep]
    exact content_sep_of_tiles (equalChunks_tiles_of hmax (one_le_base hmax)) hseg.content
      hseg.sep hr
  · exact head?_chunksFrom hmax 0 hne (hchunks ▸ hc)
  · exact chunksFrom_next_word hmax 0 hne

/-- The last word is longer than the maximum. -/
theorem lawful_mutex_lock :
    0 < 8 ∧ Lawful "mutex_lock_contention".toList 8
        (segmentAndChunk "mutex_lock_contention".toList 8) ∧
      (segmentAndChunk "mutex_lock_contention".toList 8).map (fun c => utf8Len c.text) =
        [6, 5, 5, 5] :=
  ⟨by decide, (lawful_iff_textFits _ (by decide)).mpr (by decide), by decide⟩

/-- **A cut inside a character goes past the maximum**: of 16 bytes with an accented letter in
the middle the first chunk takes nine. -/
theorem chunk_past_maximum :
    ¬ Lawful "aaaaaaaéaaaaaaa".toList defaultMaxToken
      (segmentAndChunk "aaaaaaaéaaaaaaa".toList defaultMaxToken) ∧
    (segmentAndChunk "aaaaaaaéaaaaaaa".toList defaultMaxToken).map (fun c => utf8Len c.text) =
      [9, 7] := by
  refine ⟨fun h => ?_, by decide⟩
  have := h.bounded ⟨"aaaaaaaé".toList, 9, 0, true, 0⟩ (by decide)
  exact absurd this (by decide)

end Lucivy.Tokenizer
