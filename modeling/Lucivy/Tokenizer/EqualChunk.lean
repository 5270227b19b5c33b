import Mathlib.Data.List.Chain
import Mathlib.Data.List.TakeWhile
import Lucivy.Foundation.Utf8

/-! # Equal chunks

`EqualChunkTokenizer` (`tokenizer/equal_chunk.rs`): a text is split into segments, each a run
of content characters with the separators that follow it, and a segment of more than
`max_token` bytes is divided into chunks of nearly equal length.

* `splitIntoSegments`, `equalChunks`, `segmentAndChunk` — the tokenizer.
* `segmentAndChunk_flatten` — the chunks tile the text.
* `content_after_short_chunk` — what follows a chunk of one or two bytes is content. -/

namespace Lucivy.Tokenizer

open Lucivy.Foundation List Nat
open String (utf8Len utf8Len_nil utf8Len_append utf8Len_eq_zero)

def defaultMaxToken : Nat := 8

/-- `is_content_char`: anything but ASCII punctuation, whitespace and control characters. -/
def isContentChar (c : Char) : Bool := decide (127 < c.toNat) || c.isAlphanum

/-! ## Segments -/

/-- `Segment`: a run of content and the separators behind it. -/
structure Segment where
  content : Text
  /-- The separators up to the next content. -/
  sep : Text
deriving DecidableEq, Repr

def Segment.text (s : Segment) : Text := s.content ++ s.sep

/-- The loop of `split_into_segments`; every turn takes at least one character, so the length
of the text is fuel enough. -/
def splitLoop : Nat → Text → List Segment
  | 0, _ => []
  | _, [] => []
  | fuel + 1, text =>
    let content := text.takeWhile isContentChar
    let rest := text.dropWhile isContentChar
    ⟨content, rest.takeWhile (!isContentChar ·)⟩ ::
      splitLoop fuel (rest.dropWhile (!isContentChar ·))

/-- `split_into_segments`: leading separators become a segment without content. -/
def splitIntoSegments (text : Text) : List Segment :=
  let leading := text.takeWhile (!isContentChar ·)
  let rest := text.dropWhile (!isContentChar ·)
  let words := splitLoop text.length rest
  if leading = [] then words else ⟨[], leading⟩ :: words

/-! ## Chunks -/

/-- A chunk of a segment: its text and how many bytes of it are content and separator. -/
structure RawChunk where
  text : Text
  contentLen : Nat
  sepLen : Nat
deriving DecidableEq, Repr

/-- The content of the chunk, `text[..content_len]`. -/
def RawChunk.content (r : RawChunk) : Text := (cutBefore r.contentLen r.text).1

/-- The loop of `equal_chunks`: `n` chunks are still planned, the next one is number `i` and
starts at byte `offset`. A chunk ends on a character boundary, so the last planned ones can
find nothing left. -/
def equalChunksLoop (contentLen base extra : Nat) : Nat → Nat → Nat → Text → List RawChunk
  | 0, _, _, _ => []
  | _ + 1, _, _, [] => []
  | n + 1, i, offset, rest =>
    let cut := cutAfter (if i < extra then base + 1 else base) rest
    let len := utf8Len cut.1
    let contentIn := if contentLen ≤ offset then 0 else if offset + len ≤ contentLen then len
      else contentLen - offset
    ⟨cut.1, contentIn, len - contentIn⟩ ::
      equalChunksLoop contentLen base extra n (i + 1) (offset + len) cut.2

def equalChunks (seg : Segment) (maxToken : Nat) : List RawChunk :=
  let total := utf8Len seg.text
  if total = 0 then []
  else if total ≤ maxToken then [⟨seg.text, utf8Len seg.content, utf8Len seg.sep⟩]
  else
    let numChunks := (total + maxToken - 1) / maxToken
    equalChunksLoop (utf8Len seg.content) (total / numChunks) (total % numChunks) numChunks 0 0
      seg.text

/-- A chunk with its `ChunkMeta`. -/
structure Chunk where
  text : Text
  contentLen : Nat
  /-- Separator bytes behind the content. -/
  sepLen : Nat
  /-- The first chunk of its segment. -/
  isWordStart : Bool
  /-- The segment it belongs to. -/
  wordId : Nat
deriving DecidableEq, Repr

/-- The content of the chunk, `text[..content_len]`. -/
def Chunk.content (c : Chunk) : Text := (cutBefore c.contentLen c.text).1

/-- The chunks of segment number `wordId`. -/
def segmentChunks (maxToken : Nat) (seg : Segment) (wordId : Nat) : List Chunk :=
  (equalChunks seg maxToken).zipIdx.map fun p =>
    ⟨p.1.text, p.1.contentLen, p.1.sepLen, p.2 == 0, wordId⟩

def segmentAndChunk (text : Text) (maxToken : Nat) : List Chunk :=
  (splitIntoSegments text).zipIdx.flatMap fun p => segmentChunks maxToken p.1 p.2

/-! ## What the segments are -/

/-- Content, then separators. -/
structure Segment.WellFormed (s : Segment) : Prop where
  content : ∀ c ∈ s.content, isContentChar c = true
  /-- What is behind it holds none. -/
  sep : ∀ c ∈ s.sep, isContentChar c = false
  text_ne : s.text ≠ []

/-- A text that begins with content, or is empty. -/
def StartsContent : Text → Prop
  | [] => True
  | c :: _ => isContentChar c = true

theorem startsContent_dropWhile (t : Text) : StartsContent (t.dropWhile (!isContentChar ·)) := by
  have hhead := head?_dropWhile_not (!isContentChar ·) t
  cases h : t.dropWhile (!isContentChar ·) with
  | nil => trivial
  | cons c u =>
    rw [h] at hhead
    simpa [StartsContent] using hhead

variable {t : Text} {r : RawChunk} {total maxToken : Nat} {seg : Segment}

theorem takeWhile_ne_nil (ht : t ≠ []) (hstart : StartsContent t) :
    t.takeWhile isContentChar ≠ [] := by
  cases t with
  | nil => exact absurd rfl ht
  | cons c u =>
    have hc : isContentChar c = true := hstart
    rw [takeWhile_cons, if_pos hc]
    exact cons_ne_nil c _

/-- A segment takes characters. -/
theorem length_after_segment_lt (ht : t ≠ []) (hstart : StartsContent t) :
    ((t.dropWhile isContentChar).dropWhile (!isContentChar ·)).length < t.length := by
  have hlen := congrArg List.length (takeWhile_append_dropWhile (p := isContentChar) (l := t))
  have hpos := length_pos_of_ne_nil (takeWhile_ne_nil ht hstart)
  have hle := ((t.dropWhile isContentChar).dropWhile_suffix (!isContentChar ·)).length_le
  rw [length_append] at hlen
  omega

/-- **The segments of a text that begins with content**: they tile it, each is well formed and
has content. -/
theorem splitLoop_spec {fuel : Nat} (hfuel : t.length ≤ fuel) (hstart : StartsContent t) :
    (splitLoop fuel t).flatMap Segment.text = t ∧
      ∀ s ∈ splitLoop fuel t, s.WellFormed ∧ s.content ≠ [] := by
  induction fuel generalizing t with
  | zero =>
    have ht : t = [] := length_eq_zero_iff.mp (le_zero.mp hfuel)
    subst ht
    exact ⟨rfl, forall_mem_nil _⟩
  | succ fuel ih =>
    rcases eq_or_ne t [] with rfl | hne
    · exact ⟨rfl, forall_mem_nil _⟩
    · have hlt := length_after_segment_lt hne hstart
      obtain ⟨htile, hwf⟩ := ih (t := (t.dropWhile isContentChar).dropWhile (!isContentChar ·))
        (by omega) (startsContent_dropWhile _)
      have hunfold : splitLoop (fuel + 1) t =
          ⟨t.takeWhile isContentChar, (t.dropWhile isContentChar).takeWhile (!isContentChar ·)⟩ ::
          splitLoop fuel ((t.dropWhile isContentChar).dropWhile (!isContentChar ·)) := by
        rw [splitLoop]
        exact hne
      rw [hunfold]
      refine ⟨?_, forall_mem_cons.mpr ⟨⟨⟨fun c hc => mem_takeWhile_imp hc, fun c hc => ?_, ?_⟩,
        takeWhile_ne_nil hne hstart⟩, hwf⟩⟩
      · rw [flatMap_cons, htile, Segment.text, append_assoc,
          takeWhile_append_dropWhile, takeWhile_append_dropWhile]
      · simpa using mem_takeWhile_imp hc
      · exact fun h => takeWhile_ne_nil hne hstart (append_eq_nil_iff.mp h).1

/-- **The segments tile the text** and are well formed. -/
theorem splitIntoSegments_spec (t : Text) :
    (splitIntoSegments t).flatMap Segment.text = t ∧ ∀ s ∈ splitIntoSegments t, s.WellFormed := by
  obtain ⟨htile, hwf⟩ :=
    splitLoop_spec (t.dropWhile_suffix _).length_le (startsContent_dropWhile t)
  rw [splitIntoSegments]
  split
  · next hleading =>
    refine ⟨?_, fun s hs => (hwf s hs).1⟩
    rw [htile]
    have := takeWhile_append_dropWhile (p := (!isContentChar ·)) (l := t)
    rwa [hleading] at this
  · next hleading =>
    refine ⟨?_, forall_mem_cons.mpr ⟨⟨forall_mem_nil _, fun c hc => ?_, hleading⟩,
      fun s hs => (hwf s hs).1⟩⟩
    · rw [flatMap_cons, htile, Segment.text, nil_append, takeWhile_append_dropWhile]
    · simpa using mem_takeWhile_imp hc

/-- Only the first segment can be without content. -/
theorem content_of_later_segment {s : Segment} {before after : List Segment}
    (h : splitIntoSegments t = before ++ s :: after) (hbefore : before ≠ []) : s.content ≠ [] := by
  have hwf := (splitLoop_spec (t.dropWhile_suffix _).length_le (startsContent_dropWhile t)).2
  rw [splitIntoSegments] at h
  split at h
  · exact (hwf s (h ▸ mem_append_cons_self)).2
  · obtain ⟨b, bs, rfl⟩ := exists_cons_of_ne_nil hbefore
    exact (hwf s ((List.cons.inj h).2 ▸ mem_append_cons_self)).2

/-! ## What the chunks are -/

/-- A chunk that is not empty, its content first. -/
structure RawChunk.WellFormed (r : RawChunk) : Prop where
  text_ne : r.text ≠ []
  /-- The content ends on a character boundary. -/
  content_len : utf8Len r.content = r.contentLen
  /-- Content and separators are all of it. -/
  text_len : r.contentLen + r.sepLen = utf8Len r.text

/-- The bytes of content in a chunk of `len` bytes at `offset`. -/
theorem contentIn_eq_min (contentLen offset len : Nat) :
    (if contentLen ≤ offset then 0 else if offset + len ≤ contentLen then len
      else contentLen - offset) = min len (contentLen - offset) := by
  split
  · omega
  · split <;> omega

/-- A chunk that covers the text `content ++ sep` up to a cut. -/
theorem RawChunk.content_of_append {content rest cut : Text} {n : Nat}
    (h : cut = content ++ rest) (hn : n = utf8Len content) (m : Nat) :
    (RawChunk.mk cut n m).content = content := by
  rw [RawChunk.content, h, hn, cutBefore_utf8Len]

/-- What a list of chunks is to the segment text `content ++ sep`: a tiling, its contents a
tiling of the content, all but the last chunk of at least `base` bytes. -/
structure Tiles (raws : List RawChunk) (content sep : Text) (base : Nat) : Prop where
  /-- The chunks tile the text. -/
  text : raws.flatMap RawChunk.text = content ++ sep
  /-- Their contents tile the content. -/
  content : raws.flatMap RawChunk.content = content
  wellFormed : ∀ r ∈ raws, r.WellFormed
  /-- All but the last are long. -/
  long : ∀ before r after, raws = before ++ r :: after → after ≠ [] → base ≤ utf8Len r.text

theorem Tiles.nil (base : Nat) : Tiles [] [] [] base :=
  ⟨rfl, rfl, forall_mem_nil _,
    fun before _ _ h => (append_ne_nil_of_right_ne_nil before (cons_ne_nil _ _) h.symm).elim⟩

/-- One chunk more in front. -/
theorem Tiles.cons {raws : List RawChunk} {content sep : Text} {base : Nat} {content' sep' : Text}
    (h : Tiles raws content sep base) (hr : r.WellFormed)
    (htext : r.text ++ (content ++ sep) = content' ++ sep')
    (hcontent : r.content ++ content = content') (hlong : raws ≠ [] → base ≤ utf8Len r.text) :
    Tiles (r :: raws) content' sep' base := by
  refine ⟨?_, ?_, forall_mem_cons.mpr ⟨hr, h.wellFormed⟩, fun before x after heq hafter => ?_⟩
  · rw [flatMap_cons, h.text, htext]
  · rw [flatMap_cons, h.content, hcontent]
  · cases before with
    | nil =>
      obtain ⟨rfl, rfl⟩ := List.cons.inj heq
      exact hlong hafter
    | cons b before => exact h.long before x after (List.cons.inj heq).2 hafter

/-- One turn of the loop, with something left. -/
theorem equalChunksLoop_succ {contentLen base extra : Nat} (n i offset : Nat) {rest : Text}
    (hrest : rest ≠ []) {target : Nat} (htarget : target = if i < extra then base + 1 else base) :
    equalChunksLoop contentLen base extra (n + 1) i offset rest =
      ⟨(cutAfter target rest).1, min (utf8Len (cutAfter target rest).1) (contentLen - offset),
        utf8Len (cutAfter target rest).1 -
          min (utf8Len (cutAfter target rest).1) (contentLen - offset)⟩ ::
      equalChunksLoop contentLen base extra n (i + 1)
        (offset + utf8Len (cutAfter target rest).1) (cutAfter target rest).2 := by
  rw [equalChunksLoop, ← htarget, contentIn_eq_min]
  exact hrest

/-- **The chunk loop tiles what is left**, with enough chunks planned for it. -/
theorem equalChunksLoop_tiles {contentLen base : Nat} (extra : Nat) (hbase : 0 < base)
    (n i offset : Nat) (content sep : Text) (hcontent : utf8Len content = contentLen - offset)
    (hextra : extra ≤ i + n) (hplan : utf8Len (content ++ sep) ≤ n * base + (extra - i)) :
    Tiles (equalChunksLoop contentLen base extra n i offset (content ++ sep)) content sep base := by
  induction n generalizing i offset content sep with
  | zero =>
    have hnil : content ++ sep = [] := utf8Len_eq_zero.mp (by omega)
    obtain ⟨rfl, rfl⟩ := append_eq_nil_iff.mp hnil
    exact .nil base
  | succ n ih =>
    by_cases hrest : content ++ sep = []
    · obtain ⟨rfl, rfl⟩ := append_eq_nil_iff.mp hrest
      exact .nil base
    · obtain ⟨target, htarget⟩ : ∃ target, target = if i < extra then base + 1 else base := ⟨_, rfl⟩
      rw [equalChunksLoop_succ n i offset hrest htarget]
      have hne := cutAfter_ne_nil (n := target) (t := content ++ sep)
        (by split at htarget <;> omega) hrest
      have hlong := le_utf8Len_cutAfter target (content ++ sep)
      have hcut := cutAfter_append target (content ++ sep)
      generalize (cutAfter target (content ++ sep)).1 = chunk at hne hlong hcut ⊢
      generalize (cutAfter target (content ++ sep)).2 = rest at hlong hcut ⊢
      have hlen : utf8Len chunk + utf8Len rest = utf8Len (content ++ sep) := by
        rw [← utf8Len_append, hcut]
      have hplan' : utf8Len rest ≤ n * base + (extra - (i + 1)) := by
        rcases hlong with hlong | rfl
        · rw [succ_mul] at hplan
          split at htarget <;> omega
        · exact zero_le _
      have hlast : equalChunksLoop contentLen base extra n (i + 1) (offset + utf8Len chunk) rest ≠
          [] → base ≤ utf8Len chunk := by
        intro hmore
        rcases hlong with hlong | rfl
        · split at htarget <;> omega
        · exact absurd (by cases n <;> rfl) hmore
      -- the cut falls in the content, or behind it
      obtain ⟨front, back, content', sep', rfl, rfl, rfl, rfl, hempty⟩ : ∃ front back content' sep',
          chunk = front ++ back ∧ content = front ++ content' ∧ rest = content' ++ sep' ∧
            sep = back ++ sep' ∧ (utf8Len back = 0 ∨ utf8Len content' = 0) := by
        rcases append_eq_append_iff.mp hcut with ⟨a, rfl, rfl⟩ | ⟨a, rfl, rfl⟩
        · exact ⟨chunk, [], a, sep, by simp⟩
        · exact ⟨content, a, [], rest, by simp⟩
      simp only [utf8Len_append] at hcontent
      have hmin : min (utf8Len (front ++ back)) (contentLen - offset) = utf8Len front := by
        rw [utf8Len_append]
        omega
      rw [hmin]
      have hwhole (m) : (RawChunk.mk (front ++ back) (utf8Len front) m).content = front :=
        RawChunk.content_of_append rfl rfl _
      refine (ih (i + 1) _ content' sep' ?_ (by omega) hplan').cons ⟨hne, by rw [hwhole], ?_⟩ ?_ ?_
        hlast
      · rw [utf8Len_append]
        omega
      · simp only [utf8Len_append]
        omega
      · exact hcut
      · rw [hwhole]

/-- The number of chunks planned for a segment that needs several. -/
def plannedChunks (total maxToken : Nat) : Nat := (total + maxToken - 1) / maxToken

section

variable (hmax : 0 < maxToken)
include hmax

/-- A long segment is cut. -/
theorem plannedChunks_pos (h : maxToken < total) : 0 < plannedChunks total maxToken := by
  exact div_pos (by omega) hmax

/-- The planned chunks suffice. -/
theorem le_mul_plannedChunks : total ≤ maxToken * plannedChunks total maxToken := by
  have hdiv := div_add_mod (total + maxToken - 1) maxToken
  have hmod := mod_lt (total + maxToken - 1) hmax
  rw [plannedChunks]
  omega

/-- None is planned empty. -/
theorem plannedChunks_le : plannedChunks total maxToken ≤ total := by
  refine Nat.le_of_lt_succ (Nat.div_lt_of_lt_mul ?_)
  have := Nat.le_mul_of_pos_left total hmax
  rw [mul_succ]
  omega

/-- The planned length of a chunk is not zero. -/
theorem one_le_base (h : maxToken < total) : 1 ≤ total / plannedChunks total maxToken :=
  (le_div_iff_mul_le (plannedChunks_pos hmax h)).mpr (by rw [one_mul]; exact plannedChunks_le hmax)

end

/-- The planned chunk length of a segment that needs several chunks. -/
theorem four_le_base {total : Nat} (h : defaultMaxToken < total) :
    4 ≤ total / plannedChunks total defaultMaxToken := by
  simp only [plannedChunks, defaultMaxToken] at h ⊢
  rw [le_div_iff_mul_le (by omega)]
  omega

/-- The chunks of a segment that needs several. -/
theorem equalChunks_of_lt {maxToken : Nat} (h : maxToken < utf8Len seg.text) :
    equalChunks seg maxToken =
      equalChunksLoop (utf8Len seg.content)
        (utf8Len seg.text / plannedChunks (utf8Len seg.text) maxToken)
        (utf8Len seg.text % plannedChunks (utf8Len seg.text) maxToken)
        (plannedChunks (utf8Len seg.text) maxToken) 0 0 seg.text := by
  rw [equalChunks, if_neg (Nat.ne_of_gt (Nat.zero_lt_of_lt h)), if_neg (Nat.not_le_of_lt h)]
  rfl

/-- **A segment's chunks tile it**; where it needs several, all but the last have at least the
planned length. -/
theorem equalChunks_tiles_of {maxToken least : Nat} (hmax : 0 < maxToken)
    (hleast : maxToken < utf8Len seg.text →
      least ≤ utf8Len seg.text / plannedChunks (utf8Len seg.text) maxToken) :
    Tiles (equalChunks seg maxToken) seg.content seg.sep least := by
  by_cases hone : utf8Len seg.text ≤ maxToken
  · rw [equalChunks]
    by_cases hzero : utf8Len seg.text = 0
    · rw [if_pos hzero]
      obtain ⟨hc, hs⟩ := append_eq_nil_iff.mp (utf8Len_eq_zero.mp hzero)
      rw [hc, hs]
      exact .nil least
    · rw [if_neg hzero, if_pos hone]
      have hcontent : (RawChunk.mk seg.text (utf8Len seg.content) (utf8Len seg.sep)).content =
          seg.content := RawChunk.content_of_append rfl rfl _
      refine (Tiles.nil least).cons ⟨?_, by rw [hcontent], (utf8Len_append ..).symm⟩ ?_ ?_
        fun h => absurd rfl h
      · exact fun h => hzero (utf8Len_eq_zero.mpr h)
      · exact append_nil _
      · rw [hcontent, append_nil]
  · have hlt := Nat.lt_of_not_le hone
    rw [equalChunks_of_lt hlt]
    have htiles := equalChunksLoop_tiles
      (utf8Len seg.text % plannedChunks (utf8Len seg.text) maxToken) (one_le_base hmax hlt)
      (plannedChunks (utf8Len seg.text) maxToken) 0 0 seg.content seg.sep rfl ?_ ?_
    · exact ⟨htiles.text, htiles.content, htiles.wellFormed, fun before r after heq hafter =>
        (hleast hlt).trans (htiles.long before r after heq hafter)⟩
    · rw [zero_add]
      exact (mod_lt _ (plannedChunks_pos hmax hlt)).le
    · rw [Nat.sub_zero, Nat.mul_comm]
      exact (div_add_mod' _ _ ▸ le_refl _)

/-- At the default size all chunks of a segment but the last have at least four bytes. -/
theorem equalChunks_tiles : Tiles (equalChunks seg defaultMaxToken) seg.content seg.sep 4 :=
  equalChunks_tiles_of (by decide) four_le_base

/-- No chunk is longer than a few characters more than planned. -/
theorem equalChunksLoop_le {contentLen base extra target : Nat}
    (htarget : ∀ i, (if i < extra then base + 1 else base) ≤ target) (n i offset : Nat)
    (rest : Text) (h : r ∈ equalChunksLoop contentLen base extra n i offset rest) :
    utf8Len r.text ≤ target + 3 := by
  induction n generalizing i offset rest with
  | zero => cases h
  | succ n ih =>
    by_cases hrest : rest = []
    · subst hrest
      cases h
    · rw [equalChunksLoop_succ n i offset hrest rfl] at h
      rcases mem_cons.mp h with rfl | h
      · exact (utf8Len_cutAfter_le _ rest).trans (Nat.add_le_add_right (htarget i) 3)
      · exact ih _ _ _ h

/-- No planned length is above the maximum. -/
theorem planned_le {total n maxToken : Nat} (hn : total ≤ maxToken * n) (i : Nat) :
    (if i < total % n then total / n + 1 else total / n) ≤ maxToken := by
  have hdiv := div_add_mod total n
  have hbase : total / n ≤ maxToken := Nat.div_le_of_le_mul (by rwa [mul_comm])
  split
  · -- a byte more than the base is planned only where the maximum would be too much
    by_contra hge
    have hmax : total / n = maxToken := by omega
    rw [hmax, mul_comm] at hdiv
    omega
  · exact hbase

/-- A segment no longer than the maximum is one chunk. -/
theorem equalChunks_le_of_le {maxToken : Nat} (hone : utf8Len seg.text ≤ maxToken)
    (h : r ∈ equalChunks seg maxToken) : utf8Len r.text ≤ maxToken := by
  rw [equalChunks] at h
  split at h
  · cases h
  · rw [mem_singleton.mp h]
    exact hone

/-- No chunk is more than three bytes longer than the maximum. -/
theorem equalChunks_le_of {maxToken : Nat} (hmax : 0 < maxToken) (h : r ∈ equalChunks seg maxToken)
    : utf8Len r.text ≤ maxToken + 3 := by
  by_cases hone : utf8Len seg.text ≤ maxToken
  · exact (equalChunks_le_of_le hone h).trans (Nat.le_add_right ..)
  · rw [equalChunks_of_lt (Nat.lt_of_not_le hone)] at h
    exact equalChunksLoop_le (planned_le (le_mul_plannedChunks hmax)) _ _ _ _ h

/-- The longest a chunk can get. -/
def chunkBound : Nat := defaultMaxToken + 3

/-! ## The chunks of a text -/

/-- A chunk made from a raw one. -/
theorem exists_raw_of_mem_segmentChunks {wordId maxToken : Nat} {c : Chunk}
    (h : c ∈ segmentChunks maxToken seg wordId) :
    ∃ r ∈ equalChunks seg maxToken, c.text = r.text ∧ c.contentLen = r.contentLen ∧
      c.sepLen = r.sepLen ∧ c.wordId = wordId := by
  obtain ⟨⟨r, i⟩, hr, rfl⟩ := mem_map.mp h
  exact ⟨r, fst_mem_of_mem_zipIdx hr, rfl, rfl, rfl, rfl⟩

theorem segmentChunks_map_text (seg : Segment) (wordId maxToken : Nat) :
    (segmentChunks maxToken seg wordId).map Chunk.text =
      (equalChunks seg maxToken).map RawChunk.text := by
  conv_rhs => rw [← zipIdx_map_fst 0 (equalChunks seg maxToken), map_map]
  rw [segmentChunks, map_map]
  rfl

theorem segmentChunks_map_content (seg : Segment) (wordId maxToken : Nat) :
    (segmentChunks maxToken seg wordId).map Chunk.content =
      (equalChunks seg maxToken).map RawChunk.content := by
  conv_rhs => rw [← zipIdx_map_fst 0 (equalChunks seg maxToken), map_map]
  rw [segmentChunks, map_map]
  rfl

section AnySize

variable {maxToken : Nat} (hmax : 0 < maxToken)
include hmax

/-- A segment's chunks tile it. -/
theorem segmentChunks_flatten (seg : Segment) (wordId : Nat) :
    ((segmentChunks maxToken seg wordId).map Chunk.text).flatten = seg.text := by
  rw [segmentChunks_map_text, ← flatMap_def, (equalChunks_tiles_of hmax (one_le_base hmax)).text,
    Segment.text]

/-- A segment has a chunk. -/
theorem segmentChunks_ne_nil {seg : Segment} (h : seg.text ≠ []) (wordId : Nat) :
    segmentChunks maxToken seg wordId ≠ [] := by
  intro hnil
  have := segmentChunks_flatten hmax seg wordId
  rw [hnil] at this
  exact h this.symm

/-- **The chunks tile the text.** -/
theorem segmentAndChunk_flatten (t : Text) :
    ((segmentAndChunk t maxToken).map Chunk.text).flatten = t := by
  have hsegs := (splitIntoSegments_spec t).1
  rw [← zipIdx_map_fst 0 (splitIntoSegments t), flatMap_map, flatMap_def] at hsegs
  rw [segmentAndChunk, map_flatMap, flatMap_def, flatten_flatten, map_map]
  simpa only [Function.comp_def, segmentChunks_flatten hmax] using hsegs

end AnySize

/-- What is known of one chunk: it is not empty, and its content comes first. -/
structure Chunk.WellFormed (c : Chunk) : Prop where
  text_ne : c.text ≠ []
  /-- The content ends on a character boundary. -/
  content_len : utf8Len c.content = c.contentLen
  /-- Content and separators are all of it. -/
  text_len : c.contentLen + c.sepLen = utf8Len c.text

/-- Chunks are well formed. -/
theorem segmentAndChunk_wellFormed {maxToken : Nat} (hmax : 0 < maxToken) {c : Chunk}
    (h : c ∈ segmentAndChunk t maxToken) : c.WellFormed := by
  obtain ⟨p, -, hc⟩ := mem_flatMap.mp h
  obtain ⟨r, hr, htext, hcontent, hsep, -⟩ := exists_raw_of_mem_segmentChunks hc
  have hwf := (equalChunks_tiles_of hmax (one_le_base hmax)).wellFormed r hr
  refine ⟨htext ▸ hwf.text_ne, ?_, ?_⟩
  · rw [Chunk.content, hcontent, htext]
    exact hwf.content_len
  · rw [hcontent, hsep, htext]
    exact hwf.text_len

/-- Chunks are bounded. -/
theorem segmentAndChunk_le {c : Chunk} (h : c ∈ segmentAndChunk t defaultMaxToken) :
    utf8Len c.text ≤ chunkBound := by
  obtain ⟨p, -, hc⟩ := mem_flatMap.mp h
  obtain ⟨r, hr, htext, -⟩ := exists_raw_of_mem_segmentChunks hc
  rw [htext]
  exact equalChunks_le_of (by decide) hr

/-! ## Short chunks -/

/-- After a text of at most two bytes comes content. -/
def ContentAfterShort (t u : Text) : Prop := utf8Len t ≤ 2 → StartsContent u

theorem segmentChunks_isChain (seg : Segment) (wordId : Nat) :
    ((segmentChunks defaultMaxToken seg wordId).map Chunk.text).IsChain ContentAfterShort := by
  rw [segmentChunks_map_text, isChain_map]
  refine isChain_iff_forall_rel_of_append_cons_cons.mpr fun r r' before after heq hshort => ?_
  have := equalChunks_tiles.long before r (r' :: after) heq (cons_ne_nil r' after)
  omega

/-- The first chunk of a segment with content starts with content. -/
theorem startsContent_of_head {wordId : Nat} (hwf : seg.WellFormed) (hcontent : seg.content ≠ [])
    (h : ((segmentChunks defaultMaxToken seg wordId).map Chunk.text).head? = some t) :
    StartsContent t := by
  have htile := segmentChunks_flatten (by decide : 0 < defaultMaxToken) seg wordId
  cases t with
  | nil => trivial
  | cons c u =>
    obtain ⟨rest, hrest⟩ := head?_eq_some_iff.mp h
    rw [hrest, flatten_cons, cons_append, Segment.text] at htile
    obtain ⟨d, content, hd⟩ := exists_cons_of_ne_nil hcontent
    rw [hd, cons_append] at htile
    obtain ⟨rfl, -⟩ := List.cons.inj htile
    exact hwf.content c (hd ▸ mem_cons_self ..)

/-- Segments, of which only the first may be without content. -/
def LaterHaveContent (segs : List (Segment × Nat)) : Prop :=
  ∀ before p after, segs = before ++ p :: after → before ≠ [] → p.1.content ≠ []

theorem flatMap_segmentChunks_isChain {segs : List (Segment × Nat)}
    (hwf : ∀ p ∈ segs, p.1.WellFormed) (hlater : LaterHaveContent segs) :
    ((segs.flatMap fun p => segmentChunks defaultMaxToken p.1 p.2).map Chunk.text).IsChain
      ContentAfterShort := by
  rw [map_flatMap, flatMap_def, isChain_flatten]
  · refine ⟨fun l hl => ?_, ?_⟩
    · obtain ⟨p, -, rfl⟩ := mem_map.mp hl
      exact segmentChunks_isChain p.1 p.2
    · rw [isChain_map]
      refine isChain_iff_forall_rel_of_append_cons_cons.mpr
        fun p p' before after heq t _ u hu _ => ?_
      have hmem : p' ∈ segs := by
        rw [heq]
        exact mem_append_right _ (mem_cons_of_mem _ mem_cons_self)
      refine startsContent_of_head (hwf p' hmem) ?_ hu
      exact hlater (before ++ [p]) p' after (by rw [heq, append_assoc]; rfl)
        (append_ne_nil_of_right_ne_nil before (cons_ne_nil p []))
  · intro hnil
    obtain ⟨p, hp, hnil⟩ := mem_map.mp hnil
    exact segmentChunks_ne_nil (by decide) (hwf p hp).text_ne p.2 (map_eq_nil_iff.mp hnil)

/-- **What follows a chunk of one or two bytes is content.** -/
theorem content_after_short_chunk (t : Text) :
    ((segmentAndChunk t defaultMaxToken).map Chunk.text).IsChain ContentAfterShort := by
  refine flatMap_segmentChunks_isChain (fun p hp => ?_) fun before p after heq hbefore => ?_
  · exact (splitIntoSegments_spec t).2 p.1 (fst_mem_of_mem_zipIdx hp)
  · have hsegs : splitIntoSegments t = before.map Prod.fst ++ p.1 :: after.map Prod.fst := by
      rw [← zipIdx_map_fst 0 (splitIntoSegments t), heq, map_append, map_cons]
    exact content_of_later_segment hsegs fun hnil => hbefore (map_eq_nil_iff.mp hnil)

end Lucivy.Tokenizer
