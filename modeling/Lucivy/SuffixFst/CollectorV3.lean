import Mathlib.Data.List.SplitBy
import Lucivy.Tokenizer.Lowercase

/-! # The collector

`SfxCollectorV3` (`suffix_fst/collector_v3.rs`): every value of a document is cut into chunks;
a chunk is interned with the first bytes of the next one behind it, a word with its separators
taken out is interned beside the chunks, and postings say where each stands. Positions count
the chunks of a document, with one empty position between two values.

* `Token`, `Ordinal` — an interned text; an ordinal stands for the key it is interned under.
* `chunkTokens`, `valueWords` — what one value is interned as.
* `Collector.addValue`, `Collector.collect` — the collector.
* `docSlots` — the chunks of a document by position.
* `collect_postings` — the postings are exactly those positions. -/

namespace Lucivy.SuffixFst

open Lucivy.Foundation Lucivy.Tokenizer List
open String (utf8Len)

def defaultOverlap : Nat := 2

/-- `MAX_SUFFIX_INDEX`, the builder's `MAX_CHUNK_BYTES`. -/
def maxChunkBytes : Nat := 256

/-! ## Tokens -/

/-- `TokenMetaV3`, without the word's number, which nothing reads back. -/
structure TokenMeta where
  /-- Bytes of content and trailing separators, no overlap. -/
  ownLen : Nat
  /-- Trailing separator bytes. -/
  sepLen : Nat
  /-- Bytes borrowed from what follows. -/
  overlapLen : Nat
  /-- The first chunk of a word. -/
  isWordStart : Bool
  /-- A word with its separators taken out. -/
  isWordStripped : Bool
deriving DecidableEq, Repr

/-- `intern_shape`: what makes two interned tokens the same entry, beyond their text. -/
def TokenMeta.shape (m : TokenMeta) : Bool × Nat × Nat × Bool :=
  if m.isWordStripped then (true, m.ownLen - m.sepLen, 0, false)
  else (false, m.ownLen, m.sepLen, m.isWordStart)

/-- **An ordinal**, as the key it is interned under (`intern_key`): two tokens have one ordinal
just when text and shape agree. -/
structure Ordinal where
  /-- The extended text, case kept. -/
  text : Text
  shape : Bool × Nat × Nat × Bool
deriving DecidableEq, Repr

/-- An extended text with its meta. -/
structure Token where
  /-- The text, overlap included. -/
  text : Text
  info : TokenMeta
deriving DecidableEq, Repr

def Token.ordinal (t : Token) : Ordinal := ⟨t.text, t.info.shape⟩

/-- The overlap of a chunk: the first bytes of the next one. -/
def nextOverlap : List Chunk → Text
  | [] => []
  | d :: _ => (cutBefore defaultOverlap d.text).1

/-- The chunks of a value, each extended with the first bytes of the next. -/
def chunkTokens : List Chunk → List Token
  | [] => []
  | c :: rest =>
    ⟨c.text ++ nextOverlap rest, utf8Len c.text, c.sepLen, utf8Len (nextOverlap rest),
      c.isWordStart, false⟩ :: chunkTokens rest

/-! ## Words -/

/-- A word of a value: its token, and the chunks it covers. -/
structure Word where
  token : Token
  content : Text
  /-- The first bytes of the next word's content. -/
  overlap : Text
  first : Nat
  /-- The last chunk, separators included. -/
  last : Nat
  /-- Where the text starts in the first chunk. -/
  tailOff : Nat
deriving DecidableEq, Repr

/-- A word-stripped token. -/
def wordToken (content overlap : Text) (ownLen sepLen : Nat) (isWordStart : Bool) : Token :=
  ⟨content ++ overlap, ownLen, sepLen, utf8Len overlap, isWordStart, true⟩

/-- The content overlap of a word: the first bytes of the next word that has content. -/
def contentOverlap (later : List (List Chunk)) : Text :=
  match later.flatten.find? (0 < ·.contentLen) with
  | none => []
  | some c => (cutBefore (min defaultOverlap c.contentLen) c.text).1

/-- The chunk of a word that holds its byte `at`, counted from the word's start, and where in
that chunk it lies; the last chunk if none does. -/
def chunkHolding : List Chunk → Nat → Nat × Nat
  | [], _ => (0, 0)
  | [_], n => (0, n)
  | c :: rest, n =>
    if n < utf8Len c.text then (0, n)
    else
      let found := chunkHolding rest (n - utf8Len c.text)
      (found.1 + 1, found.2)

/-- The tail entry of a word too long for its own suffixes to reach the end. -/
def tailWord (group : List Chunk) (first : Nat) (content overlap : Text) (sepLen : Nat) :
    Option Word :=
  if maxChunkBytes + defaultMaxToken < utf8Len content then
    let cut := cutAfter (utf8Len content - defaultMaxToken) content
    let found := chunkHolding group (utf8Len cut.1)
    some ⟨wordToken cut.2 overlap (utf8Len cut.2 + sepLen) sepLen false, cut.2, overlap,
      first + found.1, first + group.length - 1, found.2⟩
  else none

/-- The words of a value with their tail entries, from the chunks grouped by word; the first
group starts at chunk `first`. -/
def valueWords : Nat → List (List Chunk) → List (Word × Option Word)
  | _, [] => []
  | first, group :: later =>
    let words := valueWords (first + group.length) later
    let content := group.flatMap Chunk.content
    if content = [] then words
    else
      let overlap := contentOverlap later
      let sepLen := (group.getLast?.map Chunk.sepLen).getD 0
      let isWordStart := (group.head?.map Chunk.isWordStart).getD false
      (⟨wordToken content overlap (min (utf8Len content + sepLen) 65535) sepLen isWordStart,
          content, overlap, first, first + group.length - 1, 0⟩,
        tailWord group first content overlap sepLen) :: words

/-- `word_ranges`: the chunks grouped by the word they belong to. -/
def wordGroups (chunks : List Chunk) : List (List Chunk) :=
  chunks.splitBy fun c d => c.wordId == d.wordId

/-- A word and its tail entry. -/
def withTail (w : Word × Option Word) : List Word := w.1 :: w.2.toList

/-! ## What one value is interned as -/

def valueChunks (text : Text) : List Chunk := segmentAndChunk text defaultMaxToken

def valueTokens (text : Text) : List Token := chunkTokens (valueChunks text)

/-- The words of a value with their tail entries. -/
def mainWords (text : Text) : List (Word × Option Word) :=
  valueWords 0 (wordGroups (valueChunks text))

/-- The words of a value, tail entries among them. -/
def allWords (text : Text) : List Word := (mainWords text).flatMap withTail

/-- The tokens of a value in the order they are interned. -/
def valueInterned (text : Text) : List Token := valueTokens text ++ (allWords text).map Word.token

/-! ## The collector -/

/-- Where a chunk stands. -/
structure ChunkPosting where
  ordinal : Ordinal
  docId : Nat
  position : Nat
deriving DecidableEq, Repr

/-- Where a word stands (`WordPostingEntry`). -/
structure WordPosting where
  ordinal : Ordinal
  docId : Nat
  firstPosition : Nat
  lastPosition : Nat
  /-- Where its text starts in the first chunk. -/
  tailOff : Nat
deriving DecidableEq, Repr

/-- `WordStrippedEntry`: what the FST builder is told of a word-stripped ordinal, from its first
occurrence. -/
structure WordStrippedEntry where
  wordContent : Text
  contentOverlap : Text
  ordinal : Ordinal
  /-- Separators in the last chunk. -/
  lastSepLen : Nat
  /-- The first chunk's flag. -/
  isWordStart : Bool
deriving DecidableEq, Repr

/-- `SfxCollectorV3`. -/
structure Collector where
  /-- `token_texts` and `token_meta`: each ordinal's text and meta, the first occurrence's. -/
  tokens : List Token
  /-- `token_postings`. -/
  postings : List ChunkPosting
  /-- `word_stripped_entries`. -/
  wordStripped : List WordStrippedEntry
  wordPostings : List WordPosting
  /-- `sibling_pairs`: consecutive chunks, and consecutive words. -/
  siblingPairs : List (Ordinal × Ordinal)
  currentDocId : Nat
  currentValueTiStart : Nat
deriving DecidableEq, Repr

/-- `SfxCollectorV3::new`. -/
def Collector.empty : Collector := ⟨[], [], [], [], [], 0, 0⟩

/-- `intern_extended`: a token not seen yet is kept with its meta. -/
def internExtended (tokens : List Token) (t : Token) : List Token :=
  if tokens.any (·.ordinal = t.ordinal) then tokens else tokens ++ [t]

/-- What is entered for a word. -/
def Word.strippedEntry (w : Word) : WordStrippedEntry :=
  ⟨w.content, w.overlap, w.token.ordinal, w.token.info.sepLen, w.token.info.isWordStart⟩

/-- `mark_ws_entry`: a word-stripped ordinal is entered once. -/
def markWsEntry (entries : List WordStrippedEntry) (w : Word) : List WordStrippedEntry :=
  if entries.any (·.ordinal = w.token.ordinal) then entries else entries ++ [w.strippedEntry]

/-- `windows(2)` over ordinals. -/
def pairs (ords : List Ordinal) : List (Ordinal × Ordinal) := ords.zip ords.tail

namespace Collector

def beginDoc (c : Collector) : Collector := { c with currentValueTiStart := 0 }

def endDoc (c : Collector) : Collector := { c with currentDocId := c.currentDocId + 1 }

def addValue (c : Collector) (text : Text) : Collector :=
  if valueChunks text = [] then { c with currentValueTiStart := c.currentValueTiStart + 1 }
  else
    { c with
      tokens := (valueInterned text).foldl internExtended c.tokens
      postings := c.postings ++ (valueTokens text).zipIdx.map fun p =>
        ⟨p.1.ordinal, c.currentDocId, c.currentValueTiStart + p.2⟩
      wordStripped := (allWords text).foldl markWsEntry c.wordStripped
      wordPostings := c.wordPostings ++ (allWords text).map fun w =>
        ⟨w.token.ordinal, c.currentDocId, c.currentValueTiStart + w.first,
          c.currentValueTiStart + w.last, w.tailOff⟩
      siblingPairs := c.siblingPairs ++ pairs ((valueTokens text).map Token.ordinal) ++
        pairs ((mainWords text).map (·.1.token.ordinal))
      currentValueTiStart := c.currentValueTiStart + (valueChunks text).length + 1 }

/-- One document: its values in order. -/
def addDoc (c : Collector) (values : List Text) : Collector :=
  (values.foldl addValue c.beginDoc).endDoc

/-- The collector over a collection of documents. -/
def collect (docs : List (List Text)) : Collector := docs.foldl addDoc empty

theorem collect_concat (docs : List (List Text)) (values : List Text) :
    collect (docs ++ [values]) = (collect docs).addDoc values := by
  rw [collect, foldl_append]
  rfl

end Collector

/-! ## Where the chunks stand -/

/-- **The chunks of a document by position**: those of its values, an empty slot behind each. -/
def docSlots : List Text → List (Option Ordinal)
  | [] => []
  | v :: vs => (valueTokens v).map (fun t => some t.ordinal) ++ none :: docSlots vs

/-- The postings of some slots of a document, the first at position `start`. -/
def slotPostings (doc : Nat) : Nat → List (Option Ordinal) → List ChunkPosting
  | _, [] => []
  | start, none :: rest => slotPostings doc (start + 1) rest
  | start, some ord :: rest => ⟨ord, doc, start⟩ :: slotPostings doc (start + 1) rest

/-- The postings are the slots that are not empty, with their places. -/
theorem slotPostings_eq (doc start : Nat) (slots : List (Option Ordinal)) :
    slotPostings doc start slots =
      (slots.zipIdx start).filterMap fun p => p.1.map (⟨·, doc, p.2⟩) := by
  induction slots generalizing start with
  | nil => rfl
  | cons slot slots ih => cases slot <;> simp [slotPostings, ih]

theorem slotPostings_append (doc start : Nat) (slots rest : List (Option Ordinal)) :
    slotPostings doc start (slots ++ rest) =
      slotPostings doc start slots ++ slotPostings doc (start + slots.length) rest := by
  simp only [slotPostings_eq, zipIdx_append, filterMap_append]

theorem slotPostings_tokens (doc start k : Nat) (tokens : List Token) :
    slotPostings doc (start + k) (tokens.map fun t => some t.ordinal) =
      (tokens.zipIdx k).map fun p => ⟨p.1.ordinal, doc, start + p.2⟩ := by
  induction tokens generalizing k with
  | nil => rfl
  | cons t tokens ih => rw [map_cons, slotPostings, zipIdx_cons, map_cons, add_assoc, ih]

/-- The postings of some slots are those slots that are not empty. -/
theorem mem_slotPostings_iff {doc start : Nat} {slots : List (Option Ordinal)} {q : ChunkPosting} :
    q ∈ slotPostings doc start slots ↔
      q.docId = doc ∧ ∃ j, q.position = start + j ∧ slots[j]? = some (some q.ordinal) := by
  rw [slotPostings_eq, mem_filterMap]
  constructor
  · rintro ⟨⟨slot, i⟩, hslot, hq⟩
    obtain ⟨hle, hget⟩ := mem_zipIdx_iff_le_and_getElem?_sub.mp hslot
    obtain ⟨ord, rfl, rfl⟩ := Option.map_eq_some_iff.mp hq
    exact ⟨rfl, i - start, (Nat.add_sub_cancel' hle).symm, hget⟩
  · rintro ⟨rfl, j, hpos, hget⟩
    refine ⟨(some q.ordinal, q.position), ?_, rfl⟩
    rw [mem_zipIdx_iff_le_and_getElem?_sub, hpos, Nat.add_sub_cancel_left]
    exact ⟨Nat.le_add_right .., hget⟩

namespace Collector

@[simp] theorem addValue_currentDocId (c : Collector) (v : Text) :
    (c.addValue v).currentDocId = c.currentDocId := by
  rw [addValue]
  split <;> rfl

theorem length_chunkTokens (chunks : List Chunk) : (chunkTokens chunks).length = chunks.length := by
  induction chunks with
  | nil => rfl
  | cons c chunks ih => rw [chunkTokens, length_cons, ih, length_cons]

/-- One value: its slots, and the empty one behind. -/
theorem addValue_postings (c : Collector) (v : Text) :
    (c.addValue v).postings = c.postings ++
        slotPostings c.currentDocId c.currentValueTiStart (docSlots [v]) ∧
      (c.addValue v).currentValueTiStart = c.currentValueTiStart + (docSlots [v]).length := by
  have hslots : slotPostings c.currentDocId c.currentValueTiStart (docSlots [v]) =
      (valueTokens v).zipIdx.map fun p =>
        ⟨p.1.ordinal, c.currentDocId, c.currentValueTiStart + p.2⟩ := by
    have := slotPostings_tokens c.currentDocId c.currentValueTiStart 0 (valueTokens v)
    rw [docSlots, slotPostings_append, ← this]
    exact append_nil _
  have hlen : (docSlots [v]).length = (valueChunks v).length + 1 := by
    rw [docSlots, length_append, length_map, valueTokens, length_chunkTokens]
    rfl
  rw [hslots, hlen, addValue]
  split
  · next hnil =>
    rw [valueTokens, hnil]
    exact ⟨(append_nil _).symm, rfl⟩
  · exact ⟨rfl, rfl⟩

/-- The values of a document. -/
theorem foldl_addValue_postings (values : List Text) (c : Collector) :
    (values.foldl addValue c).postings = c.postings ++
        slotPostings c.currentDocId c.currentValueTiStart (docSlots values) ∧
      (values.foldl addValue c).currentDocId = c.currentDocId := by
  induction values generalizing c with
  | nil => exact ⟨(append_nil _).symm, rfl⟩
  | cons v values ih =>
    obtain ⟨hpost, hti⟩ := addValue_postings c v
    obtain ⟨hposts, hdoc⟩ := ih (c.addValue v)
    have hsplit : docSlots (v :: values) = docSlots [v] ++ docSlots values := by simp [docSlots]
    rw [foldl_cons, hposts, hdoc, hpost, hti, addValue_currentDocId, hsplit,
      slotPostings_append, append_assoc]
    exact ⟨rfl, rfl⟩

/-- **The postings of a collection** are its documents' slots. -/
theorem collect_postings (docs : List (List Text)) :
    (collect docs).postings = docs.zipIdx.flatMap (fun p => slotPostings p.2 0 (docSlots p.1)) ∧
      (collect docs).currentDocId = docs.length := by
  induction docs using List.reverseRecOn with
  | nil => exact ⟨rfl, rfl⟩
  | append_singleton docs values ih =>
    obtain ⟨hpost, hdoc⟩ := ih
    obtain ⟨hposts, hdoc'⟩ := foldl_addValue_postings values (collect docs).beginDoc
    rw [collect_concat, addDoc, endDoc]
    refine ⟨?_, ?_⟩
    · rw [hposts, beginDoc, hpost, hdoc, zipIdx_append, flatMap_append]
      simp
    · rw [hdoc', beginDoc, hdoc, length_append]
      rfl

/-- A posting says what stands in a slot of its document. -/
theorem mem_collect_postings {docs : List (List Text)} {q : ChunkPosting} :
    q ∈ (collect docs).postings ↔ ∃ values, docs[q.docId]? = some values ∧
      (docSlots values)[q.position]? = some (some q.ordinal) := by
  rw [(collect_postings docs).1, mem_flatMap]
  constructor
  · rintro ⟨⟨values, doc⟩, hdoc, hq⟩
    obtain ⟨rfl, j, hpos, hslot⟩ := mem_slotPostings_iff.mp hq
    rw [zero_add] at hpos
    exact ⟨values, by simpa using mem_zipIdx_iff_getElem?.mp hdoc, hpos ▸ hslot⟩
  · rintro ⟨values, hdoc, hslot⟩
    exact ⟨(values, q.docId), mem_zipIdx_iff_getElem?.mpr hdoc,
      mem_slotPostings_iff.mpr ⟨rfl, q.position, (zero_add _).symm, hslot⟩⟩

/-! ## What is interned -/

theorem mem_of_mem_internExtended {tokens : List Token} {t u : Token}
    (h : u ∈ internExtended tokens t) : u ∈ tokens ∨ u = t := by
  rw [internExtended] at h
  split at h
  · exact .inl h
  · exact (mem_append.mp h).imp_right mem_singleton.mp

theorem mem_of_mem_foldl_internExtended {tokens new : List Token} {u : Token}
    (h : u ∈ new.foldl internExtended tokens) : u ∈ tokens ∨ u ∈ new := by
  revert h
  refine foldlRecOn (motive := fun l => u ∈ l → u ∈ tokens ∨ u ∈ new) new _ .inl fun l ih t ht h =>
    ?_
  rcases mem_of_mem_internExtended h with h | rfl
  · exact ih h
  · exact .inr ht

/-- The ordinals of a list to which what is made of each new one is added, each ordinal once. -/
theorem exists_ordinal_foldl {α β : Type} (ordinal : β → Ordinal) (make : α → β) {new : List α}
    {old : List β} {o : Ordinal} :
    (∃ u ∈ new.foldl (fun l t => if l.any (ordinal · = ordinal (make t)) then l
        else l ++ [make t]) old, ordinal u = o) ↔
      (∃ u ∈ old, ordinal u = o) ∨ ∃ t ∈ new, ordinal (make t) = o := by
  induction new generalizing old with
  | nil => simp
  | cons t new ih =>
    rw [foldl_cons, ih, exists_mem_cons_iff, ← or_assoc]
    refine or_congr_left ?_
    split
    · next hany =>
      obtain ⟨u, hu, hut⟩ := any_eq_true.mp hany
      exact (or_iff_left_of_imp fun ht => ⟨u, hu, (of_decide_eq_true hut).trans ht⟩).symm
    · simp [or_and_right, exists_or]

theorem exists_ordinal_foldl_internExtended {tokens new : List Token} {o : Ordinal} :
    (∃ u ∈ new.foldl internExtended tokens, u.ordinal = o) ↔
      (∃ u ∈ tokens, u.ordinal = o) ∨ ∃ u ∈ new, u.ordinal = o :=
  exists_ordinal_foldl Token.ordinal id

theorem valueInterned_of_nil {v : Text} (h : valueChunks v = []) : valueInterned v = [] := by
  rw [valueInterned, valueTokens, allWords, mainWords, h]
  rfl

theorem addValue_tokens (c : Collector) (v : Text) :
    (c.addValue v).tokens = (valueInterned v).foldl internExtended c.tokens := by
  rw [addValue]
  split
  · next hnil => rw [valueInterned_of_nil hnil, foldl_nil]
  · rfl

/-- A part of the collector that is extended by what each value adds. -/
theorem collect_of_addValue {β : Type*} (part : Collector → β) (add : β → Text → β)
    (hadd : ∀ c v, part (c.addValue v) = add (part c) v)
    (hbegin : ∀ c : Collector, part c.beginDoc = part c)
    (hend : ∀ c : Collector, part c.endDoc = part c)
    (docs : List (List Text)) : part (collect docs) = docs.flatten.foldl add (part empty) := by
  have hvalues : ∀ (values : List Text) c, part (values.foldl addValue c) =
      values.foldl add (part c) :=
    fun values c => (foldl_hom part fun c v => (hadd c v).symm).symm
  induction docs using List.reverseRecOn with
  | nil => rfl
  | append_singleton docs values ih =>
    rw [collect_concat, addDoc, hend, hvalues, hbegin, ih, flatten_append, foldl_append,
      flatten_singleton]

/-- **The tokens of a collection** are those of its values, each ordinal once. -/
theorem collect_tokens (docs : List (List Text)) :
    (collect docs).tokens = (docs.flatten.flatMap valueInterned).foldl internExtended [] := by
  rw [collect_of_addValue tokens (fun tokens v => (valueInterned v).foldl internExtended tokens)
    addValue_tokens (fun _ => rfl) (fun _ => rfl), foldl_flatMap]
  rfl

/-- The first token interned under an ordinal. -/
theorem exists_token {docs : List (List Text)} {v : Text} (hv : v ∈ docs.flatten) {t : Token}
    (ht : t ∈ valueInterned v) : ∃ u ∈ (collect docs).tokens, u.ordinal = t.ordinal := by
  rw [collect_tokens]
  exact exists_ordinal_foldl_internExtended.mpr (.inr ⟨t, mem_flatMap.mpr ⟨v, hv, ht⟩, rfl⟩)

theorem allWords_of_nil {v : Text} (h : valueChunks v = []) : allWords v = [] := by
  rw [allWords, mainWords, h]
  rfl

/-- **The word-stripped entries of a collection** are those of its words, each ordinal once. -/
theorem collect_wordStripped (docs : List (List Text)) :
    (collect docs).wordStripped = (docs.flatten.flatMap allWords).foldl markWsEntry [] := by
  rw [collect_of_addValue wordStripped (fun entries v => (allWords v).foldl markWsEntry entries)
    (fun c v => ?_) (fun _ => rfl) (fun _ => rfl), foldl_flatMap]
  · rfl
  · rw [addValue]
    split
    · next hnil => rw [allWords_of_nil hnil, foldl_nil]
    · rfl

/-- The neighbours within a value: of its chunks, and of its words. -/
def valuePairs (v : Text) : List (Ordinal × Ordinal) :=
  pairs ((valueTokens v).map Token.ordinal) ++ pairs ((mainWords v).map (·.1.token.ordinal))

/-- **The sibling pairs of a collection** are those of its values. -/
theorem collect_siblingPairs (docs : List (List Text)) :
    (collect docs).siblingPairs = docs.flatten.flatMap valuePairs := by
  rw [collect_of_addValue siblingPairs (fun ps v => ps ++ valuePairs v) (fun c v => ?_)
    (fun _ => rfl) (fun _ => rfl)]
  · rw [foldl_append_eq_append]
    rfl
  · rw [addValue]
    split
    · next hnil =>
      rw [valuePairs, valueTokens, mainWords, hnil]
      exact (append_nil _).symm
    · exact append_assoc ..

end Collector

end Lucivy.SuffixFst

namespace Lucivy

-- the library has ordinal numbers of the same name
export SuffixFst (Ordinal)

end Lucivy
