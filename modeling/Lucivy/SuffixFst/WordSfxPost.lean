import Lucivy.Foundation.Bisect
import Lucivy.Foundation.Checkpoints
import Lucivy.Foundation.SortDedup
import Lucivy.SuffixFst.DocPairs
import Lucivy.SuffixFst.PostingFile

/-! # Word postings

`.word_sfxpost` (`suffix_fst/word_sfxpost.rs`): for every ordinal the places of its words,
sorted, each coded as the difference to the one before, with a checkpoint every 32 entries so
that a lookup need not decode them all.

* `WordPostingEntry`, `WordSfxPostWriter`, `finish` — the entries and the writer.
* `decodeEntry`, `WordSfxPostReader` — the reader, with `entries`, `forEachEntry`, `entryAt`.
* `decodeEntry_encodeEntry` — one entry is read back, if its last position fits 31 bits where
  it shares a number with a flag.

The layouts are `WSP4` with byte spans, `WSP5` with positions, `WSP6` with documents only. -/

namespace Lucivy.SuffixFst

open Lucivy.Foundation List UInt32

structure WordPostingEntry where
  docId : UInt32
  firstPosition : UInt32
  lastPosition : UInt32
  /-- Where its text starts. -/
  byteFrom : UInt32
  /-- The end of its content. -/
  byteTo : UInt32
  /-- Where its text starts in the first chunk. -/
  tailOff : UInt16
deriving DecidableEq, Repr

namespace WordSfxPost

abbrev checkpointEvery : Nat := 32

abbrev checkpointsFor (n : Nat) : Nat := checkpointCount checkpointEvery n

structure DeltaState where
  /-- The document of the entry before. -/
  doc : UInt32
  first : UInt32
  byteFrom : UInt32
deriving DecidableEq, Repr

/-- `DeltaState::default`. -/
def DeltaState.zero : DeltaState := ⟨0, 0, 0⟩

/-- The state an entry leaves. -/
def stateOf (e : WordPostingEntry) : DeltaState := ⟨e.docId, e.firstPosition, e.byteFrom⟩

/-! ## The writer -/

/-- The number that holds the last position and, in its lowest bit, whether an offset follows. -/
def lastFlag (e : WordPostingEntry) : Nat :=
  (e.lastPosition - e.firstPosition).toNat <<< 1 ||| (if e.tailOff ≠ 0 then 1 else 0)

/-- What an entry has behind its document and first position. -/
def encodeRest (spans : Bool) (st : DeltaState) (e : WordPostingEntry) : Bytes :=
  if spans then
    writeVarint (e.lastPosition - e.firstPosition).toNat ++
      (writeVarint (if e.docId = st.doc then e.byteFrom - st.byteFrom else e.byteFrom).toNat ++
        writeVarint (e.byteTo - e.byteFrom).toNat)
  else
    writeVarint (lastFlag e) ++ (if e.tailOff ≠ 0 then writeVarint e.tailOff.toNat else [])

/-- One entry, from the state the entry before left. -/
def encodeEntry (spans : Bool) (st : DeltaState) (e : WordPostingEntry) : Bytes :=
  writeVarint (e.docId - st.doc).toNat ++
    (writeVarint (if e.docId = st.doc then e.firstPosition - st.first else e.firstPosition).toNat ++
      encodeRest spans st e)

def checkpointBytes (spans : Bool) (c : DeltaState × Nat) : Bytes :=
  leBytes 4 c.1.doc.toNat ++ (leBytes 4 c.1.first.toNat ++
    ((if spans then leBytes 4 c.1.byteFrom.toNat else []) ++ leBytes 4 c.2))

/-- `encode_block_into`: first the entries, with the state and offset at each checkpoint, then the
block. -/
def encodeBlock (spans : Bool) (entries : List WordPostingEntry) : Bytes :=
  if entries = [] then []
  else
    let encoded := codeLoop (encodeEntry spans) (fun _ e => stateOf e) checkpointEvery 0 .zero
      entries [] []
    writeVarint entries.length ++ (encoded.2.flatMap (checkpointBytes spans) ++ encoded.1)

/-- The order of entries: field by field. -/
def sortKey (e : WordPostingEntry) : List Nat :=
  [e.docId.toNat, e.firstPosition.toNat, e.lastPosition.toNat, e.byteFrom.toNat, e.byteTo.toNat,
    e.tailOff.toNat]

/-- `sort` and `dedup`. -/
def sortEntries (entries : List WordPostingEntry) : List WordPostingEntry :=
  sortDedup (fun a b => lexLe (sortKey a) (sortKey b)) (· == ·) entries

/-- One ordinal's block in a layout. -/
def encodeOrdinal (layout : PostingLayout) (entries : List WordPostingEntry) : Bytes :=
  match layout with
  | .spans => encodeBlock true entries
  | .positions => encodeBlock false entries
  | .docsOnly => encodeDocs (entries.map WordPostingEntry.docId)

/-- The first four bytes of a file. -/
def magic : PostingLayout → Bytes
  | .spans => [0x57, 0x53, 0x50, 0x34]
  | .positions => [0x57, 0x53, 0x50, 0x35]
  | .docsOnly => [0x57, 0x53, 0x50, 0x36]

end WordSfxPost

open WordSfxPost

structure WordSfxPostWriter where
  /-- The entries of each ordinal, in the order they were added. -/
  entries : List (List WordPostingEntry)
  layout : PostingLayout

namespace WordSfxPostWriter

/-- `new`, `with_byte_spans` and `docs_only`: an empty list for each ordinal. -/
def new (layout : PostingLayout) (numOrdinals : Nat) : WordSfxPostWriter :=
  ⟨List.replicate numOrdinals [], layout⟩

/-- `add`: an ordinal out of range is ignored. -/
def add (w : WordSfxPostWriter) (ordinal : Nat) (e : WordPostingEntry) : WordSfxPostWriter :=
  { w with entries := w.entries.modify ordinal (· ++ [e]) }

/-- The writer after some calls of `add`. -/
def added (layout : PostingLayout) (numOrdinals : Nat) (adds : List (Nat × WordPostingEntry)) :
    WordSfxPostWriter :=
  adds.foldl (fun w a => w.add a.1 a.2) (new layout numOrdinals)

/-- The blocks `finish` writes. -/
def blocks (w : WordSfxPostWriter) : List Bytes :=
  w.entries.map fun entries => encodeOrdinal w.layout (sortEntries entries)

def finish (w : WordSfxPostWriter) : Option Bytes := finishFile (magic w.layout) w.blocks

end WordSfxPostWriter

/-! ## The reader -/

namespace WordSfxPost

/-- `decode_entry`: the entry, the position behind it and the state it leaves. -/
def decodeEntry (data : Bytes) (pos : Nat) (st : DeltaState) (spans : Bool) :
    Option (WordPostingEntry × Nat × DeltaState) := do
  let dDoc ← readVarintU32 data pos
  let dFirst ← readVarintU32 data dDoc.2
  let doc := st.doc + dDoc.1
  let first := if dDoc.1 = 0 then st.first + dFirst.1 else dFirst.1
  if spans then
    let dLast ← readVarintU32 data dFirst.2
    let dFrom ← readVarintU32 data dLast.2
    let len ← readVarintU32 data dFrom.2
    let byteFrom := if dDoc.1 = 0 then st.byteFrom + dFrom.1 else dFrom.1
    return (⟨doc, first, first + dLast.1, byteFrom, byteFrom + len.1, 0⟩, len.2,
      ⟨doc, first, byteFrom⟩)
  else
    let flag ← readVarintU32 data dFirst.2
    let tail ← if flag.1 &&& 1 ≠ 0 then readVarintU32 data flag.2 else some (0, flag.2)
    return (⟨doc, first, first + (flag.1 >>> 1), 0, 0, (min tail.1 65535).toUInt16⟩, tail.2,
      ⟨doc, first, st.byteFrom⟩)

/-- A key is smaller: by document, then by position. -/
def keyLt (a b : UInt32 × UInt32) : Bool := a.1 < b.1 || a.1 == b.1 && a.2 < b.2

/-- The key of an entry. -/
def key (e : WordPostingEntry) : UInt32 × UInt32 := (e.docId, e.firstPosition)

/-- The loop of `walk_v3`: `n` entries from `pos`, each handed to `f` with what it has made so
far; it stops at the end of the block, at an entry that cannot be read, and when `f` says so. -/
def walkLoop {σ : Type} (data : Bytes) (spans : Bool) (stop : Nat)
    (f : σ → WordPostingEntry → σ × Bool) : Nat → Nat → DeltaState → σ → σ
  | 0, _, _, s => s
  | n + 1, pos, st, s =>
    if stop ≤ pos then s
    else
      match decodeEntry data pos st spans with
      | none => s
      | some d =>
        if (f s d.1).2 then walkLoop data spans stop f n d.2.1 d.2.2 (f s d.1).1
        else (f s d.1).1

/-- The last loop of `entry_at_v3`: at most `n` entries from `pos`, up to the one with the key
or the first behind it. -/
def scanRun (data : Bytes) (spans : Bool) (stop : Nat) (target : UInt32 × UInt32) :
    Nat → Nat → DeltaState → Option WordPostingEntry
  | 0, _, _ => none
  | n + 1, pos, st =>
    if stop ≤ pos then none
    else
      match decodeEntry data pos st spans with
      | none => none
      | some d =>
        if keyLt (key d.1) target then scanRun data spans stop target n d.2.1 d.2.2
        else if key d.1 = target then some d.1
        else none

end WordSfxPost

/-- `WordSfxPostReader`, asked by the ordinals of its own file. -/
structure WordSfxPostReader extends PostingFile

namespace WordSfxPostReader

def openBytes (data : Bytes) : Option WordSfxPostReader :=
  (PostingFile.openWith magic data).map WordSfxPostReader.mk

variable (r : WordSfxPostReader)

/-- Whether the entries have byte spans. -/
def hasByteSpans : Bool := r.layout = .spans

def blockRange (ordinal : Nat) : Option (Nat × Nat) := do
  if r.numOrdinals ≤ ordinal then none
  else
    let start ← r.table.get ordinal
    let stop ← r.table.get (ordinal + 1)
    if r.entriesStart + stop ≤ r.entriesStart + start ||
      r.data.length < r.entriesStart + stop then none
    else some (r.entriesStart + start, r.entriesStart + stop)

def checkpointSize : Nat := if r.hasByteSpans then 16 else 12

/-- `block_header`: the number of entries, and where checkpoints and entries start. -/
def blockHeader (start : Nat) : Option (Nat × Nat × Nat) := do
  let n ← readVarintU32 r.data start
  let entries := n.2 + checkpointsFor n.1.toNat * r.checkpointSize
  if r.data.length < entries then none else some (n.1.toNat, n.2, entries)

/-- `checkpoint`: the `k`-th, counted from 1. -/
def checkpoint (checkpoints k : Nat) : Option (DeltaState × Nat) := do
  let o := checkpoints + (k - 1) * r.checkpointSize
  let doc ← readLe 4 r.data o
  let first ← readLe 4 r.data (o + 4)
  if r.hasByteSpans then
    let byteFrom ← readLe 4 r.data (o + 8)
    let offset ← readLe 4 r.data (o + 12)
    return (⟨ofNat doc, ofNat first, ofNat byteFrom⟩, offset)
  else
    let offset ← readLe 4 r.data (o + 8)
    return (⟨ofNat doc, ofNat first, 0⟩, offset)

/-- `walk_v3`. -/
def walk {σ : Type} (start stop : Nat) (f : σ → WordPostingEntry → σ × Bool) (s : σ) : σ :=
  match r.blockHeader start with
  | none => s
  | some h => walkLoop r.data r.hasByteSpans stop f h.1 h.2.2 .zero s

/-- `for_each_entry`: the calls of `f`, each on what the last one made. -/
def forEachEntry {σ : Type} (ordinal : Nat) (f : σ → WordPostingEntry → σ) (s : σ) : σ :=
  if r.layout = .docsOnly then s
  else
    match r.blockRange ordinal with
    | none => s
    | some range => r.walk range.1 range.2 (fun s e => (f s e, true)) s

def entries (ordinal : Nat) : List WordPostingEntry :=
  if r.layout = .docsOnly then []
  else
    match r.blockRange ordinal with
    | none => []
    | some range => r.walk range.1 range.2 (fun out e => (out ++ [e], true)) []

/-- `entry_at_v3`: the last checkpoint below the key, then the entries behind it. -/
def entryAtBlock (start stop : Nat) (target : UInt32 × UInt32) : Option WordPostingEntry :=
  match r.blockHeader start with
  | none => none
  | some h =>
    let k := lastBelow
      (fun k => (r.checkpoint h.2.1 k).map fun c => keyLt (c.1.doc, c.1.first) target) 0
      (checkpointsFor h.1)
    let remaining := min (h.1 - k * checkpointEvery) checkpointEvery
    if k = 0 then scanRun r.data r.hasByteSpans stop target remaining h.2.2 .zero
    else
      match r.checkpoint h.2.1 k with
      | none => none
      | some c => scanRun r.data r.hasByteSpans stop target remaining (h.2.2 + c.2) c.1

def entryAt (ordinal : Nat) (docId firstPosition : UInt32) : Option WordPostingEntry :=
  if r.layout = .docsOnly then none
  else
    match r.blockRange ordinal with
    | none => none
    | some range => r.entryAtBlock range.1 range.2 (docId, firstPosition)

end WordSfxPostReader

namespace WordSfxPost

/-! ## One entry -/

/-- **What a layout stores of an entry**: the tail offset or the span, not both. -/
def stored (spans : Bool) (e : WordPostingEntry) : WordPostingEntry :=
  if spans then { e with tailOff := 0 } else { e with byteFrom := 0, byteTo := 0 }

@[simp] theorem key_stored (spans : Bool) (e : WordPostingEntry) :
    key (stored spans e) = key e := by
  cases spans <;> rfl

/-- **The last position fits**: where it shares a number with a flag it has 31 bits. -/
def Narrow (spans : Bool) (e : WordPostingEntry) : Prop :=
  spans = false → (e.lastPosition - e.firstPosition).toNat < 2 ^ 31

theorem lastFlag_eq (e : WordPostingEntry) :
    lastFlag e = 2 * (e.lastPosition - e.firstPosition).toNat +
      (if e.tailOff ≠ 0 then 1 else 0) := by
  have hbit : (if e.tailOff ≠ 0 then 1 else 0) < 2 ^ 1 := by
    split <;> decide
  rw [lastFlag, ← Nat.shiftLeft_add_eq_or_of_lt hbit, Nat.shiftLeft_eq, mul_comm]

/-- The two states agree on what the decoder uses. -/
structure Agrees (spans : Bool) (st st' : DeltaState) : Prop where
  doc : st'.doc = st.doc
  first : st'.first = st.first
  /-- The byte, where there are spans. -/
  byteFrom : spans = true → st'.byteFrom = st.byteFrom

theorem Agrees.refl (spans : Bool) (st : DeltaState) : Agrees spans st st :=
  ⟨rfl, rfl, fun _ => rfl⟩

/-- A field coded as the difference to the entry before of the same document. -/
theorem delta_field {doc prevDoc field prev : UInt32} :
    (if doc - prevDoc = 0 then prev + (if doc = prevDoc then field - prev else field)
      else (if doc = prevDoc then field - prev else field)) = field := by
  by_cases h : doc = prevDoc
  · rw [if_pos (wrapping_sub_eq_zero.mpr h), if_pos h, wrapping_add_sub]
  · rw [if_neg fun hz => h (wrapping_sub_eq_zero.mp hz), if_neg h]

/-- The flag read back, and the position beside it. -/
theorem flag_bits {d b : Nat} (hd : d < 2 ^ 31) (hb : b ≤ 1) :
    (ofNat (2 * d + b) >>> 1) = ofNat d ∧ ((ofNat (2 * d + b) &&& 1 ≠ 0) ↔ b = 1) := by
  have hnat : (ofNat (2 * d + b)).toNat = 2 * d + b := by exact Nat.mod_eq_of_lt (by omega)
  constructor
  · rw [← UInt32.toNat_inj, UInt32.toNat_shiftRight, hnat, UInt32.toNat_ofNat',
      Nat.mod_eq_of_lt (show d < 2 ^ 32 by omega)]
    show (2 * d + b) >>> 1 = d
    omega
  · rw [ne_eq, ← UInt32.toNat_inj, UInt32.toNat_and, hnat]
    show ¬ ((2 * d + b) &&& 1 = 0) ↔ b = 1
    rw [Nat.and_one_is_mod]
    omega

theorem tailOff_roundtrip (t : UInt16) : (min (ofNat t.toNat) 65535).toUInt16 = t := by
  have ht := t.toNat_lt
  have hnat : (ofNat t.toNat).toNat = t.toNat := by exact Nat.mod_eq_of_lt (by omega)
  have hle : ofNat t.toNat ≤ 65535 := by
    rw [le_iff_toNat_le, hnat]
    show t.toNat ≤ 65535
    omega
  have hmin : min (ofNat t.toNat) 65535 = ofNat t.toNat := if_pos hle
  rw [hmin, ← UInt16.toNat_inj, toNat_toUInt16, hnat]
  exact Nat.mod_eq_of_lt ht

/-- **One entry is read back.** -/
theorem decodeEntry_encodeEntry {data : Bytes} {pos : Nat} {spans : Bool} {st st' : DeltaState}
    {e : WordPostingEntry} (h : BytesAt data pos (encodeEntry spans st e))
    (hst : Agrees spans st st')
    (hnarrow : Narrow spans e) :
    ∃ st'', decodeEntry data pos st' spans =
        some (stored spans e, pos + (encodeEntry spans st e).length, st'') ∧
      Agrees spans (stateOf e) st'' := by
  rw [encodeEntry] at h ⊢
  have hdoc := readVarintU32_toNat h.left
  have hfirst := readVarintU32_toNat h.right.left
  have hrest := h.right.right
  simp only [decodeEntry, hdoc, Option.bind_eq_bind, Option.bind_some, hfirst, hst.doc, hst.first,
    delta_field]
  cases spans with
  | true =>
    simp only [readVarintU32_toNat hrest.left, Option.bind_some,
      readVarintU32_toNat hrest.right.left, readVarintU32_toNat hrest.right.right,
      hst.byteFrom rfl, delta_field, wrapping_add_sub]
    refine ⟨stateOf e, ?_, .refl _ _⟩
    rw [encodeRest, if_pos rfl]
    simp only [length_append, add_assoc]
    rfl
  | false =>
    rw [encodeRest, if_neg Bool.false_ne_true, lastFlag_eq] at hrest
    have hd := hnarrow rfl
    have hb : (if e.tailOff ≠ 0 then 1 else 0) ≤ 1 := by
      split <;> decide
    obtain ⟨hshift, hbit⟩ := flag_bits hd hb
    have hflag := readVarintU32_write (by omega) hrest.left
    simp only [Bool.false_eq_true, hflag, Option.bind_some, hshift, UInt32.ofNat_toNat,
      wrapping_add_sub]
    refine ⟨⟨e.docId, e.firstPosition, st'.byteFrom⟩, ?_, rfl, rfl, fun hs => by cases hs⟩
    rw [encodeRest, if_neg Bool.false_ne_true, lastFlag_eq]
    by_cases htail : e.tailOff ≠ 0
    · rw [if_pos htail, if_pos htail] at hrest
      rw [if_pos htail] at hbit
      have hread := readVarintU32_write (lt_trans e.tailOff.toNat_lt (by decide)) hrest.right
      rw [if_pos htail, if_pos htail, if_pos (hbit.mpr rfl), hread]
      simp only [Option.bind_some, tailOff_roundtrip, length_append, add_assoc]
      rfl
    · rw [if_neg htail] at hbit
      rw [if_neg htail, if_neg htail, if_neg fun hne => absurd (hbit.mp hne) (by decide)]
      have hzero : e.tailOff = 0 := not_not.mp htail
      simp only [stored, length_append, add_assoc, hzero]
      rfl

end WordSfxPost

end Lucivy.SuffixFst
