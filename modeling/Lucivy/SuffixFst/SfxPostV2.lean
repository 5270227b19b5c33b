import Lucivy.Foundation.Bisect
import Lucivy.Foundation.Checkpoints
import Lucivy.Foundation.SortDedup
import Lucivy.SuffixFst.DocPairs
import Lucivy.SuffixFst.PostingFile

/-! # Chunk postings

`.sfxpost` (`suffix_fst/sfxpost_v2.rs`): for every ordinal the documents it occurs in, and for
each document where. A block has a header for each document, coded as the difference to the one
before, with a checkpoint every 8 documents, and behind the headers the documents' payloads.

* `SfxPostWriterV2` — the writer: `addEntry`, `finish`.
* `OrdinalHeader` — the view of one block: `docAt`, `docs`, `walkPayload`, `findDocFull`.
* `SfxPostReaderV2` — the reader's ways to read an ordinal.

The layouts are `SFP4` with byte spans, `SFP5` with positions, `SFP6` with documents only. -/

namespace Lucivy.SuffixFst

open Lucivy.Foundation

structure SfxPostingEntry where
  docId : UInt32
  tokenIndex : UInt32
  byteFrom : UInt32
  /-- The byte behind it. -/
  byteTo : UInt32
deriving DecidableEq, Repr

structure PositionEntry where
  docId : UInt32
  tokenIndex : UInt32
deriving DecidableEq, Repr

namespace SfxPost

abbrev checkpointEvery : Nat := 8

abbrev checkpointSize : Nat := 12

abbrev checkpointsFor (n : Nat) : Nat := checkpointCount checkpointEvery n

/-! ## The writer -/

/-- The order of entries: field by field. -/
def sortKey (e : SfxPostingEntry) : List Nat :=
  [e.docId.toNat, e.tokenIndex.toNat, e.byteFrom.toNat, e.byteTo.toNat]

/-- `sort_unstable`; equal entries are the same. -/
def sortEntries (entries : List SfxPostingEntry) : List SfxPostingEntry :=
  entries.insertionSort fun a b => lexLe (sortKey a) (sortKey b)

/-- One of `doc_runs`: a document and its entries. -/
structure DocRun where
  docId : UInt32
  entries : List SfxPostingEntry
deriving DecidableEq, Repr

/-- The documents of a sorted list. -/
def entryRuns (entries : List SfxPostingEntry) : List DocRun :=
  (runsBy SfxPostingEntry.docId entries).map fun run =>
    ⟨(run.head?.map SfxPostingEntry.docId).getD 0, run⟩

/-- The entries of a document, each against the position and byte before. -/
def payloadFrom (spans : Bool) : UInt32 → UInt32 → List SfxPostingEntry → Bytes
  | _, _, [] => []
  | prevTi, prevBf, e :: es =>
    writeVarint (e.tokenIndex - prevTi).toNat ++
      ((if spans then
          writeVarint (e.byteFrom - prevBf).toNat ++ writeVarint (e.byteTo - e.byteFrom).toNat
        else []) ++ payloadFrom spans e.tokenIndex e.byteFrom es)

/-- The payload of a document. -/
def payloadOf (spans : Bool) (run : DocRun) : Bytes := payloadFrom spans 0 0 run.entries

/-- `prev_doc` and `cumulative` of the header loop. -/
structure DocState where
  /-- The document before. -/
  doc : UInt32
  /-- The payloads so far. -/
  cumulative : Nat
deriving DecidableEq, Repr

/-- The header of a document. -/
def encodeHeader (spans : Bool) (st : DocState) (run : DocRun) : Bytes :=
  writeVarint (run.docId - st.doc).toNat ++
    (writeVarint (payloadOf spans run).length ++ writeVarint (run.entries.length % 2 ^ 32))

/-- The state a document leaves. -/
def nextState (spans : Bool) (st : DocState) (run : DocRun) : DocState :=
  ⟨run.docId, st.cumulative + (payloadOf spans run).length⟩

def checkpointBytes (c : DocState × Nat) : Bytes :=
  leBytes 4 c.1.doc.toNat ++ (leBytes 4 c.1.cumulative ++ leBytes 4 c.2)

/-- One ordinal's block with positions; an ordinal without entries has one of two bytes. -/
def encodeBlock (spans : Bool) (entries : List SfxPostingEntry) : Bytes :=
  let runs := entryRuns entries
  let encoded := codeLoop (encodeHeader spans) (nextState spans) checkpointEvery 0 ⟨0, 0⟩ runs [] []
  writeVarint runs.length ++ (writeVarint encoded.1.length ++
    (encoded.2.flatMap checkpointBytes ++ (encoded.1 ++ runs.flatMap (payloadOf spans))))

/-- One ordinal's block in a layout. -/
def encodeOrdinal (layout : PostingLayout) (entries : List SfxPostingEntry) : Bytes :=
  match layout with
  | .spans => encodeBlock true entries
  | .positions => encodeBlock false entries
  | .docsOnly => encodeDocs (entries.map SfxPostingEntry.docId)

/-- The first four bytes of a file. -/
def magic : PostingLayout → Bytes
  | .spans => [0x53, 0x46, 0x50, 0x34]
  | .positions => [0x53, 0x46, 0x50, 0x35]
  | .docsOnly => [0x53, 0x46, 0x50, 0x36]

/-- The entry a layout keeps: `add_entry` drops the spans it does not store. -/
def kept (layout : PostingLayout) (e : SfxPostingEntry) : SfxPostingEntry :=
  if layout = .spans then e else { e with byteFrom := 0, byteTo := 0 }

end SfxPost

open SfxPost

structure SfxPostWriterV2 where
  /-- The entries of each ordinal, in the order they were added. -/
  ordinals : List (List SfxPostingEntry)
  layout : PostingLayout

namespace SfxPostWriterV2

/-- `new`, `positions_only` and `docs_only`: an empty list for each ordinal. -/
def new (layout : PostingLayout) (numTerms : Nat) : SfxPostWriterV2 :=
  ⟨List.replicate numTerms [], layout⟩

/-- `add_entry`: an ordinal out of range is ignored. -/
def addEntry (w : SfxPostWriterV2) (ordinal : Nat) (e : SfxPostingEntry) : SfxPostWriterV2 :=
  { w with ordinals := w.ordinals.modify ordinal (· ++ [kept w.layout e]) }

/-- The writer after some calls of `add_entry`. -/
def added (layout : PostingLayout) (numTerms : Nat) (adds : List (Nat × SfxPostingEntry)) :
    SfxPostWriterV2 :=
  adds.foldl (fun w a => w.addEntry a.1 a.2) (new layout numTerms)

/-- The blocks `finish` writes. -/
def blocks (w : SfxPostWriterV2) : List Bytes :=
  w.ordinals.map fun entries => encodeOrdinal w.layout (sortEntries entries)

def finish (w : SfxPostWriterV2) : Option Bytes := finishFile (magic w.layout) w.blocks

end SfxPostWriterV2

/-! ## One block -/

/-- `HeaderLayout`, without the fixed-width one of older files. -/
inductive HeaderLayout
  | v3 (checkpoints headers : Bytes)
  | docs (pairs : Bytes)

structure OrdinalHeader where
  numDocs : Nat
  /-- Their headers. -/
  layout : HeaderLayout
  payloadData : Bytes
  /-- An entry has its span. -/
  spans : Bool

/-- What a header says of a document: where its payload starts, and how many entries it has. -/
structure DocSlot where
  docId : UInt32
  offset : UInt32
  count : UInt32
deriving DecidableEq, Repr

namespace OrdinalHeader

/-- One header: the difference of documents, the payload's length, the count, and the position
behind it. -/
def readHeader (headers : Bytes) (pos : Nat) : Option ((UInt32 × UInt32 × UInt32) × Nat) := do
  let dDoc ← readVarintU32 headers pos
  let len ← readVarintU32 headers dDoc.2
  let n ← readVarintU32 headers len.2
  return ((dDoc.1, len.1, n.1), n.2)

/-- Where run `k` starts: the document before, the payloads before, the header. -/
def runStart (checkpoints : Bytes) (k : Nat) : Option (UInt32 × UInt32 × Nat) := do
  if k = 0 then return (0, 0, 0)
  else
    let c := (k - 1) * checkpointSize
    let doc ← readLe 4 checkpoints c
    let offset ← readLe 4 checkpoints (c + 4)
    let pos ← readLe 4 checkpoints (c + 8)
    return (UInt32.ofNat doc, UInt32.ofNat offset, pos)

/-- The loop of `doc_at`: over `m` headers to the one that is wanted. -/
def docAtLoop (headers : Bytes) : Nat → UInt32 → UInt32 → UInt32 → Nat → DocSlot
  | 0, doc, offset, count, pos =>
    match readHeader headers pos with
    | none => ⟨doc, offset, count⟩
    | some h => ⟨doc + h.1.1, offset, h.1.2.2⟩
  | m + 1, doc, offset, count, pos =>
    match readHeader headers pos with
    | none => ⟨doc, offset, count⟩
    | some h => docAtLoop headers m (doc + h.1.1) (offset + h.1.2.1) h.1.2.2 h.2

/-- The loop of `doc_at` on documents only. -/
def pairAtLoop (pairs : Bytes) : Nat → UInt32 → UInt32 → Nat → DocSlot
  | 0, doc, tf, _ => ⟨doc, 0, tf⟩
  | m + 1, doc, tf, pos =>
    match readVarintU32 pairs pos with
    | none => ⟨doc, 0, tf⟩
    | some d =>
      match readVarintU32 pairs d.2 with
      | none => ⟨doc, 0, tf⟩
      | some n => pairAtLoop pairs m (doc + d.1) n.1 n.2

/-- `doc_at`: the `i`-th document; nothing where the source would read past its checkpoints. -/
def docAt (header : OrdinalHeader) (i : Nat) : Option DocSlot :=
  match header.layout with
  | .v3 checkpoints headers =>
    (runStart checkpoints (i / checkpointEvery)).map fun s =>
      docAtLoop headers (i % checkpointEvery) s.1 s.2.1 0 s.2.2
  | .docs pairs => some (pairAtLoop pairs (i + 1) 0 0 0)

/-- The loop of `for_each_doc`: a header that cannot be read ends it. -/
def headerDocs (headers : Bytes) : Nat → UInt32 → UInt32 → Nat → List DocSlot
  | 0, _, _, _ => []
  | n + 1, doc, offset, pos =>
    match readHeader headers pos with
    | none => []
    | some h =>
      ⟨doc + h.1.1, offset, h.1.2.2⟩ :: headerDocs headers n (doc + h.1.1) (offset + h.1.2.1) h.2

/-- `for_each_doc`: the documents visited, in order; no caller stops before the last. -/
def docs (header : OrdinalHeader) : List DocSlot :=
  match header.layout with
  | .v3 _ headers => headerDocs headers header.numDocs 0 0 0
  | .docs pairs => (readDocPairs pairs header.numDocs 0 0).map fun p => ⟨p.1, 0, p.2⟩

/-- `walk_payload` without spans; `f` says whether to go on. -/
def walkPositions {σ : Type} (data : Bytes) (f : σ → UInt32 → UInt32 → UInt32 → σ × Bool) :
    Nat → UInt32 → Nat → σ → σ
  | 0, _, _, s => s
  | n + 1, prevTi, pos, s =>
    if data.length ≤ pos then s
    else
      let a := decodeVint data pos
      let r := f s (prevTi + a.1) 0 0
      if r.2 then walkPositions data f n (prevTi + a.1) a.2 r.1 else r.1

/-- `walk_payload` with spans. -/
def walkSpans {σ : Type} (data : Bytes) (f : σ → UInt32 → UInt32 → UInt32 → σ × Bool) :
    Nat → UInt32 → UInt32 → Nat → σ → σ
  | 0, _, _, _, s => s
  | n + 1, prevTi, prevBf, pos, s =>
    if data.length ≤ pos then s
    else
      let a := decodeVint data pos
      if data.length ≤ a.2 then s
      else
        let b := decodeVint data a.2
        if data.length < b.2 then s
        else
          let c := decodeVint data b.2
          let r := f s (prevTi + a.1) (prevBf + b.1) (prevBf + b.1 + c.1)
          if r.2 then walkSpans data f n (prevTi + a.1) (prevBf + b.1) c.2 r.1 else r.1

def walkPayload {σ : Type} (header : OrdinalHeader) (slot : DocSlot)
    (f : σ → UInt32 → UInt32 → UInt32 → σ × Bool) (s : σ) : σ :=
  let data := header.payloadData.drop (min slot.offset.toNat header.payloadData.length)
  if header.spans then walkSpans data f slot.count.toNat 0 0 0 s
  else walkPositions data f slot.count.toNat 0 0 s

/-- The last loop of `find_doc_full`: at most `n` documents from index `i`, up to the one that
is wanted or the first behind it. -/
def findRun (headers : Bytes) (target : UInt32) :
    Nat → Nat → UInt32 → UInt32 → Nat → Option (Nat × DocSlot)
  | 0, _, _, _, _ => none
  | n + 1, i, doc, offset, pos =>
    match readHeader headers pos with
    | none => none
    | some h =>
      if doc + h.1.1 < target then
        findRun headers target n (i + 1) (doc + h.1.1) (offset + h.1.2.1) h.2
      else if doc + h.1.1 = target then some (i, ⟨target, offset, h.1.2.2⟩)
      else none

/-- `find_doc_full` on documents only. -/
def findPair (pairs : Bytes) (target : UInt32) : Nat → Nat → UInt32 → Nat → Option (Nat × DocSlot)
  | 0, _, _, _ => none
  | n + 1, i, doc, pos =>
    match readVarintU32 pairs pos with
    | none => none
    | some d =>
      match readVarintU32 pairs d.2 with
      | none => none
      | some tf =>
        if doc + d.1 < target then findPair pairs target n (i + 1) (doc + d.1) tf.2
        else if doc + d.1 = target then some (i, ⟨target, 0, tf.1⟩)
        else none

/-- `find_doc_full`: the document's index and slot, by the last checkpoint below it. -/
def findDocFull (header : OrdinalHeader) (docId : UInt32) : Option (Nat × DocSlot) :=
  match header.layout with
  | .v3 checkpoints headers =>
    let k := lastBelow
      (fun k => (readLe 4 checkpoints ((k - 1) * checkpointSize)).map
        fun d => UInt32.ofNat d < docId)
      0 (checkpointsFor header.numDocs)
    let start := k * checkpointEvery
    let stop := min (start + checkpointEvery) header.numDocs
    match runStart checkpoints k with
    | none => none
    | some s => findRun headers docId (stop - start) start s.1 s.2.1 s.2.2
  | .docs pairs => findPair pairs docId header.numDocs 0 0 0

def findDoc (header : OrdinalHeader) (docId : UInt32) : Option Nat :=
  (header.findDocFull docId).map Prod.fst

end OrdinalHeader

/-! ## The reader -/

/-- `DocFilter`: a set of documents, visited in some order. -/
structure DocFilter where
  /-- The documents, as `for_each` visits them. -/
  docs : List UInt32
  /-- Each once. -/
  nodup : docs.Nodup

/-- How many bits a number has (`usize::BITS - leading_zeros`). -/
def bitLength (n : Nat) : Nat := if n = 0 then 0 else n.log2 + 1

namespace OrdinalHeader

/-- The layout can be searched, not only scanned. -/
def searchable (header : OrdinalHeader) : Bool :=
  match header.layout with
  | .v3 .. => true
  | .docs _ => false

/-- The branch of `filtered_indices` that looks each document of the filter up. -/
def searchIndices (header : OrdinalHeader) (filter : DocFilter) : List Nat :=
  (filter.docs.filterMap header.findDoc).insertionSort (· ≤ ·)

/-- The branch of `filtered_indices` that scans the documents of the ordinal. -/
def scanIndices (header : OrdinalHeader) (filter : DocFilter) : List Nat :=
  (header.docs.zipIdx.filter fun p => p.1.docId ∈ filter.docs).map Prod.snd

/-- `filtered_indices`: whichever side is smaller drives the loop; the product saturates. -/
def filteredIndices (header : OrdinalHeader) (filter : DocFilter) : List Nat :=
  if header.searchable &&
      min (filter.docs.length * bitLength header.numDocs) (2 ^ 64 - 1) < header.numDocs then
    header.searchIndices filter
  else header.scanIndices filter

/-- The entries of one document. -/
def slotEntries (header : OrdinalHeader) (slot : DocSlot) : List SfxPostingEntry :=
  header.walkPayload slot (fun out ti bf bt => (out ++ [⟨slot.docId, ti, bf, bt⟩], true)) []

/-- The positions of one document. -/
def slotPositions (header : OrdinalHeader) (slot : DocSlot) : List UInt32 :=
  header.walkPayload slot (fun out ti _ _ => (out ++ [ti], true)) []

/-- The slots a filter lets through, or all of them. -/
def slots (header : OrdinalHeader) (filter : Option DocFilter) : List DocSlot :=
  match filter with
  | none => header.docs
  | some filter => (header.filteredIndices filter).filterMap header.docAt

end OrdinalHeader

/-- `SfxPostReaderV2`, asked by the ordinals of its own file. -/
structure SfxPostReaderV2 extends PostingFile

namespace SfxPostReaderV2

def openOwned (data : Bytes) : Option SfxPostReaderV2 :=
  (PostingFile.openWith magic data).map SfxPostReaderV2.mk

variable (r : SfxPostReaderV2)

/-- `read_ordinal_header` on a block without positions. -/
def readDocsHeader (data : Bytes) : Option OrdinalHeader := do
  let n ← readVarintU32 data 0
  if data.length < n.1.toNat then none
  else some ⟨n.1.toNat, .docs (data.drop n.2), [], false⟩

/-- `read_ordinal_header` on a block with positions. -/
def readPositionsHeader (spans : Bool) (data : Bytes) : Option OrdinalHeader := do
  if data.length < 4 then none
  else
    let n ← readVarintU32 data 0
    if data.length < n.1.toNat then none
    else
      let headersLen ← readVarintU32 data n.2
      let cpLen := checkpointsFor n.1.toNat * checkpointSize
      let headersStart := headersLen.2 + cpLen
      let payloadStart := headersStart + headersLen.1.toNat
      if data.length < payloadStart then none
      else
        some ⟨n.1.toNat,
          .v3 ((data.drop headersLen.2).take cpLen)
            ((data.drop headersStart).take headersLen.1.toNat),
          data.drop payloadStart, spans⟩

/-- `read_ordinal_header`, on the bytes between two offsets of the table. -/
def readOrdinalHeader (ordinal : Nat) : Option OrdinalHeader := do
  let start ← r.table.get ordinal
  let stop ← r.table.get (ordinal + 1)
  let entryData := r.data.drop r.entriesStart
  if stop ≤ start || entryData.length ≤ start then none
  else
    let data := (entryData.drop start).take (min stop entryData.length - start)
    if r.layout = .docsOnly then readDocsHeader data
      else readPositionsHeader (r.layout = .spans) data

/-- The block of an ordinal, if the file has one. -/
def headerOf (ordinal : Nat) : Option OrdinalHeader :=
  if r.numOrdinals ≤ ordinal then none else r.readOrdinalHeader ordinal

/-- `entries_filtered`, and `entries` without a filter. -/
def entriesFiltered (ordinal : Nat) (filter : Option DocFilter) : List SfxPostingEntry :=
  match r.headerOf ordinal with
  | none => []
  | some header => (header.slots filter).flatMap header.slotEntries

def positionsFiltered (ordinal : Nat) (filter : Option DocFilter) : List PositionEntry :=
  match r.headerOf ordinal with
  | none => []
  | some header => (header.slots filter).flatMap fun slot =>
    (header.slotPositions slot).map (PositionEntry.mk slot.docId)

/-- `for_each_doc`: the documents and their frequencies. -/
def docPairs (ordinal : Nat) : List (UInt32 × UInt32) :=
  match r.headerOf ordinal with
  | none => []
  | some header => header.docs.map fun slot => (slot.docId, slot.count)

def hasDoc (ordinal : Nat) (docId : UInt32) : Bool :=
  match r.headerOf ordinal with
  | none => false
  | some header => (header.findDoc docId).isSome

/-- The document of an ordinal: the view and its slot. -/
def lookup (ordinal : Nat) (docId : UInt32) : Option (OrdinalHeader × DocSlot) :=
  (r.headerOf ordinal).bind fun header => (header.findDocFull docId).map fun p => (header, p.2)

def entriesForDoc (ordinal : Nat) (docId : UInt32) : List SfxPostingEntry :=
  (r.lookup ordinal docId).elim [] fun p => p.1.slotEntries p.2

def positionsForDoc (ordinal : Nat) (docId : UInt32) : List UInt32 :=
  (r.lookup ordinal docId).elim [] fun p => p.1.slotPositions p.2

/-- `entry_at`: past the position the walk stops. -/
def entryAt (ordinal : Nat) (docId position : UInt32) : Option (UInt32 × UInt32) :=
  (r.lookup ordinal docId).elim none fun p => p.1.walkPayload p.2 (fun found ti bf bt =>
    if ti = position then (some (bf, bt), false) else (found, ti < position)) none

def hasPosition (ordinal : Nat) (docId position : UInt32) : Bool :=
  (r.lookup ordinal docId).elim false fun p => p.1.walkPayload p.2 (fun found ti _ _ =>
    if ti = position then (true, false) else (found, ti < position)) false

def docFreq (ordinal : Nat) : UInt32 :=
  match r.headerOf ordinal with
  | none => 0
  | some header => UInt32.ofNat header.numDocs

end SfxPostReaderV2

end Lucivy.SuffixFst
