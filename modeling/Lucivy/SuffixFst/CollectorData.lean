import Lucivy.SuffixFst.PosMapFile
import Lucivy.SuffixFst.SfxPostV2
import Lucivy.SuffixFst.SiblingTable
import Lucivy.SuffixFst.WordSfxPost

/-! # What the collector hands on

`SfxCollectorV3::into_data` (`suffix_fst/collector_v3.rs`): the interned tokens get their final
ordinals, the postings are grouped by them, and the word postings, the word map and the sibling
table are written. The chunk postings and the position map are written from them when the segment
is built (`sfx_dag_v3.rs`, `index_registry.rs`).

With a shard dictionary the final order is that of the global ids, without one that of the texts.
The byte spans of the word postings, which the layout with positions does not store, are left
out.

* `finalOrder`, `internToFinal` — the final ordinals.
* `sfxpostFile`, `wordSfxpostFile` — the two posting files.
* `writtenFiles` — the three files that are derived from them. -/

namespace Lucivy.SuffixFst

open Lucivy.Foundation Lucivy.Tokenizer UInt32

/-! ## Final ordinals -/

/-- The bytes of a text, as numbers. -/
def textKey (t : Text) : List Nat := (t.flatMap String.utf8EncodeChar).map UInt8.toNat

/-- `intern_shape`, as numbers. -/
def shapeKey (m : TokenMeta) : List Nat :=
  [m.shape.1.toNat, m.shape.2.1, m.shape.2.2.1, m.shape.2.2.2.toNat]

/-- The order without a dictionary: chunks before words, then by text, then by shape. -/
def finalLe (a b : Token) : Bool :=
  if a.info.isWordStripped ≠ b.info.isWordStripped then b.info.isWordStripped
  else if a.text ≠ b.text then lexLe (textKey a.text) (textKey b.text)
  else lexLe (shapeKey a.info) (shapeKey b.info)

/-- `order`: the tokens by final ordinal. A word-stripped one counts when a word entry names it.
`dictionary` gives the global id of an intern key. -/
def finalOrder (c : Collector) (dictionary : Option (Ordinal → Nat)) : List Token :=
  let counted := c.tokens.filter fun t =>
    !t.info.isWordStripped || c.wordStripped.any (·.ordinal = t.ordinal)
  match dictionary with
  | some globalId => counted.insertionSort fun a b => globalId a.ordinal ≤ globalId b.ordinal
  | none => counted.insertionSort fun a b => finalLe a b

def internToFinal (order : List Token) (o : Ordinal) : Nat := (order.map Token.ordinal).idxOf o

/-! ## The postings -/

/-- `content_postings`: for each ordinal where its chunk stands, sorted, each place once. -/
def contentPostings (c : Collector) (order : List Token) : List (List (UInt32 × UInt32)) :=
  order.map fun t =>
    if t.info.isWordStripped then []
    else
      sortDedup (fun a b => lexLe [a.1.toNat, a.2.toNat] [b.1.toNat, b.2.toNat]) (· == ·)
        ((c.postings.filter (·.ordinal = t.ordinal)).map fun p => (ofNat p.docId, ofNat p.position))

/-- What `BuildSfxPostV3Node` adds to the writer. -/
def chunkAdds (c : Collector) (order : List Token) : List (Nat × SfxPostingEntry) :=
  (contentPostings c order).zipIdx.flatMap fun p => p.1.map fun q => (p.2, ⟨q.1, q.2, 0, 0⟩)

/-- `.sfxpost`, with positions. -/
def sfxpostFile (c : Collector) (order : List Token) : Option Bytes :=
  (SfxPostWriterV2.added .positions order.length (chunkAdds c order)).finish

/-- A word posting as it is written. -/
def wordEntry (p : WordPosting) : WordPostingEntry :=
  ⟨ofNat p.docId, ofNat p.firstPosition, ofNat p.lastPosition, 0, 0, UInt16.ofNat p.tailOff⟩

/-- The word postings of each word-stripped ordinal (`deferred_ws`), as they were captured. -/
def wordAdds (c : Collector) (order : List Token) : List (Nat × WordPostingEntry) :=
  (order.zipIdx.filter (·.1.info.isWordStripped)).flatMap fun p =>
    (c.wordPostings.filter (·.ordinal = p.1.ordinal)).map fun q => (p.2, wordEntry q)

/-- `.word_sfxpost`, with positions. -/
def wordSfxpostFile (c : Collector) (order : List Token) : Option Bytes :=
  (WordSfxPostWriter.added .positions order.length (wordAdds c order)).finish

def ownLens (order : List Token) : List UInt16 := order.map fun t => UInt16.ofNat t.info.ownLen

/-- The length of an ordinal, where it is known. -/
def ownLenOf (order : List Token) (ord : UInt32) : Option UInt16 := (ownLens order)[ord.toNat]?

/-! ## The derived files -/

/-- `DerivedFiles`. The sibling table is refused past 4 GB of entries. -/
structure DerivedFiles where
  posmap : Bytes
  wordPosMap : Bytes
  siblingV3 : Option Bytes
deriving DecidableEq, Repr

/-- One posting of an ordinal, fed to the position map. -/
def feedPosition (ord : Nat) (w : PosMapWriter) (docId position : UInt32) : PosMapWriter :=
  w.add docId position (ofNat ord)

/-- `build_derived_indexes_v3`: the position map from `.sfxpost`, ordinal by ordinal; with byte
checkpoints, if any length was told. -/
def posmapFile (order : List Token) (sfxpost : Bytes) : Bytes :=
  let writer := match SfxPostReaderV2.openOwned sfxpost with
    | none => PosMapWriter.new
    | some r => (List.range order.length).foldl (fun w ord =>
      (r.entriesFiltered ord none).foldl
        (fun w (e : SfxPostingEntry) => feedPosition ord w e.docId e.tokenIndex) w) .new
  if ownLens order = [] then writer.serialize
  else writer.serializeWithLens (some (ownLenOf order))

/-- One word, fed to the word map. -/
def feedWord (w : WordPosMapWriter) (a : Nat × WordPostingEntry) : WordPosMapWriter :=
  w.addWord a.2.docId a.2.firstPosition a.2.lastPosition (ofNat a.1)

/-- `.word_pos_map`, from the same loop as the word postings. -/
def wordPosMapFile (c : Collector) (order : List Token) : Bytes :=
  ((wordAdds c order).foldl feedWord .new).serialize

/-- `.sibling_v3`: the sibling pairs by final ordinal, no gap on any link. -/
def siblingFile (c : Collector) (order : List Token) : Option Bytes :=
  (c.siblingPairs.foldl (fun w p =>
    w.add (ofNat (internToFinal order p.1)) (ofNat (internToFinal order p.2)) 0)
    (SiblingTableWriter.new order.length)).serialize

/-- **The derived files of a segment**, as they are written beside its chunk postings. -/
def writtenFiles (c : Collector) (order : List Token) (sfxpost : Bytes) : DerivedFiles :=
  ⟨posmapFile order sfxpost, wordPosMapFile c order, siblingFile c order⟩

end Lucivy.SuffixFst
