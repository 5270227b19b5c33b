import Lucivy.Foundation.Neighbours
import Lucivy.SuffixFst.CollectorData

/-! # The derived files, rebuilt

`derived::rebuild` (`suffix_fst/derived.rs`): the position map, the word map and the sibling table
of a segment from its two posting files and the lengths of its ordinals.

* `rebuild` — the three files.
* `chunkLinks`, `wordLinks` — the links of the sibling table: chunks at neighbouring positions,
  and words with no empty position between them. -/

namespace Lucivy.SuffixFst

open Lucivy.Foundation

/-- A word occurrence: document, first and last position, ordinal. -/
structure RebuiltWord where
  docId : UInt32
  first : UInt32
  last : UInt32
  ordinal : UInt32
deriving DecidableEq, Repr

namespace RebuiltWord

/-- The order of the tuples. -/
def sortKey (w : RebuiltWord) : List Nat :=
  [w.docId.toNat, w.first.toNat, w.last.toNat, w.ordinal.toNat]

/-- `sort_unstable`; equal words are the same. -/
def sortWords (words : List RebuiltWord) : List RebuiltWord :=
  words.insertionSort fun a b => lexLe (sortKey a) (sortKey b)

/-- A word that ends where `m` ends and starts no earlier: `m`'s tail. -/
def isTailOf (m w : RebuiltWord) : Bool :=
  m.docId = w.docId && m.last = w.last && m.first ≤ w.first

/-- The main words: of those that end on one position the first. -/
def mainStep (main : List RebuiltWord) (w : RebuiltWord) : List RebuiltWord :=
  match main.getLast? with
  | some m => if isTailOf m w then main else main ++ [w]
  | none => main ++ [w]

end RebuiltWord

open RebuiltWord

/-- `.posmap`: every chunk occurrence, in ordinal order. -/
def rebuildPosmap (r : SfxPostReaderV2) : PosMapWriter :=
  (List.range r.numOrdinals).foldl (fun w ord =>
    (r.positionsFiltered ord none).foldl
      (fun w (e : PositionEntry) => feedPosition ord w e.docId e.tokenIndex) w) .new

/-- The word map and the words so far. -/
structure WordsSoFar where
  wordPosMap : WordPosMapWriter
  words : List RebuiltWord

/-- One entry of an ordinal. -/
def takeWord (ord : Nat) (s : WordsSoFar) (e : WordPostingEntry) : WordsSoFar :=
  ⟨feedWord s.wordPosMap (ord, e),
    s.words ++ [⟨e.docId, e.firstPosition, e.lastPosition, UInt32.ofNat ord⟩]⟩

/-- `.word_pos_map`: every word occurrence, in ordinal order; the words are kept. -/
def rebuildWords (numOrdinals : Nat) (wr : Option WordSfxPostReader) : WordsSoFar :=
  match wr with
  | none => ⟨.new, []⟩
  | some wr => (List.range (min wr.numOrdinals numOrdinals)).foldl
      (fun s ord => wr.forEachEntry ord (takeWord ord) s) ⟨.new, []⟩

/-- Consecutive chunks: neighbouring positions that both hold one. -/
def chunkLinks (pm : PosMapReader) : List (Nat × Nat) :=
  (List.range pm.numDocs).flatMap fun doc =>
    neighbours none ((List.range (pm.numTokens doc)).map (pm.ordinalAt doc))

/-- Two words of one value: no empty position between them. -/
def sameValue (pm : PosMapReader) (a b : RebuiltWord) : Bool :=
  (List.range' (a.last.toNat + 1) (b.first.toNat - (a.last.toNat + 1))).all fun p =>
    (pm.ordinalAt a.docId.toNat p).isSome

/-- Consecutive words of a value. -/
def wordLinks (pm : PosMapReader) (words : List RebuiltWord) : List (UInt32 × UInt32) :=
  let main := (sortWords words).foldl mainStep []
  ((main.zip main.tail).filter fun p => p.1.docId = p.2.docId && sameValue pm p.1 p.2).map fun p =>
    (p.1.ordinal, p.2.ordinal)

/-- The sibling table, from the position map just written and the words. -/
def rebuildSiblings (numOrdinals : Nat) (posmap : Bytes) (words : List RebuiltWord) :
    SiblingTableWriter :=
  match PosMapReader.openBytes posmap with
  | none => .new numOrdinals
  | some pm =>
    (wordLinks pm words).foldl (fun w p => w.add p.1 p.2 0)
      ((chunkLinks pm).foldl (fun w p => w.add (UInt32.ofNat p.1) (UInt32.ofNat p.2) 0)
        (.new numOrdinals))

/-- **`rebuild`.** -/
def rebuild (r : SfxPostReaderV2) (wr : Option WordSfxPostReader)
    (ownLen : UInt32 → Option UInt16) : DerivedFiles :=
  let posmap := (rebuildPosmap r).serializeWithLens (some ownLen)
  let words := rebuildWords r.numOrdinals wr
  ⟨posmap, words.wordPosMap.serialize, (rebuildSiblings r.numOrdinals posmap words.words).serialize⟩

end Lucivy.SuffixFst
