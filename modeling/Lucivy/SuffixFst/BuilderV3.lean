import Lucivy.SuffixFst.CollectorV3

/-! # The suffix FST

`SuffixFstBuilderV3` (`suffix_fst/builder_v3.rs`): the keys of the FST are the suffixes of the
lowercased tokens, in three partitions, and the record of a key lists the tokens it is a suffix
of. A key stops at the end of the token; the bytes borrowed from the next token are in the
record.

* `addToken`, `addWordStripped` — the entries of a chunk and of a word.
* `buildFst` — the entries of a collection. -/

namespace Lucivy.SuffixFst

open Lucivy.Foundation Lucivy.Tokenizer
open String (utf8Len)

/-- The partitions of the keys: `0x00`, `0x01` and `0x02`. -/
inductive Partition
  /-- A chunk from its start. -/
  | si0
  /-- A proper suffix of a chunk. -/
  | siRest
  /-- A suffix of a word without separators. -/
  | stripped
deriving DecidableEq, Repr

def maxOverlapBytes : Nat := 4

/-- The largest `own_len` a record holds. -/
def ownLenMask : Nat := 16383

/-- `ParentEntryV3`. -/
structure ParentEntry where
  ordinal : Ordinal
  /-- Where the suffix starts in it. -/
  sti : Nat
  /-- Bytes of content and separators. -/
  ownLen : Nat
  sepLen : Nat
  /-- What is borrowed from the next token, lowercased. -/
  overlap : Text
  /-- The first chunk of a word. -/
  isWordStart : Bool
deriving DecidableEq, Repr

def ParentEntry.contentLen (p : ParentEntry) : Nat := p.ownLen - p.sepLen

/-- A key of the FST with one of its parents. -/
structure FstEntry where
  partition : Partition
  key : Text
  parent : ParentEntry
deriving DecidableEq, Repr

/-- The nonempty suffixes of a text with their byte offsets. -/
def suffixesFrom : Nat → Text → List (Nat × Text)
  | _, [] => []
  | si, c :: t => (si, c :: t) :: suffixesFrom (si + c.utf8Size) t

/-- The suffixes that are indexed: those that start within the first 256 bytes. -/
def indexedSuffixes (t : Text) : List (Nat × Text) :=
  (suffixesFrom 0 t).filter (·.1 < maxChunkBytes)

/-- `add_token`: own bytes and overlap are lowercased separately; lengths stay those of the
source. -/
def addToken (table : CaseTable) (t : Token) : List FstEntry :=
  let cut := cutBefore (utf8Len t.text - t.info.overlapLen) t.text
  let overlap := (cutBefore maxOverlapBytes (table.strToLowercase cut.2)).1
  (indexedSuffixes (table.strToLowercase cut.1)).map fun p =>
    ⟨if p.1 = 0 then .si0 else .siRest, p.2,
      ⟨t.ordinal, p.1, t.info.ownLen, t.info.sepLen, overlap, t.info.isWordStart⟩⟩

def addWordStripped (table : CaseTable) (w : WordStrippedEntry) : List FstEntry :=
  let overlap := (cutBefore maxOverlapBytes (table.strToLowercase w.contentOverlap)).1
  let content := (cutBefore (ownLenMask - w.lastSepLen) (table.strToLowercase w.wordContent)).1
  (indexedSuffixes content).map fun p =>
    ⟨.stripped, p.2,
      ⟨w.ordinal, p.1, utf8Len content + w.lastSepLen, w.lastSepLen, overlap, w.isWordStart⟩⟩

/-- The entries of a collection: its chunks, then its words. -/
def buildFst (table : CaseTable) (c : Collector) : List FstEntry :=
  (c.tokens.filter (!·.info.isWordStripped)).flatMap (addToken table) ++
    c.wordStripped.flatMap (addWordStripped table)

/-- `lookup_with_key` finds a word under all of its lowercase, with the word's own length. -/
def findsWord (table : CaseTable) (w : WordStrippedEntry) (entries : List FstEntry) : Bool :=
  entries.any fun e => e.partition = .stripped ∧ e.key = table.strToLowercase w.wordContent ∧
    e.parent.overlap = (cutBefore maxOverlapBytes (table.strToLowercase w.contentOverlap)).1 ∧
    e.parent.sti = 0 ∧
    e.parent.contentLen = min (utf8Len w.wordContent + w.lastSepLen) 65535 - w.lastSepLen

/-- **A word that is clamped is not found.** -/
theorem not_findsWord_of_long {table : CaseTable} {w : WordStrippedEntry} (h : ownLenMask <
      min (utf8Len w.wordContent + w.lastSepLen) 65535) (hsep : w.lastSepLen ≤ ownLenMask) :
    findsWord table w (addWordStripped table w) = false := by
  refine List.any_eq_false.mpr fun e he hfound => ?_
  obtain ⟨-, -, -, -, hlen⟩ := of_decide_eq_true hfound
  obtain ⟨p, -, rfl⟩ := List.mem_map.mp he
  have hclamp := utf8Len_cutBefore_le (ownLenMask - w.lastSepLen)
    (table.strToLowercase w.wordContent)
  simp only [ParentEntry.contentLen] at hlen
  omega

end Lucivy.SuffixFst
