import Lucivy.Foundation.SortDedup
import Lucivy.SuffixFst.BlockOffsets
import Lucivy.SuffixFst.Varint

/-! # The sibling table

`SiblingTableWriter` (`suffix_fst/sibling_table.rs`): for every ordinal the ordinals that follow
it, sorted, each coded as the difference to the one before. `SIB4` is written when no link has a
gap, `SIB2` otherwise.

* `SiblingTableWriter.serialize` — the file.
* `serialize_congr` — the file depends on which links there are, not on their order or number. -/

namespace Lucivy.SuffixFst

open Lucivy.Foundation

/-- A link: the ordinal, the one that follows it, and the bytes between. -/
structure SiblingLink where
  ordinal : UInt32
  /-- What follows it. -/
  nextOrdinal : UInt32
  /-- Bytes between the two. -/
  gapLen : UInt16
deriving DecidableEq, Repr

structure SiblingTableWriter where
  /-- The links, in the order they were added. -/
  pairs : List SiblingLink
  numOrdinals : Nat

namespace SiblingTableWriter

def new (numOrdinals : Nat) : SiblingTableWriter := ⟨[], numOrdinals⟩

def add (w : SiblingTableWriter) (ordinal nextOrdinal : UInt32) (gapLen : UInt16) :
    SiblingTableWriter :=
  { w with pairs := w.pairs ++ [⟨ordinal, nextOrdinal, gapLen⟩] }

/-- The order of links: field by field. -/
def sortKey (l : SiblingLink) : List Nat :=
  [l.ordinal.toNat, l.nextOrdinal.toNat, l.gapLen.toNat]

/-- `sort_unstable` and `dedup`. -/
def sortLinks (pairs : List SiblingLink) : List SiblingLink :=
  sortDedup (fun a b => lexLe (sortKey a) (sortKey b)) (· == ·) pairs

/-- One link, against the one before of its ordinal. -/
def encodeLink (withGaps : Bool) (prev : UInt32) (l : SiblingLink) : Bytes :=
  let delta := (l.nextOrdinal - prev).toNat
  if withGaps then
    writeVarint (delta <<< 1 ||| (if l.gapLen ≠ 0 then 1 else 0)) ++
      (if l.gapLen ≠ 0 then writeVarint l.gapLen.toNat else [])
  else writeVarint delta

/-- The links of one ordinal. -/
def encodeLinks (withGaps : Bool) : UInt32 → List SiblingLink → Bytes
  | _, [] => []
  | prev, l :: ls => encodeLink withGaps prev l ++ encodeLinks withGaps l.nextOrdinal ls

/-- The loop over the ordinals, from `ord` on, with the links that are left. -/
def linkBlocks (withGaps : Bool) : Nat → Nat → List SiblingLink → List Bytes
  | _, 0, _ => []
  | ord, n + 1, links =>
    encodeLinks withGaps 0 (links.takeWhile (·.ordinal.toNat = ord)) ::
      linkBlocks withGaps (ord + 1) n (links.dropWhile (·.ordinal.toNat = ord))

/-- `serialize`; more than 4 GB of entries are refused (the source stops with an assertion). -/
def serialize (w : SiblingTableWriter) : Option Bytes :=
  let links := sortLinks w.pairs
  let withGaps := links.any (·.gapLen ≠ 0)
  let blocks := linkBlocks withGaps 0 w.numOrdinals links
  if blocks.flatten.length ≤ 2 ^ 32 - 1 then
    some (leBytes 4 (2 ^ 32 - 1) ++
      ((if withGaps then
          [0x53, 0x49, 0x42, 0x32] ++ (leBytes 4 w.numOrdinals ++
            (blockTable 0 blocks).flatMap (leBytes 4))
        else
          [0x53, 0x49, 0x42, 0x34] ++ (leBytes 4 w.numOrdinals ++
            encodeOffsets (blockTable 0 blocks))) ++ blocks.flatten))
  else none

theorem sortKey_injective : Function.Injective sortKey := by
  intro a b h
  simp only [sortKey, List.cons.injEq, UInt32.toNat_inj, UInt16.toNat_inj, and_true] at h
  cases a
  simp_all

/-- **The file depends only on which links there are.** -/
theorem serialize_congr {w w' : SiblingTableWriter} (hnum : w.numOrdinals = w'.numOrdinals)
    (hmem : ∀ l, l ∈ w.pairs ↔ l ∈ w'.pairs) : w.serialize = w'.serialize := by
  have hlinks : sortLinks w.pairs = sortLinks w'.pairs := sortDedup_congr sortKey_injective hmem
  rw [serialize, serialize, hnum, hlinks]

end SiblingTableWriter

end Lucivy.SuffixFst
