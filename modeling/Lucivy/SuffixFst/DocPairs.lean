import Lucivy.Foundation.Runs
import Lucivy.SuffixFst.Varint

/-! # Documents with frequencies

The layouts without positions (`SFP6` of `sfxpost_v2.rs`, `WSP6` of `word_sfxpost.rs`): for an
ordinal the documents it occurs in, each as the difference to the one before, and how often.

* `docRuns` — the documents of a sorted list with their counts.
* `encodeDocs`, `readDocPairs` — the block and its reader.
* `readDocPairs_write` — what is read back. -/

namespace Lucivy.SuffixFst

open Lucivy.Foundation List

/-- The documents of some occurrences, each with the length of its run. -/
def docRuns (docs : List UInt32) : List (UInt32 × Nat) :=
  (runsBy id docs).map fun run => (run.headD 0, run.length)

/-- The pairs of a block: the difference to the document before, and the count in 32 bits. -/
def docPairs : UInt32 → List (UInt32 × Nat) → Bytes
  | _, [] => []
  | prev, r :: runs =>
    writeVarint (r.1 - prev).toNat ++ (writeVarint (r.2 % 2 ^ 32) ++ docPairs r.1 runs)

/-- One ordinal's block; none for an ordinal without occurrences. -/
def encodeDocs (docs : List UInt32) : Bytes :=
  if docs = [] then [] else writeVarint (docRuns docs).length ++ docPairs 0 (docRuns docs)

/-- The walk over the pairs of a block, `n` of them, from the document `doc`; a pair that
cannot be read ends it. -/
def readDocPairs (data : Bytes) : Nat → UInt32 → Nat → List (UInt32 × UInt32)
  | 0, _, _ => []
  | n + 1, doc, pos =>
    match readVarintU32 data pos with
    | none => []
    | some d =>
      match readVarintU32 data d.2 with
      | none => []
      | some tf => (doc + d.1, tf.1) :: readDocPairs data n (doc + d.1) tf.2

/-- Every document takes a byte. -/
theorem length_le_docPairs (prev : UInt32) (runs : List (UInt32 × Nat)) :
    runs.length ≤ (docPairs prev runs).length := by
  induction runs generalizing prev with
  | nil => exact Nat.zero_le _
  | cons r runs ih =>
    have hpos := writeVarint_pos (r.1 - prev).toNat
    have hrest := ih r.1
    rw [docPairs, length_cons, length_append, length_append]
    omega

/-- **The pairs are read back**, each count in 32 bits. -/
theorem readDocPairs_write {data : Bytes} {prev : UInt32} {runs : List (UInt32 × Nat)} {pos : Nat}
    (h : BytesAt data pos (docPairs prev runs)) :
    readDocPairs data runs.length prev pos =
      runs.map fun r => (r.1, UInt32.ofNat (r.2 % 2 ^ 32)) := by
  induction runs generalizing prev pos with
  | nil => rfl
  | cons r runs ih =>
    have hcount := readVarintU32_write (Nat.mod_lt r.2 (by decide)) h.right.left
    rw [length_cons, readDocPairs, readVarintU32_toNat h.left]
    dsimp only
    rw [hcount]
    dsimp only
    rw [wrapping_add_sub prev r.1, ih h.right.right, map_cons]

end Lucivy.SuffixFst
