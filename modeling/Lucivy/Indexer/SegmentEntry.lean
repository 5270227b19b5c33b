import Mathlib.Data.List.Basic

/-! # Segments, as the indexer's bookkeeping sees them

What `SegmentMeta` and `SegmentEntry` record about a segment, and `advance_deletes`, the one
function that rewrites an entry outside the registers.

* `SegmentMeta` — id, document count, deletes. The bound asserted by `with_delete_meta` is a
  field, so a meta with more deletes than documents cannot be built.
* `SegmentEntry` — a meta with its transient state: the alive bitset and the delete cursor.
* `advanceDeletes` — bring an entry's deletes up to an opstamp. What the delete queue holds
  and what the disk answers is an input (`DeleteScan`). -/

namespace Lucivy.Indexer

/-- Auto-incremented label of an operation (`Stamper`). -/
abbrev Opstamp := Nat

/-- A segment's identity (a random UUID in the source: only equality and the order of the
printed form are used). -/
abbrev SegmentId := Nat

/-- The errors the indexer's handlers stop with. -/
inductive LucivyError
  | invalidArgument (message : String)
  | systemError (message : String)
  | ioError
  deriving Repr, DecidableEq

/-- `InnerSegmentMeta::deletes`: how many documents are deleted, as of which opstamp. -/
structure DeleteMeta where
  numDeletedDocs : Nat
  /-- Opstamp of the last delete taken into account. -/
  opstamp : Opstamp
  deriving Repr, DecidableEq

/-- What is recorded about one segment. -/
@[ext]
structure SegmentMeta where
  /-- `segment_id`. -/
  id : SegmentId
  /-- Highest document id plus one. -/
  maxDoc : Nat
  /-- Fields of the segment that have suffix files. -/
  sfxFieldIds : List Nat
  deletes : Option DeleteMeta
  /-- Asserted by `with_delete_meta`. -/
  deletes_le : ∀ d ∈ deletes, d.numDeletedDocs ≤ maxDoc
  deriving DecidableEq

namespace SegmentMeta

def numDeletedDocs (m : SegmentMeta) : Nat := (m.deletes.map DeleteMeta.numDeletedDocs).getD 0

/-- `num_docs`: the documents that are not deleted. -/
def numDocs (m : SegmentMeta) : Nat := m.maxDoc - m.numDeletedDocs

def deleteOpstamp (m : SegmentMeta) : Option Opstamp := m.deletes.map DeleteMeta.opstamp

/-- A segment of `maxDoc` documents without deletes (`new_segment_meta`). -/
def new (id : SegmentId) (maxDoc : Nat) (sfxFieldIds : List Nat) : SegmentMeta :=
  ⟨id, maxDoc, sfxFieldIds, none, by simp⟩

/-- `with_delete_meta`, for the count `max_doc - num_alive_docs` its caller passes. -/
def withAliveDocs (m : SegmentMeta) (numAliveDocs : Nat) (opstamp : Opstamp) : SegmentMeta :=
  { m with
    deletes := some ⟨m.maxDoc - numAliveDocs, opstamp⟩
    deletes_le := by simp }

@[simp] theorem withAliveDocs_id (m : SegmentMeta) (n : Nat) (o : Opstamp) :
    (m.withAliveDocs n o).id = m.id := rfl

end SegmentMeta

/-- A segment's state at one instant: its meta, whether it carries an alive bitset, and the
opstamp of the next delete its cursor would read. -/
structure SegmentEntry where
  info : SegmentMeta
  /-- `alive_bitset` is set. -/
  aliveBitset : Bool
  /-- `delete_cursor.get()`: opstamp of the next delete operation, if any. -/
  deleteCursor : Option Opstamp
  deriving DecidableEq

namespace SegmentEntry

/-- `segment_id`. -/
def id (e : SegmentEntry) : SegmentId := e.info.id

/-- An entry without transient state (`SegmentEntry::new` at an empty delete queue). -/
def ofMeta (m : SegmentMeta) : SegmentEntry := ⟨m, false, none⟩

end SegmentEntry

/-- What one scan of the delete queue over a segment finds: the documents still alive and the
next operation under the cursor afterwards. -/
structure DeleteScan where
  /-- `alive_bitset.len()` after the scan. -/
  numAliveDocs : Nat
  /-- The cursor after the scan. -/
  deleteCursor : Option Opstamp
  deriving Repr, DecidableEq

/-- **`advance_deletes`.** `scan` is what opening the segment, running the delete queries up
to the target and writing the `.del` file gives; `none` is an I/O error. -/
def advanceDeletes (scan : SegmentId → Option DeleteScan) (e : SegmentEntry)
    (targetOpstamp : Opstamp) : Option SegmentEntry :=
  if e.info.deleteOpstamp = some targetOpstamp then
    some e
  else if e.aliveBitset = false ∧ e.deleteCursor = none then
    some e
  else
    match scan e.id with
    | none => none
    | some found =>
      let info :=
        if e.info.maxDoc - found.numAliveDocs > e.info.numDeletedDocs then
          e.info.withAliveDocs found.numAliveDocs targetOpstamp
        else e.info
      some { e with info := info, deleteCursor := found.deleteCursor }

/-- Advancing the deletes of an entry keeps its identity. -/
theorem advanceDeletes_id {scan : SegmentId → Option DeleteScan} {e e' : SegmentEntry}
    {o : Opstamp} (h : advanceDeletes scan e o = some e') : e'.id = e.id := by
  unfold advanceDeletes at h
  split at h
  · cases h; rfl
  · split at h
    · cases h; rfl
    · split at h
      · cases h
      · cases h
        simp only [SegmentEntry.id]
        split
        · rw [SegmentMeta.withAliveDocs_id]
        · rfl

end Lucivy.Indexer
