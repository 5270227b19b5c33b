import Lucivy.Foundation.Effect
import Lucivy.Indexer.SegmentManager
import Lucivy.SuffixFst.Dictionary
import Mathlib.Data.List.Sort

/-! # The state the segment updater works on

`segment_updater.rs`, the part shared by every handler: the registers, the `meta.json` on
disk and its copy in memory, the shard dictionary, and the operations on them that the
handlers are made of.

* `IndexMeta` — the content of `meta.json`.
* `SegmentUpdaterState` — the whole state: `SegmentUpdaterShared`, the actor's own `merging`
  set, the merge batches running as scheduler tasks, and the dictionary's files and fold.
* `Io` — what the outside answers while one message is handled: which reads and writes
  succeed, what the delete queue holds, what the merge policy proposes.
* `purgeDeletes`, `saveMetas`, `refreshSfxDictionary`, `garbageCollectFiles`.

Handlers are programs of `Handler`: a failure stops the handler and keeps what it had done. -/

namespace Lucivy.Indexer

open Lucivy.Foundation Lucivy.SuffixFst List

/-- **`IndexMeta`**: what `meta.json` holds (schema and settings never change and are left
out). -/
structure IndexMeta where
  /-- The searchable segments, largest first. -/
  segments : List SegmentMeta
  /-- Opstamp of the commit. -/
  opstamp : Opstamp
  /-- The commit's message. -/
  payload : Option String
  /-- The live parts of the shard dictionary. -/
  sfxDictionary : Option SfxDictionaryMeta

/-- The ids of the segments `meta.json` lists. -/
def IndexMeta.segmentIds (m : IndexMeta) : List SegmentId := m.segments.map SegmentMeta.id

/-- `MergeOperation`: merge these segments, with deletes applied up to `targetOpstamp`. -/
structure MergeOperation where
  /-- Deletes up to this opstamp are applied. -/
  targetOpstamp : Opstamp
  segmentIds : List SegmentId
  deriving Repr, DecidableEq

/-- A batch of merges running as scheduler tasks: what `SuMergesDoneMsg` will carry back. -/
structure MergeBatch where
  /-- The operations, one task each. -/
  ops : List MergeOperation
  /-- `opstamp`, read from the meta when the batch started. -/
  opstamp : Opstamp
  /-- `payload`, read from the meta when the batch started. -/
  payload : Option String
  deriving Repr, DecidableEq

/-- `MergesDone::segment_ids`: every segment the batch took. -/
def MergeBatch.segmentIds (b : MergeBatch) : List SegmentId :=
  b.ops.flatMap MergeOperation.segmentIds

/-- The background fold's progress: no fold, a fold about to take its snapshot, a snapshot
taken, or its generations written and not yet swapped in. -/
inductive FoldTask
  | idle
  | started
  | snapshot (info : SfxDictionaryMeta)
  | written (info : SfxDictionaryMeta) (generations : List Nat) (nextGeneration : Nat)

/-- **The segment updater's state.** -/
structure SegmentUpdaterState (τ : Type) where
  /-- `meta.json` on disk. -/
  metaJson : IndexMeta
  /-- `active_index_meta`, the last meta this updater wrote or loaded. -/
  activeIndexMeta : IndexMeta
  /-- `segment_manager`. -/
  registers : SegmentRegisters
  pendingMergeTasks : Bool
  /-- Segments handed to a merge in flight. -/
  merging : List SegmentId
  inFlight : List MergeBatch
  /-- `Index::sfx_dictionary`: the live dictionary, on an index that has one. -/
  dictionary : Option (SfxDictionary τ)
  dictionaryShared : DictionaryShared τ
  directory : Directory τ
  /-- `Index::dictionary_fold`. -/
  fold : FoldTask

/-- How one garbage collection ends: the directory's lock could not be taken and nothing was
listed, all went well, or the files were deleted and recording that failed. -/
inductive GcOutcome
  | lockFailed
  | done
  | recordFailed
  deriving Repr, DecidableEq

/-- How reading one dictionary file goes: read, not opened (the source then skips the file),
or opened and failing in the middle (the source then stops). -/
inductive FileRead
  | ok
  | unopened
  | failed
  deriving Repr, DecidableEq

/-- **What the outside answers while one message is handled.** -/
structure Io where
  /-- The delete queue, and whether the scan succeeds, when the deletes are purged. -/
  purge : SegmentId → Option DeleteScan
  /-- The same when a finished merge is registered. -/
  register : SegmentId → Option DeleteScan
  /-- The same when the merges of the policy are prepared. -/
  policyPurge : SegmentId → Option DeleteScan
  /-- `MergePolicy::compute_merge_candidates`. -/
  policy : List SegmentMeta → List (List SegmentId)
  /-- Writing `meta.json` succeeds. -/
  saveOk : Bool
  /-- How garbage collection ends. -/
  gc : GcOutcome
  /-- Segments a reader holds open, or whose files cannot be deleted. -/
  held : SegmentId → Bool
  /-- Generations whose files cannot be deleted. -/
  heldGeneration : Nat → Bool
  readMinted : SegmentId → FileRead
  readGeneration : Nat → FileRead
  deletable : SegmentId → Bool
  /-- `LUCIVY_DICT_SYNC_FOLD`. -/
  syncFold : Bool
  /-- `LUCIVY_DICT_MAX_PENDING`. -/
  maxPending : Nat
  /-- `LUCIVY_DICT_MAX_GENERATIONS`. -/
  maxGenerations : Nat
  generationBytes : Nat → Nat
  /-- The files of a fold can be written. -/
  foldOk : Bool

/-- Every operation succeeds, there are no deletes, and the policy proposes nothing. -/
def calmIo : Io where
  purge _ := some ⟨0, none⟩
  register _ := some ⟨0, none⟩
  policyPurge _ := some ⟨0, none⟩
  policy _ := []
  saveOk := true
  gc := .done
  held _ := false
  heldGeneration _ := false
  readMinted _ := .ok
  readGeneration _ := .ok
  deletable _ := true
  syncFold := false
  maxPending := 64
  maxGenerations := 8
  generationBytes _ := 0
  foldOk := true

/-- A handler: it may stop with an error, and what it had done stays. -/
abbrev Handler (τ : Type) := EStateM LucivyError (SegmentUpdaterState τ)

variable {τ : Type}

/-! ## Deletes and registers -/

/-- **`purge_deletes`**: the entries of both registers, deletes advanced. -/
def purgeDeletes (scan : SegmentId → Option DeleteScan) (registers : SegmentRegisters)
    (target : Opstamp) : Option (List SegmentEntry) :=
  registers.segmentEntries.mapM (advanceDeletes scan · target)

/-- `purge_deletes` keeps every segment of both registers, and adds none. -/
theorem purgeDeletes_ids {scan : SegmentId → Option DeleteScan} {registers : SegmentRegisters}
    {target : Opstamp} {entries : List SegmentEntry}
    (h : purgeDeletes scan registers target = some entries) :
    entries.map SegmentEntry.id = registers.uncommitted.ids ++ registers.committed.ids := by
  have hids : ∀ (es es' : List SegmentEntry), es.mapM (advanceDeletes scan · target) = some es' →
      es'.map SegmentEntry.id = es.map SegmentEntry.id := by
    intro es
    induction es with
    | nil => intro es' h; simp at h; subst h; rfl
    | cons e rest ih =>
      intro es' h
      simp only [mapM_cons, Option.bind_eq_bind, Option.bind_eq_some_iff] at h
      obtain ⟨e', he, rest', hrest, hes⟩ := h
      cases hes
      rw [map_cons, map_cons, advanceDeletes_id he, ih rest' hrest]
  rw [hids _ _ h, SegmentRegisters.segmentEntries, map_append]
  rfl

/-- `committed_segment_metas`: empty segments are dropped first. -/
def committedSegmentMetas : Handler τ (List SegmentMeta) := do
  modify fun s => { s with registers := s.registers.removeEmptySegments }
  return (← get).registers.committed.segmentMetas

/-! ## `meta.json` -/

def loadMeta : Handler τ IndexMeta := return (← get).activeIndexMeta

/-- The order of the segments in `meta.json`: largest first, then by id. -/
def segmentOrder (a b : SegmentMeta) : Prop :=
  b.maxDoc < a.maxDoc ∨ (a.maxDoc = b.maxDoc ∧ a.id ≤ b.id)

instance : DecidableRel segmentOrder := fun _ _ => inferInstanceAs (Decidable (_ ∨ _))

/-- `Index::sfx_dictionary_meta`: the live parts, with the ids minted so far. -/
def sfxDictionaryMeta (s : SegmentUpdaterState τ) : Option SfxDictionaryMeta :=
  s.dictionary.map fun d => { d.info with nextIds := s.dictionaryShared.nextIds }

/-- **`save_metas`**: write the committed segments and the live dictionary's parts to
`meta.json`, then keep them as the active meta. A failed write changes neither. -/
def saveMetas (io : Io) (opstamp : Opstamp) (payload : Option String) : Handler τ Unit := do
  let metas ← committedSegmentMetas
  let s ← get
  let indexMeta : IndexMeta :=
    ⟨metas.insertionSort segmentOrder, opstamp, payload, sfxDictionaryMeta s⟩
  if io.saveOk then
    set { s with metaJson := indexMeta, activeIndexMeta := indexMeta }
  else throw .ioError

/-! ## Reading `meta.json` back, and garbage -/

/-- **`refresh_sfx_dictionary`**: open the parts `metas` names, unless they are the ones held
or the held dictionary is ahead of them. -/
def refreshSfxDictionary (metas : IndexMeta) (s : SegmentUpdaterState τ) :
    SegmentUpdaterState τ :=
  match metas.sfxDictionary with
  | none => s
  | some wanted =>
    if s.dictionary.any (·.sameParts wanted) then s
    else if s.dictionary.any (wanted.nextGeneration < ·.info.nextGeneration) then s
    else { s with dictionary := some (.openParts s.directory wanted) }

/-- `open_from_metas`: the dictionary of an index just opened, empty if no commit has written
one yet. -/
def openFromMetas (dir : Directory τ) (metas : IndexMeta) : SfxDictionary τ :=
  match metas.sfxDictionary with
  | some info => .openParts dir info
  | none => .empty

/-- The segments whose files the inventory keeps: registered, in a merge, listed by the
active meta, or open in a reader. -/
def inventory (io : Io) (s : SegmentUpdaterState τ) (id : SegmentId) : Bool :=
  id ∈ s.registers.uncommitted.ids || id ∈ s.registers.committed.ids ||
    id ∈ s.inFlight.flatMap MergeBatch.segmentIds || id ∈ s.activeIndexMeta.segmentIds ||
    io.held id

/-- The dictionary files garbage collection leaves: pairs of inventoried segments, what the
`meta.json` on disk names, and generations newer than all of those. -/
def liveFiles (io : Io) (s : SegmentUpdaterState τ) : Directory τ where
  generation g f :=
    if io.heldGeneration g ||
        s.metaJson.sfxDictionary.all fun d => g ∈ d.generations || d.generations.all (· < g) then
      s.directory.generation g f
    else none
  minted id f :=
    if inventory io s id || s.metaJson.sfxDictionary.any fun d => id ∈ d.pendingSegments then
      s.directory.minted id f
    else none

/-- Delete every dictionary file that is not live. -/
def collectGarbage (io : Io) (s : SegmentUpdaterState τ) : SegmentUpdaterState τ :=
  { s with directory := liveFiles io s }

/-- **`garbage_collect_files`**. Listing the live files reads `meta.json`, and reading it
refreshes the live dictionary. -/
def garbageCollectFiles (io : Io) : Handler τ Unit :=
  match io.gc with
  | .lockFailed => throw .ioError
  | .done => modify fun s => collectGarbage io (refreshSfxDictionary s.metaJson s)
  | .recordFailed => do
      modify fun s => collectGarbage io (refreshSfxDictionary s.metaJson s)
      throw .ioError

end Lucivy.Indexer
