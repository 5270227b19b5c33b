import Lucivy.Foundation.Transition
import Lucivy.Indexer.DictionaryCommit

/-! # The segment updater's messages

`segment_updater_actor.rs` and `commit_dag.rs`: one handler for each message. The actor
handles one message at a time; merges of a batch run outside it, between the message that
starts them and the `MergesDone` message that hands their results back.

* `prepareNode` — the node of the commit graph that touches the registers first.
* `handleCommit`, `handleStartMerges`, `handleMergesDone`, `handleMerge`, `handleCompact`,
  `handleDictionaryFolded` — the handlers.
* `Message`, `handle` — what the actor does with a message.
* `UpdaterStep` — the actor as a step relation: one step is one handled message with the
  reply it got, or whatever indexers and the background fold do to the dictionary between
  two messages. -/

namespace Lucivy.Indexer

open Lucivy.Foundation Lucivy.SuffixFst

variable {τ : Type}

/-- What one merge task hands back: nothing, or the merged segment if a document was left. -/
inductive TaskResult
  | failed
  | merged (entry : Option SegmentEntry)

/-! ## Preparing and finishing merges -/

def refuseIfMerging (ids : List SegmentId) : Handler τ Unit := do
  let s ← get
  if ids.any (· ∈ s.merging) then
    throw (.invalidArgument "segment is being merged by a running merge")

/-- Purge the deletes, then `SegmentManager::commit` with every entry of both registers: the
first two steps of `PrepareNode`, and of `handle_start_merges`. -/
def purgeAndCommit (scan : SegmentId → Option DeleteScan) (opstamp : Opstamp) :
    Handler τ Unit := do
  let s ← get
  match purgeDeletes scan s.registers opstamp with
  | none => throw .ioError
  | some entries => set { s with registers := s.registers.commit entries }

/-- `start_merge` for each operation, stopping at the first that is refused. The registers
are only read. -/
def startMerges (ops : List MergeOperation) : Handler τ Unit := do
  let s ← get
  match ops.mapM fun op => s.registers.startMerge op.segmentIds with
  | .error e => throw e
  | .ok _ => pure ()

/-- **`PrepareNode::execute`**. -/
def prepareNode (io : Io) (ops : List MergeOperation) (opstamp : Opstamp) :
    Handler τ Unit := do
  purgeAndCommit io.purge opstamp
  startMerges ops

/-- The merged segment's deletes, if some happened since its merge read them. -/
def catchUpDeletes (io : Io) (committedOpstamp : Opstamp) (entry : SegmentEntry) :
    Option SegmentEntry :=
  match entry.deleteCursor with
  | some next =>
    if next < committedOpstamp then advanceDeletes io.register entry committedOpstamp
    else some entry
  | none => some entry

/-- **`register_merge_result`**, and `FinalizeNode` for one result. -/
def registerMergeResult (io : Io) (op : MergeOperation) (entry : Option SegmentEntry) :
    Handler τ Unit := do
  let s ← get
  match entry.mapM (catchUpDeletes io s.activeIndexMeta.opstamp) with
  | none => throw .ioError
  | some after =>
    match s.registers.endMerge op.segmentIds after with
    | .error e => throw e
    | .ok registers => set { s with registers := registers }

/-- Register every result that came back; true when no task failed and every registration
went through. -/
def registerMergeResults (io : Io) : List (MergeOperation × TaskResult) → Handler τ Bool
  | [] => pure true
  | (_, .failed) :: rest => do
      let _ ← registerMergeResults io rest
      return false
  | (op, .merged entry) :: rest => do
      let first ← attempt (registerMergeResult io op entry)
      let others ← registerMergeResults io rest
      return first.isOk && others

/-! ## Starting merges -/

/-- **`handle_start_merges`**: prepare inline, then leave the merges to the scheduler. The
meta read at the start travels with the batch. -/
def handleStartMerges (scan : SegmentId → Option DeleteScan) (ops : List MergeOperation) :
    Handler τ Unit := do
  let info ← loadMeta
  purgeAndCommit scan info.opstamp
  refuseIfMerging (ops.flatMap MergeOperation.segmentIds)
  startMerges ops
  modify fun s =>
    { s with
      merging := s.merging ++ ops.flatMap MergeOperation.segmentIds
      pendingMergeTasks := true
      inFlight := s.inFlight ++ [⟨ops, info.opstamp, info.payload⟩] }

/-- The operations the merge policy proposes for the segments no merge holds. -/
def policyOps (io : Io) (opstamp : Opstamp) (s : SegmentUpdaterState τ) :
    List MergeOperation :=
  ((io.policy (s.registers.committed.segmentMetas.filter (·.id ∉ s.merging))).filter
    (1 < ·.length)).map (⟨opstamp, ·⟩)

/-- **`policy_merges`**: ask the policy, start what it proposes; true when a batch started. -/
def policyMerges (io : Io) (opstamp : Opstamp) : Handler τ Bool := do
  let _ ← committedSegmentMetas
  let ops := policyOps io opstamp (← get)
  if ops = [] then return false
  else
    handleStartMerges io.policyPurge ops
    return true

/-! ## The handlers -/

/-- The commit graph without merges: prepare, save, collect garbage. -/
def commitDag (io : Io) (opstamp : Opstamp) (payload : Option String) : Handler τ Unit := do
  prepareNode io [] opstamp
  saveMetas io opstamp payload
  garbageCollectFiles io

/-- **`handle_commit`**. -/
def handleCommit (io : Io) (opstamp : Opstamp) (payload : Option String) :
    Handler τ Unit := do
  foldNewTexts io
  commitDag io opstamp payload
  deleteConsumedPairs io
  let _ ← policyMerges io opstamp

/-- `merges_done_inner`: register the results, then write `meta.json` with the opstamp and
payload the batch carries. -/
def mergesDoneInner (io : Io) (batch : MergeBatch) (results : Nat → TaskResult) :
    Handler τ Unit := do
  let registered ← registerMergeResults io (batch.ops.zipIdx.map fun (op, i) => (op, results i))
  if registered then
    saveMetas io batch.opstamp batch.payload
    garbageCollectFiles io
  else throw (.systemError "merge")

/-- **`handle_merges_done`**: release the batch's segments, register, and let the policy
cascade. -/
def handleMergesDone (io : Io) (batch : MergeBatch) (results : Nat → TaskResult) :
    Handler τ Unit := do
  modify fun s => { s with merging := s.merging.filter (· ∉ batch.segmentIds) }
  match ← attempt (mergesDoneInner io batch results) with
  | .ok _ =>
    let stillPending ← policyMerges io batch.opstamp
    if stillPending then pure ()
    else modify fun s => { s with pendingMergeTasks := false }
  | .error e =>
    modify fun s => { s with pendingMergeTasks := false }
    throw e

/-- **`handle_merge`**: an explicit merge, run inline by the commit graph. `result` is what
`MergeNode` makes of the sources. -/
def handleMerge (io : Io) (op : MergeOperation) (result : TaskResult) : Handler τ Unit := do
  refuseIfMerging op.segmentIds
  let info ← loadMeta
  prepareNode io [op] info.opstamp
  match result with
  | .failed => throw (.systemError "execute merge DAG")
  | .merged entry =>
    registerMergeResult io op entry
    saveMetas io info.opstamp info.payload
    garbageCollectFiles io

/-- The groups of `SuCompactMsg`: segments in order, a new group when the next one would
exceed `maxDocs`. -/
def compactGroups (maxDocs : Nat) :
    List SegmentMeta → List SegmentId → Nat → List (List SegmentId)
  | [], current, _ => if current = [] then [] else [current]
  | m :: rest, current, currentDocs =>
    if current ≠ [] ∧ maxDocs < currentDocs + m.numDocs then
      current :: compactGroups maxDocs rest [m.id] m.numDocs
    else compactGroups maxDocs rest (current ++ [m.id]) (currentDocs + m.numDocs)

/-- The operations `SuCompactMsg` plans. -/
def compactOps (maxDocs : Nat) (s : SegmentUpdaterState τ) : List MergeOperation :=
  let metas := (s.registers.committed.segmentMetas.filter fun m =>
    0 < m.numDocs ∧ m.id ∉ s.merging).insertionSort (·.numDocs ≤ ·.numDocs)
  ((compactGroups maxDocs metas [] 0).filter (2 ≤ ·.length)).map (⟨s.activeIndexMeta.opstamp, ·⟩)

/-- The handler of `SuCompactMsg`. -/
def handleCompact (io : Io) (maxDocs : Nat) : Handler τ Unit := do
  let _ ← committedSegmentMetas
  let ops := compactOps maxDocs (← get)
  if ops = [] then pure () else handleStartMerges io.purge ops

/-- The handler of `SuDictionaryFoldedMsg`: the meta is read again, so what it rewrites is
the last commit's. -/
def handleDictionaryFolded (io : Io) : Handler τ Unit := do
  let info ← loadMeta
  saveMetas io info.opstamp info.payload
  deleteConsumedPairs io
  garbageCollectFiles io

/-! ## Messages -/

/-- **The messages of the actor.** `mergesDone` names the batch in flight that finished. -/
inductive Message
  | addSegment (entry : SegmentEntry)
  | commit (opstamp : Opstamp) (payload : Option String)
  | garbageCollect
  | startMerge (op : MergeOperation) (result : TaskResult)
  | startMerges (ops : List MergeOperation)
  | compact (maxDocs : Nat)
  | mergesDone (batch : Nat) (results : Nat → TaskResult)
  | dictionaryFolded

/-- **What the actor does with a message.** -/
def handle (io : Io) : Message → Handler τ Unit
  | .addSegment entry => modify fun s => { s with registers := s.registers.addSegment entry }
  | .commit opstamp payload => handleCommit io opstamp payload
  | .garbageCollect => garbageCollectFiles io
  | .startMerge op result => handleMerge io op result
  | .startMerges ops => handleStartMerges io.purge ops
  | .compact maxDocs => handleCompact io maxDocs
  | .mergesDone n results => do
      let s ← get
      match s.inFlight[n]? with
      | none => pure ()
      | some batch =>
        set { s with inFlight := s.inFlight.eraseIdx n }
        handleMergesDone io batch results
  | .dictionaryFolded => handleDictionaryFolded io

/-! ## The actor as a step relation -/

/-- What can be seen of one step: a message with its reply, or dictionary work elsewhere. -/
inductive UpdaterEvent
  | handled (message : Message) (io : Io) (reply : Except LucivyError Unit)
  | dictionaryWork

/-- **One step of the system around the actor.** Between two messages the indexers and the
background fold may do anything to the dictionary and its files. -/
inductive UpdaterStep : SegmentUpdaterState τ → UpdaterEvent → SegmentUpdaterState τ → Prop
  | ok {s t : SegmentUpdaterState τ} {m : Message} {io : Io} :
      (handle io m).run s = .ok () t → UpdaterStep s (.handled m io (.ok ())) t
  | error {s t : SegmentUpdaterState τ} {m : Message} {io : Io} {e : LucivyError} :
      (handle io m).run s = .error e t → UpdaterStep s (.handled m io (.error e)) t
  | dictionaryWork {s : SegmentUpdaterState τ} (dictionary : Option (SfxDictionary τ))
      (dictionaryShared : DictionaryShared τ) (directory : Directory τ) (fold : FoldTask) :
      UpdaterStep s .dictionaryWork
        { s with
          dictionary := dictionary
          dictionaryShared := dictionaryShared
          directory := directory
          fold := fold }

/-- A handled message leaves the state its handler leaves, whatever the reply. -/
theorem UpdaterStep.finalState_eq {s t : SegmentUpdaterState τ} {m : Message} {io : Io}
    {reply : Except LucivyError Unit} (h : UpdaterStep s (.handled m io reply) t) :
    t = finalState (handle io m) s := by
  cases h with
  | ok h => exact (finalState_eq_of_ok h).symm
  | error h => exact (finalState_eq_of_error h).symm

end Lucivy.Indexer
