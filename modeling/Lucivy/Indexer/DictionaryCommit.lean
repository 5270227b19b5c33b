import Lucivy.Indexer.SegmentUpdater

/-! # The shard dictionary around a commit

`dictionary_commit.rs`: a commit names the minted pairs of its new segments as live parts;
a fold merges the named pairs into the next generation and swaps it in; pairs that no
`meta.json` names any more are deleted.

* `nameNewPairs` — the commit's edit of the live dictionary.
* `foldSnapshot`, `foldWrite`, `foldSwap` — the three steps of `fold_once`; the background
  task interleaves with commits between them.
* `namePairs`, `foldNewTexts` — what `handle_commit` does first.
* `deleteConsumedPairs` — what it does after `meta.json` is written. -/

namespace Lucivy.Indexer

open Lucivy.Foundation Lucivy.SuffixFst

variable {τ : Type}

/-! ## Naming the new pairs -/

/-- The fields a segment minted texts in, as far as its pair can be opened. -/
def mintedFields (io : Io) (dir : Directory τ) (m : SegmentMeta) : List FieldId :=
  m.sfxFieldIds.filter fun f =>
    io.readMinted m.id ≠ .unopened ∧ ((dir.minted m.id f).getD []).length ≠ 0

/-- The segments whose pair a commit has to name: not committed yet, and holding a text. -/
def newPairs (io : Io) (dir : Directory τ) (registers : SegmentRegisters) :
    List SegmentMeta :=
  (registers.segmentEntries.map SegmentEntry.info).filter fun m =>
    m.id ∉ registers.committed.ids ∧ mintedFields io dir m ≠ []

/-- Reading the texts of some segment that is not committed fails in the middle. -/
def newPairUnreadable (io : Io) (dir : Directory τ) (registers : SegmentRegisters) : Bool :=
  (registers.segmentEntries.map SegmentEntry.info).any fun m =>
    m.id ∉ registers.committed.ids ∧ io.readMinted m.id = .failed ∧
      m.sfxFieldIds.any fun f => (dir.minted m.id f).isSome

/-- Add the fields a dictionary did not have, and sort. -/
def addFields (fieldIds newFields : List FieldId) : List FieldId :=
  (newFields.foldl (fun acc f => if f ∈ acc then acc else acc ++ [f]) fieldIds).insertionSort
    (· ≤ ·)

/-- The locked section of `fold_new_texts`: the live dictionary gains the pairs as parts, and
the texts minted before this commit's epoch are forgotten. -/
def nameNewPairs (newPending : List SegmentId) (newFields : List FieldId)
    (s : SegmentUpdaterState τ) : SegmentUpdaterState τ :=
  match s.dictionary with
  | none => s
  | some d =>
    { s with
      dictionary := some (.openParts s.directory
        { d.info with
          nextIds := s.dictionaryShared.nextIds
          fieldIds := addFields d.info.fieldIds newFields
          pendingSegments := d.info.pendingSegments ++ newPending })
      dictionaryShared := s.dictionaryShared.forgetCommittedPending }

/-! ## Folding -/

/-- `choose_compaction`: past the maximum, the smallest generations. -/
def chooseCompaction (live : List (Nat × Nat)) (maxGenerations : Nat) : Option (List Nat) :=
  if live.length ≤ max maxGenerations 1 then none
  else
    let target := max (max maxGenerations 1 / 2) 1
    let bySize := live.insertionSort fun a b => a.2 < b.2 ∨ (a.2 = b.2 ∧ a.1 ≤ b.1)
    some (((bySize.take (live.length - target + 1)).map Prod.fst).insertionSort (· ≤ ·))

/-- The texts of the parts that can be opened, for one field; `none` when there is no part. -/
def mergedTexts {α : Type} (read : α → FileRead) (file : α → Option (Texts τ))
    (parts : List α) : Option (Texts τ) :=
  match (parts.filter (read · ≠ .unopened)).filterMap file with
  | [] => none
  | found => some found.flatten

/-- `fold_once`, snapshot: the live parts, unless no pair is pending. -/
def foldSnapshot (s : SegmentUpdaterState τ) : Option SfxDictionaryMeta :=
  match s.dictionary with
  | none => none
  | some d => if d.info.pendingSegments = [] then none else some d.info

/-- `fold_once`, the next generation: one file for each field of the snapshot, with the texts
of the snapshot's pairs. -/
def foldPairs (io : Io) (snapshot : SfxDictionaryMeta) (dir : Directory τ) : Directory τ :=
  dir.writeGeneration (max snapshot.nextGeneration 1) fun f =>
    if f ∈ snapshot.fieldIds then
      some ((mergedTexts io.readMinted (dir.minted · f) snapshot.pendingSegments).getD [])
    else dir.generation (max snapshot.nextGeneration 1) f

/-- `fold_once`, compaction: generation `out` gets the texts of the merged ones. -/
def compactGenerations (io : Io) (snapshot : SfxDictionaryMeta) (merged : List Nat) (out : Nat)
    (dir : Directory τ) : Directory τ :=
  dir.writeGeneration out fun f =>
    if f ∈ snapshot.fieldIds then
      mergedTexts io.readGeneration (dir.generation · f) merged
    else dir.generation out f

/-- What a fold leaves to be swapped in. -/
structure FoldResult (τ : Type) where
  directory : Directory τ
  generations : List Nat
  /-- The number after the last one used. -/
  nextGeneration : Nat

/-- **`fold_once`, writing**: the pairs become the next generation, and past the maximum the
smallest generations become one more. `none` when a file could not be read or written. -/
def foldWrite (io : Io) (snapshot : SfxDictionaryMeta) (dir : Directory τ) :
    Option (FoldResult τ) :=
  if io.foldOk = false then none
  else if snapshot.pendingSegments.any (io.readMinted · = .failed) then none
  else
    let generation := max snapshot.nextGeneration 1
    let folded := foldPairs io snapshot dir
    let generations := snapshot.generations ++ [generation]
    match chooseCompaction (generations.map fun g => (g, io.generationBytes g))
        io.maxGenerations with
    | none => some ⟨folded, generations, generation + 1⟩
    | some merged =>
      if merged.any (io.readGeneration · = .failed) then none
      else
        some ⟨compactGenerations io snapshot merged (generation + 1) folded,
          generations.filter (· ∉ merged) ++ [generation + 1], generation + 2⟩

/-- **`fold_once`, the locked swap**: the live meta may have gained pairs since the snapshot;
only the snapshot's pairs are replaced. -/
def foldSwap (snapshot : SfxDictionaryMeta) (generations : List Nat) (nextGeneration : Nat)
    (s : SegmentUpdaterState τ) : SegmentUpdaterState τ :=
  match s.dictionary with
  | none => s
  | some d =>
    { s with
      dictionary := some (.openParts s.directory
        { d.info with
          nextIds := s.dictionaryShared.nextIds
          generations := generations
          nextGeneration := nextGeneration
          pendingSegments := d.info.pendingSegments.filter (· ∉ snapshot.pendingSegments) }) }

/-- **`fold_once`** in one go, as a commit that folds synchronously runs it. -/
def foldOnce (io : Io) : Handler τ Unit := do
  let s ← get
  match foldSnapshot s with
  | none => pure ()
  | some snapshot =>
    match foldWrite io snapshot s.directory with
    | none => throw .ioError
    | some r =>
      set (foldSwap snapshot r.generations r.nextGeneration { s with directory := r.directory })

/-- The background task, one step further: take the snapshot, write, swap. A failure ends
the task. -/
def foldStep (io : Io) (s : SegmentUpdaterState τ) : SegmentUpdaterState τ :=
  match s.fold with
  | .idle => s
  | .started =>
    match foldSnapshot s with
    | none => { s with fold := .idle }
    | some snapshot => { s with fold := .snapshot snapshot }
  | .snapshot snapshot =>
    match foldWrite io snapshot s.directory with
    | none => { s with fold := .idle }
    | some r =>
      { s with
        directory := r.directory
        fold := .written snapshot r.generations r.nextGeneration }
  | .written snapshot generations nextGeneration =>
    foldSwap snapshot generations nextGeneration { s with fold := .started }

section FoldStep

variable {io : Io} {s : SegmentUpdaterState τ}

/-- No fold. -/
theorem foldStep_of_idle (h : s.fold = .idle) : foldStep io s = s := by
  rw [foldStep, h]

/-- It takes its snapshot. -/
theorem foldStep_of_started (h : s.fold = .started) :
    foldStep io s = { s with fold := (foldSnapshot s).elim .idle .snapshot } := by
  rw [foldStep, h]
  cases foldSnapshot s <;> rfl

/-- It writes. -/
theorem foldStep_of_snapshot {snapshot : SfxDictionaryMeta} (h : s.fold = .snapshot snapshot) :
    foldStep io s = (foldWrite io snapshot s.directory).elim { s with fold := .idle } fun r =>
      { s with
        directory := r.directory
        fold := .written snapshot r.generations r.nextGeneration } := by
  rw [foldStep, h]
  dsimp only
  cases foldWrite io snapshot s.directory <;> rfl

/-- It swaps. -/
theorem foldStep_of_written {snapshot : SfxDictionaryMeta} {gs : List Nat} {next : Nat}
    (h : s.fold = .written snapshot gs next) :
    foldStep io s = foldSwap snapshot gs next { s with fold := .started } := by
  rw [foldStep, h]

end FoldStep

/-- The live parts as `foldSnapshot` sees them. -/
theorem foldSnapshot_eq {s : SegmentUpdaterState τ} {d : SfxDictionary τ}
    (h : s.dictionary = some d) :
    foldSnapshot s = if d.info.pendingSegments = [] then none else some d.info := by
  rw [foldSnapshot, h]

/-- `fold.wait()`: the running task gets to its end. From any point it takes at most seven
steps, since nobody names pairs meanwhile. -/
def foldWait (io : Io) (s : SegmentUpdaterState τ) : SegmentUpdaterState τ :=
  (foldStep io)^[7] s

/-! ## The commit's part -/

/-- Pairs enough to fold in the commit. -/
def tooManyPending (io : Io) (s : SegmentUpdaterState τ) : Bool :=
  io.syncFold || s.dictionary.any (io.maxPending < ·.info.pendingSegments.length)

/-- Start the background task, if none runs. -/
def foldStart (s : SegmentUpdaterState τ) : SegmentUpdaterState τ :=
  match s.fold with
  | .idle => { s with fold := .started }
  | _ => s

/-- Fold in the commit, or start the background task if none runs. -/
def foldOrStart (io : Io) : Handler τ Unit := do
  if tooManyPending io (← get) then
    modify (foldWait io)
    if tooManyPending io (← get) then foldOnce io
  else
    modify foldStart

/-- The first half of `fold_new_texts`: name the pairs of the segments that are not committed
yet; true when there was one. -/
def namePairs (io : Io) : Handler τ Bool := do
  let _ ← committedSegmentMetas
  let s ← get
  let pairs := newPairs io s.directory s.registers
  if newPairUnreadable io s.directory s.registers then throw .ioError
  else if pairs = [] then return false
  else
    modify (nameNewPairs (pairs.map SegmentMeta.id) (pairs.flatMap (mintedFields io s.directory)))
    return true

/-- **`fold_new_texts`**: name the new pairs and see to their folding. Nothing to do without a
dictionary, or without new texts. -/
def foldNewTexts (io : Io) : Handler τ Unit := do
  if (← get).dictionary.isNone then pure ()
  else if ← namePairs io then foldOrStart io

/-- `delete_consumed_pairs`, the loop: committed segments whose pair is not named. -/
def deletePairs (io : Io) (named : List SegmentId) : List SegmentMeta → Handler τ Unit
  | [] => pure ()
  | m :: rest => do
      if m.id ∈ named then deletePairs io named rest
      else if io.deletable m.id then
        modify fun s => { s with directory := s.directory.deleteMinted m.id m.sfxFieldIds }
        deletePairs io named rest
      else throw (.systemError "cannot delete consumed")

/-- **`delete_consumed_pairs`**: after `meta.json` is written, the pairs it does not name. -/
def deleteConsumedPairs (io : Io) : Handler τ Unit := do
  if (← get).dictionary.isNone then pure ()
  else
    match (← loadMeta).sfxDictionary with
    | none => pure ()
    | some dict => deletePairs io dict.pendingSegments (← committedSegmentMetas)

end Lucivy.Indexer
