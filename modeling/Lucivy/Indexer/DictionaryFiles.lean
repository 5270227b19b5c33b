import Lucivy.Index.IndexMeta
import Lucivy.Indexer.DictionaryTexts
import Mathlib.Logic.Relation

/-! # The dictionary's files, one operation at a time

Three rules delete files of the shard dictionary: a fold removes what its number may have left
behind, the updater deletes pairs that `meta.json` no longer names, and garbage collection deletes
generations that are neither live on disk nor newer. Here every write and every delete is a step,
the fold runs beside the updater, and the process may stop between any two steps. Temporary files
of a compaction are left out, as no meta names them.

* `FileStep` — the steps.
* `written`, `filesOf_written` — the parts as `meta.json` names them, and a generation's files.
* `FilesKept` — how files, disk, live dictionary, fold and updater stand to each other.
* `Covered` — every generation has files for every field listed. It is kept by steps that list a
  field for the first time only before there is a generation: `KeepsFields`.
* `named_files_exist` — **what `meta.json` names is there**, and no live generation is about to be
  deleted. `named_file_absent` — a generation folded before a field came has no file of it. -/

namespace Lucivy.Indexer

open Lucivy.SuffixFst List

/-! ## Files and states -/

/-- The files of a part, for one field; a pair has no `pidx`. -/
inductive Ext
  | sfx | termtexts | pidx
deriving DecidableEq, Repr

/-- **A file of the dictionary.** -/
inductive DictFile
  /-- `dict-<g>.<field>.*`. -/
  | generation (g : Nat) (f : FieldId) (ext : Ext)
  /-- `<uuid>.<field>.minted.*`. -/
  | minted (id : SegmentId) (f : FieldId) (ext : Ext)
deriving DecidableEq, Repr

/-- A generation's files for these fields: what `remove_leftovers` deletes, and what
`write_generation` and `compact_parts` write. -/
def generationFiles (g : Nat) (fields : List FieldId) : List DictFile :=
  fields.flatMap fun f => [Ext.sfx, .termtexts, .pidx].map (.generation g f)

/-- A segment's pair, for these fields. -/
def pairFiles (id : SegmentId) (fields : List FieldId) : List DictFile :=
  fields.flatMap fun f => [Ext.sfx, .termtexts].map (.minted id f)

/-- A fold: the leftovers to be removed, the files to be written then, its snapshot, the
generations that will be live, the next number, and whether it has seen to compaction. -/
inductive FoldRun
  | idle
  | running (leftovers writes : List DictFile) (snapshot : SfxDictionaryMeta)
      (generations : List Nat) (next : Nat) (compacted : Bool)

/-- Whether the message in hand writes `meta.json`: no, or the live parts are to be read for it,
or they have been. -/
inductive Saving
  | no
  | due
  | read (info : SfxDictionaryMeta)

/-- What else the message in hand has to do: list garbage, list consumed pairs, delete a file. -/
inductive ActorOp
  | collect
  | consume
  | delete (file : DictFile)

/-- **The files and who works on them.** -/
structure FileState where
  /-- What is there. -/
  files : List DictFile
  /-- The parts `meta.json` names. -/
  disk : SfxDictionaryMeta
  live : SfxDictionaryMeta
  fold : FoldRun
  /-- Writing `meta.json`. -/
  saving : Saving
  /-- The rest of the message in hand. -/
  actor : List ActorOp

/-- A new index. -/
def FileState.create : FileState :=
  ⟨[], ⟨[], 1, fun _ => 0, [], []⟩, ⟨[], 1, fun _ => 0, [], []⟩, .idle, .no, []⟩

/-- `refresh_sfx_dictionary`: `list_files` reads `meta.json`. -/
def FileState.refreshed (s : FileState) : SfxDictionaryMeta :=
  if s.live.generations = s.disk.generations ∧
      s.live.pendingSegments = s.disk.pendingSegments then s.live
  else if s.disk.nextGeneration < s.live.nextGeneration then s.live
  else s.disk

/-- `list_files`, for the dictionary. -/
def living (inventory : SegmentId → Bool) (disk : SfxDictionaryMeta) : DictFile → Bool
  | .generation g _ _ => g ∈ disk.generations || disk.generations.all (· < g)
  | .minted id f _ => inventory id || (id ∈ disk.pendingSegments && f ∈ disk.fieldIds)

/-- The fold goes over to write generation `g` for `fields`, after removing what it may have left
behind for any field of the snapshot. -/
def FileState.writing (s : FileState) (g : Nat) (fields : List FieldId)
    (snapshot : SfxDictionaryMeta) (generations : List Nat) (compacted : Bool) : FileState :=
  { s with
    fold := .running (generationFiles g snapshot.fieldIds) (generationFiles g fields) snapshot
      (generations ++ [g]) (g + 1) compacted }

/-- The fields `compact_generations` writes: those some merged generation has files for. -/
def compactedFields (files : List DictFile) (merged : List Nat) (fieldIds : List FieldId) :
    List FieldId :=
  fieldIds.filter fun f => merged.any fun g =>
    files.contains (.generation g f .sfx) && files.contains (.generation g f .termtexts)

/-- **One step.** `minted` are the fields a segment has minted texts in. -/
inductive FileStep (minted : SegmentId → List FieldId) (s : FileState) : FileState → Prop
  | writePair (id : SegmentId) (f : FieldId) (ext : Ext) :
      FileStep minted s { s with files := .minted id f ext :: s.files }
  /-- A commit names pairs: `fold_new_texts`. -/
  | commit (new : List SegmentId) (hno : s.saving = .no) (hactor : s.actor = [])
      (hnew : ∀ id ∈ new, ∀ x ∈ pairFiles id (minted id), x ∈ s.files) :
      FileStep minted s { s with
        live := { s.live with
          fieldIds := addFields s.live.fieldIds (new.flatMap minted)
          pendingSegments := s.live.pendingSegments ++ new }
        saving := .due
        actor := [.collect, .consume] }
  | merged (hno : s.saving = .no) (hactor : s.actor = []) :
      FileStep minted s { s with saving := .due, actor := [.collect] }
  /-- `SuDictionaryFoldedMsg`. -/
  | folded (hno : s.saving = .no) (hactor : s.actor = []) :
      FileStep minted s { s with saving := .due, actor := [.consume, .collect] }
  /-- `SuGarbageCollectMsg`. -/
  | garbageCollect (hno : s.saving = .no) (hactor : s.actor = []) :
      FileStep minted s { s with actor := [.collect] }
  /-- `save_metas` reads the live parts. -/
  | readsLive (hdue : s.saving = .due) : FileStep minted s { s with saving := .read s.live }
  /-- `save_metas` replaces `meta.json`. -/
  | writesMeta {info : SfxDictionaryMeta} (hread : s.saving = .read info) :
      FileStep minted s { s with disk := info, saving := .no }
  /-- `garbage_collect` lists the managed paths that are not alive, there or not. -/
  | collect (managed : List DictFile) (inventory : SegmentId → Bool) {rest : List ActorOp}
      (hno : s.saving = .no) (hactor : s.actor = .collect :: rest) :
      FileStep minted s { s with
        live := s.refreshed
        actor := (managed.filter (!living inventory s.disk ·)).map .delete ++ rest }
  /-- `delete_consumed_pairs` lists the pairs of committed segments that are not named. -/
  | consume (committed : List SegmentMeta) {rest : List ActorOp} (hno : s.saving = .no)
      (hactor : s.actor = .consume :: rest) :
      FileStep minted s { s with
        actor := ((committed.filter (·.id ∉ s.disk.pendingSegments)).flatMap fun m =>
          pairFiles m.id m.sfxFieldIds).map .delete ++ rest }
  /-- A file listed is deleted. -/
  | delete {x : DictFile} {rest : List ActorOp} (hactor : s.actor = .delete x :: rest) :
      FileStep minted s { s with files := s.files.filter (· ≠ x), actor := rest }
  /-- A file listed cannot be deleted. -/
  | keep {x : DictFile} {rest : List ActorOp} (hactor : s.actor = .delete x :: rest) :
      FileStep minted s { s with actor := rest }
  /-- `fold_once` starts. -/
  | foldStarts (hidle : s.fold = .idle) (hpending : s.live.pendingSegments ≠ []) :
      FileStep minted s (s.writing (max s.live.nextGeneration 1) s.live.fieldIds s.live
        s.live.generations false)
  | foldRemoves {leftovers writes : List DictFile} {snapshot : SfxDictionaryMeta}
      {generations : List Nat} {next : Nat} {compacted : Bool}
      (hfold : s.fold = .running leftovers writes snapshot generations next compacted)
      {x : DictFile} (hx : x ∈ leftovers) :
      FileStep minted s { s with
        files := s.files.filter (· ≠ x)
        fold := .running (leftovers.erase x) writes snapshot generations next compacted }
  /-- The fold writes a file. The texts are written beside the rest, so any can be next. -/
  | foldWrites {writes : List DictFile} {snapshot : SfxDictionaryMeta} {generations : List Nat}
      {next : Nat} {compacted : Bool}
      (hfold : s.fold = .running [] writes snapshot generations next compacted) {x : DictFile}
      (hx : x ∈ writes) :
      FileStep minted s { s with
        files := x :: s.files
        fold := .running [] (writes.erase x) snapshot generations next compacted }
  /-- The fold finds few enough generations. -/
  | foldKeeps {snapshot : SfxDictionaryMeta} {generations : List Nat} {next : Nat}
      (hfold : s.fold = .running [] [] snapshot generations next false) (size : Nat → Nat)
      (maxGenerations : Nat)
      (hfew : chooseCompaction (generations.map fun g => (g, size g)) maxGenerations = none) :
      FileStep minted s { s with fold := .running [] [] snapshot generations next true }
  /-- The fold compacts. -/
  | foldCompacts {snapshot : SfxDictionaryMeta} {generations : List Nat} {next : Nat}
      (hfold : s.fold = .running [] [] snapshot generations next false) (size : Nat → Nat)
      (maxGenerations : Nat) {merged : List Nat} (hmany :
        chooseCompaction (generations.map fun g => (g, size g)) maxGenerations = some merged) :
      FileStep minted s (s.writing next (compactedFields s.files merged snapshot.fieldIds) snapshot
        (generations.filter (· ∉ merged)) true)
  | foldSwaps {snapshot : SfxDictionaryMeta} {generations : List Nat} {next : Nat}
      (hfold : s.fold = .running [] [] snapshot generations next true) :
      FileStep minted s { s with
        live := { s.live with
          generations := generations
          nextGeneration := next
          pendingSegments := s.live.pendingSegments.filter (· ∉ snapshot.pendingSegments) }
        fold := .idle }
  | foldFails : FileStep minted s { s with fold := .idle }
  /-- The process stops, and the index is opened again. -/
  | crash : FileStep minted s { s with live := s.disk, fold := .idle, saving := .no, actor := [] }

/-! ## The names in `meta.json` -/

/-- The extension in a generation's file names. -/
def Ext.generationExt : Ext → Foundation.FileName
  | .sfx => "sfx".toList
  | .termtexts => "termtexts".toList
  | .pidx => Index.groupIndexExt

/-- **The parts as `meta.json` names them**: the segments by their ids. The numbers the next
generation and the next texts get name no file. -/
def written (uuid : SegmentId → Index.SegmentId) (p : SfxDictionaryMeta) :
    Index.SfxDictionaryMeta :=
  ⟨p.generations.map UInt64.ofNat, p.fieldIds, p.pendingSegments.map uuid⟩

/-- `files_of`: each field listed, whichever the generation was written for. -/
theorem filesOf_written (uuid : SegmentId → Index.SegmentId) (p : SfxDictionaryMeta) (g : Nat) :
    (written uuid p).filesOf g = p.fieldIds.flatMap fun f =>
      [Ext.sfx, .termtexts, .pidx].map fun e => Index.dictionaryFileName g f e.generationExt :=
  rfl

/-! ## The invariants -/

section Invariant

variable (minted : SegmentId → List FieldId)

/-- **`p` is what the live parts are, or were**, and the pairs it names are there. -/
structure Behind (files : List DictFile) (live p : SfxDictionaryMeta) : Prop where
  /-- The fields of its pairs are listed. -/
  fields : ∀ id ∈ p.pendingSegments, ∀ f ∈ minted id, f ∈ p.fieldIds
  /-- Fields stay listed. -/
  listed : ∀ f ∈ p.fieldIds, f ∈ live.fieldIds
  /-- Its generations are numbered below its next. -/
  numbers : ∀ g ∈ p.generations, g < p.nextGeneration
  /-- Numbers only grow. -/
  next_le : p.nextGeneration ≤ live.nextGeneration
  /-- Without a swap since, the generations are the same. -/
  same : p.nextGeneration = live.nextGeneration → p.generations = live.generations
  /-- A live generation is one of its own or newer than all of them. -/
  newer : ∀ g ∈ live.generations, g ∈ p.generations ∨ ∀ l ∈ p.generations, l < g
  present : ∀ id ∈ p.pendingSegments, ∀ x ∈ pairFiles id (minted id), x ∈ files

/-- **A fold removes files above the live numbers only.** -/
def FoldNumbers (live : SfxDictionaryMeta) : FoldRun → Prop
  | .idle => True
  | .running leftovers _ _ generations next _ =>
    (∀ x ∈ leftovers, ∃ g f e, x = .generation g f e ∧ live.nextGeneration ≤ g) ∧
    (∀ g ∈ generations, g < next ∧ (g ∈ live.generations ∨ live.nextGeneration ≤ g)) ∧
    live.nextGeneration < next

/-- A file that neither the disk nor the live dictionary needs, and no fold will write. -/
def Doomed (disk live : SfxDictionaryMeta) : DictFile → Prop
  | .generation g _ _ => g ∉ disk.generations ∧ g ∉ live.generations ∧ g < live.nextGeneration
  | .minted id f _ => id ∈ disk.pendingSegments ∨ id ∈ live.pendingSegments → f ∉ minted id

/-- **The invariant** of every run. -/
structure FilesKept (s : FileState) : Prop where
  live : Behind minted s.files s.live s.live
  disk : Behind minted s.files s.live s.disk
  fold : FoldNumbers s.live s.fold
  /-- The parts about to be on disk. -/
  saving : ∀ p, s.saving = .read p → Behind minted s.files s.live p ∧
    ∀ id ∈ s.live.pendingSegments, id ∈ p.pendingSegments
  /-- Unless it is about to be written, `meta.json` names the live pairs. -/
  pairs : s.saving = .no → ∀ id ∈ s.live.pendingSegments, id ∈ s.disk.pendingSegments
  /-- What is listed to be deleted. -/
  doomed : ∀ x, .delete x ∈ s.actor → s.saving = .no ∧ Doomed minted s.disk s.live x

end Invariant

/-- A field comes to be listed only while there is no generation, and no fold makes one. -/
def KeepsFields (s t : FileState) : Prop :=
  (∀ f ∈ t.live.fieldIds, f ∈ s.live.fieldIds) ∨ s.live.generations = [] ∧ s.fold = .idle

/-- **One step that keeps the fields.** -/
def KeepingStep (minted : SegmentId → List FieldId) (s t : FileState) : Prop :=
  FileStep minted s t ∧ KeepsFields s t

/-- `p`'s generations have files for all its fields. -/
def CoversFields (files : List DictFile) (p : SfxDictionaryMeta) : Prop :=
  ∀ g ∈ p.generations, ∀ x ∈ generationFiles g p.fieldIds, x ∈ files

/-- A fold will have written what it makes live, for every field of the live parts. -/
def FoldCovers (files : List DictFile) (fieldIds : List FieldId) : FoldRun → Prop
  | .idle => True
  | .running leftovers writes snapshot generations _ _ =>
    (∀ f ∈ fieldIds, f ∈ snapshot.fieldIds) ∧
    ∀ g ∈ generations, ∀ x ∈ generationFiles g snapshot.fieldIds,
      x ∈ writes ∨ (x ∈ files ∧ x ∉ leftovers)

/-- The metas of which a file may be needed. -/
def Current (s : FileState) (p : SfxDictionaryMeta) : Prop :=
  p = s.live ∨ p = s.disk ∨ s.saving = .read p

/-- **The invariant of runs that keep their fields.** -/
structure Covered (s : FileState) : Prop where
  covers : ∀ p, Current s p → CoversFields s.files p
  fold : FoldCovers s.files s.live.fieldIds s.fold

variable {minted : SegmentId → List FieldId} {s t : FileState}

variable {x : DictFile}

/-- A generation's files, one by one. -/
theorem mem_generationFiles {g : Nat} {fields : List FieldId} :
    x ∈ generationFiles g fields ↔
      ∃ f ∈ fields, ∃ e ∈ [Ext.sfx, .termtexts, .pidx], .generation g f e = x := by
  simp only [generationFiles, mem_flatMap, mem_map]

/-- More fields, more files. -/
theorem generationFiles_subset {g : Nat} {fields fields' : List FieldId}
    (hsub : ∀ f ∈ fields, f ∈ fields') (hx : x ∈ generationFiles g fields) :
    x ∈ generationFiles g fields' := by
  obtain ⟨f, hf, he⟩ := mem_generationFiles.mp hx
  exact mem_generationFiles.mpr ⟨f, hsub f hf, he⟩

/-- A pair's files, one by one. -/
theorem mem_pairFiles {id : SegmentId} {fields : List FieldId} :
    x ∈ pairFiles id fields ↔ ∃ f ∈ fields, ∃ e ∈ [Ext.sfx, .termtexts], .minted id f e = x := by
  simp only [pairFiles, mem_flatMap, mem_map]

/-- A file other than the one deleted stays. -/
theorem mem_filter_ne {files : List DictFile} {x y : DictFile} (hy : y ∈ files) (hne : y ≠ x) :
    y ∈ files.filter (· ≠ x) :=
  mem_filter.mpr ⟨hy, decide_eq_true hne⟩

/-- The files of two generations are different. -/
theorem not_mem_generationFiles {g g' : Nat} (hne : g ≠ g') {fields fields' : List FieldId}
    (hx : x ∈ generationFiles g fields) : x ∉ generationFiles g' fields' := by
  intro hx'
  obtain ⟨f, -, e, -, rfl⟩ := mem_generationFiles.mp hx
  obtain ⟨f', -, e', -, heq⟩ := mem_generationFiles.mp hx'
  exact hne (DictFile.generation.inj heq).1.symm

section Frames

variable {files files' : List DictFile} {live live' p : SfxDictionaryMeta} {fold : FoldRun}

section

variable (h : Behind minted files live p)
include h

/-- A generation named is numbered below the next live one. -/
theorem Behind.lt {g : Nat} (hg : g ∈ p.generations) : g < live.nextGeneration :=
  (h.numbers g hg).trans_le h.next_le

/-- A meta is what the live parts are once they are taken from it. -/
theorem Behind.self : Behind minted files p p :=
  ⟨h.fields, fun _ => id, h.numbers, le_rfl, fun _ => rfl, fun _ hg => .inl hg, h.present⟩

/-- A swap leaves a meta behind. -/
theorem Behind.of_swap (hfields : live'.fieldIds = live.fieldIds)
    (hlt : live.nextGeneration < live'.nextGeneration)
    (hnew : ∀ g ∈ live'.generations, g ∈ live.generations ∨ live.nextGeneration ≤ g) :
    Behind minted files live' p := by
  refine ⟨h.fields, hfields ▸ h.listed, h.numbers, h.next_le.trans hlt.le, fun heq => ?_,
    fun g hg => ?_, h.present⟩
  · exact absurd h.next_le (by omega)
  · rcases hnew g hg with hg | hg
    · exact h.newer g hg
    · exact .inr fun l hl => (h.lt hl).trans_le hg

end

/-- Of the live parts only generations and their number count for a fold's numbers. -/
theorem FoldNumbers.of_live (h : FoldNumbers live fold)
    (hgens : live'.generations = live.generations)
    (hnext : live'.nextGeneration = live.nextGeneration) : FoldNumbers live' fold := by
  cases fold with
  | idle => trivial
  | running leftovers writes snapshot generations next compacted =>
    unfold FoldNumbers at h ⊢
    rwa [hgens, hnext]

/-- Fewer fields to cover. -/
theorem FoldCovers.of_fields {fieldIds fieldIds' : List FieldId}
    (h : FoldCovers files fieldIds fold) (hsub : ∀ f ∈ fieldIds', f ∈ fieldIds) :
    FoldCovers files fieldIds' fold := by
  cases fold with
  | idle => trivial
  | running leftovers writes snapshot generations next compacted =>
    exact ⟨fun f hf => h.1 f (hsub f hf), h.2⟩

/-- Of the files, those of live generations and of higher numbers count for a fold. -/
theorem FoldCovers.of_files {fieldIds : List FieldId} (h : FoldCovers files fieldIds fold)
    (hnumbers : FoldNumbers live fold)
    (hfiles : ∀ g f e, g ∈ live.generations ∨ live.nextGeneration ≤ g →
      .generation g f e ∈ files → .generation g f e ∈ files') :
    FoldCovers files' fieldIds fold := by
  cases fold with
  | idle => trivial
  | running leftovers writes snapshot generations next compacted =>
    refine ⟨h.1, fun g hg x hx => (h.2 g hg x hx).imp_right (And.imp_left ?_)⟩
    obtain ⟨f, -, e, -, rfl⟩ := mem_generationFiles.mp hx
    exact hfiles g f e (hnumbers.2.1 g hg).2

end Frames

/-! ## What every step keeps -/

section

variable (h : FilesKept minted s)
include h

/-- The parts of which a file may be needed are behind the live ones. -/
theorem FilesKept.behind {p : SfxDictionaryMeta} (hp : Current s p) :
    Behind minted s.files s.live p := by
  rcases hp with rfl | rfl | hp
  · exact h.live
  · exact h.disk
  · exact (h.saving p hp).1

/-- Steps that leave the metas alone. -/
theorem FilesKept.of_files {files : List DictFile} {fold : FoldRun} {actor : List ActorOp}
    (hfiles : ∀ p, Current s p → ∀ id ∈ p.pendingSegments, ∀ x ∈ pairFiles id (minted id),
      x ∈ s.files → x ∈ files)
    (hfold : FoldNumbers s.live fold)
    (hactor : ∀ x, .delete x ∈ actor → .delete x ∈ s.actor) :
    FilesKept minted { s with files := files, fold := fold, actor := actor } := by
  have hbehind : ∀ p, Current s p → Behind minted files s.live p := fun p hp =>
    { h.behind hp with
      present := fun id hid x hx => hfiles p hp id hid x hx ((h.behind hp).present id hid x hx) }
  refine ⟨hbehind _ (.inl rfl), hbehind _ (.inr (.inl rfl)), hfold, fun p hp => ?_, h.pairs,
    fun x hx => h.doomed x (hactor x hx)⟩
  exact ⟨hbehind p (.inr (.inr hp)), (h.saving p hp).2⟩

/-- A commit names pairs that are there. -/
theorem FilesKept.commit {new : List SegmentId}
    (hnew : ∀ id ∈ new, ∀ x ∈ pairFiles id (minted id), x ∈ s.files) :
    FilesKept minted { s with
      live := { s.live with
        fieldIds := addFields s.live.fieldIds (new.flatMap minted)
        pendingSegments := s.live.pendingSegments ++ new }
      saving := .due
      actor := [.collect, .consume] } := by
  refine ⟨⟨fun id hid f hf => ?_, fun _ => id, h.live.numbers, le_rfl, fun _ => rfl,
    fun _ hg => .inl hg, fun id hid x hx => ?_⟩, { h.disk with listed := fun f hf => ?_ },
    h.fold.of_live rfl rfl, nofun, nofun, by simp⟩
  · refine mem_addFields.mpr ?_
    rcases mem_append.mp hid with hid | hid
    · exact .inl (h.live.fields id hid f hf)
    · exact .inr (mem_flatMap.mpr ⟨id, hid, hf⟩)
  · rcases mem_append.mp hid with hid | hid
    · exact h.live.present id hid x hx
    · exact hnew id hid x hx
  · exact mem_addFields.mpr (.inl (h.disk.listed f hf))

section

variable (hno : s.saving = .no)
include hno

/-- The updater takes a message. -/
theorem FilesKept.message {saving : Saving}
    (hsaving : ∀ p, saving ≠ .read p) {todo : List ActorOp} (htodo : ∀ x, .delete x ∉ todo) :
    FilesKept minted { s with saving := saving, actor := todo } :=
  ⟨h.live, h.disk, h.fold, fun p hp => absurd hp (hsaving p), fun _ => h.pairs hno,
    fun x hx => absurd hx (htodo x)⟩

/-- Further deletes, of files nobody needs. -/
theorem FilesKept.lists {op : ActorOp}
    {rest : List ActorOp} (hactor : s.actor = op :: rest) {xs : List DictFile}
    (hxs : ∀ x ∈ xs, Doomed minted s.disk s.live x) :
    FilesKept minted { s with actor := xs.map .delete ++ rest } := by
  refine { h with doomed := fun x hx => ?_ }
  rcases mem_append.mp hx with hx | hx
  · obtain ⟨y, hy, hxy⟩ := mem_map.mp hx
    exact ⟨hno, ActorOp.delete.inj hxy ▸ hxs y hy⟩
  · exact h.doomed x (hactor ▸ mem_cons_of_mem _ hx)

/-- `refresh_sfx_dictionary` keeps the parts held, unless they differ from those on disk in their
pairs only. -/
theorem FilesKept.refresh : FilesKept minted { s with live := s.refreshed } := by
  unfold FileState.refreshed
  split
  · exact h
  split
  · exact h
  · next hle =>
    have hnext := le_antisymm h.disk.next_le (not_lt.mp hle)
    refine ⟨h.disk.self, h.disk.self, h.fold.of_live (h.disk.same hnext) hnext, fun p hp => ?_,
      fun _ _ => id, fun x hx => ⟨hno, ?_⟩⟩
    · rw [hno] at hp
      cases hp
    · have hdoomed := (h.doomed x hx).2
      cases x with
      | generation g f e => exact ⟨hdoomed.1, hdoomed.1, hnext ▸ hdoomed.2.2⟩
      | minted id f e => exact fun hid => hdoomed (.inl (or_self_iff.mp hid))

/-- What garbage collection lists, nobody needs. -/
theorem FilesKept.doomed_of_not_living
    {inventory : SegmentId → Bool} (hx : living inventory s.disk x = false) :
    Doomed minted s.disk s.live x := by
  cases x with
  | generation g f e =>
    simp only [living, Bool.or_eq_false_iff, decide_eq_false_iff_not, all_eq_false,
      decide_eq_true_eq, not_lt] at hx
    obtain ⟨hg, l, hl, hle⟩ := hx
    refine ⟨hg, fun hlive => ?_, hle.trans_lt (h.disk.lt hl)⟩
    exact (h.disk.newer g hlive).elim hg fun hnew => absurd (hnew l hl) (not_lt.mpr hle)
  | minted id f e =>
    simp only [living, Bool.or_eq_false_iff, Bool.and_eq_false_iff, decide_eq_false_iff_not] at hx
    intro hid hf
    have hdisk : id ∈ s.disk.pendingSegments := hid.elim (fun hid => hid) (h.pairs hno id)
    exact hx.2.elim (fun hnot => hnot hdisk) fun hnot => hnot (h.disk.fields id hdisk f hf)

end

/-- While something is listed to be deleted, no meta is being saved. -/
theorem FilesKept.current_of_delete (hx : .delete x ∈ s.actor) {p : SfxDictionaryMeta}
    (hp : Current s p) : p = s.live ∨ p = s.disk := by
  refine hp.imp_right fun hp => hp.resolve_right fun hread => ?_
  rw [(h.doomed x hx).1] at hread
  cases hread

/-- A listed file is deleted. -/
theorem FilesKept.delete {rest : List ActorOp} (hactor : s.actor = .delete x :: rest) :
    FilesKept minted { s with files := s.files.filter (· ≠ x), actor := rest } := by
  have hx : .delete x ∈ s.actor := hactor ▸ mem_cons_self
  refine h.of_files (fun p hp id hid y hy hmem => mem_filter_ne hmem ?_) h.fold
    fun y hy => hactor ▸ mem_cons_of_mem _ hy
  rintro rfl
  have hdoomed := (h.doomed _ hx).2
  obtain ⟨f, hf, e, -, rfl⟩ := mem_pairFiles.mp hy
  rcases h.current_of_delete hx hp with rfl | rfl
  · exact hdoomed (.inr hid) hf
  · exact hdoomed (.inl hid) hf

/-- The fold goes over to write a generation. -/
theorem FilesKept.writing {g : Nat} {gens : List Nat} (hg : s.live.nextGeneration ≤ g)
    (hgens : ∀ g' ∈ gens, g' < g ∧ (g' ∈ s.live.generations ∨ s.live.nextGeneration ≤ g'))
    (fields : List FieldId) (snapshot : SfxDictionaryMeta) (compacted : Bool) :
    FilesKept minted (s.writing g fields snapshot gens compacted) := by
  refine h.of_files (fun _ _ _ _ _ _ => id) ⟨fun x hx => ?_, fun g' hg' => ?_, by omega⟩
    fun _ => id
  · obtain ⟨f, -, e, -, rfl⟩ := mem_generationFiles.mp hx
    exact ⟨g, f, e, rfl, hg⟩
  · rcases mem_append.mp hg' with hg' | hg'
    · exact ⟨(hgens g' hg').1.trans (Nat.lt_succ_self _), (hgens g' hg').2⟩
    · rw [mem_singleton.mp hg']
      exact ⟨Nat.lt_succ_self _, .inr hg⟩

/-- The fold swaps the live parts. -/
theorem FilesKept.swap {snapshot : SfxDictionaryMeta}
    {generations : List Nat} {next : Nat} {compacted : Bool}
    (hfold : FoldNumbers s.live (.running [] [] snapshot generations next compacted)) :
    FilesKept minted { s with
      live := { s.live with
        generations := generations
        nextGeneration := next
        pendingSegments := s.live.pendingSegments.filter (· ∉ snapshot.pendingSegments) }
      fold := .idle } := by
  obtain ⟨-, hnumbers, hnext⟩ := hfold
  have hnew := fun g hg => (hnumbers g hg).2
  have hpairs : ∀ id ∈ s.live.pendingSegments.filter (· ∉ snapshot.pendingSegments),
      id ∈ s.live.pendingSegments := fun id hid => mem_of_mem_filter hid
  refine ⟨⟨fun id hid => h.live.fields id (hpairs id hid), fun _ => id,
    fun g hg => (hnumbers g hg).1, le_rfl, fun _ => rfl, fun _ hg => .inl hg,
    fun id hid => h.live.present id (hpairs id hid)⟩, h.disk.of_swap rfl hnext hnew, trivial,
    fun p hp => ?_, fun hno id hid => h.pairs hno id (hpairs id hid), fun x hx => ?_⟩
  · obtain ⟨hs, hsub⟩ := h.saving p hp
    exact ⟨hs.of_swap rfl hnext hnew, fun id hid => hsub id (hpairs id hid)⟩
  · obtain ⟨hno, hdoomed⟩ := h.doomed x hx
    refine ⟨hno, ?_⟩
    cases x with
    | generation g f e =>
      refine ⟨hdoomed.1, fun hg => ?_, hdoomed.2.2.trans hnext⟩
      exact (hnew g hg).elim hdoomed.2.1 fun hle => absurd hdoomed.2.2 (not_lt.mpr hle)
    | minted id f e => exact fun hid => hdoomed (hid.imp_right (hpairs id))

/-- **Every step keeps the invariant.** -/
theorem FilesKept.step (hstep : FileStep minted s t) : FilesKept minted t := by
  have hfold' := h.fold
  cases hstep with
  | writePair id f ext =>
    exact h.of_files (fun _ _ _ _ _ _ hx => mem_cons_of_mem _ hx) h.fold fun _ hx => hx
  | commit new hno hactor hnew => exact h.commit hnew
  | merged hno hactor | folded hno hactor =>
    exact h.message hno (fun _ => Saving.noConfusion) (by simp)
  | garbageCollect hno hactor => exact h.message hno (by simp [hno]) (by simp)
  | readsLive hdue =>
    refine ⟨h.live, h.disk, h.fold, fun p hp => ?_, nofun, fun x hx => ?_⟩
    · cases hp
      exact ⟨h.live, fun _ => id⟩
    · rw [(h.doomed x hx).1] at hdue
      cases hdue
  | writesMeta hread =>
    refine ⟨h.live, (h.saving _ hread).1, h.fold, nofun, fun _ => (h.saving _ hread).2,
      fun x hx => ?_⟩
    rw [(h.doomed x hx).1] at hread
    cases hread
  | collect managed inventory hno hactor =>
    refine (h.refresh hno).lists hno hactor fun x hx => ?_
    exact (h.refresh hno).doomed_of_not_living hno (by simpa using (mem_filter.mp hx).2)
  | consume committed hno hactor =>
    refine h.lists hno hactor fun x hx => ?_
    obtain ⟨m, hm, hx⟩ := mem_flatMap.mp hx
    obtain ⟨f, -, e, -, rfl⟩ := mem_pairFiles.mp hx
    have hm : m.id ∉ s.disk.pendingSegments := of_decide_eq_true (mem_filter.mp hm).2
    exact fun hid => absurd (hid.elim id (h.pairs hno m.id)) hm
  | delete hactor => exact h.delete hactor
  | keep hactor =>
    exact { h with doomed := fun y hy => h.doomed y (hactor ▸ mem_cons_of_mem _ hy) }
  | foldStarts hidle hpending =>
    refine h.writing (le_max_left _ _) (fun g hg => ⟨?_, .inl hg⟩) _ _ _
    exact (h.live.numbers g hg).trans_le (le_max_left _ _)
  | foldRemoves hfold hx =>
    rw [hfold] at hfold'
    refine h.of_files (fun p hp id hid y hy hmem => mem_filter_ne hmem ?_)
      ⟨fun y hy => hfold'.1 y (mem_of_mem_erase hy), hfold'.2⟩ fun _ => id
    rintro rfl
    obtain ⟨f, -, e, -, rfl⟩ := mem_pairFiles.mp hy
    obtain ⟨g, f', e', heq, -⟩ := hfold'.1 _ hx
    cases heq
  | foldWrites hfold hx =>
    rw [hfold] at hfold'
    exact h.of_files (fun _ _ _ _ _ _ hmem => mem_cons_of_mem _ hmem) hfold' fun _ => id
  | foldKeeps hfold size maxGenerations hfew =>
    rw [hfold] at hfold'
    exact { h with fold := hfold' }
  | foldCompacts hfold size maxGenerations hmany =>
    rw [hfold] at hfold'
    exact h.writing hfold'.2.2.le (fun g hg => hfold'.2.1 g (mem_of_mem_filter hg)) _ _ _
  | foldSwaps hfold => exact h.swap (hfold ▸ hfold')
  | foldFails => exact { h with fold := trivial }
  | crash => exact ⟨h.disk.self, h.disk.self, trivial, nofun, fun _ _ => id, by simp⟩

end

/-! ## What steps keep that keep the fields -/

/-- A compaction merges some generation, and only such as there are. -/
theorem exists_mem_of_chooseCompaction {live : List (Nat × Nat)} {most : Nat} {merged : List Nat}
    (h : chooseCompaction live most = some merged) : ∃ g ∈ merged, g ∈ live.map Prod.fst := by
  unfold chooseCompaction at h
  split_ifs at h with hfew
  cases h
  cases live with
  | nil => simp at hfew
  | cons a live =>
    set sorted := (a :: live).insertionSort fun a b => a.2 < b.2 ∨ (a.2 = b.2 ∧ a.1 ≤ b.1)
    obtain ⟨b, rest, hsorted⟩ : ∃ b rest, sorted = b :: rest :=
      exists_cons_of_length_pos (by rw [length_insertionSort]; simp)
    refine ⟨b.1, (mem_insertionSort _).mpr (by simp [hsorted]), mem_map.mpr ⟨b, ?_, rfl⟩⟩
    exact (mem_insertionSort _).mp (hsorted ▸ mem_cons_self)

/-- Where the merged generations have every field, so has their compaction. -/
theorem mem_compactedFields {files : List DictFile} {merged : List Nat} {fieldIds : List FieldId}
    {g : Nat} (hg : g ∈ merged) (hfiles : ∀ x ∈ generationFiles g fieldIds, x ∈ files)
    {f : FieldId} (hf : f ∈ fieldIds) : f ∈ compactedFields files merged fieldIds := by
  have hmem : ∀ e ∈ [Ext.sfx, .termtexts, .pidx], .generation g f e ∈ files := fun e he =>
    hfiles _ (mem_generationFiles.mpr ⟨f, hf, e, he, rfl⟩)
  simp only [compactedFields, mem_filter, any_eq_true, Bool.and_eq_true, contains_iff_mem]
  exact ⟨hf, g, hg, hmem _ (by simp), hmem _ (by simp)⟩

section

variable (h : Covered s)
include h

/-- Steps that leave the metas alone. -/
theorem Covered.of_files {files : List DictFile} {fold : FoldRun} {actor : List ActorOp}
    (hfiles : ∀ p, Current s p → ∀ g ∈ p.generations, ∀ f e,
      .generation g f e ∈ s.files → .generation g f e ∈ files)
    (hfold : FoldCovers files s.live.fieldIds fold) :
    Covered { s with files := files, fold := fold, actor := actor } := by
  refine ⟨fun p hp g hg x hx => ?_, hfold⟩
  have hmem := h.covers p hp g hg x hx
  obtain ⟨f, -, e, -, rfl⟩ := mem_generationFiles.mp hx
  exact hfiles p hp g hg f e hmem

/-- The fold goes over to write a generation, for all fields of its snapshot. -/
theorem Covered.writing {g : Nat} {gens : List Nat} {fields : List FieldId}
    {snapshot : SfxDictionaryMeta} {compacted : Bool}
    (hlisted : ∀ f ∈ s.live.fieldIds, f ∈ snapshot.fieldIds)
    (hgens : ∀ g' ∈ gens, g' < g ∧ ∀ x ∈ generationFiles g' snapshot.fieldIds, x ∈ s.files)
    (hfields : ∀ f ∈ snapshot.fieldIds, f ∈ fields) :
    Covered (s.writing g fields snapshot gens compacted) := by
  refine ⟨h.covers, hlisted, fun g' hg' x hx => ?_⟩
  rcases mem_append.mp hg' with hg' | hg'
  · have hother := (hgens g' hg').1.ne
    exact .inr ⟨(hgens g' hg').2 x hx, not_mem_generationFiles hother hx⟩
  · rw [mem_singleton.mp hg'] at hx
    exact .inl (generationFiles_subset hfields hx)

/-- A commit lists no further field, or there is no generation yet. -/
theorem Covered.commit {live : SfxDictionaryMeta} {actor : List ActorOp}
    (hgens : live.generations = s.live.generations)
    (hfields : (∀ f ∈ live.fieldIds, f ∈ s.live.fieldIds) ∨
      s.live.generations = [] ∧ s.fold = .idle) :
    Covered { s with live := live, saving := .due, actor := actor } := by
  refine ⟨fun p hp => ?_, ?_⟩
  · rcases hp with rfl | rfl | hp
    · intro g hg x hx
      rw [hgens] at hg
      rcases hfields with hsub | ⟨hnone, -⟩
      · exact h.covers _ (.inl rfl) g hg x (generationFiles_subset hsub hx)
      · exact absurd hg (hnone ▸ not_mem_nil)
    · exact h.covers _ (.inr (.inl rfl))
    · cases hp
  · rcases hfields with hsub | ⟨-, hidle⟩
    · exact h.fold.of_fields hsub
    · rw [hidle]
      trivial

section

variable (hkept : FilesKept minted s)
include hkept

/-- `refresh_sfx_dictionary` keeps the live parts or takes those on disk. -/
theorem Covered.refresh : Covered { s with live := s.refreshed } := by
  have hrefreshed : s.refreshed = s.live ∨ s.refreshed = s.disk := by
    unfold FileState.refreshed
    split_ifs <;> simp
  refine ⟨fun p hp => ?_, h.fold.of_fields ?_⟩
  · rcases hp with rfl | hp
    · exact h.covers _ (hrefreshed.imp_right .inl)
    · exact h.covers p (.inr hp)
  · rcases hrefreshed with heq | heq
    · exact heq ▸ fun _ => id
    · exact heq ▸ hkept.disk.listed

/-- A listed file is deleted. -/
theorem Covered.delete {rest : List ActorOp} (hactor : s.actor = .delete x :: rest) :
    Covered { s with files := s.files.filter (· ≠ x), actor := rest } := by
  have hx : .delete x ∈ s.actor := hactor ▸ mem_cons_self
  have hdoomed := (hkept.doomed x hx).2
  refine h.of_files (fun p hp g hg f e hmem => mem_filter_ne hmem ?_)
    (h.fold.of_files hkept.fold fun g f e hg hmem => mem_filter_ne hmem ?_)
  · rintro rfl
    rcases hkept.current_of_delete hx hp with rfl | rfl
    · exact hdoomed.2.1 hg
    · exact hdoomed.1 hg
  · rintro rfl
    exact hg.elim hdoomed.2.1 fun hle => absurd hdoomed.2.2 (not_lt.mpr hle)

/-- **A step that keeps the fields keeps the generations' files.** -/
theorem Covered.step (hkeeps : KeepingStep minted s t) : Covered t := by
  obtain ⟨hstep, hfields⟩ := hkeeps
  have hfold' := h.fold
  have hnumbers := hkept.fold
  cases hstep with
  | writePair id f ext =>
    exact h.of_files (fun _ _ _ _ _ _ hx => mem_cons_of_mem _ hx)
      (h.fold.of_files hkept.fold fun _ _ _ _ hx => mem_cons_of_mem _ hx)
  | commit new hno hactor hnew => exact h.commit rfl hfields
  | merged hno hactor | folded hno hactor =>
    exact ⟨fun p hp => h.covers p (hp.imp_right fun hp => .inl (hp.resolve_right nofun)), h.fold⟩
  | garbageCollect hno hactor => exact ⟨h.covers, h.fold⟩
  | readsLive hdue =>
    refine ⟨fun p hp => ?_, h.fold⟩
    rcases hp with rfl | rfl | hp
    · exact h.covers _ (.inl rfl)
    · exact h.covers _ (.inr (.inl rfl))
    · cases hp
      exact h.covers _ (.inl rfl)
  | writesMeta hread =>
    refine ⟨fun p hp => ?_, h.fold⟩
    rcases hp with rfl | rfl | hp
    · exact h.covers _ (.inl rfl)
    · exact h.covers _ (.inr (.inr hread))
    · cases hp
  | collect managed inventory hno hactor =>
    exact ⟨(h.refresh hkept).covers, (h.refresh hkept).fold⟩
  | consume committed hno hactor => exact ⟨h.covers, h.fold⟩
  | delete hactor => exact h.delete hkept hactor
  | keep hactor => exact ⟨h.covers, h.fold⟩
  | foldStarts hidle hpending =>
    refine h.writing (fun _ => id) (fun g hg => ⟨?_, h.covers _ (.inl rfl) g hg⟩) fun _ => id
    exact (hkept.live.numbers g hg).trans_le (le_max_left _ _)
  | foldRemoves hfold hx =>
    rw [hfold] at hfold' hnumbers
    refine h.of_files (fun p hp g hg f e hmem => mem_filter_ne hmem ?_)
      ⟨hfold'.1, fun g hg y hy => (hfold'.2 g hg y hy).imp_right fun hmem => ?_⟩
    · rintro rfl
      obtain ⟨g', f', e', heq, hle⟩ := hnumbers.1 _ hx
      cases heq
      exact absurd ((hkept.behind hp).lt hg) (not_lt.mpr hle)
    · refine ⟨mem_filter_ne hmem.1 ?_, fun hin => hmem.2 (mem_of_mem_erase hin)⟩
      rintro rfl
      exact hmem.2 hx
  | @foldWrites _ _ _ _ _ hfold x hx =>
    rw [hfold] at hfold'
    refine h.of_files (fun _ _ _ _ _ _ hmem => mem_cons_of_mem _ hmem)
      ⟨hfold'.1, fun g hg y hy => ?_⟩
    by_cases hxy : y = x
    · exact .inr ⟨hxy ▸ mem_cons_self, not_mem_nil⟩
    · exact (hfold'.2 g hg y hy).imp (fun hmem => (mem_erase_of_ne hxy).mpr hmem)
        (And.imp_left (mem_cons_of_mem _))
  | foldKeeps hfold size maxGenerations hfew =>
    rw [hfold] at hfold'
    exact ⟨h.covers, hfold'⟩
  | foldCompacts hfold size maxGenerations hmany =>
    rw [hfold] at hfold' hnumbers
    have hthere := fun g hg x hx => ((hfold'.2 g hg x hx).resolve_left not_mem_nil).1
    obtain ⟨g, hg, hgen⟩ := exists_mem_of_chooseCompaction hmany
    have hgen := hthere g (by simpa using hgen)
    refine h.writing hfold'.1 (fun g' hg' => ?_) fun f hf => mem_compactedFields hg hgen hf
    exact ⟨(hnumbers.2.1 g' (mem_of_mem_filter hg')).1, hthere g' (mem_of_mem_filter hg')⟩
  | foldSwaps hfold =>
    rw [hfold] at hfold'
    refine ⟨fun p hp => ?_, trivial⟩
    rcases hp with rfl | hp
    · intro g hg x hx
      have hx := generationFiles_subset hfold'.1 hx
      exact ((hfold'.2 g hg x hx).resolve_left not_mem_nil).1
    · exact h.covers p (.inr hp)
  | foldFails => exact ⟨h.covers, trivial⟩
  | crash =>
    refine ⟨fun p hp => h.covers p ?_, trivial⟩
    exact .inr (.inl (hp.elim id fun hp => hp.resolve_right nofun))

end

end

/-! ## Whole runs -/

/-- A new index names nothing. -/
theorem filesKept_create : FilesKept minted .create := by
  have hempty : Behind minted [] FileState.create.live FileState.create.live :=
    ⟨nofun, nofun, nofun, le_rfl, fun _ => rfl, nofun, nofun⟩
  exact ⟨hempty, hempty, trivial, nofun, fun _ _ => id, nofun⟩

/-- **The files of every run.** -/
theorem filesKept_of_run (h : Relation.ReflTransGen (FileStep minted) .create s) :
    FilesKept minted s := by
  induction h with
  | refl => exact filesKept_create
  | tail _ hstep ih => exact ih.step hstep

/-- A run that keeps the fields is a run. -/
theorem run_of_keeping (h : Relation.ReflTransGen (KeepingStep minted) .create s) :
    Relation.ReflTransGen (FileStep minted) .create s :=
  Relation.ReflTransGen.mono (fun _ _ => And.left) _ _ h

/-- **Whatever `meta.json` names is there**, in every state a new index can come to: every file of
its pairs and, where every field was listed before there was a generation, every file `files_of`
gives of its generations. And no generation of the live dictionary is about to be deleted. -/
theorem named_files_exist (uuid : SegmentId → Index.SegmentId)
    (h : Relation.ReflTransGen (FileStep minted) .create s) :
    (∀ id ∈ s.disk.pendingSegments, ∀ x ∈ pairFiles id (minted id), x ∈ s.files) ∧
    (∀ g f e, .delete (.generation g f e) ∈ s.actor → g ∉ s.live.generations) ∧
    (Relation.ReflTransGen (KeepingStep minted) .create s →
      ∀ g ∈ s.disk.generations, ∀ name ∈ (written uuid s.disk).filesOf g,
        ∃ f e, .generation g f e ∈ s.files ∧
          Index.dictionaryFileName g f e.generationExt = name) := by
  have hkept := filesKept_of_run h
  refine ⟨hkept.disk.present, fun g f e hx => (hkept.doomed _ hx).2.2.1,
    fun hfields g hg name hname => ?_⟩
  have hcovered : Covered s := by
    clear h hkept hg hname
    induction hfields with
    | refl =>
      refine ⟨fun p hp g hg => ?_, trivial⟩
      rcases hp with rfl | rfl | hp
      · cases hg
      · cases hg
      · cases hp
    | tail hrun hstep ih =>
      exact ih.step (filesKept_of_run (run_of_keeping hrun)) hstep
  rw [filesOf_written] at hname
  obtain ⟨f, hf, hname⟩ := mem_flatMap.mp hname
  obtain ⟨e, he, rfl⟩ := mem_map.mp hname
  refine ⟨f, e, hcovered.covers _ (.inr (.inl rfl)) g hg _ ?_, rfl⟩
  exact mem_generationFiles.mpr ⟨f, hf, e, he, rfl⟩

/-! ## A field that comes late -/

/-- Segment 8 has minted texts in field 1, the others in field 0. -/
def laterField (id : SegmentId) : List FieldId := if id = 8 then [1] else [0]

/-- Segment 7 has been committed, its parts are `live` now, and a fold has written `files`. -/
def folding (files : List DictFile) (live : SfxDictionaryMeta) (fold : FoldRun) : FileState where
  files := files ++ [.minted 7 0 .termtexts, .minted 7 0 .sfx]
  disk := ⟨[], 1, fun _ => 0, [0], [7]⟩
  live := live
  fold := fold
  saving := .no
  actor := []

/-- Generation 1 takes in the pair, and is the live part. -/
theorem folding_reached :
    Relation.ReflTransGen (KeepingStep laterField) .create
      (folding (generationFiles 1 [0]) ⟨[1], 2, fun _ => 0, [0], []⟩ .idle) := by
  have hsame : ∀ fieldIds : List FieldId, ∀ f ∈ fieldIds, f ∈ fieldIds := fun _ _ => id
  have hpair := ((Relation.ReflTransGen.refl (a := FileState.create)).tail
    (r := KeepingStep laterField)
    ⟨.writePair 7 0 .sfx, .inl (hsame _)⟩).tail ⟨.writePair 7 0 .termtexts, .inl (hsame _)⟩
  have hcommit := hpair.tail ⟨.commit [7] rfl rfl (by decide), .inr ⟨rfl, rfl⟩⟩
  have hsaved := (hcommit.tail ⟨.readsLive rfl, .inl (hsame _)⟩).tail
    ⟨.writesMeta rfl, .inl (hsame _)⟩
  have hdone : Relation.ReflTransGen (KeepingStep laterField) .create
      (folding [] ⟨[], 1, fun _ => 0, [0], [7]⟩ .idle) :=
    (hsaved.tail ⟨.collect [] (fun _ => true) rfl rfl, .inl (hsame _)⟩).tail
      ⟨.consume [] rfl rfl, .inl (hsame _)⟩
  have hstarts := hdone.tail ⟨.foldStarts rfl (by decide), .inl (hsame _)⟩
  have hempty := ((hstarts.tail
    ⟨.foldRemoves rfl (x := .generation 1 0 .sfx) (by decide), .inl (hsame _)⟩).tail
    ⟨.foldRemoves rfl (x := .generation 1 0 .termtexts) (by decide), .inl (hsame _)⟩).tail
    ⟨.foldRemoves rfl (x := .generation 1 0 .pidx) (by decide), .inl (hsame _)⟩
  have hremoved : Relation.ReflTransGen (KeepingStep laterField) .create
      (folding [] ⟨[], 1, fun _ => 0, [0], [7]⟩
        (.running [] (generationFiles 1 [0]) ⟨[], 1, fun _ => 0, [0], [7]⟩ [1] 2 false)) :=
    hempty
  have hwritten := ((hremoved.tail
    ⟨.foldWrites rfl (x := .generation 1 0 .pidx) (by decide), .inl (hsame _)⟩).tail
    ⟨.foldWrites rfl (x := .generation 1 0 .termtexts) (by decide), .inl (hsame _)⟩).tail
    ⟨.foldWrites rfl (x := .generation 1 0 .sfx) (by decide), .inl (hsame _)⟩
  have hswapped := (hwritten.tail
    ⟨.foldKeeps rfl (fun _ => 0) 4 (by decide), .inl (hsame _)⟩).tail
    ⟨.foldSwaps rfl, .inl (hsame _)⟩
  exact hswapped

/-- Any segment's id. -/
def someUuid (_ : SegmentId) : Index.SegmentId where
  uuidString := replicate 32 'a'
  hex c hc := by
    rw [eq_of_mem_replicate hc]
    rfl
  length := length_replicate

/-- A second segment has texts in the same field: `meta.json` then names generation 1 and the new
pair, and all is there. -/
theorem named_files_exist_folded :
    ∃ s, Relation.ReflTransGen (KeepingStep laterField) .create s ∧
      s.disk.generations = [1] ∧ s.disk.pendingSegments = [9] ∧
      (∀ x ∈ pairFiles 9 [0], x ∈ s.files) ∧
      ∀ name ∈ ["dict-1.0.sfx".toList, "dict-1.0.termtexts".toList, "dict-1.0.pidx".toList],
        ∃ f e, .generation 1 f e ∈ s.files ∧
          Index.dictionaryFileName 1 f e.generationExt = name := by
  have hpair := (folding_reached.tail ⟨.writePair 9 0 .sfx, .inl fun _ => id⟩).tail
    ⟨.writePair 9 0 .termtexts, .inl fun _ => id⟩
  have hcommit := hpair.tail ⟨.commit [9] rfl rfl (by decide), .inl (by decide)⟩
  have hsaved := (hcommit.tail ⟨.readsLive rfl, .inl fun _ => id⟩).tail
    ⟨.writesMeta rfl, .inl fun _ => id⟩
  obtain ⟨hpairs, -, hgenerations⟩ := named_files_exist someUuid (run_of_keeping hsaved)
  refine ⟨_, hsaved, rfl, rfl, hpairs 9 (by decide), fun name hname => ?_⟩
  exact hgenerations hsaved 1 (by decide) name hname

/-- **A second segment has texts in another field**: `meta.json` then names `dict-1.1.sfx`, which
nothing has written. -/
theorem named_file_absent :
    ∃ s, Relation.ReflTransGen (FileStep laterField) .create s ∧ s.disk.generations = [1] ∧
      "dict-1.1.sfx".toList ∈ (written someUuid s.disk).filesOf 1 ∧
      ∀ f e, .generation 1 f e ∈ s.files →
        Index.dictionaryFileName 1 f e.generationExt ≠ "dict-1.1.sfx".toList := by
  have hpair := ((run_of_keeping folding_reached).tail (.writePair 8 1 .sfx)).tail
    (.writePair 8 1 .termtexts)
  have hcommit := hpair.tail (.commit [8] rfl rfl (by decide))
  have hsaved := (hcommit.tail (.readsLive rfl)).tail (.writesMeta rfl)
  refine ⟨_, hsaved, rfl, by decide, fun f e hfile => ?_⟩
  have hfold : .generation 1 f e ∈ generationFiles 1 [0] := by simpa [folding] using hfile
  obtain ⟨f', hf, e', -, heq⟩ := mem_generationFiles.mp hfold
  cases heq
  rw [mem_singleton.mp hf]
  cases e <;> decide

end Lucivy.Indexer
