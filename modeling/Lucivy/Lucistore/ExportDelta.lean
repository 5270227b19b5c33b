import Lucivy.Foundation.Results
import Lucivy.Lucistore.ApplyDelta

/-! # Exporting a delta

`export_delta_from` (`lucistore/src/delta.rs`) and the version of a manifest
(`lucistore/src/version.rs`). The bundles the client does not have are sent whole; of those it has,
only the files of its deletions, since everything else of a bundle is written once. Sets are lists
here, in the order their iteration takes.

* `computeVersionFromBytes` — two passes of FNV-1a.
* `DeltaExporter`, `exportDeltaFrom` — the engine's side, and the delta.
* `Exported` — **what an exported delta holds**, `exported_of_exportDeltaFrom`. -/

namespace Lucivy.Lucistore

open Lucivy.Foundation List

/-! ## Versions -/

def fnv1a64 (data : Bytes) (offsetBasis : UInt64) : UInt64 :=
  data.foldl (fun hash byte => (hash ^^^ byte.toUInt64) * 0x100000001b3) offsetBasis

/-- A word as 16 hexadecimal digits. -/
def hexWord (word : UInt64) : Text :=
  List.replicate (16 - (Nat.toDigits 16 word.toNat).length) '0' ++ Nat.toDigits 16 word.toNat

def computeVersionFromBytes (data : Bytes) : Text :=
  hexWord (fnv1a64 data 0xcbf29ce484222325) ++ hexWord (fnv1a64 data 0x6c62272e07bb0142)

/-! ## The export -/

/-- `DeltaExporter`: what an engine says about its current state. -/
structure DeltaExporter where
  currentBundleIds : Except String (List FileName)
  readManifest : Except String Bytes
  readBundleFiles : FileName → Except String (List (FileName × Bytes))
  readConfig : Option Bytes
  hasUncommitted : Bool

/-- The file of a segment's deletions. -/
def isDeleteFile (name : FileName) : Bool := ".del".toList.isSuffixOf name

/-- The files of a bundle that a selection leaves. -/
def DeltaExporter.bundleWith (exporter : DeltaExporter)
    (select : List (FileName × Bytes) → List (FileName × Bytes)) (id : FileName) :
    Except String SegmentBundle := do
  let files ← exporter.readBundleFiles id
  .ok ⟨id, select files⟩

/-- A bundle the client does not have: all its files. -/
def DeltaExporter.wholeBundle (exporter : DeltaExporter) : FileName → Except String SegmentBundle :=
  exporter.bundleWith id

/-- A bundle the client has: the files of its deletions. -/
def DeltaExporter.deleteBundle (exporter : DeltaExporter) :
    FileName → Except String SegmentBundle :=
  exporter.bundleWith fun files => files.filter fun file => isDeleteFile file.1

/-- **`export_delta_from`.** -/
def exportDeltaFrom (exporter : DeltaExporter) (clientBundleIds : List FileName)
    (clientVersion : Text) : Except String IndexDelta :=
  if exporter.hasUncommitted then .error "index has uncommitted changes — commit before export"
  else do
    let manifest ← exporter.readManifest
    let currentIds ← exporter.currentBundleIds
    let added ← (currentIds.filter fun id => !clientBundleIds.contains id).mapM exporter.wholeBundle
    let changed ← (currentIds.filter fun id => clientBundleIds.contains id).mapM
      exporter.deleteBundle
    .ok
      { fromVersion := clientVersion
        toVersion := computeVersionFromBytes manifest
        addedSegments := added ++ changed.filter fun bundle => !bundle.files.isEmpty
        removedSegmentIds := clientBundleIds.filter fun id => !currentIds.contains id
        metaJson := manifest
        config := exporter.readConfig }

/-! ## What an export holds -/

/-- **What a delta exported for a client holds.** -/
structure Exported (exporter : DeltaExporter) (clientIds : List FileName) (delta : IndexDelta) :
    Prop where
  manifest : exporter.readManifest = .ok delta.metaJson
  config : delta.config = exporter.readConfig
  /-- Its bundles are the engine's, whole where the client has none. -/
  bundles : ∃ currentIds, exporter.currentBundleIds = .ok currentIds ∧
    (∀ id ∈ currentIds, ∃ files, exporter.readBundleFiles id = .ok files) ∧
    (∀ id, id ∈ delta.removedSegmentIds ↔ id ∈ clientIds ∧ id ∉ currentIds) ∧
    ∀ file, file ∈ delta.addedFiles ↔
      ∃ id ∈ currentIds, ∃ files, exporter.readBundleFiles id = .ok files ∧ file ∈ files ∧
        (id ∈ clientIds → isDeleteFile file.1 = true)

section Export

variable {exporter : DeltaExporter} {id : FileName} {bundle : SegmentBundle}
  {select : List (FileName × Bytes) → List (FileName × Bytes)} {clientIds : List FileName}
  {version : Text} {delta : IndexDelta}

theorem bundleWith_eq_ok :
    exporter.bundleWith select id = .ok bundle ↔
      ∃ files, exporter.readBundleFiles id = .ok files ∧ bundle = ⟨id, select files⟩ := by
  rw [DeltaExporter.bundleWith, bind_eq_ok]
  simp [eq_comm]

/-- The bundles of a traversal: the files selected from those the exporter reads. -/
theorem mem_files_of_mapM {ids : List FileName} {bundles : List SegmentBundle}
    (h : ids.mapM (exporter.bundleWith select) = .ok bundles) (file : FileName × Bytes) :
    (∃ bundle ∈ bundles, file ∈ bundle.files) ↔
      ∃ id ∈ ids, ∃ files, exporter.readBundleFiles id = .ok files ∧ file ∈ select files := by
  obtain ⟨hforth, hback⟩ := mapM_ok_mem h
  constructor
  · rintro ⟨bundle, hbundle, hfile⟩
    obtain ⟨id, hid, hb⟩ := hback bundle hbundle
    obtain ⟨files, hfiles, rfl⟩ := bundleWith_eq_ok.mp hb
    exact ⟨id, hid, files, hfiles, hfile⟩
  · rintro ⟨id, hid, files, hfiles, hfile⟩
    obtain ⟨bundle, hbundle, hb⟩ := hforth id hid
    obtain ⟨files', hfiles', rfl⟩ := bundleWith_eq_ok.mp hb
    obtain rfl : files = files' := Except.ok.inj (hfiles.symm.trans hfiles')
    exact ⟨_, hbundle, hfile⟩

/-- Leaving out the bundles without files leaves out no file. -/
theorem exists_mem_filter_files (bundles : List SegmentBundle) {file : FileName × Bytes} :
    (∃ bundle ∈ bundles.filter fun bundle => !bundle.files.isEmpty, file ∈ bundle.files) ↔
      ∃ bundle ∈ bundles, file ∈ bundle.files := by
  constructor
  · rintro ⟨bundle, hbundle, hfile⟩
    exact ⟨bundle, mem_of_mem_filter hbundle, hfile⟩
  · rintro ⟨bundle, hbundle, hfile⟩
    refine ⟨bundle, mem_filter.mpr ⟨hbundle, ?_⟩, hfile⟩
    simpa using ne_nil_of_mem hfile

theorem exported_of_exportDeltaFrom (h : exportDeltaFrom exporter clientIds version = .ok delta) :
    Exported exporter clientIds delta := by
  rw [exportDeltaFrom] at h
  split at h
  · cases h
  obtain ⟨manifest, hmanifest, h⟩ := bind_eq_ok.mp h
  obtain ⟨currentIds, hids, h⟩ := bind_eq_ok.mp h
  obtain ⟨added, hadded, h⟩ := bind_eq_ok.mp h
  obtain ⟨changed, hchanged, h⟩ := bind_eq_ok.mp h
  cases h
  refine ⟨hmanifest, rfl, currentIds, hids, ?_, fun id => by simp, ?_⟩
  · -- one of the two traversals has read the bundle
    intro id hid
    by_cases hclient : id ∈ clientIds
    · obtain ⟨_, -, hb⟩ := (mapM_ok_mem hchanged).1 id (by simp [hid, hclient])
      obtain ⟨files, hfiles, -⟩ := bundleWith_eq_ok.mp hb
      exact ⟨files, hfiles⟩
    · obtain ⟨_, -, hb⟩ := (mapM_ok_mem hadded).1 id (by simp [hid, hclient])
      obtain ⟨files, hfiles, -⟩ := bundleWith_eq_ok.mp hb
      exact ⟨files, hfiles⟩
  · intro file
    have hfiles : file ∈ IndexDelta.addedFiles ⟨version, computeVersionFromBytes manifest,
          added ++ changed.filter fun bundle => !bundle.files.isEmpty,
          clientIds.filter fun id => !currentIds.contains id, manifest, exporter.readConfig⟩ ↔
        (∃ bundle ∈ added, file ∈ bundle.files) ∨ ∃ bundle ∈ changed, file ∈ bundle.files := by
      rw [← exists_mem_filter_files changed]
      simp only [IndexDelta.addedFiles, mem_flatMap, mem_append, or_and_right, exists_or]
    rw [hfiles, mem_files_of_mapM hadded, mem_files_of_mapM hchanged]
    constructor
    · rintro (⟨id, hid, files, hread, hmem⟩ | ⟨id, hid, files, hread, hmem⟩)
      · simp only [mem_filter, Bool.not_eq_true', contains_eq_mem, decide_eq_false_iff_not] at hid
        exact ⟨id, hid.1, files, hread, hmem, fun hc => absurd hc hid.2⟩
      · obtain ⟨hmem, hdel⟩ := mem_filter.mp hmem
        exact ⟨id, mem_of_mem_filter hid, files, hread, hmem, fun _ => hdel⟩
    · rintro ⟨id, hid, files, hread, hmem, hdel⟩
      by_cases hclient : id ∈ clientIds
      · exact .inr ⟨id, by simp [hid, hclient], files, hread, mem_filter.mpr ⟨hmem, hdel hclient⟩⟩
      · exact .inl ⟨id, by simp [hid, hclient], files, hread, hmem⟩

end Export

end Lucivy.Lucistore
