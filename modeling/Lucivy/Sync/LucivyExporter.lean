import Mathlib.Data.List.DropRight
import Mathlib.Data.List.Nodup
import Lucivy.Index.IndexMeta
import Lucivy.Lucistore.ExportDelta

/-! # The exporter of a lucivy index

`LucivyDeltaExporter` (`lucivy_core/src/sync.rs`): the bundles of an index are its segments, the
generations of the shard dictionary and the pairs of the pending segments, and the files of a
bundle are found again from its id. A pair travels under the naming its texts have in the
directory; of the naming before 4.3 the exporter finds the suffix file only, because it appends
`termtexts` where that naming has `texts`.

* `ServerIndex` — a directory, its manifest and how it is read.
* `lucivyExporter` — the exporter.
* `readBundleFiles_segment`, `readBundleFiles_generation`, `readBundleFiles_pair` — **an id leads
  back to its bundle.**
* `Shipped`, `mem_addedFiles_iff` — the files of an exported delta. -/

namespace Lucivy.Sync

open Lucivy.Foundation Lucivy.Index Lucivy.Lucistore List

/-- The files of an index directory, by name. -/
abbrev Directory := FileName → Option Bytes

/-- **The index an exporter reads.** -/
structure ServerIndex where
  directory : Directory
  /-- `parse_metas`, the reading of the JSON. -/
  parseMetas : Bytes → Option IndexMeta
  uncommitted : Bool
  /-- The order in which a set of ids is gone through. -/
  order : List FileName → List FileName
  /-- An order leaves no id out and brings none in. -/
  mem_order : ∀ ids id, id ∈ order ids ↔ id ∈ ids

namespace ServerIndex

/-- `snapshot`: `meta.json` read once, with what it says. -/
def snapshot (server : ServerIndex) : Except String (Bytes × IndexMeta) :=
  match server.directory metaName with
  | none => .error "cannot read meta.json"
  | some bytes =>
    match server.parseMetas bytes with
    | none => .error "cannot load index metas"
    | some manifest => .ok (bytes, manifest)

end ServerIndex

/-! ## Bundle ids -/

/-- The end of a pair's bundle id. -/
def mintedEnd : FileName := "minted.".toList

/-- The end of a pair's bundle id before 4.3. -/
def legacyEnd : FileName := "new".toList

/-- The bundle id of a pair, by the naming its texts have in the directory. -/
def pairBundleId (directory : Directory) (segment : SegmentId) (fieldId : Nat) : FileName :=
  if (directory (pairFile segment fieldId legacyMintedTextsExt)).isSome then
    pairFile segment fieldId legacyEnd
  else pairFile segment fieldId mintedEnd

def dictionaryBundleIds (directory : Directory) (dictionary : SfxDictionaryMeta) :
    List FileName :=
  dictionary.generations.map (fun generation => dictionaryBundleId generation.toNat) ++
    dictionary.pendingSegments.flatMap fun segment =>
      dictionary.fieldIds.map (pairBundleId directory segment)

/-- The bundle ids of a manifest. -/
def bundleIds (directory : Directory) (manifest : IndexMeta) : List FileName :=
  manifest.segmentIds ++ manifest.sfxDictionary.toList.flatMap (dictionaryBundleIds directory)

/-- How many dots a name has. -/
def dots (name : FileName) : Nat := name.count '.'

/-- The test for a pair's bundle id. -/
def isPairBundle (id : FileName) : Bool :=
  (('.' :: mintedEnd).isSuffixOf id && dots id == 3) ||
    (('.' :: legacyEnd).isSuffixOf id && dots id == 2)

/-- `str::parse::<u64>`. -/
def parseU64 (text : FileName) : Option Nat :=
  let digits := if text.head? = some '+' then text.tail else text
  if digits ≠ [] ∧ digits.all Char.isDigit = true ∧ Nat.ofDigitChars 10 digits 0 < 2 ^ 64 then
    some (Nat.ofDigitChars 10 digits 0)
  else none

/-- `trim_end_matches('.')`. -/
def trimDots (text : FileName) : FileName := (text.reverse.dropWhile (· == '.')).reverse

/-- The generation a bundle id names. -/
def bundleGeneration (id : FileName) : Option Nat :=
  if "dict-".toList.isPrefixOf id then parseU64 (trimDots (id.drop 5)) else none

/-! ## The files of a bundle -/

/-- The files of these names that exist. -/
def existing (directory : Directory) (names : List FileName) : List (FileName × Bytes) :=
  names.filterMap fun name => (directory name).map fun data => (name, data)

/-- The names looked for under a pair's bundle id. -/
def pairBundleNames (id : FileName) : List FileName :=
  [id ++ "sfx".toList, id ++ "termtexts".toList]

/-- A file that has to be there and is not; a generation may lack its group index. -/
def isMissing (directory : Directory) (name : FileName) : Bool :=
  !((directory name).isSome || ('.' :: groupIndexExt).isSuffixOf name)

/-- The files of a generation; what the error says about the cause is left out. -/
def generationFiles (directory : Directory) (names : List FileName) :
    Except String (List (FileName × Bytes)) :=
  match names.find? (isMissing directory) with
  | none => .ok (existing directory names)
  | some name =>
    let path := String.ofList name
    .error s!"cannot read '{path}'"

def readBundleFiles (directory : Directory) (manifest : IndexMeta) (id : FileName) :
    Except String (List (FileName × Bytes)) :=
  if isPairBundle id then .ok (existing directory (pairBundleNames id))
  else
    match bundleGeneration id with
    | some generation =>
      generationFiles directory
        (manifest.sfxDictionary.toList.flatMap fun dictionary => dictionary.filesOf generation)
    | none =>
      match manifest.segments.find? fun segment => segment.id.uuidString = id with
      | none =>
        let bundle := String.ofList id
        .error s!"segment {bundle} not found in meta"
      | some segment => .ok (existing directory (manifest.segmentFiles segment))

/-- **`LucivyDeltaExporter`.** -/
def lucivyExporter (server : ServerIndex) : DeltaExporter where
  currentBundleIds := do
    let snapshot ← server.snapshot
    .ok (server.order (bundleIds server.directory snapshot.2))
  readManifest := do
    let snapshot ← server.snapshot
    .ok snapshot.1
  readBundleFiles id := do
    let snapshot ← server.snapshot
    readBundleFiles server.directory snapshot.2 id
  readConfig := server.directory configName
  hasUncommitted := server.uncommitted

/-! ## An id leads back to its bundle -/

section Bundles

variable {directory : Directory} {manifest : IndexMeta} {segment : SegmentMeta}

/-- The files that exist. -/
theorem mem_existing {names : List FileName} {file : FileName × Bytes} :
    file ∈ existing directory names ↔ file.1 ∈ names ∧ directory file.1 = some file.2 := by
  obtain ⟨name, data⟩ := file
  simp [existing]

theorem dots_eq_zero {text : FileName} (h : '.' ∉ text) : dots text = 0 := count_eq_zero.mpr h

theorem dot_not_mem_uuidString (id : SegmentId) : '.' ∉ id.uuidString := id.not_mem (by decide)

theorem isPairBundle_eq_false {id : FileName} (h : dots id < 2) : isPairBundle id = false := by
  have h3 : (dots id == 3) = false := beq_eq_false_iff_ne.mpr (by omega)
  have h2 : (dots id == 2) = false := beq_eq_false_iff_ne.mpr (by omega)
  rw [isPairBundle, h3, h2, Bool.and_false, Bool.and_false]
  rfl

theorem bundleGeneration_uuidString (id : SegmentId) (rest : FileName) :
    bundleGeneration (id.uuidString ++ rest) = none := by
  refine if_neg fun h => ?_
  rw [ isPrefixOf_iff_prefix] at h
  obtain ⟨tail, htail⟩ := h
  exact id.append_ne_dict rest tail htail.symm

/-- **A segment's id.** -/
theorem readBundleFiles_segment (hsegment : segment ∈ manifest.segments) :
    readBundleFiles directory manifest segment.id.uuidString =
      .ok (existing directory (manifest.segmentFiles segment)) := by
  have hpair : isPairBundle segment.id.uuidString = false :=
    isPairBundle_eq_false (by rw [dots_eq_zero (dot_not_mem_uuidString _)]; decide)
  have hgeneration : bundleGeneration segment.id.uuidString = none := by
    simpa using bundleGeneration_uuidString segment.id []
  have hfind : manifest.segments.find? (fun s => s.id.uuidString = segment.id.uuidString) =
      some segment := by
    cases hfound : manifest.segments.find? fun s => s.id.uuidString = segment.id.uuidString with
    | none => simpa using find?_eq_none.mp hfound segment hsegment
    | some found =>
      have hid : found.id = segment.id := SegmentId.ext_uuidString
        (by simpa using find?_some hfound)
      have hmem := mem_of_find?_eq_some hfound
      rw [inj_on_of_nodup_map manifest.nodup hmem hsegment hid]
  rw [readBundleFiles, if_neg (by rw [hpair]; decide), hgeneration]
  simp only [hfind]

/-- A number is read back. -/
theorem parseU64_decimal {n : Nat} (h : n < 2 ^ 64) : parseU64 (decimal n) = some n := by
  have hread : Nat.ofDigitChars 10 (decimal n) 0 = n :=
    Nat.ofDigitChars_toDigits (by decide) (le_refl 10)
  have hhead : (decimal n).head? ≠ some '+' := fun hplus =>
    absurd (mem_decimal (mem_of_mem_head? hplus)) (by decide)
  have hall : (decimal n).all Char.isDigit = true := all_eq_true.mpr fun c hc => mem_decimal hc
  simp only [parseU64, if_neg hhead, hread]
  exact if_pos ⟨decimal_ne_nil n, hall, h⟩

theorem trimDots_decimal (n : Nat) : trimDots (decimal n ++ ['.']) = decimal n := by
  change (decimal n ++ ['.']).rdropWhile (· == '.') = _
  rw [rdropWhile_concat_pos _ _ _ (by decide), rdropWhile_eq_self_iff]
  intro hne hlast
  exact dot_not_mem_decimal n (beq_iff_eq.mp hlast ▸ getLast_mem hne)

/-- So is a generation's id. -/
theorem bundleGeneration_dictionaryBundleId (generation : UInt64) :
    bundleGeneration (dictionaryBundleId generation.toNat) = some generation.toNat := by
  have hbegins : "dict-".toList.isPrefixOf (dictionaryBundleId generation.toNat) = true := by
    rw [ isPrefixOf_iff_prefix, dictionaryBundleId, append_assoc]
    exact prefix_append _ _
  have hdrop : (dictionaryBundleId generation.toNat).drop 5 =
    decimal generation.toNat ++ ['.'] := by
    rfl
  rw [bundleGeneration, if_pos hbegins, hdrop, trimDots_decimal]
  exact parseU64_decimal generation.toNat_lt

theorem dots_dictionaryBundleId (generation : Nat) : dots (dictionaryBundleId generation) = 1 := by
  rw [dots, dictionaryBundleId, count_append, count_append,
    count_eq_zero.mpr (dot_not_mem_decimal generation)]
  decide

/-- **A generation's id.** -/
theorem readBundleFiles_generation (generation : UInt64) :
    readBundleFiles directory manifest (dictionaryBundleId generation.toNat) =
      generationFiles directory (manifest.sfxDictionary.toList.flatMap fun dictionary =>
        dictionary.filesOf generation.toNat) := by
  have hpair : isPairBundle (dictionaryBundleId generation.toNat) = false :=
    isPairBundle_eq_false (by rw [dots_dictionaryBundleId]; decide)
  rw [readBundleFiles, if_neg (by rw [hpair]; decide), bundleGeneration_dictionaryBundleId]

theorem dots_pairFile (id : SegmentId) (fieldId : Nat) (rest : FileName) :
    dots (pairFile id fieldId rest) = 2 + dots rest := by
  have hid := count_eq_zero.mpr (dot_not_mem_uuidString id)
  have hfield := count_eq_zero.mpr (dot_not_mem_decimal fieldId)
  rw [dots, dots, pairFile, fieldExtension, count_append, count_cons_self,
    count_append, count_cons_self]
  omega

/-- A pair's id is told apart. -/
theorem isPairBundle_pairBundleId (id : SegmentId) (fieldId : Nat) :
    isPairBundle (pairBundleId directory id fieldId) = true := by
  have hsuffix (rest : FileName) : ('.' :: rest).isSuffixOf (pairFile id fieldId rest) = true := by
    rw [isSuffixOf_iff_suffix, pairFile, fieldExtension]
    exact ⟨id.uuidString ++ '.' :: decimal fieldId, by simp⟩
  rw [pairBundleId, isPairBundle]
  split
  · rw [hsuffix legacyEnd, dots_pairFile, show dots legacyEnd = 0 by decide]
    simp
  · rw [hsuffix mintedEnd, dots_pairFile, show dots mintedEnd = 1 by decide]
    simp

/-- **A pair's id.** -/
theorem readBundleFiles_pair (id : SegmentId) (fieldId : Nat) :
    readBundleFiles directory manifest (pairBundleId directory id fieldId) =
      .ok (existing directory (pairBundleNames (pairBundleId directory id fieldId))) := by
  rw [readBundleFiles, if_pos (isPairBundle_pairBundleId id fieldId)]

end Bundles

/-! ## The files of an exported delta -/

/-- **The names a delta for a client carries**, where they exist: segments the client lacks, the
deletions of those it has, every generation, and every pair as its bundle finds it. -/
def Shipped (directory : Directory) (manifest : IndexMeta) (clientIds : List FileName)
    (name : FileName) : Prop :=
  (∃ segment ∈ manifest.segments, name ∈ manifest.segmentFiles segment ∧
    (segment.id.uuidString ∈ clientIds → isDeleteFile name = true)) ∨
  ∃ dictionary, manifest.sfxDictionary = some dictionary ∧
    ((∃ generation ∈ dictionary.generations, name ∈ dictionary.filesOf generation.toNat) ∨
      ∃ segment ∈ dictionary.pendingSegments, ∃ fieldId ∈ dictionary.fieldIds,
        name ∈ pairBundleNames (pairBundleId directory segment fieldId))

section Shipping

variable {server : ServerIndex} {bytes : Bytes} {manifest old : IndexMeta} {delta : IndexDelta}
  {directory : Directory} {id : FileName}

/-- **The bundles of an index.** -/
theorem mem_bundleIds :
    id ∈ bundleIds directory manifest ↔
      (∃ segment ∈ manifest.segments, id = segment.id.uuidString) ∨
      ∃ dictionary, manifest.sfxDictionary = some dictionary ∧
        ((∃ generation ∈ dictionary.generations, id = dictionaryBundleId generation.toNat) ∨
          ∃ segment ∈ dictionary.pendingSegments, ∃ fieldId ∈ dictionary.fieldIds,
            id = pairBundleId directory segment fieldId) := by
  simp [bundleIds, IndexMeta.segmentIds, dictionaryBundleIds, eq_comm (a := id)]

/-- The client's ids are those of segments, so a name with a dot is none of them. -/
theorem not_mem_segmentIds (h : 0 < dots id) : id ∉ old.segmentIds := by
  intro hmem
  obtain ⟨segment, -, rfl⟩ := mem_map.mp hmem
  rw [dots_eq_zero (dot_not_mem_uuidString _)] at h
  exact absurd h (lt_irrefl 0)

theorem dots_pairBundleId_pos (directory : Directory) (segment : SegmentId) (fieldId : Nat) :
    0 < dots (pairBundleId directory segment fieldId) := by
  rw [pairBundleId]
  split <;> rw [dots_pairFile] <;> omega

/-- A generation read whole. -/
theorem generationFiles_eq_ok {names : List FileName} {files : List (FileName × Bytes)}
    (h : generationFiles directory names = .ok files) : files = existing directory names := by
  rw [generationFiles] at h
  split at h
  · exact (Except.ok.inj h).symm
  · cases h

/-- The ids exported. -/
theorem currentBundleIds_eq (hsnapshot : server.snapshot = .ok (bytes, manifest)) :
    (lucivyExporter server).currentBundleIds =
      .ok (server.order (bundleIds server.directory manifest)) := by
  simp only [lucivyExporter, hsnapshot]
  rfl

theorem exporter_readBundleFiles_eq (hsnapshot : server.snapshot = .ok (bytes, manifest)) :
    (lucivyExporter server).readBundleFiles id = readBundleFiles server.directory manifest id := by
  simp only [lucivyExporter, hsnapshot]
  rfl

/-- A delta exported by a server at `manifest` for a client at `old`. -/
structure DeltaFor (server : ServerIndex) (manifest old : IndexMeta) (delta : IndexDelta) :
    Prop where
  /-- The manifest it carries. -/
  snapshot : server.snapshot = .ok (delta.metaJson, manifest)
  /-- The rest. -/
  exported : Exported (lucivyExporter server) old.segmentIds delta

/-- **What the exporter sends.** -/
theorem deltaFor {version : Text} (hsnapshot : server.snapshot = .ok (bytes, manifest))
    (hexport : exportDeltaFrom (lucivyExporter server) old.segmentIds version = .ok delta) :
    DeltaFor server manifest old delta := by
  have hexported := exported_of_exportDeltaFrom hexport
  have hread : (lucivyExporter server).readManifest = .ok bytes := by
    simp only [lucivyExporter, hsnapshot]
    rfl
  refine ⟨?_, hexported⟩
  rw [Except.ok.inj (hexported.manifest.symm.trans hread), hsnapshot]

/-- **The files of an exported delta** are the server's, of the names shipped. -/
theorem mem_addedFiles_iff (hdelta : DeltaFor server manifest old delta) (file : FileName × Bytes) :
    file ∈ delta.addedFiles ↔
      server.directory file.1 = some file.2 ∧
        Shipped server.directory manifest old.segmentIds file.1 := by
  obtain ⟨currentIds, hids, hread, -, hadded⟩ := hdelta.exported.bundles
  obtain rfl : server.order (bundleIds server.directory manifest) = currentIds :=
    Except.ok.inj ((currentBundleIds_eq hdelta.snapshot).symm.trans hids)
  simp only [server.mem_order, exporter_readBundleFiles_eq hdelta.snapshot] at hread hadded
  rw [hadded]
  constructor
  · rintro ⟨id, hid, files, hfiles, hmem, hdel⟩
    rcases mem_bundleIds.mp hid with ⟨segment, hsegment, rfl⟩ |
      ⟨dictionary, hdictionary, ⟨generation, hgeneration, rfl⟩ |
        ⟨segment, hsegment, fieldId, hfield, rfl⟩⟩
    · rw [readBundleFiles_segment hsegment] at hfiles
      obtain rfl := Except.ok.inj hfiles
      obtain ⟨hname, hdata⟩ := mem_existing.mp hmem
      exact ⟨hdata, .inl ⟨segment, hsegment, hname, hdel⟩⟩
    · rw [readBundleFiles_generation] at hfiles
      rw [generationFiles_eq_ok hfiles, mem_existing, hdictionary] at hmem
      obtain ⟨hname, hdata⟩ := hmem
      refine ⟨hdata, .inr ⟨dictionary, hdictionary, .inl ⟨generation, hgeneration, ?_⟩⟩⟩
      simpa using hname
    · rw [readBundleFiles_pair] at hfiles
      obtain rfl := Except.ok.inj hfiles
      obtain ⟨hname, hdata⟩ := mem_existing.mp hmem
      exact ⟨hdata,
        .inr ⟨dictionary, hdictionary, .inr ⟨segment, hsegment, fieldId, hfield, hname⟩⟩⟩
  · rintro ⟨hdata, ⟨segment, hsegment, hname, hdel⟩ |
      ⟨dictionary, hdictionary, ⟨generation, hgeneration, hname⟩ |
        ⟨segment, hsegment, fieldId, hfield, hname⟩⟩⟩
    · exact ⟨_, mem_bundleIds.mpr (.inl ⟨segment, hsegment, rfl⟩), _,
        readBundleFiles_segment hsegment, mem_existing.mpr ⟨hname, hdata⟩, hdel⟩
    · have hid : dictionaryBundleId generation.toNat ∈ bundleIds server.directory manifest :=
        mem_bundleIds.mpr (.inr ⟨dictionary, hdictionary, .inl ⟨generation, hgeneration, rfl⟩⟩)
      obtain ⟨files, hfiles⟩ := hread _ hid
      have hexisting := hfiles
      rw [readBundleFiles_generation] at hexisting
      refine ⟨_, hid, files, hfiles, ?_, fun hclient => absurd hclient (not_mem_segmentIds ?_)⟩
      · rw [generationFiles_eq_ok hexisting, mem_existing, hdictionary]
        exact ⟨by simpa using hname, hdata⟩
      · rw [dots_dictionaryBundleId]
        exact Nat.one_pos
    · have hid : pairBundleId server.directory segment fieldId ∈
          bundleIds server.directory manifest :=
        mem_bundleIds.mpr
          (.inr ⟨dictionary, hdictionary, .inr ⟨segment, hsegment, fieldId, hfield, rfl⟩⟩)
      exact ⟨_, hid, _, readBundleFiles_pair segment fieldId, mem_existing.mpr ⟨hname, hdata⟩,
        fun hclient => absurd hclient
          (not_mem_segmentIds (dots_pairBundleId_pos _ segment fieldId))⟩

/-- **What an exported delta removes**: names that begin with the id of a client's segment that the
manifest no longer lists. -/
theorem removes_iff (hdelta : DeltaFor server manifest old delta) (name : FileName) :
    delta.removes name = true ↔
      ∃ segment ∈ old.segments, segment.id ∉ manifest.segments.map SegmentMeta.id ∧
        segment.id.uuidString.isPrefixOf name = true := by
  obtain ⟨currentIds, hids, -, hremoved, -⟩ := hdelta.exported.bundles
  obtain rfl : server.order (bundleIds server.directory manifest) = currentIds :=
    Except.ok.inj ((currentBundleIds_eq hdelta.snapshot).symm.trans hids)
  simp only [server.mem_order] at hremoved
  -- an id without a dot is among the bundles only as a segment
  have hcurrent (segment : SegmentMeta) :
      segment.id.uuidString ∈ bundleIds server.directory manifest ↔
        segment.id ∈ manifest.segments.map SegmentMeta.id := by
    have hdots := dots_eq_zero (dot_not_mem_uuidString segment.id)
    rw [mem_bundleIds, mem_map]
    constructor
    · rintro (⟨listed, hlisted, heq⟩ | ⟨dictionary, -, ⟨generation, -, heq⟩ |
        ⟨pending, -, fieldId, -, heq⟩⟩)
      · exact ⟨listed, hlisted, (SegmentId.ext_uuidString heq).symm⟩
      · rw [heq, dots_dictionaryBundleId] at hdots
        cases hdots
      · have hpos := dots_pairBundleId_pos server.directory pending fieldId
        rw [← heq, hdots] at hpos
        exact absurd hpos (lt_irrefl 0)
    · rintro ⟨listed, hlisted, heq⟩
      exact .inl ⟨listed, hlisted, by rw [heq]⟩
  rw [IndexDelta.removes, any_eq_true]
  constructor
  · rintro ⟨id, hid, hbegins⟩
    obtain ⟨hclient, hgone⟩ := (hremoved id).mp hid
    obtain ⟨segment, hsegment, rfl⟩ := mem_map.mp hclient
    exact ⟨segment, hsegment, mt (hcurrent segment).mpr hgone, hbegins⟩
  · rintro ⟨segment, hsegment, hgone, hbegins⟩
    exact ⟨_, (hremoved _).mpr ⟨mem_map_of_mem hsegment, mt (hcurrent segment).mp hgone⟩, hbegins⟩

end Shipping

end Lucivy.Sync
