import Lucivy.Foundation.FileSystem

/-! # The manifest and the files it names

What `meta.json` says about files (`src/index/index_meta.rs`, `segment_component.rs`,
`suffix_fst/dictionary.rs`): the segments with their components, the generations of the shard
dictionary, and the pairs of the segments whose texts no generation has taken in yet. Every file of
a segment, and every pair, begins with the segment's id; every generation's file with `dict-`.

* `SegmentId` — 32 lower-case hexadecimal digits.
* `SegmentMeta.listFilesFor`, `SfxDictionaryMeta.files`, `IndexMeta.liveFiles` — the names.
* `isPrefixOf_segmentFile` — **an id begins the file of its own segment only**;
  `not_isPrefixOf_dictionaryFile` — and no generation's.
* `listFilesFor_shape`, `pairFile_ne_segmentFile` — the names of a segment's files, and that no
  pair has one of them. -/

namespace Lucivy.Index

open Lucivy.Foundation List

/-- A lower-case hexadecimal digit. -/
def isHexDigit (c : Char) : Bool := "0123456789abcdef".toList.contains c

/-- **A segment's id**, as `uuid_string` writes it. -/
structure SegmentId where
  uuidString : FileName
  hex : ∀ c ∈ uuidString, isHexDigit c = true
  /-- 128 bits. -/
  length : uuidString.length = 32
deriving DecidableEq

/-- A number as `format!` writes it. -/
def decimal (n : Nat) : FileName := Nat.toDigits 10 n

/-! ## The components of a segment -/

inductive SegmentComponent where
  | postings
  | positions
  | fastFields
  | fieldNorms
  | terms
  | store
  | tempStore
  | delete
  | offsets
  | suffixFst (fieldId : Nat)
  | suffixPost (fieldId : Nat)
  | posMap (fieldId : Nat)
  | byteMap (fieldId : Nat)
  | customSfxIndex (fieldId : Nat) (extension : FileName)
deriving DecidableEq, Repr

/-- A per-field extension. -/
def fieldExtension (fieldId : Nat) (extension : FileName) : FileName :=
  decimal fieldId ++ '.' :: extension

def SegmentComponent.extension : SegmentComponent → FileName
  | .postings => "idx".toList
  | .positions => "pos".toList
  | .fastFields => "fast".toList
  | .fieldNorms => "fieldnorm".toList
  | .terms => "term".toList
  | .store => "store".toList
  | .tempStore => "temp_store".toList
  | .delete => "del".toList
  | .offsets => "offsets".toList
  | .suffixFst f => fieldExtension f "sfx".toList
  | .suffixPost f => fieldExtension f "sfxpost".toList
  | .posMap f => fieldExtension f "posmap".toList
  | .byteMap f => fieldExtension f "bytemap".toList
  | .customSfxIndex f extension => fieldExtension f extension

/-- `SegmentComponent::fixed_components`. -/
def fixedComponents : List SegmentComponent :=
  [.postings, .positions, .fastFields, .fieldNorms, .terms, .store, .tempStore, .delete, .offsets]

def anySfxVersion : Nat := 0

def dictionarySfxVersion : Nat := 4

/-- A file of the registry: its extension and the versions it is written for. -/
structure SfxIndexFile where
  extension : FileName
  writtenFor : Nat → Bool

def allIndexes : List SfxIndexFile :=
  [⟨"sfxpost".toList, fun _ => true⟩, ⟨"gapmap".toList, fun v => v < 3⟩,
   ⟨"sibling".toList, fun v => v < 3⟩,
   ⟨"sepmap".toList, fun v => v < 3⟩,
   ⟨"posmap".toList, fun _ => true⟩,
   ⟨"bytemap".toList, fun v => v < 3⟩,
   ⟨"termtexts".toList, fun v => v ≠ dictionarySfxVersion⟩,
   ⟨"word_pos_map".toList, fun v => 3 ≤ v⟩,
   ⟨"word_sfxpost".toList, fun v => 3 ≤ v⟩,
   ⟨"sibling_v3".toList, fun v => 3 ≤ v⟩,
   ⟨"gmap".toList, fun v => v = dictionarySfxVersion⟩]

def derivedExtensions : List FileName :=
  ["posmap".toList, "word_pos_map".toList, "sibling_v3".toList]

/-- The registry files of one field in `components_for`. -/
def registryComponents (sfxVersion : Nat) (derivedInRam : Bool) (fieldId : Nat) :
    List SegmentComponent :=
  (allIndexes.filter fun file =>
      (sfxVersion = anySfxVersion ∨ file.writtenFor sfxVersion = true) ∧
        ¬ (derivedInRam = true ∧ file.extension ∈ derivedExtensions)).map fun file =>
    .customSfxIndex fieldId file.extension

/-- `SegmentComponent::components_for`. A segment of a dictionary index has no `.sfx`. -/
def componentsFor (sfxFieldIds : List Nat) (sfxVersion : Nat) (derivedInRam : Bool) :
    List SegmentComponent :=
  fixedComponents ++ sfxFieldIds.flatMap fun fieldId =>
    (if sfxVersion ≠ dictionarySfxVersion then [.suffixFst fieldId] else []) ++
      registryComponents sfxVersion derivedInRam fieldId

/-! ## Segments -/

/-- `SegmentMeta`: what its file list reads. -/
structure SegmentMeta where
  id : SegmentId
  deleteOpstamp : Option Nat
  sfxFieldIds : List Nat
  /-- `include_temp_doc_store`; unset in a manifest read from disk. -/
  includeTempDocStore : Bool := false
deriving DecidableEq

namespace SegmentMeta

/-- What `relative_path` puts behind the id. -/
def pathSuffix (segment : SegmentMeta) : SegmentComponent → FileName
  | .delete => '.' :: decimal (segment.deleteOpstamp.getD 0) ++ ".del".toList
  | .tempStore => ".store.temp".toList
  | other => '.' :: other.extension

/-- `SegmentMeta::relative_path`. -/
def relativePath (segment : SegmentMeta) (component : SegmentComponent) : FileName :=
  segment.id.uuidString ++ segment.pathSuffix component

/-- `SegmentMeta::list_files_for`. -/
def listFilesFor (segment : SegmentMeta) (sfxVersion : Nat) (derivedInRam : Bool) :
    List FileName :=
  ((componentsFor segment.sfxFieldIds sfxVersion derivedInRam).filter fun component =>
      (segment.includeTempDocStore = true ∨ component ≠ .tempStore) ∧
        (segment.deleteOpstamp.isSome = true ∨ component ≠ .delete)).map segment.relativePath

end SegmentMeta

/-! ## The shard dictionary -/

/-- `dictionary_bundle_id`: begins the name of every file of the generation. -/
def dictionaryBundleId (generation : Nat) : FileName :=
  "dict-".toList ++ decimal generation ++ ['.']

def dictionaryFileName (generation fieldId : Nat) (extension : FileName) : FileName :=
  dictionaryBundleId generation ++ fieldExtension fieldId extension

def groupIndexExt : FileName := "pidx".toList

def generationExtensions : List FileName := ["sfx".toList, "termtexts".toList, groupIndexExt]

/-- A file of a segment's pair for one field. -/
def pairFile (segment : SegmentId) (fieldId : Nat) (extension : FileName) : FileName :=
  segment.uuidString ++ '.' :: fieldExtension fieldId extension

def mintedSfxExt : FileName := "minted.sfx".toList

def mintedTextsExt : FileName := "minted.termtexts".toList

def legacyMintedSfxExt : FileName := "newsfx".toList

def legacyMintedTextsExt : FileName := "newtexts".toList

/-- `pair_file_names`, flat: the current names, then the ones before 4.3. -/
def pairFileNames (segment : SegmentId) (fieldId : Nat) : List FileName :=
  [mintedSfxExt, mintedTextsExt, legacyMintedSfxExt, legacyMintedTextsExt].map
    (pairFile segment fieldId)

/-- `SfxDictionaryMeta`: what its file list reads. -/
structure SfxDictionaryMeta where
  generations : List UInt64
  fieldIds : List Nat
  pendingSegments : List SegmentId
deriving DecidableEq

namespace SfxDictionaryMeta

/-- `SfxDictionaryMeta::files_of`. -/
def filesOf (dictionary : SfxDictionaryMeta) (generation : Nat) : List FileName :=
  dictionary.fieldIds.flatMap fun fieldId =>
    generationExtensions.map (dictionaryFileName generation fieldId)

/-- `SfxDictionaryMeta::pair_files`. -/
def pairFiles (dictionary : SfxDictionaryMeta) (segment : SegmentId) : List FileName :=
  dictionary.fieldIds.flatMap (pairFileNames segment)

/-- `SfxDictionaryMeta::files`. -/
def files (dictionary : SfxDictionaryMeta) : List FileName :=
  dictionary.generations.flatMap (fun generation => dictionary.filesOf generation.toNat) ++
    dictionary.pendingSegments.flatMap dictionary.pairFiles

end SfxDictionaryMeta

/-! ## The manifest -/

/-- `IndexMeta`: what the file lists read. -/
structure IndexMeta where
  segments : List SegmentMeta
  /-- `index_settings.sfx_version`. -/
  sfxVersion : Nat
  /-- `index_settings.derived_in_ram`. -/
  derivedInRam : Bool
  /-- `index_settings.positions`. -/
  positions : Bool
  sfxDictionary : Option SfxDictionaryMeta
  nodup : (segments.map SegmentMeta.id).Nodup
deriving DecidableEq

namespace IndexMeta

/-- `IndexSettings::skips_derived_files`. -/
def skipsDerivedFiles (manifest : IndexMeta) : Bool := manifest.derivedInRam || !manifest.positions

/-- The files of a segment, as the manifest's settings have them written. -/
def segmentFiles (manifest : IndexMeta) (segment : SegmentMeta) : List FileName :=
  segment.listFilesFor manifest.sfxVersion manifest.skipsDerivedFiles

/-- `IndexMeta::dictionary_files`. -/
def dictionaryFiles (manifest : IndexMeta) : List FileName :=
  manifest.sfxDictionary.toList.flatMap SfxDictionaryMeta.files

/-- **The files the manifest names**: the list `read_live_files` takes into a snapshot. -/
def liveFiles (manifest : IndexMeta) : List FileName :=
  manifest.segments.flatMap manifest.segmentFiles ++ manifest.dictionaryFiles

def segmentIds (manifest : IndexMeta) : List FileName :=
  manifest.segments.map fun segment => segment.id.uuidString

end IndexMeta

/-! ## What a name begins with -/

section Names

variable {id id' : SegmentId} {rest : FileName}

theorem isHexDigit_ne {c d : Char} (hc : isHexDigit c = true) (hd : isHexDigit d = false) :
    c ≠ d := by
  rintro rfl
  rw [hc] at hd
  cases hd

theorem SegmentId.not_mem (id : SegmentId) {c : Char} (hc : isHexDigit c = false) :
    c ∉ id.uuidString :=
  fun hmem => isHexDigit_ne (id.hex c hmem) hc rfl

theorem SegmentId.ext_uuidString (h : id.uuidString = id'.uuidString) : id = id' := by
  cases id
  cases h
  rfl

/-- Ids are of one length, so an id begins a name only as the id the name begins with. -/
theorem isPrefixOf_segmentFile :
    id.uuidString.isPrefixOf (id'.uuidString ++ rest) = true ↔ id = id' := by
  rw [ isPrefixOf_iff_prefix]
  constructor
  · intro h
    have hle : id.uuidString.length ≤ id'.uuidString.length := by rw [id.length, id'.length]
    have hbegins := prefix_of_prefix_length_le h (prefix_append _ _) hle
    exact SegmentId.ext_uuidString (hbegins.eq_of_length (by rw [id.length, id'.length]))
  · rintro rfl
    exact prefix_append _ _

/-- The second letter of `dict-` is no hexadecimal digit. -/
theorem SegmentId.append_ne_dict (id : SegmentId) (rest tail : FileName) :
    id.uuidString ++ rest ≠ "dict-".toList ++ tail := by
  intro h
  match hid : id.uuidString, id.length, id.not_mem (show isHexDigit 'i' = false by decide) with
  | c :: d :: digits, _, hmem =>
    rw [hid] at h
    have hd : d = 'i' := by
      have := congrArg (fun l => l[1]?) h
      simpa using this
    exact hmem (by rw [hd]; exact mem_cons_of_mem _ mem_cons_self)

theorem not_isPrefixOf_dictionaryFile :
    id.uuidString.isPrefixOf ("dict-".toList ++ rest) = false := by
  rw [← Bool.not_eq_true, isPrefixOf_iff_prefix]
  rintro ⟨tail, htail⟩
  exact id.append_ne_dict tail rest htail

theorem mem_decimal {n : Nat} {c : Char} (h : c ∈ decimal n) : c.isDigit = true :=
  Nat.isDigit_of_mem_toDigits (by decide) (by decide) h

theorem dot_not_mem_decimal (n : Nat) : '.' ∉ decimal n :=
  fun h => absurd (mem_decimal h) (by decide)

theorem decimal_ne_nil (n : Nat) : decimal n ≠ [] := Nat.toDigits_ne_nil

theorem decimal_injective {m n : Nat} (h : decimal m = decimal n) : m = n := by
  have hread := congrArg (fun digits => Nat.ofDigitChars 10 digits 0) h
  simpa only [decimal, Nat.ofDigitChars_toDigits (show 1 < 10 by decide) (Nat.le_refl 10)]
    using hread

/-- What stands before the first dot, and behind it. -/
theorem dotted_injective {a b x y : FileName} (ha : '.' ∉ a) (hb : '.' ∉ b)
    (h : a ++ '.' :: x = b ++ '.' :: y) : a = b ∧ x = y := by
  -- one name would reach past the other's first dot
  rcases append_eq_append_iff.mp h with ⟨mid, rfl, hmid⟩ | ⟨mid, rfl, hmid⟩ <;>
    cases mid <;> simp_all

theorem pairFile_injective {fieldId fieldId' : Nat} {extension extension' : FileName}
    (h : pairFile id fieldId extension = pairFile id' fieldId' extension') :
    id = id' ∧ fieldId = fieldId' ∧ extension = extension' := by
  have hdot : isHexDigit '.' = false := by decide
  obtain ⟨hid, hrest⟩ := dotted_injective (id.not_mem hdot) (id'.not_mem hdot) h
  obtain ⟨hfield, hext⟩ :=
    dotted_injective (dot_not_mem_decimal fieldId) (dot_not_mem_decimal fieldId') hrest
  exact ⟨SegmentId.ext_uuidString hid, decimal_injective hfield, hext⟩

end Names

/-! ## The shape of a name -/

/-- What may stand behind the second dot of a segment's file. -/
def segmentExtensions : List FileName :=
  "del".toList :: "temp".toList :: "sfx".toList :: allIndexes.map SfxIndexFile.extension

/-- **What stands behind the id of a segment's file**: an extension, or a number or word and an
extension of the registry. -/
def SegmentRest (rest : FileName) : Prop :=
  ('.' ∉ rest ∧ '/' ∉ rest) ∨
    ∃ word extension, '.' ∉ word ∧ '/' ∉ word ∧ extension ∈ segmentExtensions ∧
      rest = word ++ '.' :: extension

section Shapes

variable {segment : SegmentMeta} {name : FileName}

theorem slash_not_mem_decimal (n : Nat) : '/' ∉ decimal n :=
  fun h => absurd (mem_decimal h) (by decide)

theorem slash_not_mem_segmentExtensions : ∀ extension ∈ segmentExtensions, '/' ∉ extension := by
  decide

theorem SegmentRest.slash_not_mem {rest : FileName} (h : SegmentRest rest) : '/' ∉ rest := by
  rcases h with ⟨-, hslash⟩ | ⟨word, extension, -, hword, hextension, rfl⟩
  · exact hslash
  · rw [mem_append, mem_cons, not_or, not_or]
    exact ⟨hword, by decide, slash_not_mem_segmentExtensions extension hextension⟩

variable {derivedInRam : Bool}

/-- A component of a segment is fixed, or a file of one field with an extension of the registry. -/
theorem mem_componentsFor (segment : SegmentMeta) {fieldIds : List Nat} {sfxVersion : Nat}
    {component : SegmentComponent} (h : component ∈ componentsFor fieldIds sfxVersion derivedInRam)
    :
    component ∈ fixedComponents ∨ ∃ fieldId, ∃ extension ∈ segmentExtensions,
      segment.pathSuffix component = '.' :: fieldExtension fieldId extension := by
  rw [componentsFor, mem_append, mem_flatMap] at h
  rcases h with h | ⟨fieldId, -, h⟩
  · exact .inl h
  refine .inr ⟨fieldId, ?_⟩
  rcases mem_append.mp h with h | h
  · split at h
    · obtain rfl := mem_singleton.mp h
      exact ⟨"sfx".toList, by decide, rfl⟩
    · exact absurd h not_mem_nil
  · obtain ⟨file, hfile, rfl⟩ := mem_map.mp h
    refine ⟨file.extension, ?_, rfl⟩
    exact mem_cons_of_mem _ (mem_cons_of_mem _ (mem_cons_of_mem _
      (mem_map_of_mem (mem_of_mem_filter hfile))))

/-- **The files of a segment** have its id, a dot, and a rest of that shape. -/
theorem listFilesFor_shape {sfxVersion : Nat}
    (h : name ∈ segment.listFilesFor sfxVersion derivedInRam) :
    ∃ rest, SegmentRest rest ∧ name = segment.id.uuidString ++ '.' :: rest := by
  obtain ⟨component, hcomponent, rfl⟩ := mem_map.mp h
  rcases mem_componentsFor segment (mem_of_mem_filter hcomponent) with
    hfixed | ⟨fieldId, extension, hextension, hsuffix⟩
  · -- two of the fixed components have a second dot
    simp only [fixedComponents, mem_cons, not_mem_nil, or_false] at hfixed
    rcases hfixed with rfl | rfl | rfl | rfl | rfl | rfl | rfl | rfl | rfl
    case inr.inr.inr.inr.inr.inr.inl =>
      exact ⟨"store.temp".toList, .inr ⟨"store".toList, "temp".toList, by decide, by decide,
        by decide, rfl⟩, rfl⟩
    case inr.inr.inr.inr.inr.inr.inr.inl =>
      exact ⟨decimal (segment.deleteOpstamp.getD 0) ++ ".del".toList,
        .inr ⟨_, "del".toList, dot_not_mem_decimal _, slash_not_mem_decimal _, by decide, rfl⟩, rfl⟩
    all_goals exact ⟨_, .inl ⟨by decide, by decide⟩, rfl⟩
  · refine ⟨fieldExtension fieldId extension, .inr ⟨decimal fieldId, extension,
      dot_not_mem_decimal _, slash_not_mem_decimal _, hextension, rfl⟩, ?_⟩
    rw [SegmentMeta.relativePath, hsuffix]

/-- **No file of a segment is a file of a pair.** -/
theorem pairFile_ne_segmentFile {id : SegmentId} {fieldId : Nat} {extension : FileName}
    {sfxVersion : Nat} (hextension : extension ∉ segmentExtensions) :
    pairFile id fieldId extension ∉ segment.listFilesFor sfxVersion derivedInRam := by
  intro h
  obtain ⟨rest, hrest, heq⟩ := listFilesFor_shape h
  have hdot : isHexDigit '.' = false := by decide
  obtain ⟨-, hbehind⟩ := dotted_injective (id.not_mem hdot) (segment.id.not_mem hdot) heq
  rcases hrest with ⟨hnone, -⟩ | ⟨word, extension', hword, -, hextension', rfl⟩
  · exact hnone (hbehind ▸ mem_append_right _ mem_cons_self)
  · obtain ⟨-, rfl⟩ := dotted_injective (dot_not_mem_decimal fieldId) hword hbehind
    exact hextension hextension'

end Shapes

end Lucivy.Index
