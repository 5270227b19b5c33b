import Lucivy.Sync.LucivyExporter

/-! # What a delta leaves on the client

A client at an older version of an index applies the delta exported for it. Its directory then has
every file the server's manifest names, as the server has it, but for the pairs of pending
segments. Two things go wrong there. The pair of a segment that was merged away since is written
and then removed again, because its name begins with the removed segment's id. And files of a pair
that its bundle does not look for are never sent: the texts under the naming before 4.3, and
whatever stands under the other naming.

* `OlderClient` — the client's directory, whose shared segments are the server's.
* `PairsKept` — the condition on the pairs.
* `client_holds_live_files_iff` — **the client ends with the server's files exactly then.** -/

namespace Lucivy.Sync

open Lucivy.Foundation Lucivy.Index Lucivy.Lucistore List

/-- **A client at an older version of the server's index.** The files of a segment other than its
deletions are written once, so those of a segment both manifests list are the same. -/
structure OlderClient (server : ServerIndex) (manifest old : IndexMeta) (fs : FileSystem)
    (dir : FilePath) : Prop where
  /-- The index directory holds files only. -/
  flat : FlatDirectory fs dir
  shared : ∀ segment ∈ manifest.segments, segment.id.uuidString ∈ old.segmentIds →
    ∀ name ∈ manifest.segmentFiles segment, isDeleteFile name = false →
      ∀ data, server.directory name = some data → fs.files (dir ++ [name]) = some data

/-- **The pairs arrive.** For every file of a pair on the server: its segment is not one that the
client has and the server's manifest no longer lists, and its bundle looks for it or the client has
it already. -/
def PairsKept (server : ServerIndex) (manifest old : IndexMeta) (fs : FileSystem)
    (dir : FilePath) : Prop :=
  ∀ dictionary, manifest.sfxDictionary = some dictionary →
    ∀ segment ∈ dictionary.pendingSegments, ∀ fieldId ∈ dictionary.fieldIds,
      ∀ name ∈ pairFileNames segment fieldId, ∀ data, server.directory name = some data →
        (segment ∈ old.segments.map SegmentMeta.id →
          segment ∈ manifest.segments.map SegmentMeta.id) ∧
        (name ∈ pairBundleNames (pairBundleId server.directory segment fieldId) ∨
          fs.files (dir ++ [name]) = some data)

/-! ## Names -/

section Names

variable {name : FileName} {manifest : IndexMeta} {directory : Directory}
  {clientIds : List FileName}

/-- A name of the index: it begins as a segment's or a generation's files do. -/
def IsIndexName (name : FileName) : Prop :=
  '/' ∉ name ∧ ((∃ id : SegmentId, ∃ rest, name = id.uuidString ++ rest) ∨
    ∃ rest, name = "dict-".toList ++ rest)

/-- It begins with a hexadecimal digit. -/
theorem head_of_isIndexName (h : IsIndexName name) :
    ∃ c rest, name = c :: rest ∧ isHexDigit c = true ∧ rest ≠ [] := by
  rcases h.2 with ⟨id, rest, rfl⟩ | ⟨rest, rfl⟩
  · match hid : id.uuidString, id.length, id.hex with
    | c :: d :: digits, _, hhex =>
      exact ⟨c, d :: digits ++ rest, rfl, hhex c mem_cons_self, cons_ne_nil _ _⟩
  · exact ⟨'d', "ict-".toList ++ rest, rfl, by decide, cons_ne_nil _ _⟩

/-- It is the name of an entry. -/
theorem isEntryName_of_isIndexName (h : IsIndexName name) : IsEntryName name := by
  obtain ⟨c, rest, rfl, hc, -⟩ := head_of_isIndexName h
  have hdot : c ≠ '.' := isHexDigit_ne hc (by decide)
  exact ⟨cons_ne_nil _ _, h.1, fun heq => hdot (List.cons.inj heq).1,
    fun heq => hdot (List.cons.inj heq).1⟩

/-- It is none of the client's own. -/
theorem not_mem_ownNames_of_isIndexName (h : IsIndexName name) : name ∉ ownNames := by
  obtain ⟨c, rest, rfl, hc, -⟩ := head_of_isIndexName h
  have hm : c ≠ 'm' := isHexDigit_ne hc (by decide)
  have hunderscore : c ≠ '_' := isHexDigit_ne hc (by decide)
  simp only [ownNames, mem_cons, not_mem_nil, or_false, not_or]
  exact ⟨fun heq => hm (List.cons.inj heq).1, fun heq => hm (List.cons.inj heq).1,
    fun heq => hunderscore (List.cons.inj heq).1⟩

/-- A segment's file. -/
theorem isIndexName_segmentFile {segment : SegmentMeta}
    (h : name ∈ manifest.segmentFiles segment) : IsIndexName name := by
  obtain ⟨rest, hrest, rfl⟩ := listFilesFor_shape h
  refine ⟨?_, .inl ⟨segment.id, _, rfl⟩⟩
  rw [mem_append, mem_cons, not_or, not_or]
  exact ⟨segment.id.not_mem (by decide), by decide, hrest.slash_not_mem⟩

/-- No slash in an extension. -/
theorem slash_not_mem_fieldExtension (fieldId : Nat) {extension : FileName}
    (h : '/' ∉ extension) : '/' ∉ fieldExtension fieldId extension := by
  rw [fieldExtension, mem_append, mem_cons, not_or, not_or]
  exact ⟨slash_not_mem_decimal fieldId, by decide, h⟩

variable {dictionary : SfxDictionaryMeta} {segment : SegmentId}

/-- The files of a generation. -/
theorem mem_filesOf {generation : Nat} :
    name ∈ dictionary.filesOf generation ↔
      ∃ fieldId ∈ dictionary.fieldIds, ∃ extension ∈ generationExtensions,
        name = dictionaryFileName generation fieldId extension := by
  simp [SfxDictionaryMeta.filesOf, eq_comm]

/-- Its prefix. -/
theorem dictionaryFileName_eq (generation fieldId : Nat) (extension : FileName) :
    dictionaryFileName generation fieldId extension =
      "dict-".toList ++ (decimal generation ++ '.' :: fieldExtension fieldId extension) := by
  simp [dictionaryFileName, dictionaryBundleId]

/-- A generation's file. -/
theorem isIndexName_generationFile {generation : Nat} (h : name ∈ dictionary.filesOf generation) :
    IsIndexName name := by
  obtain ⟨fieldId, -, extension, hextension, rfl⟩ := mem_filesOf.mp h
  have hslash : ∀ extension ∈ generationExtensions, '/' ∉ extension := by decide
  rw [dictionaryFileName_eq]
  refine ⟨?_, .inr ⟨_, rfl⟩⟩
  rw [mem_append, mem_append, mem_cons, not_or, not_or, not_or]
  exact ⟨by decide, slash_not_mem_decimal generation, by decide,
    slash_not_mem_fieldExtension fieldId (hslash extension hextension)⟩

/-- A pair's file. -/
theorem isIndexName_pairFile (segment : SegmentId) (fieldId : Nat) {extension : FileName}
    (h : '/' ∉ extension) : IsIndexName (pairFile segment fieldId extension) := by
  refine ⟨?_, .inl ⟨segment, _, rfl⟩⟩
  rw [pairFile, mem_append, mem_cons, not_or, not_or]
  exact ⟨segment.not_mem (by decide), by decide, slash_not_mem_fieldExtension fieldId h⟩

theorem pairFile_append (segment : SegmentId) (fieldId : Nat) (a b : FileName) :
    pairFile segment fieldId a ++ b = pairFile segment fieldId (a ++ b) := by
  simp [pairFile, fieldExtension]

/-- The extensions a pair's bundle looks for. -/
def pairBundleExtensions : List FileName :=
  [mintedEnd ++ "sfx".toList, mintedEnd ++ "termtexts".toList, legacyEnd ++ "sfx".toList,
    legacyEnd ++ "termtexts".toList]

/-- The names a pair's bundle looks for. -/
theorem mem_pairBundleNames {fieldId : Nat}
    (h : name ∈ pairBundleNames (pairBundleId directory segment fieldId)) :
    ∃ extension ∈ pairBundleExtensions, name = pairFile segment fieldId extension := by
  rw [pairBundleId] at h
  split at h
  all_goals
    simp only [pairBundleNames, pairFile_append, mem_cons, not_mem_nil, or_false] at h
    rcases h with rfl | rfl
    · exact ⟨_, by decide, rfl⟩
    · exact ⟨_, by decide, rfl⟩

/-- Whatever is sent. -/
theorem isIndexName_of_shipped (h : Shipped directory manifest clientIds name) :
    IsIndexName name := by
  have hslash : ∀ extension ∈ pairBundleExtensions, '/' ∉ extension := by decide
  rcases h with ⟨segment, -, hname, -⟩ | ⟨dictionary, -, ⟨generation, -, hname⟩ |
    ⟨segment, -, fieldId, -, hname⟩⟩
  · exact isIndexName_segmentFile hname
  · exact isIndexName_generationFile hname
  · obtain ⟨extension, hextension, rfl⟩ := mem_pairBundleNames hname
    exact isIndexName_pairFile segment fieldId (hslash extension hextension)

/-- The names of a pair. -/
theorem mem_pairFileNames {fieldId : Nat} (h : name ∈ pairFileNames segment fieldId) :
    ∃ extension, '/' ∉ extension ∧ extension ∉ segmentExtensions ∧
      name = pairFile segment fieldId extension := by
  have hextensions : ∀ extension ∈
      [mintedSfxExt, mintedTextsExt, legacyMintedSfxExt, legacyMintedTextsExt],
      '/' ∉ extension ∧ extension ∉ segmentExtensions := by decide
  obtain ⟨extension, hextension, rfl⟩ := mem_map.mp h
  exact ⟨extension, (hextensions extension hextension).1, (hextensions extension hextension).2, rfl⟩

/-- **A pair's file is shipped by its own bundle or not at all.** -/
theorem shipped_pairFile_iff {fieldId : Nat}
    (hdictionary : manifest.sfxDictionary = some dictionary)
    (hsegment : segment ∈ dictionary.pendingSegments) (hfield : fieldId ∈ dictionary.fieldIds)
    (hname : name ∈ pairFileNames segment fieldId) :
    Shipped directory manifest clientIds name ↔
      name ∈ pairBundleNames (pairBundleId directory segment fieldId) := by
  obtain ⟨extension, -, hextension, rfl⟩ := mem_pairFileNames hname
  constructor
  · rintro (⟨other, -, hfile, -⟩ | ⟨_, -, ⟨generation, -, hfile⟩ |
      ⟨other, -, fieldId', -, hfile⟩⟩)
    · exact absurd hfile (pairFile_ne_segmentFile hextension)
    · obtain ⟨_, -, _, -, heq⟩ := mem_filesOf.mp hfile
      exact absurd heq (segment.append_ne_dict _ _)
    · obtain ⟨extension', -, heq⟩ := mem_pairBundleNames hfile
      obtain ⟨rfl, rfl, -⟩ := pairFile_injective heq
      exact hfile
  · intro hfile
    exact .inr ⟨dictionary, hdictionary, .inr ⟨segment, hsegment, fieldId, hfield, hfile⟩⟩

end Names

/-! ## The files afterwards -/

section Afterwards

variable {server : ServerIndex} {bytes : Bytes} {manifest old : IndexMeta} {delta : IndexDelta}
  {fs : FileSystem} {dir : FilePath} {listing : List FileName} {name : FileName} {data : Bytes}

/-- **The files a manifest names.** -/
theorem mem_liveFiles :
    name ∈ manifest.liveFiles ↔
      (∃ segment ∈ manifest.segments, name ∈ manifest.segmentFiles segment) ∨
      ∃ dictionary, manifest.sfxDictionary = some dictionary ∧
        ((∃ generation ∈ dictionary.generations, name ∈ dictionary.filesOf generation.toNat) ∨
          ∃ segment ∈ dictionary.pendingSegments, ∃ fieldId ∈ dictionary.fieldIds,
            name ∈ pairFileNames segment fieldId) := by
  simp only [IndexMeta.liveFiles, IndexMeta.dictionaryFiles, SfxDictionaryMeta.files,
    SfxDictionaryMeta.pairFiles, mem_append, mem_flatMap, Option.mem_toList]

/-- They are names of an index. -/
theorem isIndexName_of_mem_liveFiles (h : name ∈ manifest.liveFiles) : IsIndexName name := by
  rcases mem_liveFiles.mp h with ⟨segment, -, hname⟩ | ⟨dictionary, -, ⟨generation, -, hname⟩ |
    ⟨segment, -, fieldId, -, hname⟩⟩
  · exact isIndexName_segmentFile hname
  · exact isIndexName_generationFile hname
  · obtain ⟨extension, hslash, -, rfl⟩ := mem_pairFileNames hname
    exact isIndexName_pairFile segment fieldId hslash

section

variable (hdelta : DeltaFor server manifest old delta)
include hdelta

/-- A name that the server has is brought exactly if it is shipped. -/
theorem mem_added_names_iff (hdata : server.directory name = some data) :
    name ∈ delta.addedFiles.map Prod.fst ↔
      Shipped server.directory manifest old.segmentIds name := by
  rw [mem_map]
  constructor
  · rintro ⟨file, hfile, rfl⟩
    exact ((mem_addedFiles_iff hdelta file).mp hfile).2
  · intro hshipped
    exact ⟨(name, data), (mem_addedFiles_iff hdelta (name, data)).mpr
      ⟨hdata, hshipped⟩, rfl⟩

/-- So are those of a delta. -/
theorem isIndexName_of_mem_addedFiles
    {file : FileName × Bytes} (hfile : file ∈ delta.addedFiles) : IsIndexName file.1 :=
  isIndexName_of_shipped ((mem_addedFiles_iff hdelta file).mp hfile).2

/-- The files of an exported delta are entries of the server's directory. -/
theorem exported_files :
    ∀ file ∈ delta.addedFiles, IsEntryName file.1 ∧ server.directory file.1 = some file.2 :=
  fun file hfile => ⟨isEntryName_of_isIndexName
    (isIndexName_of_mem_addedFiles hdelta hfile),
    ((mem_addedFiles_iff hdelta file).mp hfile).1⟩

/-- **Where an exported delta ends** on the client: a name of the index that the server has holds
the server's bytes if no removed id begins it and it was shipped or held them before. -/
theorem exported_end (hflat : FlatDirectory fs dir)
    (hlist : ∀ written, runOps fs (writeOps dir delta) = some written → Lists written dir listing) :
    ∃ fs', runOps fs (deltaOps dir delta listing) = some fs' ∧
      ∀ name data, IsIndexName name → server.directory name = some data →
        (fs'.files (dir ++ [name]) = some data ↔
          ¬ delta.removes name = true ∧
            (Shipped server.directory manifest old.segmentIds name ∨
              fs.files (dir ++ [name]) = some data)) := by
  obtain ⟨fs', hrun, hread⟩ :=
    runOps_deltaOps server.directory hflat (exported_files hdelta) hlist
  refine ⟨fs', hrun, fun name data hname hdata => ?_⟩
  rw [hread name (not_mem_ownNames_of_isIndexName hname)]
  have hadded := mem_added_names_iff hdelta hdata
  by_cases hremoves : delta.removes name = true
  · simp [hremoves]
  · by_cases hshipped : Shipped server.directory manifest old.segmentIds name
    · simp [hshipped, hadded.mpr hshipped, hdata]
    · simp [hshipped, mt hadded.mp hshipped]

/-- A file of a listed segment is not removed. -/
theorem not_removes_segmentFile {segment : SegmentMeta}
    (hsegment : segment ∈ manifest.segments) (hname : name ∈ manifest.segmentFiles segment) :
    ¬ delta.removes name = true := by
  rw [removes_iff hdelta]
  rintro ⟨gone, -, hgone, hbegins⟩
  obtain ⟨rest, -, rfl⟩ := listFilesFor_shape hname
  rw [isPrefixOf_segmentFile] at hbegins
  exact hgone (hbegins ▸ mem_map_of_mem hsegment)

/-- A generation's file is not removed. -/
theorem not_removes_generationFile {dictionary : SfxDictionaryMeta} {generation : Nat}
    (hname : name ∈ dictionary.filesOf generation) : ¬ delta.removes name = true := by
  rw [removes_iff hdelta]
  rintro ⟨gone, -, -, hbegins⟩
  obtain ⟨fieldId, -, extension, -, rfl⟩ := mem_filesOf.mp hname
  rw [dictionaryFileName_eq, not_isPrefixOf_dictionaryFile] at hbegins
  cases hbegins

/-- A pair's file is removed with its segment. -/
theorem removes_pairFile_iff {segment : SegmentId}
    {fieldId : Nat} (hname : name ∈ pairFileNames segment fieldId) :
    delta.removes name = true ↔
      segment ∈ old.segments.map SegmentMeta.id ∧
        segment ∉ manifest.segments.map SegmentMeta.id := by
  obtain ⟨extension, -, -, rfl⟩ := mem_pairFileNames hname
  rw [removes_iff hdelta]
  constructor
  · rintro ⟨gone, hgone, hunlisted, hbegins⟩
    rw [pairFile, isPrefixOf_segmentFile] at hbegins
    exact hbegins ▸ ⟨mem_map_of_mem hgone, hunlisted⟩
  · rintro ⟨hold, hunlisted⟩
    obtain ⟨gone, hgone, rfl⟩ := mem_map.mp hold
    exact ⟨gone, hgone, hunlisted, by rw [pairFile, isPrefixOf_segmentFile]⟩

end

/-- **The client ends with every file the server's manifest names, as the server has it, exactly if
the pairs arrive.** -/
theorem client_holds_live_files_iff (version : Text)
    (hsnapshot : server.snapshot = .ok (bytes, manifest))
    (hexport : exportDeltaFrom (lucivyExporter server) old.segmentIds version = .ok delta)
    (hclient : OlderClient server manifest old fs dir)
    (hlist : ∀ written, runOps fs (writeOps dir delta) = some written → Lists written dir listing) :
    (∃ fs', runOps fs (deltaOps dir delta listing) = some fs' ∧
      ∀ name ∈ manifest.liveFiles, ∀ data, server.directory name = some data →
        fs'.files (dir ++ [name]) = some data) ↔
      PairsKept server manifest old fs dir := by
  have hdelta := deltaFor hsnapshot hexport
  obtain ⟨last, hrun, hend⟩ := exported_end hdelta hclient.flat hlist
  constructor
  · rintro ⟨fs', hrun', hholds⟩ dictionary hdictionary segment hsegment fieldId hfield name hname
      data hdata
    obtain rfl : last = fs' := Option.some.inj (hrun.symm.trans hrun')
    have hlive : name ∈ manifest.liveFiles := mem_liveFiles.mpr
      (.inr ⟨dictionary, hdictionary, .inr ⟨segment, hsegment, fieldId, hfield, hname⟩⟩)
    obtain ⟨hkept, hcarried⟩ := (hend name data (isIndexName_of_mem_liveFiles hlive) hdata).mp
      (hholds name hlive data hdata)
    rw [removes_pairFile_iff hdelta hname, not_and, not_not] at hkept
    rw [shipped_pairFile_iff hdictionary hsegment hfield hname] at hcarried
    exact ⟨hkept, hcarried⟩
  · intro hpairs
    refine ⟨last, hrun, fun name hlive data hdata => ?_⟩
    rw [hend name data (isIndexName_of_mem_liveFiles hlive) hdata]
    rcases mem_liveFiles.mp hlive with ⟨segment, hsegment, hname⟩ |
      ⟨dictionary, hdictionary, ⟨generation, hgeneration, hname⟩ |
        ⟨segment, hsegment, fieldId, hfield, hname⟩⟩
    · refine ⟨not_removes_segmentFile hdelta hsegment hname, ?_⟩
      -- shipped, unless the client has had it since the segment was written
      by_cases hnew : segment.id.uuidString ∈ old.segmentIds → isDeleteFile name = true
      · exact .inl (.inl ⟨segment, hsegment, hname, hnew⟩)
      · obtain ⟨hold, hdel⟩ := Classical.not_imp.mp hnew
        rw [Bool.not_eq_true] at hdel
        exact .inr (hclient.shared segment hsegment hold name hname hdel data hdata)
    · exact ⟨not_removes_generationFile hdelta hname,
        .inl (.inr ⟨dictionary, hdictionary, .inl ⟨generation, hgeneration, hname⟩⟩)⟩
    · rw [removes_pairFile_iff hdelta hname, not_and, not_not,
        shipped_pairFile_iff hdictionary hsegment hfield hname]
      exact hpairs dictionary hdictionary segment hsegment fieldId hfield name hname data hdata

end Afterwards

/-! ## A client with one segment -/

/-- A segment whose id repeats one digit. -/
def repeatedId (digit : Char) (h : isHexDigit digit = true) : SegmentId where
  uuidString := List.replicate 32 digit
  hex c hc := by rw [eq_of_mem_replicate hc]; exact h
  length := length_replicate

/-- The segment the client has. -/
def clientSegment : SegmentId := repeatedId 'a' (by decide)

/-- The segment that came since. -/
def newSegment : SegmentId := repeatedId 'b' (by decide)

/-- A segment without fields. -/
def plainSegment (id : SegmentId) : SegmentMeta := ⟨id, none, [], false⟩

/-- The client's manifest. -/
def clientManifest : IndexMeta where
  segments := [plainSegment clientSegment]
  sfxVersion := dictionarySfxVersion
  derivedInRam := false
  positions := true
  sfxDictionary := none
  nodup := nodup_singleton _

/-- The files of a segment without fields, all of the same content. -/
def wholeSegment (id : SegmentId) (data : Bytes) : List (FileName × Bytes) :=
  (clientManifest.segmentFiles (plainSegment id)).map fun name => (name, data)

/-- The two files of a segment's pair. -/
def pairOf (id : SegmentId) : List (FileName × Bytes) :=
  [(pairFile id 1 mintedSfxExt, [3]), (pairFile id 1 mintedTextsExt, [4])]

/-- A server of these files, and the client's manifest of before. -/
def serverOf (manifest : IndexMeta) (files : List (FileName × Bytes)) : ServerIndex where
  directory name := ((metaName, [1]) :: files).lookup name
  parseMetas bytes :=
    if bytes = [1] then some manifest else if bytes = [0] then some clientManifest else none
  uncommitted := false
  order := id
  mem_order _ _ := Iff.rfl

/-- A directory of these files. -/
def directoryOf (dir : FilePath) (files : List (FileName × Bytes)) : FileSystem where
  files path := (files.find? fun file => dir ++ [file.1] = path).map Prod.snd
  isDir path := path.isPrefixOf dir

/-- It has no subdirectory. -/
theorem flatDirectory_directoryOf (dir : FilePath) (files : List (FileName × Bytes)) :
    FlatDirectory (directoryOf dir files) dir := by
  constructor
  · exact isPrefixOf_iff_prefix.mpr (prefix_refl dir)
  · intro name
    rw [← Bool.not_eq_true]
    intro h
    have hle := ( isPrefixOf_iff_prefix.mp h).length_le
    rw [length_append, length_singleton] at hle
    omega

/-- Its entries. -/
theorem lists_directoryOf (dir : FilePath) (files : List (FileName × Bytes)) :
    Lists (directoryOf dir files) dir (files.map Prod.fst) := by
  intro name
  simp only [directoryOf, Option.isSome_map, find?_isSome, mem_map, decide_eq_true_eq,
    entry_eq_entry]

/-- The client's manifest and its files. -/
def staleFiles : List (FileName × Bytes) :=
  (metaName, [0]) :: wholeSegment clientSegment [5]

/-- The client's directory. -/
def clientDir : FilePath := ["idx".toList]

/-- The entries behind the writes of a delta, in a directory of these files. -/
theorem lists_directory (files : List (FileName × Bytes)) {server : ServerIndex}
    {delta : IndexDelta} (hfiles : ∀ file ∈ delta.addedFiles,
      IsEntryName file.1 ∧ server.directory file.1 = some file.2) :
    ∀ written, runOps (directoryOf clientDir files) (writeOps clientDir delta) = some written →
      Lists written clientDir (delta.addedFiles.map Prod.fst ++ files.map Prod.fst) :=
  lists_written server.directory (flatDirectory_directoryOf clientDir files)
    (lists_directoryOf clientDir files) hfiles

/-! ## A segment, a generation and a pair since the client's version -/

/-- The server's manifest: another segment, whose pair is not folded yet, and a generation. -/
def grownManifest : IndexMeta where
  segments := [plainSegment clientSegment, plainSegment newSegment]
  sfxVersion := dictionarySfxVersion
  derivedInRam := false
  positions := true
  sfxDictionary := some ⟨[7], [1], [newSegment]⟩
  nodup := by decide

/-- The files of the generation. -/
def grownGeneration : List (FileName × Bytes) :=
  generationExtensions.map fun extension => (dictionaryFileName 7 1 extension, [6])

def grownServer : ServerIndex :=
  serverOf grownManifest (wholeSegment clientSegment [5] ++ wholeSegment newSegment [2] ++
    grownGeneration ++ pairOf newSegment)

/-- What the delta carries: nothing of the segment the client has. -/
def grownDelta : IndexDelta where
  fromVersion := []
  toVersion := computeVersionFromBytes [1]
  addedSegments :=
    [⟨newSegment.uuidString, wholeSegment newSegment [2]⟩,
      ⟨dictionaryBundleId 7, grownGeneration⟩,
      ⟨pairFile newSegment 1 mintedEnd, pairOf newSegment⟩]
  removedSegmentIds := []
  metaJson := [1]
  config := none

theorem grownServer_snapshot : grownServer.snapshot = .ok ([1], grownManifest) := rfl

/-- The delta the server exports. -/
theorem grownDelta_stale :
    exportDeltaFrom (lucivyExporter grownServer) clientManifest.segmentIds [] = .ok grownDelta := by
  decide

/-- Its files are the server's. -/
theorem grownDelta_files : ∀ file ∈ grownDelta.addedFiles,
    IsEntryName file.1 ∧ grownServer.directory file.1 = some file.2 := by
  decide

/-- The segment both have is the same on both. -/
theorem olderClient_grown :
    OlderClient grownServer grownManifest clientManifest (directoryOf clientDir staleFiles)
      clientDir := by
  refine ⟨flatDirectory_directoryOf clientDir staleFiles, ?_⟩
  have hshared : ∀ segment ∈ grownManifest.segments,
      segment.id.uuidString ∈ clientManifest.segmentIds →
      ∀ name ∈ grownManifest.segmentFiles segment, isDeleteFile name = false →
        (directoryOf clientDir staleFiles).files (clientDir ++ [name]) =
          grownServer.directory name := by decide
  intro segment hsegment hold name hname hdel data hdata
  rw [hshared segment hsegment hold name hname hdel, hdata]

/-- The files of the pair are in its bundle. -/
theorem grownPairs : ∀ dictionary, grownManifest.sfxDictionary = some dictionary →
    ∀ segment ∈ dictionary.pendingSegments, ∀ fieldId ∈ dictionary.fieldIds,
      ∀ name ∈ pairFileNames segment fieldId, (grownServer.directory name).isSome = true →
        name ∈ pairBundleNames (pairBundleId grownServer.directory segment fieldId) := by
  rintro dictionary ⟨⟩
  decide

/-- The client gets the segment, the generation and the pair, and keeps the segment it has. -/
theorem client_holds_live_files_grown :
    ∃ fs', runOps (directoryOf clientDir staleFiles) (deltaOps clientDir grownDelta
        (grownDelta.addedFiles.map Prod.fst ++ staleFiles.map Prod.fst)) = some fs' ∧
      ∀ name ∈ grownManifest.liveFiles, ∀ data, grownServer.directory name = some data →
        fs'.files (clientDir ++ [name]) = some data := by
  refine (client_holds_live_files_iff [] grownServer_snapshot grownDelta_stale
    olderClient_grown (lists_directory _ grownDelta_files)).mpr ?_
  intro dictionary hdictionary segment hsegment fieldId hfield name hname data hdata
  have hlisted : ∀ segment ∈ [newSegment], segment ∈ grownManifest.segments.map SegmentMeta.id :=
    forall_mem_singleton.mpr (.tail _ (.head _))
  refine ⟨fun _ => ?_, .inl (grownPairs dictionary hdictionary segment hsegment fieldId hfield name
    hname (Option.isSome_of_eq_some hdata))⟩
  cases hdictionary
  exact hlisted segment hsegment

/-! ## A pair whose segment was merged away -/

/-- The server's manifest: the client's segment was merged, its pair is not folded yet. -/
def mergedManifest : IndexMeta where
  segments := [plainSegment newSegment]
  sfxVersion := dictionarySfxVersion
  derivedInRam := false
  positions := true
  sfxDictionary := some ⟨[], [1], [clientSegment]⟩
  nodup := nodup_singleton _

def mergedServer : ServerIndex :=
  serverOf mergedManifest (wholeSegment newSegment [2] ++ pairOf clientSegment)

/-- The texts of the pair. -/
def mergedTexts : FileName := pairFile clientSegment 1 mintedTextsExt

/-- What the delta carries. -/
def mergedDelta : IndexDelta where
  fromVersion := []
  toVersion := computeVersionFromBytes [1]
  addedSegments :=
    [⟨newSegment.uuidString, wholeSegment newSegment [2]⟩,
      ⟨pairFile clientSegment 1 mintedEnd, pairOf clientSegment⟩]
  removedSegmentIds := [clientSegment.uuidString]
  metaJson := [1]
  config := none

theorem mergedServer_snapshot : mergedServer.snapshot = .ok ([1], mergedManifest) := rfl

/-- The delta the server exports. -/
theorem mergedDelta_stale :
    exportDeltaFrom (lucivyExporter mergedServer) clientManifest.segmentIds [] =
      .ok mergedDelta := by
  decide

/-- Its files are the server's. -/
theorem mergedDelta_files : ∀ file ∈ mergedDelta.addedFiles,
    IsEntryName file.1 ∧ mergedServer.directory file.1 = some file.2 := by
  decide

/-- The client is at an older version. -/
theorem olderClient_stale :
    OlderClient mergedServer mergedManifest clientManifest (directoryOf clientDir staleFiles)
      clientDir := by
  refine ⟨flatDirectory_directoryOf clientDir staleFiles, fun segment hsegment hold => ?_⟩
  obtain rfl := mem_singleton.mp hsegment
  exact absurd (mem_singleton.mp hold) (by decide)

/-- **The pair is written and removed again**: the client has the segment that was merged away. -/
theorem merged_pair_removed :
    exportDeltaFrom (lucivyExporter mergedServer) clientManifest.segmentIds [] =
        .ok mergedDelta ∧
    OlderClient mergedServer mergedManifest clientManifest (directoryOf clientDir staleFiles)
      clientDir ∧
    mergedTexts ∈ mergedManifest.liveFiles ∧ mergedServer.directory mergedTexts = some [4] ∧
    ∃ listing, (∀ written, runOps (directoryOf clientDir staleFiles)
        (writeOps clientDir mergedDelta) = some written → Lists written clientDir listing) ∧
      ∃ fs', runOps (directoryOf clientDir staleFiles) (deltaOps clientDir mergedDelta listing) =
          some fs' ∧
        fs'.files (clientDir ++ [mergedTexts]) = none := by
  have hlist := lists_directory staleFiles mergedDelta_files
  obtain ⟨fs', hrun, hread⟩ := runOps_deltaOps mergedServer.directory
    (flatDirectory_directoryOf clientDir staleFiles) mergedDelta_files hlist
  refine ⟨mergedDelta_stale, olderClient_stale, by decide, rfl, _, hlist, fs',
    hrun, ?_⟩
  rw [hread mergedTexts (by decide), if_pos (by decide)]

end Lucivy.Sync
