import Lucivy.Sync.ClientFiles

/-! # A crash while a delta is applied

A client that stops between two file operations of `apply_delta` finds on its disk the manifest of
before or the new one, since the manifest is put in place by a rename. The files of the removed
segments are removed before that rename, so that from the first removal on the manifest of before
names files that are gone; applying the delta again mends that. And the new manifest is put in place
whether or not its pairs have all been sent.

* `Reopens` — the manifest on disk names only files that exist.
* `reopens_throughout_iff` — **a client can reopen at every point of a delta exactly if no segment
  of its manifest has been merged away and the pairs of the new one arrive.** -/

namespace Lucivy.Sync

open Lucivy.Foundation Lucivy.Index Lucivy.Lucistore List Option

/-- The files that have to exist for a manifest: those of its segments, of the generations all but
the group index, and of the pairs those there are in the directory it was written in. (For which
fields a pending segment has a pair, and under which naming, the manifest does not say.) -/
def requiredFiles (origin : Directory) (manifest : IndexMeta) : List FileName :=
  manifest.segments.flatMap manifest.segmentFiles ++
    manifest.sfxDictionary.toList.flatMap fun dictionary =>
      (dictionary.generations.flatMap fun generation =>
        (dictionary.filesOf generation.toNat).filter fun name =>
          !('.' :: groupIndexExt).isSuffixOf name) ++
      (dictionary.pendingSegments.flatMap dictionary.pairFiles).filter fun name =>
        (origin name).isSome

/-- The directory a manifest of the client was written in: the server's, if it is the server's
manifest, and else the client's own before the delta. -/
def originOf (server : ServerIndex) (dir : FilePath) (before : FileSystem) (bytes : Bytes) :
    Directory :=
  if server.directory metaName = some bytes then server.directory
  else fun name => before.files (dir ++ [name])

/-- **The manifest on disk names only files that exist.** -/
def Reopens (server : ServerIndex) (dir : FilePath) (before fs : FileSystem) : Prop :=
  ∀ bytes manifest, fs.files (dir ++ [metaName]) = some bytes →
    server.parseMetas bytes = some manifest →
    ∀ name ∈ requiredFiles (originOf server dir before bytes) manifest,
      (fs.files (dir ++ [name])).isSome = true

/-- **The pairs of the new manifest arrive**: what the server has of them is in a bundle, or on the
client already. -/
def PairsArrive (server : ServerIndex) (manifest : IndexMeta) (fs : FileSystem)
    (dir : FilePath) : Prop :=
  ∀ dictionary, manifest.sfxDictionary = some dictionary →
    ∀ segment ∈ dictionary.pendingSegments, ∀ fieldId ∈ dictionary.fieldIds,
      ∀ name ∈ pairFileNames segment fieldId, (server.directory name).isSome = true →
        name ∈ pairBundleNames (pairBundleId server.directory segment fieldId) ∨
          (fs.files (dir ++ [name])).isSome = true

/-- The client's manifest, or none yet. -/
def HasManifest (parseMetas : Bytes → Option IndexMeta) (dir : FilePath) (fs : FileSystem)
    (old : IndexMeta) : Prop :=
  (∃ bytes, fs.files (dir ++ [metaName]) = some bytes ∧ parseMetas bytes = some old) ∨
    (fs.files (dir ++ [metaName]) = none ∧ old.segments = [])

/-! ## Names -/

section Names

variable {manifest : IndexMeta} {name : FileName} {origin : Directory}

/-- What is required: a file of a segment, of a generation, or one of a pair that exists. -/
theorem mem_requiredFiles :
    name ∈ requiredFiles origin manifest ↔
      (∃ segment ∈ manifest.segments, name ∈ manifest.segmentFiles segment) ∨
      ∃ dictionary, manifest.sfxDictionary = some dictionary ∧
        ((∃ generation ∈ dictionary.generations, name ∈ dictionary.filesOf generation.toNat ∧
            ('.' :: groupIndexExt).isSuffixOf name = false) ∨
          (∃ segment ∈ dictionary.pendingSegments, ∃ fieldId ∈ dictionary.fieldIds,
            name ∈ pairFileNames segment fieldId) ∧ (origin name).isSome = true) := by
  simp only [requiredFiles, SfxDictionaryMeta.pairFiles, mem_append, mem_flatMap, mem_toList,
    mem_filter, Bool.not_eq_true']

theorem isIndexName_of_mem_requiredFiles (h : name ∈ requiredFiles origin manifest) :
    IsIndexName name := by
  suffices hlive : name ∈ manifest.liveFiles from isIndexName_of_mem_liveFiles hlive
  refine mem_liveFiles.mpr ?_
  rcases mem_requiredFiles.mp h with hsegment | ⟨dictionary, hdictionary,
    ⟨generation, hgeneration, hname, -⟩ | ⟨hpair, -⟩⟩
  · exact .inl hsegment
  · exact .inr ⟨dictionary, hdictionary, .inl ⟨generation, hgeneration, hname⟩⟩
  · exact .inr ⟨dictionary, hdictionary, .inr hpair⟩

theorem ne_of_isIndexName {own : FileName} (h : IsIndexName name) (hown : own ∈ ownNames) :
    name ≠ own := by
  rintro rfl
  exact not_mem_ownNames_of_isIndexName h hown

/-- Every segment has its postings. -/
theorem postings_mem_requiredFiles {segment : SegmentMeta} (h : segment ∈ manifest.segments) :
    segment.relativePath .postings ∈ requiredFiles origin manifest := by
  refine mem_append_left _ (mem_flatMap.mpr ⟨segment, h, ?_⟩)
  refine mem_map_of_mem (mem_filter.mpr ⟨?_, by simp⟩)
  exact mem_append_left _ mem_cons_self

end Names

/-! ## Between the operations -/

section Between

variable {server : ServerIndex} {before fs fs' : FileSystem} {dir : FilePath}

/-- A state with the same manifest and no index file less reopens as well. -/
theorem Reopens.of_files (h : Reopens server dir before fs)
    (hmeta : fs'.files (dir ++ [metaName]) = fs.files (dir ++ [metaName]))
    (hfiles : ∀ name, IsIndexName name → (fs.files (dir ++ [name])).isSome = true →
      (fs'.files (dir ++ [name])).isSome = true) : Reopens server dir before fs' := by
  intro bytes manifest hbytes hparse name hname
  rw [hmeta] at hbytes
  exact hfiles name (isIndexName_of_mem_requiredFiles hname)
    (h bytes manifest hbytes hparse name hname)

/-- Writing an entry other than the manifest keeps a client that reopens so. -/
theorem Reopens.write (h : Reopens server dir before fs) {name : FileName} {data : Bytes}
    (hentry : IsEntryName name) (hname : name ≠ metaName)
    (hexec : fs.exec (.write dir name data) = some fs') : Reopens server dir before fs' := by
  rw [FileSystem.exec, fileTarget_entry hentry] at hexec
  simp only [ite_none_right_eq_some, Option.some.injEq] at hexec
  obtain ⟨-, rfl⟩ := hexec
  refine h.of_files ?_ fun other _ hother => ?_
  · rw [FileSystem.files_setFile, if_neg (mt entry_eq_entry.mp hname.symm)]
  · rw [FileSystem.files_setFile]
    split
    · rfl
    · exact hother

end Between

section Throughout

variable {server : ServerIndex} {bytes : Bytes} {manifest old : IndexMeta} {delta : IndexDelta}
  {before fs : FileSystem} {dir : FilePath} {listing : List FileName}

section

variable (hdelta : DeltaFor server manifest old delta)
include hdelta

/-- No segment merged away: nothing is removed. -/
theorem removeOps_eq_nil
    (hkept : ∀ segment ∈ old.segments, segment.id ∈ manifest.segments.map SegmentMeta.id) :
    removeOps dir delta listing = [] := by
  refine eq_nil_iff_forall_not_mem.mpr fun op hop => ?_
  obtain ⟨name, -, hremoves, -⟩ := mem_removeOps.mp hop
  obtain ⟨segment, hsegment, hgone, -⟩ := (removes_iff hdelta name).mp hremoves
  exact hgone (hkept segment hsegment)

/-- The manifest is not removed: its name is shorter than an id. -/
theorem not_removes_metaName : ¬ delta.removes metaName = true := by
  rw [removes_iff hdelta]
  rintro ⟨segment, -, -, hbegins⟩
  have hle := ( isPrefixOf_iff_prefix.mp hbegins).length_le
  rw [segment.id.length] at hle
  exact absurd hle (by decide)

theorem metaName_not_mem_added : metaName ∉ delta.addedFiles.map Prod.fst := by
  intro h
  obtain ⟨file, hfile, heq⟩ := mem_map.mp h
  exact ne_of_isIndexName (isIndexName_of_mem_addedFiles hdelta hfile) (by decide) heq

end

/-- What a snapshot reads. -/
theorem snapshot_parse (hsnapshot : server.snapshot = .ok (bytes, manifest)) :
    server.directory metaName = some bytes ∧ server.parseMetas bytes = some manifest := by
  rw [ServerIndex.snapshot] at hsnapshot
  split at hsnapshot
  · cases hsnapshot
  · next hbytes =>
    split at hsnapshot
    · cases hsnapshot
    · next hparse =>
      cases hsnapshot
      exact ⟨hbytes, hparse⟩

/-- Behind the writes every file the new manifest requires is there. -/
theorem required_written (hdelta : DeltaFor server manifest old delta)
    (hclient : OlderClient server manifest old fs dir)
    (hserver : ∀ name ∈ requiredFiles server.directory manifest,
      (server.directory name).isSome = true)
    (hpairs : PairsArrive server manifest fs dir) {written : FileSystem}
    (hread : ∀ name, written.files (dir ++ [name]) =
      if name ∈ delta.addedFiles.map Prod.fst then server.directory name
      else fs.files (dir ++ [name])) :
    ∀ name ∈ requiredFiles server.directory manifest,
      (written.files (dir ++ [name])).isSome = true := by
  intro name hname
  obtain ⟨data, hdata⟩ := isSome_iff_exists.mp (hserver name hname)
  rw [hread name]
  by_cases hadded : name ∈ delta.addedFiles.map Prod.fst
  · rw [if_pos hadded, hdata]
    rfl
  rw [if_neg hadded]
  have hunshipped := mt (mem_added_names_iff hdelta hdata).mpr hadded
  rcases mem_requiredFiles.mp hname with ⟨segment, hsegment, hname⟩ |
    ⟨dictionary, hdictionary, ⟨generation, hgeneration, hname, -⟩ |
      ⟨⟨segment, hsegment, fieldId, hfield, hname⟩, hhas⟩⟩
  · have hnew : ¬ (segment.id.uuidString ∈ old.segmentIds → isDeleteFile name = true) :=
      fun hdel => hunshipped (.inl ⟨segment, hsegment, hname, hdel⟩)
    obtain ⟨hold, hdel⟩ := Classical.not_imp.mp hnew
    rw [Bool.not_eq_true] at hdel
    rw [hclient.shared segment hsegment hold name hname hdel data hdata]
    rfl
  · exact absurd (.inr ⟨dictionary, hdictionary, .inl ⟨generation, hgeneration, hname⟩⟩) hunshipped
  · refine (hpairs dictionary hdictionary segment hsegment fieldId hfield name hname
      hhas).resolve_left fun hbundle => hunshipped ?_
    exact .inr ⟨dictionary, hdictionary, .inr ⟨segment, hsegment, fieldId, hfield, hbundle⟩⟩

/-- The client behind the writes: the shipped files are the server's, the manifest is still old. -/
structure Written (server : ServerIndex) (delta : IndexDelta) (fs : FileSystem) (dir : FilePath)
    (written : FileSystem) : Prop where
  /-- The writes end there. -/
  run : runOps fs (writeOps dir delta) = some written
  /-- The directory is still one of files. -/
  flat : FlatDirectory written dir
  files : ∀ name, written.files (dir ++ [name]) =
    if name ∈ delta.addedFiles.map Prod.fst then server.directory name else fs.files (dir ++ [name])
  manifest : written.files (dir ++ [metaName]) = fs.files (dir ++ [metaName])
  /-- No file is lost. -/
  keeps : ∀ name, (fs.files (dir ++ [name])).isSome = true →
    (written.files (dir ++ [name])).isSome = true

theorem exists_written (hdelta : DeltaFor server manifest old delta)
    (hflat : FlatDirectory fs dir) : ∃ written, Written server delta fs dir written := by
  have hfiles := exported_files hdelta
  obtain ⟨written, hrun, hdir, hread⟩ := hflat.runOps_writes server.directory hfiles
  refine ⟨written, hrun, hflat.of_isDir_eq hdir, hread, ?_, fun name hname => ?_⟩
  · rw [hread metaName, if_neg (metaName_not_mem_added hdelta)]
  · rw [hread name]
    split
    · next hadded =>
      obtain ⟨file, hfile, rfl⟩ := mem_map.mp hadded
      rw [(hfiles file hfile).2]
      rfl
    · exact hname

/-- **A segment merged away**: its postings are gone while the manifest still lists it. -/
theorem exists_not_reopens (hdelta : DeltaFor server manifest old delta)
    (hflat : FlatDirectory fs dir) (hmanifest : HasManifest server.parseMetas dir fs old)
    (hreopens : Reopens server dir before fs)
    (hlist : ∀ written, runOps fs (writeOps dir delta) = some written → Lists written dir listing)
    {segment : SegmentMeta} (hsegment : segment ∈ old.segments)
    (hgone : segment.id ∉ manifest.segments.map SegmentMeta.id) :
    ∃ fs' ∈ statesAfter fs (deltaOps dir delta listing), ¬ Reopens server dir before fs' := by
  obtain ⟨oldBytes, hbytes, hparse⟩ : ∃ oldBytes,
      fs.files (dir ++ [metaName]) = some oldBytes ∧ server.parseMetas oldBytes = some old := by
    rcases hmanifest with h | ⟨-, hnone⟩
    · exact h
    · rw [hnone] at hsegment
      exact absurd hsegment not_mem_nil
  have hrequired : segment.relativePath .postings ∈
      requiredFiles (originOf server dir before oldBytes) old :=
    postings_mem_requiredFiles hsegment
  have hremoves : delta.removes (segment.relativePath .postings) = true :=
    (removes_iff hdelta _).mpr
      ⟨segment, hsegment, hgone, by rw [SegmentMeta.relativePath, isPrefixOf_segmentFile]⟩
  obtain ⟨written, hwritten⟩ := exists_written hdelta hflat
  have hlisted := hlist written hwritten.run
  obtain ⟨removed, hremove, -, hread⟩ := runOps_removeOps delta hlisted
  refine ⟨removed, ?_, fun hreopened => ?_⟩
  · rw [deltaOps, mem_statesAfter_append]
    refine .inr ⟨written, hwritten.run, mem_statesAfter_append.mpr (.inl ?_)⟩
    refine mem_statesAfter_of_runOps ?_ hremove
    -- the postings are on the client, so they are listed and removed
    have hpresent := hwritten.keeps _ (hreopens oldBytes old hbytes hparse _ hrequired)
    exact ne_nil_of_mem (mem_removeOps.mpr ⟨_, (hlisted _).mpr hpresent, hremoves, rfl⟩)
  · have hmeta : removed.files (dir ++ [metaName]) = some oldBytes := by
      rw [hread metaName, if_neg (not_removes_metaName hdelta), hwritten.manifest, hbytes]
    have hnone := hreopened oldBytes old hmeta hparse _ hrequired
    rw [hread, if_pos hremoves] at hnone
    cases hnone

/-- Writes of entries other than the manifest keep a client that reopens so. -/
theorem Reopens.writes {fs' : FileSystem} {files : List (FileName × Bytes)}
    (h : Reopens server dir before fs)
    (hfiles : ∀ file ∈ files, IsEntryName file.1 ∧ file.1 ≠ metaName)
    (hfs' : fs' ∈ statesAfter fs (files.map fun file => .write dir file.1 file.2)) :
    Reopens server dir before fs' := by
  refine statesAfter_invariant ?_ h hfs'
  intro op hop state after hstate hexec
  obtain ⟨file, hfile, rfl⟩ := mem_map.mp hop
  exact hstate.write (hfiles file hfile).1 (hfiles file hfile).2 hexec

/-- Step 3: the manifest under its temporary name, then in place. -/
theorem Reopens.manifestOps {fs' renamed : FileSystem} (h : Reopens server dir before fs)
    (hflat : FlatDirectory fs dir) (hrun : runOps fs (manifestOps dir delta) = some renamed)
    (hrenamed : Reopens server dir before renamed)
    (hfs' : fs' ∈ statesAfter fs (manifestOps dir delta)) : Reopens server dir before fs' := by
  have hwrite : fs.exec (.write dir metaTmpName delta.metaJson) = _ :=
    hflat.exec_write isEntryName_metaTmpName
  rw [Lucistore.manifestOps, runOps_cons, hwrite, bind_some, runOps_cons] at hrun
  obtain ⟨next, hnext, hdone⟩ := bind_eq_some_iff.mp hrun
  cases hdone
  rw [Lucistore.manifestOps, statesAfter, hwrite] at hfs'
  rcases mem_cons.mp hfs' with rfl | hfs'
  · exact h.write isEntryName_metaTmpName (by decide) hwrite
  · rw [statesAfter, hnext] at hfs'
    obtain rfl := mem_singleton.mp hfs'
    exact hrenamed

/-- **No segment merged away, and the pairs arrive**: the client reopens throughout. -/
theorem reopens_of_kept (hdelta : DeltaFor server manifest old delta)
    (hserver : ∀ name ∈ requiredFiles server.directory manifest,
      (server.directory name).isSome = true)
    (hclient : OlderClient server manifest old fs dir)
    (hreopens : Reopens server dir before fs)
    (hkept : ∀ segment ∈ old.segments, segment.id ∈ manifest.segments.map SegmentMeta.id)
    (hpairs : PairsArrive server manifest fs dir)
    {fs' : FileSystem} (hfs' : fs' ∈ statesAfter fs (deltaOps dir delta listing)) :
    Reopens server dir before fs' := by
  obtain ⟨written, hwritten⟩ := exists_written hdelta hclient.flat
  obtain ⟨renamed, hrename, -, hmetaNew, hsame⟩ := runOps_manifestOps delta hwritten.flat
  obtain ⟨hbytes, hparse⟩ := snapshot_parse hdelta.snapshot
  -- once the new manifest is in place, what it requires is there
  have hrenamed : Reopens server dir before renamed := by
    intro bytes' manifest' hbytes' hparse' name hname
    rw [hmetaNew] at hbytes'
    cases hbytes'
    rw [hparse] at hparse'
    cases hparse'
    rw [originOf, if_pos hbytes] at hname
    have hindex := isIndexName_of_mem_requiredFiles hname
    rw [hsame name (ne_of_isIndexName hindex (by decide)) (ne_of_isIndexName hindex (by decide))]
    exact required_written hdelta hclient hserver hpairs hwritten.files name hname
  rw [deltaOps, removeOps_eq_nil hdelta hkept, nil_append, mem_statesAfter_append] at hfs'
  rcases hfs' with hfs' | ⟨mid, hmid, hfs'⟩
  · refine hreopens.writes (fun file hfile => ?_) hfs'
    exact ⟨(exported_files hdelta file hfile).1, ne_of_isIndexName
      (isIndexName_of_mem_addedFiles hdelta hfile) (by decide)⟩
  obtain rfl : written = mid := Option.some.inj (hwritten.run.symm.trans hmid)
  have hreopened : Reopens server dir before written :=
    hreopens.of_files hwritten.manifest fun name _ hname => hwritten.keeps name hname
  rcases mem_statesAfter_append.mp hfs' with hfs' | ⟨mid, hmid, hfs'⟩
  · exact hreopened.manifestOps hwritten.flat hrename hrenamed hfs'
  · obtain rfl : renamed = mid := Option.some.inj (hrename.symm.trans hmid)
    refine statesAfter_invariant ?_ hrenamed hfs'
    intro op hop state after hstate hexec
    obtain ⟨config, -, rfl⟩ := mem_map.mp hop
    exact hstate.write isEntryName_configName (by decide) hexec

/-- **A client that reopens behind the rename has got the pairs.** -/
theorem pairsArrive_of_reopens (hdelta : DeltaFor server manifest old delta)
    (hclient : OlderClient server manifest old fs dir)
    (hkept : ∀ segment ∈ old.segments, segment.id ∈ manifest.segments.map SegmentMeta.id)
    (hall : ∀ fs' ∈ statesAfter fs (deltaOps dir delta listing), Reopens server dir before fs') :
    PairsArrive server manifest fs dir := by
  intro dictionary hdictionary segment hsegment fieldId hfield name hname hhas
  obtain ⟨written, hwritten⟩ := exists_written hdelta hclient.flat
  obtain ⟨renamed, hrename, -, hmetaNew, hsame⟩ := runOps_manifestOps delta hwritten.flat
  obtain ⟨hbytes, hparse⟩ := snapshot_parse hdelta.snapshot
  have hreached : renamed ∈ statesAfter fs (deltaOps dir delta listing) := by
    rw [deltaOps, removeOps_eq_nil hdelta hkept, nil_append, mem_statesAfter_append]
    refine .inr ⟨written, hwritten.run, mem_statesAfter_append.mpr (.inl ?_)⟩
    exact mem_statesAfter_of_runOps (cons_ne_nil _ _) hrename
  have hrequired : name ∈ requiredFiles (originOf server dir before delta.metaJson) manifest := by
    rw [originOf, if_pos hbytes]
    exact mem_requiredFiles.mpr (.inr ⟨dictionary, hdictionary,
      .inr ⟨⟨segment, hsegment, fieldId, hfield, hname⟩, hhas⟩⟩)
  have hindex := isIndexName_of_mem_requiredFiles hrequired
  have hthere := hall renamed hreached delta.metaJson manifest hmetaNew hparse name hrequired
  rw [hsame name (ne_of_isIndexName hindex (by decide)) (ne_of_isIndexName hindex (by decide)),
    hwritten.files name] at hthere
  -- it was written, and then it is in its bundle, or it was there
  split at hthere
  · next hadded =>
    obtain ⟨data, hdata⟩ := isSome_iff_exists.mp hhas
    exact .inl ((shipped_pairFile_iff hdictionary hsegment hfield hname).mp
      ((mem_added_names_iff hdelta hdata).mp hadded))
  · exact .inr hthere

/-- **A client can reopen at every point of a delta exactly if no segment of its manifest has been
merged away and the pairs of the new manifest arrive.** -/
theorem reopens_throughout_iff (version : Text)
    (hsnapshot : server.snapshot = .ok (bytes, manifest))
    (hserver : ∀ name ∈ requiredFiles server.directory manifest,
      (server.directory name).isSome = true)
    (hexport : exportDeltaFrom (lucivyExporter server) old.segmentIds version = .ok delta)
    (hclient : OlderClient server manifest old fs dir)
    (hmanifest : HasManifest server.parseMetas dir fs old)
    (hreopens : Reopens server dir fs fs)
    (hlist : ∀ written, runOps fs (writeOps dir delta) = some written → Lists written dir listing) :
    (∀ fs' ∈ statesAfter fs (deltaOps dir delta listing), Reopens server dir fs fs') ↔
      (∀ segment ∈ old.segments, segment.id ∈ manifest.segments.map SegmentMeta.id) ∧
        PairsArrive server manifest fs dir := by
  have hdelta := deltaFor hsnapshot hexport
  constructor
  · intro hall
    have hkept : ∀ segment ∈ old.segments, segment.id ∈ manifest.segments.map SegmentMeta.id := by
      intro segment hsegment
      by_contra hgone
      obtain ⟨fs', hfs', hbroken⟩ := exists_not_reopens hdelta hclient.flat hmanifest
        hreopens hlist hsegment hgone
      exact hbroken (hall fs' hfs')
    exact ⟨hkept, pairsArrive_of_reopens hdelta hclient hkept hall⟩
  · rintro ⟨hkept, hpairs⟩ fs' hfs'
    exact reopens_of_kept hdelta hserver hclient hreopens hkept hpairs hfs'

end Throughout

/-! ## A merge since the client's version -/

/-- The client has its manifest. -/
theorem staleFiles_meta :
    (directoryOf clientDir staleFiles).files (clientDir ++ [metaName]) = some [0] := by
  decide

/-- **A client that has a segment of the server's reopens throughout**, while another segment, a
generation and a pair come. -/
theorem reopens_throughout_grown :
    (statesAfter (directoryOf clientDir staleFiles)
      (deltaOps clientDir grownDelta
        (grownDelta.addedFiles.map Prod.fst ++ staleFiles.map Prod.fst))).length = 14 ∧
    ∀ fs' ∈ statesAfter (directoryOf clientDir staleFiles)
        (deltaOps clientDir grownDelta
          (grownDelta.addedFiles.map Prod.fst ++ staleFiles.map Prod.fst)),
      Reopens grownServer clientDir (directoryOf clientDir staleFiles) fs' := by
  have hserver : ∀ name ∈ requiredFiles grownServer.directory grownManifest,
      (grownServer.directory name).isSome = true := by decide
  refine ⟨by decide, ?_⟩
  refine (reopens_throughout_iff [] grownServer_snapshot hserver grownDelta_stale
    olderClient_grown (.inl ⟨[0], staleFiles_meta, rfl⟩) (fun bytes manifest hbytes hparse => ?_)
    (lists_directory _ grownDelta_files)).mpr ⟨by decide, ?_⟩
  · cases staleFiles_meta.symm.trans hbytes
    cases hparse
    decide
  · intro dictionary hdictionary segment hsegment fieldId hfield name hname hhas
    exact .inl (grownPairs dictionary hdictionary segment hsegment fieldId hfield name hname hhas)

/-- **A crash behind the removals leaves a client that cannot reopen.** -/
theorem crash_behind_removals :
    exportDeltaFrom (lucivyExporter mergedServer) clientManifest.segmentIds [] =
        .ok mergedDelta ∧
    Reopens mergedServer clientDir (directoryOf clientDir staleFiles)
      (directoryOf clientDir staleFiles) ∧
    ∃ listing, (∀ written, runOps (directoryOf clientDir staleFiles)
        (writeOps clientDir mergedDelta) = some written →
          Lists written clientDir listing) ∧
      ∃ fs' ∈ statesAfter (directoryOf clientDir staleFiles)
          (deltaOps clientDir mergedDelta listing),
        ¬ Reopens mergedServer clientDir (directoryOf clientDir staleFiles) fs' := by
  have hreopens : Reopens mergedServer clientDir (directoryOf clientDir staleFiles)
      (directoryOf clientDir staleFiles) := by
    intro bytes manifest hbytes hparse
    cases staleFiles_meta.symm.trans hbytes
    cases hparse
    decide
  have hlist := lists_directory staleFiles mergedDelta_files
  refine ⟨mergedDelta_stale, hreopens, _, hlist, ?_⟩
  exact exists_not_reopens (deltaFor mergedServer_snapshot mergedDelta_stale)
    olderClient_stale.flat (.inl ⟨[0], staleFiles_meta, rfl⟩) hreopens hlist mem_cons_self
    (by decide)

/-! ## Applying the delta again -/

/-- **Applying the delta again mends a crash**: wherever the first application stops, one from
there ends, and the files of the index are those an application without a stop leaves. -/
def MendedByRetry (fs : FileSystem) (dir : FilePath) (delta : IndexDelta)
    (listing : List FileName) : Prop :=
  ∃ whole, runOps fs (deltaOps dir delta listing) = some whole ∧
    ∀ crashed ∈ statesAfter fs (deltaOps dir delta listing), ∀ listing',
      (∀ written, runOps crashed (writeOps dir delta) = some written →
        Lists written dir listing') →
      ∃ again, runOps crashed (deltaOps dir delta listing') = some again ∧
        ∀ name ∉ ownNames, again.files (dir ++ [name]) = whole.files (dir ++ [name])

section Again

variable {delta : IndexDelta} {fs fs' : FileSystem} {dir : FilePath} {listing : List FileName}

theorem isDir_eq_of_mem_statesAfter (h : fs' ∈ statesAfter fs (deltaOps dir delta listing)) :
    fs'.isDir = fs.isDir := by
  refine statesAfter_invariant (P := fun state => state.isDir = fs.isDir) ?_ rfl h
  intro op hop before after hbefore hexec
  rw [← hbefore]
  cases op with
  | createDirAll made => simp [deltaOps, writeOps, removeOps, manifestOps, configOps] at hop
  | _ => grind [FileSystem.exec, FileSystem.setFile]

/-- A name the delta neither brings nor removes keeps its content. -/
theorem files_eq_of_untouched (hfiles : ∀ file ∈ delta.addedFiles, IsEntryName file.1)
    {name : FileName} (hown : name ∉ ownNames) (hremoves : ¬ delta.removes name = true)
    (hadded : name ∉ delta.addedFiles.map Prod.fst)
    (h : fs' ∈ statesAfter fs (deltaOps dir delta listing)) :
    fs'.files (dir ++ [name]) = fs.files (dir ++ [name]) := by
  refine files_eq_of_mem_statesAfter (fun op hop htarget => ?_) h
  simp only [deltaOps, writeOps, manifestOps, configOps, mem_append, List.mem_map, mem_removeOps,
    mem_cons, not_mem_nil, or_false] at hop
  rcases hop with ⟨file, hfile, rfl⟩ | ⟨other, -, hother, rfl⟩ | (rfl | rfl) | ⟨config, -, rfl⟩
  · rw [FileOp.Targets, fileTarget_entry (hfiles file hfile), some_inj, entry_eq_entry] at htarget
    exact hadded (htarget ▸ mem_map_of_mem hfile)
  · exact hremoves (entry_eq_entry.mp htarget ▸ hother)
  all_goals
    simp only [FileOp.Targets, fileTarget_entry isEntryName_metaTmpName, some_inj,
      fileTarget_entry isEntryName_configName, entry_eq_entry] at htarget
    grind [ownNames]

theorem mendedByRetry (source : FileName → Option Bytes) (h : FlatDirectory fs dir)
    (hfiles : ∀ file ∈ delta.addedFiles, IsEntryName file.1 ∧ source file.1 = some file.2)
    (hlist : ∀ written, runOps fs (writeOps dir delta) = some written → Lists written dir listing) :
    MendedByRetry fs dir delta listing := by
  obtain ⟨whole, hwhole, hends⟩ := runOps_deltaOps source h hfiles hlist
  refine ⟨whole, hwhole, fun crashed hcrashed listing' hlist' => ?_⟩
  have hflat := h.of_isDir_eq (isDir_eq_of_mem_statesAfter hcrashed)
  obtain ⟨again, hagain, hread⟩ := runOps_deltaOps source hflat hfiles hlist'
  refine ⟨again, hagain, fun name hname => ?_⟩
  rw [hread name hname, hends name hname]
  split_ifs with hremoves hadded
  · rfl
  · rfl
  · exact files_eq_of_untouched (fun file hfile => (hfiles file hfile).1) hname hremoves hadded
      hcrashed

end Again

theorem mendedByRetry_stale :
    MendedByRetry (directoryOf clientDir staleFiles) clientDir mergedDelta
      (mergedDelta.addedFiles.map Prod.fst ++ staleFiles.map Prod.fst) :=
  mendedByRetry mergedServer.directory olderClient_stale.flat mergedDelta_files
    (lists_directory _ mergedDelta_files)

end Lucivy.Sync
