import Lucivy.Indexer.AccountedTexts

/-! # The texts committed segments refer to

The whole life of an index with a shard dictionary: documents are interned, segments cut,
commits made, folds and merges run, and the writer may roll back or delete everything. A
committed segment stores ids; the texts stand in the parts `meta.json` names.

* `IndexingStep` — the steps of the writer, its workers, the updater and the fold.
* `CommittedTextsNamed` — every text a listed segment refers to is in a part the same
  `meta.json` names.
* `SafeStep` — no step throws away the only copy of a text: a rollback, a
  `delete_all_documents` or a failed flush discards minted texts only when the live dictionary
  names them elsewhere; merges start settled; files open.
* `committed_texts_named` — under that condition it holds in every state reached.
* `rollback_keeps_ids_without_texts` — a rollback drops the pair and keeps the pending table,
  so the next segment refers to an id whose text is nowhere. -/

namespace Lucivy.Indexer

open Lucivy.Foundation Lucivy.SuffixFst List Function

variable {τ : Type}

/-- The index and what its indexers hold. -/
structure IndexingState (τ : Type) where
  /-- The updater's state, with the dictionary and its files. -/
  index : SegmentUpdaterState τ
  interned : Interned τ

/-! ## The writer's operations -/

/-- `intern_extended` of a collector with a dictionary: a text it has not seen yet is looked up
or minted. -/
def OpenWriter.intern [DecidableEq τ] (o : OpenWriter τ) (d : SfxDictionary τ)
    (shared : DictionaryShared τ) (cached : Option GlobalId) (maybe : Bool) (f : FieldId)
    (key : τ) : OpenWriter τ × DictionaryShared τ :=
  if o.refs.any (fun r => r.1 = f ∧ r.2.2 = key) then (o, shared)
  else
    let found := lookupOrMint d shared cached maybe f key
    (⟨o.refs ++ [(f, found.1.1, key)],
      if found.1.2 then o.minted ++ [(f, found.1.1, key)] else o.minted⟩, found.2)

/-- `minted_texts` of a field. -/
def OpenWriter.pair (o : OpenWriter τ) (f : FieldId) : Texts τ :=
  (o.minted.filter (·.1 = f)).map Prod.snd

theorem OpenWriter.mem_pair {o : OpenWriter τ} {f : FieldId} {x : GlobalId × τ} :
    x ∈ o.pair f ↔ (f, x) ∈ o.minted := by
  simp only [pair, mem_map, mem_filter, decide_eq_true_eq]
  constructor
  · rintro ⟨⟨f', x'⟩, ⟨hr, rfl⟩, rfl⟩
    exact hr
  · exact fun h => ⟨(f, x), ⟨h, rfl⟩, rfl⟩

/-- Worker `n` interns a text. -/
def IndexingState.intern [DecidableEq τ] (s : IndexingState τ) (n : Nat) (o : OpenWriter τ)
    (d : SfxDictionary τ) (cached : Option GlobalId) (maybe : Bool) (f : FieldId) (key : τ) :
    IndexingState τ :=
  let result := o.intern d s.index.dictionaryShared cached maybe f key
  { index := { s.index with dictionaryShared := result.2 }
    interned := { s.interned with writers := s.interned.writers.set n result.1 } }

/-- A segment is finalized: its pair is written, and it joins the uncommitted register. -/
def IndexingState.cut (s : IndexingState τ) (n : Nat) (o : OpenWriter τ) (entry : SegmentEntry) :
    IndexingState τ where
  index := { s.index with
    registers := s.index.registers.addSegment entry
    directory := s.index.directory.writeMinted entry.id fun f =>
      if o.pair f = [] then none else some (o.pair f) }
  interned := { s.interned with
    writers := s.interned.writers.eraseIdx n
    refs := Function.update s.interned.refs entry.id o.refs
    known := entry.id :: s.interned.known
    merged_known := fun id hid => mem_cons_of_mem _ (s.interned.merged_known id hid) }

/-- `rollback`: a new updater on what `meta.json` lists; the live dictionary is refreshed, the
pending table stays. -/
def rollbackIndex (s : SegmentUpdaterState τ) : SegmentUpdaterState τ :=
  refreshSfxDictionary s.metaJson
    { s with
      registers := .fromSegments s.metaJson.segments
      activeIndexMeta := s.metaJson
      pendingMergeTasks := false
      merging := []
      inFlight := [] }

/-- `delete_all_documents`: `remove_all_segments`. -/
def deleteAllDocuments (s : SegmentUpdaterState τ) : SegmentUpdaterState τ :=
  { s with registers := s.registers.removeAllSegments }

/-- The merged segments come into being. -/
def Interned.withMerged (c : Interned τ) (ids : List SegmentId)
    (refs : SegmentId → List (TextRef τ)) : Interned τ :=
  { c with
    refs := fun id => if id ∈ ids then refs id else c.refs id
    known := ids ++ c.known
    merged := ids ++ c.merged
    merged_known := fun id hid => by
      rcases mem_append.mp hid with hid | hid
      · exact mem_append_left _ hid
      · exact mem_append_right _ (c.merged_known id hid) }

/-- The segments an event's finished merges make. -/
def mergedIds (merges : List (MergeOperation × TaskResult)) : List SegmentId :=
  merges.filterMap fun p => match p.2 with
    | .merged (some e) => some e.id
    | _ => none

/-- The messages that come without the writer waiting for its workers: merges and folds. -/
def Message.IsBackground : Message → Prop
  | .startMerge _ _ => True
  | .startMerges _ => True
  | .compact _ => True
  | .mergesDone _ _ => True
  | .dictionaryFolded => True
  | _ => False

/-! ## The steps -/

/-- What happens in one step. -/
inductive IndexingEvent (τ : Type)
  | openWriter
  /-- A worker interns a text; `cached` and `maybe` are the cache's and the filter's answers. -/
  | intern (writer : Nat) (field : FieldId) (key : τ) (cached : Option GlobalId) (maybe : Bool)
  /-- A segment is finalized. -/
  | cut (writer : Nat) (entry : SegmentEntry)
  /-- A document or the finalization fails, and the segment is dropped. -/
  | discard (writer : Nat)
  /-- `begin_commit_epoch`. -/
  | turnEpoch
  /-- A commit message, every worker flushed. -/
  | commit (io : Io) (opstamp : Opstamp) (payload : Option String)
  /-- The background fold goes one step further. -/
  | foldStep (io : Io)
  /-- A merge or fold message; merged segments refer to `refs`. -/
  | message (m : Message) (io : Io) (refs : SegmentId → List (TextRef τ))
  /-- `rollback`, every worker flushed. -/
  | rollback
  /-- `delete_all_documents`. -/
  | deleteAll

/-- **One step of the index.** A new segment's id is new; a merged segment refers to what its
sources refer to. -/
inductive IndexingStep [DecidableEq τ] :
    IndexingState τ → IndexingEvent τ → IndexingState τ → Prop
  | openWriter {s : IndexingState τ} :
      IndexingStep s .openWriter { s with interned := { s.interned with
        writers := s.interned.writers ++ [⟨[], []⟩] } }
  | intern {s : IndexingState τ} {n : Nat} {f : FieldId} {key : τ} {cached : Option GlobalId}
      {maybe : Bool} {o : OpenWriter τ} {d : SfxDictionary τ} :
      s.interned.writers[n]? = some o → s.index.dictionary = some d →
      IndexingStep s (.intern n f key cached maybe) (s.intern n o d cached maybe f key)
  | cut {s : IndexingState τ} {n : Nat} {o : OpenWriter τ} {entry : SegmentEntry} :
      s.interned.writers[n]? = some o → entry.id ∉ s.interned.known →
      (∀ r ∈ o.minted, r.1 ∈ entry.info.sfxFieldIds) →
      IndexingStep s (.cut n entry) (s.cut n o entry)
  | discard {s : IndexingState τ} {n : Nat} :
      IndexingStep s (.discard n) { s with interned := { s.interned with
        writers := s.interned.writers.eraseIdx n } }
  | turnEpoch {s : IndexingState τ} :
      IndexingStep s .turnEpoch { s with index := { s.index with
        dictionaryShared := s.index.dictionaryShared.beginCommitEpoch } }
  | commit {s : IndexingState τ} {io : Io} {opstamp : Opstamp} {payload : Option String} :
      s.interned.writers = [] →
      IndexingStep s (.commit io opstamp payload)
        { s with index := finalState (handleCommit io opstamp payload) s.index }
  | foldStep {s : IndexingState τ} {io : Io} :
      IndexingStep s (.foldStep io) { s with index := foldStep io s.index }
  | message {s : IndexingState τ} {m : Message} {io : Io} {refs : SegmentId → List (TextRef τ)} :
      m.IsBackground →
      (∀ id ∈ mergedIds (finishedMerges s.index (.handled m io (.ok ()))), id ∉ s.interned.known) →
      (∀ op e, (op, .merged (some e)) ∈ finishedMerges s.index (.handled m io (.ok ())) →
        ∀ r ∈ refs e.id, ∃ id ∈ op.segmentIds, id ∈ s.interned.known ∧ r ∈ s.interned.refs id) →
      IndexingStep s (.message m io refs)
        ⟨finalState (handle io m) s.index, s.interned.withMerged
          (mergedIds (finishedMerges s.index (.handled m io (.ok ())))) refs⟩
  | rollback {s : IndexingState τ} : s.interned.writers = [] →
      IndexingStep s .rollback { s with index := rollbackIndex s.index }
  | deleteAll {s : IndexingState τ} :
      IndexingStep s .deleteAll { s with index := deleteAllDocuments s.index }

/-! ## What is wanted, and when it holds -/

/-- **Every text a listed segment refers to stands in a part the same `meta.json` names.** -/
def CommittedTextsNamed (s : IndexingState τ) : Prop :=
  ∀ m ∈ s.index.metaJson.segments, ∀ r ∈ s.interned.refs m.id, DiskNamed s.index r

/-- **No step throws away the only copy of a text.** A dropped writer, a rollback and
`delete_all_documents` lose minted texts only if the live dictionary names them; a rollback
finds the live dictionary as `meta.json` names it, or ahead of it by a fold; no merge is
prepared while a segment waits uncommitted; commits and folds open every file. -/
def SafeStep (s : IndexingState τ) : IndexingEvent τ → Prop
  | .discard n => ∀ o, s.interned.writers[n]? = some o → ∀ r ∈ o.minted, LiveNamed s.index r
  | .commit io _ _ => OpensParts io
  | .foldStep io => OpensParts io
  | .message m io _ => MergeStartsSettled s.index (.handled m io (.ok ()))
  | .rollback => UncommittedNamed s.index ∧
      ∀ d info, s.index.dictionary = some d → s.index.metaJson.sfxDictionary = some info →
        d.sameParts info = true ∨ info.nextGeneration < d.info.nextGeneration
  | .deleteAll => UncommittedNamed s.index
  | _ => True

/-- **An index just opened**, a new one too: nothing is under way, the live dictionary is the
one of `meta.json`, and it names the texts of the listed segments. -/
structure IndexOpened (s : IndexingState τ) : Prop where
  writers : s.interned.writers = []
  uncommitted : s.index.registers.uncommitted = .empty
  committed : ∀ id ∈ s.index.registers.committed.ids, id ∈ s.index.metaJson.segmentIds
  inFlight : s.index.inFlight = []
  fold : s.index.fold = .idle
  table : s.index.dictionaryShared.pending = []
  active : s.index.activeIndexMeta = s.index.metaJson
  known : ∀ id ∈ s.index.metaJson.segmentIds, id ∈ s.interned.known
  /-- Unknown and merged segments have no pair. -/
  pairless : ∀ id, id ∉ s.interned.known ∨ id ∈ s.interned.merged →
    ∀ f, mintedTexts s.index.directory id f = []
  /-- `open_from_metas`. -/
  dictionary : s.index.dictionary = some (openFromMetas s.index.directory s.index.metaJson)
  /-- `meta.json` covers the parts it names, and they hold the texts. -/
  covers : Covers s.index.directory (namedParts s.index.metaJson)
  pending : ∀ id ∈ (namedParts s.index.metaJson).pendingSegments, id ∈ s.interned.known
  named : ∀ id ∈ s.index.metaJson.segmentIds, ∀ r ∈ s.interned.refs id,
    Named s.index.directory (namedParts s.index.metaJson) r

/-! ## The writers' steps -/

section Writers

variable {c : Interned τ} {s : SegmentUpdaterState τ}

section

variable (h : Accounted c [] s)
include h

/-- The open writers and the pending table change, and no minted text is lost. -/
theorem Accounted.with_writers {writers : List (OpenWriter τ)} {shared : DictionaryShared τ}
    (hminted : ∀ o ∈ c.writers, ∀ r ∈ o.minted, LiveNamed s r ∨ ∃ q ∈ writers, r ∈ q.minted)
    (hrefs : ∀ o ∈ writers, ∀ r ∈ o.refs, Backed c s r ∨ r ∈ o.minted)
    (htable : ∀ p ∈ shared.pending, Backed c s (p.fieldId, p.id, p.key) ∨
      ∃ q ∈ writers, (p.fieldId, p.id, p.key) ∈ q.minted) :
    Accounted { c with writers := writers } [] { s with dictionaryShared := shared } := by
  have hback : ∀ r, Backed c s r → Backed { c with writers := writers } s r := by
    rintro r (hr | hr | ⟨o, ho, hr⟩)
    · exact .inl hr
    · exact .inr (.inl hr)
    · exact (hminted o ho r hr).imp_right .inr
  obtain ⟨d, w, hd⟩ := h.parts
  refine { h with
    parts := ⟨d, w, { hd with }⟩
    uncommitted := fun id hid r hr => hback r (h.uncommitted id hid r hr)
    writers := fun o ho r hr =>
      (hrefs o ho r hr).elim (hback r) fun hr => .inr (.inr ⟨o, ho, hr⟩)
    table := fun p hp => (htable p hp).elim (hback _) fun hq => .inr (.inr hq)
    known := ?_ }
  exact h.known_of (fun id hid => h.known id (.uncommitted hid))
    (fun id hid => h.known id (.committed hid)) (fun id hid => h.known id (.inFlight hid)) rfl rfl

theorem openWriter_accounted : Accounted { c with writers := c.writers ++ [⟨[], []⟩] } [] s := by
  refine h.with_writers (fun o ho r hr => .inr ⟨o, mem_append_left _ ho, hr⟩)
    (forall_mem_append.mpr ⟨fun o ho r hr => .inl (h.writers o ho r hr), ?_⟩)
    fun p hp => .inl (h.table p hp)
  exact forall_mem_singleton.mpr (forall_mem_nil _)

theorem turnEpoch_accounted :
    Accounted c [] { s with dictionaryShared := s.dictionaryShared.beginCommitEpoch } :=
  h.with_writers (fun o ho _ hr => .inr ⟨o, ho, hr⟩)
    (fun o ho r hr => .inl (h.writers o ho r hr)) fun p hp => .inl (h.table p hp)

/-- A writer is dropped whose minted texts are named. -/
theorem discard_accounted {n : Nat}
    (hnamed : ∀ o, c.writers[n]? = some o → ∀ r ∈ o.minted, LiveNamed s r) :
    Accounted { c with writers := c.writers.eraseIdx n } [] s := by
  refine h.with_writers (fun o ho r hr => ?_)
    (fun o ho r hr => .inl (h.writers o (mem_of_mem_eraseIdx ho) r hr))
    fun p hp => .inl (h.table p hp)
  obtain ⟨i, hi⟩ := mem_iff_getElem?.mp ho
  by_cases hin : i = n
  · subst hin
    exact .inl (hnamed o hi r hr)
  · exact .inr ⟨o, mem_eraseIdx_iff_getElem?.mpr ⟨i, hin, hi⟩, hr⟩

/-- **A text is interned**: the id it gets is that of a live part, of the pending table, or
new and with this writer. -/
theorem intern_accounted [DecidableEq τ] {n : Nat} {o : OpenWriter τ}
    (ho : c.writers[n]? = some o) {d : SfxDictionary τ} (hd : s.dictionary = some d)
    (cached : Option GlobalId) (maybe : Bool) (f : FieldId) (key : τ) :
    let result := o.intern d s.dictionaryShared cached maybe f key
    Accounted { c with writers := c.writers.set n result.1 } []
      { s with dictionaryShared := result.2 } := by
  have hlt : n < c.writers.length := (List.getElem?_eq_some_iff.mp ho).1
  have hmem : o ∈ c.writers := mem_of_getElem? ho
  -- it is enough to back the writer's references and the table, with the writer extended
  have hset : ∀ (o' : OpenWriter τ) (shared : DictionaryShared τ), (∀ r ∈ o.minted, r ∈ o'.minted) →
      (∀ r ∈ o'.refs, Backed c s r ∨ r ∈ o'.minted) →
      (∀ p ∈ shared.pending, p ∈ s.dictionaryShared.pending ∨
        (p.fieldId, p.id, p.key) ∈ o'.minted) →
      Accounted { c with writers := c.writers.set n o' } []
        { s with dictionaryShared := shared } := by
    intro o' shared hsub hrefs htable
    have ho' : o' ∈ c.writers.set n o' := mem_set hlt o'
    refine h.with_writers (fun q hq r hr => .inr ?_) (fun q hq r hr => ?_)
      fun p hp => (htable p hp).imp (h.table p) fun hp => ⟨o', ho', hp⟩
    · obtain ⟨i, hi⟩ := mem_iff_getElem?.mp hq
      by_cases hin : n = i
      · subst hin
        rw [ho] at hi
        cases hi
        exact ⟨o', ho', hsub r hr⟩
      · have hi' : (c.writers.set n o')[i]? = some q := (getElem?_set_ne hin).trans hi
        exact ⟨q, mem_of_getElem? hi', hr⟩
    · rcases mem_or_eq_of_mem_set hq with hq | rfl
      · exact .inl (h.writers q hq r hr)
      · exact hrefs r hr
  have hextended : ∀ {x}, Backed c s x → ∀ r ∈ o.refs ++ [x], Backed c s r := fun hx =>
    forall_mem_append.mpr ⟨h.writers o hmem, forall_mem_singleton.mpr hx⟩
  obtain ⟨d', w, hparts⟩ := h.parts
  have hd' : d' = d := by
    have hlive := hparts.live
    rw [hd] at hlive
    exact (Option.some.inj hlive).symm
  subst hd'
  unfold OpenWriter.intern
  by_cases hseen : (o.refs.any fun r => r.1 = f ∧ r.2.2 = key) = true
  · rw [if_pos hseen]
    exact hset o s.dictionaryShared (fun _ hr => hr) (fun r hr => .inl (h.writers o hmem r hr))
      fun _ hp => .inl hp
  · rw [if_neg hseen]
    dsimp only
    rcases lookupOrMint_cases d' s.dictionaryShared cached maybe f key with
      ⟨id, hfound, part, hpart, hx⟩ | ⟨id, hfound, p, hp, rfl, rfl, rfl⟩ | hfound
    · rw [hfound]
      have hnamed : Backed c s (f, id, key) :=
        .inl ⟨d', hparts.live, hparts.opened f part hpart _ hx⟩
      exact hset _ _ (fun _ hr => hr) (fun r hr => .inl (hextended hnamed r hr)) fun _ hp => .inl hp
    · rw [hfound]
      exact hset _ _ (fun _ hr => hr) (fun r hr => .inl (hextended (h.table p hp) r hr))
        fun _ hp => .inl hp
    · rw [hfound]
      refine hset _ _ (fun _ hr => mem_append_left _ hr) (fun r hr => ?_) (forall_mem_cons.mpr
        ⟨.inr (mem_append_right _ (mem_singleton.mpr rfl)), fun _ => .inl⟩)
      exact (mem_append.mp hr).imp (h.writers o hmem r) (mem_append_right _)

end

/-- **A segment is cut**: what its writer held is now in its pair. -/
theorem cut_accounted {s : IndexingState τ} (h : Accounted s.interned [] s.index) {n : Nat}
    {o : OpenWriter τ} (ho : s.interned.writers[n]? = some o) {entry : SegmentEntry}
    (hnew : entry.id ∉ s.interned.known)
    (hfields : ∀ r ∈ o.minted, r.1 ∈ entry.info.sfxFieldIds) :
    Accounted (s.cut n o entry).interned [] (s.cut n o entry).index := by
  set t := s.cut n o entry
  have hne : ∀ id ∈ s.interned.known, id ≠ entry.id := fun id hid he => hnew (he ▸ hid)
  have hself : ∀ f, mintedTexts t.index.directory entry.id f = o.pair f :=
    congrFun (mintedTexts_writeMinted_self ..)
  have hother : ∀ id, id ≠ entry.id → ∀ f,
      mintedTexts t.index.directory id f = mintedTexts s.index.directory id f :=
    fun id hid => congrFun (mintedTexts_writeMinted_of_ne _ hid _)
  have hrefs : ∀ id ∈ s.interned.known, t.interned.refs id = s.interned.refs id :=
    fun id hid => update_of_ne (hne id hid) _ _
  obtain ⟨d, w, hd⟩ := h.parts
  have hpairs : ∀ id ∈ d.info.pendingSegments, ∀ f,
      mintedTexts t.index.directory id f = mintedTexts s.index.directory id f := by
    intro id hid f
    refine hother id (hne id (h.known id (.live ?_))) f
    rw [livePairs_eq hd.live]
    exact hid
  have hlive : ∀ r, LiveNamed s.index r → LiveNamed t.index r := by
    intro r hr
    rw [liveNamed_iff hd.live] at hr
    exact ⟨d, hd.live, hr.of_files (fun _ _ _ => rfl) hpairs⟩
  have hdisk : ∀ r, DiskNamed s.index r → DiskNamed t.index r := by
    rintro r ⟨info, hinfo, hr⟩
    exact ⟨info, hinfo, hr.of_files (fun _ _ _ => rfl)
      fun id hid f => hother id (hne id (h.known id (.disk hinfo hid))) f⟩
  have hunc : ∀ id, id ∈ t.index.registers.uncommitted.ids ↔
      id ∈ s.index.registers.uncommitted.ids ∨ id = entry.id :=
    fun id => SegmentRegister.mem_ids_addSegmentEntry
  have hback : ∀ r, Backed s.interned s.index r → Backed t.interned t.index r := by
    rintro r (hr | ⟨id, hid, hr⟩ | ⟨q, hq, hr⟩)
    · exact .inl (hlive r hr)
    · refine .inr (.inl ⟨id, (hunc id).mpr (.inl hid), ?_⟩)
      rwa [hother id (hne id (h.known id (.uncommitted hid)))]
    · obtain ⟨i, hi⟩ := mem_iff_getElem?.mp hq
      by_cases hin : i = n
      · -- the texts of the writer that is cut
        subst hin
        rw [ho] at hi
        cases hi
        refine .inr (.inl ⟨entry.id, (hunc _).mpr (.inr rfl), ?_⟩)
        rw [hself]
        exact OpenWriter.mem_pair.mpr hr
      · exact .inr (.inr ⟨q, mem_eraseIdx_iff_getElem?.mpr ⟨i, hin, hi⟩, hr⟩)
  have hcom : entry.id ∉ s.index.registers.committed.ids :=
    fun hc => hnew (h.known _ (.committed hc))
  have hsub : ∀ id ∈ d.info.pendingSegments, ∀ f, mintedTexts t.index.directory id f ⊆
      mintedTexts s.index.directory id f := fun id hid f => hpairs id hid f ▸ Subset.refl _
  refine ⟨⟨d, w, hd.live, hd.disk, hd.active, hd.covers.mono hsub fun _ _ _ => Subset.refl _,
    hd.diskNumbers, ?_, ?_, ?_, ?_⟩, ?_, ?_, ?_, ?_, fun p hp => hback _ (h.table p hp), ?_, ?_, ?_⟩
  · intro f part hpart x hx
    exact (hd.opened f part hpart x hx).of_files (fun _ _ _ => rfl) hpairs
  · exact hd.fold.mono rfl rfl (Subset.refl _) (Subset.refl _) hsub (fun _ _ => Subset.refl _)
      fun _ _ _ => rfl
  · intro e he f hne'
    rcases mem_append.mp he with he | he
    · have heu : e ∈ s.index.registers.uncommitted.entries := (mem_filter.mp he).1
      have hk := h.known e.id (.uncommitted (SegmentRegister.mem_ids.mpr ⟨e, heu, rfl⟩))
      rw [hother e.id (hne _ hk)] at hne'
      exact hd.ownFields e heu f hne'
    · rw [mem_singleton.mp he] at hne' ⊢
      rw [hself] at hne'
      obtain ⟨x, hx⟩ := exists_mem_of_ne_nil _ hne'
      exact hfields (f, x) (OpenWriter.mem_pair.mp hx)
  · intro id hid hc f
    rcases (hunc id).mp hid with hid | rfl
    · rw [hother id (hne id (h.known id (.uncommitted hid)))]
      exact hd.disjoint id hid hc f
    · exact absurd hc hcom
  · intro id hid r hr
    rw [hrefs id (h.known id (.committed hid))] at hr
    exact hlive r (h.committed id hid r hr)
  · intro id hid r hr
    rw [hrefs id (h.known id (.written hid))] at hr
    obtain ⟨hr₁, hr₂⟩ := h.written id hid r hr
    exact ⟨hdisk r hr₁, hlive r hr₂⟩
  · intro id hid r hr
    rcases (hunc id).mp hid with hid | rfl
    · rw [hrefs id (h.known id (.uncommitted hid))] at hr
      exact hback r (h.uncommitted id hid r hr)
    · have hown : t.interned.refs entry.id = o.refs := update_self ..
      rw [hown] at hr
      exact hback r (h.writers o (mem_of_getElem? ho) r hr)
  · exact fun q hq r hr => hback r (h.writers q (mem_of_mem_eraseIdx hq) r hr)
  · intro id hid
    cases hid with
    | uncommitted hid =>
      rcases (hunc id).mp hid with hid | rfl
      · exact mem_cons_of_mem _ (h.known id (.uncommitted hid))
      · exact mem_cons_self ..
    | committed hid => exact mem_cons_of_mem _ (h.known id (.committed hid))
    | written hid => exact mem_cons_of_mem _ (h.known id (.written hid))
    | live hid => exact mem_cons_of_mem _ (h.known id (.live hid))
    | disk hinfo hid => exact mem_cons_of_mem _ (h.known id (.disk hinfo hid))
    | inFlight hid => exact mem_cons_of_mem _ (h.known id (.inFlight hid))
  · intro id hid f
    have hid' : id ≠ entry.id ∧ (id ∉ s.interned.known ∨ id ∈ s.interned.merged) := by
      rcases hid with hid | hid
      · exact ⟨fun he => hid (he ▸ mem_cons_self ..), .inl fun hk => hid (mem_cons_of_mem _ hk)⟩
      · exact ⟨hne id (s.interned.merged_known id hid), .inr hid⟩
    rw [hother id hid'.1]
    exact h.pairless id hid'.2 f
  · intro id hid hu
    have hk : id ∈ s.interned.known := by
      rcases hid with hid | hid
      · cases hid
      · exact h.known id (.inFlight hid)
    have hu' := ((hunc id).mp hu).resolve_right (hne id hk)
    obtain ⟨hr, hp⟩ := h.inert id hid hu'
    exact ⟨(hrefs id hk).trans hr, fun f => by rw [hother id (hne id hk)]; exact hp f⟩

end Writers

/-! ## The updater's steps -/

section Steps

variable {s : IndexingState τ}

variable {c : Interned τ} {ids : List SegmentId} {refs : SegmentId → List (TextRef τ)}

theorem refs_withMerged_of_mem {id : SegmentId} (hid : id ∈ ids) :
    (c.withMerged ids refs).refs id = refs id :=
  if_pos hid

theorem refs_withMerged_of_known (hnew : ∀ id ∈ ids, id ∉ c.known) {id : SegmentId}
    (hid : id ∈ c.known) : (c.withMerged ids refs).refs id = c.refs id :=
  if_neg fun hin => hnew id hin hid

/-- Merged segments come into being: nothing that was is touched. -/
theorem Accounted.withMerged {index : SegmentUpdaterState τ} (h : Accounted c [] index)
    (hnew : ∀ id ∈ ids, id ∉ c.known) (refs : SegmentId → List (TextRef τ)) :
    Accounted (c.withMerged ids refs) [] index := by
  have hrefs : ∀ id ∈ c.known, (c.withMerged ids refs).refs id = c.refs id :=
    fun id hid => refs_withMerged_of_known hnew hid
  refine ⟨h.parts, fun id hid r hr => ?_, fun id hid r hr => ?_, fun id hid r hr => ?_,
    h.writers, h.table, fun id hid => mem_append_right _ (h.known id hid), fun id hid => ?_,
    fun id hid hunc => ?_⟩
  · rw [hrefs id (h.known id (.committed hid))] at hr
    exact h.committed id hid r hr
  · rw [hrefs id (h.known id (.written hid))] at hr
    exact h.written id hid r hr
  · rw [hrefs id (h.known id (.uncommitted hid))] at hr
    exact h.uncommitted id hid r hr
  · refine h.pairless id ?_
    rcases hid with hid | hid
    · exact .inl fun hk => hid (mem_append_right _ hk)
    · rcases mem_append.mp hid with hid | hid
      · exact .inl (hnew id hid)
      · exact .inr hid
  · obtain ⟨hr, hp⟩ := h.inert id hid hunc
    exact ⟨(hrefs id (h.known id (.uncommitted hunc))).trans hr, hp⟩

/-- What the step says of merged segments, in the form the handlers use. -/
theorem mergedFrom_withMerged {merges : List (MergeOperation × TaskResult)}
    (hnew : ∀ id ∈ mergedIds merges, id ∉ c.known)
    (hrefs : ∀ op e, (op, .merged (some e)) ∈ merges → ∀ r ∈ refs e.id,
      ∃ id ∈ op.segmentIds, id ∈ c.known ∧ r ∈ c.refs id) {op : MergeOperation}
    {entry : Option SegmentEntry} (hmem : (op, .merged entry) ∈ merges) :
    MergedFrom (c.withMerged (mergedIds merges) refs) op entry := by
  rintro e rfl
  have hid : e.id ∈ mergedIds merges := mem_filterMap.mpr ⟨_, hmem, rfl⟩
  refine ⟨mem_append_left _ hid, mem_append_left _ hid, fun r hr => ?_⟩
  have hr' : r ∈ refs e.id := by
    rwa [refs_withMerged_of_mem hid] at hr
  obtain ⟨id, hsrc, hk, hr⟩ := hrefs op e hmem r hr'
  refine ⟨id, hsrc, ?_⟩
  rwa [refs_withMerged_of_known hnew hk]

section

variable (h : Accounted s.interned [] s.index)
include h

/-- **Every merge and fold message keeps the account**, once merges start settled. -/
theorem message_accounted {m : Message} {io : Io} {merges : List (MergeOperation × TaskResult)}
    (hm : m.IsBackground) (hsettled : MergeStartsSettled s.index (.handled m io (.ok ())))
    (hmerges : finishedMerges s.index (.handled m io (.ok ())) = merges)
    (hnew : ∀ id ∈ mergedIds merges, id ∉ s.interned.known)
    (hrefs : ∀ op e, (op, .merged (some e)) ∈ merges → ∀ r ∈ refs e.id,
      ∃ id ∈ op.segmentIds, id ∈ s.interned.known ∧ r ∈ s.interned.refs id) :
    Accounted (s.interned.withMerged (mergedIds merges) refs) []
      (finalState (handle io m) s.index) := by
  have h' := h.withMerged hnew refs
  have hmerged : ∀ op entry, (op, .merged entry) ∈ merges →
      MergedFrom (s.interned.withMerged (mergedIds merges) refs) op entry :=
    fun op entry hmem => mergedFrom_withMerged hnew hrefs hmem
  subst hmerges
  cases m with
  | addSegment _ | commit _ _ | garbageCollect => cases hm
  | startMerge op result =>
    refine (merge_accounted op result fun entry he => ?_).finalState
      ⟨h', hsettled.symm.imp_right settled_of_nil⟩
    exact hmerged op entry (by rw [he]; exact mem_singleton.mpr rfl)
  | startMerges ops =>
    exact (startMerges_accounted io.purge ops).finalState ⟨h', settled_of_nil hsettled⟩
  | compact maxDocs =>
    exact (compact_accounted maxDocs).finalState ⟨h', hsettled.symm.imp_right settled_of_nil⟩
  | mergesDone n results =>
    rw [finalState, handle_mergesDone_run]
    cases hbatch : s.index.inFlight[n]? with
    | none => exact h'
    | some batch =>
      have hin : batch ∈ s.index.inFlight := mem_of_getElem? hbatch
      -- the batch leaves those in flight, and its sources are held meanwhile
      have hheld : Accounted (s.interned.withMerged (mergedIds (finishedMerges s.index
          (.handled (.mergesDone n results) io (.ok ())))) refs) batch.segmentIds
          { s.index with inFlight := s.index.inFlight.eraseIdx n } := by
        refine h'.release (fun id hid => ?_) (fun id hid => .inr ?_) s.index.merging
          s.index.pendingMergeTasks
        · obtain ⟨b, hb, hid⟩ := mem_flatMap.mp hid
          exact mem_flatMap.mpr ⟨b, mem_of_mem_eraseIdx hb, hid⟩
        · exact mem_flatMap.mpr ⟨batch, hin, hid⟩
      refine accounted_nil ((handleMergesDone_accounted batch results rfl
        fun op entry hmem => hmerged op entry ?_).finalState
        ⟨hheld, hsettled.symm.imp_right settled_of_nil⟩)
      rw [finishedMerges, hbatch]
      exact hmem
  | dictionaryFolded => exact folded_accounted.finalState h'

/-- A rollback whose uncommitted segments' texts are named, and whose refresh leaves the live
dictionary. -/
theorem rollback_accounted
    (hsafe : SafeStep s .rollback) : Accounted s.interned [] (rollbackIndex s.index) := by
  obtain ⟨hnamed, hahead⟩ := hsafe
  obtain ⟨d, w, hd⟩ := h.parts
  have hregisters : Accounted s.interned []
      { s.index with registers := .fromSegments s.index.metaJson.segments } := by
    refine h.with_registers hnamed rfl fun id hid => ?_
    have hid' : id ∈ s.index.metaJson.segmentIds := by
      have hmem := SegmentRegister.mem_ids_ofEntries.mp hid
      rw [map_map] at hmem
      exact hmem
    exact ⟨h.known id (.written hid'), fun r hr => (h.written id hid' r hr).2⟩
  let rolled (m : IndexMeta) : SegmentUpdaterState τ := { s.index with
    registers := .fromSegments s.index.metaJson.segments
    activeIndexMeta := m
    pendingMergeTasks := false
    merging := []
    inFlight := [] }
  have hrefresh : rollbackIndex s.index = rolled s.index.metaJson :=
    refreshSfxDictionary_of_ahead hd.live fun info hinfo => hahead d info hd.live hinfo
  rw [hrefresh, ← hd.active]
  exact hregisters.release (fun _ hid => (not_mem_nil hid).elim)
    (fun _ hid => (not_mem_nil hid).elim) [] false

/-- `delete_all_documents` while the uncommitted segments' texts are named. -/
theorem deleteAll_accounted (hnamed : UncommittedNamed s.index) :
    Accounted s.interned [] (deleteAllDocuments s.index) :=
  h.with_registers hnamed rfl fun id hid => by cases hid

/-- **Every safe step keeps the account.** -/
theorem safe_step_accounted [DecidableEq τ] {e : IndexingEvent τ} {t : IndexingState τ}
    (hsafe : SafeStep s e) (hstep : IndexingStep s e t) :
    Accounted t.interned [] t.index := by
  cases hstep with
  | openWriter => exact openWriter_accounted h
  | intern ho hd => exact intern_accounted h ho hd _ _ _ _
  | cut ho hnew hfields => exact cut_accounted h ho hnew hfields
  | discard => exact discard_accounted h hsafe
  | turnEpoch => exact turnEpoch_accounted h
  | commit hwriters => exact (commit_accounted hsafe hwriters _ _).finalState h
  | foldStep =>
    obtain ⟨d, w, hd⟩ := h.parts
    obtain ⟨⟨d', hd'⟩, hgrows⟩ := foldStep_kept hd hsafe
    exact h.grows hgrows ⟨d', w, hd'⟩
  | message hm hnew hrefs => exact message_accounted h hm hsafe rfl hnew hrefs
  | rollback hwriters => exact rollback_accounted h hsafe
  | deleteAll => exact deleteAll_accounted (s := s) h hsafe

end

end Steps

/-! ## Runs -/

/-- The dictionary opened from a `meta.json` has its parts, and has read nothing else. -/
theorem openFromMetas_spec (dir : Directory τ) (metas : IndexMeta) :
    (openFromMetas dir metas).info = namedParts metas ∧
      ∀ f, ∀ part ∈ (openFromMetas dir metas).fields f, ∀ x ∈ part,
        Named dir (namedParts metas) (f, x) := by
  unfold openFromMetas namedParts
  cases metas.sfxDictionary with
  | none => exact ⟨rfl, fun f part hpart => absurd hpart not_mem_nil⟩
  | some info => exact ⟨rfl, fun f part hpart x hx => named_of_openParts hpart hx⟩

theorem IndexOpened.accounted {s : IndexingState τ} (h : IndexOpened s) :
    Accounted s.interned [] s.index := by
  obtain ⟨hinfo, hread⟩ := openFromMetas_spec s.index.directory s.index.metaJson
  have hlive := h.dictionary
  have hunc : ∀ id, id ∉ s.index.registers.uncommitted.ids := by
    intro id hid
    rw [h.uncommitted] at hid
    cases hid
  have hwritten : ∀ id ∈ s.index.metaJson.segmentIds, ∀ r ∈ s.interned.refs id,
      DiskNamed s.index r ∧ LiveNamed s.index r := by
    intro id hid r hr
    have hnamed := h.named id hid r hr
    exact ⟨(diskNamed_iff rfl r).mpr hnamed, (liveNamed_iff hlive r).mpr (hinfo ▸ hnamed)⟩
  refine ⟨⟨_, _, hlive, rfl, h.active, hinfo ▸ h.covers, hinfo ▸ h.covers.numbers,
    hinfo ▸ hread, ?_, ?_, ?_⟩,
    fun id hid r hr => (hwritten id (h.committed id hid) r hr).2, hwritten,
    fun id hid => absurd hid (hunc id), ?_, ?_, fun id hid => ?_, h.pairless,
    fun id _ hid => absurd hid (hunc id)⟩
  · rw [h.fold]
    trivial
  · intro e he
    exact absurd (SegmentRegister.mem_ids.mpr ⟨e, he, rfl⟩) (hunc e.id)
  · exact fun id hid => absurd hid (hunc id)
  · intro o ho
    rw [h.writers] at ho
    cases ho
  · intro p hp
    rw [h.table] at hp
    cases hp
  · cases hid with
    | uncommitted hid => exact absurd hid (hunc id)
    | committed hid => exact h.known id (h.committed id hid)
    | written hid => exact h.known id hid
    | live hid =>
      rw [livePairs_eq hlive, hinfo] at hid
      exact h.pending id hid
    | disk hdisk hid =>
      refine h.pending id ?_
      rw [namedParts, hdisk]
      exact hid
    | inFlight hid =>
      rw [h.inFlight] at hid
      cases hid

/-- **The texts of committed segments are named.** In every state reached from an opened index
by safe steps, each text a segment listed in `meta.json` refers to stands in a generation or a
pending pair the same `meta.json` names. -/
theorem committed_texts_named [DecidableEq τ] {s₀ s : IndexingState τ}
    {es : List (IndexingEvent τ)} (h₀ : IndexOpened s₀)
    (hrun : Run (Guarded IndexingStep SafeStep) s₀ es s) : CommittedTextsNamed s := by
  have hacc : Accounted s.interned [] s.index :=
    hrun.invariant (I := fun s => Accounted s.interned [] s.index)
      (fun _ _ _ h hstep => safe_step_accounted h hstep.1 hstep.2) h₀.accounted
  intro m hm r hr
  exact (hacc.written m.id (mem_map.mpr ⟨m, hm, rfl⟩) r hr).1

/-- The new index, with no writer open. -/
def createdIndexing : IndexingState Unit where
  index := createdIndex
  interned :=
    { writers := []
      refs := fun _ => []
      known := []
      merged := []
      merged_known := fun _ h => h }

theorem createdIndexing_opened : IndexOpened createdIndexing where
  writers := rfl
  uncommitted := rfl
  committed _ h := by cases h
  inFlight := rfl
  fold := rfl
  table := rfl
  active := rfl
  known _ h := by cases h
  pairless _ _ _ := rfl
  dictionary := rfl
  covers := ⟨fun _ h => absurd h not_mem_nil, fun _ _ _ => rfl, fun _ h => absurd h not_mem_nil⟩
  pending _ h := absurd h not_mem_nil
  named _ h := absurd h not_mem_nil

/-- A worker writes segment 7, whose one document has one text; the commit covers it and a fold
takes its pair over. -/
def foldedRun : List (IndexingEvent Unit) :=
  [.openWriter, .intern 0 0 () none false, .cut 0 mintingSegment, .turnEpoch,
    .commit calmIo 4 none, .foldStep calmIo, .foldStep calmIo, .foldStep calmIo]

/-- Every hypothesis of the run theorem holds of it. -/
theorem committed_texts_named_through_fold :
    ∃ s, Run (Guarded IndexingStep SafeStep) createdIndexing foldedRun s ∧
      s.index.metaJson.segmentIds = [7] ∧ s.interned.refs 7 = [(0, 0, ())] ∧
      CommittedTextsNamed s := by
  have hrun : Run (Guarded IndexingStep SafeStep) createdIndexing foldedRun _ :=
    .snoc (.snoc (.snoc (.snoc (.snoc (.snoc (.snoc (.snoc .nil ⟨trivial, .openWriter⟩)
      ⟨trivial, .intern rfl rfl⟩) ⟨trivial, .cut rfl (by decide) (by decide)⟩)
      ⟨trivial, .turnEpoch⟩) ⟨opensParts_calmIo, .commit rfl⟩) ⟨opensParts_calmIo, .foldStep⟩)
      ⟨opensParts_calmIo, .foldStep⟩)
      ⟨opensParts_calmIo, .foldStep⟩
  exact ⟨_, hrun, by decide, by decide, committed_texts_named createdIndexing_opened hrun⟩

/-- A text is minted, rolled back, and asked for again. -/
def rolledBackRun : List (IndexingEvent Unit) :=
  [.openWriter, .intern 0 0 () none false, .cut 0 mintingSegment, .rollback, .openWriter,
    .intern 0 0 () none false, .cut 0 (.ofMeta (.new 8 10 [0])), .turnEpoch, .commit calmIo 4 none]

/-- **A rollback keeps ids whose texts are gone.** It drops segment 7 with its pair, but the
pending table still answers with the text's id: segment 8 mints nothing, and the commit writes a
`meta.json` that lists segment 8 and names no part at all. -/
theorem rollback_keeps_ids_without_texts :
    ∃ s : IndexingState Unit, IndexOpened createdIndexing ∧
      Run IndexingStep createdIndexing rolledBackRun s ∧
      s.index.metaJson.segmentIds = [8] ∧ s.interned.refs 8 = [(0, 0, ())] ∧
      s.index.metaJson.sfxDictionary.map (fun d => (d.generations, d.pendingSegments)) =
        some ([], []) ∧
      ¬ CommittedTextsNamed s := by
  have hrun : Run IndexingStep createdIndexing rolledBackRun _ :=
    .snoc (.snoc (.snoc (.snoc (.snoc (.snoc (.snoc (.snoc (.snoc .nil .openWriter)
      (.intern rfl rfl)) (.cut rfl (by decide) (by decide))) (.rollback rfl)) .openWriter)
      (.intern rfl rfl)) (.cut rfl (by decide) (by decide))) .turnEpoch) (.commit rfl)
  refine ⟨_, createdIndexing_opened, hrun, by decide, by decide, rfl, fun h => ?_⟩
  obtain ⟨info, hinfo, -, hnamed⟩ := h (.new 8 10 [0]) (by decide) (0, 0, ()) (by decide)
  cases hinfo
  rcases hnamed with ⟨g, hg, -⟩ | ⟨id, hid, -⟩
  · exact not_mem_nil hg
  · exact not_mem_nil hid

end Lucivy.Indexer
