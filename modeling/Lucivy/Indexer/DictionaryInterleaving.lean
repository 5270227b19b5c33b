import Lucivy.Indexer.NamedTexts

/-! # Three writers of the live dictionary

The live dictionary (`Index::sfx_dictionary`) is one slot with three writers: a commit names
its new pairs in it, a background fold swaps its generation in, and whoever reads `meta.json`
refreshes it. Here they run step by step, in any order.

* `ShardState` — the updater's state, how far the commit under way has got, and the reloads
  that have read `meta.json` and not refreshed yet.
* `ShardStep` — the interleaving: cuts, the commit's three steps, the rewrite after a fold,
  the fold's steps, the two steps of a reload.
* `StaysNamed`, `WriteNamesPairs` — a pair of the live dictionary stays named until a fold's
  swap leaves generations with its texts, and the `meta.json` a commit writes accounts for the
  pairs it named.
* `HarmlessReload` — when a step cannot break that: a refresh finds the live dictionary made
  of the same parts or ahead by a fold, and a fold opens every file.
* `named_pairs_stay` — the result, over all runs of harmless steps.
* `reload_between_naming_and_writing` — one run that shows the condition is needed. -/

namespace Lucivy.Indexer

open Lucivy.Foundation Lucivy.SuffixFst List Function

variable {τ : Type}

/-- How far the handler that writes `meta.json` has got. -/
inductive CommitPhase
  | idle
  /-- A commit has named these pairs and not written `meta.json`. -/
  | named (pairs : List SegmentId)
  /-- `meta.json` is written, the consumed pairs are not deleted. -/
  | written

/-- **The shard between two steps.** -/
structure ShardState (τ : Type) where
  index : SegmentUpdaterState τ
  phase : CommitPhase
  /-- What reloads have read from `meta.json`, before they refresh. -/
  reads : List IndexMeta
  known : List SegmentId
  /-- The texts each segment's writer minted, whatever became of the file. -/
  minted : SegmentId → FieldId → Texts τ

/-- The pairs the live dictionary names. -/
def livePending (s : ShardState τ) : List SegmentId :=
  (s.index.dictionary.map (·.info.pendingSegments)).getD []

/-- The generations the live dictionary names. -/
def liveGenerations (s : ShardState τ) : List Nat :=
  (s.index.dictionary.map (·.info.generations)).getD []

/-- The texts segment `id` minted are in the given generations. -/
def Held (s : ShardState τ) (generations : List Nat) (id : SegmentId) : Prop :=
  ∀ f, ∀ x ∈ s.minted id f, InGenerations s.index.directory generations f x

/-! ## The steps -/

/-- What happens in one step. -/
inductive ShardEvent (τ : Type)
  /-- An indexer cuts a segment and its minted pair. -/
  | cut (entry : SegmentEntry) (texts : FieldId → Texts τ)
  /-- A commit names the new pairs. -/
  | name (io : Io)
  /-- The commit swaps the registers and writes `meta.json`. -/
  | write (io : Io) (opstamp : Opstamp) (payload : Option String)
  /-- `SuDictionaryFoldedMsg` writes `meta.json`. -/
  | rewrite (io : Io)
  /-- The handler that wrote `meta.json` deletes the consumed pairs. -/
  | delete (io : Io)
  | foldBegin
  /-- The fold takes its snapshot, writes, or swaps. -/
  | foldStep (io : Io)
  /-- A reload reads `meta.json`. -/
  | readMeta
  /-- A reload refreshes the live dictionary with what it read. -/
  | refresh (read : Nat)

/-- A segment is cut: its minted pair is written and it joins the uncommitted register. -/
def ShardState.cut (s : ShardState τ) (entry : SegmentEntry) (texts : FieldId → Texts τ) :
    ShardState τ :=
  { s with
    index := { s.index with
      registers := s.index.registers.addSegment entry
      directory := s.index.directory.writeMinted entry.id fun f =>
        if texts f = [] then none else some (texts f) }
    known := entry.id :: s.known
    minted := Function.update s.minted entry.id texts }

/-- The commit's first step. A pair that cannot be read ends the commit. -/
def ShardState.name (s : ShardState τ) (io : Io) : ShardState τ :=
  match (namePairs io).run s.index with
  | .ok _ index =>
    { s with
      index := index
      phase := .named ((newPairs io s.index.directory
        s.index.registers.removeEmptySegments).map SegmentMeta.id) }
  | .error _ index => { s with index := index }

/-- `PrepareNode` and `SaveMetasNode` of a commit. -/
def writeMeta (io : Io) (opstamp : Opstamp) (payload : Option String) : Handler τ Unit := do
  prepareNode io [] opstamp
  saveMetas io opstamp payload

/-- The first half of `handle_dictionary_folded`. -/
def rewriteMeta (io : Io) : Handler τ Unit := do
  let info ← loadMeta
  saveMetas io info.opstamp info.payload

/-- A step that writes `meta.json`. A failure ends the handler. -/
def ShardState.writeWith (s : ShardState τ) (program : Handler τ Unit) : ShardState τ :=
  match program.run s.index with
  | .ok _ index => { s with index := index, phase := .written }
  | .error _ index => { s with index := index, phase := .idle }

/-- The last step of the handler that wrote `meta.json`. -/
def ShardState.delete (s : ShardState τ) (io : Io) : ShardState τ :=
  { s with index := finalState (deleteConsumedPairs io) s.index, phase := .idle }

/-- **One step of the shard.** The steps of a commit follow one another; every other step may
come at any time. A segment's id is new, and it minted only in fields it has. -/
inductive ShardStep : ShardState τ → ShardEvent τ → ShardState τ → Prop
  | cut {s : ShardState τ} {entry : SegmentEntry} {texts : FieldId → Texts τ} :
      entry.id ∉ s.known → (∀ f, texts f ≠ [] → f ∈ entry.info.sfxFieldIds) →
      ShardStep s (.cut entry texts) (s.cut entry texts)
  | name {s : ShardState τ} {io : Io} : s.phase = .idle → ShardStep s (.name io) (s.name io)
  | write {s : ShardState τ} {io : Io} {pairs : List SegmentId} {opstamp : Opstamp}
      {payload : Option String} :
      s.phase = .named pairs →
      ShardStep s (.write io opstamp payload) (s.writeWith (writeMeta io opstamp payload))
  | rewrite {s : ShardState τ} {io : Io} :
      s.phase = .idle → ShardStep s (.rewrite io) (s.writeWith (rewriteMeta io))
  | delete {s : ShardState τ} {io : Io} :
      s.phase = .written → ShardStep s (.delete io) (s.delete io)
  | foldBegin {s : ShardState τ} : s.index.fold = .idle →
      ShardStep s .foldBegin { s with index := { s.index with fold := .started } }
  | foldStep {s : ShardState τ} {io : Io} :
      ShardStep s (.foldStep io) { s with index := foldStep io s.index }
  | readMeta {s : ShardState τ} :
      ShardStep s .readMeta { s with reads := s.reads ++ [s.index.metaJson] }
  | refresh {s : ShardState τ} {n : Nat} {metas : IndexMeta} : s.reads[n]? = some metas →
      ShardStep s (.refresh n)
        { s with index := refreshSfxDictionary metas s.index, reads := s.reads.eraseIdx n }

/-! ## What is wanted, and when it holds -/

/-- The step is the swap of a fold whose snapshot has the pair. -/
def SwapsOut (s : ShardState τ) (e : ShardEvent τ) (id : SegmentId) : Prop :=
  ∃ io snapshot generations next, e = .foldStep io ∧
    s.index.fold = .written snapshot generations next ∧ id ∈ snapshot.pendingSegments

/-- **A named pair stays named**, unless this step is a fold's swap that leaves generations
holding its texts. -/
def StaysNamed (s : ShardState τ) (e : ShardEvent τ) (t : ShardState τ) : Prop :=
  ∀ id ∈ livePending s, id ∈ livePending t ∨ (SwapsOut s e id ∧ Held t (liveGenerations t) id)

/-- **A commit that writes `meta.json`** names there every pair it named in the live
dictionary, or generations that hold the pair's texts. -/
def WriteNamesPairs (s : ShardState τ) (e : ShardEvent τ) (t : ShardState τ) : Prop :=
  ∀ io opstamp payload pairs, e = .write io opstamp payload → s.phase = .named pairs →
    (∃ index, (writeMeta io opstamp payload).run s.index = .ok () index) →
    ∃ info, t.index.metaJson.sfxDictionary = some info ∧
      ∀ id ∈ pairs, id ∈ info.pendingSegments ∨ Held t info.generations id

/-- **When a step is harmless.** A refresh finds the live dictionary made of the parts its
`meta.json` names, or ahead of it by a fold; a fold opens every file it asks for. -/
def HarmlessReload (s : ShardState τ) : ShardEvent τ → Prop
  | .refresh n => ∀ metas info d, s.reads[n]? = some metas → metas.sfxDictionary = some info →
      s.index.dictionary = some d →
      d.sameParts info = true ∨ info.nextGeneration < d.info.nextGeneration
  | .foldStep io => OpensParts io
  | _ => True

/-- The parts `info` names are on disk: each pair with what its writer minted, generations
numbered below the next, and no text in a field `info` does not list. -/
structure PartsOnDisk (s : ShardState τ) (info : SfxDictionaryMeta) : Prop where
  known : ∀ id ∈ info.pendingSegments, id ∈ s.known
  pairs : ∀ id ∈ info.pendingSegments, ∀ f, mintedTexts s.index.directory id f = s.minted id f
  pairFields : ∀ id ∈ info.pendingSegments, ∀ f, f ∉ info.fieldIds → s.minted id f = []
  generationFields : ∀ g f, f ∉ info.fieldIds → generationTexts s.index.directory g f = []
  generations : ∀ g ∈ info.generations, g < info.nextGeneration

/-- **A shard just opened**, a new one too: nothing is under way, and the parts of the live
dictionary are on disk. -/
structure Opened (s : ShardState τ) : Prop where
  phase : s.phase = .idle
  fold : s.index.fold = .idle
  uncommitted : s.index.registers.uncommitted = .empty
  known : ∀ id ∈ s.index.registers.committed.ids, id ∈ s.known
  dictionary : ∃ d, s.index.dictionary = some d ∧ PartsOnDisk s d.info

/-! ## The invariant -/

/-- Where the fold under way stands to the live dictionary `d`: while it has its snapshot,
the live generations are the snapshot's and its pairs are still named; once it has written,
its generations hold all it will replace. -/
def FoldConsistent (s : ShardState τ) (d : SfxDictionary τ) : FoldTask → Prop
  | .idle => True
  | .started => True
  | .snapshot info =>
    info.generations = d.info.generations ∧ info.nextGeneration = d.info.nextGeneration ∧
      (∀ id ∈ info.pendingSegments, id ∈ d.info.pendingSegments) ∧
      (∀ f ∈ info.fieldIds, f ∈ d.info.fieldIds) ∧ PartsOnDisk s info
  | .written info generations next =>
    (∀ id ∈ info.pendingSegments, id ∈ d.info.pendingSegments ∧ Held s generations id) ∧
      (∀ f x, InGenerations s.index.directory d.info.generations f x →
        InGenerations s.index.directory generations f x) ∧
      ∀ g ∈ generations, g < next

/-- What holds in each phase of a commit: the pairs it named are accounted for, and after
`meta.json` is written it names every live pair. -/
def PhaseConsistent (s : ShardState τ) (d : SfxDictionary τ) : CommitPhase → Prop
  | .idle => True
  | .named pairs => ∀ id ∈ pairs, id ∈ s.known ∧
      (id ∈ d.info.pendingSegments ∨ Held s d.info.generations id)
  | .written => ∃ info, s.index.activeIndexMeta.sfxDictionary = some info ∧
      ∀ id ∈ d.info.pendingSegments, id ∈ info.pendingSegments

/-- An uncommitted segment's pair is as its writer left it. -/
def PairIntact (s : ShardState τ) (e : SegmentEntry) : Prop :=
  (∀ f, mintedTexts s.index.directory e.id f = s.minted e.id f) ∧
    ∀ f, s.minted e.id f ≠ [] → f ∈ e.info.sfxFieldIds

/-- **The invariant**, with `d` the live dictionary. -/
structure SlotInvariant (s : ShardState τ) (d : SfxDictionary τ) : Prop where
  /-- `d` is live. -/
  dictionary : s.index.dictionary = some d
  parts : PartsOnDisk s d.info
  /-- The pairs a commit may name are on disk. -/
  intact : ∀ e ∈ s.index.registers.uncommitted.entries, PairIntact s e
  disjoint : ∀ id ∈ s.index.registers.uncommitted.ids, id ∉ s.index.registers.committed.ids
  known : ∀ id, id ∈ s.index.registers.uncommitted.ids ∨ id ∈ s.index.registers.committed.ids →
    id ∈ s.known
  /-- The fold under way. -/
  fold : FoldConsistent s d s.index.fold
  /-- The commit under way. -/
  phase : PhaseConsistent s d s.phase

/-- What a step from `s` (with `d` live) to `t` (with `d'` live) may do to the history: known
segments keep what they minted, and live generations keep their texts. -/
structure Extends (s : ShardState τ) (d : SfxDictionary τ) (t : ShardState τ)
    (d' : SfxDictionary τ) : Prop where
  known : ∀ id ∈ s.known, id ∈ t.known
  minted : ∀ id ∈ s.known, t.minted id = s.minted id
  /-- No text leaves the live generations. -/
  texts : ∀ f x, InGenerations s.index.directory d.info.generations f x →
    InGenerations t.index.directory d'.info.generations f x

variable {d : SfxDictionary τ} {s t : ShardState τ}

theorem Extends.of_eq (hknown : t.known = s.known) (hminted : t.minted = s.minted)
    (hgen : t.index.directory.generation = s.index.directory.generation) : Extends s d t d where
  known id h := by rwa [hknown]
  minted id _ := by rw [hminted]
  texts f x h := by simpa only [InGenerations, generationTexts, hgen] using h

/-- What is held stays held. -/
theorem Extends.held {d d' : SfxDictionary τ} (h : Extends s d t d') {id : SegmentId}
    (hid : id ∈ s.known) (hheld : Held s d.info.generations id) :
    Held t d'.info.generations id := by
  intro f x hx
  rw [h.minted id hid] at hx
  exact h.texts f x (hheld f x hx)

/-- Parts on disk cover their pairs. -/
theorem PartsOnDisk.covers {info : SfxDictionaryMeta} (h : PartsOnDisk s info) :
    Covers s.index.directory info where
  pairs id hid f hf := (h.pairs id hid f).trans (h.pairFields id hid f hf)
  fields := h.generationFields
  numbers := h.generations

theorem PartsOnDisk.of_covers {info : SfxDictionaryMeta} (h : Covers s.index.directory info)
    (hpairs : ∀ id ∈ info.pendingSegments,
      id ∈ s.known ∧ mintedTexts s.index.directory id = s.minted id) : PartsOnDisk s info where
  known id hid := (hpairs id hid).1
  pairs id hid := congrFun (hpairs id hid).2
  pairFields id hid f hf := (congrFun (hpairs id hid).2 f).symm.trans (h.pairs id hid f hf)
  generationFields := h.fields
  generations := h.numbers

/-- Parts stay on disk when their files and their history stay. -/
theorem PartsOnDisk.mono {d' : SfxDictionary τ} {info : SfxDictionaryMeta}
    (h : PartsOnDisk s info) (hext : Extends s d t d')
    (hfiles : ∀ id ∈ info.pendingSegments,
      t.index.directory.minted id = s.index.directory.minted id) (hgen : ∀ g f, f ∉ info.fieldIds →
      generationTexts t.index.directory g f = generationTexts s.index.directory g f) :
    PartsOnDisk t info := by
  have hsame : ∀ id ∈ info.pendingSegments,
      mintedTexts t.index.directory id = mintedTexts s.index.directory id := fun id hid =>
    funext fun f => by rw [mintedTexts, mintedTexts, hfiles id hid]
  refine .of_covers (h.covers.mono (fun id hid f => ?_) fun g f hf => ?_) fun id hid => ?_
  · rw [hsame id hid]
    exact Subset.refl _
  · rw [hgen g f hf]
    exact Subset.refl _
  · refine ⟨hext.known id (h.known id hid), ?_⟩
    rw [hsame id hid, hext.minted id (h.known id hid)]
    exact funext (h.pairs id hid)

/-- Fewer pairs, with the same fields, stay on disk. -/
theorem PartsOnDisk.of_subset {s : ShardState τ} {info info' : SfxDictionaryMeta}
    (h : PartsOnDisk s info)
    (hpending : ∀ id ∈ info'.pendingSegments, id ∈ info.pendingSegments)
    (hfields : info'.fieldIds = info.fieldIds)
    (hgen : ∀ g ∈ info'.generations, g < info'.nextGeneration) : PartsOnDisk s info' where
  known id hid := h.known id (hpending id hid)
  pairs id hid f := h.pairs id (hpending id hid) f
  pairFields id hid f hf := h.pairFields id (hpending id hid) f (hfields ▸ hf)
  generationFields g f hf := h.generationFields g f (hfields ▸ hf)
  generations := hgen

/-- The fold's part of the invariant is kept by a step that leaves the generation files, the
live generations and the fold alone and keeps the live pairs named, with their files. -/
theorem FoldConsistent.mono {d d' : SfxDictionary τ} {task : FoldTask} (h : FoldConsistent s d task)
    (hext : Extends s d t d') (hparts : PartsOnDisk s d.info)
    (hfiles : ∀ id ∈ d.info.pendingSegments,
      t.index.directory.minted id = s.index.directory.minted id)
    (hgen : t.index.directory.generation = s.index.directory.generation)
    (hgens : d'.info.generations = d.info.generations)
    (hnext : d'.info.nextGeneration = d.info.nextGeneration)
    (hpending : ∀ id ∈ d.info.pendingSegments, id ∈ d'.info.pendingSegments)
    (hfields : ∀ f ∈ d.info.fieldIds, f ∈ d'.info.fieldIds) : FoldConsistent t d' task := by
  cases task with
  | idle => trivial
  | started => trivial
  | snapshot info =>
    obtain ⟨h₁, h₂, h₃, h₄, h₅⟩ := h
    refine ⟨h₁.trans hgens.symm, h₂.trans hnext.symm, fun id hid => hpending id (h₃ id hid),
      fun f hf => hfields f (h₄ f hf), ?_⟩
    refine h₅.mono hext (fun id hid => hfiles id (h₃ id hid)) fun g f _ => ?_
    rw [generationTexts, generationTexts, hgen]
  | written info generations next =>
    obtain ⟨h₁, h₂, h₃⟩ := h
    refine ⟨fun id hid => ⟨hpending id (h₁ id hid).1, fun f x hx => ?_⟩, ?_, h₃⟩
    · rw [hext.minted id (hparts.known id (h₁ id hid).1)] at hx
      simpa only [InGenerations, generationTexts, hgen] using (h₁ id hid).2 f x hx
    · simpa only [InGenerations, generationTexts, hgen, hgens] using h₂

/-! ## Steps that leave the live dictionary alone -/

section Steps

variable {s : ShardState τ} {d : SfxDictionary τ} {io : Io}

theorem sfxDictionaryMeta_eq {index : SegmentUpdaterState τ} (h : index.dictionary = some d) :
    sfxDictionaryMeta index = some { d.info with nextIds := index.dictionaryShared.nextIds } := by
  rw [sfxDictionaryMeta, h]
  rfl

/-- The purge, and the swap of the registers it ends with. -/
theorem prepareNode_run (io : Io) (opstamp : Opstamp) (index : SegmentUpdaterState τ) :
    (prepareNode io [] opstamp : Handler τ Unit).run index =
      match purgeDeletes io.purge index.registers opstamp with
      | none => .error .ioError index
      | some entries => .ok () { index with registers := index.registers.commit entries } := by
  cases hpurge : purgeDeletes io.purge index.registers opstamp with
  | none => exact run_bind_of_error (by rw [purgeAndCommit, run_get_bind, hpurge]; rfl)
  | some entries =>
    have hswap : (purgeAndCommit io.purge opstamp : Handler τ Unit).run index =
        .ok () { index with registers := index.registers.commit entries } := by
      rw [purgeAndCommit, run_get_bind, hpurge]
      rfl
    rw [prepareNode, run_bind_of_ok hswap]
    rfl

/-- Writing `meta.json` after the purge: what the three outcomes leave. -/
theorem writeMeta_cases (io : Io) (opstamp : Opstamp) (payload : Option String)
    (index : SegmentUpdaterState τ) :
    (∃ e, (writeMeta io opstamp payload).run index = .error e index) ∨
    ∃ r : SegmentRegisters, r.uncommitted = .empty ∧
      (∀ id ∈ r.committed.ids, id ∈ index.registers.uncommitted.ids ∨
        id ∈ index.registers.committed.ids) ∧
      ((∃ e, (writeMeta io opstamp payload).run index = .error e { index with registers := r }) ∨
        ∃ info : IndexMeta, info.sfxDictionary = sfxDictionaryMeta index ∧
          (writeMeta io opstamp payload).run index =
            .ok () { index with registers := r, metaJson := info, activeIndexMeta := info }) := by
  have hprep := prepareNode_run io opstamp index
  cases hpurge : purgeDeletes io.purge index.registers opstamp with
  | none =>
    rw [hpurge] at hprep
    exact .inl ⟨_, run_bind_of_error hprep⟩
  | some entries =>
    rw [hpurge] at hprep
    refine .inr ⟨(index.registers.commit entries).removeEmptySegments, rfl, ?_, ?_⟩
    · intro id hid
      have hmem := SegmentRegisters.mem_ids_commit.mp
        (SegmentRegisters.mem_ids_removeEmptySegments hid)
      rwa [purgeDeletes_ids hpurge, mem_append] at hmem
    · rw [writeMeta, run_bind_of_ok hprep, saveMetas_run]
      cases io.saveOk
      · exact .inl ⟨_, rfl⟩
      · exact .inr ⟨_, rfl, rfl⟩

/-- What each step has to give: the invariant again, the history extended, the named pairs
named or swapped out. -/
def Advances (s : ShardState τ) (d : SfxDictionary τ) (e : ShardEvent τ) (t : ShardState τ) :
    Prop :=
  ∃ d', SlotInvariant t d' ∧ Extends s d t d' ∧
    ∀ id ∈ d.info.pendingSegments, id ∈ d'.info.pendingSegments ∨
      (SwapsOut s e id ∧ Held t d'.info.generations id)

variable {e : ShardEvent τ} {t : ShardState τ}

/-- What a step leaves alone: the live dictionary, the fold, and every file the invariant speaks
of. -/
structure Framed (s : ShardState τ) (d : SfxDictionary τ) (t : ShardState τ) : Prop where
  dictionary : t.index.dictionary = s.index.dictionary
  known : t.known = s.known
  minted : t.minted = s.minted
  fold : t.index.fold = s.index.fold
  generation : t.index.directory.generation = s.index.directory.generation
  /-- The pairs that are named or may be. -/
  files : ∀ id, id ∈ d.info.pendingSegments ∨ id ∈ t.index.registers.uncommitted.ids →
    t.index.directory.minted id = s.index.directory.minted id

/-- A step that at most commits uncommitted segments advances. -/
theorem Framed.advances (hf : Framed s d t) (h : SlotInvariant s d)
    (hunc : ∀ e ∈ t.index.registers.uncommitted.entries, e ∈ s.index.registers.uncommitted.entries)
    (hcom : ∀ id ∈ t.index.registers.committed.ids,
      id ∈ s.index.registers.uncommitted.ids ∨ id ∈ s.index.registers.committed.ids)
    (hdisj : ∀ id ∈ t.index.registers.uncommitted.ids, id ∉ t.index.registers.committed.ids)
    (hphase : PhaseConsistent t d t.phase) : Advances s d e t := by
  have hext : Extends s d t d := .of_eq hf.known hf.minted hf.generation
  have hfiles : ∀ id ∈ d.info.pendingSegments, t.index.directory.minted id =
      s.index.directory.minted id := fun id hid => hf.files id (.inl hid)
  refine ⟨d, ⟨hf.dictionary.trans h.dictionary, ?_, ?_, hdisj, ?_, ?_, hphase⟩, hext,
    fun _ hid => .inl hid⟩
  · refine h.parts.mono hext hfiles fun g f _ => ?_
    rw [generationTexts, generationTexts, hf.generation]
  · intro e he
    obtain ⟨hfile, hfields⟩ := h.intact e (hunc e he)
    refine ⟨fun f => ?_, fun f hne => hfields f (by rwa [hf.minted] at hne)⟩
    rw [mintedTexts, hf.files e.id (.inr (SegmentRegister.mem_ids.mpr ⟨e, he, rfl⟩)), hf.minted]
    exact hfile f
  · rw [hf.known]
    rintro id (hid | hid)
    · obtain ⟨e, he, rfl⟩ := SegmentRegister.mem_ids.mp hid
      exact h.known _ (.inl (SegmentRegister.mem_ids.mpr ⟨e, hunc e he, rfl⟩))
    · exact h.known id (hcom id hid)
  · rw [hf.fold]
    exact h.fold.mono hext h.parts hfiles hf.generation rfl rfl (fun _ => id) fun _ => id

/-- The same, when the registers at most lose empty committed segments. -/
theorem Framed.advances_quiet (hf : Framed s d t) (h : SlotInvariant s d)
    (hquiet : QuietRegisters s.index t.index) (hphase : PhaseConsistent t d t.phase) :
    Advances s d e t := by
  refine hf.advances h (fun e he => ?_) (fun id hid => .inr (hquiet.2 id hid))
    (fun id hid hcom => ?_) hphase
  · rwa [hquiet.1] at he
  · rw [hquiet.1] at hid
    exact h.disjoint id hid (hquiet.2 id hcom)

/-- The phase is judged on the history, the live meta and the active meta alone. -/
theorem PhaseConsistent.mono {d' : SfxDictionary τ} {phase : CommitPhase}
    (h : PhaseConsistent s d phase) (hext : Extends s d t d')
    (hactive : t.index.activeIndexMeta = s.index.activeIndexMeta)
    (hnamed : ∀ id ∈ d.info.pendingSegments, id ∈ d'.info.pendingSegments ∨
      Held t d'.info.generations id)
    (hwritten : phase = .written → ∀ id ∈ d'.info.pendingSegments, id ∈ d.info.pendingSegments) :
    PhaseConsistent t d' phase := by
  cases phase with
  | idle => trivial
  | named pairs =>
    intro id hid
    obtain ⟨hk, hpair⟩ := h id hid
    refine ⟨hext.known id hk, ?_⟩
    rcases hpair with hpair | hheld
    · exact hnamed id hpair
    · exact .inr (hext.held hk hheld)
  | written =>
    obtain ⟨info, hinfo, hsub⟩ := h
    exact ⟨info, hactive ▸ hinfo, fun id hid => hsub id (hwritten rfl id hid)⟩

section

variable (h : SlotInvariant s d)
include h

/-- A commit writes. -/
theorem write_advances (opstamp : Opstamp) (payload : Option String) :
    Advances s d (.write io opstamp payload) (s.writeWith (writeMeta io opstamp payload)) := by
  unfold ShardState.writeWith
  rcases writeMeta_cases io opstamp payload s.index with ⟨e, hrun⟩ | ⟨r, hunc, hcom, hrun⟩
  · -- the purge fails: nothing has changed
    rw [hrun]
    exact Framed.advances_quiet ⟨rfl, rfl, rfl, rfl, rfl, fun _ _ => rfl⟩ h
      (quietRegisters_refl _) trivial
  · have hadv : ∀ t : ShardState τ, t.index.registers = r → Framed s d t →
        PhaseConsistent t d t.phase → Advances s d (.write io opstamp payload) t := by
      intro t hr hf hphase
      refine hf.advances h (fun e he => ?_) (fun id hid => hcom id (by rwa [hr] at hid))
        (fun id hid => ?_) hphase
      · rw [hr, hunc] at he
        cases he
      · rw [hr, hunc] at hid
        cases hid
    rcases hrun with ⟨e, hrun⟩ | ⟨info, hinfo, hrun⟩
    · rw [hrun]
      exact hadv _ rfl ⟨rfl, rfl, rfl, rfl, rfl, fun _ _ => rfl⟩ trivial
    · rw [hrun]
      refine hadv _ rfl ⟨rfl, rfl, rfl, rfl, rfl, fun _ _ => rfl⟩ ?_
      refine ⟨{ d.info with nextIds := s.index.dictionaryShared.nextIds }, ?_, fun _ => id⟩
      exact hinfo.trans (sfxDictionaryMeta_eq h.dictionary)

/-- A commit that writes `meta.json` writes the live parts. -/
theorem write_namesPairs (opstamp : Opstamp) (payload : Option String) :
    WriteNamesPairs s (.write io opstamp payload) (s.writeWith (writeMeta io opstamp payload)) := by
  rintro io' opstamp' payload' pairs he hphase ⟨index, hrun⟩
  obtain ⟨rfl, rfl, rfl⟩ := ShardEvent.write.inj he
  have hnamed : PhaseConsistent s d (.named pairs) := hphase ▸ h.phase
  rcases writeMeta_cases io opstamp payload s.index with
    ⟨e, he⟩ | ⟨r, -, -, ⟨e, he⟩ | ⟨info, hinfo, hok⟩⟩
  · cases hrun.symm.trans he
  · cases hrun.symm.trans he
  · unfold ShardState.writeWith
    rw [hok]
    exact ⟨_, hinfo.trans (sfxDictionaryMeta_eq h.dictionary), fun id hid => (hnamed id hid).2⟩

/-- A rewrite after a fold. -/
theorem rewrite_advances : Advances s d (.rewrite io) (s.writeWith (rewriteMeta io)) := by
  have hload : (loadMeta : Handler τ _).run s.index = .ok s.index.activeIndexMeta s.index := rfl
  have hquiet : ∀ t : ShardState τ,
      t.index.registers = s.index.registers.removeEmptySegments →
        QuietRegisters s.index t.index := by
    intro t ht
    rw [QuietRegisters, ht]
    exact ⟨rfl, fun _ hid => SegmentRegisters.mem_ids_removeEmptySegments hid⟩
  unfold ShardState.writeWith
  rw [rewriteMeta, run_bind_of_ok hload, saveMetas_run]
  cases io.saveOk with
  | false =>
    exact Framed.advances_quiet ⟨rfl, rfl, rfl, rfl, rfl, fun _ _ => rfl⟩ h (hquiet _ rfl) trivial
  | true =>
    refine Framed.advances_quiet ⟨rfl, rfl, rfl, rfl, rfl, fun _ _ => rfl⟩ h (hquiet _ rfl) ?_
    exact ⟨_, sfxDictionaryMeta_eq h.dictionary, fun _ => id⟩

/-- Consumed pairs go. -/
theorem delete_advances (hphase : s.phase = .written) :
    Advances s d (.delete io) (s.delete io) := by
  have hkept := deleteConsumedPairs_exceptMinted io s.index
  simp only [exceptMinted, Prod.mk.injEq] at hkept
  obtain ⟨hdict, -, hfold, hgen⟩ := hkept
  have hquiet := deleteConsumedPairs_quiet io s.index
  obtain ⟨info, hinfo, hsub⟩ : PhaseConsistent s d .written := hphase ▸ h.phase
  refine Framed.advances_quiet ⟨hdict, rfl, rfl, hfold, hgen, fun id hid => ?_⟩ h hquiet trivial
  -- live pairs are named by the meta just written, uncommitted ones are not committed
  rcases hid with hid | hid
  · exact deleteConsumedPairs_minted io s.index (.inr ⟨info, hinfo, hsub id hid⟩)
  · refine deleteConsumedPairs_minted io s.index (.inl (h.disjoint id ?_))
    have hunc : (finalState (deleteConsumedPairs io) s.index).registers.uncommitted =
      s.index.registers.uncommitted := hquiet.1
    rwa [← hunc]

/-- A step that changes nothing but what has been read. -/
theorem readsOnly_advances (reads : List IndexMeta) : Advances s d e { s with reads } := by
  refine Framed.advances_quiet ⟨rfl, rfl, rfl, rfl, rfl, fun _ _ => rfl⟩ h
    (quietRegisters_refl _) ?_
  exact h.phase.mono (.of_eq rfl rfl rfl) rfl (fun _ hid => .inl hid) fun _ _ => id

/-- A harmless reload. -/
theorem refresh_advances {n : Nat} {metas : IndexMeta}
    (hread : s.reads[n]? = some metas) (hok : HarmlessReload s (.refresh n)) :
    Advances s d (.refresh n)
      { s with index := refreshSfxDictionary metas s.index, reads := s.reads.eraseIdx n } := by
  have hindex : refreshSfxDictionary metas s.index = s.index :=
    refreshSfxDictionary_of_ahead h.dictionary fun info hinfo =>
      hok metas info d hread hinfo h.dictionary
  rw [hindex]
  exact readsOnly_advances h _

/-! ## Steps that change the live dictionary, or the files -/

/-- A segment is cut. -/
theorem cut_advances {entry : SegmentEntry} {texts : FieldId → Texts τ}
    (hnew : entry.id ∉ s.known) (hfields : ∀ f, texts f ≠ [] → f ∈ entry.info.sfxFieldIds) :
    Advances s d (.cut entry texts) (s.cut entry texts) := by
  have hne : ∀ id ∈ s.known, id ≠ entry.id := fun id hid he => hnew (he ▸ hid)
  have hminted : ∀ id ∈ s.known, (s.cut entry texts).minted id = s.minted id :=
    fun id hid => update_of_ne (hne id hid) _ _
  have hfile : ∀ id ∈ s.known, (s.cut entry texts).index.directory.minted id =
      s.index.directory.minted id :=
    fun id hid => update_of_ne (hne id hid) _ _
  have hknown : ∀ id ∈ s.known, id ∈ (s.cut entry texts).known :=
    fun id hid => mem_cons_of_mem _ hid
  have hext : Extends s d (s.cut entry texts) d := ⟨hknown, hminted, fun f x hx => hx⟩
  have hfiles : ∀ id ∈ d.info.pendingSegments, (s.cut entry texts).index.directory.minted id =
      s.index.directory.minted id := fun id hid => hfile id (h.parts.known id hid)
  refine ⟨d, ⟨h.dictionary, ?_, ?_, ?_, ?_, ?_, ?_⟩, hext, fun _ hid => .inl hid⟩
  · exact h.parts.mono hext hfiles fun g f _ => rfl
  · intro e he
    rcases mem_append.mp he with he | he
    · have heu : e ∈ s.index.registers.uncommitted.entries := (mem_filter.mp he).1
      have hk := h.known e.id (.inl (SegmentRegister.mem_ids.mpr ⟨e, heu, rfl⟩))
      obtain ⟨hfile', hfields'⟩ := h.intact e heu
      refine ⟨fun f => ?_, fun f hf => hfields' f (by rwa [hminted _ hk] at hf)⟩
      rw [mintedTexts, hfile _ hk, hminted _ hk]
      exact hfile' f
    · rw [mem_singleton.mp he]
      have hself : (s.cut entry texts).minted entry.id = texts := update_self ..
      refine ⟨fun f => ?_, fun f hf => hfields f (by rwa [hself] at hf)⟩
      rw [hself]
      exact congrFun (mintedTexts_writeMinted_self ..) f
  · intro id hid hcom
    rcases SegmentRegister.mem_ids_addSegmentEntry.mp hid with hid | rfl
    · exact h.disjoint id hid hcom
    · exact hnew (h.known _ (.inr hcom))
  · rintro id (hid | hid)
    · rcases SegmentRegister.mem_ids_addSegmentEntry.mp hid with hid | rfl
      · exact hknown id (h.known id (.inl hid))
      · exact mem_cons_self ..
    · exact hknown id (h.known id (.inr hid))
  · exact h.fold.mono hext h.parts hfiles rfl rfl rfl (fun _ => id) fun _ => id
  · exact h.phase.mono hext rfl (fun _ hid => .inl hid) fun _ _ => id

/-- The pairs a commit names are on disk, like those named before. -/
theorem namedMeta_onDisk {registers : SegmentRegisters}
    (hunc : registers.uncommitted = s.index.registers.uncommitted) :
    PartsOnDisk s (namedMeta d io s.index (newPairs io s.index.directory registers)) := by
  have hnew : ∀ id ∈ (newPairs io s.index.directory registers).map SegmentMeta.id,
      ∃ e ∈ s.index.registers.uncommitted.entries, e.id = id ∧
        ∀ f ∈ e.info.sfxFieldIds, mintedTexts s.index.directory e.id f ≠ [] →
          f ∈ (newPairs io s.index.directory registers).flatMap
            (mintedFields io s.index.directory) := by
    rw [← hunc]
    exact fun id hid => mem_newPairs_ids hid
  refine ⟨fun id hid => ?_, fun id hid f => ?_, fun id hid f hf => ?_, fun g f hf => ?_,
    h.parts.generations⟩
  · rcases mem_append.mp hid with hid | hid
    · exact h.parts.known id hid
    · obtain ⟨e, he, rfl, -⟩ := hnew id hid
      exact h.known _ (.inl (SegmentRegister.mem_ids.mpr ⟨e, he, rfl⟩))
  · rcases mem_append.mp hid with hid | hid
    · exact h.parts.pairs id hid f
    · obtain ⟨e, he, rfl, -⟩ := hnew id hid
      exact (h.intact e he).1 f
  · rw [namedMeta, mem_addFields, not_or] at hf
    rcases mem_append.mp hid with hid | hid
    · exact h.parts.pairFields id hid f hf.1
    · obtain ⟨e, he, rfl, hfields⟩ := hnew id hid
      by_contra hne
      obtain ⟨hfile, hown⟩ := h.intact e he
      exact hf.2 (hfields f (hown f hne) (by rwa [hfile]))
  · rw [namedMeta, mem_addFields, not_or] at hf
    exact h.parts.generationFields g f hf.1

/-- A commit names pairs. -/
theorem name_advances (hphase : s.phase = .idle) : Advances s d (.name io) (s.name io) := by
  have hquiet : QuietRegisters s.index
      { s.index with registers := s.index.registers.removeEmptySegments } :=
    committedSegmentMetas_quiet s.index
  unfold ShardState.name
  rw [namePairs_run]
  dsimp only
  split_ifs with hbad hnone
  · refine Framed.advances_quiet ⟨rfl, rfl, rfl, rfl, rfl, fun _ _ => rfl⟩ h hquiet ?_
    rw [hphase]
    trivial
  · refine Framed.advances_quiet ⟨rfl, rfl, rfl, rfl, rfl, fun _ _ => rfl⟩ h hquiet ?_
    intro id hid
    rw [hnone] at hid
    cases hid
  · -- pairs to name: the live dictionary is reopened with them
    have hparts : PartsOnDisk s (namedMeta d io s.index (newPairs io s.index.directory
        s.index.registers.removeEmptySegments)) := namedMeta_onDisk h rfl
    rw [nameNewPairs, h.dictionary]
    refine ⟨.openParts s.index.directory _, ⟨rfl, ?_, ?_, ?_, ?_, ?_, ?_⟩, ?_, ?_⟩
    · exact { hparts with }
    · exact h.intact
    · exact fun id hid hcom => h.disjoint id hid (hquiet.2 id hcom)
    · rintro id (hid | hid)
      · exact h.known id (.inl hid)
      · exact h.known id (.inr (hquiet.2 id hid))
    · exact h.fold.mono ⟨fun _ => id, fun _ _ => rfl, fun _ _ => id⟩ h.parts (fun _ _ => rfl) rfl
        rfl rfl (fun _ hid => mem_append_left _ hid) fun f hf => mem_addFields.mpr (.inl hf)
    · intro id hid
      have hmem : id ∈ (namedMeta d io s.index (newPairs io s.index.directory
          s.index.registers.removeEmptySegments)).pendingSegments :=
        mem_append_right _ hid
      exact ⟨hparts.known id hmem, .inl hmem⟩
    · exact ⟨fun _ => id, fun _ _ => rfl, fun _ _ => id⟩
    · exact fun id hid => .inl (mem_append_left _ hid)

/-- A step of the fold that changes nothing but the fold. -/
theorem foldOnly_advances {task : FoldTask} (htask : FoldConsistent s d task) :
    Advances s d e { s with index := { s.index with fold := task } } := by
  refine ⟨d, ⟨h.dictionary, ?_, h.intact, h.disjoint, h.known, ?_, ?_⟩, .of_eq rfl rfl rfl,
    fun _ hid => .inl hid⟩
  · exact { h.parts with }
  · exact htask.mono (.of_eq rfl rfl rfl) h.parts (fun _ _ => rfl) rfl rfl rfl
      (fun _ => id) fun _ => id
  · exact h.phase.mono (.of_eq rfl rfl rfl) rfl (fun _ hid => .inl hid) fun _ _ => id

/-- The fold takes its snapshot: the live meta as it is. -/
theorem foldSnapshot_advances (hfold : s.index.fold = .started) :
    Advances s d (.foldStep io) { s with index := foldStep io s.index } := by
  have hidle : FoldConsistent s d .idle := trivial
  have hsnapshot : FoldConsistent s d (.snapshot d.info) :=
    ⟨rfl, rfl, fun _ => id, fun _ => id, h.parts⟩
  rw [foldStep_of_started hfold, foldSnapshot_eq h.dictionary]
  by_cases hnone : d.info.pendingSegments = []
  · rw [if_pos hnone]
    exact foldOnly_advances h hidle
  · rw [if_neg hnone]
    exact foldOnly_advances h hsnapshot

/-- The fold writes: no live part is touched, and the new generations hold what the snapshot
has. -/
theorem foldWrite_advances {info : SfxDictionaryMeta}
    (hfold : s.index.fold = .snapshot info) (hopen : OpensParts io) :
    Advances s d (.foldStep io) { s with index := foldStep io s.index } := by
  have htask : FoldConsistent s d (.snapshot info) := hfold ▸ h.fold
  obtain ⟨hgens, hnext, hpending, hfields, hinfo⟩ := htask
  rw [foldStep, hfold]
  dsimp only
  cases hwrite : foldWrite io info s.index.directory with
  | none => exact foldOnly_advances h trivial
  | some r =>
    have hminted : r.directory.minted = s.index.directory.minted := foldWrite_minted hwrite
    have hold : ∀ f x, InGenerations r.directory d.info.generations f x ↔
        InGenerations s.index.directory d.info.generations f x := by
      intro f x
      refine exists_congr fun g => and_congr_right fun hg => ?_
      rw [foldWrite_old_generation hwrite (by rw [hnext]; exact h.parts.generations g hg)]
    have hother : ∀ g f, f ∉ d.info.fieldIds →
        generationTexts r.directory g f = generationTexts s.index.directory g f := by
      intro g f hf
      rw [generationTexts, foldWrite_other_fields hwrite fun hin => hf (hfields f hin)]
      rfl
    have hext : Extends s d { s with index := { s.index with
        directory := r.directory, fold := .written info r.generations r.nextGeneration } } d :=
      ⟨fun _ hid => hid, fun _ _ => rfl, fun f x hx => (hold f x).mpr hx⟩
    refine ⟨d, ⟨h.dictionary, ?_, ?_, h.disjoint, h.known, ⟨?_, ?_, ?_⟩, ?_⟩, hext,
      fun _ hid => .inl hid⟩
    · exact h.parts.mono hext (fun _ _ => by rw [hminted]) hother
    · intro e he
      obtain ⟨hfile, hown⟩ := h.intact e he
      refine ⟨fun f => ?_, hown⟩
      rw [mintedTexts, hminted]
      exact hfile f
    · intro id hid
      refine ⟨hpending id hid, fun f x hx => ?_⟩
      have hf : f ∈ info.fieldIds := by
        by_contra hf
        have hnil := hinfo.pairFields id hid f hf
        rw [hnil] at hx
        cases hx
      rw [← hinfo.pairs id hid f] at hx
      exact foldWrite_holds_pairs hwrite hopen hinfo.generations hf hid hx
    · intro f x hx
      have hx' : InGenerations s.index.directory info.generations f x :=
        hgens ▸ (hold f x).mp hx
      have hf : f ∈ info.fieldIds := by
        by_contra hf
        obtain ⟨g, -, hxg⟩ := hx'
        rw [hinfo.generationFields g f hf] at hxg
        cases hxg
      exact foldWrite_keeps_generations hwrite hopen hinfo.generations hf hx'
    · exact foldWrite_generations_lt hwrite hinfo.generations
    · exact h.phase.mono hext rfl (fun _ hid => .inl hid) fun _ _ hid => hid

/-- The fold swaps its generations in: the snapshot's pairs leave the live meta, and the
generations hold their texts. -/
theorem foldSwap_advances {info : SfxDictionaryMeta} {gs : List Nat}
    {next : Nat} (hfold : s.index.fold = .written info gs next) :
    Advances s d (.foldStep io) { s with index := foldStep io s.index } := by
  have htask : FoldConsistent s d (.written info gs next) := hfold ▸ h.fold
  obtain ⟨hpairs, hkeep, hlt⟩ := htask
  rw [foldStep, hfold]
  rw [h.dictionary]
  set swapped : SfxDictionaryMeta :=
    { d.info with
      nextIds := s.index.dictionaryShared.nextIds
      generations := gs
      nextGeneration := next
      pendingSegments := d.info.pendingSegments.filter (· ∉ info.pendingSegments) }
  have hsub : ∀ id ∈ swapped.pendingSegments, id ∈ d.info.pendingSegments :=
    fun id hid => mem_of_mem_filter hid
  have hparts : PartsOnDisk s swapped := h.parts.of_subset hsub rfl hlt
  have hext : Extends s d { s with index := { s.index with
      dictionary := some (.openParts s.index.directory swapped), fold := .started } }
      (.openParts s.index.directory swapped) :=
    ⟨fun _ => id, fun _ _ => rfl, fun f x hx => hkeep f x hx⟩
  have hnamed : ∀ id ∈ d.info.pendingSegments, id ∈ swapped.pendingSegments ∨
      (id ∈ info.pendingSegments ∧ Held s gs id) := by
    intro id hid
    by_cases hin : id ∈ info.pendingSegments
    · exact .inr ⟨hin, (hpairs id hin).2⟩
    · exact .inl (mem_filter.mpr ⟨hid, by simpa using hin⟩)
  refine ⟨.openParts s.index.directory swapped,
    ⟨rfl, ?_, h.intact, h.disjoint, h.known, trivial, ?_⟩, hext, fun id hid => ?_⟩
  · exact { hparts with }
  · exact h.phase.mono hext rfl (fun id hid => (hnamed id hid).imp_right And.right)
      fun _ id hid => hsub id hid
  · rcases hnamed id hid with hid | ⟨hin, hheld⟩
    · exact .inl hid
    · exact .inr ⟨⟨io, info, gs, next, rfl, hfold, hin⟩, hheld⟩

/-- A fold's step. -/
theorem foldStep_advances (hopen : OpensParts io) :
    Advances s d (.foldStep io) { s with index := foldStep io s.index } := by
  cases hfold : s.index.fold with
  | idle =>
    have hsame : foldStep io s.index = { s.index with fold := .idle } := by
      rw [foldStep, hfold]
      dsimp only
      rw [← hfold]
    rw [hsame]
    exact foldOnly_advances h trivial
  | started => exact foldSnapshot_advances h hfold
  | snapshot info => exact foldWrite_advances h hfold hopen
  | written info gs next => exact foldSwap_advances h hfold

/-- **Every harmless step advances.** -/
theorem harmless_step_advances (hok : HarmlessReload s e)
    (hstep : ShardStep s e t) : Advances s d e t := by
  cases hstep with
  | cut hnew hfields => exact cut_advances h hnew hfields
  | name hphase => exact name_advances h hphase
  | write _ => exact write_advances h _ _
  | rewrite _ => exact rewrite_advances h
  | delete hphase => exact delete_advances h hphase
  | foldBegin hfold => exact foldOnly_advances h trivial
  | foldStep => exact foldStep_advances h hok
  | readMeta => exact readsOnly_advances h _
  | refresh hread => exact refresh_advances h hread hok

end

end Steps

/-! ## Runs -/

/-- An opened shard. -/
theorem Opened.slotInvariant {s : ShardState τ} (h : Opened s) : ∃ d, SlotInvariant s d := by
  obtain ⟨d, hd, hparts⟩ := h.dictionary
  refine ⟨d, hd, hparts, ?_, ?_, ?_, ?_, ?_⟩
  · intro e he
    rw [h.uncommitted] at he
    cases he
  · intro id hid
    rw [h.uncommitted] at hid
    cases hid
  · rintro id (hid | hid)
    · rw [h.uncommitted] at hid
      cases hid
    · exact h.known id hid
  · rw [h.fold]
    trivial
  · rw [h.phase]
    trivial

/-- Along a run of harmless steps the invariant holds, and the history only grows: a pair
named at the start is named at the end, or the generations live at the end hold its texts. -/
theorem run_advances {es : List (ShardEvent τ)} (h : SlotInvariant s d)
    (hrun : Run (Guarded ShardStep HarmlessReload) s es t) :
    ∃ d', SlotInvariant t d' ∧ Extends s d t d' ∧
      ∀ id ∈ d.info.pendingSegments,
        id ∈ d'.info.pendingSegments ∨ Held t d'.info.generations id := by
  induction hrun with
  | nil => exact ⟨d, h, .of_eq rfl rfl rfl, fun _ hid => .inl hid⟩
  | snoc _ hstep ih =>
    obtain ⟨d', hinv, hext, hnamed⟩ := ih
    obtain ⟨d'', hinv', hext', hnamed'⟩ := harmless_step_advances hinv hstep.1 hstep.2
    refine ⟨d'', hinv', ⟨fun id hid => hext'.known id (hext.known id hid), fun id hid => ?_,
      fun f x hx => hext'.texts f x (hext.texts f x hx)⟩, fun id hid => ?_⟩
    · rw [hext'.minted id (hext.known id hid), hext.minted id hid]
    · rcases hnamed id hid with hid' | hheld
      · exact (hnamed' id hid').imp_right And.right
      · exact .inr (hext'.held (hext.known id (h.parts.known id hid)) hheld)

theorem SlotInvariant.livePending_eq {s : ShardState τ} (h : SlotInvariant s d) :
    livePending s = d.info.pendingSegments := by
  rw [livePending, h.dictionary]
  rfl

theorem SlotInvariant.liveGenerations_eq {s : ShardState τ} (h : SlotInvariant s d) :
    liveGenerations s = d.info.generations := by
  rw [liveGenerations, h.dictionary]
  rfl

/-- **Named pairs stay.** After any run of harmless steps from an opened shard: the next
harmless step keeps every pair of the live dictionary named, unless it is a fold's swap whose
generations hold the pair's texts; a commit that writes `meta.json` accounts there for the
pairs it named; and after any further run a pair is still named, or the live generations hold
its texts. -/
theorem named_pairs_stay {s₀ s : ShardState τ} {es : List (ShardEvent τ)} (h₀ : Opened s₀)
    (hrun : Run (Guarded ShardStep HarmlessReload) s₀ es s) :
    (∀ e t, Guarded ShardStep HarmlessReload s e t → StaysNamed s e t ∧ WriteNamesPairs s e t) ∧
    ∀ es' t, Run (Guarded ShardStep HarmlessReload) s es' t →
      ∀ id ∈ livePending s, id ∈ livePending t ∨ Held t (liveGenerations t) id := by
  obtain ⟨d₀, hinv₀⟩ := h₀.slotInvariant
  obtain ⟨d, hinv, -, -⟩ := run_advances hinv₀ hrun
  refine ⟨fun e t hstep => ⟨?_, ?_⟩, fun es' t hrun' => ?_⟩
  · obtain ⟨d', hinv', -, hnamed⟩ := harmless_step_advances hinv hstep.1 hstep.2
    rw [StaysNamed, hinv.livePending_eq, hinv'.livePending_eq, hinv'.liveGenerations_eq]
    exact hnamed
  · obtain ⟨-, hstep⟩ := hstep
    cases hstep with
    | write hphase => exact write_namesPairs hinv _ _
    | _ => rintro _ _ _ _ ⟨⟩
  · obtain ⟨d', hinv', -, hnamed⟩ := run_advances hinv hrun'
    rw [hinv.livePending_eq, hinv'.livePending_eq, hinv'.liveGenerations_eq]
    exact hnamed

/-! ## Two runs -/

/-- A shard just created: no segment, an empty dictionary, no file. -/
def createdShard : ShardState Unit where
  index := createdIndex
  phase := .idle
  reads := []
  known := []
  minted _ _ := []

theorem createdShard_opened : Opened createdShard where
  phase := rfl
  fold := rfl
  uncommitted := rfl
  known _ h := by cases h
  dictionary := by
    refine ⟨_, rfl, ⟨?_, ?_, ?_, fun _ _ _ => rfl, ?_⟩⟩
    all_goals intro _ h; cases h

/-- The text segment 7 minted. -/
def mintedText (f : FieldId) : Texts Unit := if f = 0 then [(0, ())] else []

theorem mintedText_fields (f : FieldId) (h : mintedText f ≠ []) :
    f ∈ mintingSegment.info.sfxFieldIds := by
  by_cases hf : f = 0
  · subst hf
    decide
  · exact absurd (if_neg hf) h

/-- Segment 7 is cut and its pair named; a commit writes `meta.json` and a fold takes the pair
over. Every hypothesis of the run theorem holds of it, and in the end the live generations
hold the pair's texts. -/
theorem named_pairs_stay_through_fold :
    ∃ s t, Run (Guarded ShardStep HarmlessReload) createdShard
        [.cut mintingSegment mintedText, .name calmIo] s ∧
      Run (Guarded ShardStep HarmlessReload) s
        [.write calmIo 4 none, .delete calmIo, .foldBegin, .foldStep calmIo, .foldStep calmIo,
          .foldStep calmIo] t ∧
      livePending s = [7] ∧ livePending t = [] ∧ Held t (liveGenerations t) 7 := by
  have hfirst : Run (Guarded ShardStep HarmlessReload) createdShard
      [.cut mintingSegment mintedText, .name calmIo] _ :=
    .snoc (.snoc .nil ⟨trivial, .cut (by decide) mintedText_fields⟩) ⟨trivial, .name rfl⟩
  have hsecond : Run (Guarded ShardStep HarmlessReload)
      ((createdShard.cut mintingSegment mintedText).name calmIo)
      [.write calmIo 4 none, .delete calmIo, .foldBegin, .foldStep calmIo, .foldStep calmIo,
        .foldStep calmIo] _ :=
    .snoc (.snoc (.snoc (.snoc (.snoc (.snoc .nil ⟨trivial, .write rfl⟩) ⟨trivial, .delete rfl⟩)
      ⟨trivial, .foldBegin rfl⟩) ⟨opensParts_calmIo, .foldStep⟩) ⟨opensParts_calmIo, .foldStep⟩)
      ⟨opensParts_calmIo, .foldStep⟩
  refine ⟨_, _, hfirst, hsecond, rfl, rfl, ?_⟩
  have hstays := (named_pairs_stay createdShard_opened hfirst).2 _ _ hsecond 7 (by decide)
  exact hstays.resolve_left (by decide)

/-- **A reload between naming and writing loses the pair.** A first commit, of nothing, has
written the dictionary to `meta.json`. The reload reads it before the second commit writes and
refreshes after that commit has named the pair of segment 7; the numbers of the next generation
are equal, so the refresh takes the live dictionary back. The commit then writes a `meta.json`
that lists segment 7 and names no part with its texts. -/
theorem reload_between_naming_and_writing :
    ∃ s t u : ShardState Unit, Opened createdShard ∧
      Run ShardStep createdShard [.name calmIo, .write calmIo 2 none, .delete calmIo,
        .cut mintingSegment mintedText, .readMeta, .name calmIo] s ∧
      ShardStep s (.refresh 0) t ∧ ShardStep t (.write calmIo 4 none) u ∧
      ¬ StaysNamed s (.refresh 0) t ∧ ¬ WriteNamesPairs t (.write calmIo 4 none) u ∧
      livePending s = [7] ∧ livePending t = [] ∧ u.index.metaJson.segmentIds = [7] ∧
      u.index.metaJson.sfxDictionary.map (fun d => (d.generations, d.pendingSegments)) =
        some ([], []) := by
  have hrun : Run ShardStep createdShard [.name calmIo, .write calmIo 2 none, .delete calmIo,
      .cut mintingSegment mintedText, .readMeta, .name calmIo] _ :=
    .snoc (.snoc (.snoc (.snoc (.snoc (.snoc .nil (.name rfl)) (.write rfl)) (.delete rfl))
      (.cut (by decide) mintedText_fields)) .readMeta) (.name rfl)
  refine ⟨_, _, _, createdShard_opened, hrun, .refresh rfl, .write rfl, ?_, ?_, rfl, rfl,
    by decide, rfl⟩
  · intro h
    rcases h 7 (by decide) with h | ⟨⟨io, _, _, _, he, -⟩, -⟩
    · revert h
      decide
    · cases he
  · intro h
    obtain ⟨info, hinfo, hpairs⟩ := h _ _ _ [7] rfl rfl ⟨_, rfl⟩
    cases hinfo
    rcases hpairs 7 (by decide) with h | h
    · revert h
      decide
    · obtain ⟨g, hg, -⟩ := h 0 (0, ()) (by decide)
      revert hg
      exact not_mem_nil

end Lucivy.Indexer
