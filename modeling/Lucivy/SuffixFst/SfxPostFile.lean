import Mathlib.Algebra.Order.BigOperators.Group.List
import Lucivy.SuffixFst.ChunkReads

/-! # The chunk postings of a file

The ways to read an ordinal of a `.sfxpost` file, each stated as a filter of the sorted list of
what was added to it.

* `DocsRead` — the documents, their frequencies, and the document of a rank.
* `ChunksRead` — the entries and positions: all of them, of a set of documents, of one, at a
  position.
* `chunkPostings_read_back` — every file the writer makes is read back so. -/

namespace Lucivy.SuffixFst

open Lucivy.Foundation SfxPost List SfxPostWriterV2 UInt32 SfxPostingEntry SfxPostReaderV2 Function

/-! ## Slots and runs side by side -/

section SideBySide

variable {R : DocSlot → DocRun → Prop} {slots : List DocSlot} {runs : List DocRun}

section

variable (h : List.Forall₂ R slots runs)
include h

/-- Slots and runs, side by side. -/
theorem map_eq_of_forall₂ {β : Type} {f : DocSlot → β} {g : DocRun → β}
    (hfg : ∀ slot run, run ∈ runs → R slot run → f slot = g run) :
    slots.map f = runs.map g := by
  induction h with
  | nil => rfl
  | cons hr _ ih =>
    rw [map_cons, map_cons, hfg _ _ mem_cons_self hr,
      ih fun slot run hrun => hfg slot run (mem_cons_of_mem _ hrun)]

section

variable (hdoc : ∀ slot run, R slot run → slot.docId = run.docId)
include hdoc

/-- Some of them. -/
theorem flatMap_filter_of_forall₂ {β : Type} {f : DocSlot → List β} {g : DocRun → List β}
    (hfg : ∀ slot run, run ∈ runs → R slot run → f slot = g run) (p : UInt32 → Bool) :
    (slots.filter fun slot => p slot.docId).flatMap f =
      (runs.filter fun run => p run.docId).flatMap g := by
  induction h with
  | nil => rfl
  | @cons slot run slots runs hr _ ih =>
    have hrest := ih fun slot run hrun => hfg slot run (mem_cons_of_mem _ hrun)
    have hhead := hfg slot run mem_cons_self hr
    rw [filter_cons, filter_cons, hdoc slot run hr]
    split
    · rw [flatMap_cons, flatMap_cons, hhead, hrest]
    · exact hrest

/-- One of them. -/
theorem find?_of_forall₂ (d : UInt32) :
    (slots.find? (fun slot => slot.docId.toNat = d.toNat) = none ∧
      runs.find? (fun run => run.docId.toNat = d.toNat) = none) ∨
    ∃ slot run, slots.find? (fun slot => slot.docId.toNat = d.toNat) = some slot ∧
      runs.find? (fun run => run.docId.toNat = d.toNat) = some run ∧ R slot run := by
  induction h with
  | nil => exact .inl ⟨rfl, rfl⟩
  | @cons slot run slots runs hr _ ih =>
    have heq := hdoc slot run hr
    by_cases hd : run.docId.toNat = d.toNat
    · refine .inr ⟨slot, run, ?_, ?_, hr⟩
      · exact find?_cons_of_pos (by simpa [heq] using hd)
      · exact find?_cons_of_pos (by simpa using hd)
    · rw [find?_cons_of_neg (by simpa [heq] using hd), find?_cons_of_neg (by simpa using hd)]
      exact ih

end

end

end SideBySide

theorem find?_zipIdx {α : Type} (l : List α) (q : α → Bool) (k : Nat) :
    ((l.zipIdx k).find? fun p => q p.1).map Prod.fst = l.find? q := by
  induction l generalizing k with
  | nil => rfl
  | cons a l ih =>
    by_cases hq : q a = true
    · simp [hq]
    · simp [hq, ih]

namespace SfxPostReaderV2

/-! ## What the reader answers -/

/-- How often a document occurs. -/
def frequency (l : List SfxPostingEntry) (d : UInt32) : Nat := l.countP fun e => e.docId = d

/-- **The documents of an ordinal**: in order, each with its frequency. -/
structure DocsRead (r : SfxPostReaderV2) (ordinal : Nat) (l : List SfxPostingEntry)
    (ds : List UInt32) : Prop where
  sorted : ds.Pairwise fun a b => a.toNat < b.toNat
  /-- They are the documents of the entries. -/
  mem_iff : ∀ d, d ∈ ds ↔ ∃ e ∈ l, e.docId = d
  /-- The counts have 32 bits. -/
  length_lt : l.length < 2 ^ 32
  /-- `for_each_doc`. -/
  docPairs_eq : r.docPairs ordinal = ds.map fun d => (d, ofNat (frequency l d))
  docFreq_eq : r.docFreq ordinal = ofNat ds.length
  hasDoc_eq : ∀ d, r.hasDoc ordinal d = decide (d ∈ ds)
  /-- `doc_at`: the document of a rank, and its frequency. -/
  docAt_eq : ∀ i d, ds[i]? = some d → ∃ header slot, r.headerOf ordinal = some header ∧
    header.docAt i = some slot ∧ slot.docId = d ∧ slot.count = ofNat (frequency l d)

/-- What a filter lets through. -/
def passes (filter : Option DocFilter) (e : SfxPostingEntry) : Bool := Shows.passes filter e.docId

/-- **The entries of an ordinal**, whichever way they are read. -/
structure ChunksRead (r : SfxPostReaderV2) (ordinal : Nat) (l : List SfxPostingEntry) : Prop where
  docs : ∃ ds, r.DocsRead ordinal l ds
  entriesFiltered_eq : ∀ filter, r.entriesFiltered ordinal filter = l.filter (passes filter)
  positionsFiltered_eq : ∀ filter, r.positionsFiltered ordinal filter =
    (l.filter (passes filter)).map fun e => ⟨e.docId, e.tokenIndex⟩
  /-- The two branches of a filtered read. -/
  branches_eq : ∀ header, r.headerOf ordinal = some header → ∀ filter : DocFilter,
    header.searchIndices filter = header.scanIndices filter
  entriesForDoc_eq : ∀ d, r.entriesForDoc ordinal d = l.filter fun e => e.docId = d
  positionsForDoc_eq : ∀ d, r.positionsForDoc ordinal d =
    (l.filter fun e => e.docId = d).map tokenIndex
  /-- `entry_at`: the first entry at the position. -/
  entryAt_eq : ∀ d position, r.entryAt ordinal d position =
    (l.find? fun e => e.docId = d && e.tokenIndex = position).map fun e => (e.byteFrom, e.byteTo)
  hasPosition_eq : ∀ d position, r.hasPosition ordinal d position =
    l.any fun e => e.docId = d && e.tokenIndex = position

/-! ## An ordinal without a block -/

/-- A term without a block. -/
theorem docsRead_nil {r : SfxPostReaderV2} {ordinal : Nat} (h : r.headerOf ordinal = none) :
    r.DocsRead ordinal [] [] where
  sorted := .nil
  mem_iff := by simp
  length_lt := by decide
  docPairs_eq := by rw [docPairs, h]; rfl
  docFreq_eq := by rw [docFreq, h]; rfl
  hasDoc_eq := fun d => by rw [hasDoc, h]; rfl
  docAt_eq := fun i d hd => by cases hd

/-- It has no chunk. -/
theorem chunksRead_nil {r : SfxPostReaderV2} {ordinal : Nat} (h : r.headerOf ordinal = none) :
    r.ChunksRead ordinal [] where
  docs := ⟨[], docsRead_nil h⟩
  entriesFiltered_eq := fun filter => by rw [entriesFiltered, h]; rfl
  positionsFiltered_eq := fun filter => by rw [positionsFiltered, h]; rfl
  branches_eq := fun header hheader => by rw [h] at hheader; cases hheader
  entriesForDoc_eq := fun d => by rw [entriesForDoc, lookup, h]; rfl
  positionsForDoc_eq := fun d => by rw [positionsForDoc, lookup, h]; rfl
  entryAt_eq := fun d position => by rw [entryAt, lookup, h]; rfl
  hasPosition_eq := fun d position => by rw [hasPosition, lookup, h]; rfl

/-! ## An ordinal with a block -/

section Block

variable {r : SfxPostReaderV2} {ordinal : Nat} {header : OrdinalHeader} {slots : List DocSlot}
  {runs : List DocRun} {l : List SfxPostingEntry}

/-- The document and the frequency of a slot. -/
def SlotCounts (slot : DocSlot) (run : DocRun) : Prop :=
  slot.docId = run.docId ∧ slot.count = ofNat run.entries.length

/-- A run's length is the frequency. -/
theorem frequency_eq (hruns : RunsOf l runs) {run : DocRun} (hrun : run ∈ runs) :
    frequency l run.docId = run.entries.length := by
  rw [← hruns.count_eq hrun, frequency]
  simp only [UInt32.toNat_inj]

/-- **A view that shows the documents of a list answers for them.** -/
theorem docsRead_of_shows (hheader : r.headerOf ordinal = some header) (hshows : Shows header slots)
    (hslots : List.Forall₂ SlotCounts slots runs) (hruns : RunsOf l runs)
    (hlen : l.length < 2 ^ 32) : r.DocsRead ordinal l (runs.map DocRun.docId) := by
  have hdocs : slots.map DocSlot.docId = runs.map DocRun.docId :=
    map_eq_of_forall₂ hslots fun slot run _ h => h.1
  have hpairs : slots.map (fun slot => (slot.docId, slot.count)) =
      (runs.map DocRun.docId).map fun d => (d, ofNat (frequency l d)) := by
    rw [map_map]
    refine map_eq_of_forall₂ hslots fun slot run hrun h => ?_
    rw [comp_apply, h.1, h.2, frequency_eq hruns hrun]
  refine ⟨hruns.sorted, hruns.mem_docs_iff, hlen, ?_, ?_, fun d => ?_, fun i d hd => ?_⟩
  · rw [docPairs, hheader]
    dsimp only
    rw [hshows.docs_eq, hpairs]
  · rw [docFreq, hheader]
    dsimp only
    rw [hshows.numDocs_eq, length_map, hslots.length_eq]
  · rw [hasDoc, hheader, Bool.eq_iff_iff, decide_eq_true_eq, Option.isSome_iff_exists, ← hdocs,
      mem_map]
    constructor
    · rintro ⟨i, hi⟩
      obtain ⟨slot, hget, hdoc⟩ := hshows.findDoc_eq_some.mp hi
      exact ⟨slot, mem_of_getElem? hget, hdoc⟩
    · rintro ⟨slot, hslot, hdoc⟩
      obtain ⟨i, hi⟩ := getElem?_of_mem hslot
      exact ⟨i, hshows.findDoc_eq_some.mpr ⟨slot, hi, hdoc⟩⟩
  · have hget : (slots.map fun slot => (slot.docId, slot.count))[i]? =
        some (d, ofNat (frequency l d)) := by rw [hpairs, getElem?_map, hd, Option.map_some]
    rw [getElem?_map, Option.map_eq_some_iff] at hget
    obtain ⟨slot, hslot, heq⟩ := hget
    rw [Prod.mk.injEq] at heq
    have hlt := (List.getElem?_eq_some_iff.mp hslot).1
    exact ⟨header, slot, hheader, (hshows.docAt_eq i hlt).trans hslot, heq.1, heq.2⟩

/-- A lookup by document, as the readers use it. -/
theorem lookup_eq (hheader : r.headerOf ordinal = some header) (hshows : Shows header slots)
    (d : UInt32) :
    r.lookup ordinal d =
      (slots.find? fun slot => slot.docId.toNat = d.toNat).map fun slot => (header, slot) := by
  rw [lookup, hheader, Option.bind_some, hshows.findDocFull_eq, Option.map_map,
    ← find?_zipIdx slots (fun slot => decide (slot.docId.toNat = d.toNat)) 0, Option.map_map]
  rfl

variable (hheader : r.headerOf ordinal = some header) (hshows : Shows header slots)
  (hslots : List.Forall₂ (SlotReads header) slots runs) (hruns : RunsOf l runs)
  (hsorted : EntriesSorted l)

include hruns in
/-- The entries of one document. -/
theorem filter_docId (d : UInt32) :
    l.filter (fun e => e.docId = d) =
      ((runs.find? fun run => run.docId.toNat = d.toNat).map DocRun.entries).getD [] := by
  rw [← hruns.entriesOf_eq]
  simp only [UInt32.toNat_inj]

include hruns hsorted in
/-- The entries of one document are in the order of their positions. -/
theorem run_sorted {run : DocRun} (hrun : run ∈ runs) :
    run.entries.Pairwise fun a b => a.tokenIndex.toNat ≤ b.tokenIndex.toNat := by
  have hsub : run.entries.Sublist l := by
    rw [← hruns.flatMap_eq, flatMap_def]
    exact sublist_flatten_of_mem (mem_map_of_mem hrun)
  have hsorted' : EntriesSorted run.entries := List.Pairwise.sublist hsub hsorted
  exact hsorted'.tokens (hruns.docId_eq run hrun)

include hheader hshows hslots hruns in
/-- What is read of one document is read of its entries. -/
theorem lookup_read {β : Type} (read : OrdinalHeader × DocSlot → β)
    (value : List SfxPostingEntry → β) (hread : ∀ slot run, run ∈ runs → SlotReads header slot run →
      read (header, slot) = value run.entries) (d : UInt32) :
    (r.lookup ordinal d).elim (value []) read = value (l.filter fun e => e.docId = d) := by
  rw [lookup_eq hheader hshows, filter_docId hruns]
  rcases find?_of_forall₂ hslots (fun _ _ h => h.docId_eq) d with ⟨hs, hr⟩ |
    ⟨slot, run, hs, hr, hreads⟩
  · rw [hs, hr]
    rfl
  · rw [hs, hr]
    exact hread slot run (mem_of_find?_eq_some hr) hreads

include hheader hshows hslots hruns hsorted in
/-- A walk over one document for a position. -/
theorem walk_position {β : Type} (d position : UInt32) (init : β) (found : UInt32 → UInt32 → β) :
    ((r.lookup ordinal d).elim init fun p => p.1.walkPayload p.2 (fun s ti bf bt =>
        if ti = position then (found bf bt, false) else (s, decide (ti < position))) init) =
      ((l.find? fun e => e.docId = d && e.tokenIndex = position).map
        fun e => found e.byteFrom e.byteTo).getD init := by
  have hfind : l.find? (fun e => e.docId = d && e.tokenIndex = position) =
      (l.filter fun e => e.docId = d).find? fun e => e.tokenIndex = position := by
    simp
  rw [hfind]
  refine lookup_read hheader hshows hslots hruns _ (fun entries => ((entries.find? fun e =>
    e.tokenIndex = position).map fun e => found e.byteFrom e.byteTo).getD init)
    (fun slot run hrun hreads => ?_) d
  rw [hreads.walk_eq]
  exact SlotReads.foldUntil_find (fun e => found e.byteFrom e.byteTo)
    (run_sorted hruns hsorted hrun)

include hheader hshows hslots hruns hsorted in
/-- **A block with positions is read back**, whichever way it is read. -/
theorem chunksRead_of_shows (hlen : l.length < 2 ^ 32) : r.ChunksRead ordinal l where
  docs :=
    ⟨_, docsRead_of_shows hheader hshows (hslots.imp fun slot run h => ⟨h.docId_eq, h.count_eq⟩)
    hruns hlen⟩
  entriesFiltered_eq := by
    intro filter
    rw [entriesFiltered, hheader]
    dsimp only
    rw [hshows.slots_eq, flatMap_filter_of_forall₂ hslots (fun _ _ h => h.docId_eq)
      (fun slot run hrun h => h.slotEntries_eq (hruns.docId_eq run hrun)), ← hruns.filter_eq]
    rfl
  positionsFiltered_eq := by
    intro filter
    rw [positionsFiltered, hheader]
    dsimp only
    have hslot : ∀ slot run, run ∈ runs → SlotReads header slot run →
        (header.slotPositions slot).map (PositionEntry.mk slot.docId) =
          run.entries.map fun e => ⟨e.docId, e.tokenIndex⟩ := by
      intro slot run hrun h
      rw [h.slotPositions_eq, map_map]
      refine map_congr_left fun e he => ?_
      rw [comp_apply, h.docId_eq, ← hruns.docId_eq run hrun e he]
    rw [hshows.slots_eq, flatMap_filter_of_forall₂ hslots (fun _ _ h => h.docId_eq) hslot,
      ← map_flatMap, ← hruns.filter_eq]
    rfl
  branches_eq := by
    intro header' hheader' filter
    rw [hheader, Option.some.injEq] at hheader'
    rw [← hheader']
    exact hshows.searchIndices_eq_scanIndices filter
  entriesForDoc_eq := lookup_read hheader hshows hslots hruns _ id
    fun slot run hrun hreads => hreads.slotEntries_eq (hruns.docId_eq run hrun)
  positionsForDoc_eq := lookup_read hheader hshows hslots hruns _ (map tokenIndex)
    fun slot run _ hreads => hreads.slotPositions_eq
  entryAt_eq := by
    intro d position
    have hwalk := walk_position hheader hshows hslots hruns hsorted d position none
      fun bf bt => some (bf, bt)
    rw [entryAt, hwalk]
    cases l.find? fun e => e.docId = d && e.tokenIndex = position <;> rfl
  hasPosition_eq := by
    intro d position
    have hwalk := walk_position hheader hshows hslots hruns hsorted d position false fun _ _ => true
    rw [hasPosition, hwalk, Bool.eq_iff_iff, any_eq_true, ← find?_isSome]
    cases l.find? fun e => e.docId = d && e.tokenIndex = position <;> simp

end Block

end SfxPostReaderV2

/-! ## The file -/

namespace SfxPostWriterV2

/-- What a list of calls leaves in an ordinal's list, in the order of the calls. -/
def callsFor (layout : PostingLayout) (adds : List (Nat × SfxPostingEntry)) (ordinal : Nat) :
    List SfxPostingEntry :=
  (adds.filter fun a => a.1 = ordinal).map fun a => kept layout a.2

section

variable (layout : PostingLayout) (n : Nat) (adds : List (Nat × SfxPostingEntry))

/-- The writer behind the calls. -/
theorem added_eq : added layout n adds =
    ⟨adds.foldl (fun ls a => ls.modify a.1 (· ++ [kept layout a.2])) (replicate n []), layout⟩ :=
  foldl_hom (fun ls => (⟨ls, layout⟩ : SfxPostWriterV2)) fun _ _ => rfl

theorem layout_added : (added layout n adds).layout = layout := by
  rw [added_eq]

/-- The list of an ordinal: what was added to it; none past the last one. -/
theorem ordinals_added (ordinal : Nat) :
    (added layout n adds).ordinals[ordinal]? =
      if ordinal < n then some (callsFor layout adds ordinal) else none := by
  rw [added_eq]
  exact getElem?_foldl_modify ..

theorem length_added : (added layout n adds).ordinals.length = n := by
  rw [added_eq]
  exact length_foldl_modify ..

end

end SfxPostWriterV2

/-- **The sorted list of an ordinal's entries**, as the layout keeps them. -/
structure ChunksListed (layout : PostingLayout) (adds : List (Nat × SfxPostingEntry))
    (numTerms ordinal : Nat) (l : List SfxPostingEntry) : Prop where
  sorted : EntriesSorted l
  /-- What was added to the ordinal, as often as it was; nothing past the last ordinal. -/
  perm : l.Perm (if ordinal < numTerms then callsFor layout adds ordinal else [])

/-- What the writer lists. -/
theorem chunksListed_sortEntries (layout : PostingLayout) (adds : List (Nat × SfxPostingEntry))
    (numTerms ordinal : Nat) :
    ChunksListed layout adds numTerms ordinal (sortEntries
      (if ordinal < numTerms then callsFor layout adds ordinal else [])) where
  sorted := sortEntries_sorted _
  perm := perm_insertionSort _ _

/-- Without spans they are zero. -/
theorem ChunksListed.spansKept {layout : PostingLayout} {adds : List (Nat × SfxPostingEntry)}
    {numTerms ordinal : Nat} {l : List SfxPostingEntry}
    (h : ChunksListed layout adds numTerms ordinal l) : SpansKept (layout = .spans) l := by
  intro hspans e he
  have hmem := h.perm.mem_iff.mp he
  split at hmem
  · obtain ⟨a, -, rfl⟩ := mem_map.mp hmem
    rw [kept, if_neg (of_decide_eq_false hspans)]
    exact ⟨rfl, rfl⟩
  · cases hmem

namespace SfxPostReaderV2

theorem namesLayouts_magic : PostingFile.NamesLayouts magic :=
  ⟨fun layout => by cases layout <;> rfl, fun layout => by cases layout <;> rfl⟩

variable {file : Bytes} {l : List SfxPostingEntry} {adds : List (Nat × SfxPostingEntry)}

/-- What the reader of a file is: for each ordinal the view of its block, past the last none. -/
theorem openOwned_finish {layout : PostingLayout} {numTerms : Nat} (hnum : numTerms < 2 ^ 31)
    (hfile : (added layout numTerms adds).finish = some file) :
    ∃ r, openOwned file = some r ∧ ∀ ordinal, ∃ l, sortEntries
        (if ordinal < numTerms then callsFor layout adds ordinal else []) = l ∧
      (l = [] ∧ r.headerOf ordinal = none ∨ (encodeOrdinal layout l).length < 2 ^ 32 ∧
        r.headerOf ordinal = if encodeOrdinal layout l = [] then none
          else if layout = .docsOnly then readDocsHeader (encodeOrdinal layout l)
          else readPositionsHeader (layout = .spans) (encodeOrdinal layout l)) := by
  have hwlayout := layout_added layout numTerms adds
  have hlen : (added layout numTerms adds).blocks.length = numTerms := by
    rw [blocks, length_map, length_added]
  obtain ⟨f, hopen, hdata, hlayout, hcount, hblock⟩ :=
    PostingFile.openWith_finishFile namesLayouts_magic (by rwa [hlen]) hfile
  refine ⟨⟨f⟩, ?_, fun ordinal => ⟨_, rfl, ?_⟩⟩
  · rw [openOwned, hopen]
    rfl
  by_cases hord : ordinal < numTerms
  · right
    rw [if_pos hord]
    have hb : (added layout numTerms adds).blocks[ordinal]? =
        some (encodeOrdinal layout (sortEntries (callsFor layout adds ordinal))) := by
      rw [blocks, getElem?_map, ordinals_added, if_pos hord, hwlayout]
      rfl
    generalize encodeOrdinal layout (sortEntries (callsFor layout adds ordinal)) = block at hb ⊢
    obtain ⟨start, hstart, hstop, hat, hle, hsmall⟩ := hblock ordinal _ hb
    refine ⟨hsmall, ?_⟩
    rw [headerOf, if_neg (by simp only; omega), readOrdinalHeader]
    simp only [hstart, hstop, Option.bind_eq_bind, Option.bind_some, length_drop]
    by_cases hnil : block = []
    · rw [if_pos hnil, hnil, length_nil, add_zero]
      exact if_pos (by simp)
    · have hpos := length_pos_iff.mpr hnil
      rw [if_neg hnil, if_neg]
      · have hslice : ((f.data.drop f.entriesStart).drop start).take
            (min (start + block.length) (f.data.length - f.entriesStart) - start) = block := by
          have htake := hat.take_drop
          rw [drop_drop, hdata, show min (start + block.length) (file.length - f.entriesStart) -
            start = block.length by omega, htake]
        rw [hslice, hlayout, hwlayout]
      · simp only [Bool.or_eq_true, decide_eq_true_eq, hdata]
        omega
  · rw [if_neg hord]
    exact .inl ⟨rfl, if_pos (by rw [hcount, hlen]; omega)⟩

/-- A block with positions takes two bytes or more, so their number has 31 bits. -/
theorem length_lt_of_finish {layout : PostingLayout} {numTerms : Nat} (hlayout : layout ≠ .docsOnly)
    (hfile : (added layout numTerms adds).finish = some file) : numTerms < 2 ^ 31 := by
  have hblock : ∀ entries, 2 ≤ (encodeOrdinal layout entries).length := by
    intro entries
    have hlen : ∀ spans, 2 ≤ (encodeBlock spans entries).length := by
      intro spans
      have h1 := writeVarint_pos (entryRuns entries).length
      have h2 := writeVarint_pos (headersFrom spans ⟨0, 0⟩ (entryRuns entries)).length
      rw [encodeBlock_eq, length_append, length_append]
      omega
    cases layout with
    | spans => exact hlen true
    | positions => exact hlen false
    | docsOnly => exact absurd rfl hlayout
  have htotal := card_nsmul_le_sum
    ((added layout numTerms adds).blocks.map length) 2 fun k hk => by
      obtain ⟨_, hmem, rfl⟩ := mem_map.mp hk
      obtain ⟨entries, -, rfl⟩ := mem_map.mp hmem
      rw [layout_added]
      exact hblock _
  rw [length_map, blocks, length_map, length_added, ← length_flatten] at htotal
  rw [finish, finishFile] at hfile
  split at hfile
  next hsmall =>
    rw [blocks] at hsmall
    change numTerms * 2 ≤ _ at htotal
    omega
  next => cases hfile

/-- An entry takes a byte. -/
theorem length_le_payloads {spans : Bool} {runs : List DocRun} (h : RunsOf l runs) :
    l.length ≤ (runs.flatMap (payloadOf spans)).length := by
  rw [← h.flatMap_eq, length_flatMap, length_flatMap]
  exact sum_le_sum fun run _ => length_le_payloadFrom spans 0 0 run.entries

/-- No entry, no run. -/
theorem entryRuns_eq_nil : entryRuns l = [] ↔ l = [] := by
  rw [entryRuns, map_eq_nil_iff, runsBy, splitBy_eq_nil]

/-- An ordinal without entries: two bytes, which the reader takes for no block. -/
theorem readPositionsHeader_nil (spans : Bool) :
    readPositionsHeader spans (encodeBlock spans []) = none := by
  have hzero : writeVarint 0 = [0] := writeVarint_of_lt (by decide)
  have hblock : encodeBlock spans [] = [0, 0] := by
    show writeVarint 0 ++ (writeVarint 0 ++ []) = _
    rw [hzero]
    rfl
  rw [hblock]
  exact if_pos (by decide)

/-- **A file with positions is read back.** -/
theorem chunksRead_of_finish {layout : PostingLayout} {numTerms : Nat}
    (hlayout : layout ≠ .docsOnly)
    (hfile : (added layout numTerms adds).finish = some file) :
    ∃ r, openOwned file = some r ∧ ∀ ordinal, r.ChunksRead ordinal (sortEntries
      (if ordinal < numTerms then callsFor layout adds ordinal else [])) := by
  obtain ⟨r, hopen, hheaders⟩ := openOwned_finish (length_lt_of_finish hlayout hfile) hfile
  refine ⟨r, hopen, fun ordinal => ?_⟩
  have hlisted := chunksListed_sortEntries layout adds numTerms ordinal
  obtain ⟨l, hl, hheader⟩ := hheaders ordinal
  rw [hl] at hlisted ⊢
  have hencode : encodeOrdinal layout l = encodeBlock (layout = .spans) l := by
    cases layout with
    | spans => rfl
    | positions => rfl
    | docsOnly => exact absurd rfl hlayout
  rw [hencode, if_neg hlayout] at hheader
  rcases eq_or_ne l [] with rfl | hempty
  · refine chunksRead_nil ?_
    rcases hheader with ⟨-, hnone⟩ | ⟨-, hheader⟩
    · exact hnone
    · rw [hheader, readPositionsHeader_nil]
      exact ite_self _
  · obtain ⟨hlt, hheader⟩ := hheader.resolve_left fun h => hempty h.1
    have hruns := runsOf_entryRuns hlisted.sorted
    have hne : entryRuns l ≠ [] := fun h => hempty (entryRuns_eq_nil.mp h)
    have hfit := RunsFit.of_encodeBlock hlt
    have hview : r.headerOf ordinal = some (blockHeader (layout = .spans) (entryRuns l)) := by
      have hbne : encodeBlock (layout = .spans) l ≠ [] := by
        exact append_ne_nil_of_left_ne_nil (writeVarint_ne_nil _) _
      rw [hheader, if_neg hbne]
      exact readPositionsHeader_encodeBlock hne hlt
    have hkept : ∀ run ∈ entryRuns l, SpansKept (layout = .spans) run.entries := by
      intro run hrun hspans e he
      refine hlisted.spansKept hspans e ?_
      rw [← hruns.flatMap_eq]
      exact mem_flatMap.mpr ⟨run, hrun, he⟩
    exact chunksRead_of_shows hview (shows_blockHeader hfit hruns.sorted)
      (slotReads_blockHeader hfit hkept) hruns hlisted.sorted
      (lt_of_le_of_lt (length_le_payloads hruns) hfit.payload_lt)

/-! ## Documents only -/

/-- The runs of the documents alone. -/
theorem docRuns_eq (l : List SfxPostingEntry) :
    docRuns (l.map docId) = (entryRuns l).map fun run => (run.docId, run.entries.length) := by
  rw [docRuns, entryRuns, runsBy_map, map_map, map_map]
  refine map_congr_left fun run _ => ?_
  rw [comp_apply, comp_apply, length_map]
  cases run <;> rfl

/-- Without positions a block is no longer. -/
theorem length_docPairs_le (spans : Bool) (st : DocState) (runs : List DocRun) :
    (SuffixFst.docPairs st.doc (runs.map fun run => (run.docId, run.entries.length))).length ≤
      (headersFrom spans st runs).length := by
  induction runs generalizing st with
  | nil => exact le_refl _
  | cons run runs ih =>
    have hrest := ih (nextState spans st run)
    rw [map_cons, SuffixFst.docPairs, headersFrom_cons, encodeHeader]
    simp only [length_append]
    have hdoc : (nextState spans st run).doc = run.docId := rfl
    rw [hdoc] at hrest
    omega

/-- A block of documents is no longer. -/
theorem length_encodeDocs_le (spans : Bool) (l : List SfxPostingEntry) :
    (encodeDocs (l.map docId)).length ≤ (encodeBlock spans l).length := by
  rw [encodeDocs]
  split
  · exact Nat.zero_le _
  · have hpairs := length_docPairs_le spans ⟨0, 0⟩ (entryRuns l)
    dsimp only at hpairs
    rw [docRuns_eq, encodeBlock_eq, length_append, length_map]
    simp only [length_append]
    omega

theorem callsFor_docsOnly (adds : List (Nat × SfxPostingEntry)) (ordinal : Nat) :
    callsFor .docsOnly adds ordinal = callsFor .positions adds ordinal := rfl

/-- Where there is a file with positions, there is one without. -/
theorem finish_docsOnly {numTerms : Nat}
    (hfile : (added .positions numTerms adds).finish = some file) :
    ∃ dfile, (added .docsOnly numTerms adds).finish = some dfile := by
  have hordinals : (added .docsOnly numTerms adds).ordinals =
      (added .positions numTerms adds).ordinals := by
    refine ext_getElem? fun ordinal => ?_
    rw [ordinals_added, ordinals_added, callsFor_docsOnly]
  have htotal : ∀ ordinals : List (List SfxPostingEntry),
      (ordinals.map fun entries => encodeOrdinal .docsOnly (sortEntries entries)).flatten.length ≤
        (ordinals.map fun entries => encodeOrdinal .positions
          (sortEntries entries)).flatten.length := by
    intro ordinals
    rw [length_flatten, length_flatten, map_map, map_map]
    exact sum_le_sum fun entries _ => length_encodeDocs_le false (sortEntries entries)
  rw [finish, finishFile, blocks, layout_added] at hfile
  rw [finish, finishFile, blocks, layout_added,
    hordinals]
  split at hfile
  next hsmall =>
    have hle := htotal (added .positions numTerms adds).ordinals
    exact ⟨_, if_pos (le_trans hle hsmall)⟩
  next => cases hfile

/-- The documents are determined by the entries. -/
theorem DocsRead.unique {r r' : SfxPostReaderV2} {ordinal ordinal' : Nat} {ds ds' : List UInt32}
    (h : r.DocsRead ordinal l ds) (h' : r'.DocsRead ordinal' l ds') : ds = ds' :=
  eq_of_pairwise_lt h.sorted h'.sorted fun d => (h.mem_iff d).trans (h'.mem_iff d).symm

/-- **A file of documents only is read back**: the documents and frequencies of the entries. -/
theorem docsRead_of_finish {numTerms : Nat} {dfile : Bytes} (hnum : numTerms < 2 ^ 31)
    (hfile : (added .docsOnly numTerms adds).finish = some dfile)
    (hlen : ∀ ordinal, (sortEntries (if ordinal < numTerms then
      callsFor .positions adds ordinal else [])).length < 2 ^ 32) :
    ∃ r, openOwned dfile = some r ∧ ∀ ordinal, ∃ ds, r.DocsRead ordinal (sortEntries
      (if ordinal < numTerms then callsFor .positions adds ordinal else [])) ds := by
  obtain ⟨r, hopen, hheaders⟩ := openOwned_finish hnum hfile
  refine ⟨r, hopen, fun ordinal => ?_⟩
  have hlisted := chunksListed_sortEntries .positions adds numTerms ordinal
  have hsize := hlen ordinal
  obtain ⟨l, hl, hheader⟩ := hheaders ordinal
  rw [callsFor_docsOnly] at hl
  rw [hl] at hlisted hsize ⊢
  rcases eq_or_ne l [] with rfl | hempty
  · exact ⟨[], docsRead_nil (hheader.elim And.right And.right)⟩
  · obtain ⟨hlt, hheader⟩ := hheader.resolve_left fun h => hempty h.1
    have hencode : encodeOrdinal .docsOnly l = encodeDocs (l.map docId) := rfl
    rw [hencode] at hlt hheader
    have hruns := runsOf_entryRuns hlisted.sorted
    have hdocs : l.map docId ≠ [] := fun h => hempty (map_eq_nil_iff.mp h)
    have hview : r.headerOf ordinal = some (docsHeader (docRuns (l.map docId))) := by
      have hbne : encodeDocs (l.map docId) ≠ [] := by
        rw [encodeDocs, if_neg hdocs]
        exact append_ne_nil_of_left_ne_nil (writeVarint_ne_nil _) _
      rw [hheader, if_neg hbne]
      exact readDocsHeader_encodeDocs hdocs hlt
    have hsorted : DocsSorted ((docRuns (l.map docId)).map Prod.fst) := by
      rw [docRuns_eq, map_map]
      exact hruns.sorted
    have hslots : List.Forall₂ SlotCounts ((docRuns (l.map docId)).map pairSlot) (entryRuns l) := by
      rw [docRuns_eq, map_map, forall₂_map_left_iff]
      refine forall₂_same.mpr fun run hrun => ⟨rfl, ?_⟩
      have hle : run.entries.length ≤ l.length := by
        rw [← frequency_eq hruns hrun]
        exact countP_le_length
      show ofNat (run.entries.length % 2 ^ 32) = _
      rw [Nat.mod_eq_of_lt (by omega)]
    exact ⟨_, docsRead_of_shows hview (shows_docsHeader hsorted) hslots hruns hsize⟩

end SfxPostReaderV2

end Lucivy.SuffixFst
