import Lucivy.SuffixFst.ChunkPostings

/-! # Reading chunk postings back

What the reader of `.sfxpost` answers on a file the writer made. A block's view shows the
documents of the sorted list of entries; from there on every way to read an ordinal is a filter
of that list.

* `searchIndices_eq_scanIndices` — the two branches of a filtered read agree.
* `RunsOf` — the sorted list falls into its documents.
* `SlotReads` — a slot leads to the entries of its document. -/

namespace Lucivy.SuffixFst

open Lucivy.Foundation List UInt32 OrdinalHeader

namespace SfxPost

/-! ## Filtered reads -/

namespace Shows

variable {header : OrdinalHeader} {slots : List DocSlot}

section

variable (h : Shows header slots)
include h

/-- A lookup finds the one index of the document. -/
theorem findDoc_eq_some {d : UInt32} {i : Nat} :
    header.findDoc d = some i ↔ ∃ slot, slots[i]? = some slot ∧ slot.docId = d := by
  rw [findDoc, h.findDocFull_eq, Option.map_map, Option.map_eq_some_iff]
  constructor
  · rintro ⟨p, hfind, rfl⟩
    have hdoc := find?_some hfind
    rw [decide_eq_true_eq, UInt32.toNat_inj] at hdoc
    exact ⟨p.1, mem_zipIdx_iff_getElem?.mp (mem_of_find?_eq_some hfind), hdoc⟩
  · rintro ⟨slot, hget, hdoc⟩
    have hmem : (slot, i) ∈ slots.zipIdx := mk_mem_zipIdx_iff_getElem?.mpr hget
    have hsome : (slots.zipIdx.find? fun p => p.1.docId.toNat = d.toNat).isSome := by
      rw [find?_isSome]
      exact ⟨(slot, i), hmem, by simp [hdoc]⟩
    obtain ⟨p, hp⟩ := Option.isSome_iff_exists.mp hsome
    refine ⟨p, hp, ?_⟩
    have hpget := mem_zipIdx_iff_getElem?.mp (mem_of_find?_eq_some hp)
    have hpdoc := find?_some hp
    rw [decide_eq_true_eq, UInt32.toNat_inj] at hpdoc
    -- no two slots have one document
    have hnodup : (slots.map DocSlot.docId).Nodup :=
      h.sorted.imp fun hab heq => by rw [heq] at hab; exact lt_irrefl _ hab
    have hlt : p.2 < (slots.map DocSlot.docId).length := by
      rw [length_map]
      exact (List.getElem?_eq_some_iff.mp hpget).1
    refine (getElem?_inj hlt hnodup).mp ?_
    rw [getElem?_map, getElem?_map, hpget, hget, Option.map_some, Option.map_some, hpdoc, hdoc]

theorem scanIndices_eq (filter : DocFilter) :
    header.scanIndices filter =
      (slots.zipIdx.filter fun p => p.1.docId ∈ filter.docs).map Prod.snd := by
  rw [scanIndices, h.docs_eq]

/-- The indices of a scan increase. -/
theorem scanIndices_sorted (filter : DocFilter) : (header.scanIndices filter).Pairwise (· < ·) := by
  rw [h.scanIndices_eq]
  have hsub : ((slots.zipIdx.filter fun p => p.1.docId ∈ filter.docs).map Prod.snd).Sublist
      (slots.zipIdx.map Prod.snd) := (filter_sublist).map _
  rw [zipIdx_map_snd] at hsub
  exact (pairwise_lt_range').sublist hsub

/-- **The two branches of a filtered read agree**: looking each document of the filter up and
sorting what is found, or scanning the documents of the ordinal. -/
theorem searchIndices_eq_scanIndices (filter : DocFilter) :
    header.searchIndices filter = header.scanIndices filter := by
  have hscan := h.scanIndices_sorted filter
  have hnodup : (filter.docs.filterMap header.findDoc).Nodup := by
    refine filter.nodup.filterMap fun d d' i hd hd' => ?_
    obtain ⟨slot, hget, hdoc⟩ := h.findDoc_eq_some.mp hd
    obtain ⟨slot', hget', hdoc'⟩ := h.findDoc_eq_some.mp hd'
    rw [hget, Option.some.injEq] at hget'
    rw [← hdoc, hget', hdoc']
  have hmem : ∀ i, i ∈ filter.docs.filterMap header.findDoc ↔ i ∈ header.scanIndices filter := by
    intro i
    rw [h.scanIndices_eq, mem_filterMap, mem_map]
    constructor
    · rintro ⟨d, hd, hfind⟩
      obtain ⟨slot, hget, hdoc⟩ := h.findDoc_eq_some.mp hfind
      refine ⟨(slot, i), mem_filter.mpr ⟨mk_mem_zipIdx_iff_getElem?.mpr hget, ?_⟩, rfl⟩
      simpa [hdoc] using hd
    · rintro ⟨p, hp, rfl⟩
      obtain ⟨hzip, hin⟩ := mem_filter.mp hp
      exact ⟨p.1.docId, by simpa using hin,
        h.findDoc_eq_some.mpr ⟨p.1, mem_zipIdx_iff_getElem?.mp hzip, rfl⟩⟩
  have hperm : (filter.docs.filterMap header.findDoc).Perm (header.scanIndices filter) :=
    (perm_ext_iff_of_nodup hnodup (hscan.imp fun hab => ne_of_lt hab)).mpr hmem
  exact ((perm_insertionSort _ _).trans hperm).eq_of_pairwise
    (fun a b _ _ hab hba => le_antisymm hab hba) (pairwise_insertionSort _ _)
    (hscan.imp fun hab => le_of_lt hab)

theorem filteredIndices_eq (filter : DocFilter) :
    header.filteredIndices filter = header.scanIndices filter := by
  rw [filteredIndices]
  split
  · exact h.searchIndices_eq_scanIndices filter
  · rfl

end

/-- What a filter lets through. -/
def passes (filter : Option DocFilter) (d : UInt32) : Bool :=
  match filter with
  | none => true
  | some filter => d ∈ filter.docs

/-- **The slots a filter lets through**, in order. -/
theorem slots_eq (h : Shows header slots) (filter : Option DocFilter) :
    header.slots filter = slots.filter fun slot => passes filter slot.docId := by
  cases filter with
  | none =>
    rw [OrdinalHeader.slots, h.docs_eq]
    exact (filter_eq_self.mpr fun _ _ => rfl).symm
  | some filter =>
    rw [OrdinalHeader.slots, h.filteredIndices_eq, h.scanIndices_eq, filterMap_map]
    have hat : ∀ p ∈ slots.zipIdx.filter (fun p => p.1.docId ∈ filter.docs),
        (header.docAt ∘ Prod.snd) p = (some ∘ Prod.fst) p := by
      intro p hp
      have hget := mem_zipIdx_iff_getElem?.mp (mem_of_mem_filter hp)
      have hlt := (List.getElem?_eq_some_iff.mp hget).1
      rw [Function.comp_apply, Function.comp_apply, h.docAt_eq _ hlt, hget]
    rw [filterMap_congr hat, filterMap_eq_map]
    conv =>
      rhs
      rw [← zipIdx_map_fst 0 slots, filter_map]
    rfl

end Shows

/-! ## The documents of a sorted list -/

/-- **A list falls into its documents**: runs of entries of one document, the documents
increasing. -/
structure RunsOf (l : List SfxPostingEntry) (runs : List DocRun) : Prop where
  /-- Nothing is left out. -/
  flatMap_eq : runs.flatMap DocRun.entries = l
  /-- A run has one document. -/
  docId_eq : ∀ run ∈ runs, ∀ e ∈ run.entries, e.docId = run.docId
  /-- No run is empty. -/
  ne_nil : ∀ run ∈ runs, run.entries ≠ []
  /-- The documents increase. -/
  sorted : DocsSorted (runs.map DocRun.docId)

/-- The entries in the order of their documents. -/
def EntriesSorted (l : List SfxPostingEntry) : Prop := l.Pairwise fun a b => ¬ sortKey b < sortKey a

variable {l : List SfxPostingEntry}

theorem EntriesSorted.docs (h : EntriesSorted l) :
    l.Pairwise fun a b => a.docId.toNat ≤ b.docId.toNat := by
  refine h.imp fun {a b} hab => ?_
  simp only [sortKey, cons_lt_cons_iff] at hab
  omega

theorem EntriesSorted.tokens (h : EntriesSorted l) {d : UInt32} (hd : ∀ e ∈ l, e.docId = d) :
    l.Pairwise fun a b => a.tokenIndex.toNat ≤ b.tokenIndex.toNat := by
  refine List.Pairwise.imp_of_mem (fun {a b} ha hb hab => ?_) h
  have hda := congrArg toNat (hd a ha)
  have hdb := congrArg toNat (hd b hb)
  simp only [sortKey, cons_lt_cons_iff] at hab
  omega

theorem sortEntries_sorted (entries : List SfxPostingEntry) :
    EntriesSorted (sortEntries entries) := by
  have hsorted : (sortEntries entries).Pairwise fun a b => lexLe (sortKey a) (sortKey b) = true :=
    pairwise_insertionSort_lexLe sortKey entries
  exact hsorted.imp fun hab => not_lt.mpr (lexLe_iff_le.mp hab)

/-- **The runs of a sorted list are its documents.** -/
theorem runsOf_entryRuns (h : EntriesSorted l) : RunsOf l (entryRuns l) where
  flatMap_eq := by
    rw [entryRuns, flatMap_map]
    conv =>
      rhs
      rw [← flatten_runsBy SfxPostingEntry.docId l, ← flatMap_id]
    rfl
  docId_eq := by
    intro run hrun e he
    obtain ⟨es, hes, rfl⟩ := mem_map.mp hrun
    obtain ⟨a, rest, rfl⟩ := exists_cons_of_ne_nil (ne_nil_of_mem_runsBy hes)
    exact key_eq_of_mem_runsBy hes he mem_cons_self
  ne_nil := by
    intro run hrun
    obtain ⟨es, hes, rfl⟩ := mem_map.mp hrun
    exact ne_nil_of_mem_runsBy hes
  sorted := by
    rw [DocsSorted, entryRuns, map_map, pairwise_map]
    have hinj : Function.Injective toNat := fun a b hab => UInt32.toNat_inj.mp hab
    refine List.Pairwise.imp_of_mem (fun {r s} hr hs hrs => ?_) (runsBy_increasing hinj h.docs)
    obtain ⟨a, r', rfl⟩ := exists_cons_of_ne_nil (ne_nil_of_mem_runsBy hr)
    obtain ⟨b, s', rfl⟩ := exists_cons_of_ne_nil (ne_nil_of_mem_runsBy hs)
    exact hrs a mem_cons_self b mem_cons_self

namespace RunsOf

variable {l : List SfxPostingEntry} {runs : List DocRun}

section

variable (h : RunsOf l runs)
include h

/-- **Filtering by document** keeps or drops whole runs. -/
theorem filter_eq (p : UInt32 → Bool) :
    l.filter (fun e => p e.docId) =
      (runs.filter fun run => p run.docId).flatMap DocRun.entries := by
  rw [← h.flatMap_eq]
  have hdoc := h.docId_eq
  clear h
  induction runs with
  | nil => rfl
  | cons run runs ih =>
    obtain ⟨hrun, hrest⟩ := forall_mem_cons.mp hdoc
    rw [flatMap_cons, filter_append, ih hrest, filter_cons,
      filter_congr fun e he => congrArg p (hrun e he)]
    cases p run.docId <;> simp

/-- At most one run has a document. -/
theorem filter_docId_eq (d : UInt32) :
    runs.filter (fun run => run.docId.toNat = d.toNat) =
      (runs.find? fun run => run.docId.toNat = d.toNat).toList := by
  rw [← head?_filter]
  have hsorted := (pairwise_map.mp h.sorted).filter (fun run => run.docId.toNat = d.toNat)
  have hdoc : ∀ run ∈ runs.filter (fun run => run.docId.toNat = d.toNat),
      run.docId.toNat = d.toNat := fun run hrun => of_decide_eq_true (mem_filter.mp hrun).2
  generalize runs.filter (fun run => run.docId.toNat = d.toNat) = mine at hsorted hdoc
  match mine with
  | [] => rfl
  | [run] => rfl
  | a :: b :: rest =>
    have hlt := (pairwise_cons.mp hsorted).1 b mem_cons_self
    have ha := hdoc a mem_cons_self
    have hb := hdoc b (mem_cons_of_mem _ mem_cons_self)
    omega

/-- The entries of one document. -/
theorem entriesOf_eq (d : UInt32) :
    l.filter (fun e => e.docId.toNat = d.toNat) =
      ((runs.find? fun run => run.docId.toNat = d.toNat).map DocRun.entries).getD [] := by
  rw [h.filter_eq fun x => decide (x.toNat = d.toNat), h.filter_docId_eq]
  cases runs.find? fun run => run.docId.toNat = d.toNat with
  | none => rfl
  | some run => exact append_nil _

theorem count_eq {run : DocRun} (hrun : run ∈ runs) :
    l.countP (fun e => e.docId.toNat = run.docId.toNat) = run.entries.length := by
  have hfind : runs.find? (fun r => r.docId.toNat = run.docId.toNat) = some run := by
    have hmem : run ∈ runs.filter fun r => r.docId.toNat = run.docId.toNat :=
      mem_filter.mpr ⟨hrun, by simp⟩
    rw [h.filter_docId_eq, Option.mem_toList] at hmem
    exact hmem
  rw [countP_eq_length_filter, h.entriesOf_eq, hfind]
  rfl

theorem mem_docs_iff (d : UInt32) : d ∈ runs.map DocRun.docId ↔ ∃ e ∈ l, e.docId = d := by
  rw [← h.flatMap_eq, mem_map]
  constructor
  · rintro ⟨run, hrun, rfl⟩
    obtain ⟨e, he⟩ := exists_mem_of_ne_nil _ (h.ne_nil run hrun)
    exact ⟨e, mem_flatMap.mpr ⟨run, hrun, he⟩, h.docId_eq run hrun e he⟩
  · rintro ⟨e, he, rfl⟩
    obtain ⟨run, hrun, he⟩ := mem_flatMap.mp he
    exact ⟨run, hrun, (h.docId_eq run hrun e he).symm⟩

end

end RunsOf

/-! ## From a slot to the entries of its document -/

theorem foldUntil_congr {σ α : Type} {f g : σ → α → σ × Bool} {l : List α}
    (h : ∀ s, ∀ a ∈ l, f s a = g s a) (s : σ) : foldUntil f s l = foldUntil g s l := by
  induction l generalizing s with
  | nil => rfl
  | cons a l ih =>
    rw [foldUntil, foldUntil, h s a mem_cons_self, ih fun s b hb => h s b (mem_cons_of_mem _ hb)]

/-- **A slot leads to the entries of its document**: the walk over its payload hands them over. -/
structure SlotReads (header : OrdinalHeader) (slot : DocSlot) (run : DocRun) : Prop where
  docId_eq : slot.docId = run.docId
  count_eq : slot.count = ofNat run.entries.length
  walk_eq : ∀ (σ : Type) (f : σ → UInt32 → UInt32 → UInt32 → σ × Bool) (s : σ),
    header.walkPayload slot f s =
      foldUntil (fun s e => f s e.tokenIndex e.byteFrom e.byteTo) s run.entries

/-- The spans are kept, or there are none. -/
def SpansKept (spans : Bool) (l : List SfxPostingEntry) : Prop :=
  spans = false → ∀ e ∈ l, e.byteFrom = 0 ∧ e.byteTo = 0

theorem slotReads_of_payload {header : OrdinalHeader} {st : DocState} {run : DocRun}
    (hfit : RunFits header.spans run) (hlt : st.cumulative < 2 ^ 32)
    (hat : BytesAt header.payloadData st.cumulative (payloadOf header.spans run))
    (hle : st.cumulative ≤ header.payloadData.length)
    (hkept : SpansKept header.spans run.entries) :
    SlotReads header ⟨run.docId, ofNat st.cumulative, ofNat run.entries.length⟩ run where
  docId_eq := rfl
  count_eq := rfl
  walk_eq := by
    intro σ f s
    rw [walkPayload]
    dsimp only
    rw [toNat_ofNat_of_lt' hlt, toNat_ofNat_of_lt' hfit.length_lt, min_eq_left hle]
    have hat' : BytesAt (header.payloadData.drop st.cumulative) 0 (payloadOf header.spans run) :=
      hat
    cases hspans : header.spans with
    | true =>
      rw [hspans, payloadOf] at hat'
      rw [if_pos rfl]
      exact walkSpans_payload hat' f s
    | false =>
      rw [hspans, payloadOf] at hat'
      rw [if_neg Bool.false_ne_true, walkPositions_payload hat' f s]
      refine foldUntil_congr (fun s e he => ?_) s
      obtain ⟨hfrom, hto⟩ := hkept hspans e he
      rw [hfrom, hto]

/-- The slots of a block, one for each of its documents. -/
theorem slotReads_blockHeader {spans : Bool} {runs : List DocRun} (hfit : RunsFit spans runs)
    (hkept : ∀ run ∈ runs, SpansKept spans run.entries) :
    List.Forall₂ (SlotReads (blockHeader spans runs)) (slotsFrom spans ⟨0, 0⟩ runs) runs := by
  -- the induction goes over the documents that are left, from any state that is in step
  have hgeneral : ∀ (header : OrdinalHeader) (rest : List DocRun) (st : DocState),
      header.spans = spans → header.payloadData.length < 2 ^ 32 →
      st.cumulative ≤ header.payloadData.length →
      BytesAt header.payloadData st.cumulative (rest.flatMap (payloadOf spans)) →
      (∀ run ∈ rest, RunFits spans run) → (∀ run ∈ rest, SpansKept spans run.entries) →
      List.Forall₂ (SlotReads header) (slotsFrom spans st rest) rest := by
    intro header rest
    induction rest with
    | nil => exact fun _ _ _ _ _ _ _ => .nil
    | cons run rest ih =>
      intro st hspans hlt hle hat hfits hkepts
      have hroom : st.cumulative + (payloadOf spans run).length ≤ header.payloadData.length := by
        rcases eq_or_ne (payloadOf spans run) [] with hnil | hne
        · rw [hnil]
          exact hle
        · exact hat.left.le_length hne
      refine .cons (slotReads_of_payload ?_ (by omega) ?_ hle ?_) (ih _ hspans hlt hroom hat.right
        (forall_mem_cons.mp hfits).2
        (forall_mem_cons.mp hkepts).2)
      · rw [hspans]
        exact hfits run mem_cons_self
      · rw [hspans]
        exact hat.left
      · rw [hspans]
        exact hkepts run mem_cons_self
  exact hgeneral _ runs ⟨0, 0⟩ rfl hfit.payload_lt (Nat.zero_le _)
    (BytesAt.refl _) hfit.runFits hkept

namespace SlotReads

variable {header : OrdinalHeader} {slot : DocSlot} {run : DocRun}

theorem slotPositions_eq (h : SlotReads header slot run) :
    header.slotPositions slot = run.entries.map SfxPostingEntry.tokenIndex := by
  rw [slotPositions, h.walk_eq, foldUntil_true
    (fun (out : List UInt32) (e : SfxPostingEntry) => out ++ [e.tokenIndex]),
    foldl_append_eq_append]
  exact flatMap_pure_eq_map ..

theorem slotEntries_eq (h : SlotReads header slot run)
    (hdoc : ∀ e ∈ run.entries, e.docId = run.docId) : header.slotEntries slot = run.entries := by
  rw [slotEntries, h.walk_eq, foldUntil_true
    (fun (out : List SfxPostingEntry) (e : SfxPostingEntry) =>
      out ++ [SfxPostingEntry.mk slot.docId e.tokenIndex e.byteFrom e.byteTo]),
    foldl_append_eq_append, ← flatMap_def]
  have hself : ∀ e ∈ run.entries,
      [SfxPostingEntry.mk slot.docId e.tokenIndex e.byteFrom e.byteTo] = [e] := by
    intro e he
    rw [h.docId_eq, ← hdoc e he]
  rw [flatMap_congr hself]
  exact flatMap_singleton' ..

/-- **A walk for a position** stops at its first entry, or past it. -/
theorem foldUntil_find {β : Type} {es : List SfxPostingEntry} {position : UInt32} {init : β}
    (found : SfxPostingEntry → β)
    (hsorted : es.Pairwise fun a b => a.tokenIndex.toNat ≤ b.tokenIndex.toNat) :
    foldUntil (fun (s : β) (e : SfxPostingEntry) =>
        if e.tokenIndex = position then (found e, false)
        else (s, decide (e.tokenIndex < position))) init es =
      ((es.find? fun e => e.tokenIndex = position).map found).getD init := by
  induction es with
  | nil => rfl
  | cons e es ih =>
    obtain ⟨hle, hsorted⟩ := pairwise_cons.mp hsorted
    have hstep :=
      find?_cons_eq_ite (fun e : SfxPostingEntry => e.tokenIndex.toNat) position.toNat hle
    simp only [UInt32.toNat_inj, ← UInt32.lt_iff_toNat_lt] at hstep
    rw [foldUntil, hstep]
    by_cases heq : e.tokenIndex = position
    · simp [heq]
    · by_cases hlt : e.tokenIndex < position
      · simpa [heq, hlt] using ih hsorted
      · simp [heq, hlt]

end SlotReads

end SfxPost

end Lucivy.SuffixFst
