import Lucivy.SuffixFst.Derived
import Lucivy.SuffixFst.FinalOrdinals
import Lucivy.SuffixFst.SfxPostFile

/-! # The position map, rebuilt

The chunk postings of a collection are read back as the position map wants them: the file rebuilt
from them holds at every position the final ordinal of the chunk that stands there, as the map
of the search does.

* `CountersFit` — the counters of the source do not overflow.
* `rebuildPosmap_eq` — the writer that is rebuilt from the file of the postings, and the one that
  is filled when the segment is written.
* `ordinalAt_rebuilt` — the file refines the map of the collection. -/

namespace Lucivy.SuffixFst

open Lucivy.Foundation Lucivy.Tokenizer Lucivy.Briques SfxPost PosMapFile List SfxPostWriterV2
  UInt32 SfxPostReaderV2
open Collector (collect)

/-- **The counters of the source fit.** A segment has fewer than `MAX_DOC_LIMIT` documents, and a
document fewer positions than would need the bit beside the last position of a word. -/
structure CountersFit (docs : List (List Text)) : Prop where
  docs_lt : docs.length < 2 ^ 31
  positions_lt : ∀ values ∈ docs, (docSlots values).length < 2 ^ 31

/-- What stands at a position of a collection. -/
abbrev slotIn (docs : List (List Text)) (doc pos : Nat) : Option Ordinal :=
  (PosMap.ofPostings (collect docs).postings).ordinalAt doc pos

/-- A counter that fits is not cut. -/
theorem toNat_ofNat_of_lt {n : Nat} (h : n < 2 ^ 31) : (ofNat n).toNat = n :=
  toNat_ofNat_of_lt' (h.trans (by decide))

variable {docs : List (List Text)} {dictionary : Option (Ordinal → Nat)}

variable {doc pos : Nat} {order : List Token}

/-- Where a chunk stands, the counters fit. -/
theorem CountersFit.slot_lt (hfits : CountersFit docs) {o : Ordinal}
    (h : slotIn docs doc pos = some o) : doc < docs.length ∧ doc < 2 ^ 31 ∧ pos + 1 < 2 ^ 31 := by
  obtain ⟨values, hdoc, hslot⟩ := Collector.mem_collect_postings.mp (PosMap.ordinalAt_eq_some.mp h)
  have hlt := (List.getElem?_eq_some_iff.mp hdoc).1
  have hpos := (List.getElem?_eq_some_iff.mp hslot).1
  have hdocs := hfits.docs_lt
  have hvalues := hfits.positions_lt values (mem_of_getElem? hdoc)
  dsimp only at hlt hpos
  omega

/-- What stands somewhere has a final ordinal, of a chunk. -/
theorem exists_final_of_slot (dictionary : Option (Ordinal → Nat)) {o : Ordinal}
    (h : slotIn docs doc pos = some o) :
    o.shape.1 = false ∧ ∃ t ∈ finalOrder (collect docs) dictionary, t.ordinal = o := by
  obtain ⟨values, hdoc, hslot⟩ := Collector.mem_collect_postings.mp (PosMap.ordinalAt_eq_some.mp h)
  obtain ⟨before, v, after, i, rfl, -, t, ht, rfl⟩ := BriquesContext.exists_value_of_slot hslot
  have hv : v ∈ docs.flatten := mem_flatten.mpr ⟨_, mem_of_getElem? hdoc, by simp⟩
  have hmem := mem_of_getElem? ht
  refine ⟨?_, chunk_mem_finalOrder dictionary hv hmem⟩
  rw [Token.ordinal_shape_fst]
  exact (isChunkToken_of_mem hmem).not_stripped

/-! ## What is written to the chunk postings -/

theorem mem_chunkAdds {c : Collector} {ord : Nat} {e : SfxPostingEntry} :
    (ord, e) ∈ chunkAdds c order ↔ ∃ t, order[ord]? = some t ∧ t.info.isWordStripped = false ∧
      ∃ q ∈ c.postings, q.ordinal = t.ordinal ∧ e = ⟨ofNat q.docId, ofNat q.position, 0, 0⟩ := by
  have hlist : ∀ t : Token, ∀ x : UInt32 × UInt32,
      x ∈ (if t.info.isWordStripped then []
        else sortDedup (fun a b : UInt32 × UInt32 =>
            lexLe [a.1.toNat, a.2.toNat] [b.1.toNat, b.2.toNat]) (· == ·)
          ((c.postings.filter (·.ordinal = t.ordinal)).map fun p =>
            (ofNat p.docId, ofNat p.position))) ↔
      t.info.isWordStripped = false ∧ ∃ q ∈ c.postings, q.ordinal = t.ordinal ∧
        x = (ofNat q.docId, ofNat q.position) := by
    intro t x
    by_cases hws : t.info.isWordStripped = true
    · simp [hws]
    · rw [if_neg hws]
      refine mem_sortDedup_beq.trans ?_
      simp [hws, eq_comm, and_assoc]
  rw [chunkAdds, mem_flatMap]
  constructor
  · rintro ⟨⟨l, i⟩, hl, hmem⟩
    obtain ⟨x, hx, heq⟩ := mem_map.mp hmem
    cases heq
    have hget := mem_zipIdx_iff_getElem?.mp hl
    rw [contentPostings, getElem?_map] at hget
    obtain ⟨t, ht, rfl⟩ := Option.map_eq_some_iff.mp hget
    obtain ⟨hws, q, hq, hord, rfl⟩ := (hlist t x).mp hx
    exact ⟨t, ht, hws, q, hq, hord, rfl⟩
  · rintro ⟨t, ht, hws, q, hq, hord, rfl⟩
    refine ⟨(_, ord), mem_zipIdx_iff_getElem?.mpr (by
      rw [contentPostings, getElem?_map, ht]; rfl), ?_⟩
    exact mem_map.mpr ⟨_, (hlist t _).mpr ⟨hws, q, hq, hord, rfl⟩, rfl⟩

/-! ## What is read from them -/

/-- The slots that are filled, ordinal by ordinal. -/
def chunkWrites (c : Collector) (order : List Token) : List (Nat × Nat × UInt32) :=
  (List.range order.length).flatMap fun ord =>
    (sortEntries (callsFor .positions (chunkAdds c order) ord)).map fun e =>
      (e.docId.toNat, e.tokenIndex.toNat, ofNat ord)

theorem mem_sortEntries {entries : List SfxPostingEntry} {e : SfxPostingEntry} :
    e ∈ sortEntries entries ↔ e ∈ entries := mem_insertionSort _

/-- **A slot is filled with the final ordinal of what stands there.** -/
theorem mem_chunkWrites (hfits : CountersFit docs) (dictionary : Option (Ordinal → Nat))
    {x : UInt32} :
    (doc, pos, x) ∈ chunkWrites (collect docs) (finalOrder (collect docs) dictionary) ↔
      ∃ o, slotIn docs doc pos = some o ∧
        x = ofNat (internToFinal (finalOrder (collect docs) dictionary) o) := by
  have hnodup := nodup_finalOrder docs dictionary
  simp only [chunkWrites, mem_flatMap, mem_range, mem_map, mem_sortEntries,
    callsFor, mem_filter, decide_eq_true_eq]
  constructor
  · rintro ⟨ord, hord, e, ⟨⟨i, e'⟩, ⟨hadd, rfl⟩, rfl⟩, heq⟩
    obtain ⟨t, ht, -, q, hq, hqt, rfl⟩ := mem_chunkAdds.mp hadd
    have hslot : slotIn docs q.docId q.position = some q.ordinal := PosMap.ordinalAt_eq_some.mpr hq
    have hlt := hfits.slot_lt hslot
    simp only [kept, reduceCtorEq, if_false, toNat_ofNat_of_lt hlt.2.1,
      toNat_ofNat_of_lt (Nat.lt_of_succ_lt hlt.2.2)] at heq
    obtain ⟨rfl, rfl, rfl⟩ := heq
    exact ⟨q.ordinal, hslot, by rw [hqt, internToFinal_getElem? hnodup ht]⟩
  · rintro ⟨o, hslot, rfl⟩
    obtain ⟨hchunk, hmem⟩ := exists_final_of_slot dictionary hslot
    obtain ⟨t, ht, rfl⟩ := getElem?_internToFinal hmem
    have hlt := hfits.slot_lt hslot
    rw [Token.ordinal_shape_fst] at hchunk
    refine ⟨_, internToFinal_lt hmem, _, ⟨(_, ⟨ofNat doc, ofNat pos, 0, 0⟩),
      ⟨mem_chunkAdds.mpr ⟨t, ht, hchunk, _, PosMap.ordinalAt_eq_some.mp hslot, rfl, rfl⟩, rfl⟩,
        rfl⟩, ?_⟩
    simp [kept, toNat_ofNat_of_lt hlt.2.1, toNat_ofNat_of_lt (Nat.lt_of_succ_lt hlt.2.2)]

/-- No slot is filled twice. -/
theorem consistent_chunkWrites (hfits : CountersFit docs) (dictionary : Option (Ordinal → Nat)) :
    Consistent (chunkWrites (collect docs) (finalOrder (collect docs) dictionary)) := by
  rintro ⟨d, p, x⟩ ha ⟨d', p', x'⟩ hb hd hp
  obtain rfl : d = d' := hd
  obtain rfl : p = p' := hp
  obtain ⟨o, ho, rfl⟩ := (mem_chunkWrites hfits dictionary).mp ha
  obtain ⟨o', ho', rfl⟩ := (mem_chunkWrites hfits dictionary).mp hb
  rw [ho] at ho'
  rw [Option.some.inj ho']

/-- The writer of the position map, over some entries of each ordinal. -/
theorem docs_foldl_feedPosition {β : Type} (entries : Nat → List β) (docOf posOf : β → UInt32)
    (ords : List Nat) (w : PosMapWriter) :
    (ords.foldl (fun w ord => (entries ord).foldl
        (fun w e => feedPosition ord w (docOf e) (posOf e)) w) w).docs =
      writeSlots emptySlot (ords.flatMap fun ord => (entries ord).map fun e =>
        ((docOf e).toNat, (posOf e).toNat, ofNat ord)) w.docs := by
  rw [writeSlots, foldl_flatMap]
  simp only [foldl_map]
  refine (foldl_hom PosMapWriter.docs fun w ord => ?_).symm
  exact foldl_hom PosMapWriter.docs fun _ _ => rfl

/-- The postings of a file, and how many ordinals it has. -/
theorem openOwned_sfxpostFile {c : Collector} {file : Bytes}
    (hfile : sfxpostFile c order = some file) :
    order.length < 2 ^ 31 ∧ ∃ r, openOwned file = some r ∧ r.numOrdinals = order.length ∧
      (∀ ord < order.length, r.entriesFiltered ord none =
        sortEntries (callsFor .positions (chunkAdds c order) ord)) ∧
      ∀ ord < order.length, r.positionsFiltered ord none =
        (sortEntries (callsFor .positions (chunkAdds c order) ord)).map
          fun e => ⟨e.docId, e.tokenIndex⟩ := by
  have hlt := length_lt_of_finish (by decide) hfile
  obtain ⟨r, hopen, hread⟩ := chunksRead_of_finish (by decide) hfile
  have hall : ∀ l : List SfxPostingEntry, l.filter (passes none) = l := fun l =>
    filter_eq_self.mpr fun _ _ => rfl
  refine ⟨hlt, r, hopen, ?_, fun ord hord => ?_, fun ord hord => ?_⟩
  · have hblocks : (added .positions order.length
        (chunkAdds c order)).blocks.length = order.length := by
      rw [blocks, length_map, length_added]
    obtain ⟨f, hf, -, -, hcount, -⟩ := PostingFile.openWith_finishFile
      namesLayouts_magic (by rwa [hblocks]) hfile
    rw [openOwned, hf] at hopen
    rw [← Option.some.inj hopen, ← hblocks]
    exact hcount
  · rw [(hread ord).entriesFiltered_eq, hall, if_pos hord]
  · rw [(hread ord).positionsFiltered_eq, hall, if_pos hord]

/-- **The writer that is rebuilt is the one that was filled.** -/
theorem rebuildPosmap_eq {c : Collector} {file : Bytes} (hfile : sfxpostFile c order = some file) :
    ∃ r, openOwned file = some r ∧ r.numOrdinals = order.length ∧
      (rebuildPosmap r).docs = writeSlots emptySlot (chunkWrites c order) [] ∧
      posmapFile order file = if ownLens order = [] then (rebuildPosmap r).serialize
        else (rebuildPosmap r).serializeWithLens (some (ownLenOf order)) := by
  obtain ⟨-, r, hopen, hnum, hentries, hpositions⟩ := openOwned_sfxpostFile hfile
  have hrebuilt : (rebuildPosmap r).docs = writeSlots emptySlot (chunkWrites c order) [] := by
    rw [rebuildPosmap, docs_foldl_feedPosition, hnum, chunkWrites]
    congr 1
    refine flatMap_congr fun ord hord => ?_
    rw [hpositions ord (mem_range.mp hord), map_map]
    rfl
  have hfilled : ((List.range order.length).foldl (fun w ord =>
      (r.entriesFiltered ord none).foldl
        (fun w (e : SfxPostingEntry) => feedPosition ord w e.docId e.tokenIndex) w) .new) =
      rebuildPosmap r := by
    have hdocs : ∀ w w' : PosMapWriter, w.docs = w'.docs → w = w' := by
      rintro ⟨_⟩ ⟨_⟩ rfl
      rfl
    refine hdocs _ _ ?_
    rw [hrebuilt, docs_foldl_feedPosition, chunkWrites]
    congr 1
    refine flatMap_congr fun ord hord => ?_
    rw [hentries ord (mem_range.mp hord)]
  refine ⟨r, hopen, hnum, hrebuilt, ?_⟩
  rw [posmapFile, hopen]
  dsimp only
  rw [hfilled]

/-! ## What the file holds -/

/-- The documents of the rebuilt map are few and short enough for its offsets. -/
theorem docSize_sum_lt {layout : Layout} {docs : List (List UInt32)} (hdocs : docs.length < 2 ^ 31)
    (hlen : ∀ doc ∈ docs, doc.length ≤ 2 ^ 31 - 1) :
    (docs.map fun doc => PosMapWriter.docSize layout doc.length).sum < 2 ^ 64 := by
  have hsize : ∀ n ≤ 2 ^ 31 - 1, PosMapWriter.docSize layout n ≤ 2 ^ 33 - 4 := by
    unfold PosMapWriter.docSize
    cases layout <;> simp only [Layout.width, numCheckpoints, checkpointEvery, reduceCtorEq,
      if_false, if_true] <;> omega
  have hsum := sum_le_card_nsmul _ _ (forall_mem_map.mpr fun doc hdoc => hsize _ (hlen doc hdoc))
  rw [length_map] at hsum
  change _ ≤ docs.length * (2 ^ 33 - 4) at hsum
  omega

/-- **The rebuilt file refines the map of the collection**: at every position the final ordinal
of what stands there. -/
theorem ordinalAt_rebuilt (hfits : CountersFit docs) {r : SfxPostReaderV2}
    {ownLen : UInt32 → Option UInt16}
    (hlt : (finalOrder (collect docs) dictionary).length < 2 ^ 31)
    (hdocs : (rebuildPosmap r).docs = writeSlots emptySlot
      (chunkWrites (collect docs) (finalOrder (collect docs) dictionary)) []) :
    ∃ pm, PosMapReader.openBytes ((rebuildPosmap r).serializeWithLens (some ownLen)) = some pm ∧
      ∀ doc pos, pm.ordinalAt doc pos =
        (slotIn docs doc pos).map (internToFinal (finalOrder (collect docs) dictionary)) := by
  have hmem {doc pos x} := @mem_chunkWrites docs doc pos hfits dictionary x
  have hrows : (rebuildPosmap r).docs.length ≤ docs.length := by
    rw [hdocs]
    refine length_writeSlots_le emptySlot (fun w hw => ?_) (Nat.zero_le _)
    obtain ⟨o, ho, -⟩ := hmem.mp hw
    exact (hfits.slot_lt ho).1
  have hcolumns : ∀ doc ∈ (rebuildPosmap r).docs, doc.length ≤ 2 ^ 31 - 1 := by
    rw [hdocs]
    refine length_row_writeSlots_le emptySlot ?_ (by simp)
    rintro ⟨doc, pos, x⟩ hw
    obtain ⟨o, ho, -⟩ := hmem.mp hw
    have := (hfits.slot_lt ho).2.2
    dsimp only
    omega
  have hnum := hfits.docs_lt
  have htotal : ((rebuildPosmap r).docs.map fun doc =>
      PosMapWriter.docSize ((rebuildPosmap r).layout (some ownLen)) doc.length).sum < 2 ^ 64 :=
    docSize_sum_lt (by omega) hcolumns
  obtain ⟨pm, hopen, -, -, hat, -⟩ := PosMapReader.ordinalAt_serialize (by omega)
    (fun doc hdoc => by have := hcolumns doc hdoc; omega) htotal
  refine ⟨pm, hopen, fun doc pos => ?_⟩
  rw [hat, hdocs]
  cases hslot : slotIn docs doc pos with
  | none =>
    rw [slotAt_writeSlots_of_forall, slotAt_nil]
    · rfl
    · rintro ⟨d, p, x⟩ hw ⟨rfl, rfl⟩
      obtain ⟨o, ho, -⟩ := hmem.mp hw
      rw [hslot] at ho
      cases ho
  | some o =>
    -- an ordinal that fits is neither cut nor the marker
    have hord := internToFinal_lt (exists_final_of_slot dictionary hslot).2
    have hcut := toNat_ofNat_of_lt (hord.trans hlt)
    rw [slotAt_writeSlots emptySlot (consistent_chunkWrites hfits dictionary)
      (hmem.mpr ⟨o, hslot, rfl⟩), PosMapReader.slotOrdinal, if_neg, hcut]
    · rfl
    · intro hempty
      have hmarker := congrArg toNat hempty
      simp only [toNat_ofNat] at hmarker
      omega

end Lucivy.SuffixFst
