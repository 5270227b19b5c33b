import Lucivy.SuffixFst.PosMapFile

/-! # Byte offsets from the position map

`byte_at` (`suffix_fst/posmap.rs`): the byte offset of a position from the checkpoint before it
and the lengths of the ordinals in between. Only the layout of three-byte slots has checkpoints;
the builder accepts ordinals of 28 bits, and one that does not fit three bytes turns the whole
file to the layout without.

* `PosMapReader.byteAt` — the reader.
* `byteAt_docBytes`, `byteAt_ofEntries` — what it gives for a written document, for a written file.
* `derivable_iff` — for which occurrences every offset is found.
* `byteAt_ofPostings` — the file gives what the map of the postings gives, in 32 bits. -/

namespace Lucivy.SuffixFst

open Lucivy.Foundation List PosMapFile PosMapWriter

namespace PosMapReader

def byteAt (r : PosMapReader) (docId position : Nat) (ownLen : UInt32 → Option UInt16) :
    Option UInt32 :=
  if r.layout ≠ .checkpoints ∨ r.numDocs ≤ docId then none
  else do
    let raw := r.docRaw docId
    let n ← readLe 4 raw 0
    if n ≤ position then none
    else
      let ck := position / checkpointEvery
      let start ← readLe 4 raw (4 + 4 * ck)
      let slots := raw.drop (checkpointBytes raw)
      let acc ← (List.range' (ck * checkpointEvery) (position - ck * checkpointEvery)).foldlM
        (fun acc p => match r.slot slots (p * r.layout.width) with
          | none => some 0
          | some ord => (ownLen (UInt32.ofNat ord)).map fun len => acc + len.toUInt32)
        (UInt32.ofNat start)
      let _ ← r.slot slots (position * r.layout.width)
      some acc

/-- An offset is found in the layout with checkpoints only, for ids and positions below the
largest. -/
theorem of_byteAt_eq_some {r : PosMapReader} {bytes : Bytes} {d p : Nat} {x : UInt32}
    {ownLen : UInt32 → Option UInt16} (hopen : openBytes bytes = some r)
    (h : r.byteAt d p ownLen = some x) :
    layoutOf (bytes.take 4) = some .checkpoints ∧ d < 2 ^ 32 - 1 ∧ p < 2 ^ 32 - 1 := by
  have hheader : layoutOf (bytes.take 4) = some r.layout ∧ r.numDocs < 2 ^ 32 := by
    rw [openBytes] at hopen
    split at hopen
    · cases hopen
    · obtain ⟨layout, hl, hopen⟩ := Option.bind_eq_some_iff.mp hopen
      obtain ⟨n, hn, hopen⟩ := Option.bind_eq_some_iff.mp hopen
      split at hopen
      · cases hopen
      · cases hopen
        exact ⟨hl, readLe_lt hn⟩
  rw [byteAt] at h
  split at h
  · cases h
  · next hnot =>
    obtain ⟨n, hn, h⟩ := Option.bind_eq_some_iff.mp h
    have hlt : n < 2 ^ 32 := readLe_lt hn
    split at h
    · cases h
    · have hl : r.layout = .checkpoints := by_contra fun hl => hnot (.inl hl)
      exact ⟨hl ▸ hheader.1, by omega, by omega⟩

end PosMapReader

open PosMapReader

/-- One position further: an empty slot is a value boundary. -/
def advanceBytes (ownLen : UInt32 → UInt16) (acc ord : UInt32) : UInt32 :=
  if ord = emptySlot then 0 else acc + (ownLen ord).toUInt32

/-- **The sum of the lengths since the last empty slot.** -/
def bytesSince (ownLen : UInt32 → UInt16) (slot : Nat → UInt32) : Nat → Nat
  | 0 => 0
  | p + 1 => if slot p = emptySlot then 0 else bytesSince ownLen slot p + (ownLen (slot p)).toNat

variable {ownLen : UInt32 → UInt16} {lens : UInt32 → Option UInt16}

/-- The loop over the slots before a position reaches their sum, in 32 bits. -/
theorem foldl_advanceBytes (doc : List UInt32) {p : Nat} (hp : p ≤ doc.length) :
    (doc.take p).foldl (advanceBytes ownLen) 0 =
      UInt32.ofNat (bytesSince ownLen (fun q => doc[q]?.getD emptySlot) p) := by
  induction p with
  | zero => rfl
  | succ p ih =>
    rw [take_add_one, foldl_append, ih (by omega), getElem?_eq_getElem hp, bytesSince,
      getElem?_eq_getElem hp]
    simp only [Option.toList_some, foldl_cons, foldl_nil, advanceBytes, Option.getD_some]
    split
    · rfl
    · exact UInt32.toNat_inj.mp (by simp)

/-- **What is found for a written document** whose lengths are known: the sum, in 32 bits. -/
theorem byteAt_docBytes {r : PosMapReader} {d p : Nat} {doc : List UInt32}
    (hlayout : r.layout = .checkpoints) (hd : d < r.numDocs) (hdoc : doc.length < 2 ^ 32)
    (hraw : r.docRaw d = docBytes .checkpoints (some lens) doc)
    (hfits : ∀ x ∈ doc, Fits .checkpoints x)
    (hknown : ∀ x ∈ doc, x ≠ emptySlot → lens x = some (ownLen x))
    (hp : p < doc.length) (hslot : doc[p] ≠ emptySlot) :
    r.byteAt d p lens =
      some (UInt32.ofNat (bytesSince ownLen (fun q => doc[q]?.getD emptySlot) p)) := by
  obtain ⟨raw, hbytes, hcount, hcks, -, hslots⟩ := docBytes_reads lens hdoc
  -- every slot is read, and the loop adds its length or starts again
  have hread : ∀ {q : Nat} (hq : q < doc.length),
      r.slot (raw.drop (checkpointBytes raw)) (q * 3) = slotOrdinal doc[q] := by
    intro q hq
    rw [hslots]
    refine slot_leBytes ?_ ?_ (hlayout ▸ hfits _ (getElem_mem hq))
    · rw [hlayout]
      exact bytesAt_flatMap (fun _ _ => length_leBytes _ _) (getElem?_eq_getElem hq)
    · rw [length_flatMap_const fun _ _ => length_leBytes _ _]
      omega
  have hfold : ∀ k q acc, q + k ≤ doc.length → (List.range' q k).foldlM
      (fun acc p => match r.slot (raw.drop (checkpointBytes raw)) (p * 3) with
        | none => some 0
        | some ord => (lens (UInt32.ofNat ord)).map fun len => acc + len.toUInt32) acc =
        some (((doc.drop q).take k).foldl (advanceBytes ownLen) acc) := by
    intro k
    induction k with
    | zero => exact fun _ _ _ => rfl
    | succ k ih =>
      intro q acc hq
      have hlt : q < doc.length := by omega
      rw [List.range'_succ, foldlM_cons, hread hlt, drop_eq_getElem_cons hlt, take_succ_cons,
        foldl_cons, ← ih (q + 1) _ (by omega), slotOrdinal, advanceBytes]
      by_cases hempty : doc[q] = emptySlot
      · rw [if_pos hempty, if_pos hempty]
        rfl
      · rw [if_neg hempty, if_neg hempty]
        simp [hknown _ (getElem_mem hlt) hempty]
  have hck : p / checkpointEvery * checkpointEvery ≤ p := Nat.div_mul_le_self ..
  have hstart := @PosMap.checkpoint_getElem? _ _ (advanceBytes fun o => (lens o).getD 0)
    (byteCheckpointsFrom lens) (fun _ _ _ _ => rfl) doc _ 0 (lt_of_le_of_lt hck hp)
  have hlens : ∀ acc, ∀ x ∈ doc.take (p / checkpointEvery * checkpointEvery),
      advanceBytes (fun o => (lens o).getD 0) acc x = advanceBytes ownLen acc x := by
    intro acc x hx
    unfold advanceBytes
    split
    · rfl
    · next hne => simp only [hknown x (mem_of_mem_take hx) hne, Option.getD_some]
  rw [foldl_ext _ _ _ hlens] at hstart
  have hat := hcks.trans (bytesAt_flatMap (w := 4) (fun _ _ => length_leBytes _ _) hstart)
  have hroom := hat.le_length (by simp [leBytes])
  have hsum := @foldl_advanceBytes ownLen doc _ hp.le
  rw [← Nat.add_sub_cancel' hck, take_add, foldl_append] at hsum
  rw [byteAt, if_neg (by rw [hlayout]; simp; omega), hraw, hbytes, hlayout]
  simp only [hcount, Option.bind_eq_bind, Option.bind_some, Layout.width]
  rw [if_neg (by omega), Nat.mul_comm 4, readLe_leBytes hat (UInt32.toNat_lt _) (by omega),
    Option.bind_some, UInt32.ofNat_toNat, hfold _ _ _ (by omega), Option.bind_some, hread hp,
    slotOrdinal, if_neg hslot, Option.bind_some, hsum, Nat.add_sub_cancel' hck]

/-! ## Occurrences -/

/-- The position map of some occurrences (document, position, ordinal): `add` for each. -/
def PosMapWriter.ofEntries (entries : List (UInt32 × UInt32 × UInt32)) : PosMapWriter :=
  entries.foldl (fun w e => w.add e.1 e.2.1 e.2.2) .new

/-- The slot of a document's position. -/
abbrev slotOfEntries (entries : List (UInt32 × UInt32 × UInt32)) (d : UInt32) (p : Nat) : UInt32 :=
  slotAt emptySlot (ofEntries entries).docs d.toNat p

/-- **Every occurrence is read back with its byte offset.** -/
def Derivable (ownLen : UInt32 → UInt16) (entries : List (UInt32 × UInt32 × UInt32)) : Prop :=
  ∃ r, openBytes ((ofEntries entries).serializeWithLens (some fun o => some (ownLen o))) = some r ∧
    ∀ e ∈ entries, r.ordinalAt e.1.toNat e.2.1.toNat = some e.2.2.toNat ∧
      (r.byteAt e.1.toNat e.2.1.toNat fun o => some (ownLen o)).map UInt32.toNat =
        some (bytesSince ownLen (slotOfEntries entries e.1) e.2.1.toNat)

variable {entries : List (UInt32 × UInt32 × UInt32)}

/-- The table of the writer is that of the written slots. -/
theorem docs_ofEntries : (ofEntries entries).docs = writeSlots emptySlot (writes32 entries) [] := by
  rw [ofEntries, writes32, writeSlots, foldl_map]
  exact (foldl_hom PosMapWriter.docs fun _ _ => rfl).symm

section Entries

variable (hone : ∀ a ∈ entries, ∀ b ∈ entries, a.1 = b.1 → a.2.1 = b.2.1 → a = b)
include hone

/-- The slot of an occurrence holds its ordinal. -/
theorem slotOfEntries_of_mem {e : UInt32 × UInt32 × UInt32} (he : e ∈ entries) :
    slotOfEntries entries e.1 e.2.1.toNat = e.2.2 := by
  rw [slotOfEntries, docs_ofEntries]
  exact slotAt_writes32 hone he

/-- What stands in the table is an occurrence's ordinal or nothing. -/
theorem exists_entry_of_mem {doc : List UInt32} (hdoc : doc ∈ (ofEntries entries).docs) {x : UInt32}
    (hx : x ∈ doc) (hne : x ≠ emptySlot) : ∃ e ∈ entries, x = e.2.2 := by
  obtain ⟨d, hd⟩ := mem_iff_getElem?.mp hdoc
  obtain ⟨p, hp⟩ := mem_iff_getElem?.mp hx
  have hat : slotAt emptySlot (ofEntries entries).docs d p = x := by
    rw [slotAt, hd, Option.getD_some, hp, Option.getD_some]
  by_cases hex : ∃ e ∈ entries, e.1.toNat = d ∧ e.2.1.toNat = p
  · obtain ⟨e, he, rfl, rfl⟩ := hex
    exact ⟨e, he, hat.symm.trans (slotOfEntries_of_mem hone he)⟩
  · rw [docs_ofEntries, slotAt_writes32_of_forall (by simpa using hex)] at hat
    exact absurd hat.symm hne

/-- **What is found for a written file**: of occurrences at different places, with ordinals of
three bytes and known lengths, every one is read back, and its offset is the sum in 32 bits. -/
theorem byteAt_ofEntries
    (hfit : ∀ e ∈ entries, e.2.2 < maxOrdinal3 ∧ e.1 ≠ 0xFFFFFFFF ∧ e.2.1 ≠ 0xFFFFFFFF)
    (hknown : ∀ e ∈ entries, lens e.2.2 = some (ownLen e.2.2))
    (hbuf : ((ofEntries entries).serializeWithLens (some lens)).length < 2 ^ 64) :
    ∃ r, openBytes ((ofEntries entries).serializeWithLens (some lens)) = some r ∧
      ∀ e ∈ entries, r.ordinalAt e.1.toNat e.2.1.toNat = some e.2.2.toNat ∧
        r.byteAt e.1.toNat e.2.1.toNat lens =
          some (UInt32.ofNat (bytesSince ownLen (slotOfEntries entries e.1) e.2.1.toNat)) := by
  have hnarrow : (ofEntries entries).narrow = true := by
    refine all_eq_true.mpr fun x hx => ?_
    obtain ⟨doc, hdoc, hx⟩ := mem_flatten.mp hx
    by_cases hempty : x = emptySlot
    · simp [hempty]
    · obtain ⟨e, he, rfl⟩ := exists_entry_of_mem hone hdoc hx hempty
      simpa using .inr (hfit e he).1
  have hlayout : (ofEntries entries).layout (some lens) = .checkpoints := by
    rw [PosMapWriter.layout, if_pos hnarrow]
    rfl
  have hnum : (ofEntries entries).docs.length < 2 ^ 32 := by
    rw [docs_ofEntries]
    exact length_writes32 fun e he => (hfit e he).2.1
  have hrows : ∀ doc ∈ (ofEntries entries).docs, doc.length < 2 ^ 32 := by
    rw [docs_ofEntries]
    exact length_row_writes32 fun e he => (hfit e he).2.2
  have htotal : ((ofEntries entries).docs.map fun doc => docSize
      ((ofEntries entries).layout (some lens)) doc.length).sum < 2 ^ 64 := by
    have hsize := @length_docBytes ((ofEntries entries).layout (some lens)) (some lens)
    rw [serializeWithLens, docFile] at hbuf
    simp only [length_append, length_flatten, map_map, Function.comp_def,
      hsize fun _ => rfl] at hbuf
    omega
  obtain ⟨r, hopen, hrnum, -, hat, hrl, hraw⟩ := ordinalAt_serialize hnum hrows htotal
  refine ⟨r, hopen, fun e he => ?_⟩
  have hslot := slotOfEntries_of_mem hone he
  have hne : e.2.2 ≠ emptySlot := by
    intro hempty
    exact absurd (hempty ▸ (hfit e he).1) (by decide)
  obtain ⟨row, hrow, hcol⟩ := exists_of_slotAt hslot hne
  obtain ⟨hp, hpe⟩ := List.getElem?_eq_some_iff.mp hcol
  have hmem := mem_of_getElem? hrow
  have hlens : ∀ x ∈ row, x ≠ emptySlot → lens x = some (ownLen x) := by
    intro x hx hempty
    obtain ⟨e', he', rfl⟩ := exists_entry_of_mem hone hmem hx hempty
    exact hknown e' he'
  refine ⟨?_, ?_⟩
  · rw [hat, ← slotOfEntries, hslot, slotOrdinal, if_neg hne]
  · rw [byteAt_docBytes (hrl.trans hlayout) (hrnum ▸ (List.getElem?_eq_some_iff.mp hrow).1)
      (hrows row hmem) (hlayout ▸ hraw _ row hrow)
      (fun x hx => hlayout ▸ fits_of_layout hmem hx) hlens hp (hpe ▸ hne)]
    have hsum : (fun q => row[q]?.getD emptySlot) = slotOfEntries entries e.1 := by
      funext q
      rw [slotOfEntries, slotAt, hrow, Option.getD_some]
    rw [hsum]

end Entries

/-- **When every byte offset is found.** Of occurrences at different places, with ordinals the
builder accepts and in a file that a buffer holds, all are read back with their offsets just when
every ordinal fits three bytes, no document and no position has the last number of all, and the
offsets fit 32 bits. -/
theorem derivable_iff (hone : ∀ a ∈ entries, ∀ b ∈ entries, a.1 = b.1 → a.2.1 = b.2.1 → a = b)
    (hord : ∀ e ∈ entries, e.2.2 ≤ WordPosMap.slotOrdinalMask)
    (hbuf : ((ofEntries entries).serializeWithLens (some fun o => some (ownLen o))).length <
      2 ^ 64) :
    Derivable ownLen entries ↔ ∀ e ∈ entries, e.2.2 < maxOrdinal3 ∧ e.1 ≠ 0xFFFFFFFF ∧
      e.2.1 ≠ 0xFFFFFFFF ∧ bytesSince ownLen (slotOfEntries entries e.1) e.2.1.toNat < 2 ^ 32 := by
  constructor
  · rintro ⟨r, hopen, h⟩ e he
    obtain ⟨x, hx, hsum⟩ := Option.map_eq_some_iff.mp (h e he).2
    obtain ⟨hl, hd, hp⟩ := of_byteAt_eq_some hopen hx
    have hne : e.2.2 ≠ emptySlot := by
      intro hempty
      exact absurd (hempty ▸ hord e he) (by decide)
    refine ⟨?_, ?_, ?_, hsum ▸ x.toNat_lt⟩
    · rw [serializeWithLens, docFile, append_assoc, take_left' (length_magic _),
        layoutOf_magic] at hl
      obtain ⟨row, hrow, hcol⟩ := exists_of_slotAt (slotOfEntries_of_mem hone he) hne
      have hfits := @fits_of_layout (some fun o => some (ownLen o)) _ _ (mem_of_getElem? hrow) _
        (mem_of_getElem? hcol)
      rw [Option.some.inj hl] at hfits
      exact (hfits (by decide)).resolve_left hne
    · rintro hlast
      rw [hlast] at hd
      exact absurd hd (by decide)
    · rintro hlast
      rw [hlast] at hp
      exact absurd hp (by decide)
  · intro h
    obtain ⟨r, hopen, hr⟩ := byteAt_ofEntries hone
      (fun e he => ⟨(h e he).1, (h e he).2.1, (h e he).2.2.1⟩) (fun _ _ => rfl) hbuf
    refine ⟨r, hopen, fun e he => ⟨(hr e he).1, ?_⟩⟩
    rw [(hr e he).2, Option.map_some, UInt32.toNat_ofNat_of_lt' (h e he).2.2.2]

/-- The builder accepts an ordinal that needs the fourth byte, and no offset is found. -/
theorem not_derivable_wide_ordinal :
    (0xFFFFFF : UInt32) ≤ WordPosMap.slotOrdinalMask ∧
      ¬ Derivable (fun _ => 1) [(0, 0, 0xFFFFFF)] := by
  refine ⟨by decide, ?_⟩
  rintro ⟨r, hopen, h⟩
  cases hopen
  exact absurd (h _ mem_cons_self).2 (by decide)

theorem derivable_two_values : Derivable (fun _ => 3) [(1, 0, 7), (1, 1, 8), (1, 3, 7)] := by
  refine (derivable_iff (by simp) ?_ (by decide +kernel)).mpr ?_
  · simp only [forall_mem_cons]
    exact ⟨by decide, by decide, by decide, forall_mem_nil _⟩
  · simp only [forall_mem_cons]
    exact ⟨by decide +kernel, by decide +kernel, by decide +kernel, forall_mem_nil _⟩

/-! ## The map of a collection's postings -/

/-- What is added to the writer for a posting, the ordinals numbered as `into_data` does. -/
def ChunkPosting.mapEntry (number : Ordinal → UInt32) (p : ChunkPosting) :
    UInt32 × UInt32 × UInt32 :=
  (UInt32.ofNat p.docId, UInt32.ofNat p.position, number p.ordinal)

section Postings

variable {postings : List ChunkPosting} {number : Ordinal → UInt32} {known : Ordinal → Option Nat}
  (hone : ∀ p ∈ postings, ∀ q ∈ postings, p.docId = q.docId → p.position = q.position → p = q)
  (hfit : ∀ p ∈ postings, p.docId < 2 ^ 32 - 1 ∧ p.position < 2 ^ 32 - 1)
include hone hfit

/-- Postings at different places are written to different slots. -/
theorem mapEntry_one (number : Ordinal → UInt32) :
    ∀ a ∈ postings.map (ChunkPosting.mapEntry number),
      ∀ b ∈ postings.map (ChunkPosting.mapEntry number), a.1 = b.1 → a.2.1 = b.2.1 → a = b := by
  intro a ha b hb hdoc hpos
  obtain ⟨p, hp, rfl⟩ := mem_map.mp ha
  obtain ⟨q, hq, rfl⟩ := mem_map.mp hb
  have hdoc' := congrArg UInt32.toNat hdoc
  have hpos' := congrArg UInt32.toNat hpos
  have hpf := hfit p hp
  have hqf := hfit q hq
  simp only [ChunkPosting.mapEntry, UInt32.toNat_ofNat'] at hdoc' hpos'
  rw [hone p hp q hq (by omega) (by omega)]

/-- **The slots of the file are those of the map**: the number of the ordinal, or nothing. -/
theorem slotOfEntries_mapEntry (number : Ordinal → UInt32) {p : ChunkPosting} (hp : p ∈ postings)
    (i : Nat) :
    slotOfEntries (postings.map (ChunkPosting.mapEntry number)) (UInt32.ofNat p.docId) i =
      ((PosMap.ofPostings postings).ordinalAt p.docId i).elim emptySlot number := by
  have hdoc : (UInt32.ofNat p.docId).toNat = p.docId :=
    UInt32.toNat_ofNat_of_lt' ((hfit p hp).1.trans (by decide))
  rw [PosMap.ordinalAt_ofPostings]
  cases hfind : postings.find? fun q => q.docId = p.docId ∧ q.position = i with
  | none =>
    rw [slotOfEntries, docs_ofEntries, slotAt_writes32_of_forall]
    · rfl
    · intro e he hplace
      obtain ⟨q, hq, rfl⟩ := mem_map.mp he
      have hqf := hfit q hq
      simp only [ChunkPosting.mapEntry, UInt32.toNat_ofNat', hdoc] at hplace
      refine absurd (find?_eq_none.mp hfind q hq) (not_not.mpr (decide_eq_true ?_))
      omega
  | some q =>
    obtain ⟨hqdoc, rfl⟩ : q.docId = p.docId ∧ q.position = i := by simpa using find?_some hfind
    have hq := mem_of_find?_eq_some hfind
    have hslot := slotOfEntries_of_mem (mapEntry_one hone hfit number)
      (mem_map_of_mem hq)
    have hpos : (UInt32.ofNat q.position).toNat = q.position :=
      UInt32.toNat_ofNat_of_lt' ((hfit q hq).2.trans (by decide))
    rw [ChunkPosting.mapEntry, hpos, hqdoc] at hslot
    exact hslot

variable (hnumber : ∀ p ∈ postings, number p.ordinal < maxOrdinal3)
  (hlens : ∀ p ∈ postings, lens (number p.ordinal) = some (ownLen (number p.ordinal)) ∧
    known p.ordinal = some (ownLen (number p.ordinal)).toNat)
include hnumber hlens

/-- Up to each position, the sum over the file's slots is the offset the map has reached. -/
theorem bytesSince_mapEntry {p : ChunkPosting} (hp : p ∈ postings) {i : Nat}
    (hi : i ≤ ((PosMap.ofPostings postings).slots p.docId).length) :
    bytesSince ownLen
        (slotOfEntries (postings.map (ChunkPosting.mapEntry number)) (UInt32.ofNat p.docId)) i =
      PosMap.bytesAfter known 0 (((PosMap.ofPostings postings).slots p.docId).take i) := by
  induction i with
  | zero => rfl
  | succ i ih =>
    have hslot := slotOfEntries_mapEntry hone hfit number hp i
    have hat : (PosMap.ofPostings postings).ordinalAt p.docId i =
        ((PosMap.ofPostings postings).slots p.docId)[i] := by
      rw [PosMap.ordinalAt, getElem?_eq_getElem hi, Option.join_some]
    rw [take_succ_eq_append_getElem hi, PosMap.bytesAfter_append, ← ih (Nat.le_of_succ_le hi),
      bytesSince, hslot, ← hat]
    cases hord : (PosMap.ofPostings postings).ordinalAt p.docId i with
    | none => rfl
    | some ord =>
      have hmem := (PosMap.ordinalAt_ofPostings_iff hone).mp hord
      have hne : number ord ≠ emptySlot := by
        intro hempty
        exact absurd (hempty ▸ hnumber _ hmem) (by decide)
      rw [Option.elim_some, if_neg hne, PosMap.bytesAfter, foldl_cons, foldl_nil, PosMap.advance,
        (hlens _ hmem).2]
      rfl

/-- **The file gives the offset of the map**, in 32 bits, where every ordinal fits three bytes and
the lengths are known. -/
theorem byteAt_ofPostings
    (hbuf : ((ofEntries (postings.map (ChunkPosting.mapEntry number))).serializeWithLens
      (some lens)).length < 2 ^ 64) :
    ∃ r, openBytes ((ofEntries (postings.map (ChunkPosting.mapEntry number))).serializeWithLens
        (some lens)) = some r ∧
      ∀ p ∈ postings, r.byteAt p.docId p.position lens =
        ((PosMap.ofPostings postings).byteAt known p.docId p.position).map UInt32.ofNat := by
  have hplace : ∀ p ∈ postings, (UInt32.ofNat p.docId).toNat = p.docId ∧
      (UInt32.ofNat p.position).toNat = p.position := fun p hp =>
    ⟨UInt32.toNat_ofNat_of_lt' ((hfit p hp).1.trans (by decide)),
      UInt32.toNat_ofNat_of_lt' ((hfit p hp).2.trans (by decide))⟩
  have hlast : ∀ {n : Nat}, n < 2 ^ 32 - 1 → UInt32.ofNat n ≠ 0xFFFFFFFF := by
    intro n hn heq
    have := congrArg UInt32.toNat heq
    rw [UInt32.toNat_ofNat_of_lt' (hn.trans (by decide))] at this
    exact absurd (this ▸ hn) (by decide)
  have hentries : ∀ e ∈ postings.map (ChunkPosting.mapEntry number),
      e.2.2 < maxOrdinal3 ∧ e.1 ≠ 0xFFFFFFFF ∧ e.2.1 ≠ 0xFFFFFFFF := by
    exact forall_mem_map.mpr fun p hp => ⟨hnumber p hp, hlast (hfit p hp).1, hlast (hfit p hp).2⟩
  have hknown : ∀ e ∈ postings.map (ChunkPosting.mapEntry number),
      lens e.2.2 = some (ownLen e.2.2) := forall_mem_map.mpr fun p hp => (hlens p hp).1
  obtain ⟨r, hopen, hr⟩ := byteAt_ofEntries (mapEntry_one hone hfit number) hentries hknown hbuf
  refine ⟨r, hopen, fun p hp => ?_⟩
  have hord := (PosMap.ordinalAt_ofPostings_iff hone).mpr hp
  have hread := (hr _ (mem_map_of_mem hp)).2
  simp only [ChunkPosting.mapEntry, (hplace p hp).1, (hplace p hp).2] at hread
  rw [hread, PosMap.byteAt_eq hord, Option.map_some,
    ← bytesSince_mapEntry hone hfit hnumber hlens hp (PosMap.lt_length_of_ordinalAt hord).le]
  intro ord hmem
  obtain ⟨i, hi⟩ := mem_iff_getElem?.mp (mem_of_mem_take hmem)
  have hat : (PosMap.ofPostings postings).ordinalAt p.docId i = some ord := by
    rw [PosMap.ordinalAt, hi, Option.join_some]
  rw [(hlens _ ((PosMap.ordinalAt_ofPostings_iff hone).mp hat)).2]
  rfl

end Postings

end Lucivy.SuffixFst
