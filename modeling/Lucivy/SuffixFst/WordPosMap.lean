import Lucivy.SuffixFst.Derived

/-! # Reading the word map

`WordPosMapReader` (`suffix_fst/word_pos_map.rs`), on local ordinals: which word starts at a
position. A slot holds 28 bits of ordinal and 4 of span; a span of 15 or more is read as
`SPAN_OVERFLOW`, and the caller asks the posting list. The largest ordinal with the largest span
is the slot that stands for no word.

* `WordPosMapReader` — the reader.
* `wordStartAt_serialize` — what is read at every position of a file.
* `readsBack_iff` — which words are read back. -/

namespace Lucivy.SuffixFst

open Lucivy.Foundation List WordPosMap PosMapFile

structure WordPosMapReader where
  numDocs : Nat
  offsets : Bytes
  data : Bytes
  /-- Bits of the ordinal: 28 (`WMP3`) or 24 (`WMP2`). -/
  ordinalBits : Nat

namespace WordPosMapReader

/-- The bits of the ordinal that the first four bytes name. -/
def ordinalBitsOf (magic : Bytes) : Option Nat :=
  if magic = [0x57, 0x4D, 0x50, 0x33] then some 28
  else if magic = [0x57, 0x4D, 0x50, 0x32] then some 24
  else none

def openBytes (bytes : Bytes) : Option WordPosMapReader := do
  if bytes.length < 8 then none
  else
    let ordinalBits ← ordinalBitsOf (bytes.take 4)
    let numDocs ← readLe 4 bytes 4
    if bytes.length < 8 + (numDocs + 1) * 8 then none
    else
      some ⟨numDocs, (bytes.drop 8).take ((numDocs + 1) * 8), bytes.drop (8 + (numDocs + 1) * 8),
        ordinalBits⟩

theorem numDocs_lt {bytes : Bytes} {r : WordPosMapReader} (h : openBytes bytes = some r) :
    r.numDocs < 2 ^ 32 := by
  rw [openBytes] at h
  split at h
  · cases h
  · obtain ⟨bits, -, h⟩ := Option.bind_eq_some_iff.mp h
    obtain ⟨n, hn, h⟩ := Option.bind_eq_some_iff.mp h
    split at h
    · cases h
    · cases h
      exact readLe_lt hn

variable (r : WordPosMapReader)

/-- `read_offset`; it is asked within the table only. -/
def readOffset (i : Nat) : Nat := (readLe 8 r.offsets (i * 8)).getD 0

/-- `word_at`: the slot; nothing outside the table or where no word starts. -/
def wordAt (docId position : Nat) : Option Nat :=
  if r.numDocs ≤ docId then none
  else if (r.readOffset (docId + 1) - r.readOffset docId) / 4 ≤ position then none
  else (readLe 4 r.data (r.readOffset docId + position * 4)).filter (· ≠ emptySlot.toNat)

abbrev spanOverflow : Nat := 255

/-- `word_start_at`: the word's ordinal and span. -/
def wordStartAt (docId position : Nat) : Option (Nat × Nat) :=
  (r.wordAt docId position).map fun slot =>
    if r.ordinalBits = 24 then (slot % 2 ^ 24, slot / 2 ^ 24)
    else
      let span := slot / 2 ^ 28
      (slot % 2 ^ 28, if slotSpanMax.toNat ≤ span then spanOverflow else span)

/-- The slot of a word's start, read: nothing for the marker. -/
def slotStart (x : UInt32) : Option (Nat × Nat) :=
  if x = emptySlot then none
  else some (x.toNat % 2 ^ 28, if 15 ≤ x.toNat / 2 ^ 28 then spanOverflow else x.toNat / 2 ^ 28)

end WordPosMapReader

open WordPosMapReader

/-- **The file of a table is read back**: at every position the table's slot. -/
theorem wordStartAt_serialize {w : WordPosMapWriter} (hover : w.overflow = false)
    (hnum : w.docs.length < 2 ^ 32) (hbuf : w.serialize.length < 2 ^ 64) :
    ∃ r, openBytes w.serialize = some r ∧
      ∀ d p, r.wordStartAt d p = slotStart (slotAt emptySlot w.docs d p) := by
  obtain ⟨docs, hdocs⟩ : ∃ l : List Bytes, l = w.docs.map fun doc => doc.flatMap fun slot =>
      leBytes 4 slot.toNat := ⟨_, rfl⟩
  have hlens : docs.map List.length = w.docs.map fun doc => doc.length * 4 := by
    rw [hdocs, map_map]
    exact map_congr_left fun doc _ => length_flatMap_const fun _ _ => length_leBytes 4 _
  have hcount : docs.length = w.docs.length := by rw [hdocs, length_map]
  have hserialize : w.serialize = docFile [0x57, 0x4D, 0x50, 0x33] (docs.map List.length) docs := by
    rw [WordPosMapWriter.serialize, hover, hlens, ← hdocs]
    rfl
  have htotal : docs.flatten.length < 2 ^ 64 := by
    rw [hserialize, docFile] at hbuf
    simp only [length_append] at hbuf
    omega
  obtain ⟨file, offsets, hfile, htake, hnumDocs, hshort, hlen, hoffsets, hdata, hread⟩ :=
    @docFile_reads [0x57, 0x4D, 0x50, 0x33] rfl docs (hcount ▸ hnum) htotal
  rw [hserialize, hfile]
  refine ⟨⟨docs.length, offsets, docs.flatten, 28⟩, ?_, fun d p => ?_⟩
  · rw [openBytes, if_neg hshort, htake, hnumDocs]
    simp only [ordinalBitsOf, if_true, Option.bind_eq_bind, Option.bind_some]
    rw [if_neg hlen, hoffsets, hdata]
  · rw [wordStartAt, wordAt, slotAt, readOffset, readOffset]
    dsimp only
    by_cases hd : d < w.docs.length
    · have hget := getElem?_eq_getElem hd
      have hpiece : docs[d]? = some (w.docs[d].flatMap fun slot => leBytes 4 slot.toNat) := by
        rw [hdocs, getElem?_map, hget]
        rfl
      obtain ⟨hnext, hle⟩ := length_flatten_take_succ hpiece
      have hbytes : (w.docs[d].flatMap fun slot : UInt32 => leBytes 4 slot.toNat).length =
          w.docs[d].length * 4 := length_flatMap_const fun _ _ => length_leBytes 4 _
      rw [if_neg (by omega), hread d (by omega), hread (d + 1) (by omega), hnext,
        Nat.add_sub_cancel_left, hbytes,
        Nat.mul_div_cancel _ (by decide), hget, Option.getD_some]
      by_cases hp : p < w.docs[d].length
      · have hslot := getElem?_eq_getElem hp
        have hat := (BytesAt.flatten hpiece).trans
          (bytesAt_flatMap (w := 4) (fun _ _ => length_leBytes 4 _) hslot)
        rw [if_neg (by omega), readLe_leBytes hat (w.docs[d][p]).toNat_lt (by omega), hslot,
          Option.getD_some, slotStart, Option.filter_some]
        by_cases hempty : w.docs[d][p] = emptySlot
        · rw [hempty]
          rfl
        · have hne : w.docs[d][p].toNat ≠ emptySlot.toNat := fun h => hempty (UInt32.toNat_inj.mp h)
          rw [if_neg hempty, if_pos (by simpa using hne)]
          rfl
      · rw [if_pos (by omega), getElem?_eq_none (by omega)]
        rfl
    · rw [if_pos (by omega), getElem?_eq_none (Nat.le_of_not_lt hd)]
      rfl

/-! ## Words -/

/-- The word map of some words: `add_word` for each of them. -/
def WordPosMapWriter.ofWords (words : List RebuiltWord) : WordPosMapWriter :=
  words.foldl (fun w e => w.addWord e.docId e.first e.last e.ordinal) .new

open WordPosMapWriter

namespace RebuiltWord

/-- The chunks a word covers beyond its first. -/
def span (e : RebuiltWord) : Nat := e.last.toNat - e.first.toNat

/-- What the map says of a word: its ordinal, and its span or the overflow mark. -/
def start (e : RebuiltWord) : Nat × Nat :=
  (e.ordinal.toNat, if 15 ≤ e.span then spanOverflow else e.span)

/-- The slot that is written for a word. -/
abbrev slot (e : RebuiltWord) : UInt32 := slotOf e.first e.last e.ordinal

theorem toNat_slot {e : RebuiltWord} (h : e.ordinal ≤ slotOrdinalMask) :
    e.slot.toNat = min e.span 15 * 2 ^ 28 + e.ordinal.toNat := by
  have hord : e.ordinal.toNat ≤ 2 ^ 28 - 1 := h
  have hspan : (min (if e.first ≤ e.last then e.last - e.first else 0) slotSpanMax).toNat =
      min e.span 15 := by
    have hcut : (if e.first ≤ e.last then e.last - e.first else 0).toNat = e.span := by
      split
      · next hle => exact UInt32.toNat_sub_of_le _ _ hle
      · next hlt =>
        rw [UInt32.le_iff_toNat_le] at hlt
        exact (Nat.sub_eq_zero_of_le (by omega)).symm
    rw [← hcut, UInt32.toNat_min]
    rfl
  have hbits : slotOrdinalBits.toNat % 32 = 28 := rfl
  unfold slot slotOf
  rw [UInt32.toNat_or, UInt32.toNat_shiftLeft, hspan, hbits, Nat.shiftLeft_eq,
    Nat.mod_eq_of_lt (by omega), Nat.or_comm, Nat.mul_comm]
  exact (Nat.two_pow_add_eq_or_of_lt (by omega) _).symm

/-- Of the words that can be written only the largest ordinal with a long span is lost. -/
theorem slotStart_slot {e : RebuiltWord} (h : e.ordinal ≤ slotOrdinalMask) :
    slotStart e.slot =
      if e.ordinal = slotOrdinalMask ∧ 15 ≤ e.span then none else some e.start := by
  have hord : e.ordinal.toNat ≤ 2 ^ 28 - 1 := h
  have hslot := toNat_slot h
  have hempty : e.slot = emptySlot ↔ e.ordinal = slotOrdinalMask ∧ 15 ≤ e.span := by
    rw [← UInt32.toNat_inj, ← UInt32.toNat_inj, hslot]
    simp only [UInt32.toNat_ofNat]
    omega
  rw [slotStart]
  by_cases hlost : e.ordinal = slotOrdinalMask ∧ 15 ≤ e.span
  · rw [if_pos (hempty.mpr hlost), if_pos hlost]
  · have hdiv : e.slot.toNat / 2 ^ 28 = min e.span 15 := by omega
    have hmod : e.slot.toNat % 2 ^ 28 = e.ordinal.toNat := by omega
    rw [if_neg (mt hempty.mp hlost), if_neg hlost, hdiv, hmod, start]
    congr 2
    split <;> split <;> omega

end RebuiltWord

/-- **The words are read back**: each at its first position, and nothing elsewhere. -/
def ReadsBack (words : List RebuiltWord) : Prop :=
  ∃ r, openBytes (ofWords words).serialize = some r ∧
    (∀ e ∈ words, r.wordStartAt e.docId.toNat e.first.toNat = some e.start) ∧
    ∀ d p : UInt32, (∀ e ∈ words, ¬ (e.docId = d ∧ e.first = p)) →
      r.wordStartAt d.toNat p.toNat = none

variable {words : List RebuiltWord}

theorem ofWords_eq (hord : ∀ e ∈ words, e.ordinal ≤ slotOrdinalMask) :
    ofWords words = ⟨writeSlots emptySlot (writes32 (words.map fun e =>
      (e.docId, e.first, e.slot))) [], false⟩ := by
  have hfold : ∀ (l : List RebuiltWord) docs, (∀ e ∈ l, e.ordinal ≤ slotOrdinalMask) →
      l.foldl (fun w e => w.addWord e.docId e.first e.last e.ordinal) ⟨docs, false⟩ =
        (⟨writeSlots emptySlot (writes32 (l.map fun e => (e.docId, e.first, e.slot))) docs,
          false⟩ : WordPosMapWriter) := by
    intro l
    induction l with
    | nil => exact fun docs _ => rfl
    | cons e l ih =>
      intro docs h
      rw [foldl_cons, addWord, if_neg (UInt32.not_lt.mpr (h e mem_cons_self)),
        ih _ fun e' he' => h e' (mem_cons_of_mem _ he')]
      rfl
  exact hfold words [] hord

/-- What the file of some words says at every position, if no document has the last id of all:
with it the number of documents is `2 ^ 32` and is written as 0. -/
theorem wordStartAt_ofWords
    (hdistinct : ∀ a ∈ words, ∀ b ∈ words, a.docId = b.docId → a.first = b.first → a = b)
    (hord : ∀ e ∈ words, e.ordinal ≤ slotOrdinalMask) (hdoc : ∀ e ∈ words, e.docId ≠ 0xFFFFFFFF)
    (hbuf : (ofWords words).serialize.length < 2 ^ 64) :
    ∃ r, openBytes (ofWords words).serialize = some r ∧
      (∀ e ∈ words, r.wordStartAt e.docId.toNat e.first.toNat = slotStart e.slot) ∧
      ∀ d p : UInt32, (∀ e ∈ words, ¬ (e.docId = d ∧ e.first = p)) →
        r.wordStartAt d.toNat p.toNat = none := by
  have hwriter := ofWords_eq hord
  have hnum : (ofWords words).docs.length < 2 ^ 32 := by
    rw [hwriter]
    exact length_writes32 (by simpa using hdoc)
  obtain ⟨r, hopen, hread⟩ := wordStartAt_serialize (by rw [hwriter]) hnum hbuf
  refine ⟨r, hopen, fun e he => ?_, fun d p hnone => ?_⟩ <;> rw [hread, hwriter]
  · refine congrArg slotStart (slotAt_writes32 ?_ (mem_map.mpr ⟨e, he, rfl⟩))
    simp only [mem_map]
    rintro _ ⟨x, hx, rfl⟩ _ ⟨y, hy, rfl⟩ hrow hcol
    rw [hdistinct x hx y hy hrow hcol]
  · refine congrArg slotStart (slotAt_writes32_of_forall ?_)
    simp only [mem_map]
    rintro _ ⟨x, hx, rfl⟩ hsame
    exact hnone x hx ⟨UInt32.toNat_inj.mp hsame.1, UInt32.toNat_inj.mp hsame.2⟩

/-- **Which words are read back.** Of words that start at different places, with ordinals the
builder accepts and in a file that a buffer holds, all are, unless one lies in the document of
the last id, or has the largest ordinal and covers sixteen chunks or more. -/
theorem readsBack_iff
    (hdistinct : ∀ a ∈ words, ∀ b ∈ words, a.docId = b.docId → a.first = b.first → a = b)
    (hord : ∀ e ∈ words, e.ordinal ≤ slotOrdinalMask)
    (hbuf : (ofWords words).serialize.length < 2 ^ 64) :
    ReadsBack words ↔ ∀ e ∈ words, e.docId ≠ 0xFFFFFFFF ∧
      ¬ (e.ordinal = slotOrdinalMask ∧ 15 ≤ e.span) := by
  constructor
  · rintro ⟨r, hopen, hwords, -⟩
    have hdoc : ∀ e ∈ words, e.docId ≠ 0xFFFFFFFF := by
      intro e he hlast
      have hsome := hwords e he
      rw [wordStartAt, wordAt, if_pos] at hsome
      · cases hsome
      · have hlt := numDocs_lt hopen
        rw [hlast]
        exact Nat.le_of_lt_succ hlt
    obtain ⟨r', hopen', hread, -⟩ := wordStartAt_ofWords hdistinct hord hdoc hbuf
    obtain rfl : r = r' := Option.some.inj (hopen.symm.trans hopen')
    refine fun e he => ⟨hdoc e he, fun hlost => ?_⟩
    have hsome := (hread e he).symm.trans (hwords e he)
    rw [RebuiltWord.slotStart_slot (hord e he), if_pos hlost] at hsome
    cases hsome
  · intro h
    obtain ⟨r, hopen, hread, hnone⟩ :=
      wordStartAt_ofWords hdistinct hord (fun e he => (h e he).1) hbuf
    refine ⟨r, hopen, fun e he => ?_, hnone⟩
    rw [hread e he, RebuiltWord.slotStart_slot (hord e he), if_neg (h e he).2]

/-- A word of sixteen chunks with the largest ordinal. -/
theorem not_readsBack_last_ordinal : ¬ ReadsBack [⟨0, 0, 15, 0xFFFFFFF⟩] := by
  rintro ⟨r, hopen, hwords, -⟩
  cases hopen
  exact absurd (hwords _ mem_cons_self) (by decide)

theorem readsBack_two_words : ReadsBack [⟨1, 0, 0, 7⟩, ⟨0, 3, 20, 0xFFFFFFE⟩] :=
  (readsBack_iff (by decide) (by decide) (by decide +kernel)).mpr (by decide)

end Lucivy.SuffixFst
