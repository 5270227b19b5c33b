import Lucivy.Foundation.Bytes
import Lucivy.Foundation.GrowingTable
import Lucivy.SuffixFst.PosMap

/-! # The files of the position maps

The bytes of `.posmap` (`suffix_fst/posmap.rs`) and of `.word_pos_map`
(`suffix_fst/word_pos_map.rs`): four bytes that name the layout, the number of documents, a
table of 64-bit offsets, and for each document a slot for each position.

* `docFile` — the frame of both.
* `PosMapWriter`, `PosMapReader` — `.posmap`: `PMP4` with byte checkpoints, `PMP3` without,
  `PMAP` for ordinals that need a fourth byte.
* `ordinalAt_serialize` — what is written is read back.
* `WordPosMapWriter` — `.word_pos_map`, of which only the writer is needed here. -/

namespace Lucivy.SuffixFst

open Lucivy.Foundation List

/-! ## The frame -/

/-- Where the documents' bytes start, and where the last ones end. -/
def docOffsets : Nat → List Nat → List Nat
  | acc, [] => [acc]
  | acc, n :: sizes => acc :: docOffsets (acc + n) sizes

/-- The frame: the layout, the number of documents, the offsets, the documents. -/
def docFile (magic : Bytes) (sizes : List Nat) (docs : List Bytes) : Bytes :=
  (magic ++ leBytes 4 docs.length) ++ ((docOffsets 0 sizes).flatMap (leBytes 8) ++ docs.flatten)

theorem length_docOffsets (acc : Nat) (sizes : List Nat) :
    (docOffsets acc sizes).length = sizes.length + 1 := by
  induction sizes generalizing acc with
  | nil => rfl
  | cons n sizes ih => rw [docOffsets, length_cons, ih, length_cons]

theorem docOffsets_getElem? (acc : Nat) (docs : List Bytes) {i : Nat} (hi : i ≤ docs.length) :
    (docOffsets acc (docs.map List.length))[i]? = some (acc + (docs.take i).flatten.length) := by
  induction docs generalizing acc i with
  | nil =>
    obtain rfl : i = 0 := Nat.le_zero.mp hi
    rfl
  | cons d docs ih =>
    cases i with
    | zero => rfl
    | succ i =>
      rw [map_cons, docOffsets, getElem?_cons_succ,
        ih (acc + d.length) (Nat.le_of_succ_le_succ hi), take_succ_cons, flatten_cons,
        length_append, add_assoc]

/-- **What a reader of the frame finds**: the header, the offset table, the documents. -/
theorem docFile_reads {magic : Bytes} (hmagic : magic.length = 4) {docs : List Bytes}
    (hnum : docs.length < 2 ^ 32) (htotal : docs.flatten.length < 2 ^ 64) :
    ∃ file offsets, docFile magic (docs.map List.length) docs = file ∧ file.take 4 = magic ∧
      readLe 4 file 4 = some docs.length ∧ ¬ file.length < 8 ∧
      ¬ file.length < 8 + (docs.length + 1) * 8 ∧
      (file.drop 8).take ((docs.length + 1) * 8) = offsets ∧
      file.drop (8 + (docs.length + 1) * 8) = docs.flatten ∧
      ∀ j ≤ docs.length, (readLe 8 offsets (j * 8)).getD 0 = (docs.take j).flatten.length := by
  have hlen : ((docOffsets 0 (docs.map List.length)).flatMap (leBytes 8)).length =
      (docs.length + 1) * 8 := by
    rw [length_flatMap_leBytes, length_docOffsets, length_map]
  have hoffset : ∀ j ≤ docs.length,
      (readLe 8 ((docOffsets 0 (docs.map List.length)).flatMap (leBytes 8)) (j * 8)).getD 0 =
        (docs.take j).flatten.length := by
    intro j hj
    have hget := docOffsets_getElem? 0 docs hj
    rw [zero_add] at hget
    have hle : (docs.take j).flatten.length ≤ docs.flatten.length :=
      (List.Sublist.flatten (take_sublist j docs)).length_le
    rw [readLe_leBytes (bytesAt_flatMap_leBytes hget) (by omega) (by omega), Option.getD_some]
  generalize hoffsets : (docOffsets 0 (docs.map List.length)).flatMap (leBytes 8) = offsets at *
  obtain ⟨htake, hcount, hdrop, hsize⟩ := header_reads hmagic docs.length (offsets ++ docs.flatten)
  rw [Nat.mod_eq_of_lt hnum] at hcount
  rw [@length_append _ offsets, hlen] at hsize
  refine ⟨_, offsets, ?_, htake, hcount, by omega, by omega, ?_, ?_, hoffset⟩
  · rw [docFile, hoffsets, append_assoc]
  · rw [hdrop, ← hlen, take_left]
  · rw [← drop_drop, hdrop, ← hlen, drop_left]

/-! ## `.posmap` -/

namespace PosMapFile

/-- `EMPTY`: no token at this position. -/
abbrev emptySlot : UInt32 := 0xFFFFFFFF

abbrev maxOrdinal3 : UInt32 := 0xFFFFFF

/-- The layouts a file may have. -/
inductive Layout
  /-- `PMAP`. -/
  | wide
  /-- `PMP3`. -/
  | narrow
  /-- `PMP4`. -/
  | checkpoints
deriving DecidableEq, Repr

/-- The first four bytes of a file. -/
def Layout.magic : Layout → Bytes
  | .wide => [0x50, 0x4D, 0x41, 0x50]
  | .narrow => [0x50, 0x4D, 0x50, 0x33]
  | .checkpoints => [0x50, 0x4D, 0x50, 0x34]

/-- Bytes of a slot. -/
def Layout.width : Layout → Nat
  | .wide => 4
  | .narrow => 3
  | .checkpoints => 3

/-- The empty marker at the layout's width: all ones. -/
def Layout.empty : Layout → Nat
  | .wide => 2 ^ 32 - 1
  | .narrow => 2 ^ 24 - 1
  | .checkpoints => 2 ^ 24 - 1

/-- The layout that four bytes name. -/
def layoutOf (bytes : Bytes) : Option Layout :=
  if bytes = Layout.wide.magic then some .wide
  else if bytes = Layout.narrow.magic then some .narrow
  else if bytes = Layout.checkpoints.magic then some .checkpoints
  else none

theorem layoutOf_magic (layout : Layout) : layoutOf layout.magic = some layout := by
  cases layout <;> rfl

theorem length_magic (layout : Layout) : layout.magic.length = 4 := by
  cases layout <;> rfl

/-- `div_ceil(CHECKPOINT_EVERY)`. -/
def numCheckpoints (n : Nat) : Nat := (n + (checkpointEvery - 1)) / checkpointEvery

/-- The loop of `byte_checkpoints`: the position, the offset reached, the slots to come. -/
def byteCheckpointsFrom (ownLen : UInt32 → Option UInt16) : Nat → UInt32 → List UInt32 → List UInt32
  | _, _, [] => []
  | p, acc, ord :: rest =>
    (if p % checkpointEvery = 0 then [acc] else []) ++
      byteCheckpointsFrom ownLen (p + 1)
        (if ord = emptySlot then 0 else acc + ((ownLen ord).getD 0).toUInt32) rest

theorem length_byteCheckpointsFrom (ownLen : UInt32 → Option UInt16) (p : Nat) (acc : UInt32)
    (slots : List UInt32) :
    (byteCheckpointsFrom ownLen p acc slots).length + numCheckpoints p =
      numCheckpoints (p + slots.length) := by
  induction slots generalizing p acc with
  | nil =>
    rw [byteCheckpointsFrom]
    simp
  | cons ord rest ih =>
    have hrest := ih (p + 1) (if ord = emptySlot then 0 else acc + ((ownLen ord).getD 0).toUInt32)
    rw [byteCheckpointsFrom, length_append, length_cons]
    simp only [numCheckpoints, checkpointEvery] at hrest ⊢
    split <;> simp <;> omega

def byteCheckpoints (slots : List UInt32) (ownLen : UInt32 → Option UInt16) : List UInt32 :=
  byteCheckpointsFrom ownLen 0 0 slots

end PosMapFile

open PosMapFile

/-- `PosMapWriter`: for each document its ordinals by position. -/
structure PosMapWriter where
  docs : List (List UInt32)
deriving DecidableEq, Repr

namespace PosMapWriter

def new : PosMapWriter := ⟨[]⟩

def add (w : PosMapWriter) (docId position ordinal : UInt32) : PosMapWriter :=
  ⟨writeSlot emptySlot docId.toNat position.toNat ordinal w.docs⟩

/-- Every ordinal fits three bytes. -/
def narrow (w : PosMapWriter) : Bool :=
  w.docs.flatten.all fun o => o = emptySlot || o < maxOrdinal3

/-- The layout that is written: with checkpoints where the lengths are known. -/
def layout (w : PosMapWriter) (ownLen : Option (UInt32 → Option UInt16)) : Layout :=
  if w.narrow then if ownLen.isSome then .checkpoints else .narrow else .wide

/-- `doc_size`: the bytes of a document of `n` positions. -/
def docSize (layout : Layout) (n : Nat) : Nat :=
  n * layout.width + if layout = .checkpoints then 4 + 4 * numCheckpoints n else 0

/-- What stands before the slots of a document: their number and the checkpoints. -/
def docHead (layout : Layout) (ownLen : Option (UInt32 → Option UInt16)) (doc : List UInt32) :
    Bytes :=
  match ownLen.filter fun _ => layout = .checkpoints with
  | none => []
  | some ownLen =>
    leBytes 4 doc.length ++ (byteCheckpoints doc ownLen).flatMap fun ck => leBytes 4 ck.toNat

/-- The bytes of a document. -/
def docBytes (layout : Layout) (ownLen : Option (UInt32 → Option UInt16)) (doc : List UInt32) :
    Bytes :=
  docHead layout ownLen doc ++ doc.flatMap fun ord => leBytes layout.width ord.toNat

def serializeWithLens (w : PosMapWriter) (ownLen : Option (UInt32 → Option UInt16)) : Bytes :=
  docFile (w.layout ownLen).magic (w.docs.map fun doc => docSize (w.layout ownLen) doc.length)
    (w.docs.map (docBytes (w.layout ownLen) ownLen))

def serialize (w : PosMapWriter) : Bytes := w.serializeWithLens none

end PosMapWriter

/-- `PosMapReader`, on local ordinals. -/
structure PosMapReader where
  numDocs : Nat
  offsets : Bytes
  data : Bytes
  layout : Layout

namespace PosMapReader

def openBytes (bytes : Bytes) : Option PosMapReader := do
  if bytes.length < 8 then none
  else
    let layout ← layoutOf (bytes.take 4)
    let numDocs ← readLe 4 bytes 4
    if bytes.length < 8 + (numDocs + 1) * 8 then none
    else
      some ⟨numDocs, (bytes.drop 8).take ((numDocs + 1) * 8), bytes.drop (8 + (numDocs + 1) * 8),
        layout⟩

variable (r : PosMapReader)

/-- `read_offset`; it is asked within the table only. -/
def readOffset (i : Nat) : Nat := (readLe 8 r.offsets (i * 8)).getD 0

/-- `doc_raw`: the document's whole region. -/
def docRaw (docId : Nat) : Bytes :=
  let start := min (r.readOffset docId) r.data.length
  let stop := min (r.readOffset (docId + 1)) r.data.length
  (r.data.drop start).take (max stop start - start)

/-- `checkpoint_bytes`: what stands before the slots. -/
def checkpointBytes (raw : Bytes) : Nat :=
  match readLe 4 raw 0 with
  | none => raw.length
  | some n => 4 + 4 * numCheckpoints n

/-- `doc_data`: the slots. -/
def docData (docId : Nat) : Bytes :=
  let raw := r.docRaw docId
  if r.layout = .checkpoints then raw.drop (min (checkpointBytes raw) raw.length) else raw

/-- `slot`: the ordinal, or nothing where the marker stands. -/
def slot (data : Bytes) (off : Nat) : Option Nat :=
  (readLe r.layout.width data off).filter (· ≠ r.layout.empty)

def ordinalAt (docId position : Nat) : Option Nat :=
  if r.numDocs ≤ docId then none
  else
    let data := r.docData docId
    if data.length / r.layout.width ≤ position then none
    else r.slot data (position * r.layout.width)

def numTokens (docId : Nat) : Nat :=
  if r.numDocs ≤ docId then 0 else (r.docData docId).length / r.layout.width

end PosMapReader

/-! ## Reading back -/

namespace PosMapWriter

variable {layout : Layout} {ownLen : Option (UInt32 → Option UInt16)} {doc : List UInt32}

/-- Checkpoints are written where the lengths are known. -/
theorem isSome_of_layout {w : PosMapWriter} (h : w.layout ownLen = .checkpoints) :
    ownLen.isSome = true := by
  unfold PosMapWriter.layout at h
  split at h
  · split at h
    · assumption
    · cases h
  · cases h

theorem length_docHead (h : layout = .checkpoints → ownLen.isSome = true) :
    (docHead layout ownLen doc).length =
      if layout = .checkpoints then 4 + 4 * numCheckpoints doc.length else 0 := by
  have hcount : ∀ ownLen, (byteCheckpoints doc ownLen).length = numCheckpoints doc.length := by
    intro ownLen
    have := length_byteCheckpointsFrom ownLen 0 0 doc
    rw [zero_add] at this
    exact this
  unfold docHead
  by_cases hlayout : layout = .checkpoints
  · obtain ⟨ownLen, rfl⟩ := Option.isSome_iff_exists.mp (h hlayout)
    simp only [hlayout, decide_true, Option.filter_some, if_true]
    rw [length_append, length_leBytes, length_flatMap_const fun _ _ => length_leBytes 4 _,
      hcount, mul_comm]
  · have hfilter : (ownLen.filter fun _ => layout = .checkpoints) = none := by simp [hlayout]
    rw [hfilter, if_neg hlayout]
    rfl

theorem length_docBytes (h : layout = .checkpoints → ownLen.isSome = true) :
    (docBytes layout ownLen doc).length = docSize layout doc.length := by
  rw [docBytes, length_append, length_docHead h,
    length_flatMap_const fun _ _ => length_leBytes _ _, docSize, add_comm]

end PosMapWriter

namespace PosMapReader

open PosMapWriter

/-- The slot of an ordinal, as the table has it. -/
def slotOrdinal (x : UInt32) : Option Nat := if x = emptySlot then none else some x.toNat

/-- A slot fits its layout: an ordinal of three bytes, or four of them. -/
def Fits (layout : Layout) (x : UInt32) : Prop :=
  layout ≠ .wide → x = emptySlot ∨ x < maxOrdinal3

variable {ownLen : Option (UInt32 → Option UInt16)}

theorem fits_of_layout {w : PosMapWriter} {doc : List UInt32} (hdoc : doc ∈ w.docs) {x : UInt32}
    (hx : x ∈ doc) : Fits (w.layout ownLen) x := by
  intro hwide
  have hnarrow : w.narrow = true := by
    by_contra hnot
    exact hwide (if_neg hnot)
  have hall := all_eq_true.mp hnarrow x (mem_flatten_of_mem hdoc hx)
  simpa using hall

/-- The bytes of a slot give its ordinal. -/
theorem slot_leBytes {r : PosMapReader} {data : Bytes} {off : Nat} {x : UInt32}
    (hat : BytesAt data off (leBytes r.layout.width x.toNat)) (hoff : off ≤ data.length)
    (hfits : Fits r.layout x) : r.slot data off = slotOrdinal x := by
  have hx := x.toNat_lt
  unfold slot slotOrdinal
  by_cases hwide : r.layout = .wide
  · rw [hwide] at hat ⊢
    rw [readLe_leBytes hat (by simp only [Layout.width]; omega) hoff]
    by_cases hempty : x = emptySlot
    · subst hempty
      rfl
    · have hne : x.toNat ≠ Layout.wide.empty := by
        intro heq
        exact hempty (UInt32.toNat_inj.mp heq)
      rw [if_neg hempty, Option.filter_some, if_pos (by simpa using hne)]
  · have hwidth : r.layout.width = 3 ∧ r.layout.empty = 2 ^ 24 - 1 := by
      cases hl : r.layout with
      | wide => exact absurd hl hwide
      | narrow => exact ⟨rfl, rfl⟩
      | checkpoints => exact ⟨rfl, rfl⟩
    rw [hwidth.1] at hat ⊢
    rw [hwidth.2]
    rcases hfits hwide with rfl | hlt
    · -- the marker loses its fourth byte and is the marker of three bytes
      have hat' : BytesAt data off (leBytes 3 (2 ^ 24 - 1)) := hat
      rw [readLe_leBytes hat' (by decide) hoff]
      rfl
    · have hlt' : x.toNat < 2 ^ 24 - 1 := hlt
      have hempty : x ≠ emptySlot := by
        rintro rfl
        exact absurd hlt' (by decide)
      rw [readLe_leBytes hat (by omega) hoff, if_neg hempty, Option.filter_some,
        if_pos (by simpa using hlt'.ne)]

/-- **What the reader of a file is**: the header read back, and for each document its bytes. -/
theorem openBytes_docFile (layout : Layout) {docs : List Bytes} (hnum : docs.length < 2 ^ 32)
    (htotal : docs.flatten.length < 2 ^ 64) :
    ∃ r, openBytes (docFile layout.magic (docs.map List.length) docs) = some r ∧
      r.numDocs = docs.length ∧ r.layout = layout ∧
      ∀ i d, docs[i]? = some d → r.docRaw i = d := by
  obtain ⟨file, offsets, hfile, htake, hcount, hshort, hlen, hoffsets, hdata, hread⟩ :=
    docFile_reads (length_magic layout) hnum htotal
  refine ⟨⟨docs.length, offsets, docs.flatten, layout⟩, ?_, rfl, rfl, fun i d hd => ?_⟩
  · rw [hfile, openBytes, if_neg hshort, htake, layoutOf_magic, hcount]
    simp only [Option.bind_eq_bind, Option.bind_some]
    rw [if_neg hlen, hoffsets, hdata]
  · -- the two offsets around a document are where its bytes start and end
    have hi := (List.getElem?_eq_some_iff.mp hd).1
    obtain ⟨hnext, hle⟩ := length_flatten_take_succ hd
    rw [docRaw, readOffset, readOffset, hread i hi.le, hread (i + 1) hi]
    dsimp only
    rw [hnext, min_eq_left hle, min_eq_left (by omega), max_eq_left (by omega),
      Nat.add_sub_cancel_left]
    exact (BytesAt.flatten hd).take_drop

/-- The parts of a document with checkpoints: the number of slots, the checkpoints, the slots. -/
theorem docBytes_reads (lens : UInt32 → Option UInt16) {doc : List UInt32}
    (hdoc : doc.length < 2 ^ 32) :
    ∃ raw, docBytes .checkpoints (some lens) doc = raw ∧ readLe 4 raw 0 = some doc.length ∧
      BytesAt raw 4 ((byteCheckpoints doc lens).flatMap fun ck => leBytes 4 ck.toNat) ∧
      checkpointBytes raw ≤ raw.length ∧
      raw.drop (checkpointBytes raw) = doc.flatMap fun ord => leBytes 3 ord.toNat := by
  have hhead : (docHead .checkpoints (some lens) doc).length = 4 + 4 * numCheckpoints doc.length :=
    length_docHead fun _ => rfl
  have hat : BytesAt (docBytes .checkpoints (some lens) doc) 0 (leBytes 4 doc.length ++
      (byteCheckpoints doc lens).flatMap fun ck => leBytes 4 ck.toNat) := prefix_append _ _
  have hcount := readLe_leBytes hat.left hdoc (Nat.zero_le _)
  have hright := hat.right
  have hskip : checkpointBytes (docBytes .checkpoints (some lens) doc) =
      (docHead .checkpoints (some lens) doc).length := by
    rw [checkpointBytes, hcount, hhead]
  refine ⟨_, rfl, hcount, hright, ?_, ?_⟩ <;> rw [hskip, docBytes]
  · rw [length_append]
    exact Nat.le_add_right ..
  · exact drop_left

/-- The slots of a document behind what stands before them. -/
theorem docData_docBytes {r : PosMapReader} {doc : List UInt32} {docId : Nat}
    (hlens : r.layout = .checkpoints → ownLen.isSome = true) (hdoc : doc.length < 2 ^ 32)
    (hraw : r.docRaw docId = docBytes r.layout ownLen doc) :
    r.docData docId = doc.flatMap fun ord => leBytes r.layout.width ord.toNat := by
  unfold docData
  rw [hraw]
  by_cases hlayout : r.layout = .checkpoints
  · obtain ⟨lens, hsome⟩ := Option.isSome_iff_exists.mp (hlens hlayout)
    rw [hsome, hlayout]
    obtain ⟨raw, hbytes, -, -, hle, hslots⟩ := docBytes_reads lens hdoc
    rw [hbytes, if_pos rfl, min_eq_left hle, hslots]
    rfl
  · have hhead : (docHead r.layout ownLen doc).length = 0 := by
      rw [length_docHead hlens, if_neg hlayout]
    rw [if_neg hlayout, docBytes, eq_nil_of_length_eq_zero hhead, nil_append]

/-- **The file of a table is read back**: at every position the table's slot. -/
theorem ordinalAt_serialize {w : PosMapWriter} (hnum : w.docs.length < 2 ^ 32)
    (hdocs : ∀ doc ∈ w.docs, doc.length < 2 ^ 32)
    (htotal : (w.docs.map fun doc => docSize (w.layout ownLen) doc.length).sum < 2 ^ 64) :
    ∃ r, openBytes (w.serializeWithLens ownLen) = some r ∧ r.numDocs = w.docs.length ∧
      (∀ d doc, w.docs[d]? = some doc → r.numTokens d = doc.length) ∧
      (∀ d p, r.ordinalAt d p = slotOrdinal (slotAt emptySlot w.docs d p)) ∧
      r.layout = w.layout ownLen ∧
      ∀ d doc, w.docs[d]? = some doc → r.docRaw d = docBytes (w.layout ownLen) ownLen doc := by
  have hlens : w.layout ownLen = .checkpoints → ownLen.isSome = true := isSome_of_layout
  have hsizes : (w.docs.map (docBytes (w.layout ownLen) ownLen)).map List.length =
      w.docs.map fun doc => docSize (w.layout ownLen) doc.length := by
    rw [map_map]
    exact map_congr_left fun doc _ => length_docBytes hlens
  have hcount : (w.docs.map (docBytes (w.layout ownLen) ownLen)).length < 2 ^ 32 := by
    rwa [length_map]
  obtain ⟨r, hopen, hrnum, hlayout, hraw⟩ := openBytes_docFile (w.layout ownLen) hcount
    (by rwa [length_flatten, hsizes])
  rw [hsizes] at hopen
  rw [length_map] at hrnum
  have hbytes : ∀ d doc, w.docs[d]? = some doc →
      r.docRaw d = docBytes (w.layout ownLen) ownLen doc := fun d doc hd =>
    hraw d _ (by rw [getElem?_map, hd]; rfl)
  have hdata : ∀ d doc, w.docs[d]? = some doc →
      r.docData d = doc.flatMap fun ord => leBytes r.layout.width ord.toNat := fun d doc hd =>
    docData_docBytes (hlayout ▸ hlens) (hdocs doc (mem_of_getElem? hd)) (hlayout ▸ hbytes d doc hd)
  have hwidth : 0 < r.layout.width := by
    cases r.layout <;> decide
  have hlength : ∀ d doc, w.docs[d]? = some doc →
      (r.docData d).length / r.layout.width = doc.length := by
    intro d doc hd
    rw [hdata d doc hd, length_flatMap_const fun _ _ => length_leBytes _ _,
      Nat.mul_div_cancel _ hwidth]
  refine ⟨r, hopen, hrnum, fun d doc hd => ?_, fun d p => ?_, hlayout, hbytes⟩
  · have hlt := (List.getElem?_eq_some_iff.mp hd).1
    rw [numTokens, if_neg (by omega), hlength d doc hd]
  · rw [ordinalAt, slotAt]
    by_cases hd : d < w.docs.length
    · have hget := getElem?_eq_getElem hd
      rw [if_neg (by omega), hget, Option.getD_some]
      dsimp only
      rw [hlength d _ hget]
      by_cases hp : p < w.docs[d].length
      · have hslot := getElem?_eq_getElem hp
        rw [if_neg (by omega), hslot, Option.getD_some, hdata d _ hget]
        refine slot_leBytes (bytesAt_flatMap (fun _ _ => length_leBytes _ _) hslot) ?_ ?_
        · rw [length_flatMap_const fun _ _ => length_leBytes _ _]
          exact Nat.mul_le_mul_right _ hp.le
        · rw [hlayout]
          exact fits_of_layout (mem_of_getElem? hget) (mem_of_getElem? hslot)
      · rw [if_pos (by omega), getElem?_eq_none (by omega)]
        rfl
    · rw [if_pos (by omega), getElem?_eq_none (Nat.le_of_not_lt hd)]
      rfl

end PosMapReader

/-! ## `.word_pos_map` -/

namespace WordPosMap

abbrev slotOrdinalBits : UInt32 := 28

abbrev slotOrdinalMask : UInt32 := 0xFFFFFFF

abbrev slotSpanMax : UInt32 := 15

/-- The slot of a word: its ordinal, and the chunks it covers beyond the first, cut to 15. -/
def slotOf (first last ordinal : UInt32) : UInt32 :=
  ordinal ||| (min (if first ≤ last then last - first else 0) slotSpanMax <<< slotOrdinalBits)

end WordPosMap

open WordPosMap

structure WordPosMapWriter where
  docs : List (List UInt32)
  /-- An ordinal did not fit. -/
  overflow : Bool
deriving DecidableEq, Repr

namespace WordPosMapWriter

def new : WordPosMapWriter := ⟨[], false⟩

/-- `add_word`: an ordinal that does not fit its slot spoils the map. -/
def addWord (w : WordPosMapWriter) (docId first last ordinal : UInt32) : WordPosMapWriter :=
  if slotOrdinalMask < ordinal then { w with overflow := true }
  else
    { w with
      docs := writeSlot emptySlot docId.toNat first.toNat (slotOf first last ordinal) w.docs }

/-- `serialize`: nothing for a map that is spoilt. -/
def serialize (w : WordPosMapWriter) : Bytes :=
  if w.overflow then []
  else
    docFile [0x57, 0x4D, 0x50, 0x33] (w.docs.map fun doc => doc.length * 4)
      (w.docs.map fun doc => doc.flatMap fun slot => leBytes 4 slot.toNat)

/-- Words that start at different places may be added in either order. -/
theorem addWord_comm (w : WordPosMapWriter) {d₁ f₁ l₁ o₁ d₂ f₂ l₂ o₂ : UInt32}
    (h : d₁ = d₂ → f₁ ≠ f₂) :
    (w.addWord d₁ f₁ l₁ o₁).addWord d₂ f₂ l₂ o₂ = (w.addWord d₂ f₂ l₂ o₂).addWord d₁ f₁ l₁ o₁ := by
  have hslots : d₁.toNat = d₂.toNat → f₁.toNat ≠ f₂.toNat := fun hd hf =>
    h (UInt32.toNat_inj.mp hd) (UInt32.toNat_inj.mp hf)
  unfold addWord
  by_cases h₁ : slotOrdinalMask < o₁ <;> by_cases h₂ : slotOrdinalMask < o₂
  · simp [h₁, h₂]
  · simp [h₁, h₂]
  · simp [h₁, h₂]
  · simp only [h₁, h₂, if_false]
    rw [writeSlot_comm emptySlot fun hd => (hslots hd.symm).symm]

end WordPosMapWriter

end Lucivy.SuffixFst
