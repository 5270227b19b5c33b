import Mathlib.Data.Prod.Lex
import Lucivy.Foundation.Runs
import Lucivy.Foundation.SortDedup
import Lucivy.SuffixFst.Varint

/-! # Parent records

The record of a key of the suffix FST, container version 8 (`suffix_fst/builder_v3.rs`): the tokens
the key is a suffix of. Up to 32 parents stand in one list, each with its overlap; more are grouped
by overlap. Ordinals are differences, `own_len` is left out where the key gives it, and a separator
length below 7 goes into the flags. Numbers wrap at their width, as in a release build.

* `encodeParentRecordV8`, `decodeParentEntriesV8Where` — the writer and the reader.
* `readParentFields_write` — the fields of one parent.
* `decode_encodeParentRecordV8` — **a record is read back**, sorted, to its last byte. -/

namespace Lucivy.SuffixFst

open Lucivy.Foundation List UInt8 BitVec Option Nat

namespace ParentRecord

/-- `MAX_OVERLAP_BYTES`. -/
def maxOverlap : Nat := 4

/-- `FLAT_RECORD_MAX_PARENTS`. -/
def flatMaxParents : Nat := 32

/-- `ParentEntryV3`; of the four overlap bytes those that `overlap_len` counts. -/
structure ParentEntryV3 where
  rawOrdinal : UInt64
  /-- Where the suffix starts in it. -/
  sti : UInt16
  /-- Bytes of content and separators. -/
  ownLen : UInt16
  sepLen : UInt8
  /-- The bytes borrowed from the next token. -/
  overlap : Bytes
  isWordStart : Bool
  /-- There is room for four. -/
  overlap_le : overlap.length ≤ maxOverlap
deriving DecidableEq, Repr

open ParentEntryV3

/-- A `Vec` of parents: at most `isize::MAX` bytes, 24 to an entry. -/
structure ParentVec where
  entries : List ParentEntryV3
  /-- They fit into memory. -/
  bytes_lt : 24 * entries.length < 2 ^ 63

/-! ## The writer -/

/-- `derived_own_len`: the length the key implies; a word's key is without separators. -/
def derivedOwnLen (key : Bytes) (sti : UInt16) (sepLen : UInt8) : UInt16 :=
  let body := UInt16.ofNat (key.length - 1)
  if key.head? = some 0x02 then body + sti + sepLen.toUInt16 else body + sti

def parentFlags (ovLen : Nat) (sepLen : UInt8) (isWordStart explicit : Bool) : UInt8 :=
  (ofNat ovLen <<< 3 ||| (if sepLen < 7 then sepLen else 7)) |||
    (if isWordStart then 0x80 else 0) ||| (if explicit then 0x40 else 0)

/-- The length has to be spelled out. -/
def ParentEntryV3.isExplicit (p : ParentEntryV3) (key : Bytes) : Bool :=
  derivedOwnLen key p.sti p.sepLen != p.ownLen

def writeParentFields (p : ParentEntryV3) (key : Bytes) (withOverlap : Bool) : Bytes :=
  writeVarint p.sti.toNat ++
    (parentFlags p.overlap.length p.sepLen p.isWordStart (p.isExplicit key) ::
      ((if p.isExplicit key then writeVarint p.ownLen.toNat else []) ++
        ((if p.sepLen < 7 then [] else writeVarint p.sepLen.toNat) ++
          (if withOverlap then p.overlap else []))))

/-- Parents, each ordinal against the one before. -/
def writeParents (key : Bytes) (withOverlap : Bool) : UInt64 → List ParentEntryV3 → Bytes
  | _, [] => []
  | prev, p :: ps =>
    writeVarint (p.rawOrdinal - prev).toNat ++
      (writeParentFields p key withOverlap ++ writeParents key withOverlap p.rawOrdinal ps)

def zigzag (delta : Int64) : UInt64 := ((delta <<< 1) ^^^ (delta >>> 63)).toUInt64

/-- The first ordinal of a group. -/
def firstOrdinal (group : List ParentEntryV3) : UInt64 :=
  (group.head?.map rawOrdinal).getD 0

def groupOverlap (group : List ParentEntryV3) : Bytes :=
  (group.head?.map overlap).getD []

/-- Groups, each first ordinal against that of the one before; the last one has no length. -/
def writeGroups (key : Bytes) : Int64 → List (List ParentEntryV3) → Bytes
  | _, [] => []
  | prevFirst, group :: groups =>
    let first := firstOrdinal group
    let body := writeParents key false first group
    ofNat (groupOverlap group).length ::
      (groupOverlap group ++ (writeVarint group.length ++
        (writeVarint (zigzag (first.toInt64 - prevFirst)).toNat ++
          ((if groups.isEmpty then [] else writeVarint body.length) ++
            (body ++ writeGroups key first.toInt64 groups)))))

/-- The order of a short list: by ordinal, then by `sti`. -/
def ordinalLe (a b : ParentEntryV3) : Bool :=
  lexLe [a.rawOrdinal.toNat, a.sti.toNat] [b.rawOrdinal.toNat, b.sti.toNat]

/-- The order of a long one: by overlap first. -/
def overlapLe (a b : ParentEntryV3) : Bool :=
  if a.overlap = b.overlap then ordinalLe a b
  else lexLe (a.overlap.map toNat) (b.overlap.map toNat)

/-- The parents as the record has them; both sorts are stable. -/
def sortParents (parents : List ParentEntryV3) : List ParentEntryV3 :=
  if parents.length ≤ flatMaxParents then parents.insertionSort fun a b => ordinalLe a b = true
  else parents.insertionSort fun a b => overlapLe a b = true

/-- The head of a grouped record. -/
def groupedHead (count : Nat) : Bytes :=
  if count ≤ 127 then [0x80 ||| ofNat count] else 0x80 :: writeVarint count

/-- **`encode_parent_record_v8`.** -/
def encodeParentRecordV8 (parents : List ParentEntryV3) (key : Bytes) : Bytes :=
  let sorted := sortParents parents
  if parents.length ≤ flatMaxParents then
    ofNat parents.length :: writeParents key true 0 sorted
  else
    let groups := runsBy overlap sorted
    groupedHead groups.length ++ writeGroups key 0 groups

/-! ## The reader

Reading behind the end panics and gives nothing here. -/

/-- The loop of `read_varint_inline` over the bytes that are left. -/
def varintInlineLoop : Bytes → Nat → Nat → Nat → Option (Nat × Nat)
  | [], _, _, _ => none
  | b :: bs, shift, v, pos =>
    let v' := v ||| ((b &&& 0x7f).toNat <<< (shift % 64)) % 2 ^ 64
    if b < 0x80 then some (v', pos + 1) else varintInlineLoop bs (shift + 7) v' (pos + 1)

/-- `read_varint_inline`: the value and the position behind it. -/
def readVarintInline (data : Bytes) (pos : Nat) : Option (Nat × Nat) :=
  match data[pos]? with
  | none => none
  | some b =>
    if b < 0x80 then some (b.toNat, pos + 1)
    else varintInlineLoop (data.drop (pos + 1)) 7 (b &&& 0x7f).toNat (pos + 1)

def unzigzag (v : UInt64) : Int64 := (v >>> 1).toInt64 ^^^ -((v &&& 1).toInt64)

/-- The bytes of a slice. -/
def sliceAt (data : Bytes) (pos len : Nat) : Option Bytes :=
  if pos + len ≤ data.length then some ((data.drop pos).take len) else none

/-- What `read_parent_fields` gives. -/
structure ParentFields where
  /-- Where the suffix starts. -/
  sti : UInt16
  /-- Bytes of content and separators. -/
  ownLen : UInt16
  sepLen : UInt8
  flags : UInt8
  /-- The position behind. -/
  pos : Nat
deriving DecidableEq, Repr

/-- A varint that is there or not. -/
def readVarintIf (present : Bool) (data : Bytes) (pos fallback : Nat) : Option (Nat × Nat) :=
  if present then readVarintInline data pos else some (fallback, pos)

def readParentFields (data : Bytes) (pos : Nat) (key : Bytes) : Option ParentFields := do
  let sti ← readVarintInline data pos
  let flags ← data[sti.2]?
  let own ← readVarintIf (flags &&& 0x40 != 0) data (sti.2 + 1) 0
  let sep ← readVarintIf (flags &&& 0x07 == 7) data own.2 (flags &&& 0x07).toNat
  let sti' := UInt16.ofNat sti.1
  let sepLen := ofNat sep.1
  let ownLen := if flags &&& 0x40 = 0 then derivedOwnLen key sti' sepLen else UInt16.ofNat own.1
  return ⟨sti', ownLen, sepLen, flags, sep.2⟩

/-- The parent of some fields; `copy_from_slice` into four bytes. -/
def ParentFields.entry (f : ParentFields) (ordinal : UInt64) (overlap : Bytes) :
    Option ParentEntryV3 :=
  if h : overlap.length ≤ maxOverlap then
    some ⟨ordinal, f.sti, f.ownLen, f.sepLen, overlap, f.flags &&& 0x80 != 0, h⟩
  else none

/-- The parents of a flat record. -/
def readFlat (data key : Bytes) (keep : Bytes → Bool) :
    Nat → UInt64 → Nat → Option (List ParentEntryV3 × Nat)
  | 0, _, pos => some ([], pos)
  | n + 1, ordinal, pos => do
      let delta ← readVarintInline data pos
      let ordinal' := ordinal + UInt64.ofNat delta.1
      let fields ← readParentFields data delta.2 key
      let ovLen := (fields.flags >>> 3 &&& 0x07).toNat
      let overlap ← sliceAt data fields.pos ovLen
      let entry ← fields.entry ordinal' overlap
      let rest ← readFlat data key keep n ordinal' (fields.pos + ovLen)
      return (if keep overlap then entry :: rest.1 else rest.1, rest.2)

/-- The parents of a group. -/
def readGroup (data key overlap : Bytes) :
    Nat → UInt64 → Nat → Option (List ParentEntryV3 × Nat)
  | 0, _, pos => some ([], pos)
  | n + 1, ordinal, pos => do
      let delta ← readVarintInline data pos
      let ordinal' := ordinal + UInt64.ofNat delta.1
      let fields ← readParentFields data delta.2 key
      let entry ← fields.entry ordinal' overlap
      let rest ← readGroup data key overlap n ordinal' fields.pos
      return (entry :: rest.1, rest.2)

/-- The groups of a record, the unwanted ones skipped; the loop ends at an unwanted last one. -/
def readGroups (data key : Bytes) (keep : Bytes → Bool) :
    Nat → Int64 → Nat → Option (List ParentEntryV3 × Nat)
  | 0, _, pos => some ([], pos)
  | groups + 1, prevFirst, pos => do
      let ovByte ← data[pos]?
      let ovLen := min ovByte.toNat maxOverlap
      let overlap ← sliceAt data (pos + 1) ovLen
      let n ← readVarintInline data (pos + 1 + ovLen)
      let delta ← readVarintInline data n.2
      let first := prevFirst + unzigzag (UInt64.ofNat delta.1)
      let byteLen ← readVarintIf (groups != 0) data delta.2 0
      if keep overlap then
        let here ← readGroup data key overlap n.1 first.toUInt64 byteLen.2
        let rest ← readGroups data key keep groups first here.2
        return (here.1 ++ rest.1, rest.2)
      else if groups ≠ 0 then readGroups data key keep groups first (byteLen.2 + byteLen.1)
      else return ([], byteLen.2)

/-- **`decode_parent_entries_v8_where`**: the parents and the position it stops at. -/
def decodeParentEntriesV8Where (data key : Bytes) (keep : Bytes → Bool) :
    Option (List ParentEntryV3 × Nat) := do
  let head ← data[0]?
  let count ← readVarintIf (head &&& 0x7f == 0) data 1 (head &&& 0x7f).toNat
  if head &&& 0x80 = 0 then readFlat data key keep count.1 0 count.2
  else readGroups data key keep count.1 0 count.2

def decodeParentEntriesV8 (data key : Bytes) : Option (List ParentEntryV3 × Nat) :=
  decodeParentEntriesV8Where data key fun _ => true

/-! ## Numbers -/

section Numbers

variable {data : Bytes} {pos : Nat}

theorem lt_top_iff (b : UInt8) : b < 0x80 ↔ b &&& 0x80 = 0 := by
  rw [(byte_bits b).2, lt_iff_toNat_lt]
  rfl

/-- Where the checked loop reads a value, the unchecked one reads the same. -/
theorem varintInlineLoop_eq {m k v : Nat} {r : Nat × Nat} (hm : k + m = 10)
    (h : readVarintLoop 64 data ((List.range' k m).map (7 * ·)) v pos = some r) :
    varintInlineLoop (data.drop pos) (7 * k) v pos = some r := by
  induction m generalizing k v pos with
  | zero => cases h
  | succ m ih =>
    rw [List.range'_succ, map_cons, readVarintLoop] at h
    cases hb : data[pos]? with
    | none =>
      rw [hb] at h
      cases h
    | some b =>
      obtain ⟨hpos, hget⟩ := List.getElem?_eq_some_iff.mp hb
      rw [hb] at h
      rw [drop_eq_getElem_cons hpos, hget, varintInlineLoop,
        mod_eq_of_lt (show 7 * k < 64 by omega)]
      dsimp only at h ⊢
      by_cases hend : b &&& 0x80 = 0
      · rw [if_pos hend] at h
        rw [if_pos ((lt_top_iff b).mpr hend), h]
      · rw [if_neg hend] at h
        rw [if_neg (mt (lt_top_iff b).mp hend), ← Nat.mul_succ]
        exact ih (by omega) h

/-- The first byte is read like the others. -/
theorem readVarintInline_eq (data : Bytes) (pos : Nat) :
    readVarintInline data pos = varintInlineLoop (data.drop pos) 0 0 pos := by
  rw [readVarintInline]
  cases hb : data[pos]? with
  | none =>
    rw [drop_eq_nil_of_le (getElem?_eq_none_iff.mp hb)]
    rfl
  | some b =>
    obtain ⟨hpos, hget⟩ := List.getElem?_eq_some_iff.mp hb
    have hlow : (b &&& 0x7f).toNat % 2 ^ 64 = (b &&& 0x7f).toNat :=
      mod_eq_of_lt (lt_trans (b &&& 0x7f).toNat_lt (by decide))
    rw [drop_eq_getElem_cons hpos, hget, varintInlineLoop]
    dsimp only
    rw [Nat.zero_mod, Nat.shiftLeft_zero, hlow, Nat.zero_or, zero_add]
    by_cases hend : b < 0x80
    · have hsmall : b.toNat < 128 := UInt8.lt_iff_toNat_lt.mp hend
      rw [if_pos hend, if_pos hend, (byte_bits b).1, mod_eq_of_lt hsmall]
    · rw [if_neg hend, if_neg hend]

/-- **A varint of 64 bits is read back.** -/
theorem readVarintInline_write {v : Nat} (hv : v < 2 ^ 64) (h : BytesAt data pos (writeVarint v)) :
    readVarintInline data pos = some (v, pos + (writeVarint v).length) := by
  rw [readVarintInline_eq]
  exact varintInlineLoop_eq (m := 10) (k := 0) rfl (readVarint_write hv h)

theorem readVarintIf_write {present : Bool} {v : Nat} (fallback : Nat) (hv : v < 2 ^ 64)
    (h : BytesAt data pos (if present then writeVarint v else [])) :
    readVarintIf present data pos fallback =
      some (if present then v else fallback,
        pos + (if present then writeVarint v else []).length) := by
  cases present with
  | false => rfl
  | true => exact readVarintInline_write hv h

/-- At most one byte for seven bits. -/
theorem length_writeVarint_le {v k : Nat} (hv : v < 2 ^ (7 * (k + 1))) :
    (writeVarint v).length ≤ k + 1 := by
  induction k generalizing v with
  | zero =>
    rw [writeVarint_of_lt (by simpa using hv)]
    exact le_refl 1
  | succ k ih =>
    by_cases hsmall : v < 0x80
    · rw [writeVarint_of_lt hsmall]
      exact succ_le_succ (zero_le _)
    · rw [writeVarint_of_le (Nat.le_of_not_lt hsmall), length_cons]
      refine succ_le_succ (ih ?_)
      rw [div_lt_iff_lt_mul (by decide)]
      calc v < 2 ^ (7 * (k + 1 + 1)) := hv
        _ = 2 ^ (7 * (k + 1)) * 128 := by rw [Nat.mul_succ 7 (k + 1), Nat.pow_add]

/-- The sign of a number in every bit. -/
theorem getElem_sshiftRight_sign (x : BitVec 64) (i : Nat) (hi : i < 64) :
    (x.sshiftRight 63)[i] = x.msb := by
  rw [getElem_sshiftRight]
  split
  · obtain rfl : i = 0 := by omega
    rfl
  · rfl

/-- The lowest bit of a number in every bit. -/
theorem getElem_neg_lowest (x : BitVec 64) (i : Nat) (hi : i < 64) : (-(x &&& 1#64))[i] = x[0] := by
  rw [and_one_eq_setWidth_ofBool_getLsbD, getLsbD_eq_getElem (by decide)]
  cases x[0] with
  | false => simp
  | true => rw [show -(setWidth 64 (ofBool true)) = allOnes 64 by decide, getElem_allOnes]

theorem unzigzag_bits (x : BitVec 64) :
    ((x <<< 1 ^^^ x.sshiftRight 63) >>> 1) ^^^ -((x <<< 1 ^^^ x.sshiftRight 63) &&& 1#64) = x := by
  ext i hi
  rw [getElem_xor, getElem_neg_lowest, getElem_xor, getElem_sshiftRight_sign, getElem_ushiftRight]
  by_cases hlast : i = 63
  · subst hlast
    simp [msb_eq_getLsbD_last]
  · have hlt : 1 + i < 64 := by omega
    rw [getLsbD_eq_getElem hlt, getElem_xor, getElem_sshiftRight_sign]
    simp

/-- **`unzigzag` undoes `zigzag`.** -/
theorem unzigzag_zigzag (delta : Int64) : unzigzag (zigzag delta) = delta := by
  rw [← Int64.toBitVec_inj]
  have hbits := unzigzag_bits delta.toBitVec
  simp only [zigzag, unzigzag]
  simpa using hbits

theorem sliceAt_eq {bs : Bytes} (h : BytesAt data pos bs) (hpos : pos ≤ data.length) :
    sliceAt data pos bs.length = some bs := by
  have hlen : pos + bs.length ≤ data.length := by
    cases bs with
    | nil => exact hpos
    | cons b bs => exact h.le_length (cons_ne_nil _ _)
  rw [sliceAt, if_pos hlen, h.take_drop]

end Numbers

/-! ## One parent -/

section Parent

variable {data key : Bytes} {pos : Nat} {p : ParentEntryV3}

/-- What the flags say, of every combination. -/
theorem parentFlags_bits {ovLen : Nat} (hov : ovLen ≤ maxOverlap) (sepLen : UInt8)
    (isWordStart explicit : Bool) :
    let flags := parentFlags ovLen sepLen isWordStart explicit
    (flags &&& 0x40 != 0) = explicit ∧ (flags &&& 0x80 != 0) = isWordStart ∧
      (flags >>> 3 &&& 0x07).toNat = ovLen ∧
      flags &&& 0x07 = if sepLen < 7 then sepLen else 7 := by
  have htable : ∀ (o : Fin 5) (s : Fin 8) (w e : Bool),
      let flags := (ofNat o.val <<< 3 ||| ofNat s.val) ||| (if w then 0x80 else 0) |||
        (if e then 0x40 else 0)
      (flags &&& 0x40 != 0) = e ∧ (flags &&& 0x80 != 0) = w ∧
        (flags >>> 3 &&& 0x07).toNat = o.val ∧ flags &&& 0x07 = ofNat s.val := by
    decide +kernel
  have hsmall : (if sepLen < 7 then sepLen else 7).toNat < 8 := by
    split
    · next h => exact lt_trans (UInt8.lt_iff_toNat_lt.mp h) (by decide)
    · decide
  have hentry := htable ⟨ovLen, lt_succ_of_le hov⟩
    ⟨(if sepLen < 7 then sepLen else 7).toNat, hsmall⟩ isWordStart explicit
  simpa only [parentFlags, UInt8.ofNat_toNat] using hentry

/-- The overlap is behind the other fields. -/
theorem writeParentFields_true (p : ParentEntryV3) (key : Bytes) :
    writeParentFields p key true = writeParentFields p key false ++ p.overlap := by
  simp [writeParentFields]

/-- **The fields of one parent are read back.** -/
theorem readParentFields_write (h : BytesAt data pos (writeParentFields p key false)) :
    readParentFields data pos key =
      some ⟨p.sti, p.ownLen, p.sepLen,
        parentFlags p.overlap.length p.sepLen p.isWordStart (p.isExplicit key),
        pos + (writeParentFields p key false).length⟩ := by
  obtain ⟨hexplicit, -, -, hsep⟩ :=
    parentFlags_bits p.overlap_le p.sepLen p.isWordStart (p.isExplicit key)
  have hwrite : writeParentFields p key false = writeParentFields p key false := rfl
  conv at hwrite => rhs; rw [writeParentFields]
  generalize parentFlags p.overlap.length p.sepLen p.isWordStart (p.isExplicit key) = flags at *
  rw [hwrite] at h ⊢
  have hsti := readVarintInline_write (lt_trans p.sti.toNat_lt (by decide)) h.left
  have hflags := h.right.getElem?
  have hown := readVarintIf_write 0 (lt_trans p.ownLen.toNat_lt (by decide)) h.right.tail.left
  -- the separator length is behind the flags if they have the escape
  have hpresent : (flags &&& 0x07 == 7) = !decide (p.sepLen < 7) := by
    rw [hsep]
    by_cases hlt : p.sepLen < 7
    · have hne : p.sepLen ≠ 7 := by
        rintro heq
        rw [heq] at hlt
        exact absurd hlt (by decide)
      simp [hlt, hne]
    · simp [hlt]
  have hsepBytes : BytesAt data (pos + (writeVarint p.sti.toNat).length + 1 +
      (if p.isExplicit key then writeVarint p.ownLen.toNat else []).length)
      (if !decide (p.sepLen < 7) then writeVarint p.sepLen.toNat else []) := by
    have := h.right.tail.right.left
    by_cases hlt : p.sepLen < 7 <;> simpa [hlt] using this
  have hsepRead := readVarintIf_write (flags &&& 0x07).toNat
    (lt_trans p.sepLen.toNat_lt (by decide)) hsepBytes
  have hsepLen : ofNat (if !decide (p.sepLen < 7) then p.sepLen.toNat
      else (flags &&& 0x07).toNat) = p.sepLen := by
    rw [hsep]
    by_cases hlt : p.sepLen < 7 <;> simp [hlt]
  have hownLen : (if flags &&& 0x40 = 0 then derivedOwnLen key p.sti p.sepLen
      else UInt16.ofNat (if p.isExplicit key then p.ownLen.toNat else 0)) = p.ownLen := by
    cases hcase : p.isExplicit key with
    | true =>
      rw [hcase] at hexplicit
      rw [if_neg (by simpa using hexplicit), if_pos rfl, UInt16.ofNat_toNat]
    | false =>
      rw [hcase] at hexplicit
      rw [if_pos (by simpa using hexplicit)]
      simpa [isExplicit] using hcase
  simp only [readParentFields, hsti, hflags, hexplicit, hown, hpresent, hsepRead,
    bind_eq_bind, bind_some]
  simp only [UInt16.ofNat_toNat, hsepLen, hownLen]
  by_cases hlt : p.sepLen < 7 <;> simp [hlt] <;> omega

/-- The parent of the fields read back. -/
theorem entry_write (p : ParentEntryV3) (key : Bytes) (pos : Nat) :
    ParentFields.entry ⟨p.sti, p.ownLen, p.sepLen,
      parentFlags p.overlap.length p.sepLen p.isWordStart (p.isExplicit key), pos⟩
      p.rawOrdinal p.overlap = some p := by
  obtain ⟨-, hstart, -, -⟩ :=
    parentFlags_bits p.overlap_le p.sepLen p.isWordStart (p.isExplicit key)
  rw [ParentFields.entry, dif_pos p.overlap_le]
  simp only [hstart]

/-- `wrapping_add` undoes `wrapping_sub`, through the varint. -/
theorem add_ofNat_sub (a b : UInt64) : a + UInt64.ofNat (b - a).toNat = b := by
  rw [UInt64.ofNat_toNat, UInt64.add_comm, UInt64.sub_add_cancel]

end Parent

/-! ## Lists of parents -/

section Lists

variable {data key : Bytes} (keep : Bytes → Bool)

/-- Nothing is read behind what there is. -/
theorem fields_end_le {pos : Nat} {p : ParentEntryV3} {withOverlap : Bool}
    (h : BytesAt data pos (writeParentFields p key withOverlap)) :
    pos + (writeParentFields p key withOverlap).length ≤ data.length := by
  refine h.le_length ?_
  exact fun hnil => writeVarint_ne_nil _ (append_eq_nil_iff.mp hnil).1

/-- **The parents of a flat record are read back**, as far as they are kept. -/
theorem readFlat_write {ps : List ParentEntryV3} {prev : UInt64} {pos : Nat}
    (h : BytesAt data pos (writeParents key true prev ps)) :
    readFlat data key keep ps.length prev pos =
      some (ps.filter fun p => keep p.overlap, pos + (writeParents key true prev ps).length) := by
  induction ps generalizing prev pos with
  | nil => rfl
  | cons p ps ih =>
    rw [writeParents] at h ⊢
    have hdelta := readVarintInline_write (p.rawOrdinal - prev).toNat_lt h.left
    have hparent := h.right.left
    have hend := fields_end_le hparent
    have hrest := ih h.right.right
    rw [writeParentFields_true] at hparent hrest hend
    have hfields := readParentFields_write hparent.left
    have hoverlap : sliceAt data (pos + (writeVarint (p.rawOrdinal - prev).toNat).length +
        (writeParentFields p key false).length) p.overlap.length = some p.overlap := by
      refine sliceAt_eq hparent.right ?_
      rw [length_append] at hend
      omega
    obtain ⟨-, -, hlen, -⟩ :=
      parentFlags_bits p.overlap_le p.sepLen p.isWordStart (p.isExplicit key)
    rw [length_append, ← add_assoc] at hrest
    simp only [length_cons, readFlat, hdelta, hfields, hlen, hoverlap, add_ofNat_sub,
      entry_write, hrest, Option.bind_eq_bind, Option.bind_some, Option.pure_def,
      Option.some.injEq, Prod.mk.injEq]
    refine ⟨by rw [filter_cons], ?_⟩
    rw [writeParentFields_true]
    simp only [length_append]
    omega

/-- **The parents of a group are read back.** -/
theorem readGroup_write {ps : List ParentEntryV3} {overlap : Bytes}
    (hoverlap : ∀ p ∈ ps, p.overlap = overlap) {prev : UInt64} {pos : Nat}
    (h : BytesAt data pos (writeParents key false prev ps)) :
    readGroup data key overlap ps.length prev pos =
      some (ps, pos + (writeParents key false prev ps).length) := by
  induction ps generalizing prev pos with
  | nil => rfl
  | cons p ps ih =>
    rw [writeParents] at h ⊢
    have hdelta := readVarintInline_write (p.rawOrdinal - prev).toNat_lt h.left
    have hfields := readParentFields_write h.right.left
    have hrest := ih (forall_mem_cons.mp hoverlap).2 h.right.right
    obtain rfl := hoverlap p mem_cons_self
    simp only [length_cons, readGroup, hdelta, hfields, add_ofNat_sub, entry_write, hrest,
      Option.bind_eq_bind, Option.bind_some, Option.pure_def, Option.some.injEq, Prod.mk.injEq,
      true_and, length_append]
    omega

/-- A parent takes at most 19 bytes beside its overlap. -/
theorem length_writeParents_le (key : Bytes) (prev : UInt64) (ps : List ParentEntryV3) :
    (writeParents key false prev ps).length ≤ 19 * ps.length := by
  induction ps generalizing prev with
  | nil => exact zero_le _
  | cons p ps ih =>
    have hdelta : (writeVarint (p.rawOrdinal - prev).toNat).length ≤ 10 :=
      length_writeVarint_le (k := 9) (lt_trans (p.rawOrdinal - prev).toNat_lt (by decide))
    have hsti : (writeVarint p.sti.toNat).length ≤ 3 :=
      length_writeVarint_le (k := 2) (lt_trans p.sti.toNat_lt (by decide))
    have hown : (writeVarint p.ownLen.toNat).length ≤ 3 :=
      length_writeVarint_le (k := 2) (lt_trans p.ownLen.toNat_lt (by decide))
    have hsep : (writeVarint p.sepLen.toNat).length ≤ 2 :=
      length_writeVarint_le (k := 1) (lt_trans p.sepLen.toNat_lt (by decide))
    have hfields : (writeParentFields p key false).length ≤ 9 := by
      simp only [writeParentFields]
      split <;> split <;> simp <;> omega
    have hrest := ih p.rawOrdinal
    simp only [writeParents, length_append, length_cons]
    omega

/-- What is known of the groups of a record. -/
structure IsGroup (group : List ParentEntryV3) : Prop where
  ne_nil : group ≠ []
  /-- Its parents have its overlap. -/
  overlap : ∀ p ∈ group, p.overlap = groupOverlap group
  /-- It fits into memory. -/
  bytes_lt : 24 * group.length < 2 ^ 63

theorem IsGroup.overlap_le {group : List ParentEntryV3} (h : IsGroup group) :
    (groupOverlap group).length ≤ maxOverlap := by
  obtain ⟨p, hp⟩ := exists_mem_of_ne_nil group h.ne_nil
  rw [← h.overlap p hp]
  exact p.overlap_le

/-- **The groups of a record are read back**, as far as they are kept; if all are, to the end. -/
theorem readGroups_write {groups : List (List ParentEntryV3)}
    (hgroups : ∀ group ∈ groups, IsGroup group) {prevFirst : Int64} {pos : Nat}
    (h : BytesAt data pos (writeGroups key prevFirst groups)) :
    ∃ stop, readGroups data key keep groups.length prevFirst pos =
        some (groups.flatten.filter (fun p => keep p.overlap), stop) ∧
      ((∀ overlap, keep overlap = true) →
        stop = pos + (writeGroups key prevFirst groups).length) := by
  induction groups generalizing prevFirst pos with
  | nil => exact ⟨pos, rfl, fun _ => rfl⟩
  | cons group groups ih =>
    have hgroup := hgroups group mem_cons_self
    have hothers : ∀ g ∈ groups, IsGroup g := (forall_mem_cons.mp hgroups).2
    rw [writeGroups] at h ⊢
    generalize hbody : writeParents key false (firstOrdinal group) group = body at *
    have hlenBody : body.length < 2 ^ 64 := by
      have hle := length_writeParents_le key (firstOrdinal group) group
      have hfits := hgroup.bytes_lt
      rw [hbody] at hle
      omega
    have hovNat : (ofNat (groupOverlap group).length).toNat = (groupOverlap group).length := by
      have := hgroup.overlap_le
      rw [toNat_ofNat']
      simp only [maxOverlap] at this
      omega
    have hmin : min (groupOverlap group).length maxOverlap = (groupOverlap group).length :=
      min_eq_left hgroup.overlap_le
    have hslice : sliceAt data (pos + 1) (groupOverlap group).length =
        some (groupOverlap group) := by
      refine sliceAt_eq h.tail.left ?_
      have := h.le_length (cons_ne_nil _ _)
      rw [length_cons] at this
      omega
    have hcount := readVarintInline_write (by have := hgroup.bytes_lt; omega) h.tail.right.left
    have hfirst := readVarintInline_write (zigzag _).toNat_lt h.tail.right.right.left
    have hlast : (groups.length != 0) = !groups.isEmpty := by
      cases groups <;> rfl
    have hpresent : (if groups.isEmpty then [] else writeVarint body.length) =
        if !groups.isEmpty then writeVarint body.length else [] := by
      cases groups.isEmpty <;> rfl
    rw [hpresent] at h ⊢
    have hlenBytes := readVarintIf_write 0 hlenBody h.tail.right.right.right.left
    have hordinal : prevFirst + unzigzag (UInt64.ofNat
        (zigzag ((firstOrdinal group).toInt64 - prevFirst)).toNat) =
          (firstOrdinal group).toInt64 := by
      rw [UInt64.ofNat_toNat, unzigzag_zigzag, Int64.add_comm, Int64.sub_add_cancel]
    simp only [length_cons, readGroups, h.getElem?, hovNat, hmin, hslice, hcount, hfirst,
      hlast, hlenBytes, hordinal, bind_eq_bind, bind_some]
    have hbodyAt := h.tail.right.right.right.right.left
    have hrestAt := h.tail.right.right.right.right.right
    cases hkeep : keep (groupOverlap group) with
    | true =>
      subst hbody
      have hhere := readGroup_write hgroup.overlap hbodyAt
      obtain ⟨stop, hstop, hend⟩ := ih hothers hrestAt
      have hfilter : group.filter (fun p => keep p.overlap) = group :=
        filter_eq_self.mpr fun p hp => by rw [hgroup.overlap p hp, hkeep]
      refine ⟨stop, ?_, fun hall => ?_⟩
      · rw [if_pos rfl, UInt64.toUInt64_toInt64, hhere]
        simp only [bind_some]
        rw [hstop, bind_some, flatten_cons, filter_append, hfilter]
        rfl
      · rw [hend hall]
        simp only [length_append]
        omega
    | false =>
      have hfilter : group.filter (fun p => keep p.overlap) = [] :=
        filter_eq_nil_iff.mpr fun p hp => by rw [hgroup.overlap p hp, hkeep]; decide
      rw [if_neg (by decide), flatten_cons, filter_append, hfilter, nil_append]
      have hsome : ¬ ∀ overlap, keep overlap = true := fun hall => by
        rw [hall] at hkeep
        cases hkeep
      cases groups with
      | nil => exact ⟨_, rfl, fun hall => absurd hall hsome⟩
      | cons g groups =>
        obtain ⟨stop, hstop, -⟩ := ih hothers hrestAt
        exact ⟨stop, by simpa using hstop, fun hall => absurd hall hsome⟩

end Lists

/-! ## The record -/

theorem ordinalLe_total (a b : ParentEntryV3) : ordinalLe a b = true ∨ ordinalLe b a = true :=
  lexLe_total _ _

theorem ordinalLe_trans {a b c : ParentEntryV3} (hab : ordinalLe a b = true)
    (hbc : ordinalLe b c = true) : ordinalLe a c = true :=
  lexLe_trans hab hbc

/-- The order by overlap first, as pairs are ordered. -/
theorem overlapLe_iff (a b : ParentEntryV3) : overlapLe a b = true ↔
    toLex (a.overlap.map toNat, [a.rawOrdinal.toNat, a.sti.toNat]) ≤
      toLex (b.overlap.map toNat, [b.rawOrdinal.toNat, b.sti.toNat]) := by
  have hinj : a.overlap.map toNat = b.overlap.map toNat ↔ a.overlap = b.overlap :=
    (map_injective_iff.mpr fun _ _ => UInt8.toNat_inj.mp).eq_iff
  rw [Prod.Lex.toLex_le_toLex, overlapLe, hinj]
  by_cases heq : a.overlap = b.overlap
  · simp [heq, ordinalLe, lexLe_iff_le]
  · simp [heq, lexLe_iff_lt_or_eq, hinj]

theorem overlapLe_total (a b : ParentEntryV3) : overlapLe a b = true ∨ overlapLe b a = true := by
  rw [overlapLe_iff, overlapLe_iff]
  exact le_total _ _

theorem overlapLe_trans {a b c : ParentEntryV3} (hab : overlapLe a b = true)
    (hbc : overlapLe b c = true) : overlapLe a c = true := by
  rw [overlapLe_iff] at hab hbc ⊢
  exact hab.trans hbc

theorem perm_sortParents (parents : List ParentEntryV3) : (sortParents parents).Perm parents := by
  unfold sortParents
  split
  · exact perm_insertionSort _ parents
  · exact perm_insertionSort _ parents

/-- A record is sorted by ordinal and `sti` up to 32 parents, and by overlap before them above. -/
def RecordSorted (limit : Nat) (parents : List ParentEntryV3) : Prop :=
  (limit ≤ flatMaxParents → parents.Pairwise fun a b => ordinalLe a b = true) ∧
    (flatMaxParents < limit → parents.Pairwise fun a b => overlapLe a b = true)

theorem sorted_sortParents (parents : List ParentEntryV3) :
    RecordSorted parents.length (sortParents parents) := by
  unfold sortParents
  refine ⟨fun hflat => ?_, fun hgrouped => ?_⟩
  · rw [if_pos hflat]
    exact pairwise_insertionSort_of ordinalLe_total ordinalLe_trans parents
  · rw [if_neg (not_le.mpr hgrouped)]
    exact pairwise_insertionSort_of overlapLe_total overlapLe_trans parents

/-- The groups of a long record. -/
theorem isGroup_of_mem (parents : ParentVec) {group : List ParentEntryV3}
    (h : group ∈ runsBy overlap (sortParents parents.entries)) : IsGroup group := by
  have hne := ne_nil_of_mem_runsBy h
  refine ⟨hne, fun p hp => ?_, ?_⟩
  · cases group with
    | nil => exact absurd rfl hne
    | cons q group => exact key_eq_of_mem_runsBy h hp mem_cons_self
  · have hle : group.length ≤ parents.entries.length := by
      rw [← (perm_sortParents parents.entries).length_eq]
      have hflat := flatten_runsBy overlap (sortParents parents.entries)
      have hsub := sublist_flatten_of_mem h
      rw [hflat] at hsub
      exact hsub.length_le
    have := parents.bytes_lt
    omega

theorem length_le_flatten {groups : List (List ParentEntryV3)} (h : ∀ group ∈ groups, group ≠ []) :
    groups.length ≤ groups.flatten.length := by
  rw [length_flatten, ← length_map List.length]
  refine length_le_sum_of_one_le _ (forall_mem_map.mpr fun group hgroup => ?_)
  exact length_pos_iff.mpr (h group hgroup)

/-- The head of a grouped record is read back. -/
theorem groupedHead_read {data : Bytes} {count : Nat} (hpos : 0 < count) (hlt : count < 2 ^ 64)
    (h : BytesAt data 0 (groupedHead count)) :
    ∃ head, data[0]? = some head ∧ head &&& 0x80 ≠ 0 ∧
      readVarintIf (head &&& 0x7f == 0) data 1 (head &&& 0x7f).toNat =
        some (count, (groupedHead count).length) := by
  rw [groupedHead] at h ⊢
  by_cases hsmall : count ≤ 127
  · rw [if_pos hsmall] at h ⊢
    have htable : ∀ i : Fin 128, 0 < i.val → (0x80 ||| ofNat i.val) &&& 0x80 ≠ 0 ∧
        ((0x80 ||| ofNat i.val) &&& 0x7f == 0) = false ∧
        ((0x80 ||| ofNat i.val) &&& 0x7f).toNat = i.val := by decide +kernel
    obtain ⟨htop, hzero, hnat⟩ := htable ⟨count, lt_succ_of_le hsmall⟩ hpos
    refine ⟨_, h.getElem?, htop, ?_⟩
    rw [hzero, hnat]
    rfl
  · rw [if_neg hsmall] at h ⊢
    refine ⟨_, h.getElem?, by decide, ?_⟩
    have hread := readVarintInline_write hlt h.tail
    rw [show ((0x80 : UInt8) &&& 0x7f == 0) = true by decide, readVarintIf, if_pos rfl]
    rw [length_cons, add_comm]
    simpa using hread

/-- **What is kept of a record is read back.** -/
theorem decodeWhere_encode (parents : ParentVec) (hne : parents.entries ≠ []) (key rest : Bytes)
    (keep : Bytes → Bool) :
    ∃ stop, decodeParentEntriesV8Where (encodeParentRecordV8 parents.entries key ++ rest) key keep =
        some ((sortParents parents.entries).filter (fun p => keep p.overlap), stop) ∧
      ((∀ overlap, keep overlap = true) →
        stop = (encodeParentRecordV8 parents.entries key).length) := by
  have hbytes : BytesAt (encodeParentRecordV8 parents.entries key ++ rest) 0
      (encodeParentRecordV8 parents.entries key) := prefix_append _ rest
  generalize encodeParentRecordV8 parents.entries key ++ rest = data at hbytes ⊢
  have hlen := (perm_sortParents parents.entries).length_eq
  have hpos := length_pos_iff.mpr hne
  rw [encodeParentRecordV8] at hbytes ⊢
  by_cases hflat : parents.entries.length ≤ flatMaxParents
  · rw [if_pos hflat] at hbytes ⊢
    have htable : ∀ i : Fin 33, 0 < i.val → ofNat i.val &&& 0x80 = 0 ∧
        (ofNat i.val &&& 0x7f == 0) = false ∧
        (ofNat i.val &&& 0x7f).toNat = i.val := by decide +kernel
    obtain ⟨htop, hzero, hnat⟩ := htable ⟨parents.entries.length, lt_succ_of_le hflat⟩ hpos
    have hread := readFlat_write keep hbytes.tail
    refine ⟨_, ?_, fun _ => rfl⟩
    simp only [decodeParentEntriesV8Where, hbytes.getElem?, hzero, hnat, htop, readVarintIf,
      bind_eq_bind, bind_some, if_true, Bool.false_eq_true, if_false]
    rw [← hlen, hread, length_cons, zero_add, add_comm]
  · rw [if_neg hflat] at hbytes ⊢
    have hsorted := flatten_runsBy overlap (sortParents parents.entries)
    have hgroups : ∀ group ∈ runsBy overlap (sortParents parents.entries),
        IsGroup group := fun _ h => isGroup_of_mem parents h
    generalize runsBy overlap (sortParents parents.entries) = groups at *
    have hcountPos : 0 < groups.length := by
      refine length_pos_iff.mpr ?_
      rintro rfl
      rw [← hlen, ← hsorted] at hpos
      exact absurd hpos (lt_irrefl 0)
    have hcountLt : groups.length < 2 ^ 64 := by
      have hle := length_le_flatten fun group hgroup => (hgroups group hgroup).ne_nil
      rw [hsorted, hlen] at hle
      have := parents.bytes_lt
      omega
    obtain ⟨head, hhead, htop, hcount⟩ := groupedHead_read hcountPos hcountLt hbytes.left
    obtain ⟨stop, hstop, hend⟩ := readGroups_write keep hgroups hbytes.right
    refine ⟨stop, ?_, fun hall => ?_⟩
    · simp only [decodeParentEntriesV8Where, hhead, hcount, bind_eq_bind, bind_some]
      rw [if_neg htop, ← hsorted]
      simpa using hstop
    · rw [hend hall, length_append, zero_add]

/-- **A parent record is read back.** Decoding what was written for some parents, whatever stands
behind it, gives the same parents in the order of the record and stops behind the last byte. -/
theorem decode_encodeParentRecordV8 (parents : ParentVec) (hne : parents.entries ≠ [])
    (key rest : Bytes) :
    ∃ entries, decodeParentEntriesV8 (encodeParentRecordV8 parents.entries key ++ rest) key =
        some (entries, (encodeParentRecordV8 parents.entries key).length) ∧
      entries.Perm parents.entries ∧ RecordSorted parents.entries.length entries := by
  obtain ⟨stop, hdecode, hstop⟩ := decodeWhere_encode parents hne key rest fun _ => true
  refine ⟨sortParents parents.entries, ?_, perm_sortParents _, sorted_sortParents _⟩
  rw [decodeParentEntriesV8, hdecode, hstop fun _ => rfl, filter_true]

/-- Two chunks that end in the same bytes, before different ones. -/
def twoParents : ParentVec :=
  ⟨[⟨9, 3, 5, 0, [108, 111], false, by decide⟩, ⟨4, 1, 12, 9, [], true, by decide⟩], by decide⟩

/-- Thirty-three occurrences of one. -/
def manyParents : ParentVec :=
  ⟨List.replicate 33 ⟨9, 3, 5, 0, [108, 111], false, by decide⟩, by decide⟩

/-- A flat record and a grouped one. -/
theorem decode_encodeParentRecordV8_both :
    (∃ entries, decodeParentEntriesV8
        (encodeParentRecordV8 twoParents.entries [1, 97, 98] ++ [7]) [1, 97, 98] =
          some (entries, (encodeParentRecordV8 twoParents.entries [1, 97, 98]).length) ∧
        entries.Perm twoParents.entries ∧ RecordSorted 2 entries) ∧
      ∃ entries, decodeParentEntriesV8
        (encodeParentRecordV8 manyParents.entries [2] ++ []) [2] =
          some (entries, (encodeParentRecordV8 manyParents.entries [2]).length) ∧
        entries.Perm manyParents.entries ∧ RecordSorted 33 entries :=
  ⟨decode_encodeParentRecordV8 twoParents (cons_ne_nil _ _) [1, 97, 98] [7],
    decode_encodeParentRecordV8 manyParents (cons_ne_nil _ _) [2] []⟩

end ParentRecord

end Lucivy.SuffixFst
