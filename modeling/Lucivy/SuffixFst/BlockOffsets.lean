import Mathlib.Data.List.Pairwise
import Mathlib.Tactic.Common
import Lucivy.Foundation.Bytes

/-! # Block-coded offset tables

`suffix_fst/block_offsets.rs`: the offsets of a file's records, cut into blocks of 64; a block
stores its first offset and the differences to it in as many bytes as the largest needs. The
files of a segment find an ordinal's bytes through such a table.

* `encodeOffsets` — the encoder.
* `BlockOffsets.parse`, `BlockOffsets.get` — the reader.
* `get_encodeOffsets`, `offsets_read_back` — every offset of a non-decreasing table is read back.
* `long_table_refused` — the number of offsets must fit 32 bits.
* `blockTable`, `read_blockFile` — a file whose records stand behind their offset table, and
  where its reader finds each of them. -/

namespace Lucivy.SuffixFst

open Lucivy.Foundation List Nat

abbrev offsetsPerBlock : Nat := 64

/-- The bytes a difference of at most `span` needs. -/
def offsetWidth (span : Nat) : Nat :=
  if span = 0 then 0
  else if span < 2 ^ 8 then 1
  else if span < 2 ^ 16 then 2
  else if span < 2 ^ 24 then 3
  else 4

/-- `slice::chunks`: the offsets block by block. -/
def offsetBlocks (offsets : List Nat) : List (List Nat) :=
  (List.range ((offsets.length + offsetsPerBlock - 1) / offsetsPerBlock)).map fun b =>
    (offsets.drop (b * offsetsPerBlock)).take offsetsPerBlock

/-- One block: its base, its width, the differences. -/
def encodeOffsetBlock (chunk : List Nat) : Bytes :=
  let base := chunk.headD 0
  let width := offsetWidth (chunk.getLastD 0 - base)
  leBytes 4 base ++ (UInt8.ofNat width :: chunk.flatMap fun o => leBytes width (o - base))

/-- The loop of `encode`: where each block starts, and the blocks. -/
def encodeOffsetLoop : List (List Nat) → List Nat → Bytes → List Nat × Bytes
  | [], dir, blocks => (dir, blocks)
  | chunk :: chunks, dir, blocks =>
    encodeOffsetLoop chunks (dir ++ [blocks.length]) (blocks ++ encodeOffsetBlock chunk)

/-- The blocks region of a table. -/
def offsetRegion (offsets : List Nat) : Bytes := (encodeOffsetLoop (offsetBlocks offsets) [] []).2

/-- `encode`; the counts are cast to 32 bits. -/
def encodeOffsets (offsets : List Nat) : Bytes :=
  let encoded := encodeOffsetLoop (offsetBlocks offsets) [] []
  leBytes 4 offsets.length ++
    (leBytes 4 ((offsets.length + offsetsPerBlock - 1) / offsetsPerBlock) ++
    (leBytes 4 encoded.2.length ++ (encoded.1.flatMap (leBytes 4) ++ encoded.2)))

structure BlockOffsets where
  num : Nat
  dir : Bytes
  blocks : Bytes
deriving DecidableEq, Repr

namespace BlockOffsets

/-- `parse`: the table at the start of some bytes, and how many it takes. -/
def parse (bytes : Bytes) : Option (BlockOffsets × Nat) := do
  let num ← readLe 4 bytes 0
  let numBlocks ← readLe 4 bytes 4
  let blocksBytes ← readLe 4 bytes 8
  let dirEnd := 12 + numBlocks * 4
  let stop := dirEnd + blocksBytes
  if bytes.length < stop || numBlocks ≠ (num + offsetsPerBlock - 1) / offsetsPerBlock then none
  else some (⟨num, (bytes.drop 12).take (numBlocks * 4), (bytes.drop dirEnd).take blocksBytes⟩,
    stop)

/-- `get`: the `i`-th offset; nothing where the source would read past the end. -/
def get (t : BlockOffsets) (i : Nat) : Option Nat := do
  let p ← readLe 4 t.dir (i / offsetsPerBlock * 4)
  let base ← readLe 4 t.blocks p
  let width ← t.blocks[p + 4]?
  if width.toNat = 0 then return base
  else
    let d ← readLe width.toNat t.blocks (p + 5 + i % offsetsPerBlock * width.toNat)
    return base + d

end BlockOffsets

/-! ## What is written -/

/-- The width suffices. -/
theorem lt_pow_offsetWidth {span : Nat} (h : span < 2 ^ 32) : span < 256 ^ offsetWidth span := by
  unfold offsetWidth
  split_ifs with h0 h1 h2 h3
  · rw [h0]
    decide
  · simpa using h1
  · simpa using h2
  · simpa using h3
  · simpa using h

theorem offsetWidth_le (span : Nat) : offsetWidth span ≤ 4 := by
  unfold offsetWidth
  split_ifs <;> decide

theorem offsetWidth_eq_zero (span : Nat) : offsetWidth span = 0 ↔ span = 0 := by
  unfold offsetWidth
  split_ifs <;> simp_all

/-- The loop, in closed form. -/
theorem encodeOffsetLoop_eq (chunks : List (List Nat)) (dir : List Nat) (blocks : Bytes) :
    encodeOffsetLoop chunks dir blocks =
      (dir ++ (List.range chunks.length).map fun b =>
          blocks.length + ((chunks.take b).map encodeOffsetBlock).flatten.length,
        blocks ++ (chunks.map encodeOffsetBlock).flatten) := by
  induction chunks generalizing dir blocks with
  | nil => simp [encodeOffsetLoop]
  | cons chunk chunks ih =>
    rw [encodeOffsetLoop, ih, length_cons, range_succ_eq_map]
    simp [add_assoc]

theorem length_offsetBlocks (offsets : List Nat) : (offsetBlocks offsets).length =
    (offsets.length + offsetsPerBlock - 1) / offsetsPerBlock := by
  rw [offsetBlocks, length_map, length_range]

theorem offsetRegion_eq (offsets : List Nat) :
    offsetRegion offsets = ((offsetBlocks offsets).map encodeOffsetBlock).flatten := by
  rw [offsetRegion, encodeOffsetLoop_eq]
  rfl

/-- The directory of a table. -/
def offsetDir (offsets : List Nat) : List Nat :=
  (List.range (offsetBlocks offsets).length).map fun b =>
    (((offsetBlocks offsets).take b).map encodeOffsetBlock).flatten.length

/-- **The parts of the table.** -/
theorem encodeOffsets_eq (offsets : List Nat) :
    encodeOffsets offsets =
      leBytes 4 offsets.length ++ (leBytes 4 (offsetBlocks offsets).length ++
        (leBytes 4 (offsetRegion offsets).length ++
          ((offsetDir offsets).flatMap (leBytes 4) ++ offsetRegion offsets))) := by
  rw [encodeOffsets, length_offsetBlocks, offsetRegion, encodeOffsetLoop_eq, offsetDir]
  simp

variable {offsets : List Nat} {blocks : List Bytes}

/-- The block of an offset, and its place there. -/
theorem offsetBlocks_getElem? {i o : Nat} (h : offsets[i]? = some o) :
    ∃ chunk, (offsetBlocks offsets)[i / offsetsPerBlock]? = some chunk ∧
      chunk[i % offsetsPerBlock]? = some o ∧ chunk.Sublist offsets := by
  obtain ⟨hi, -⟩ := List.getElem?_eq_some_iff.mp h
  have hb : i / offsetsPerBlock < (offsets.length + offsetsPerBlock - 1) / offsetsPerBlock := by
    simp only [offsetsPerBlock]
    omega
  refine ⟨(offsets.drop (i / offsetsPerBlock * offsetsPerBlock)).take offsetsPerBlock, ?_, ?_, ?_⟩
  · rw [offsetBlocks, getElem?_map, getElem?_range hb]
    rfl
  · rw [getElem?_take_of_lt (mod_lt i (by decide)), getElem?_drop, ← h]
    congr 1
    exact div_add_mod' i offsetsPerBlock
  · exact (take_sublist _ _).trans (drop_sublist _ _)

/-! ## Reading back -/

/-- **A non-decreasing table of 32-bit offsets**, small enough for its own 32-bit counts. -/
structure OffsetsFit (offsets : List Nat) : Prop where
  sorted : offsets.Pairwise (· ≤ ·)
  /-- They have 32 bits. -/
  lt : ∀ o ∈ offsets, o < 2 ^ 32
  /-- So has their number. -/
  length_lt : offsets.length < 2 ^ 32
  /-- So has the size of the blocks region. -/
  region_lt : (offsetRegion offsets).length < 2 ^ 32

theorem sorted_bounds {chunk : List Nat} (h : chunk.Pairwise (· ≤ ·)) {o : Nat} (ho : o ∈ chunk) :
    chunk.headD 0 ≤ o ∧ o ≤ chunk.getLastD 0 := by
  have hne := ne_nil_of_mem ho
  rw [headD_eq_head?_getD, head?_eq_some_head hne, getLastD_eq_getLast?,
    getLast?_eq_some_getLast hne]
  exact ⟨h.rel_head ho, h.rel_getLast ho⟩

/-- The differences as a list of their own. -/
theorem encodeOffsetBlock_eq (chunk : List Nat) : encodeOffsetBlock chunk =
    leBytes 4 (chunk.headD 0) ++ (UInt8.ofNat (offsetWidth (chunk.getLastD 0 - chunk.headD 0)) ::
      (chunk.map (· - chunk.headD 0)).flatMap
        (leBytes (offsetWidth (chunk.getLastD 0 - chunk.headD 0)))) := by
  rw [flatMap_map]
  rfl

/-- A block read on its own: base, width and difference give the offset. -/
theorem read_offsetBlock {blocks : Bytes} {p r o : Nat} {chunk : List Nat}
    (hblock : BytesAt blocks p (encodeOffsetBlock chunk)) (ho : chunk[r]? = some o)
    (hsorted : chunk.Pairwise (· ≤ ·)) (hlt : ∀ o ∈ chunk, o < 2 ^ 32) :
    ∃ base width, readLe 4 blocks p = some base ∧ blocks[p + 4]? = some width ∧
      ((width.toNat = 0 ∧ o = base) ∨ (width.toNat ≠ 0 ∧ ∃ d,
        readLe width.toNat blocks (p + 5 + r * width.toNat) = some d ∧ o = base + d)) := by
  have hmem : o ∈ chunk := mem_of_getElem? ho
  obtain ⟨hbase, hlast⟩ := sorted_bounds hsorted hmem
  have hspan : chunk.getLastD 0 - chunk.headD 0 < 2 ^ 32 := by
    obtain ⟨front, a, rfl⟩ := (eq_nil_or_concat' chunk).resolve_left (ne_nil_of_mem hmem)
    have := hlt a (by simp)
    rw [getLastD_concat]
    omega
  have hfits := lt_pow_offsetWidth hspan
  have hwidth := offsetWidth_le (chunk.getLastD 0 - chunk.headD 0)
  have hzero := offsetWidth_eq_zero (chunk.getLastD 0 - chunk.headD 0)
  rw [encodeOffsetBlock_eq] at hblock
  generalize chunk.headD 0 = base at *
  generalize offsetWidth (chunk.getLastD 0 - base) = width at *
  have hnat : (UInt8.ofNat width).toNat = width := by
    rw [UInt8.toNat_ofNat']
    omega
  have hroom : p + 4 ≤ blocks.length := by simpa using hblock.left.le_length (by simp [leBytes])
  have hrest := hblock.right
  refine ⟨base, _, ?_, hrest.getElem?, ?_⟩
  · refine readLe_leBytes hblock.left ?_ (by omega)
    have := hlt o hmem
    omega
  · rw [hnat]
    by_cases hw : width = 0
    · have := hzero.mp hw
      omega
    · refine .inr ⟨hw, o - base, ?_, by omega⟩
      have hat : BytesAt blocks (p + 4 + 1 + r * width) (leBytes width (o - base)) :=
        hrest.tail.trans (bytesAt_flatMap_leBytes (by rw [getElem?_map, ho]; rfl))
      have hroom' := hat.le_length fun hnil => hw (by simpa using congrArg List.length hnil)
      exact readLe_leBytes hat (lt_of_le_of_lt (by omega) hfits) (by omega)

/-- **Every offset is read back**, whatever stands behind the table. -/
theorem get_encodeOffsets (h : OffsetsFit offsets) (rest : Bytes) :
    ∃ t, BlockOffsets.parse (encodeOffsets offsets ++ rest) =
      some (t, (encodeOffsets offsets).length) ∧
      t.num = offsets.length ∧ ∀ i, i < offsets.length → t.get i = offsets[i]? := by
  have hblocks : (offsetBlocks offsets).length < 2 ^ 32 := by
    have := h.length_lt
    rw [length_offsetBlocks]
    simp only [offsetsPerBlock]
    omega
  have hat : BytesAt (encodeOffsets offsets ++ rest) 0 (encodeOffsets offsets) :=
    prefix_append _ rest
  have hdirLen : (offsetDir offsets).length = (offsetBlocks offsets).length := by
    rw [offsetDir, length_map, length_range]
  have hlen : (encodeOffsets offsets).length =
      12 + (offsetBlocks offsets).length * 4 + (offsetRegion offsets).length := by
    rw [encodeOffsets_eq]
    simp only [length_append, length_leBytes, length_flatMap_leBytes, hdirLen]
    omega
  have htotal := congrArg (· + rest.length) hlen
  simp only [← length_append] at htotal
  generalize encodeOffsets offsets ++ rest = data at hat htotal ⊢
  rw [encodeOffsets_eq] at hat
  -- the three counts, the directory and the blocks, one behind the other
  have hnum := hat.left
  have hnumBlocks := hat.right.left
  have hregionLen := hat.right.right.left
  have hdir := hat.right.right.right.left
  have hregion := hat.right.right.right.right
  simp only [length_leBytes, length_flatMap_leBytes, hdirLen] at hnumBlocks hregionLen hdir hregion
  refine ⟨⟨offsets.length, (offsetDir offsets).flatMap (leBytes 4), offsetRegion offsets⟩,
    ?_, rfl, ?_⟩
  · rw [BlockOffsets.parse, readLe_leBytes hnum h.length_lt (by omega),
      readLe_leBytes hnumBlocks hblocks (by omega), readLe_leBytes hregionLen h.region_lt
        (by omega)]
    have hdirTake := hdir.take_drop
    have hregionTake := hregion.take_drop
    rw [length_flatMap_leBytes, hdirLen] at hdirTake
    simp only [Option.bind_eq_bind, Option.bind_some, hlen, hdirTake, hregionTake]
    rw [if_neg]
    simp only [Bool.or_eq_true, decide_eq_true_eq, not_or, Decidable.not_not]
    exact ⟨by omega, length_offsetBlocks offsets⟩
  · intro i hi
    have ho : offsets[i]? = some offsets[i] := getElem?_eq_getElem hi
    obtain ⟨chunk, hchunk, hplace, hsub⟩ := offsetBlocks_getElem? ho
    have hb := (List.getElem?_eq_some_iff.mp hchunk).1
    have hpiece : ((offsetBlocks offsets).map encodeOffsetBlock)[i / offsetsPerBlock]? =
        some (encodeOffsetBlock chunk) := by
      rw [getElem?_map, hchunk]
      rfl
    have hblock := BytesAt.flatten hpiece
    rw [← offsetRegion_eq, ← map_take] at hblock
    have hentry : (offsetDir offsets)[i / offsetsPerBlock]? =
        some (((offsetBlocks offsets).take (i / offsetsPerBlock)).map
          encodeOffsetBlock).flatten.length := by
      rw [offsetDir, getElem?_map, getElem?_range hb]
      rfl
    have hp := hblock.le_length (by simp [encodeOffsetBlock])
    have hregion_lt := h.region_lt
    have hread := readLe_leBytes (bytesAt_flatMap_leBytes (w := 4) hentry) (by omega)
      (by rw [length_flatMap_leBytes]; omega)
    obtain ⟨base, width, hbase, hwidth, hcases⟩ := read_offsetBlock hblock hplace
      (h.sorted.sublist hsub) fun o hmem => h.lt o (hsub.subset hmem)
    simp only [BlockOffsets.get, hread, Option.bind_eq_bind, Option.bind_some, hbase, hwidth]
    rcases hcases with ⟨hzero, heq⟩ | ⟨hpos, d, hd, heq⟩
    · rw [if_pos hzero, ho, heq]
      rfl
    · rw [if_neg hpos, hd, ho, heq]
      rfl

/-- **The table is read back as it was written**, and the reader knows where it ends. -/
theorem offsets_read_back (h : OffsetsFit offsets) (rest : Bytes) :
    ∃ t, BlockOffsets.parse (encodeOffsets offsets ++ rest) =
      some (t, (encodeOffsets offsets).length) ∧
      ∀ i, i < offsets.length → t.get i = offsets[i]? := by
  obtain ⟨t, hparse, -, hget⟩ := get_encodeOffsets h rest
  exact ⟨t, hparse, hget⟩

/-- Two offsets. -/
theorem offsets_read_back_two : ∃ t, BlockOffsets.parse (encodeOffsets [3, 300] ++ [7]) =
    some (t, (encodeOffsets [3, 300]).length) ∧ ∀ i < 2, t.get i = [3, 300][i]? :=
  offsets_read_back ⟨by decide, by decide, by decide, by decide⟩ [7]

/-- The counts are cast to 32 bits: 2³² offsets count as none. -/
theorem parse_count_wraps (hlen : offsets.length = 2 ^ 32) :
    BlockOffsets.parse (encodeOffsets offsets) = none := by
  have hnum : leBytes 4 (2 ^ 32) = [0, 0, 0, 0] := by decide
  have hblocks : leBytes 4 ((2 ^ 32 + offsetsPerBlock - 1) / offsetsPerBlock) = [0, 0, 0, 4] := by
    decide
  rw [encodeOffsets, hlen, hnum, hblocks, BlockOffsets.parse]
  cases readLe 4 _ 8 <;> simp [readLe, fromLe]

/-- **A table of 2³² offsets is refused**, non-decreasing as they are. -/
theorem long_table_refused : (replicate (2 ^ 32) 0).Pairwise (· ≤ ·) ∧
    BlockOffsets.parse (encodeOffsets (replicate (2 ^ 32) 0)) = none :=
  ⟨pairwise_replicate.mpr (.inr le_rfl), parse_count_wraps length_replicate⟩

/-! ## Files of blocks -/

/-- The offsets of some blocks written one behind the other, the end of the last one behind
them; each is cast to 32 bits. -/
def blockTable : Nat → List Bytes → List Nat
  | acc, [] => [acc % 2 ^ 32]
  | acc, b :: bs => acc % 2 ^ 32 :: blockTable (acc + b.length) bs

/-- The table of the blocks. -/
theorem blockTable_eq (acc : Nat) (blocks : List Bytes) (h : acc + blocks.flatten.length < 2 ^ 32) :
    blockTable acc blocks =
      (List.range (blocks.length + 1)).map fun i => acc + (blocks.take i).flatten.length := by
  induction blocks generalizing acc with
  | nil =>
    rw [blockTable, Nat.mod_eq_of_lt (Nat.lt_of_le_of_lt (Nat.le_add_right ..) h)]
    rfl
  | cons b bs ih =>
    rw [flatten_cons, length_append] at h
    have hshift : ∀ i, acc + ((b :: bs).take (i + 1)).flatten.length =
        acc + b.length + (bs.take i).flatten.length := by
      intro i
      rw [take_succ_cons, flatten_cons, length_append, add_assoc]
    rw [blockTable, ih _ (by omega), length_cons, range_succ_eq_map (n := bs.length + 1),
      mod_eq_of_lt (by omega), map_cons, map_map]
    congr 1
    exact map_congr_left fun i _ => (hshift i).symm

/-- The blocks and their table fit 32 bits. -/
structure BlocksFit (blocks : List Bytes) : Prop where
  total_lt : blocks.flatten.length < 2 ^ 32
  length_lt : blocks.length + 1 < 2 ^ 32
  region_lt : (offsetRegion (blockTable 0 blocks)).length < 2 ^ 32

theorem sorted_blockTable (h : blocks.flatten.length < 2 ^ 32) :
    (blockTable 0 blocks).Pairwise (· ≤ ·) := by
  rw [blockTable_eq 0 blocks ((Nat.zero_add _).symm ▸ h), pairwise_map]
  refine pairwise_lt_range.imp fun hij => ?_
  exact Nat.add_le_add_left (take_prefix_take_left hij.le).sublist.flatten.length_le 0

theorem lt_of_mem_blockTable (h : blocks.flatten.length < 2 ^ 32) {o : Nat}
    (ho : o ∈ blockTable 0 blocks) : o < 2 ^ 32 := by
  rw [blockTable_eq 0 blocks ((Nat.zero_add _).symm ▸ h)] at ho
  obtain ⟨i, -, rfl⟩ := mem_map.mp ho
  have hle := (take_sublist i blocks).flatten.length_le
  omega

theorem length_blockTable (acc : Nat) (blocks : List Bytes) :
    (blockTable acc blocks).length = blocks.length + 1 := by
  induction blocks generalizing acc with
  | nil => rfl
  | cons b bs ih => rw [blockTable, length_cons, ih, length_cons]

/-- Its offsets fit. -/
theorem BlocksFit.offsetsFit (h : BlocksFit blocks) : OffsetsFit (blockTable 0 blocks) where
  sorted := sorted_blockTable h.total_lt
  lt := fun _ ho => lt_of_mem_blockTable h.total_lt ho
  length_lt := by
    rw [length_blockTable]
    exact h.length_lt
  region_lt := h.region_lt

/-! ### The size of a table -/

theorem offsetWidth_scaled (span : Nat) : 256 * offsetWidth span ≤ 256 + span := by
  unfold offsetWidth
  split_ifs <;> omega

/-- The size of a block. -/
theorem length_encodeOffsetBlock (chunk : List Nat) : (encodeOffsetBlock chunk).length =
    5 + chunk.length * offsetWidth (chunk.getLastD 0 - chunk.headD 0) := by
  rw [encodeOffsetBlock_eq, length_append, length_cons, length_flatMap_leBytes, length_leBytes,
    length_map]
  omega

/-- A wide block pays for its width with the distance it covers. -/
theorem length_encodeOffsetBlock_le {chunk : List Nat} (h : chunk.length ≤ offsetsPerBlock) :
    4 * (encodeOffsetBlock chunk).length ≤ 276 + (chunk.getLastD 0 - chunk.headD 0) := by
  have hwidth := offsetWidth_scaled (chunk.getLastD 0 - chunk.headD 0)
  have hmul : chunk.length * offsetWidth (chunk.getLastD 0 - chunk.headD 0) ≤
      64 * offsetWidth (chunk.getLastD 0 - chunk.headD 0) := mul_le_mul_right _ h
  rw [length_encodeOffsetBlock]
  omega

/-- The first `k` blocks of a table, of which the offsets reach up to `m`. -/
theorem length_offsetBlocks_le (hsorted : offsets.Pairwise (· ≤ ·)) {k m : Nat}
    (hk : k ≤ (offsetBlocks offsets).length) (hm : ∀ o ∈ offsets.take (k * offsetsPerBlock), o ≤ m)
    : 4 * (((offsetBlocks offsets).take k).map encodeOffsetBlock).flatten.length ≤ 276 * k + m := by
  induction k generalizing m with
  | zero => exact zero_le _
  | succ k ih =>
    have hpos : k * offsetsPerBlock < offsets.length := by
      rw [length_offsetBlocks] at hk
      simp only [offsetsPerBlock] at hk ⊢
      omega
    have hchunk : (offsetBlocks offsets)[k] =
        (offsets.drop (k * offsetsPerBlock)).take offsetsPerBlock := by
      simp [offsetBlocks]
    have hhead : (offsetBlocks offsets)[k].headD 0 = offsets[k * offsetsPerBlock] := by
      rw [hchunk, drop_eq_getElem_cons hpos]
      rfl
    have hmem : offsets[k * offsetsPerBlock] ∈ (offsetBlocks offsets)[k] := by
      rw [hchunk, drop_eq_getElem_cons hpos]
      exact mem_cons_self ..
    have hsub : (offsetBlocks offsets)[k].Sublist offsets := by
      rw [hchunk]
      exact (take_sublist _ _).trans (drop_sublist _ _)
    -- what stands in front of the block lies below its first offset
    have hbefore : ∀ o ∈ offsets.take (k * offsetsPerBlock), o ≤ offsets[k * offsetsPerBlock] := by
      intro o ho
      refine (pairwise_append.mp ((take_append_drop (k * offsetsPerBlock) offsets).symm ▸
        hsorted)).2.2 o ho _ ?_
      rw [drop_eq_getElem_cons hpos]
      exact mem_cons_self ..
    have hlast : (offsetBlocks offsets)[k].getLastD 0 ≤ m := by
      refine hm _ ?_
      have hne : (offsetBlocks offsets)[k] ≠ [] := ne_nil_of_mem hmem
      rw [getLastD_eq_getLast?, getLast?_eq_some_getLast hne, Option.getD_some]
      have hlastmem := getLast_mem hne
      rw [succ_mul, take_add, mem_append]
      refine .inr ?_
      rw [← hchunk]
      exact hlastmem
    have hsize : (offsetBlocks offsets)[k].length ≤ offsetsPerBlock := by
      rw [hchunk]
      exact length_take_le _ _
    have hblock := length_encodeOffsetBlock_le hsize
    have hbounds := sorted_bounds (hsorted.sublist hsub) hmem
    have hfirst := ih (le_of_succ_le hk) hbefore
    rw [take_succ_eq_append_getElem hk, map_append, flatten_append,
      length_append, map_singleton, flatten_singleton]
    omega

/-- **A file of fewer than 2³¹ blocks fits its table**, if its blocks fit 32 bits. -/
theorem BlocksFit.of_length_lt (htotal : blocks.flatten.length < 2 ^ 32)
    (hlen : blocks.length < 2 ^ 31) : BlocksFit blocks where
  total_lt := htotal
  length_lt := by omega
  region_lt := by
    have hnum : (offsetBlocks (blockTable 0 blocks)).length ≤ 2 ^ 25 := by
      rw [length_offsetBlocks, length_blockTable]
      simp only [offsetsPerBlock]
      omega
    have hle := length_offsetBlocks_le (sorted_blockTable htotal) (le_refl _)
      (m := 2 ^ 32) fun o ho => le_of_lt (lt_of_mem_blockTable htotal (mem_of_mem_take ho))
    rw [take_length] at hle
    rw [offsetRegion_eq]
    omega

/-- **A file of blocks**: a header, the table, the blocks. What a reader finds behind the
header: the table, and for each block its two offsets and its bytes. -/
theorem read_blockFile (h : BlocksFit blocks) {header data : Bytes}
    (hdata : data = header ++ (encodeOffsets (blockTable 0 blocks) ++ blocks.flatten)) :
    ∃ t used, BlockOffsets.parse (data.drop header.length) = some (t, used) ∧
      t.num = blocks.length + 1 ∧
      ∀ i b, blocks[i]? = some b → ∃ start,
        t.get i = some start ∧ t.get (i + 1) = some (start + b.length) ∧
        BytesAt data (header.length + used + start) b ∧
        header.length + used + start + b.length ≤ data.length := by
  have htable := blockTable_eq 0 blocks ((Nat.zero_add _).symm ▸ h.total_lt)
  have hnum := length_blockTable 0 blocks
  obtain ⟨t, hparse, htnum, hget⟩ := get_encodeOffsets h.offsetsFit blocks.flatten
  refine ⟨t, (encodeOffsets (blockTable 0 blocks)).length, ?_, htnum.trans hnum, ?_⟩
  · rw [hdata, drop_left]
    exact hparse
  · intro i b hb
    have hi := (List.getElem?_eq_some_iff.mp hb).1
    obtain ⟨hnext, hle⟩ := length_flatten_take_succ hb
    refine ⟨(blocks.take i).flatten.length, ?_, ?_, ?_, ?_⟩
    · rw [hget i (by omega), htable, getElem?_map, getElem?_range (by omega)]
      rw [Option.map_some, zero_add]
    · rw [hget (i + 1) (by omega), htable, getElem?_map, getElem?_range (by omega)]
      rw [Option.map_some, hnext, zero_add]
    · have hblock := BytesAt.flatten hb
      have hwhole : BytesAt data (header.length + (encodeOffsets (blockTable 0 blocks)).length)
          blocks.flatten := by
        rw [hdata, ← append_assoc, ← length_append]
        simpa using BytesAt.intro (header ++ encodeOffsets (blockTable 0 blocks)) blocks.flatten []
      exact hwhole.trans hblock
    · rw [hdata, length_append, length_append]
      omega

end Lucivy.SuffixFst
