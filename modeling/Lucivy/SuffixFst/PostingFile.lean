import Lucivy.SuffixFst.BlockOffsets

/-! # Posting files

The frame that `.sfxpost` (`sfxpost_v2.rs`) and `.word_sfxpost` (`word_sfxpost.rs`) share: four
bytes that name the layout, the number of ordinals, a block-coded offset table, and a block for
each ordinal. The older layouts with flat tables, which nothing writes any more, are left out.

* `PostingLayout` — with byte spans, with positions, with documents only.
* `finishFile`, `PostingFile.openWith` — the writer and the reader of the frame.
* `openWith_finishFile` — where the reader finds the block of each ordinal. -/

namespace Lucivy.SuffixFst

open Lucivy.Foundation List

/-- The layouts a writer makes. -/
inductive PostingLayout
  | spans
  | positions
  | docsOnly
deriving DecidableEq, Repr

/-- The end of a `finish`: blocks past 4 GB are refused (the source stops with an assertion). -/
def finishFile (magic : Bytes) (blocks : List Bytes) : Option Bytes :=
  if blocks.flatten.length ≤ 2 ^ 32 - 1 then
    some ((magic ++ leBytes 4 blocks.length) ++
      (encodeOffsets (blockTable 0 blocks) ++ blocks.flatten))
  else none

/-- An open posting file. -/
structure PostingFile where
  data : Bytes
  numOrdinals : Nat
  layout : PostingLayout
  /-- Where the ordinals' blocks are. -/
  table : BlockOffsets
  /-- Where the blocks start. -/
  entriesStart : Nat

namespace PostingFile

/-- The layout the first four bytes name. -/
def layoutOf (magic : PostingLayout → Bytes) (bytes : Bytes) : Option PostingLayout :=
  if bytes = magic .docsOnly then some .docsOnly
  else if bytes = magic .positions then some .positions
  else if bytes = magic .spans then some .spans
  else none

/-- The start of an `open`. -/
def openWith (magic : PostingLayout → Bytes) (data : Bytes) : Option PostingFile := do
  if data.length < 8 then none
  else
    let layout ← layoutOf magic (data.take 4)
    let numOrdinals ← readLe 4 data 4
    let table ← BlockOffsets.parse (data.drop 8)
    if table.1.num ≠ numOrdinals + 1 then none
    else some ⟨data, numOrdinals, layout, table.1, 8 + table.2⟩

/-- Four bytes for each layout, no two the same. -/
structure NamesLayouts (magic : PostingLayout → Bytes) : Prop where
  /-- Four bytes. -/
  length_eq : ∀ layout, (magic layout).length = 4
  /-- Read back. -/
  layoutOf_eq : ∀ layout, layoutOf magic (magic layout) = some layout

/-- **The frame is read back**: the header, and for each ordinal its block. -/
theorem openWith_finishFile {magic : PostingLayout → Bytes} (hmagic : NamesLayouts magic)
    {layout : PostingLayout} {blocks : List Bytes} {data : Bytes} (hnum : blocks.length < 2 ^ 31)
    (hfile : finishFile (magic layout) blocks = some data) :
    ∃ f, openWith magic data = some f ∧ f.data = data ∧ f.layout = layout ∧
      f.numOrdinals = blocks.length ∧
      ∀ i b, blocks[i]? = some b → ∃ start,
        f.table.get i = some start ∧ f.table.get (i + 1) = some (start + b.length) ∧
        BytesAt data (f.entriesStart + start) b ∧
        f.entriesStart + start + b.length ≤ data.length ∧ b.length < 2 ^ 32 := by
  rw [finishFile] at hfile
  split at hfile
  next htotal =>
    injection hfile with hfile
    have hfit : BlocksFit blocks := .of_length_lt (by omega) hnum
    have hheader : (magic layout ++ leBytes 4 blocks.length).length = 8 := by
      rw [length_append, length_leBytes, hmagic.length_eq]
    obtain ⟨t, used, hparse, htnum, hblock⟩ := read_blockFile hfit hfile.symm
    rw [hheader] at hparse hblock
    have hlen : 8 ≤ data.length := by
      rw [← hfile, length_append, hheader]
      omega
    have htake : data.take 4 = magic layout := by
      rw [← hfile, append_assoc, ← hmagic.length_eq layout, take_left]
    have hcount : readLe 4 data 4 = some blocks.length := by
      refine readLe_leBytes ?_ (by omega) (by omega)
      have hat : BytesAt data 0 (magic layout ++ leBytes 4 blocks.length) := by
        rw [← hfile]
        exact prefix_append _ _
      have hright := hat.right
      rwa [hmagic.length_eq, Nat.zero_add] at hright
    refine ⟨⟨data, blocks.length, layout, t, 8 + used⟩, ?_, rfl, rfl, rfl, fun i b hb => ?_⟩
    · rw [openWith, if_neg (by omega), htake, hmagic.layoutOf_eq, hcount, hparse]
      simp only [Option.bind_eq_bind, Option.bind_some]
      rw [if_neg (by omega)]
    · obtain ⟨start, hstart, hstop, hat, hle⟩ := hblock i b hb
      have hsmall : b.length ≤ blocks.flatten.length :=
        (sublist_flatten_of_mem (mem_of_getElem? hb)).length_le
      exact ⟨start, hstart, hstop, hat, hle, by omega⟩
  next => cases hfile

end PostingFile

/-! ## The lists of a writer -/

section Added

variable {α β : Type} (g : α → β) (adds : List (Nat × α)) (n : Nat)

/-- **What calls leave in an ordinal's list**, in their order; no list past the last one. -/
theorem getElem?_foldl_modify (i : Nat) :
    (adds.foldl (fun ls a => ls.modify a.1 (· ++ [g a.2])) (replicate n []))[i]? =
      if i < n then some ((adds.filter fun a => a.1 = i).map fun a => g a.2) else none := by
  induction adds using List.reverseRecOn with
  | nil => simp [getElem?_replicate]
  | append_singleton adds a ih =>
    rw [foldl_append, foldl_cons, foldl_nil, getElem?_modify, ih, filter_append, map_append]
    by_cases hi : i < n
    · by_cases ha : a.1 = i <;> simp [ha, hi]
    · simp [hi]

theorem length_foldl_modify :
    (adds.foldl (fun ls a => ls.modify a.1 (· ++ [g a.2])) (replicate n [])).length = n := by
  induction adds using List.reverseRecOn with
  | nil => exact length_replicate
  | append_singleton adds a ih => rw [foldl_append, foldl_cons, foldl_nil, length_modify, ih]

end Added

end Lucivy.SuffixFst
