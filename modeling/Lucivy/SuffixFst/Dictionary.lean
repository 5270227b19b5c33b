import Lucivy.Indexer.SegmentEntry
import Mathlib.Logic.Function.Basic

/-! # The shard dictionary

`dictionary.rs`: the texts of a whole shard, each under one global id. The texts live in
*parts*: the generations written by folds, and the minted pairs of segments a commit has
named but no fold has merged yet.

* `Directory` — the part files on disk, one list of (id, text) for each generation or segment
  and field.
* `SfxDictionaryMeta` — which parts are live; this is what `meta.json` records.
* `SfxDictionary` — an opened dictionary: its meta and the parts it could read.
* `DictionaryShared` — what survives from one opened dictionary to the next: the id counters
  and the pending table of texts minted since the last commit.
* `lookupOrMint` — the id of a text, minted when neither the parts nor the table know it.

A text stands for the collector's intern key (text and shape): `τ` is any type with decidable
equality. -/

namespace Lucivy.SuffixFst

open Lucivy.Indexer List

/-- A field of the schema. -/
abbrev FieldId := Nat

/-- A text's id in its field, shared by every segment of the shard. -/
abbrev GlobalId := Nat

/-- The texts of one part for one field. -/
abbrev Texts (τ : Type) := List (GlobalId × τ)

/-- **`SfxDictionaryMeta`**, as `meta.json` records it. -/
structure SfxDictionaryMeta where
  generations : List Nat
  nextGeneration : Nat
  /-- First global id not yet minted, by field. -/
  nextIds : FieldId → GlobalId
  /-- Fields that have a dictionary. -/
  fieldIds : List FieldId
  /-- Segments whose minted pair is a live part. -/
  pendingSegments : List SegmentId

variable {τ : Type}

/-- **The dictionary's files.** An absent file is `none`. -/
structure Directory (τ : Type) where
  /-- `dict-<g>.<field>.*`. -/
  generation : Nat → FieldId → Option (Texts τ)
  /-- `<uuid>.<field>.minted.*`: the texts a segment was the first to mint. -/
  minted : SegmentId → FieldId → Option (Texts τ)

namespace Directory

/-- Write (or overwrite) one generation, for every field at once. -/
def writeGeneration (d : Directory τ) (g : Nat) (texts : FieldId → Option (Texts τ)) :
    Directory τ :=
  { d with generation := Function.update d.generation g texts }

/-- Write the minted pairs of a new segment. -/
def writeMinted (d : Directory τ) (id : SegmentId) (texts : FieldId → Option (Texts τ)) :
    Directory τ :=
  { d with minted := Function.update d.minted id texts }

/-- Delete the minted pair files of one segment, for the given fields. -/
def deleteMinted (d : Directory τ) (id : SegmentId) (fields : List FieldId) : Directory τ :=
  { d with
    minted := Function.update d.minted id (fun f => if f ∈ fields then none else d.minted id f) }

end Directory

/-- An opened dictionary: the meta it was opened from and, for each field, the parts that
could be read, generations first. -/
structure SfxDictionary (τ : Type) where
  /-- The meta it was opened from. -/
  info : SfxDictionaryMeta
  /-- The opened parts of each field. -/
  fields : FieldId → List (Texts τ)

/-- One pending text: minted in `epoch`, not yet known to be in a part. -/
structure PendingEntry (τ : Type) where
  /-- The commit epoch it was minted in. -/
  epoch : Nat
  fieldId : FieldId
  key : τ
  id : GlobalId

/-- **`DictionaryShared`**: the part of a dictionary that is handed on when it is reopened. -/
structure DictionaryShared (τ : Type) where
  nextIds : FieldId → GlobalId
  pending : List (PendingEntry τ)
  epoch : Nat

namespace SfxDictionary

/-- **`SfxDictionary::open`**: read the parts `info` names. A part without files for a field
is skipped. -/
def openParts (dir : Directory τ) (info : SfxDictionaryMeta) : SfxDictionary τ where
  info := info
  fields f :=
    if f ∈ info.fieldIds then
      info.generations.filterMap (dir.generation · f) ++
        info.pendingSegments.filterMap (dir.minted · f)
    else []

/-- `SfxDictionary::empty`: the dictionary of an index that has committed nothing. -/
def empty : SfxDictionary τ := ⟨⟨[], 1, fun _ => 0, [], []⟩, fun _ => []⟩

/-- `same_parts`: the dictionary is made of exactly the parts `info` names. -/
def sameParts (d : SfxDictionary τ) (info : SfxDictionaryMeta) : Bool :=
  d.info.generations = info.generations ∧ d.info.pendingSegments = info.pendingSegments

variable [DecidableEq τ]

/-- `DictionaryField::lookup`: the id of `key` in the first part that has it, and an FST record
for it. -/
def lookup (d : SfxDictionary τ) (f : FieldId) (key : τ) : Option GlobalId :=
  ((d.fields f).flatten.find? (·.2 = key)).map Prod.fst

/-- `verify`: `id` is the id of `key` in the opened parts. -/
def verify (d : SfxDictionary τ) (f : FieldId) (id : GlobalId) (key : τ) : Bool :=
  ((d.fields f).flatten.find? (·.1 = id)).map Prod.snd = some key

/-- What `lookup` answers stands in one of the opened parts. -/
theorem exists_part_of_lookup {d : SfxDictionary τ} {f : FieldId} {key : τ} {id : GlobalId}
    (h : d.lookup f key = some id) : ∃ part ∈ d.fields f, (id, key) ∈ part := by
  simp only [lookup, Option.map_eq_some_iff] at h
  obtain ⟨⟨id', key'⟩, hfind, rfl⟩ := h
  have hkey : key' = key := by simpa using find?_some hfind
  subst hkey
  exact mem_flatten.mp (mem_of_find?_eq_some hfind)

/-- What `verify` accepts stands in one of the opened parts. -/
theorem exists_part_of_verify {d : SfxDictionary τ} {f : FieldId} {key : τ} {id : GlobalId}
    (h : d.verify f id key = true) : ∃ part ∈ d.fields f, (id, key) ∈ part := by
  simp only [verify, decide_eq_true_eq, Option.map_eq_some_iff] at h
  obtain ⟨⟨id', key'⟩, hfind, rfl⟩ := h
  have hid : id' = id := by simpa using find?_some hfind
  subst hid
  exact mem_flatten.mp (mem_of_find?_eq_some hfind)

end SfxDictionary

namespace DictionaryShared

def beginCommitEpoch (s : DictionaryShared τ) : DictionaryShared τ :=
  { s with epoch := s.epoch + 1 }

/-- `forget_committed_pending`: drop the texts of every epoch before the current one. -/
def forgetCommittedPending (s : DictionaryShared τ) : DictionaryShared τ :=
  { s with pending := s.pending.filter (s.epoch ≤ ·.epoch) }

theorem mem_of_mem_forgetCommittedPending {s : DictionaryShared τ} {p : PendingEntry τ}
    (h : p ∈ s.forgetCommittedPending.pending) : p ∈ s.pending :=
  (mem_filter.mp h).1

variable [DecidableEq τ]

/-- `PendingStripe::get`: the newest pending id of a text. -/
def pendingGet (s : DictionaryShared τ) (f : FieldId) (key : τ) : Option GlobalId :=
  (s.pending.find? (fun p => p.fieldId = f ∧ p.key = key)).map PendingEntry.id

theorem exists_pending_of_pendingGet {s : DictionaryShared τ} {f : FieldId} {key : τ}
    {id : GlobalId} (h : s.pendingGet f key = some id) :
    ∃ p ∈ s.pending, p.fieldId = f ∧ p.key = key ∧ p.id = id := by
  simp only [pendingGet, Option.map_eq_some_iff] at h
  obtain ⟨p, hfind, rfl⟩ := h
  have hp := find?_some hfind
  simp only [decide_eq_true_eq] at hp
  exact ⟨p, mem_of_find?_eq_some hfind, hp.1, hp.2, rfl⟩

/-- The locked end of `lookup_or_mint_hashed`: ask the table once more, then mint. -/
def mint (s : DictionaryShared τ) (f : FieldId) (key : τ) :
    (GlobalId × Bool) × DictionaryShared τ :=
  match s.pendingGet f key with
  | some id => ((id, false), s)
  | none =>
    ((s.nextIds f, true),
      { s with
        nextIds := Function.update s.nextIds f (s.nextIds f + 1)
        pending := ⟨s.epoch, f, key, s.nextIds f⟩ :: s.pending })

end DictionaryShared

variable [DecidableEq τ]

/-- **`lookup_or_mint_hashed`.** `cached` is what the lookup cache answers for the text's hash
(verified before it is believed) and `maybe` what the Bloom filter answers; both are inputs.
The result says whether the id was minted here. -/
def lookupOrMint (d : SfxDictionary τ) (s : DictionaryShared τ) (cached : Option GlobalId)
    (maybe : Bool) (f : FieldId) (key : τ) : (GlobalId × Bool) × DictionaryShared τ :=
  match cached.filter (d.verify f · key) with
  | some id => ((id, false), s)
  | none =>
    if maybe then
      match s.pendingGet f key with
      | some id => ((id, false), s)
      | none =>
        match d.lookup f key with
        | some id => ((id, false), s)
        | none => s.mint f key
    else s.mint f key

/-- **What `lookup_or_mint` can answer**: an id some opened part holds, an id of the pending
table, or the field's next id, minted here. -/
theorem lookupOrMint_cases (d : SfxDictionary τ) (s : DictionaryShared τ)
    (cached : Option GlobalId) (maybe : Bool) (f : FieldId) (key : τ) :
    (∃ id, lookupOrMint d s cached maybe f key = ((id, false), s) ∧
      ∃ part ∈ d.fields f, (id, key) ∈ part) ∨
    (∃ id, lookupOrMint d s cached maybe f key = ((id, false), s) ∧
      ∃ p ∈ s.pending, p.fieldId = f ∧ p.key = key ∧ p.id = id) ∨
    lookupOrMint d s cached maybe f key =
      ((s.nextIds f, true),
        { s with
          nextIds := Function.update s.nextIds f (s.nextIds f + 1)
          pending := ⟨s.epoch, f, key, s.nextIds f⟩ :: s.pending }) := by
  have hmint : (∃ id, s.mint f key = ((id, false), s) ∧
        ∃ p ∈ s.pending, p.fieldId = f ∧ p.key = key ∧ p.id = id) ∨
      s.mint f key = ((s.nextIds f, true),
        { s with
          nextIds := Function.update s.nextIds f (s.nextIds f + 1)
          pending := ⟨s.epoch, f, key, s.nextIds f⟩ :: s.pending }) := by
    unfold DictionaryShared.mint
    cases hget : s.pendingGet f key with
    | some id => exact .inl ⟨id, rfl, DictionaryShared.exists_pending_of_pendingGet hget⟩
    | none => exact .inr rfl
  unfold lookupOrMint
  cases hcache : cached.filter (d.verify f · key) with
  | some id =>
    have hv : d.verify f id key = true := (Option.filter_eq_some_iff.mp hcache).2
    exact .inl ⟨id, rfl, SfxDictionary.exists_part_of_verify hv⟩
  | none =>
    cases maybe with
    | false => exact .inr hmint
    | true =>
      cases hget : s.pendingGet f key with
      | some id => exact .inr (.inl ⟨id, rfl, DictionaryShared.exists_pending_of_pendingGet hget⟩)
      | none =>
        cases hlook : d.lookup f key with
        | some id => exact .inl ⟨id, rfl, SfxDictionary.exists_part_of_lookup hlook⟩
        | none => exact .inr hmint

end Lucivy.SuffixFst
