import Mathlib.Data.List.MinMax
import Mathlib.Order.Nat
import Lucivy.SuffixFst.CollectorV3

/-! # The position map

`.posmap` (`suffix_fst/posmap.rs`): for each document the chunk ordinal at each position, an
empty slot standing between two values, and the byte offset of every sixteenth position. The
byte offset of any position is derived from the checkpoint before it and the lengths of the
chunks in between.

* `PosMap.ordinalAt`, `PosMap.byteAt` — the reader.
* `byteAt_eq` — the derivation through a checkpoint gives the offset counted from the start of
  the value.
* `ordinalAt_collect` — what the map of a collection holds. -/

namespace Lucivy.SuffixFst

open Lucivy.Foundation Lucivy.Tokenizer List

abbrev checkpointEvery : Nat := 16

/-- The slots of every document. -/
structure PosMap where
  /-- The ordinals of a document by position; an empty slot holds no token. -/
  slots : Nat → List (Option Ordinal)

namespace PosMap

def ordinalAt (pm : PosMap) (doc pos : Nat) : Option Ordinal := ((pm.slots doc)[pos]?).join

/-- One position further: an empty slot is a value boundary, the next value starts at 0. -/
def advance (ownLen : Ordinal → Option Nat) (acc : Nat) : Option Ordinal → Option Nat
  | none => some 0
  | some ord => (ownLen ord).map (acc + ·)

/-- `byte_checkpoints`: the byte offset of every sixteenth position; an unknown length counts
as none. -/
def byteCheckpoints (ownLen : Ordinal → Option Nat) :
    Nat → Nat → List (Option Ordinal) → List Nat
  | _, _, [] => []
  | p, acc, slot :: rest =>
    (if p % checkpointEvery = 0 then [acc] else []) ++
      byteCheckpoints ownLen (p + 1) ((advance ownLen acc slot).getD acc) rest

/-- `byte_at`: from the checkpoint before the position; nothing past the document, on an empty
slot, or behind an unknown length. -/
def byteAt (pm : PosMap) (ownLen : Ordinal → Option Nat) (doc pos : Nat) : Option Nat := do
  let slots := pm.slots doc
  let ck := pos / checkpointEvery
  let start ← (byteCheckpoints ownLen 0 0 slots)[ck]?
  let acc ← ((slots.drop (ck * checkpointEvery)).take (pos - ck * checkpointEvery)).foldlM
    (advance ownLen) start
  let _ ← pm.ordinalAt doc pos
  return acc

/-- The map of a collector's postings: `add` for each of them. -/
def ofPostings (postings : List ChunkPosting) : PosMap where
  slots doc := let mine := postings.filter (·.docId = doc)
    (List.range ((mine.map (·.position + 1)).foldr max 0)).map fun pos =>
      (mine.find? (·.position = pos)).map ChunkPosting.ordinal

/-! ## Byte offsets -/

/-- The byte offset reached after some slots. -/
def bytesAfter (ownLen : Ordinal → Option Nat) (acc : Nat) (slots : List (Option Ordinal)) : Nat :=
  slots.foldl (fun acc slot => (advance ownLen acc slot).getD acc) acc

theorem bytesAfter_append (ownLen : Ordinal → Option Nat) (acc : Nat)
    (slots rest : List (Option Ordinal)) :
    bytesAfter ownLen acc (slots ++ rest) = bytesAfter ownLen (bytesAfter ownLen acc slots) rest :=
  foldl_append

/-- The lengths of these slots are known. -/
def Known (ownLen : Ordinal → Option Nat) (slots : List (Option Ordinal)) : Prop :=
  ∀ ord, some ord ∈ slots → (ownLen ord).isSome

theorem foldlM_advance {ownLen : Ordinal → Option Nat} {slots : List (Option Ordinal)}
    (h : Known ownLen slots) (acc : Nat) :
    slots.foldlM (advance ownLen) acc = some (bytesAfter ownLen acc slots) := by
  induction slots generalizing acc with
  | nil => rfl
  | cons slot rest ih =>
    have hrest : Known ownLen rest := fun ord hord => h ord (mem_cons_of_mem _ hord)
    obtain ⟨n, hn⟩ : ∃ n, advance ownLen acc slot = some n := by
      cases slot with
      | none => exact ⟨0, rfl⟩
      | some ord =>
        obtain ⟨len, hlen⟩ := Option.isSome_iff_exists.mp (h ord mem_cons_self)
        exact ⟨acc + len, by rw [advance, hlen]; rfl⟩
    rw [foldlM_cons, hn, bytesAfter, foldl_cons, hn]
    exact ih hrest n

section Marks

variable {σ α : Type*} {step : σ → α → σ} {marks : Nat → σ → List α → List σ}
  (hcons : ∀ p acc x rest, marks p acc (x :: rest) =
    (if p % checkpointEvery = 0 then [acc] else []) ++ marks (p + 1) (step acc x) rest)
include hcons

/-- A loop that keeps what it has reached at every sixteenth position. It stands at position `p`;
what belongs to the positions before is already kept. -/
theorem marks_getElem? (l : List α) (p k : Nat) (acc : σ) (hp : p ≤ k * checkpointEvery)
    (hk : k * checkpointEvery - p < l.length) :
    (marks p acc l)[k - (p + checkpointEvery - 1) / checkpointEvery]? =
      some ((l.take (k * checkpointEvery - p)).foldl step acc) := by
  simp only [checkpointEvery] at *
  induction l generalizing p acc with
  | nil => exact absurd hk (Nat.not_lt_zero _)
  | cons x rest ih =>
    rw [hcons]
    by_cases hzero : p = k * 16
    · subst hzero
      have hidx : k - (k * 16 + 16 - 1) / 16 = 0 := by omega
      rw [hidx, if_pos (Nat.mul_mod_left ..), Nat.sub_self]
      rfl
    · have hrest := ih (p + 1) (step acc x) (by omega) (by rw [length_cons] at hk; omega)
      obtain ⟨n, hn⟩ : ∃ n, k * 16 - p = n + 1 := ⟨k * 16 - p - 1, by omega⟩
      have hn' : k * 16 - (p + 1) = n := by omega
      rw [hn'] at hrest
      rw [hn, take_succ_cons, foldl_cons]
      by_cases hck : p % 16 = 0
      · rw [if_pos hck, singleton_append]
        obtain ⟨j, hj⟩ : ∃ j, k - (p + 16 - 1) / 16 = j + 1 := ⟨k - (p + 16 - 1) / 16 - 1, by omega⟩
        have hj' : k - (p + 1 + 16 - 1) / 16 = j := by omega
        rw [hj, getElem?_cons_succ, ← hj']
        exact hrest
      · rw [if_neg hck, nil_append]
        have hsame : (p + 16 - 1) / 16 = (p + 1 + 16 - 1) / 16 := by omega
        rw [hsame]
        exact hrest

/-- **A checkpoint holds what its position has reached.** -/
theorem checkpoint_getElem? (l : List α) {k : Nat} (acc : σ) (hk : k * checkpointEvery < l.length) :
    (marks 0 acc l)[k]? = some ((l.take (k * checkpointEvery)).foldl step acc) :=
  marks_getElem? hcons l 0 k acc (Nat.zero_le _) hk

end Marks

theorem lt_length_of_ordinalAt {pm : PosMap} {doc pos : Nat} {ord : Ordinal}
    (h : pm.ordinalAt doc pos = some ord) : pos < (pm.slots doc).length := by
  by_contra hlen
  rw [ordinalAt, getElem?_eq_none (Nat.le_of_not_lt hlen)] at h
  cases h

/-- **The byte offset of a position** does not depend on the checkpoint it is derived from. -/
theorem byteAt_eq {pm : PosMap} {ownLen : Ordinal → Option Nat} {doc pos : Nat} {ord : Ordinal}
    (hord : pm.ordinalAt doc pos = some ord) (hknown : Known ownLen ((pm.slots doc).take pos)) :
    pm.byteAt ownLen doc pos = some (bytesAfter ownLen 0 ((pm.slots doc).take pos)) := by
  have hpos := lt_length_of_ordinalAt hord
  have hck : pos / checkpointEvery * checkpointEvery ≤ pos := Nat.div_mul_le_self ..
  have hstart := @checkpoint_getElem? _ _ _ (byteCheckpoints ownLen) (fun _ _ _ _ => rfl)
    (pm.slots doc) _ 0 (lt_of_le_of_lt hck hpos)
  -- the slots up to the checkpoint, then those from it to the position
  have hsplit : (pm.slots doc).take pos =
      (pm.slots doc).take (pos / checkpointEvery * checkpointEvery) ++
        ((pm.slots doc).drop (pos / checkpointEvery * checkpointEvery)).take
          (pos - pos / checkpointEvery * checkpointEvery) := by
    conv_lhs => rw [← Nat.add_sub_cancel' hck, take_add]
  have hrest : Known ownLen (((pm.slots doc).drop (pos / checkpointEvery * checkpointEvery)).take
      (pos - pos / checkpointEvery * checkpointEvery)) :=
    fun o ho => hknown o (by rw [hsplit]; exact mem_append_right _ ho)
  rw [byteAt, hstart, hord, Option.bind_eq_bind, Option.bind_some, foldlM_advance hrest, hsplit,
    bytesAfter_append]
  rfl

/-! ## The map of a collection -/

/-- The map answers as the postings do. -/
theorem ordinalAt_ofPostings (postings : List ChunkPosting) (doc pos : Nat) :
    (ofPostings postings).ordinalAt doc pos =
      (postings.find? fun q => q.docId = doc ∧ q.position = pos).map ChunkPosting.ordinal := by
  have hfind : (postings.filter (·.docId = doc)).find? (·.position = pos) =
      postings.find? fun q => q.docId = doc ∧ q.position = pos := by
    simp
  rw [ordinalAt, ofPostings, ← hfind]
  simp only [getElem?_map]
  generalize postings.filter (·.docId = doc) = mine
  by_cases hpos : pos < (mine.map (·.position + 1)).foldr max 0
  · rw [getElem?_range hpos]
    rfl
  · have hnone : mine.find? (·.position = pos) = none := by
      refine find?_eq_none.mpr fun q hq hqpos => hpos ?_
      have hle : q.position + 1 ≤ (mine.map (·.position + 1)).foldr max 0 :=
        le_max_of_le (mem_map_of_mem hq) (le_refl _)
      simp only [decide_eq_true_eq] at hqpos
      omega
    rw [hnone, getElem?_eq_none (by rw [length_range]; omega)]
    rfl

/-- The map of postings at different places holds what they say. -/
theorem ordinalAt_ofPostings_iff {postings : List ChunkPosting}
    (hone : ∀ p ∈ postings, ∀ q ∈ postings, p.docId = q.docId → p.position = q.position → p = q)
    {doc pos : Nat} {o : Ordinal} :
    (ofPostings postings).ordinalAt doc pos = some o ↔ ⟨o, doc, pos⟩ ∈ postings := by
  rw [ordinalAt_ofPostings, Option.map_eq_some_iff]
  constructor
  · rintro ⟨q, hq, rfl⟩
    obtain ⟨rfl, rfl⟩ : q.docId = doc ∧ q.position = pos := by simpa using find?_some hq
    exact mem_of_find?_eq_some hq
  · intro hmem
    cases hq : postings.find? fun q => q.docId = doc ∧ q.position = pos with
    | none => simpa using find?_eq_none.mp hq _ hmem
    | some q =>
      obtain ⟨hdoc, hpos⟩ : q.docId = doc ∧ q.position = pos := by simpa using find?_some hq
      exact ⟨q, rfl, by rw [hone q (mem_of_find?_eq_some hq) _ hmem hdoc hpos]⟩

variable {docs : List (List Text)} {doc pos : Nat} {values : List Text}

/-- A document has one slot at a position. -/
theorem collect_postings_one : ∀ p ∈ (Collector.collect docs).postings,
    ∀ q ∈ (Collector.collect docs).postings, p.docId = q.docId → p.position = q.position →
      p = q := by
  rintro ⟨o, d, i⟩ hp ⟨o', d', i'⟩ hq rfl rfl
  obtain ⟨values, hvalues, hslot⟩ := Collector.mem_collect_postings.mp hp
  obtain ⟨values', hvalues', hslot'⟩ := Collector.mem_collect_postings.mp hq
  rw [hvalues] at hvalues'
  cases hvalues'
  rw [hslot] at hslot'
  cases hslot'
  rfl

/-- **The map of a collection** holds what its postings say. -/
theorem ordinalAt_eq_some {o : Ordinal} :
    (ofPostings (Collector.collect docs).postings).ordinalAt doc pos = some o ↔
      ⟨o, doc, pos⟩ ∈ (Collector.collect docs).postings :=
  ordinalAt_ofPostings_iff collect_postings_one

/-- **What stands at a position of a collection**: the slot of the document. -/
theorem ordinalAt_collect (h : docs[doc]? = some values) (pos : Nat) :
    (ofPostings (Collector.collect docs).postings).ordinalAt doc pos =
      ((docSlots values)[pos]?).join := by
  refine Option.ext fun o => ?_
  rw [ordinalAt_eq_some, Collector.mem_collect_postings, Option.join_eq_some_iff]
  simp [h]

/-- Up to a position with a token, the map's slots are the document's. -/
theorem take_slots_collect {ord : Ordinal} (h : docs[doc]? = some values)
    (hord : (ofPostings (Collector.collect docs).postings).ordinalAt doc pos = some ord) :
    ((ofPostings (Collector.collect docs).postings).slots doc).take pos =
      (docSlots values).take pos := by
  have hpos := lt_length_of_ordinalAt hord
  have hpos' : pos < (docSlots values).length := by
    by_contra hlen
    rw [ordinalAt_collect h, getElem?_eq_none (Nat.le_of_not_lt hlen)] at hord
    cases hord
  refine ext_getElem? fun i => ?_
  by_cases hi : i < pos
  · rw [getElem?_take_of_lt hi, getElem?_take_of_lt hi]
    have hslot := ordinalAt_collect h i
    rw [ordinalAt, getElem?_eq_getElem (hi.trans hpos),
      getElem?_eq_getElem (hi.trans hpos')] at hslot
    rw [getElem?_eq_getElem (hi.trans hpos), getElem?_eq_getElem (hi.trans hpos')]
    exact congrArg some hslot
  · rw [getElem?_eq_none (by rw [length_take]; omega),
      getElem?_eq_none (by rw [length_take]; omega)]

end PosMap

end Lucivy.SuffixFst
