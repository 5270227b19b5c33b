import Lucivy.Indexer.SegmentEntry

/-! # The segment manager

`segment_register.rs` and `segment_manager.rs`: two registers, one for the segments no commit
has taken yet and one for the committed ones.

* `SegmentRegister` — a map from segment ids to entries, kept as a list whose ids are
  distinct (the `HashMap` of the source has no order either; whoever prints the entries sorts
  them).
* `SegmentRegisters` — the two registers and the manager's operations on them: `addSegment`,
  `commit`, `startMerge`, `endMerge`, `removeEmptySegments`, `removeAllSegments`.

The lemmas describe each operation by the ids it leaves in each register. -/

namespace Lucivy.Indexer

open List

/-! ## One register -/

/-- **A register**: segment entries, at most one for each id. -/
structure SegmentRegister where
  /-- `segment_states`. -/
  entries : List SegmentEntry
  /-- A `HashMap` holds one entry per key. -/
  nodup : (entries.map SegmentEntry.id).Nodup
  deriving DecidableEq

namespace SegmentRegister

/-- The empty register (`clear`, `default`). -/
def empty : SegmentRegister := ⟨[], by simp⟩

/-- `segment_ids`. -/
def ids (r : SegmentRegister) : List SegmentId := r.entries.map SegmentEntry.id

def segmentMetas (r : SegmentRegister) : List SegmentMeta := r.entries.map SegmentEntry.info

def get (r : SegmentRegister) (id : SegmentId) : Option SegmentEntry :=
  r.entries.find? (·.id = id)

def containsAll (r : SegmentRegister) (segmentIds : List SegmentId) : Bool :=
  segmentIds.all (· ∈ r.ids)

/-- Keep the entries `p` holds of. -/
def filter (r : SegmentRegister) (p : SegmentEntry → Bool) : SegmentRegister :=
  ⟨r.entries.filter p, (filter_sublist.map SegmentEntry.id).nodup r.nodup⟩

def removeSegment (r : SegmentRegister) (id : SegmentId) : SegmentRegister :=
  r.filter (·.id ≠ id)

/-- `add_segment_entry`: insert under the entry's id, replacing what was there. -/
def addSegmentEntry (r : SegmentRegister) (e : SegmentEntry) : SegmentRegister :=
  ⟨(r.removeSegment e.id).entries ++ [e], by
    rw [map_append, nodup_append]
    refine ⟨(r.removeSegment e.id).nodup, by simp, ?_⟩
    intro a ha b hb
    obtain ⟨x, hx, rfl⟩ := mem_map.mp ha
    have hxe : x.id ≠ e.id := by simpa [removeSegment, filter] using (mem_filter.mp hx).2
    simp only [map_cons, map_nil, mem_singleton] at hb
    rwa [hb]⟩

/-- The register holding the given entries, later ones replacing earlier ones. -/
def ofEntries (entries : List SegmentEntry) : SegmentRegister :=
  entries.foldl addSegmentEntry empty

@[simp] theorem ids_empty : empty.ids = [] := rfl

variable {r : SegmentRegister} {x : SegmentId}

/-- Ids are those of entries. -/
theorem mem_ids {id : SegmentId} : id ∈ r.ids ↔ ∃ e ∈ r.entries, e.id = id := mem_map

theorem mem_ids_filter {p : SegmentEntry → Bool} {id : SegmentId} (h : id ∈ (r.filter p).ids) :
    id ∈ r.ids := by
  obtain ⟨e, he, rfl⟩ := mem_ids.mp h
  exact mem_ids.mpr ⟨e, (mem_filter.mp he).1, rfl⟩

/-- One is removed. -/
@[simp] theorem mem_ids_removeSegment {id x : SegmentId} :
    x ∈ (r.removeSegment id).ids ↔ x ∈ r.ids ∧ x ≠ id := by
  constructor
  · intro h
    obtain ⟨e, he, rfl⟩ := mem_ids.mp h
    obtain ⟨hmem, hne⟩ := mem_filter.mp he
    exact ⟨mem_ids.mpr ⟨e, hmem, rfl⟩, by simpa using hne⟩
  · rintro ⟨h, hne⟩
    obtain ⟨e, he, rfl⟩ := mem_ids.mp h
    exact mem_ids.mpr ⟨e, mem_filter.mpr ⟨he, by simpa using hne⟩, rfl⟩

/-- One is added. -/
@[simp] theorem mem_ids_addSegmentEntry {e : SegmentEntry} :
    x ∈ (r.addSegmentEntry e).ids ↔ x ∈ r.ids ∨ x = e.id := by
  have h : (r.addSegmentEntry e).ids = (r.removeSegment e.id).ids ++ [e.id] := by
    simp [ids, addSegmentEntry]
  rw [h, mem_append, mem_ids_removeSegment, mem_singleton]
  by_cases hx : x = e.id
  · simp [hx]
  · simp [hx]

/-- Several are. -/
theorem mem_ids_foldl_addSegmentEntry {entries : List SegmentEntry} :
    x ∈ (entries.foldl addSegmentEntry r).ids ↔ x ∈ r.ids ∨ x ∈ entries.map SegmentEntry.id := by
  induction entries generalizing r with
  | nil => simp
  | cons e rest ih => rw [foldl_cons, ih, mem_ids_addSegmentEntry, map_cons, mem_cons, or_assoc]

@[simp] theorem mem_ids_ofEntries {entries : List SegmentEntry} :
    x ∈ (ofEntries entries).ids ↔ x ∈ entries.map SegmentEntry.id := by
  rw [ofEntries, mem_ids_foldl_addSegmentEntry]
  simp

/-- All are there. -/
theorem containsAll_iff {segmentIds : List SegmentId} :
    r.containsAll segmentIds = true ↔ ∀ id ∈ segmentIds, id ∈ r.ids := by
  simp [containsAll]

/-- Removing a list of ids one after the other. -/
theorem mem_ids_foldl_removeSegment {segmentIds : List SegmentId} :
    x ∈ (segmentIds.foldl removeSegment r).ids ↔ x ∈ r.ids ∧ x ∉ segmentIds := by
  induction segmentIds generalizing r with
  | nil => simp
  | cons id rest ih => rw [foldl_cons, ih, mem_ids_removeSegment, mem_cons, not_or, and_assoc]

end SegmentRegister

/-! ## The two registers -/

/-- `SegmentsStatus`: which register holds a group of segments. -/
inductive SegmentsStatus
  | committed
  | uncommitted
  deriving Repr, DecidableEq

/-- **The registers of the segment manager.** -/
structure SegmentRegisters where
  /-- Segments added since the last commit. -/
  uncommitted : SegmentRegister
  /-- Segments a commit has taken, and the merged segments that replaced them. -/
  committed : SegmentRegister
  deriving DecidableEq

namespace SegmentRegisters

/-- `from_segments`: everything `meta.json` lists is committed. -/
def fromSegments (metas : List SegmentMeta) : SegmentRegisters :=
  ⟨.empty, .ofEntries (metas.map SegmentEntry.ofMeta)⟩

/-- `segments_status`: the register that has all of `segmentIds`, the uncommitted one asked
first. -/
def segmentsStatus (r : SegmentRegisters) (segmentIds : List SegmentId) :
    Option SegmentsStatus :=
  if r.uncommitted.containsAll segmentIds then some .uncommitted
  else if r.committed.containsAll segmentIds then some .committed
  else none

/-- `segment_entries`: the uncommitted entries, then the committed ones. -/
def segmentEntries (r : SegmentRegisters) : List SegmentEntry :=
  r.uncommitted.entries ++ r.committed.entries

/-- `remove_empty_segments`: drop committed segments with no document left. -/
def removeEmptySegments (r : SegmentRegisters) : SegmentRegisters :=
  { r with committed := r.committed.filter (·.info.numDocs ≠ 0) }

def removeAllSegments (_ : SegmentRegisters) : SegmentRegisters := ⟨.empty, .empty⟩

/-- **`SegmentManager::commit`**: both registers are cleared and every given entry is put in
the committed one. -/
def commit (_ : SegmentRegisters) (entries : List SegmentEntry) : SegmentRegisters :=
  ⟨.empty, .ofEntries entries⟩

/-- `start_merge`: the entries of a group that lies in one register; the registers do not
change. -/
def startMerge (r : SegmentRegisters) (segmentIds : List SegmentId) :
    Except LucivyError (List SegmentEntry) :=
  if r.uncommitted.containsAll segmentIds then .ok (segmentIds.filterMap r.uncommitted.get)
  else if r.committed.containsAll segmentIds then .ok (segmentIds.filterMap r.committed.get)
  else .error (.invalidArgument
    "Merge operation sent for segments that are not all uncommitted or committed.")

def addSegment (r : SegmentRegisters) (e : SegmentEntry) : SegmentRegisters :=
  { r with uncommitted := r.uncommitted.addSegmentEntry e }

/-- One register of `end_merge`: the sources leave, the merged segment enters. -/
def replaceIn (r : SegmentRegister) (before : List SegmentId) (after : Option SegmentEntry) :
    SegmentRegister :=
  match after with
  | none => before.foldl SegmentRegister.removeSegment r
  | some e => (before.foldl SegmentRegister.removeSegment r).addSegmentEntry e

/-- **`end_merge`**: the merged segment replaces its sources in the register that has them
all. -/
def endMerge (r : SegmentRegisters) (before : List SegmentId) (after : Option SegmentEntry) :
    Except LucivyError SegmentRegisters :=
  match r.segmentsStatus before with
  | some .uncommitted => .ok { r with uncommitted := replaceIn r.uncommitted before after }
  | some .committed => .ok { r with committed := replaceIn r.committed before after }
  | none => .error (.invalidArgument
      ("The segments that were merged could not be found in the SegmentManager. This is not "
        ++ "necessarily a bug, and can happen after a rollback for instance."))

/-- A commit registers these. -/
@[simp] theorem mem_ids_commit {r : SegmentRegisters} {es : List SegmentEntry}
    {x : SegmentId} : x ∈ (r.commit es).committed.ids ↔ x ∈ es.map SegmentEntry.id :=
  SegmentRegister.mem_ids_ofEntries

theorem mem_ids_removeEmptySegments {r : SegmentRegisters} {x : SegmentId}
    (h : x ∈ r.removeEmptySegments.committed.ids) : x ∈ r.committed.ids :=
  SegmentRegister.mem_ids_filter h

/-- A merge replaces its sources. -/
theorem mem_ids_replaceIn {r : SegmentRegister} {before : List SegmentId}
    {after : Option SegmentEntry} {x : SegmentId} (h : x ∈ (replaceIn r before after).ids) :
    x ∈ r.ids ∨ ∃ e, after = some e ∧ x = e.id := by
  cases after with
  | none => exact .inl (SegmentRegister.mem_ids_foldl_removeSegment.mp h).1
  | some e =>
    rcases SegmentRegister.mem_ids_addSegmentEntry.mp h with h | h
    · exact .inl (SegmentRegister.mem_ids_foldl_removeSegment.mp h).1
    · exact .inr ⟨e, rfl, h⟩

/-- **What `end_merge` can do**: the sources all lie in one register, and only that register
changes. -/
theorem endMerge_ok {r r' : SegmentRegisters} {before : List SegmentId}
    {after : Option SegmentEntry} (h : r.endMerge before after = .ok r') :
    ((∀ id ∈ before, id ∈ r.uncommitted.ids) ∧
      r' = { r with uncommitted := replaceIn r.uncommitted before after }) ∨
    ((∀ id ∈ before, id ∈ r.committed.ids) ∧
      r' = { r with committed := replaceIn r.committed before after }) := by
  unfold endMerge segmentsStatus at h
  by_cases hu : r.uncommitted.containsAll before = true
  · rw [if_pos hu] at h
    exact .inl ⟨SegmentRegister.containsAll_iff.mp hu, by cases h; rfl⟩
  · rw [if_neg hu] at h
    by_cases hc : r.committed.containsAll before = true
    · rw [if_pos hc] at h
      exact .inr ⟨SegmentRegister.containsAll_iff.mp hc, by cases h; rfl⟩
    · rw [if_neg hc] at h
      cases h

end SegmentRegisters

end Lucivy.Indexer
