import Lucivy.Sharded.ShardedHandle
import Mathlib.Data.List.Flatten

/-! # Filtered searches

`search_once` (`sharded_handle.rs`) on a set of allowed node ids. It asks the router's record for
the shard of every id; if all are known, a shard is visited with its own share of the ids, or not at
all, and if one is not, every shard is visited with the whole set. An index that does not fit in
memory is searched in batches of shards.

What a shard answers is left to a predicate on documents; scores, their order and the cut to the
best `k` are not modelled.

* `shardFilter` — the filter of a search.
* `active`, `dagHits` — the shards one search graph visits, and what it finds.
* `runSearch` — the documents matched, in one graph or in batches; `runSearch_eq` — **batches
  change none of them**.
* `Admits` — a filter lets a shard answer with a node id; `hits_eq` — the answer in these terms. -/

namespace Lucivy.Sharded

open List Function

variable {α : Type}

/-! ## The filter -/

inductive ShardFilter
  /-- Every shard, unfiltered. -/
  | none
  /-- Every shard, the same allowed set. -/
  | all (allowed : List Nat)
  /-- One entry a shard: its share of the allowed ids, if it has one. -/
  | perShard (groups : List (Option (List Nat)))
  /-- Only these shards, unfiltered. -/
  | subset (ids : List Nat)

/-- The loop over the allowed ids: the group of every shard, unless an id is not known. -/
def placeIds (n : Nat) (routes : ShardRouter) :
    List Nat → (Nat → List Nat) → Option (Nat → List Nat)
  | [], groups => some groups
  | id :: ids, groups =>
    match routes.shardForNodeId id with
    | some sid =>
      if sid < n then placeIds n routes ids (Function.update groups sid (groups sid ++ [id]))
      else Option.none
    | Option.none => Option.none

/-- The groups as entries. -/
def shares (n : Nat) (groups : Nat → List Nat) : List (Option (List Nat)) :=
  (List.range n).map fun j => if (groups j).isEmpty then Option.none else some (groups j)

/-- **The filter of `search_once`**, or nothing if the answer is empty at once. -/
def shardFilter (n : Nat) (routes : ShardRouter) : Option (List Nat) → Option ShardFilter
  | Option.none => some .none
  | some allowed =>
    if allowed.isEmpty then Option.none
    else
      match placeIds n routes allowed fun _ => [] with
      | some groups =>
        if (List.range n).all fun j => (groups j).isEmpty then Option.none
        else some (.perShard (shares n groups))
      | Option.none => some (.all allowed)

/-! ## The visits -/

/-- The shards that run a search node, each with its filter (`build_search_dag_with_query`). -/
def active (n : Nat) : ShardFilter → List (Nat × Option (List Nat))
  | .none => (List.range n).map fun j => (j, Option.none)
  | .all allowed => (List.range n).map fun j => (j, some allowed)
  | .perShard groups =>
    groups.zipIdx.filterMap fun entry => entry.1.map fun group => (entry.2, some group)
  | .subset ids => ids.map fun j => (j, Option.none)

/-- A filter lets a node id through (`filtered_segment_reader`). -/
def passes (filter : Option (List Nat)) (nodeId : Nat) : Bool :=
  filter.all fun allowed => allowed.contains nodeId

/-- What one shard answers (`execute_weight_on_shard`). -/
def shardHits (docs : Nat → List (Document α)) (isHit : Document α → Bool)
    (visit : Nat × Option (List Nat)) : List (Nat × Document α) :=
  ((docs visit.1).filter fun doc => isHit doc && passes visit.2 doc.nodeId).map fun doc =>
    (visit.1, doc)

/-- The errors of a search. -/
inductive SearchError
  /-- `no shard holds any of the allowed ids`. -/
  | noShard
deriving DecidableEq, Repr

/-- One search graph. -/
def dagHits (n : Nat) (docs : Nat → List (Document α)) (isHit : Document α → Bool)
    (filter : ShardFilter) : Except SearchError (List (Nat × Document α)) :=
  if (active n filter).isEmpty then .error .noShard
  else .ok ((active n filter).flatMap (shardHits docs isHit))

/-! ## Batches -/

/-- The loop of `batches_by_bytes`: the batch being filled and its size. -/
def batchLoop (bytes : Nat → Nat) (budget : Nat) : List Nat → List Nat → Nat → List (List Nat)
  | [], current, _ => if current.isEmpty then [] else [current]
  | i :: rest, current, size =>
    if !current.isEmpty && decide (budget < size + bytes i) then
      current :: batchLoop bytes budget rest [i] (bytes i)
    else batchLoop bytes budget rest (current ++ [i]) (size + bytes i)

/-- How the index is kept: the bytes of its shards, and the budget of a batch if it does not fit in
memory (`Residency`). -/
structure Residency where
  /-- `shard_bytes_checked`. -/
  bytes : Nat → Nat
  /-- `batch_bytes` of `Streaming`. -/
  budget : Option Nat

/-- The shards of a filter, as `search_once` lists them for batches. -/
def activeShards (n : Nat) : ShardFilter → List Nat
  | .none => List.range n
  | .all _ => List.range n
  | .perShard groups => groups.zipIdx.filterMap fun entry => entry.1.map fun _ => entry.2
  | .subset ids => ids

/-- The batches of a search; none for an index in memory or of one shard. -/
def batches (n : Nat) (residency : Residency) (filter : ShardFilter) : List (List Nat) :=
  match residency.budget with
  | Option.none => []
  | some budget =>
    if n ≤ 1 then [] else batchLoop residency.bytes budget (activeShards n filter) [] 0

def batchFilter (n : Nat) (filter : ShardFilter) (batch : List Nat) : ShardFilter :=
  match filter with
  | .none => .subset batch
  | .all allowed =>
    .perShard ((List.range n).map fun i => if batch.contains i then some allowed else Option.none)
  | .perShard groups =>
    .perShard (groups.zipIdx.map fun entry =>
      if batch.contains entry.2 then entry.1 else Option.none)
  | .subset _ => .subset batch

/-- The batches one after the other. -/
def batchHits (n : Nat) (docs : Nat → List (Document α)) (isHit : Document α → Bool)
    (filter : ShardFilter) :
    List (List Nat) → Except SearchError (List (Nat × Document α))
  | [] => .ok []
  | batch :: rest => do
      let hits ← dagHits n docs isHit (batchFilter n filter batch)
      let others ← batchHits n docs isHit filter rest
      return hits ++ others

/-- **The documents a search matches**, once its filter is there. -/
def runSearch (n : Nat) (docs : Nat → List (Document α)) (isHit : Document α → Bool)
    (residency : Residency) : Option ShardFilter → Except SearchError (List (Nat × Document α))
  | Option.none => .ok []
  | some filter =>
    if (batches n residency filter).length ≤ 1 then dagHits n docs isHit filter
    else batchHits n docs isHit filter (batches n residency filter)

/-! ## Placing the ids -/

section Placing

variable {n : Nat} {routes : ShardRouter}

/-- If all ids are known, everyone is in the group of its shard. -/
theorem placeIds_some {ids : List Nat} {groups groups' : Nat → List Nat}
    (h : placeIds n routes ids groups = some groups') :
    (∀ id ∈ ids, ∃ j < n, routes.shardForNodeId id = some j) ∧
      ∀ j id, id ∈ groups' j ↔ id ∈ groups j ∨ (id ∈ ids ∧ routes.shardForNodeId id = some j) := by
  induction ids generalizing groups with
  | nil =>
    cases h
    simp
  | cons x ids ih =>
    rw [placeIds] at h
    split at h
    · next sid hsid =>
      split at h
      · next hlt =>
        obtain ⟨hknown, hmem⟩ := ih h
        refine ⟨forall_mem_cons.mpr ⟨⟨sid, hlt, hsid⟩, hknown⟩, fun j id => ?_⟩
        rw [hmem, mem_cons, or_and_right, ← or_assoc]
        refine or_congr_left ?_
        by_cases hj : j = sid
        · subst hj
          rw [update_self, mem_append, mem_singleton]
          exact or_congr_right (and_iff_left_of_imp fun h => h ▸ hsid).symm
        · rw [update_of_ne hj]
          refine (or_iff_left ?_).symm
          rintro ⟨rfl, hr⟩
          exact hj (Option.some.inj (hr.symm.trans hsid))
      · cases h
    · cases h

end Placing

/-! ## The shards a filter visits -/

section Visits

variable {n : Nat}

theorem zipIdx_map_range {β : Type} (g : Nat → β) (n : Nat) :
    ((List.range n).map g).zipIdx = (List.range n).map fun j => (g j, j) := by
  refine ext_getElem (by simp) fun i _ _ => ?_
  simp

/-- The visits of a filter with one entry a shard. -/
theorem active_perShard (g : Nat → Option (List Nat)) :
    active n (.perShard ((List.range n).map g)) =
      (List.range n).filterMap fun j => (g j).map fun group => (j, some group) := by
  rw [active, zipIdx_map_range, filterMap_map]
  rfl

/-- The same set for all is one entry a shard. -/
theorem active_all (allowed : List Nat) :
    active n (.all allowed) = active n (.perShard ((List.range n).map fun _ => some allowed)) := by
  rw [active_perShard, active, ← filterMap_eq_map]
  rfl

/-- The shards listed for batches are those visited. -/
theorem activeShards_eq (f : ShardFilter) : activeShards n f = (active n f).map Prod.fst := by
  cases f with
  | none | all _ | subset _ => simp [activeShards, active, comp_def]
  | perShard groups =>
    simp only [active, map_filterMap, Option.map_map]
    rfl

/-- A batch of a filter with one entry a shard visits its part of it. -/
theorem active_batchFilter_perShard (g : Nat → Option (List Nat)) (batch : List Nat) :
    active n (batchFilter n (.perShard ((List.range n).map g)) batch) =
      (active n (.perShard ((List.range n).map g))).filter fun visit => batch.contains visit.1 := by
  rw [batchFilter, zipIdx_map_range, map_map, active_perShard, active_perShard]
  rw [filter_filterMap]
  refine filterMap_congr fun j _ => ?_
  cases hg : g j <;> by_cases hj : j ∈ batch <;> simp [hg, Option.filter]

/-- So does a batch with the same set for all. -/
theorem active_batchFilter_all (allowed batch : List Nat) :
    active n (batchFilter n (.all allowed) batch) =
      (active n (.all allowed)).filter fun visit => batch.contains visit.1 := by
  rw [active_all, ← active_batchFilter_perShard, batchFilter, batchFilter, zipIdx_map_range,
    map_map]
  rfl

/-- Every shard is visited at most once. -/
theorem nodup_active_perShard (g : Nat → Option (List Nat)) :
    ((active n (.perShard ((List.range n).map g))).map Prod.fst).Nodup := by
  have hshards : (active n (.perShard ((List.range n).map g))).map Prod.fst =
      (List.range n).filter fun j => (g j).isSome := by
    rw [active_perShard, map_filterMap, ← filterMap_eq_filter]
    refine filterMap_congr fun j _ => ?_
    cases hg : g j <;> simp [Option.guard, hg]
  rw [hshards]
  exact nodup_range.filter _

end Visits

/-! ## Batches change nothing -/

section Batches

variable {n : Nat}

/-- The loop loses no shard and keeps their order. -/
theorem flatten_batchLoop (bytes : Nat → Nat) (budget : Nat) (shards current : List Nat)
    (size : Nat) : (batchLoop bytes budget shards current size).flatten = current ++ shards := by
  induction shards generalizing current size with
  | nil =>
    rw [batchLoop]
    split
    · next h => simp [isEmpty_iff.mp h]
    · simp
  | cons i rest ih =>
    rw [batchLoop]
    split
    · rw [flatten_cons, ih, singleton_append]
    · rw [ih, append_assoc, singleton_append]

/-- It makes no empty batch. -/
theorem ne_nil_of_mem_batchLoop (bytes : Nat → Nat) (budget : Nat) (shards current : List Nat)
    (size : Nat) : ∀ batch ∈ batchLoop bytes budget shards current size, batch ≠ [] := by
  induction shards generalizing current size with
  | nil =>
    rw [batchLoop]
    split
    · simp
    · next h => simpa using h
  | cons i rest ih =>
    rw [batchLoop]
    split
    · next h =>
      simp only [Bool.and_eq_true, Bool.not_eq_true', isEmpty_eq_false_iff] at h
      exact forall_mem_cons.mpr ⟨h.1, ih _ _⟩
    · exact ih _ _

/-- A list cut by its keys into consecutive parts is the parts one after the other. -/
theorem flatMap_filter_contains {β : Type} {parts : List (List Nat)} {l : List (Nat × β)}
    (h : parts.flatten = l.map Prod.fst) (hnodup : (l.map Prod.fst).Nodup) :
    parts.flatMap (fun part => l.filter fun entry => part.contains entry.1) = l := by
  induction parts generalizing l with
  | nil =>
    obtain rfl : l = [] := by simpa using h.symm
    rfl
  | cons part parts ih =>
    obtain ⟨l₁, l₂, rfl, rfl, hl₂⟩ := map_eq_append_iff.mp h.symm
    rw [map_append, nodup_append] at hnodup
    obtain ⟨-, hnodup₂, hdisjoint⟩ := hnodup
    -- the first part is the front of the list, and no other part has anything of it
    have hfirst : (l₁ ++ l₂).filter (fun entry => (l₁.map Prod.fst).contains entry.1) = l₁ := by
      rw [filter_append, filter_eq_self.mpr, filter_eq_nil_iff.mpr, append_nil]
      · exact fun entry he hmem =>
          hdisjoint _ (contains_iff_mem.mp hmem) _ (mem_map_of_mem he) rfl
      · exact fun entry he => contains_iff_mem.mpr (mem_map_of_mem he)
    have hrest : ∀ other ∈ parts,
        (l₁ ++ l₂).filter (fun entry => other.contains entry.1) =
          l₂.filter fun entry => other.contains entry.1 := by
      intro other hother
      rw [filter_append, filter_eq_nil_iff.mpr, nil_append]
      intro entry he hmem
      have hmem := mem_flatten_of_mem hother (contains_iff_mem.mp hmem)
      exact hdisjoint _ (mem_map_of_mem he) _ (hl₂ ▸ hmem) rfl
    rw [flatMap_cons, hfirst, flatMap_congr hrest, ih hl₂.symm hnodup₂]

/-- The batches of a filter find what they visit. -/
theorem batchHits_eq {docs : Nat → List (Document α)} {isHit : Document α → Bool}
    {f : ShardFilter} {parts : List (List Nat)}
    (h : ∀ part ∈ parts, active n (batchFilter n f part) ≠ []) :
    batchHits n docs isHit f parts =
      .ok (parts.flatMap fun part => (active n (batchFilter n f part)).flatMap
        (shardHits docs isHit)) := by
  induction parts with
  | nil => rfl
  | cons part parts ih =>
    have hpart : (active n (batchFilter n f part)).isEmpty = false :=
      isEmpty_eq_false_iff.mpr (h part mem_cons_self)
    rw [batchHits, ih fun other hother => h other (mem_cons_of_mem part hother)]
    simp [dagHits, hpart, bind, Except.bind, pure, Except.pure]

/-- A filter whose batches are parts of it. -/
structure Divides (n : Nat) (f : ShardFilter) : Prop where
  /-- A batch visits its part. -/
  part : ∀ parts : List (List Nat), parts.flatten = (active n f).map Prod.fst →
    parts.flatMap (fun part => active n (batchFilter n f part)) = active n f
  /-- A batch of shards it visits is not empty. -/
  inhabited : ∀ part : List Nat, part ≠ [] → (∀ j ∈ part, j ∈ (active n f).map Prod.fst) →
    active n (batchFilter n f part) ≠ []

theorem divides_none : Divides n .none where
  part parts h := by
    have hactive : parts.flatMap (fun part => active n (batchFilter n .none part)) =
        parts.flatten.map fun j => (j, Option.none) := by
      simp [batchFilter, active, List.flatMap]
    rw [hactive, h]
    simp [active]
  inhabited part hne _ := by simpa [batchFilter, active] using hne

/-- A filter with allowed ids, whose batches keep the visits of their shards. -/
theorem divides_of_filter {f : ShardFilter} (hnodup : ((active n f).map Prod.fst).Nodup)
    (hbatch : ∀ batch, active n (batchFilter n f batch) =
      (active n f).filter fun visit => batch.contains visit.1) : Divides n f where
  part parts h := by
    simp only [hbatch]
    exact flatMap_filter_contains h hnodup
  inhabited part hne hmem := by
    obtain ⟨j, hj⟩ := exists_mem_of_ne_nil part hne
    obtain ⟨visit, hvisit, rfl⟩ := mem_map.mp (hmem j hj)
    rw [hbatch]
    exact ne_nil_of_mem (mem_filter.mpr ⟨hvisit, by simpa using hj⟩)

theorem divides_shares (groups : Nat → List Nat) : Divides n (.perShard (shares n groups)) :=
  divides_of_filter (nodup_active_perShard _) (active_batchFilter_perShard _)

theorem divides_all (allowed : List Nat) : Divides n (.all allowed) := by
  refine divides_of_filter ?_ (active_batchFilter_all allowed)
  rw [active_all]
  exact nodup_active_perShard _

/-- The batches are the shards visited, in order. -/
theorem batches_spec {residency : Residency} {f : ShardFilter}
    (h : 1 < (batches n residency f).length) :
    (batches n residency f).flatten = (active n f).map Prod.fst ∧
      ∀ part ∈ batches n residency f, part ≠ [] := by
  unfold batches at h ⊢
  split at h
  · simp at h
  · split at h
    · simp at h
    · next hn =>
      rw [if_neg hn, flatten_batchLoop, activeShards_eq]
      exact ⟨rfl, ne_nil_of_mem_batchLoop _ _ _ _ _⟩

/-- **Batches change nothing**: the search finds what the visits of its filter find. -/
theorem runSearch_eq {docs : Nat → List (Document α)} {isHit : Document α → Bool}
    {residency : Residency} {f : ShardFilter} (hf : Divides n f) (hne : active n f ≠ []) :
    runSearch n docs isHit residency (some f) =
      .ok ((active n f).flatMap (shardHits docs isHit)) := by
  rw [runSearch]
  split
  · rw [dagHits, if_neg (by simpa using hne)]
  · next hlong =>
    obtain ⟨hflatten, hnonempty⟩ := batches_spec (Nat.lt_of_not_le hlong)
    rw [batchHits_eq]
    · rw [← flatMap_assoc, hf.part _ hflatten]
    · intro part hpart
      refine hf.inhabited part (hnonempty part hpart) fun j hj => ?_
      rw [← hflatten]
      exact mem_flatten.mpr ⟨part, hpart, hj⟩

end Batches

/-! ## What a filter admits -/

/-- **The filter lets a shard answer with a node id.** -/
def Admits (n : Nat) (filter : Option ShardFilter) (j nodeId : Nat) : Prop :=
  ∃ f ∈ filter, ∃ visit ∈ active n f, visit.1 = j ∧ passes visit.2 nodeId = true

section Admitting

variable {n : Nat} {routes : ShardRouter} {allowed : List Nat} {j nodeId : Nat}

/-- The filter of a search on a set of ids, and what is known about it. -/
theorem shardFilter_cases (n : Nat) (routes : ShardRouter) (allowed : List Nat) :
    (shardFilter n routes (some allowed) = Option.none ∧ allowed = []) ∨
    (∃ groups, shardFilter n routes (some allowed) = some (.perShard (shares n groups)) ∧
      (∃ j < n, groups j ≠ []) ∧ (∀ id ∈ allowed, routes.shardForNodeId id ≠ Option.none) ∧
      ∀ j id, id ∈ groups j ↔ id ∈ allowed ∧ routes.shardForNodeId id = some j) ∨
    shardFilter n routes (some allowed) = some (.all allowed) := by
  cases allowed with
  | nil => exact .inl ⟨rfl, rfl⟩
  | cons x ids =>
    cases hplace : placeIds n routes (x :: ids) fun _ => [] with
    | none => exact .inr (.inr (by simp [shardFilter, hplace]))
    | some groups =>
      obtain ⟨hknown, hmem⟩ := placeIds_some hplace
      -- the first id is in a group, so there is something to visit
      obtain ⟨j, hj, hroute⟩ := hknown x mem_cons_self
      have hgroup : groups j ≠ [] := ne_nil_of_mem ((hmem j x).mpr (.inr ⟨mem_cons_self, hroute⟩))
      have hsome : ((List.range n).all fun j => (groups j).isEmpty) = false := by
        rw [all_eq_false]
        exact ⟨j, mem_range.mpr hj, by simpa using hgroup⟩
      refine .inr (.inl ⟨groups, by simp [shardFilter, hplace, hsome], ⟨j, hj, hgroup⟩, ?_, ?_⟩)
      · intro id hid
        obtain ⟨k, -, hk⟩ := hknown id hid
        simp [hk]
      · intro k id
        simpa using hmem k id

theorem mem_active_shares {groups : Nat → List Nat} {visit : Nat × Option (List Nat)} :
    visit ∈ active n (.perShard (shares n groups)) ↔
      visit.1 < n ∧ groups visit.1 ≠ [] ∧ visit.2 = some (groups visit.1) := by
  obtain ⟨k, filter⟩ := visit
  simp only [shares, active_perShard, mem_filterMap, mem_range, List.isEmpty_iff]
  constructor
  · rintro ⟨j, hj, hvisit⟩
    split_ifs at hvisit with hempty <;> cases hvisit
    exact ⟨hj, hempty, rfl⟩
  · rintro ⟨hlt, hne, rfl⟩
    exact ⟨k, hlt, by rw [if_neg hne]; rfl⟩

theorem admits_shares {groups : Nat → List Nat} :
    Admits n (some (.perShard (shares n groups))) j nodeId ↔ j < n ∧ nodeId ∈ groups j := by
  constructor
  · rintro ⟨f, hf, visit, hvisit, rfl, hpass⟩
    cases hf
    obtain ⟨hlt, -, hgroup⟩ := mem_active_shares.mp hvisit
    rw [hgroup] at hpass
    exact ⟨hlt, by simpa [passes] using hpass⟩
  · rintro ⟨hlt, hmem⟩
    exact ⟨_, rfl, (j, some (groups j)),
      mem_active_shares.mpr ⟨hlt, ne_nil_of_mem hmem, rfl⟩, rfl, by simpa [passes] using hmem⟩

theorem admits_all : Admits n (some (.all allowed)) j nodeId ↔ j < n ∧ nodeId ∈ allowed := by
  constructor
  · rintro ⟨f, hf, visit, hvisit, rfl, hpass⟩
    cases hf
    obtain ⟨k, hk, rfl⟩ := mem_map.mp hvisit
    exact ⟨mem_range.mp hk, by simpa [passes] using hpass⟩
  · rintro ⟨hlt, hmem⟩
    exact ⟨_, rfl, (j, some allowed), mem_map.mpr ⟨j, mem_range.mpr hlt, rfl⟩, rfl,
      by simpa [passes] using hmem⟩

/-- **A shard the record does not rule out is visited with the id.** -/
theorem admits_of_record (hj : j < n) (hmem : nodeId ∈ allowed)
    (hroute : routes.shardForNodeId nodeId = Option.none ∨ routes.shardForNodeId nodeId = some j) :
    Admits n (shardFilter n routes (some allowed)) j nodeId := by
  rcases shardFilter_cases n routes allowed with ⟨-, rfl⟩ | ⟨groups, hf, -, hknown, hgroups⟩ | hf
  · exact absurd hmem not_mem_nil
  · rw [hf, admits_shares, hgroups]
    exact ⟨hj, hmem, hroute.resolve_left (hknown nodeId hmem)⟩
  · rw [hf, admits_all]
    exact ⟨hj, hmem⟩

end Admitting

/-! ## Answers -/

section Answers

variable {n : Nat} {docs : Nat → List (Document α)} {isHit : Document α → Bool}
  {residency : Residency} {routes : ShardRouter} {allowed : List Nat}

/-- What every shard finds. -/
def allHits (n : Nat) (docs : Nat → List (Document α)) (isHit : Document α → Bool) :
    List (Nat × Document α) :=
  (List.range n).flatMap fun j => ((docs j).filter isHit).map fun doc => (j, doc)

/-- An unfiltered search finds everything. -/
theorem runSearch_unfiltered (hn : 0 < n) :
    runSearch n docs isHit residency (shardFilter n routes Option.none) =
      .ok (allHits n docs isHit) := by
  rw [shardFilter, runSearch_eq divides_none]
  · simp [allHits, active, flatMap_map, shardHits, passes]
  · simpa [active] using Nat.ne_of_gt hn

/-- The part of the answer a shard gives. -/
theorem filter_allHits :
    (allHits n docs isHit).filter (fun hit => allowed.contains hit.2.nodeId) =
      (List.range n).flatMap fun j => shardHits docs isHit (j, some allowed) := by
  rw [allHits, filter_flatMap]
  refine flatMap_congr fun j _ => ?_
  rw [filter_map, filter_filter, shardHits]
  simp [passes, Bool.and_comm]

/-- **A filtered search whose filter admits what there is finds the allowed part of everything.** -/
theorem runSearch_filtered (hn : 0 < n)
    (hadmits : ∀ j < n, ∀ doc ∈ docs j, doc.nodeId ∈ allowed →
      Admits n (shardFilter n routes (some allowed)) j doc.nodeId) :
    runSearch n docs isHit residency (shardFilter n routes (some allowed)) =
      .ok ((allHits n docs isHit).filter fun hit => allowed.contains hit.2.nodeId) := by
  rcases shardFilter_cases n routes allowed with ⟨hf, rfl⟩ |
    ⟨groups, hf, ⟨k, hk, hgroup⟩, -, hgroups⟩
    | hf
  · rw [hf, runSearch]
    simp
  · rw [hf] at hadmits ⊢
    have hactive : active n (.perShard (shares n groups)) ≠ [] :=
      ne_nil_of_mem (a := (k, some (groups k))) (mem_active_shares.mpr ⟨hk, hgroup, rfl⟩)
    rw [runSearch_eq (divides_shares groups) hactive, filter_allHits, shares, active_perShard,
      filterMap_eq_flatMap_toList, flatMap_assoc]
    congr 1
    refine flatMap_congr fun j hj => ?_
    rw [mem_range] at hj
    -- within its own share a shard finds all that is allowed there
    have hshare : ∀ doc ∈ docs j, passes (some (groups j)) doc.nodeId =
        passes (some allowed) doc.nodeId := by
      intro doc hdoc
      simp only [passes, Option.all_some]
      rw [Bool.eq_iff_iff, contains_iff_mem, contains_iff_mem]
      exact ⟨fun h => ((hgroups j _).mp h).1,
        fun h => (admits_shares.mp (hadmits j hj doc hdoc h)).2⟩
    have hits : shardHits docs isHit (j, some (groups j)) =
        shardHits docs isHit (j, some allowed) := by
      rw [shardHits, shardHits]
      congr 1
      exact filter_congr fun doc hdoc => by rw [hshare doc hdoc]
    rw [← hits]
    by_cases hempty : groups j = []
    · simp [hempty, shardHits, passes]
    · simp [hempty]
  · rw [hf]
    have hactive : active n (.all allowed) ≠ [] := by simpa [active] using Nat.ne_of_gt hn
    rw [runSearch_eq (divides_all allowed) hactive, filter_allHits, active, flatMap_map]

theorem shardHits_sublist {share : List Nat} (h : ∀ id ∈ share, id ∈ allowed) (j : Nat) :
    (shardHits docs isHit (j, some share)).Sublist (shardHits docs isHit (j, some allowed)) := by
  refine (monotone_filter_right _ fun doc hdoc => ?_).map _
  simp only [passes, Option.all_some, Bool.and_eq_true, contains_iff_mem] at hdoc ⊢
  exact ⟨hdoc.1, h _ hdoc.2⟩

end Answers

end Lucivy.Sharded
