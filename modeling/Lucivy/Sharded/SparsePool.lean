import Lucivy.Foundation.Results

/-! # A sharded sparse index whose workers may be gone

`ShardedSparseHandle::commit`, `search_inner` and `search_filtered` (`sparse_vector/src/sharded.rs`)
over `Pool::scatter` and `Pool::scatter_to` (`luciole/src/pool.rs`). A shard is what its worker has
handled once the mailbox is drained; how it writes and how it searches is left open.

* `scatter`, `scatterTo`, `commit`, `searchInner`, `searchFiltered` — the calls, by what becomes of
  each worker.
* `searchFiltered_eq_searchInner` — the search that asks only the shards of the allowed ids gives
  what the search over all shards gives.
* `complete_iff_answered` — **a commit that succeeds has committed every shard, and a search covers
  every shard with documents**, exactly if the workers that give no answer had nothing to give. -/

namespace Lucivy.Sharded.SparsePool

open Lucivy.Foundation List

variable {σ ρ ν κ : Type}

/-- What becomes of a worker that is sent a request. -/
inductive Fate where
  /-- The send fails. -/
  | gone
  /-- The worker dies without an answer. -/
  | dies (handled : Bool)
  | answers
deriving DecidableEq

def Fate.handles : Fate → Bool
  | .gone => false
  | .dies handled => handled
  | .answers => true

/-- A worker's shard after the request, of which `handle` makes the new shard and the answer. -/
def after (fates : Nat → Fate) (handle : σ × Nat → σ × ρ) (worker : σ × Nat) : σ :=
  if (fates worker.2).handles then (handle worker).1 else worker.1

/-- The shards after a request to all, and the answers: a worker without one is passed over. -/
def scatter (fates : Nat → Fate) (handle : σ × Nat → σ × ρ) (shards : List σ) : List σ × List ρ :=
  (shards.zipIdx.map (after fates handle),
    (shards.zipIdx.filter fun worker => fates worker.2 = .answers).map fun worker =>
      (handle worker).2)

/-- The answers of some workers, with their numbers. -/
def scatterTo (fates : Nat → Fate) (handle : σ × Nat → ρ) (targets : List Nat) (shards : List σ) :
    List (Nat × ρ) :=
  targets.filterMap fun target =>
    let idx := target % shards.length
    if fates idx = .answers then shards[idx]?.map fun shard => (idx, handle (shard, idx)) else none

structure Shard (ν : Type) where
  held : List ν
  committed : List ν
  /-- The first insert error since the last commit. -/
  pendingError : Option String := none

/-- The `Commit` message; `disk` is what `commit_inner` comes to in each shard. -/
def handleCommit (disk : Nat → Except String Unit) (worker : Shard ν × Nat) :
    Shard ν × Except String Unit :=
  match worker.1.pendingError with
  | some e => ({ worker.1 with pendingError := none }, .error e)
  | none =>
    match disk worker.2 with
    | .error e => (worker.1, .error ("shard_" ++ toString worker.2 ++ ": commit: " ++ e))
    | .ok () => ({ worker.1 with committed := worker.1.held }, .ok ())

/-- `commit`; `router` is what the lock and the router's file come to. -/
def commit (closed : Bool) (fates : Nat → Fate) (disk : Nat → Except String Unit)
    (router : Except String Unit) (shards : List (Shard ν)) :
    List (Shard ν) × Except String Unit :=
  if closed then (shards, .error "handle is closed")
  else
    let (shards, results) := scatter fates (handleCommit disk) shards
    (shards, results.mapM id >>= fun _ => router)

def mergeTopK [LT κ] [DecidableLT κ] (perShard : List (List (Nat × κ))) (limit : Nat) :
    List (Nat × κ) :=
  (perShard.flatten.mergeSort fun a b => b.2 < a.2 || !(a.2 < b.2) && a.1.ble b.1).take limit

/-- What a shard finds, under a filter of ids if there is one. -/
abbrev Hits (ν κ : Type) := Shard ν × Nat → Option (List Nat) → List (Nat × κ)

def searchInner [LT κ] [DecidableLT κ] (closed : Bool) (fates : Nat → Fate) (hits : Hits ν κ)
    (query : List Nat) (limit : Nat) (filter : Option (List Nat)) (shards : List (Shard ν)) :
    Except String (List (Nat × κ)) :=
  if closed then .error "handle is closed"
  else if limit = 0 ∨ query = [] then .ok []
  else .ok (mergeTopK (scatter fates (fun worker => (worker.1, hits worker filter)) shards).2 limit)

/-- Each shard's share of the allowed ids, if the router knows them all. -/
def shares (shardFor : Nat → Option Nat) (count : Nat) (allowed : List Nat) :
    Option (List (List Nat)) :=
  if allowed.all fun id => (shardFor id).any (· < count) then
    some ((List.range count).map fun sid => allowed.filter fun id => shardFor id = some sid)
  else none

/-- `search_filtered` with the router's table: each shard gets its share, if it has one. -/
def searchRouted [LT κ] [DecidableLT κ] (fates : Nat → Fate) (shardFor : Nat → Option Nat)
    (hits : Hits ν κ) (query : List Nat) (limit : Nat) (allowed : List Nat)
    (shards : List (Shard ν)) : Except String (List (Nat × κ)) :=
  match shares shardFor shards.length allowed with
  | none => searchInner false fates hits query limit (some allowed) shards
  | some groups =>
    let targets := (List.range groups.length).filter fun sid => groups[sid]?.getD [] ≠ []
    if targets = [] then .ok []
    else
      let perShard := scatterTo fates (fun worker => hits worker groups[worker.2]?) targets shards
      .ok (mergeTopK (perShard.map Prod.snd) limit)

/-- `search_filtered`; `router` is what its lock comes to, the shard of each id it has seen. -/
def searchFiltered [LT κ] [DecidableLT κ] (closed : Bool) (fates : Nat → Fate)
    (router : Except String (Nat → Option Nat)) (hits : Hits ν κ) (query : List Nat) (limit : Nat)
    (allowed : List Nat) (shards : List (Shard ν)) : Except String (List (Nat × κ)) :=
  if closed then .error "handle is closed"
  else if allowed = [] ∨ limit = 0 ∨ query = [] then .ok []
  else router >>= fun shardFor => searchRouted fates shardFor hits query limit allowed shards

section Searches

variable (idOf : ν → Nat)

/-- **What is asked of a shard's search**: a filter acts through the documents of the shard only. -/
structure Lawful (hits : Hits ν κ) : Prop where
  empty : ∀ worker filter, worker.1.held = [] → hits worker filter = []
  none_allowed : ∀ worker, hits worker (some []) = []
  share : ∀ worker ids ids', (∀ v ∈ worker.1.held, idOf v ∈ ids ↔ idOf v ∈ ids') →
    hits worker (some ids) = hits worker (some ids')

/-- **A search covers the shards**: it gives the best hits of all, whatever they find. -/
def Covers [LT κ] [DecidableLT κ] (search : Hits ν κ → Except String (List (Nat × κ)))
    (filter : Option (List Nat)) (limit : Nat) (shards : List (Shard ν)) : Prop :=
  ∀ hits, Lawful idOf hits →
    search hits = .ok (mergeTopK (shards.zipIdx.map fun worker => hits worker filter) limit)

/-- The shard holds a document that the filter lets through. -/
def Holds (filter : Option (List Nat)) (shard : Shard ν) : Prop :=
  ∃ v ∈ shard.held, ∀ ids ∈ filter, idOf v ∈ ids

/-- The router has no document of a shard elsewhere. -/
def Routed (shardFor : Nat → Option Nat) (shards : List (Shard ν)) : Prop :=
  ∀ worker ∈ shards.zipIdx, ∀ v ∈ worker.1.held, ∀ sid, shardFor (idOf v) = some sid →
    sid = worker.2

end Searches

variable {fates : Nat → Fate} {shards : List (Shard ν)} {idOf : ν → Nat}

/-! ## Commit -/

/-- A commit does not change what a shard holds. -/
theorem held_after (disk : Nat → Except String Unit) (worker : Shard ν × Nat) :
    (after fates (handleCommit disk) worker).held = worker.1.held := by
  unfold after handleCommit
  split
  · split
    · rfl
    · split <;> rfl
  · rfl

/-- **When a shard is committed behind the request**: it was before, or its worker got through the
write. -/
theorem committed_after_iff (disk : Nat → Except String Unit) (worker : Shard ν × Nat) :
    (after fates (handleCommit disk) worker).committed = worker.1.held ↔
      worker.1.committed = worker.1.held ∨ ((fates worker.2).handles = true ∧
        worker.1.pendingError = none ∧ disk worker.2 = .ok ()) := by
  unfold after handleCommit
  cases (fates worker.2).handles with
  | false => simp
  | true =>
    cases worker.1.pendingError with
    | some e => simp
    | none => cases disk worker.2 <;> simp

/-- A worker that answers with success got through the write. -/
theorem committed_of_ok {disk : Nat → Except String Unit} {worker : Shard ν × Nat} {u : Unit}
    (h : (handleCommit disk worker).2 = .ok u) :
    worker.1.pendingError = none ∧ disk worker.2 = .ok () := by
  unfold handleCommit at h
  split at h
  · cases h
  · next hnone =>
    split at h
    · cases h
    · next hdisk => exact ⟨hnone, hdisk⟩

/-! ## Search -/

theorem flatMap_filter_of_nil {α β : Type} {p : α → Bool} {f : α → List β} {l : List α}
    (h : ∀ a ∈ l, p a = false → f a = []) : (l.filter p).flatMap f = l.flatMap f := by
  induction l with
  | nil => rfl
  | cons a l ih =>
    obtain ⟨ha, hl⟩ := forall_mem_cons.mp h
    cases hp : p a with
    | false => simp [hp, ha hp, ih hl]
    | true => simp [hp, ih hl]

/-- A shard with no document that the filter lets through finds nothing. -/
theorem Lawful.eq_nil {hits : Hits ν κ} (h : Lawful idOf hits) {worker : Shard ν × Nat}
    {filter : Option (List Nat)} (hholds : ¬ Holds idOf filter worker.1) :
    hits worker filter = [] := by
  cases filter with
  | none =>
    refine h.empty worker none (eq_nil_iff_forall_not_mem.mpr fun v hv => hholds ⟨v, hv, ?_⟩)
    exact fun _ hids => (Option.not_mem_none _ hids).elim
  | some ids =>
    rw [h.share worker ids [], h.none_allowed]
    refine fun v hv => iff_of_false (fun hid => hholds ⟨v, hv, ?_⟩) not_mem_nil
    rintro _ ⟨⟩
    exact hid

/-- **When a search over all shards covers them**: every worker with something to find answers. -/
theorem covers_iff [LT κ] [DecidableLT κ] [Inhabited κ] {query : List Nat} {limit : Nat}
    (hlimit : limit ≠ 0) (hquery : query ≠ []) (filter : Option (List Nat)) :
    Covers idOf (fun hits : Hits ν κ => searchInner false fates hits query limit filter shards)
        filter limit shards ↔
      ∀ worker ∈ shards.zipIdx, Holds idOf filter worker.1 → fates worker.2 = .answers := by
  simp only [Covers, searchInner, scatter, mergeTopK, hlimit, hquery, or_self, if_false,
    Bool.false_eq_true, ← flatMap_def, Except.ok.injEq]
  constructor
  · intro h worker hworker hholds
    by_contra hfate
    classical
    -- this shard alone has a hit
    specialize h
      (fun other f => if other = worker ∧ Holds idOf f other.1 then [(0, default)] else [])
      ⟨?_, ?_, ?_⟩
    · intro other f hnil
      simp [Holds, hnil]
    · simp [Holds]
    · intro other ids ids' hsame
      have : Holds idOf (some ids) other.1 ↔ Holds idOf (some ids') other.1 := by
        simp only [Holds, Option.mem_some_iff, forall_eq']
        exact exists_congr fun v => and_congr_right (hsame v)
      simp only [this]
    · rw [flatMap_eq_nil_iff.mpr (by grind), mergeSort_nil, take_nil, eq_comm, take_eq_nil_iff,
        or_iff_right hlimit, ← length_eq_zero_iff, length_mergeSort, length_eq_zero_iff,
        flatMap_eq_nil_iff] at h
      simpa [hholds] using h worker hworker
  · intro h hits hlawful
    rw [flatMap_filter_of_nil]
    intro worker hworker hfate
    refine hlawful.eq_nil fun hholds => ?_
    simp [h worker hworker hholds] at hfate

/-- Asking some of the workers is asking those of all that are among them. -/
theorem scatterTo_filter (handle : σ × Nat → ρ) (q : Nat → Bool) (shards : List σ) :
    (scatterTo fates handle ((List.range shards.length).filter q) shards).map Prod.snd =
      ((shards.zipIdx.filter fun worker => q worker.2).filter fun worker =>
        fates worker.2 = .answers).map handle := by
  have hrange : (List.range shards.length).filter q =
      (shards.zipIdx.filter fun worker => q worker.2).map Prod.snd := by
    rw [range_eq_range', ← zipIdx_map_snd 0 shards, filter_map]
    rfl
  rw [hrange, scatterTo, filterMap_map, map_filterMap, ← filterMap_eq_map]
  conv_rhs => rw [filterMap_filter]
  refine filterMap_congr fun worker hworker => ?_
  obtain ⟨hlt, hget⟩ := mem_zipIdx' (mem_of_mem_filter hworker)
  have hworker : (shards[worker.2], worker.2) = worker := Prod.ext hget.symm rfl
  simp only [Function.comp_apply, Nat.mod_eq_of_lt hlt, getElem?_eq_getElem hlt, Option.map_some,
    hworker, decide_eq_true_eq]
  split <;> rfl

/-- **A shard finds with its share what it finds with all allowed ids.** -/
theorem Lawful.hits_share {hits : Hits ν κ} (h : Lawful idOf hits) {shardFor : Nat → Option Nat}
    (hrouted : Routed idOf shardFor shards) {allowed : List Nat} {groups : List (List Nat)}
    (hshares : shares shardFor shards.length allowed = some groups) :
    groups.length = shards.length ∧ ∀ worker ∈ shards.zipIdx,
      hits worker groups[worker.2]? = hits worker (some allowed) ∧
        (groups[worker.2]?.getD [] = [] → hits worker (some allowed) = []) := by
  rw [shares] at hshares
  split at hshares
  · next hknown =>
    cases hshares
    refine ⟨by simp, fun worker hworker => ?_⟩
    have hlt := (mem_zipIdx' hworker).1
    rw [getElem?_map, getElem?_range hlt, Option.map_some, Option.getD_some]
    have hsame : hits worker (some (allowed.filter fun id => shardFor id = some worker.2)) =
        hits worker (some allowed) := by
      refine h.share worker _ _ fun v hv => ?_
      rw [mem_filter, decide_eq_true_eq, and_iff_left_iff_imp]
      intro hid
      obtain ⟨sid, hsid, -⟩ := (Option.any_eq_true _ _).mp (all_eq_true.mp hknown _ hid)
      rw [hsid, hrouted worker hworker v hv sid hsid]
    refine ⟨hsame, fun hnil => ?_⟩
    rw [← hsame, hnil, h.none_allowed]
  · cases hshares

/-- **The search that asks only the shards of the allowed ids** gives what the search over all
shards gives. -/
theorem searchFiltered_eq_searchInner [LT κ] [DecidableLT κ] {hits : Hits ν κ}
    (h : Lawful idOf hits) {shardFor : Nat → Option Nat} (hrouted : Routed idOf shardFor shards)
    (query : List Nat) (limit : Nat) (allowed : List Nat) :
    searchFiltered false fates (.ok shardFor) hits query limit allowed shards =
      searchInner false fates hits query limit (some allowed) shards := by
  have hfiltered : searchFiltered false fates (.ok shardFor) hits query limit allowed shards =
      if allowed = [] ∨ limit = 0 ∨ query = [] then .ok []
      else searchRouted fates shardFor hits query limit allowed shards := rfl
  rw [hfiltered]
  by_cases hguard : limit = 0 ∨ query = []
  · rw [if_pos (.inr hguard), searchInner, if_neg Bool.false_ne_true, if_pos hguard]
  have hinner : searchInner false fates hits query limit (some allowed) shards =
      .ok (mergeTopK ((shards.zipIdx.filter fun worker => fates worker.2 = .answers).map
        fun worker => hits worker (some allowed)) limit) := by
    rw [searchInner, if_neg Bool.false_ne_true, if_neg hguard]
    rfl
  have hnothing : (∀ worker ∈ shards.zipIdx, hits worker (some allowed) = []) →
      searchInner false fates hits query limit (some allowed) shards = .ok [] := by
    intro hnil
    rw [hinner, mergeTopK, ← flatMap_def,
      flatMap_eq_nil_iff.mpr fun worker hworker => hnil worker (mem_of_mem_filter hworker)]
    simp
  by_cases hallowed : allowed = []
  · rw [if_pos (.inl hallowed), hnothing fun worker _ => hallowed ▸ h.none_allowed worker]
  rw [if_neg (by simp [hallowed, not_or.mp hguard]), searchRouted]
  cases hshares : shares shardFor shards.length allowed with
  | none => rfl
  | some groups =>
    obtain ⟨hlen, hhits⟩ := h.hits_share hrouted hshares
    dsimp only
    rw [hlen]
    split
    · next htargets =>
      refine (hnothing fun worker hworker => (hhits worker hworker).2 ?_).symm
      simpa using filter_eq_nil_iff.mp htargets worker.2 (mem_range.mpr (mem_zipIdx' hworker).1)
    · -- those that are not asked would find nothing
      rw [hinner, scatterTo_filter, mergeTopK, mergeTopK, filter_comm, ← flatMap_def, ← flatMap_def,
        flatMap_filter_of_nil]
      · rw [flatMap_congr fun worker hworker => (hhits worker (mem_of_mem_filter hworker)).1]
      · intro worker hworker hnone
        have hmem := mem_of_mem_filter hworker
        rw [(hhits worker hmem).1]
        exact (hhits worker hmem).2 (by simpa using hnone)

/-! ## Calls on the whole index -/

/-- **When a call on the whole index is complete.** A commit that succeeds has committed every shard
just when each worker without an answer had nothing to commit, or died behind the write. A search
covers every shard just when each worker of a shard with documents answers; under a filter, each
worker of a shard with an allowed document, whether the router knows the ids or not. -/
theorem complete_iff_answered [LT κ] [DecidableLT κ] [Inhabited κ] (closed : Bool)
    (fates : Nat → Fate)
    (disk : Nat → Except String Unit) (router : Except String Unit) (shards : List (Shard ν))
    (idOf : ν → Nat) {shardFor : Nat → Option Nat} {query : List Nat} {limit : Nat}
    (allowed : List Nat) (hlimit : limit ≠ 0) (hquery : query ≠ [])
    (hrouted : Routed idOf shardFor shards) :
    ((commit closed fates disk router shards).2 = .ok () →
      ((∀ shard ∈ (commit closed fates disk router shards).1, shard.committed = shard.held) ↔
        ∀ worker ∈ shards.zipIdx, fates worker.2 ≠ .answers →
          worker.1.committed = worker.1.held ∨ (fates worker.2 = .dies true ∧
            worker.1.pendingError = none ∧ disk worker.2 = .ok ()))) ∧
    (Covers idOf (fun hits : Hits ν κ => searchInner false fates hits query limit none shards)
        none limit shards ↔
      ∀ worker ∈ shards.zipIdx, worker.1.held ≠ [] → fates worker.2 = .answers) ∧
    (Covers idOf (fun hits : Hits ν κ =>
          searchFiltered false fates (.ok shardFor) hits query limit allowed shards)
        (some allowed) limit shards ↔
      ∀ worker ∈ shards.zipIdx, (∃ v ∈ worker.1.held, idOf v ∈ allowed) →
        fates worker.2 = .answers) := by
  refine ⟨fun h => ?_, ?_, ?_⟩
  · cases closed with
    | true => cases h
    | false =>
      obtain ⟨_, hresults, -⟩ := bind_eq_ok.mp h
      simp only [commit, scatter, Bool.false_eq_true, if_false, forall_mem_map, held_after,
        committed_after_iff]
      refine forall₂_congr fun worker hworker => ?_
      cases hfate : fates worker.2 with
      | gone => simp [Fate.handles]
      | dies handled => simp [Fate.handles]
      | answers =>
        have hmem : worker ∈ shards.zipIdx.filter fun worker => fates worker.2 = .answers :=
          mem_filter.mpr ⟨hworker, decide_eq_true hfate⟩
        obtain ⟨_, -, hok⟩ := (mapM_ok_mem hresults).1 _ (mem_map_of_mem hmem)
        exact iff_of_true (.inr ⟨rfl, committed_of_ok hok⟩) (fun hne => absurd rfl hne)
  · rw [covers_iff hlimit hquery]
    refine forall₂_congr fun worker _ => imp_congr_left ?_
    constructor
    · rintro ⟨v, hv, -⟩
      exact ne_nil_of_mem hv
    · intro hne
      obtain ⟨v, hv⟩ := exists_mem_of_ne_nil _ hne
      exact ⟨v, hv, fun _ hids => (Option.not_mem_none _ hids).elim⟩
  · have hcovers : Covers idOf (fun hits : Hits ν κ =>
          searchFiltered false fates (.ok shardFor) hits query limit allowed shards)
          (some allowed) limit shards ↔
        Covers idOf (fun hits : Hits ν κ =>
          searchInner false fates hits query limit (some allowed) shards)
          (some allowed) limit shards :=
      forall₂_congr fun hits hlawful =>
        Eq.congr_left (searchFiltered_eq_searchInner hlawful hrouted query limit allowed)
    rw [hcovers, covers_iff hlimit hquery]
    simp [Holds]

/-- A worker that dies behind its write, and one without the allowed document that is gone. -/
theorem complete_without_two_workers :
    let fates := fun i => if i = 0 then .dies true else if i = 1 then .gone else .answers
    let shards : List (Shard Nat) := [⟨[6], [], none⟩, ⟨[7], [7], none⟩, ⟨[8], [], none⟩]
    (∀ shard ∈ (commit false fates (fun _ => .ok ()) (.ok ()) shards).1,
      shard.committed = shard.held) ∧
    Covers id (fun hits : Hits Nat Nat =>
      searchFiltered false fates (.ok fun v => some (v - 6)) hits [0] 1 [8] shards)
      (some [8]) 1 shards :=
  have hcomplete := @complete_iff_answered Nat Nat _ _ _ false
    (fun i => if i = 0 then .dies true else if i = 1 then .gone else .answers) (fun _ => .ok ())
    (.ok ()) [⟨[6], [], none⟩, ⟨[7], [7], none⟩, ⟨[8], [], none⟩] id (fun v => some (v - 6))
      [0] 1 [8]
    (by decide) (by decide) (by simp [Routed])
  ⟨(hcomplete.1 rfl).mpr (by simp), hcomplete.2.2.mpr (by simp)⟩

/-- **A worker that is gone**: the commit succeeds without its shard, and a search is silent
about its vector, also one that asks for it by id. -/
theorem gone_worker_unnoticed :
    let fates := fun i => if i = 1 then .gone else .answers
    let shards : List (Shard Nat) := [⟨[7], [], none⟩, ⟨[8], [], none⟩]
    let hits : Hits Nat Nat := fun worker filter =>
      (worker.1.held.filter fun v => filter.all (·.contains v)).map (·, 1)
    commit false fates (fun _ => .ok ()) (.ok ()) shards =
        ([⟨[7], [7], none⟩, ⟨[8], [], none⟩], .ok ()) ∧
      searchInner false fates hits [0] 2 none shards = .ok [(7, 1)] ∧
      searchFiltered false fates (.ok fun v => some (v - 7)) hits [0] 2 [8] shards = .ok [] :=
  ⟨rfl, by simp [searchInner, scatter, mergeTopK], by decide +kernel⟩

end Lucivy.Sharded.SparsePool
