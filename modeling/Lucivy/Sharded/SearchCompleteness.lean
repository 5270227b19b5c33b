import Lucivy.Sharded.IndexHistory

/-! # Filtered searches are complete while the record agrees with the shards

A filtered search looks for a node id in the shard the record names, and everywhere if the record
names none. What it needs is that the record names no other shard than the one that has the
document, from the moment the filter is made to the visit.

* `Agrees` — it does not, for every document with a shard or on its way there.
* `KeepsRecord` — what an event must be like to keep it so.
* `search_complete` — **a filtered search finds the allowed part of everything** in every history of
  such events.
* `keeping_of_placed` — the events of a history in which every node id has its own shard are such.
* `search_incomplete` — three histories with an event of the other kind, and a search that misses a
  document. -/

namespace Lucivy.Sharded

open Lucivy.Foundation List Option

variable {α : Type}

/-! ## Agreement -/

/-- A record does not name another shard for the node id. -/
def Allows (record : ShardRouter) (j nodeId : Nat) : Prop :=
  record.shardForNodeId nodeId = none ∨ record.shardForNodeId nodeId = some j

namespace Store

variable {n : Nat} {s t : Store α}

/-- Nor do the records that searches for the id have read. -/
def SearchesAllow (s : Store α) (j nodeId : Nat) : Prop :=
  ∀ c search, s.searches c = some search → nodeId ∈ search.allowed → Allows search.record j nodeId

/-- **The record agrees with the shards**, and so do those that searches have read. -/
structure Agrees (n : Nat) (s : Store α) : Prop where
  record : ∀ j < n, ∀ doc, At s.service j doc → Allows s.routes j doc.nodeId
  searches : ∀ j < n, ∀ doc, At s.service j doc → s.SearchesAllow j doc.nodeId

/-- **An event does not set the record against the shards.** A document is routed where no other
shard has one of its node id; a delta brings documents the record has nowhere else; the index is
opened with a record that has its documents nowhere else. -/
def KeepsRecord (n : Nat) (s : Store α) : StoreEvent α → Prop
  | .service e => ∀ j doc, Routed n s.service e j doc →
      (∀ k < n, ∀ d, At s.service k d → d.nodeId = doc.nodeId → k = j) ∧
        s.SearchesAllow j doc.nodeId
  | .applyDelta j docs => ∀ doc ∈ docs, Allows s.routes j doc.nodeId ∧ s.SearchesAllow j doc.nodeId
  | .reopen => ∀ j < n, ∀ doc ∈ s.committed j, Allows (s.stats.getD ⟨fun _ => none⟩) j doc.nodeId
  | _ => True

theorem not_at_create (j : Nat) (doc : Document α) : ¬ At (create : Store α).service j doc := by
  intro h
  cases h with
  | outbox c h => exact not_mem_nil h
  | hand h => cases h
  | queue h => exact not_mem_nil h
  | writer h => exact not_mem_nil h

theorem agrees_create : Agrees n (create : Store α) :=
  ⟨fun j _ doc h => absurd h (not_at_create j doc), fun j _ doc h => absurd h (not_at_create j doc)⟩

/-- An event of the handle. -/
theorem Agrees.service (h : Agrees n s) {e : ServiceEvent α} {service : Service α}
    (hkeeps : KeepsRecord n s (.service e)) (hstep : s.service.next n e = some service)
    (stats : Option ShardRouter) : Agrees n ⟨service, stats, s.searches⟩ where
  record j hj doc hat := by
    rcases hat.back hstep with hold | hnew
    · -- the entry of an old document changes only to its own shard, or away
      rcases routes_back hstep doc.nodeId with hsame | hnone | ⟨k, d, hrouted, hid⟩
      · show Allows service.handle.routes j doc.nodeId
        rw [Allows, hsame]
        exact h.record j hj doc hold
      · exact .inl hnone
      · obtain rfl := (hkeeps k d hrouted).1 j hj doc hold hid.symm
        exact .inr (hid ▸ routes_of_routed hstep hrouted)
    · exact .inr (routes_of_routed hstep hnew)
  searches j hj doc hat := by
    rcases hat.back hstep with hold | hnew
    · exact h.searches j hj doc hold
    · exact (hkeeps j doc hnew).2

/-- A search under way is the new one, or was so before. -/
theorem mem_setSearch {c d : Nat} {search : Option Search} {x : Search}
    (h : (s.setSearch c search).searches d = some x) : x ∈ search ∨ s.searches d = some x := by
  by_cases hdc : d = c
  · subst hdc
    have hself : (s.setSearch d search).searches d = search := Function.update_self ..
    exact .inl (hself ▸ h)
  · have hother : (s.setSearch c search).searches d = s.searches d := Function.update_of_ne hdc ..
    exact .inr (hother ▸ h)

/-- A search reads the record as it is. -/
theorem Agrees.setSearch (h : Agrees n s) (c : Nat) {search : Option Search}
    (hrecord : ∀ x ∈ search, x.record = s.routes) : Agrees n (s.setSearch c search) where
  record := h.record
  searches j hj doc hat d x hx hmem := by
    rcases mem_setSearch hx with hnew | hold
    · rw [hrecord x hnew]
      exact h.record j hj doc hat
    · exact h.searches j hj doc hat d x hold hmem

variable {doc : Document α}

/-- An actor changes: a document of its shard is with the new one, or was on its way. -/
theorem at_setActor {j k : Nat} {a : ShardActor α}
    (hdeferred : a.deferred = (s.service.handle.shards j).actor.deferred)
    (h : At (s.setActor j a).service k doc) : At s.service k doc ∨ (k = j ∧ doc ∈ a.held) := by
  cases h with
  | outbox c h => exact .inl (.outbox c h)
  | hand h => exact .inl (.hand h)
  | queue h =>
    refine .inl (.queue ?_)
    simp only [setActor] at h
    by_cases hkj : k = j
    · subst hkj
      rwa [ShardedHandle.shards_setShard_self, Shard.queue, hdeferred] at h
    · rwa [ShardedHandle.shards_setShard_ne _ hkj] at h
  | writer h =>
    simp only [setActor] at h
    by_cases hkj : k = j
    · subst hkj
      rw [ShardedHandle.shards_setShard_self] at h
      exact .inr ⟨rfl, h⟩
    · rw [ShardedHandle.shards_setShard_ne _ hkj] at h
      exact .inl (.writer h)

/-- A document of a shard a delta was applied to came with it, or was on its way. -/
theorem at_applyDelta {j k : Nat} {docs : List (Document α)}
    (h : At (s.applyDelta j docs).service k doc) : At s.service k doc ∨ (k = j ∧ doc ∈ docs) := by
  refine (at_setActor (by rfl) h).imp_right (And.imp_right fun hheld => ?_)
  simpa [ShardActor.held, ShardWriter.opened, ShardWriter.create] using hheld

/-- A committed document is with its shard. -/
theorem at_of_committed {j : Nat} (h : doc ∈ s.committed j) : At s.service j doc := by
  refine .writer ?_
  rw [committed, ShardActor.committed] at h
  rw [ShardActor.held]
  cases hw : (s.service.handle.shards j).actor.writer with
  | none => rwa [hw] at h
  | some w =>
    rw [hw] at h
    exact mem_append_left _ h

/-- A refused delta brings nothing. -/
theorem at_refuseDelta {j k : Nat} (h : At (s.refuseDelta j).service k doc) :
    At s.service k doc := by
  rcases at_setActor (by rfl) h with hold | ⟨rfl, hmem⟩
  · exact hold
  · exact at_of_committed hmem

/-- A document of an index just opened is a committed one. -/
theorem at_reopen {j : Nat} (h : At s.reopen.service j doc) : doc ∈ s.committed j := by
  cases h with
  | outbox c h => exact absurd h not_mem_nil
  | hand h => cases h
  | queue h => exact absurd h not_mem_nil
  | writer h => simpa [reopen, ShardActor.held, ShardWriter.opened, ShardWriter.create] using h

/-- **Every event that keeps the record keeps the agreement.** -/
theorem Agrees.next (h : Agrees n s) {e : StoreEvent α} (hkeeps : KeepsRecord n s e)
    (hstep : s.next n e = some t) : Agrees n t := by
  cases e with
  | service e =>
    obtain ⟨service, hservice, rfl⟩ := map_eq_some_iff.mp hstep
    exact h.service hkeeps hservice _
  | searchBegins c allowed =>
    simp only [Store.next] at hstep
    split at hstep
    · cases hstep
      refine h.setSearch c fun x hx => ?_
      cases hx
      rfl
    · cases hstep
  | searchEnds c =>
    cases hstep
    exact h.setSearch c (by simp)
  | applyDelta j docs =>
    obtain ⟨-, heq⟩ := ite_none_right_eq_some.mp hstep
    cases heq
    refine ⟨fun k hk doc hat => ?_, fun k hk doc hat => ?_⟩
    · rcases at_applyDelta hat with hold | ⟨rfl, hmem⟩
      · exact h.record k hk doc hold
      · exact (hkeeps doc hmem).1
    · rcases at_applyDelta hat with hold | ⟨rfl, hmem⟩
      · exact h.searches k hk doc hold
      · exact (hkeeps doc hmem).2
  | refuseDelta j =>
    obtain ⟨-, heq⟩ := ite_none_right_eq_some.mp hstep
    cases heq
    exact ⟨fun k hk doc hat => h.record k hk doc (at_refuseDelta hat),
      fun k hk doc hat => h.searches k hk doc (at_refuseDelta hat)⟩
  | reopen =>
    cases hstep
    refine ⟨fun j hj doc hat => hkeeps j hj doc (at_reopen hat), fun j _ doc _ c search hc => ?_⟩
    cases hc

/-- The steps that keep the record. -/
def StepKeeping (n : Nat) : Store α → StoreEvent α → Store α → Prop :=
  Guarded (Step n) (KeepsRecord n)

/-- **A filtered search is complete.** In every history whose events keep the record, a filtered
search visits every shard that holds a committed document of an allowed node id, and it finds the
allowed part of what an unfiltered search finds. -/
theorem search_complete {log : List (StoreEvent α)} {c : Nat} {search : Search} (hn : 0 < n)
    (hrun : Run (StepKeeping n) create log s) (hsearch : s.searches c = some search)
    (isHit : Document α → Bool) (residency : Residency) :
    (∀ j < n, ∀ doc ∈ s.committed j, doc.nodeId ∈ search.allowed → j ∈ visited n search) ∧
      s.answer n isHit residency search = (s.unfiltered n isHit residency).map
        (List.filter fun hit => search.allowed.contains hit.2.nodeId) := by
  have hagrees : Agrees n s := Run.invariant (I := Agrees n)
    (fun _ _ _ h hguarded => h.next hguarded.1 hguarded.2) hrun agrees_create
  have hadmits : ∀ j < n, ∀ doc ∈ s.committed j, doc.nodeId ∈ search.allowed →
      Admits n (search.filter n) j doc.nodeId := by
    intro j hj doc hdoc hmem
    exact admits_of_record hj hmem
      (hagrees.searches j hj doc (at_of_committed hdoc) c search hsearch hmem)
  constructor
  · intro j hj doc hdoc hmem
    obtain ⟨f, hf, visit, hvisit, rfl, -⟩ := hadmits j hj doc hdoc hmem
    rw [visited, mem_def.mp hf, elim_some]
    exact mem_map_of_mem hvisit
  · rw [unfiltered, runSearch_unfiltered hn]
    exact runSearch_filtered hn hadmits

/-! ## Every node id in its own shard -/

section Placed

variable (f : Nat → Nat)

/-- The event puts documents nowhere but in the shards of their node ids. -/
def places (n : Nat) (s : Store α) : StoreEvent α → Bool
  | .service (.addDocument _ doc) => n != 1 || f doc.nodeId == 0
  | .service (.addWithHashes _ doc shard) => f doc.nodeId == shard
  | .service (.routerTakes shard) =>
    match s.service.handle.router.mailbox with
    | .route doc :: _ => f doc.nodeId == shard
    | _ => true
  | .applyDelta j docs => docs.all fun doc => f doc.nodeId == j
  | _ => true

/-- A record that names those shards. -/
def Follows (record : ShardRouter) : Prop :=
  ∀ id k, record.shardForNodeId id = some k → k = f id

/-- **Every document is in the shard of its node id**, and every record says so. -/
structure Placed (s : Store α) : Prop where
  docs : ∀ j doc, At s.service j doc → f doc.nodeId = j
  routes : Follows f s.routes
  stats : ∀ record ∈ s.stats, Follows f record
  searches : ∀ c search, s.searches c = some search → Follows f search.record

variable {f}

/-- A record that names the shards of the ids names no other. -/
theorem Follows.allows {record : ShardRouter} (h : Follows f record) {j id : Nat} (hj : f id = j) :
    Allows record j id := by
  cases hid : record.shardForNodeId id with
  | none => exact .inl hid
  | some k => exact .inr (by rw [hid, h id k hid, hj])

/-- The empty record names nothing. -/
theorem follows_empty : Follows f ⟨fun _ => none⟩ := fun _ _ h => by cases h

/-- What such an event routes goes to the shard of its id. -/
theorem shard_of_routed {e : ServiceEvent α} (hplaces : places f n s (.service e) = true) {j : Nat}
    (h : Routed n s.service e j doc) : f doc.nodeId = j := by
  cases e with
  | addDocument c d =>
    obtain ⟨rfl, rfl, rfl⟩ := h
    simpa [places] using hplaces
  | addWithHashes c d shard =>
    obtain ⟨rfl, rfl⟩ := h
    simpa [places] using hplaces
  | routerTakes shard =>
    obtain ⟨rfl, rest, hmail⟩ := h
    simpa [places, hmail] using hplaces
  | _ => exact h.elim

/-- **Such an event does not set the record against the shards.** -/
theorem Placed.keepsRecord (h : Placed f s) {e : StoreEvent α} (hplaces : places f n s e = true) :
    KeepsRecord n s e := by
  have hallow : ∀ {j id}, f id = j → s.SearchesAllow j id :=
    fun hj c search hsearch _ => (h.searches c search hsearch).allows hj
  cases e with
  | service e =>
    intro j doc hrouted
    have hj := shard_of_routed hplaces hrouted
    exact ⟨fun k _ d hat hid => by rw [← h.docs k d hat, hid, hj], hallow hj⟩
  | applyDelta j docs =>
    intro doc hdoc
    have hj : f doc.nodeId = j := by simpa using all_eq_true.mp hplaces doc hdoc
    exact ⟨h.routes.allows hj, hallow hj⟩
  | reopen =>
    intro j _ doc hdoc
    have hj := h.docs j doc (at_of_committed hdoc)
    cases hstats : s.stats with
    | none => exact follows_empty.allows hj
    | some record => exact (h.stats record hstats).allows hj
  | searchBegins _ _ | searchEnds _ | refuseDelta _ => trivial

/-- A new index has no document and no entry. -/
theorem placed_create : Placed f (create : Store α) where
  docs j doc hat := absurd hat (not_at_create j doc)
  routes := follows_empty
  stats _ h := by cases h
  searches _ _ h := by cases h

/-- **Such an event leaves every document in the shard of its node id.** -/
theorem Placed.next (h : Placed f s) {e : StoreEvent α} (hplaces : places f n s e = true)
    (hstep : s.next n e = some t) : Placed f t := by
  cases e with
  | service e =>
    obtain ⟨service, hservice, rfl⟩ := map_eq_some_iff.mp hstep
    refine ⟨fun j doc hat => ?_, fun id k hk => ?_, fun record hrecord => ?_, h.searches⟩
    · exact (hat.back hservice).elim (h.docs j doc) (shard_of_routed hplaces)
    · rcases routes_back hservice id with hsame | hnone | ⟨j, d, hrouted, rfl⟩
      · exact h.routes id k (hsame ▸ hk)
      · cases hnone.symm.trans hk
      · rw [shard_of_routed hplaces hrouted]
        exact Option.some.inj (hk.symm.trans (routes_of_routed hservice hrouted))
    · -- the record that is saved is the one in use
      simp only [statsAfter] at hrecord
      split at hrecord
      · split at hrecord
        · exact Option.some.inj hrecord ▸ h.routes
        · exact h.stats record hrecord
      · exact Option.some.inj hrecord ▸ h.routes
      · exact h.stats record hrecord
  | searchBegins c allowed =>
    simp only [Store.next] at hstep
    split at hstep
    · cases hstep
      refine ⟨h.docs, h.routes, h.stats, fun d search hsearch => ?_⟩
      rcases mem_setSearch hsearch with hnew | hold
      · cases hnew
        exact h.routes
      · exact h.searches d search hold
    · cases hstep
  | searchEnds c =>
    cases hstep
    refine ⟨h.docs, h.routes, h.stats, fun d search hsearch => ?_⟩
    rcases mem_setSearch hsearch with hnew | hold
    · cases hnew
    · exact h.searches d search hold
  | applyDelta j docs =>
    obtain ⟨-, heq⟩ := ite_none_right_eq_some.mp hstep
    cases heq
    refine ⟨fun k doc hat => ?_, h.routes, h.stats, h.searches⟩
    rcases at_applyDelta hat with hold | ⟨rfl, hmem⟩
    · exact h.docs k doc hold
    · simpa using all_eq_true.mp hplaces doc hmem
  | refuseDelta j =>
    obtain ⟨-, heq⟩ := ite_none_right_eq_some.mp hstep
    cases heq
    exact ⟨fun k doc hat => h.docs k doc (at_refuseDelta hat), h.routes, h.stats, h.searches⟩
  | reopen =>
    cases hstep
    refine ⟨fun j doc hat => h.docs j doc (at_of_committed (at_reopen hat)), ?_, h.stats,
      fun _ _ hsearch => by cases hsearch⟩
    show Follows f (s.stats.getD ⟨fun _ => none⟩)
    cases hstats : s.stats with
    | none => exact follows_empty
    | some record => exact h.stats record hstats

/-- `next` for such events. -/
def nextPlaced (f : Nat → Nat) (n : Nat) (s : Store α) (e : StoreEvent α) : Option (Store α) :=
  if places f n s e = true then s.next n e else none

/-- **A history in which every node id has its own shard keeps the record.** -/
theorem keeping_of_placed {log : List (StoreEvent α)}
    (h : log.foldlM (nextPlaced f n) create = some t) : Run (StepKeeping n) create log t := by
  have hrun := (Run.of_foldlM h).invariant_log
    (I := fun log s => Placed f s ∧ Run (StepKeeping n) create log s)
    (fun _ _ _ _ hold hstep => by
      obtain ⟨hplaces, hnext⟩ := ite_none_right_eq_some.mp hstep
      exact ⟨hold.1.next hplaces hnext, .snoc hold.2 ⟨hold.1.keepsRecord hplaces, hnext⟩⟩)
    ⟨placed_create, .nil⟩
  exact hrun.2

end Placed

/-! ## Histories -/

/-- A document with node id 1 is routed to a shard by `add_document_with_hashes`, and taken. -/
def adds (j : Nat) : List (StoreEvent Unit) :=
  ([.addWithHashes 0 ⟨1, ()⟩ j, .sends 0, .returns 0, .shardTakes j] :
    List (ServiceEvent Unit)).map .service

/-- `commit_direct` of two shards. -/
def commitsDirect : List (StoreEvent Unit) :=
  ([.commitDirect 0, .looks 0, .looks 0, .looks 0, .looks 0, .looks 0, .looks 0, .publishes 0,
    .publishes 0, .directReturns 0] : List (ServiceEvent Unit)).map .service

/-- `commit_fast` of two shards. -/
def commitsFast : List (StoreEvent Unit) :=
  ([.commit 0 true, .sends 0, .sends 0, .readerTakes 0, .readerTakes 1, .proceeds 0, .sends 0,
    .routerTakes 0, .proceeds 0, .sends 0, .sends 0, .shardTakes 0, .shardTakes 1, .proceeds 0,
    .sends 0, .sends 0, .shardTakes 0, .shardWorked 0, .shardTakes 0, .shardWorked 0, .shardTakes 0,
    .shardWorked 0, .shardTakes 0, .shardTakes 1, .shardWorked 1, .shardTakes 1, .shardWorked 1,
    .shardTakes 1, .shardWorked 1, .shardTakes 1, .commitReturns 0 true] :
    List (ServiceEvent Unit)).map .service

/-- `delete_by_node_id`, of a document of this shard. -/
def deletes (j : Nat) : List (StoreEvent Unit) :=
  ([.deleteByNodeId 0 1, .sends 0, .returns 0, .shardTakes j] : List (ServiceEvent Unit)).map
    .service

/-- A document is added, committed, deleted and added again to the same shard; a delta brings one of
another id, the index is opened again, a delta is refused, and both ids are searched for. -/
def placedHistory : List (StoreEvent Unit) :=
  adds 1 ++ commitsDirect ++ deletes 1 ++ adds 1 ++ commitsDirect ++
    [.applyDelta 0 [⟨2, ()⟩], .reopen, .refuseDelta 1, .searchBegins 0 [1, 2]]

/-- A node id is used twice. -/
def repeatedHistory : List (StoreEvent Unit) :=
  adds 0 ++ adds 1 ++ commitsDirect ++ [.searchBegins 0 [1]]

/-- A delta moves a document from one shard to the other. -/
def deltaHistory : List (StoreEvent Unit) :=
  adds 0 ++ commitsDirect ++ [.applyDelta 0 [], .applyDelta 1 [⟨1, ()⟩], .searchBegins 0 [1]]

/-- A document is deleted and added again; the process dies after `commit_fast`. -/
def crashHistory : List (StoreEvent Unit) :=
  adds 0 ++ commitsDirect ++ deletes 0 ++ adds 1 ++ commitsFast ++ [.reopen, .searchBegins 0 [1]]

/-- All shards stay in memory. -/
def resident : Residency := ⟨fun _ => 0, none⟩

/-- A search of a two-shard index, in node ids. -/
structure View where
  allowed : List Nat
  visits : List Nat
  /-- The committed documents of the two shards. -/
  holds : List Nat × List Nat
  found : Option (List (Nat × Nat))
  /-- The hits of an unfiltered search. -/
  all : Option (List (Nat × Nat))
deriving DecidableEq

/-- What there is to see of the search of thread 0. -/
def view (s : Store Unit) : Option View :=
  (s.searches 0).map fun search =>
    { allowed := search.allowed
      visits := visited 2 search
      holds := ((s.committed 0).map Document.nodeId, (s.committed 1).map Document.nodeId)
      found := (s.answer 2 (fun _ => true) resident search).toOption.map
        (List.map fun hit => (hit.1, hit.2.nodeId))
      all := (s.unfiltered 2 (fun _ => true) resident).toOption.map
        (List.map fun hit => (hit.1, hit.2.nodeId)) }

/-- In a history with every id in its own shard the search visits the shards of both documents. -/
theorem search_complete_placed :
    ∃ (s : Store Unit) (search : Search),
      Run (StepKeeping 2) create placedHistory s ∧ s.searches 0 = some search ∧
      search.allowed = [1, 2] ∧ (s.committed 0).map Document.nodeId = [2] ∧
      (s.committed 1).map Document.nodeId = [1] ∧ 0 ∈ visited 2 search ∧ 1 ∈ visited 2 search ∧
      s.answer 2 (fun _ => true) resident search = (s.unfiltered 2 (fun _ => true) resident).map
        (List.filter fun hit => search.allowed.contains hit.2.nodeId) := by
  have hview : (placedHistory.foldlM (nextPlaced (fun id => id % 2) 2) create).bind view =
      some ⟨[1, 2], [0, 1], ([2], [1]), some [(0, 2), (1, 1)], some [(0, 2), (1, 1)]⟩ := by
    decide +kernel
  obtain ⟨s, hs, hsearch⟩ := bind_eq_some_iff.mp hview
  obtain ⟨search, hc, hseen⟩ := map_eq_some_iff.mp hsearch
  simp only [View.mk.injEq, Prod.mk.injEq] at hseen
  obtain ⟨hallowed, -, ⟨hzero, hone⟩, -⟩ := hseen
  have hrun : Run (StepKeeping 2) create placedHistory s := keeping_of_placed hs
  obtain ⟨hvisited, hanswer⟩ := search_complete (by decide) hrun hc (fun _ => true) resident
  have hvisits : ∀ j < 2, ∀ id ∈ [1, 2], (s.committed j).map Document.nodeId = [id] →
      j ∈ visited 2 search := by
    intro j hj id hid hcommitted
    obtain ⟨doc, hdoc, rfl⟩ := mem_map.mp (hcommitted ▸ mem_singleton_self id)
    exact hvisited j hj doc hdoc (hallowed ▸ hid)
  exact ⟨s, search, hrun, hc, hallowed, hzero, hone, hvisits 0 (by decide) 2 (by decide) hzero,
    hvisits 1 (by decide) 1 (by decide) hone, hanswer⟩

/-- A search misses a document of an allowed id that is committed in a shard. -/
def Incomplete (log : List (StoreEvent Unit)) : Prop :=
  ∃ (s : Store Unit) (search : Search) (j : Nat) (doc : Document Unit),
    Run (Step 2) create log s ∧ s.searches 0 = some search ∧ j < 2 ∧ doc ∈ s.committed j ∧
      doc.nodeId ∈ search.allowed ∧ j ∉ visited 2 search ∧
      s.answer 2 (fun _ => true) resident search ≠ (s.unfiltered 2 (fun _ => true) resident).map
        (List.filter fun hit => search.allowed.contains hit.2.nodeId)

/-- What shows it: the search finds fewer documents, all of them allowed. -/
theorem incomplete_of_view {log : List (StoreEvent Unit)} {visits zero one : List Nat} (j : Nat)
    {found all : List (Nat × Nat)}
    (hview : (log.foldlM (next 2) create).bind view =
      some ⟨[1], visits, (zero, one), some found, some all⟩)
    (hj : j < 2) (hmem : 1 ∈ if j = 0 then zero else one) (hvisit : j ∉ visits)
    (hall : all.all (fun hit => hit.2 == 1) = true) (hlen : found.length < all.length) :
    Incomplete log := by
  obtain ⟨s, hs, hsearch⟩ := bind_eq_some_iff.mp hview
  obtain ⟨search, hc, hseen⟩ := map_eq_some_iff.mp hsearch
  simp only [View.mk.injEq] at hseen
  obtain ⟨hallowed, rfl, ⟨rfl, rfl⟩, hfound, hunfiltered⟩ := hseen
  obtain ⟨hits, hhits, rfl⟩ := map_eq_some_iff.mp hfound
  obtain ⟨every, hevery, rfl⟩ := map_eq_some_iff.mp hunfiltered
  obtain ⟨doc, hdoc, hid⟩ : ∃ doc ∈ s.committed j, doc.nodeId = 1 := by
    obtain rfl | rfl : j = 0 ∨ j = 1 := by omega
    · exact mem_map.mp hmem
    · exact mem_map.mp hmem
  refine ⟨s, search, j, doc, Run.of_foldlM hs, hc, hj, hdoc, by simp [hallowed, hid], hvisit, ?_⟩
  intro heq
  have hok : ∀ {x : Except SearchError (List (Nat × Document Unit))} {a}, x.toOption = some a →
      x = .ok a := by
    intro x a h
    cases x with
    | error e => cases h
    | ok b => exact congrArg _ (Option.some.inj h)
  rw [hok hhits, hok hevery] at heq
  have hsame : hits = every := by
    refine (Except.ok.inj heq).trans (filter_eq_self.mpr fun hit hhit => ?_)
    have hone := all_eq_true.mp hall _ (mem_map_of_mem hhit)
    simpa [hallowed] using hone
  rw [hsame] at hlen
  exact absurd hlen (by simp)

/-- **A filtered search can miss documents**: of an id used twice, of a delta, and after a crash. -/
theorem search_incomplete :
    Incomplete repeatedHistory ∧ Incomplete deltaHistory ∧ Incomplete crashHistory := by
  have hrepeated : (repeatedHistory.foldlM (next 2) create).bind view =
      some ⟨[1], [1], ([1], [1]), some [(1, 1)], some [(0, 1), (1, 1)]⟩ := by decide +kernel
  have hdelta : (deltaHistory.foldlM (next 2) create).bind view =
      some ⟨[1], [0], ([], [1]), some [], some [(1, 1)]⟩ := by decide +kernel
  have hcrash : (crashHistory.foldlM (next 2) create).bind view =
      some ⟨[1], [0], ([], [1]), some [], some [(1, 1)]⟩ := by decide +kernel
  refine ⟨incomplete_of_view 0 hrepeated ?_ ?_ ?_ ?_ ?_, incomplete_of_view 1 hdelta ?_ ?_ ?_ ?_ ?_,
    incomplete_of_view 1 hcrash ?_ ?_ ?_ ?_ ?_⟩ <;> decide

end Store

end Lucivy.Sharded
