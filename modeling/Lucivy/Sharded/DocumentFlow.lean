import Lucivy.Sharded.CommitBarrier
import Mathlib.Tactic.Abel

/-! # Where the documents are

A document that was added is with a reader, with the router, or in a shard, there applied or
still queued. Nothing gets lost on the way: a document that moves leaves one place and enters
another. What can go wrong is a delete. It is sent by the caller straight to the shards, past the
readers and the router, and it is sent to one shard only if the record names one. So it misses a
document that is still travelling, and a document of the same node id in another shard.

* `travelling`, `settled` — the documents on their way, and those of a shard once its queue is
  handled.
* `addedSinceDelete` — what should be there.
* `DeleteReaches` — a delete that misses nothing.
* `Balanced.next` — every event keeps the balance of documents, such deletes too.
* `committed_perm_addedSinceDelete` — so every commit publishes what it should.
* `delete_misses` — two runs with a delete that misses a document. -/

namespace Lucivy.Sharded

open Lucivy.Foundation Finset ShardedHandle Send Option
open List hiding range mem_range

variable {α : Type}

namespace ShardedHandle

variable {n : Nat} {s t : ShardedHandle α}

/-! ## Places -/

/-- The documents with a reader. -/
def readerDocs (s : ShardedHandle α) (i : Nat) : List (Document α) :=
  (s.readers i).inHand ++ (s.readerQueue i).flatMap ReaderMsg.docs

/-- The documents with the router. -/
def routerDocs (s : ShardedHandle α) : List (Document α) :=
  (s.router.inHand.map Prod.fst).toList ++ s.routerQueue.flatMap RouterMsg.docs

/-- The documents on their way to a shard. -/
def travelling (n : Nat) (s : ShardedHandle α) : List (Document α) :=
  (List.range (numReaders n)).flatMap s.readerDocs ++ s.routerDocs

/-- The documents of a shard once its queue is handled. -/
def settled (s : ShardedHandle α) (j : Nat) : List (Document α) :=
  (s.shardQueue j).foldl applyWrite (s.shards j).actor.contents

/-! ## What should be there -/

/-- What a call does to the documents of the index. -/
def applyCall (docs : List (Document α)) : Event α → List (Document α)
  | .addDocument doc => docs ++ [doc]
  | .deleteByNodeId nodeId => docs.filter (·.nodeId ≠ nodeId)
  | _ => docs

/-- The documents there should be after the calls of a log. -/
def survivors (log : List (Event α)) : List (Document α) := log.foldl applyCall []

end ShardedHandle

namespace Event

/-- A delete of this node id. -/
def deletes (nodeId : Nat) : Event α → Bool
  | .deleteByNodeId k => k = nodeId
  | _ => false

/-- The document, if one of this node id is added. -/
def adds (nodeId : Nat) : Event α → Option (Document α)
  | .addDocument doc => if doc.nodeId = nodeId then some doc else none
  | _ => none

/-- A commit that returns without an error. -/
def publishes : Event α → Bool
  | .commitReturns ok => ok
  | _ => false

end Event

/-- **The documents added with a node id after its last delete.** -/
def addedSinceDelete (nodeId : Nat) (log : List (Event α)) : List (Document α) :=
  (log.reverse.takeWhile fun e => !e.deletes nodeId).reverse.filterMap (Event.adds nodeId)

/-- The log up to the last commit that returned. -/
def publishedLog (log : List (Event α)) : List (Event α) :=
  (log.reverse.dropWhile fun e => !e.publishes).reverse

namespace ShardedHandle

variable {n : Nat} {s t : ShardedHandle α}

theorem survivors_snoc (log : List (Event α)) (e : Event α) :
    survivors (log ++ [e]) = applyCall (survivors log) e := by
  rw [survivors, foldl_append]
  rfl

/-- Seen from one node id, the survivors are what was added after its last delete. -/
theorem filter_survivors (nodeId : Nat) (log : List (Event α)) :
    (survivors log).filter (·.nodeId = nodeId) = addedSinceDelete nodeId log := by
  induction log using List.reverseRecOn with
  | nil => rfl
  | append_singleton log e ih =>
    have hsnoc : addedSinceDelete nodeId (log ++ [e]) =
        if e.deletes nodeId then [] else
          addedSinceDelete nodeId log ++ (e.adds nodeId).toList := by
      rw [addedSinceDelete, reverse_append, reverse_singleton, singleton_append, takeWhile_cons]
      cases e.deletes nodeId with
      | true => rfl
      | false =>
        simp only [addedSinceDelete]
        cases h : e.adds nodeId <;> simp [h]
    rw [survivors_snoc, hsnoc]
    cases e with
    | addDocument doc =>
      by_cases hdoc : doc.nodeId = nodeId <;> simp [applyCall, Event.deletes, Event.adds, ih, hdoc]
    | deleteByNodeId k =>
      by_cases hk : k = nodeId
      · subst hk
        simp [applyCall, Event.deletes]
      · rw [← ih]
        simp only [applyCall, Event.deletes, hk,
          Event.adds, toList_none, List.append_nil, List.filter_filter]
        refine List.filter_congr fun doc _ => ?_
        by_cases hdoc : doc.nodeId = nodeId
        · simp [hdoc, Ne.symm hk]
        · simp [hdoc]
    | commit | callerSends | callerProceeds | commitReturns _ | readerTakes _ | readerSends _
    | routerTakes _ | routerSends | shardTakes _ | shardWorked _ =>
      simp [applyCall, Event.deletes, Event.adds, ih]

theorem publishedLog_snoc (log : List (Event α)) (e : Event α) :
    publishedLog (log ++ [e]) = if e.publishes then log ++ [e] else publishedLog log := by
  rw [publishedLog, reverse_append, reverse_singleton, singleton_append, dropWhile_cons]
  cases e.publishes <;> simp [publishedLog]

/-! ## Deletes that miss nothing -/

/-- **A delete that reaches every document of its node id**: none is still travelling, and if the
record names a shard, no other shard has one. -/
def DeleteReaches (n : Nat) (s : ShardedHandle α) : Event α → Prop
  | .deleteByNodeId nodeId =>
    (∀ doc ∈ s.travelling n, doc.nodeId ≠ nodeId) ∧
      ∀ shard ∈ s.routes.shardForNodeId nodeId, ∀ j < n, j ≠ shard % n →
        ∀ doc ∈ s.settled j, doc.nodeId ≠ nodeId
  | _ => True

instance (n : Nat) (s : ShardedHandle α) (e : Event α) : Decidable (DeleteReaches n s e) :=
  match e with
  | .deleteByNodeId nodeId =>
    inferInstanceAs (Decidable ((∀ doc ∈ s.travelling n, doc.nodeId ≠ nodeId) ∧
      ∀ shard ∈ s.routes.shardForNodeId nodeId, ∀ j < n, j ≠ shard % n →
        ∀ doc ∈ s.settled j, doc.nodeId ≠ nodeId))
  | .addDocument _ | .commit | .callerSends | .callerProceeds | .commitReturns _ | .readerTakes _
  | .readerSends _ | .routerTakes _ | .routerSends | .shardTakes _ | .shardWorked _ =>
    inferInstanceAs (Decidable True)

/-! ## The balance -/

/-- **The balance of documents**: what the shards will hold and what is travelling are together
the documents there should be; and a delete on its way to a shard finds none of its documents
travelling. -/
structure Balanced (n : Nat) (docs : List (Document α)) (s : ShardedHandle α) : Prop where
  /-- No document is lost and none is there twice. -/
  total : ∑ j ∈ range n, (s.settled j : Multiset (Document α)) + (s.travelling n : Multiset _) =
    (docs : Multiset _)
  /-- Deletes being sent do not meet travelling documents. -/
  quiet : ∀ j nodeId, shard j (.delete nodeId) ∈ s.caller.outbox →
    ∀ doc ∈ s.travelling n, doc.nodeId ≠ nodeId

theorem coe_travelling (n : Nat) (s : ShardedHandle α) :
    (s.travelling n : Multiset (Document α)) =
      ∑ i ∈ range (numReaders n), (s.readerDocs i : Multiset _) + (s.routerDocs : Multiset _) := by
  rw [travelling, ← Multiset.coe_add, coe_flatMap_range]

theorem balanced_create : Balanced n [] (create : ShardedHandle α) where
  total := by
    rw [coe_travelling]
    have hsettled : ∀ j ∈ range n,
        ((create : ShardedHandle α).settled j : Multiset (Document α)) = 0 := fun _ _ => rfl
    have hreaders : ∀ i ∈ range (numReaders n),
        ((create : ShardedHandle α).readerDocs i : Multiset (Document α)) = 0 := fun _ _ => rfl
    rw [sum_eq_zero hsettled, sum_eq_zero hreaders]
    rfl
  quiet _ _ h := absurd h not_mem_nil

variable {docs : List (Document α)}

/-- Documents that travel from one place to another are the same documents. -/
theorem Balanced.of_travelling (h : Balanced n docs s)
    (hsettled : ∀ j < n, t.settled j = s.settled j)
    (htravelling : (t.travelling n : Multiset (Document α)) = s.travelling n)
    (hout : ∀ j nodeId, shard j (.delete nodeId) ∈ t.caller.outbox →
      shard j (.delete nodeId) ∈ s.caller.outbox) : Balanced n docs t := by
  refine ⟨?_, fun j nodeId hm doc hdoc => ?_⟩
  · rw [htravelling, ← h.total]
    congr 1
    exact sum_congr rfl fun j hj => by rw [hsettled j (mem_range.mp hj)]
  · refine h.quiet j nodeId (hout j nodeId hm) doc ?_
    rw [← Multiset.mem_coe, ← htravelling]
    exact hdoc

/-- Events that move no document keep the balance. -/
theorem Balanced.of_same (h : Balanced n docs s) (hsettled : ∀ j < n, t.settled j = s.settled j)
    (hreaders : ∀ i < numReaders n, t.readerDocs i = s.readerDocs i)
    (hrouter : t.routerDocs = s.routerDocs)
    (hout : ∀ j nodeId, shard j (.delete nodeId) ∈ t.caller.outbox →
      shard j (.delete nodeId) ∈ s.caller.outbox) : Balanced n docs t := by
  refine h.of_travelling hsettled (congrArg _ ?_) hout
  rw [travelling, travelling, hrouter]
  congr 1
  exact flatMap_congr fun i hi => hreaders i (mem_range.mp hi)

/-- The caller's sending moves nothing. -/
theorem Balanced.of_sameQueues (h : Balanced n docs s) (hq : SameQueues s t) {m : Send α}
    (hout : s.caller.outbox = m :: t.caller.outbox) : Balanced n docs t := by
  refine h.of_same (fun j _ => ?_) (fun i _ => ?_) ?_ fun j nodeId hm => ?_
  · rw [settled, settled, hq.shardQueue, hq.shardActor]
  · rw [readerDocs, readerDocs, hq.readerQueue, hq.readerHand]
  · rw [routerDocs, routerDocs, hq.routerQueue, hq.routerHand]
  · rw [hout]
    exact mem_cons_of_mem m hm

/-! ## Calls -/

/-- A message that moves no document. -/
def IsInert : Send α → Prop
  | .reader _ m => m.docs = []
  | .router m => m.docs = []
  | .shard _ m => m.isWrite = false

theorem applyWrite_of_not_isWrite {m : ShardMsg α} (h : m.isWrite = false)
    (l : List (Document α)) : applyWrite l m = l := by
  cases m with
  | insert _ | delete _ => exact absurd h nofun
  | commit _ _ | indexersDrained _ _ | flushDone _ _ | commitDone _ _ | drain _ | shutdown _ => rfl

theorem foldl_applyWrite_of_inert {q : List (ShardMsg α)} (h : ∀ m ∈ q, m.isWrite = false)
    (l : List (Document α)) : q.foldl applyWrite l = l := by
  refine foldlRecOn (motive := (· = l)) q _ rfl fun l' hl m hm => ?_
  rw [applyWrite_of_not_isWrite (h m hm), hl]

variable {j : Nat} {out : List (Send α)}

/-- Where one send only becomes `m` for an actor, that is what the caller sent it. -/
theorem mem_filterMap_of_eq_some {β : Type} {f : Send α → Option β} {m : β} {x : Send α}
    (h : ∀ y, f y = some m ↔ y = x) : m ∈ out.filterMap f ↔ x ∈ out := by
  rw [List.mem_filterMap]
  simp [h]

/-- What a message to a shard was, as the caller sent it. -/
theorem mem_filterMap_toShard {m : ShardMsg α} :
    m ∈ out.filterMap (toShard j) ↔ shard j m ∈ out :=
  mem_filterMap_of_eq_some fun _ => toShard_eq_some

/-- What a message to a reader was, as the caller sent it. -/
theorem mem_filterMap_toReader {i : Nat} {m : ReaderMsg α} :
    m ∈ out.filterMap (toReader i) ↔ reader i m ∈ out :=
  mem_filterMap_of_eq_some fun _ => toReader_eq_some

/-- What a message to the router was, as the caller sent it. -/
theorem mem_filterMap_toRouter {m : RouterMsg α} :
    m ∈ out.filterMap toRouter ↔ Send.router m ∈ out :=
  mem_filterMap_of_eq_some fun _ => toRouter_eq_some

/-- The settled documents of a shard, behind a call. -/
theorem Calls.settled (hc : Calls s t) (j : Nat) :
    t.settled j = (t.caller.outbox.filterMap (toShard j)).foldl applyWrite (s.settled j) := by
  rw [ShardedHandle.settled, hc.shardQueue, foldl_append, hc.shards]
  rfl

/-- The documents with a reader, behind a call. -/
theorem Calls.readerDocs (hc : Calls s t) (i : Nat) :
    t.readerDocs i = s.readerDocs i ++
      (t.caller.outbox.filterMap (toReader i)).flatMap ReaderMsg.docs := by
  rw [ShardedHandle.readerDocs, hc.readerQueue, flatMap_append, hc.readers, ← append_assoc]
  rfl

/-- The documents with the router, behind a call. -/
theorem Calls.routerDocs (hc : Calls s t) :
    t.routerDocs = s.routerDocs ++ (t.caller.outbox.filterMap toRouter).flatMap RouterMsg.docs := by
  rw [ShardedHandle.routerDocs, hc.routerQueue, flatMap_append, hc.router, ← append_assoc]
  rfl

/-- A call that sends nothing to readers and router leaves what is travelling. -/
theorem Calls.travelling (hc : Calls s t)
    (hreader : ∀ i, t.caller.outbox.filterMap (toReader i) = [])
    (hrouter : t.caller.outbox.filterMap toRouter = []) : t.travelling n = s.travelling n := by
  rw [ShardedHandle.travelling, ShardedHandle.travelling, hc.routerDocs, hrouter, flatMap_nil,
    append_nil]
  congr 1
  refine flatMap_congr fun i _ => ?_
  rw [hc.readerDocs, hreader, flatMap_nil, append_nil]

/-- The drains and commits of a commit move no document. -/
theorem Balanced.of_inert (h : Balanced n docs s) (hc : Calls s t)
    (hinert : ∀ m ∈ t.caller.outbox, IsInert m) : Balanced n docs t := by
  refine h.of_same (fun j _ => ?_) (fun i _ => ?_) ?_ fun j nodeId hm => ?_
  · rw [hc.settled]
    exact foldl_applyWrite_of_inert (fun m hm => hinert _ (mem_filterMap_toShard.mp hm)) _
  · rw [hc.readerDocs, flatMap_eq_nil_iff.mpr fun m hm =>
      hinert _ (mem_filterMap_toReader.mp hm), append_nil]
  · rw [hc.routerDocs, flatMap_eq_nil_iff.mpr fun m hm =>
      hinert _ (mem_filterMap_toRouter.mp hm), append_nil]
  · exact absurd (hinert _ hm) nofun

/-- `add_document`: the document is there, queued for the shard or travelling. -/
theorem Balanced.addDocument (h : Balanced n docs s) (hready : s.caller.isReady = true)
    (doc : Document α) : Balanced n (docs ++ [doc]) (s.addDocument n doc) := by
  obtain ⟨hidle, hout⟩ := isReady_iff.mp hready
  have hcalls : Calls s (s.addDocument n doc) := by
    unfold ShardedHandle.addDocument
    split <;> exact ⟨hout, rfl, rfl, rfl⟩
  have htotal := h.total
  by_cases hn : n = 1
  · -- one shard: the document is queued there
    subst hn
    have hsent : (s.addDocument 1 doc).caller.outbox = [.shard 0 (.insert doc)] := rfl
    have htravelling : (s.addDocument 1 doc).travelling 1 = s.travelling 1 :=
      hcalls.travelling (fun _ => rfl) rfl
    refine ⟨?_, fun j nodeId hm => ?_⟩
    · rw [htravelling, ← Multiset.coe_add, ← htotal, sum_range_one, sum_range_one, hcalls.settled,
        hsent, show [shard 0 (ShardMsg.insert doc)].filterMap (toShard 0) = [.insert doc]
          from rfl, foldl_cons, foldl_nil, applyWrite, ← Multiset.coe_add,
        add_right_comm]
    · exact absurd (List.mem_singleton.mp hm) (by simp)
  · -- several shards: the document is on its way to a reader
    have hsent : (s.addDocument n doc).caller.outbox =
        [.reader (s.nextReader % numReaders n) (.tokenize doc)] := by
      rw [ShardedHandle.addDocument, if_neg hn]
    have hlt : s.nextReader % numReaders n < numReaders n :=
      Nat.mod_lt _ (lt_of_lt_of_le Nat.zero_lt_two (le_max_right n 2))
    have hsettled : ∀ j ∈ range n, ((s.addDocument n doc).settled j : Multiset (Document α)) =
        s.settled j := by
      intro j _
      rw [hcalls.settled, hsent]
      rfl
    have hrouter : (s.addDocument n doc).routerDocs = s.routerDocs := by
      rw [hcalls.routerDocs, hsent]
      exact append_nil _
    have hreaders := sum_range_exchange hlt (f := fun i => (s.readerDocs i : Multiset (Document α)))
      (g := fun i => ((s.addDocument n doc).readerDocs i : Multiset (Document α)))
      (a := 0) (b := ([doc] : Multiset (Document α)))
      (by
        intro i hi
        have hne : ¬ s.nextReader % numReaders n = i := fun h => hi h.symm
        simp only [hcalls.readerDocs, hsent]
        simp [toReader, hne])
      (by
        simp only [hcalls.readerDocs, hsent]
        simp [toReader, ReaderMsg.docs, ← Multiset.coe_add])
    refine ⟨?_, fun j nodeId hm => ?_⟩
    · rw [add_zero] at hreaders
      rw [sum_congr rfl hsettled, coe_travelling, hreaders, hrouter, ← Multiset.coe_add, ← htotal,
        coe_travelling]
      abel
    · rw [hsent] at hm
      exact absurd (List.mem_singleton.mp hm) (by simp)

theorem calls_deleteByNodeId (hready : s.caller.isReady = true) (nodeId : Nat) :
    Calls s (s.deleteByNodeId n nodeId) :=
  ⟨(isReady_iff.mp hready).2, rfl, rfl, rfl⟩

/-- A delete sent to a shard filters it; one sent to no shard of its documents changes nothing. -/
theorem settled_deleteByNodeId (hready : s.caller.isReady = true) {nodeId : Nat}
    (hreach : DeleteReaches n s (.deleteByNodeId nodeId)) (hj : j < n) :
    (s.deleteByNodeId n nodeId).settled j = (s.settled j).filter (·.nodeId ≠ nodeId) := by
  have hsent : (s.deleteByNodeId n nodeId).caller.outbox =
      (s.deleteTargets n nodeId).map fun j => shard j (.delete nodeId) := rfl
  rw [(calls_deleteByNodeId hready nodeId).settled, hsent, deleteTargets]
  cases hrecord : s.routes.shardForNodeId nodeId with
  | none =>
    rw [elim_none, filterMap_toShard_shards, if_pos hj]
    rfl
  | some shard =>
    by_cases hjs : j = shard % n
    · simp [toShard, hjs, applyWrite]
    · have hsj : ¬ shard % n = j := fun h => hjs h.symm
      have hother := hreach.2 shard hrecord j hj hjs
      rw [List.filter_eq_self.mpr (by simpa using hother)]
      simp [toShard, hsj]

/-- `delete_by_node_id`, where it reaches every document of its node id. -/
theorem Balanced.deleteByNodeId (h : Balanced n docs s) (hready : s.caller.isReady = true)
    {nodeId : Nat} (hreach : DeleteReaches n s (.deleteByNodeId nodeId)) :
    Balanced n (docs.filter (·.nodeId ≠ nodeId)) (s.deleteByNodeId n nodeId) := by
  have htravelling : (s.deleteByNodeId n nodeId).travelling n = s.travelling n :=
    (calls_deleteByNodeId hready nodeId).travelling
      (filterMap_toReader_shards _ (s.deleteTargets n nodeId))
      (filterMap_toRouter_shards _ (s.deleteTargets n nodeId))
  refine ⟨?_, fun j k hm => ?_⟩
  · -- no travelling document is filtered out
    have hkept : (s.travelling n).filter (·.nodeId ≠ nodeId) = s.travelling n :=
      filter_eq_self.mpr (by simpa using hreach.1)
    have hsettled : ∑ j ∈ range n, ((s.deleteByNodeId n nodeId).settled j : Multiset (Document α)) =
        ∑ j ∈ range n,
          (((s.settled j).filter (·.nodeId ≠ nodeId) : List (Document α)) : Multiset _) :=
      sum_congr rfl fun j hj => by
        rw [settled_deleteByNodeId hready hreach (mem_range.mp hj)]
    rw [hsettled, htravelling, ← hkept, sum_range_filter, ← Multiset.filter_coe,
      ← Multiset.filter_add, h.total, Multiset.filter_coe]
  · obtain ⟨i, -, hi⟩ := mem_map.mp hm
    obtain ⟨-, hdelete⟩ := Send.shard.inj hi
    obtain rfl := ShardMsg.delete.inj hdelete
    rw [htravelling]
    exact hreach.1

/-! ## The actors -/

section

variable (h : Balanced n docs s)
include h

/-- A reader that takes a message has its documents in hand. -/
theorem Balanced.readerTakes {i : Nat} (hstep : s.readerTakes i = some t) : Balanced n docs t := by
  obtain ⟨hhand, m, rest, hmail, rfl⟩ := readerTakes_cases hstep
  have hqueue : s.readerQueue i = m :: (rest ++ s.caller.outbox.filterMap (toReader i)) := by
    rw [readerQueue, hmail, cons_append]
  refine h.of_same (fun _ _ => rfl) (fun k _ => ?_) rfl fun _ _ => id
  show (s.setReader i ⟨rest, m.docs⟩).readerDocs k = s.readerDocs k
  by_cases hki : k = i
  · subst hki
    rw [readerDocs, readerDocs, readerQueue_setReader_self, readers_setReader_self, hhand, hqueue,
      flatMap_cons, nil_append]
  · rw [readerDocs, readerDocs, readerQueue_setReader_ne s hki, readers_setReader_ne s hki]

/-- A reader sends a document on: it is with the router now. -/
theorem Balanced.readerSends {i : Nat} (hi : i < numReaders n)
    (hstep : s.readerSends i = some t) : Balanced n docs t := by
  obtain ⟨doc, rest, hhand, rfl⟩ := readerSends_cases hstep
  refine h.of_travelling (fun _ _ => rfl) ?_ fun _ _ => id
  set u := s.setReader i ⟨(s.readers i).mailbox, rest⟩ with hu
  have hreader : ∀ k, k ≠ i → (u.deliver (.router (.route doc))).readerDocs k = s.readerDocs k := by
    intro k hki
    show u.readerDocs k = s.readerDocs k
    rw [readerDocs, readerDocs, readerQueue_setReader_ne s hki, readers_setReader_ne s hki]
  have hself : s.readerDocs i = doc :: (u.deliver (.router (.route doc))).readerDocs i := by
    show s.readerDocs i = doc :: u.readerDocs i
    rw [readerDocs, readerDocs, readerQueue_setReader_self, readers_setReader_self, hhand]
    rfl
  rw [coe_travelling, coe_travelling]
  refine sum_range_exchange hi (fun k hk => by rw [hreader k hk]) ?_
  rw [hself]
  simp only [routerDocs, routerQueue, deliver, hu, setReader, flatMap_append,
    ← Multiset.coe_add, ← Multiset.cons_coe, ← Multiset.singleton_add]
  simp only [flatMap_cons, flatMap_nil, RouterMsg.docs, append_nil, Multiset.coe_singleton]
  abel

/-- The router that takes a document has it in hand. -/
theorem Balanced.routerTakes {shard : Nat}
    (hstep : s.routerTakes shard = some t) : Balanced n docs t := by
  obtain ⟨hhand, m, rest, hmail, rfl⟩ := routerTakes_cases hstep
  refine h.of_same (fun _ _ => rfl) (fun _ _ => rfl) ?_ fun _ _ => id
  cases m <;> simp [routerDocs, routerQueue, hhand, hmail, RouterMsg.docs, RouterMsg.inHand,
    setCaller, Caller.receive]

end

/-- A document in front of writes that do not delete it is there behind them. -/
theorem foldl_applyWrite_add {doc : Document α} {q : List (ShardMsg α)}
    (hq : ∀ nodeId, ShardMsg.delete nodeId ∈ q → doc.nodeId ≠ nodeId) {l l' : List (Document α)}
    (hl : (l' : Multiset (Document α)) = l + {doc}) :
    ((q.foldl applyWrite l' : List (Document α)) : Multiset (Document α)) =
      (q.foldl applyWrite l : List (Document α)) + {doc} := by
  induction q generalizing l l' with
  | nil => exact hl
  | cons m q ih =>
    refine ih (fun nodeId hm => hq nodeId (mem_cons_of_mem m hm)) ?_
    cases m with
    | insert d =>
      rw [applyWrite, applyWrite, ← Multiset.coe_add, ← Multiset.coe_add, hl]
      exact add_right_comm _ _ _
    | delete nodeId =>
      rw [applyWrite, applyWrite, ← Multiset.filter_coe, ← Multiset.filter_coe, hl,
        Multiset.filter_add, Multiset.filter_singleton,
        if_pos (hq nodeId mem_cons_self)]
    | commit _ _ | indexersDrained _ _ | flushDone _ _ | commitDone _ _ | drain _
    | shutdown _ => exact hl

/-- The shard the router has picked is there. -/
def Routed (n : Nat) (s : ShardedHandle α) : Prop := ∀ routed ∈ s.router.inHand, routed.2 < n

/-- **Every event keeps the router's pick a shard of the index.** -/
theorem Routed.next (h : Routed n s) {e : Event α} (hstep : s.next n e = some t) : Routed n t := by
  cases does_of_next hstep with
  | addDocument =>
    unfold addDocument
    split <;> exact h
  | deleteByNodeId | commit | callerProceeds | commitReturns => exact h
  | callerSends hmove =>
    have hhand := (callerSends_queues hmove).1.routerHand
    exact fun routed hr => h routed (hhand ▸ hr)
  | readerTakes _ hmove =>
    obtain ⟨-, m, rest, -, rfl⟩ := readerTakes_cases hmove
    exact h
  | readerSends _ hmove =>
    obtain ⟨doc, docs, -, rfl⟩ := readerSends_cases hmove
    exact h
  | routerTakes hlt hmove =>
    obtain ⟨-, m, rest, -, rfl⟩ := routerTakes_cases hmove
    cases m with
    | route doc =>
      rintro routed ⟨⟩
      exact hlt
    | drain reply => exact nofun
  | routerSends hmove =>
    obtain ⟨doc, shard, -, rfl⟩ := routerSends_cases hmove
    exact nofun
  | shardTakes _ hmove =>
    obtain ⟨m, rest, -, rfl⟩ := shardTakes_cases hmove
    exact h
  | shardWorked _ hmove =>
    obtain ⟨w, -, rfl⟩ := map_eq_some_iff.mp hmove
    exact h

section

variable (h : Balanced n docs s)
include h

/-- The router sends a document to its shard; no delete on its way there is one of its own. -/
theorem Balanced.routerSends
    (hshard : Routed n s) (hstep : s.routerSends = some t) : Balanced n docs t := by
  obtain ⟨doc, shard, hhand, ht⟩ := routerSends_cases hstep
  have hlt : shard < n := hshard _ hhand
  have hmem : doc ∈ s.travelling n := by
    rw [travelling, routerDocs, hhand]
    simp
  have hrouter : s.routerDocs = doc :: t.routerDocs := by
    rw [ht, routerDocs, hhand]
    rfl
  have htravelling : (s.travelling n : Multiset (Document α)) = {doc} + t.travelling n := by
    rw [coe_travelling, coe_travelling, hrouter, ← Multiset.cons_coe, ← Multiset.singleton_add,
      add_left_comm, ht]
    rfl
  have hother : ∀ j, j ≠ shard → t.settled j = s.settled j := by
    intro j hj
    simp only [ht, settled, shardQueue, deliver, shards_setShard_ne _ hj]
    rfl
  have hself : (t.settled shard : Multiset (Document α)) = s.settled shard + {doc} := by
    simp only [ht, settled, shardQueue, deliver, shards_setShard_self, foldl_append]
    refine foldl_applyWrite_add (fun nodeId hm => ?_) ?_
    · exact h.quiet shard nodeId (mem_filterMap_toShard.mp hm) doc hmem
    · rfl
  refine ⟨?_, fun j nodeId hm d hd => ?_⟩
  · rw [← h.total, htravelling]
    refine sum_range_exchange hlt (fun j hj => by rw [hother j hj]) ?_
    rw [hself, add_assoc]
  · refine h.quiet j nodeId (by rwa [ht] at hm) d ?_
    rw [← Multiset.mem_coe, htravelling]
    exact Multiset.mem_add.mpr (.inr hd)

/-- A shard that moves keeps its settled documents. -/
theorem Balanced.moveShard {k : Shard α} {c : Caller α} (hout : c.outbox = s.caller.outbox)
    (hk : (k.actor.deferred ++ (k.mailbox ++ s.caller.outbox.filterMap (toShard j))).foldl
      applyWrite k.actor.contents = s.settled j) :
    Balanced n docs ((s.setShard j k).setCaller c) := by
  refine h.of_same (fun i _ => ?_) (fun i _ => ?_) ?_ fun i nodeId hm => ?_
  · by_cases hij : i = j
    · subst hij
      rw [← hk]
      simp [settled, shardQueue, setCaller, hout]
    · simp [settled, shardQueue, setCaller, setShard, hij, hout]
  · simp [readerDocs, readerQueue, setCaller, setShard, hout]
  · simp [routerDocs, routerQueue, setCaller, setShard, hout]
  · rwa [← hout]

/-- A shard applies the message at the head of its queue. -/
theorem Balanced.shardTakes (hshape : Shape n s) (hj : j < n)
    (hstep : s.shardTakes j = some t) : Balanced n docs t := by
  obtain ⟨m, rest, hmail, rfl⟩ := shardTakes_cases hstep
  have hhead := hshape.head hj hmail
  have hsettled : s.settled j = (rest ++ s.caller.outbox.filterMap (toShard j)).foldl
      applyWrite (applyWrite (s.shards j).actor.contents m) := by
    rw [settled, shardQueue_of_healthy hhead.healthy, hmail, cons_append, foldl_cons]
  refine h.moveShard rfl ?_
  rw [hsettled]
  rcases hhead.take with ⟨-, hhandled⟩ | ⟨-, -, hhandled⟩ <;>
    rw [Shard.after, hhandled.stands.healthy.deferred, nil_append, hhandled.contents]

/-- The work of a shard moves no document. -/
theorem Balanced.shardWorked (hshape : Shape n s) (hj : j < n)
    (hstep : s.shardWorked j = some t) : Balanced n docs t := by
  obtain ⟨w, hwork, rfl⟩ := map_eq_some_iff.mp hstep
  obtain ⟨hstands, hmail, hout⟩ := hshape.work hj hwork
  obtain ⟨-, hempty, hafter, hcontents⟩ := hstands.worked hmail
  refine h.moveShard rfl ?_
  rw [settled, hempty, hout, hafter.healthy.deferred, hcontents]
  cases w <;> simp [Shard.finishWork, hmail, applyWrite]

/-- **Every event keeps the balance**, deletes where they reach their documents. -/
theorem Balanced.next (hshape : Shape n s) (hrouted : Routed n s)
    {e : Event α} (hreach : DeleteReaches n s e) (hstep : s.next n e = some t) :
    Balanced n (applyCall docs e) t := by
  cases does_of_next hstep with
  | addDocument hready => exact h.addDocument hready _
  | deleteByNodeId hready => exact h.deleteByNodeId hready hreach
  | commit hready =>
    exact h.of_inert ⟨(isReady_iff.mp hready).2, rfl, rfl, rfl⟩ (forall_mem_map.mpr fun _ _ => rfl)
  | callerSends hmove =>
    obtain ⟨hqueues, m, hout, -⟩ := callerSends_queues hmove
    exact h.of_sameQueues hqueues hout
  | callerProceeds hserved hc =>
    refine h.of_inert ⟨(isServed_iff.mp hserved).1, rfl, rfl, rfl⟩ ?_
    generalize s.caller.phase = phase at hc
    cases phase with
    | idle | committing => cases hc
    | drainingReaders =>
      cases hc
      exact forall_mem_singleton.mpr rfl
    | drainingRouter | drainingShards =>
      cases hc
      exact forall_mem_map.mpr fun _ _ => rfl
  | commitReturns hserved =>
    exact h.of_inert ⟨(isServed_iff.mp hserved).1, rfl, rfl, rfl⟩ (forall_mem_nil _)
  | readerTakes _ hmove => exact h.readerTakes hmove
  | readerSends hi hmove => exact h.readerSends hi hmove
  | routerTakes _ hmove => exact h.routerTakes hmove
  | routerSends hmove => exact h.routerSends hrouted hmove
  | shardTakes hj hmove => exact h.shardTakes hshape hj hmove
  | shardWorked hj hmove => exact h.shardWorked hshape hj hmove

end

/-! ## Publication -/

/-- Outside of the shards' commits, what is published is a given list of documents. -/
def Published (n : Nat) (docs : List (Document α)) (s : ShardedHandle α) : Prop :=
  s.caller.phase ≠ .committing → (s.committedDocs n).Perm docs

/-- Events that publish nothing. -/
theorem Published.of_same (h : Published n docs s)
    (hcommitted : ∀ j < n, (t.shards j).actor.committed = (s.shards j).actor.committed)
    (hphase : t.caller.phase ≠ .committing → s.caller.phase ≠ .committing) :
    Published n docs t := by
  intro hp
  have hsame : t.committedDocs n = s.committedDocs n :=
    flatMap_congr fun j hj => hcommitted j (mem_range.mp hj)
  rw [hsame]
  exact h (hphase hp)

/-- When a commit returns, everything there should be is published. -/
theorem Balanced.published (h : Balanced n docs s) (hshape : Shape n s)
    (hserved : s.caller.isServed = true) (hphase : s.caller.phase = .committing) :
    (s.committedDocs n).Perm docs := by
  obtain ⟨-, hawaited⟩ := isServed_iff.mp hserved
  have hreaders : ∀ i < numReaders n, s.readerDocs i = [] := by
    intro i hi
    have hheld := hshape.readers i hi
    rw [hphase] at hheld
    rw [readerDocs, hheld.1, hheld.2]
    rfl
  have hrouter : s.routerDocs = [] := by
    have hheld := hshape.router
    rw [hphase] at hheld
    rw [routerDocs, hheld.1, hheld.2]
    rfl
  have htravelling : s.travelling n = [] := by
    rw [travelling, hrouter, append_nil]
    exact flatMap_eq_nil_iff.mpr fun i hi => hreaders i (mem_range.mp hi)
  have hsettled : ∀ j ∈ range n, (s.settled j : Multiset (Document α)) =
      (s.shards j).actor.committed := by
    intro j hj
    have hover := ((hshape.shards j (mem_range.mp hj)).committing hphase).2
      (by rw [hawaited]; exact not_mem_nil)
    rw [settled, hover.queue, hover.published]
    rfl
  have htotal := h.total
  rw [htravelling, sum_congr rfl hsettled, ← coe_flatMap_range] at htotal
  rw [← Multiset.coe_eq_coe, ← htotal]
  exact (add_zero _).symm

/-- **Every event keeps what is published**, up to the commit that returns. -/
theorem Published.next {before : List (Event α)}
    (h : Published n (survivors (publishedLog before)) s)
    (hshape : Shape n s) (hbalance : Balanced n (survivors before) s) {e : Event α}
    (hstep : s.next n e = some t) :
    Published n (survivors (publishedLog (before ++ [e]))) t := by
  rw [publishedLog_snoc]
  cases does_of_next hstep with
  | addDocument =>
    change Published n (survivors (publishedLog before)) _
    unfold addDocument
    split <;> exact h.of_same (fun _ _ => rfl) id
  | deleteByNodeId => exact h.of_same (fun _ _ => rfl) id
  | commit hready =>
    refine h.of_same (fun _ _ => rfl) fun _ => ?_
    rw [(isReady_iff.mp hready).1]
    nofun
  | callerSends hmove =>
    obtain ⟨hqueues, m, -, hcaller⟩ := callerSends_queues hmove
    refine h.of_same (fun j _ => by rw [hqueues.shardActor]) fun hp => ?_
    rwa [hcaller] at hp
  | callerProceeds _ hc =>
    refine h.of_same (fun _ _ => rfl) fun _ hp => ?_
    rw [hp] at hc
    cases hc
  | @commitReturns ok hserved hphase hok =>
    -- no shard answered an error, so the commit is a good one
    have hpublishes : (Event.commitReturns ok : Event α).publishes = true := by
      rw [hshape.errors] at hok
      exact hok
    intro _
    rw [if_pos hpublishes, survivors_snoc]
    exact hbalance.published hshape hserved hphase
  | readerTakes _ hmove =>
    obtain ⟨-, m, rest, -, rfl⟩ := readerTakes_cases hmove
    exact h.of_same (fun _ _ => rfl) id
  | readerSends _ hmove =>
    obtain ⟨doc, docs, -, rfl⟩ := readerSends_cases hmove
    exact h.of_same (fun _ _ => rfl) id
  | routerTakes _ hmove =>
    obtain ⟨-, m, rest, -, rfl⟩ := routerTakes_cases hmove
    exact h.of_same (fun _ _ => rfl) id
  | routerSends hmove =>
    obtain ⟨doc, shard, -, rfl⟩ := routerSends_cases hmove
    refine h.of_same (fun j _ => ?_) id
    by_cases hj : j = shard <;> simp [deliver, setShard, hj]
  | @shardTakes j _ hj hmove =>
    obtain ⟨m, rest, hmail, rfl⟩ := shardTakes_cases hmove
    have hcommitted : ((s.shards j).actor.handle m).actor.committed =
        (s.shards j).actor.committed := by
      rcases (hshape.head hj hmail).take with ⟨-, hhandled⟩ | ⟨-, -, hhandled⟩ <;>
        exact hhandled.committed
    refine h.of_same (fun i _ => ?_) id
    by_cases hij : i = j <;> simp [setCaller, setShard, Shard.after, hij, hcommitted]
  | shardWorked hj hmove =>
    obtain ⟨w, hwork, rfl⟩ := map_eq_some_iff.mp hmove
    obtain ⟨hstands, hmail, -⟩ := hshape.work hj hwork
    -- work ends only within the commits of the shards
    exact fun hp => absurd (hstands.worked hmail).1 hp

/-- What holds at every state of a run. -/
structure Sound (n : Nat) (log : List (Event α)) (s : ShardedHandle α) : Prop where
  shape : Shape n s
  routed : Routed n s
  balanced : Balanced n (survivors log) s
  published : Published n (survivors (publishedLog log)) s

theorem sound_create : Sound n [] (create : ShardedHandle α) where
  shape := shape_create
  routed := nofun
  balanced := balanced_create
  published _ := by
    have hnone : (create : ShardedHandle α).committedDocs n = [] :=
      flatMap_eq_nil_iff.mpr fun _ _ => rfl
    rw [hnone]
    exact List.Perm.refl _

/-- **Runs.** -/
theorem sound_of_run {log : List (Event α)}
    (hrun : Run (Guarded (Step n) (DeleteReaches n)) (create : ShardedHandle α) log s) :
    Sound n log s := by
  refine hrun.invariant_log (I := Sound n) (fun before s e t h hstep => ?_) sound_create
  obtain ⟨hreach, hnext⟩ := hstep
  refine ⟨h.shape.next hnext, h.routed.next hnext, ?_, h.published.next h.shape h.balanced hnext⟩
  rw [survivors_snoc]
  exact h.balanced.next h.shape h.routed hreach hnext

/-- **No document is lost or doubled on its way**: at every moment of such a run, the documents of
the shards and those still travelling are those added and not deleted since. -/
theorem settled_travelling_perm {log : List (Event α)}
    (hrun : Run (Guarded (Step n) (DeleteReaches n)) (create : ShardedHandle α) log s) :
    ((List.range n).flatMap s.settled ++ s.travelling n).Perm (survivors log) := by
  have htotal := (sound_of_run hrun).balanced.total
  rwa [← coe_flatMap_range, Multiset.coe_add, Multiset.coe_eq_coe] at htotal

/-- **What a commit publishes.** In every run of an index of any number of shards whose deletes
reach the documents of their node id, and whenever the shards are not just committing, the
committed documents with a node id are exactly those that were added with it after its last
delete, up to the last commit that returned. -/
theorem committed_perm_addedSinceDelete {log : List (Event α)}
    (hrun : Run (Guarded (Step n) (DeleteReaches n)) (create : ShardedHandle α) log s)
    (hphase : s.caller.phase ≠ .committing) (nodeId : Nat) :
    ((s.committedDocs n).filter (·.nodeId = nodeId)).Perm
      (addedSinceDelete nodeId (publishedLog log)) := by
  rw [← filter_survivors]
  exact ((sound_of_run hrun).published hphase).filter _

/-! ## Runs on two shards -/

/-- One event, if the deletes reach their documents. -/
def nextGuarded (n : Nat) (s : ShardedHandle α) (e : Event α) : Option (ShardedHandle α) :=
  if DeleteReaches n s e then s.next n e else none

theorem run_of_nextGuarded {log : List (Event α)} (h : log.foldlM (nextGuarded n) s = some t) :
    Run (Guarded (Step n) (DeleteReaches n)) s log t :=
  (Run.of_foldlM h).mono fun _ _ _ hstep => ite_none_right_eq_some.mp hstep

/-- A document on its way from the caller through a reader and the router to a shard. -/
def throughPipeline (reader shard : Nat) : List (Event α) :=
  [.readerTakes reader, .readerSends reader, .routerTakes shard, .routerSends, .shardTakes shard]

/-- The commit of a shard, from the request to the answer. -/
def shardCommits (j : Nat) : List (Event α) :=
  [.shardTakes j, .shardWorked j, .shardTakes j, .shardWorked j, .shardTakes j, .shardWorked j,
    .shardTakes j]

/-- A commit over two shards, nothing else being under way. -/
def commitOfTwo : List (Event α) :=
  [.commit, .callerSends, .callerSends, .readerTakes 0, .readerTakes 1, .callerProceeds,
    .callerSends, .routerTakes 0, .callerProceeds,
    .callerSends, .callerSends, .shardTakes 0, .shardTakes 1, .callerProceeds,
    .callerSends, .callerSends] ++ shardCommits 0 ++ shardCommits 1 ++ [.commitReturns true]

/-- A document is added and committed, deleted, added again and committed. -/
def updateRun : List (Event Unit) :=
  [.addDocument ⟨7, ()⟩, .callerSends] ++ throughPipeline 0 0 ++ commitOfTwo ++
    [.deleteByNodeId 7, .callerSends, .shardTakes 0, .addDocument ⟨7, ()⟩, .callerSends] ++
    throughPipeline 1 1 ++ commitOfTwo

theorem committed_perm_addedSinceDelete_update :
    ∃ s, Run (Guarded (Step 2) (DeleteReaches 2)) create updateRun s ∧ s.caller.phase = .idle ∧
      ((s.committedDocs 2).filter (·.nodeId = 7)).Perm [⟨7, ()⟩] := by
  have hrun : ((updateRun.foldlM (nextGuarded 2) create).map fun s => s.caller.phase) =
      some .idle := by decide
  obtain ⟨s, hs, hphase⟩ := map_eq_some_iff.mp hrun
  have hrun' := run_of_nextGuarded hs
  exact ⟨s, hrun', hphase, committed_perm_addedSinceDelete hrun' (by rw [hphase]; nofun) 7⟩

/-- Two documents are in their shards, the first is deleted and added again, and comes to the
router. -/
def updateUnderWay : List (Event Unit) :=
  [.addDocument ⟨7, ()⟩, .callerSends] ++ throughPipeline 0 0 ++
    [.addDocument ⟨8, ()⟩, .callerSends] ++ throughPipeline 1 1 ++
    [.deleteByNodeId 7, .callerSends, .shardTakes 0, .addDocument ⟨7, ()⟩, .callerSends,
      .readerTakes 0, .readerSends 0]

theorem settled_travelling_perm_update :
    ∃ s, Run (Guarded (Step 2) (DeleteReaches 2)) create updateUnderWay s ∧
      s.settled 1 = [⟨8, ()⟩] ∧ s.travelling 2 = [⟨7, ()⟩] ∧
      ((List.range 2).flatMap s.settled ++ s.travelling 2).Perm [⟨8, ()⟩, ⟨7, ()⟩] := by
  have hrun : ((updateUnderWay.foldlM (nextGuarded 2) create).map fun s =>
      (s.settled 1, s.travelling 2)) = some ([⟨8, ()⟩], [⟨7, ()⟩]) := by decide
  obtain ⟨s, hs, hplaces⟩ := map_eq_some_iff.mp hrun
  obtain ⟨hsettled, htravelling⟩ := Prod.mk.inj hplaces
  have hrun' := run_of_nextGuarded hs
  exact ⟨s, hrun', hsettled, htravelling, settled_travelling_perm hrun'⟩

/-- The delete is sent while the document is with a reader. -/
def lateRun : List (Event Unit) :=
  [.addDocument ⟨7, ()⟩, .callerSends, .deleteByNodeId 7, .callerSends, .callerSends,
    .shardTakes 0, .shardTakes 1] ++ throughPipeline 0 0 ++ commitOfTwo

/-- The document is added twice, to two shards, and the delete goes to the second. -/
def twiceRun : List (Event Unit) :=
  [.addDocument ⟨7, ()⟩, .callerSends] ++ throughPipeline 0 0 ++
    [.addDocument ⟨7, ()⟩, .callerSends] ++ throughPipeline 1 1 ++
    [.deleteByNodeId 7, .callerSends, .shardTakes 1] ++ commitOfTwo

/-- **Deletes that miss a document**: in both runs the document is committed although its last
call is a delete. -/
theorem delete_misses :
    (∃ s, Run (Step 2) create lateRun s ∧ s.caller.phase = .idle ∧
      (s.committedDocs 2).filter (·.nodeId = 7) = [⟨7, ()⟩] ∧
      addedSinceDelete 7 (publishedLog lateRun) = []) ∧
    ∃ s, Run (Step 2) create twiceRun s ∧ s.caller.phase = .idle ∧
      (s.committedDocs 2).filter (·.nodeId = 7) = [⟨7, ()⟩] ∧
      addedSinceDelete 7 (publishedLog twiceRun) = [] := by
  have hlate : ((lateRun.foldlM (next 2) create).map fun s =>
      (s.caller.phase, (s.committedDocs 2).filter (·.nodeId = 7))) =
        some (.idle, [⟨7, ()⟩]) := by decide
  have htwice : ((twiceRun.foldlM (next 2) create).map fun s =>
      (s.caller.phase, (s.committedDocs 2).filter (·.nodeId = 7))) =
        some (.idle, [⟨7, ()⟩]) := by decide
  obtain ⟨s, hs, hsview⟩ := map_eq_some_iff.mp hlate
  obtain ⟨t, ht, htview⟩ := map_eq_some_iff.mp htwice
  obtain ⟨hsphase, hsdocs⟩ := Prod.mk.inj hsview
  obtain ⟨htphase, htdocs⟩ := Prod.mk.inj htview
  exact ⟨⟨s, Run.of_foldlM hs, hsphase, hsdocs, by decide⟩,
    t, Run.of_foldlM ht, htphase, htdocs, by decide⟩

end ShardedHandle

end Lucivy.Sharded
