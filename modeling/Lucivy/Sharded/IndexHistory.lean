import Lucivy.Sharded.FilteredSearch
import Lucivy.Sharded.Callers

/-! # The record of node ids over the history of an index

A filtered search trusts the router's record of where a node id was routed. The record is one shard
an id; it is written when a document is routed and cleared by a delete, it is saved by `commit`,
`commit_direct` and `close` and read when the index is opened. Deltas change the shards and not the
record, `commit_fast` and a crash leave an old one behind, and a second document of the same id
overwrites the entry of the first. A delta is refused where the flag of its shard is up, which has
lost its writer by then; whether it is up is left open here.

A search takes its filter first and visits the shards later; in between it drains the pipeline and
commits what is pending, which is what `commit_fast` does. Anything may happen in between here.

* `Store` — the index: its handle with the callers, the saved record, the searches under way.
* `At` — a document is with a shard, or on its way there.
* `At.back` — **no event but routing puts a document with a shard**.
* `routes_of_routed`, `routes_back` — **the record changes by routing and by deleting only**. -/

namespace Lucivy.Sharded

open Lucivy.Foundation List ShardActor ShardedHandle Option Function

variable {α : Type}

/-! ## The index -/

/-- A filtered search under way. -/
structure Search where
  allowed : List Nat
  /-- The record it has read. -/
  record : ShardRouter

/-- The filter it has made of them. -/
def Search.filter (n : Nat) (search : Search) : Option ShardFilter :=
  shardFilter n search.record (some search.allowed)

/-- **An index over its history.** -/
structure Store (α : Type) where
  service : Service α
  /-- The record in `SHARD_STATS_FILE`. -/
  stats : Option ShardRouter
  searches : Nat → Option Search

/-- What happens to an index. -/
inductive StoreEvent (α : Type)
  | service (e : ServiceEvent α)
  /-- `search_filtered` is called and takes its filter. -/
  | searchBegins (c : Nat) (allowed : List Nat)
  | searchEnds (c : Nat)
  /-- `apply_sharded_delta` on one shard, which holds these documents afterwards. -/
  | applyDelta (j : Nat) (docs : List (Document α))
  /-- `apply_sharded_delta` finds changes of a shard uncommitted. -/
  | refuseDelta (j : Nat)
  /-- The process has ended, with or without `close`, and the index is opened again. -/
  | reopen

/-- A writer on an index with these documents. -/
def ShardWriter.opened (docs : List (Document α)) : ShardWriter α :=
  { ShardWriter.create with committed := docs }

namespace Store

/-- A new index. -/
def create : Store α := ⟨.create, none, fun _ => none⟩

/-- The record. -/
def routes (s : Store α) : ShardRouter := s.service.handle.routes

/-- The documents of a shard's committed segments. -/
def committed (s : Store α) (j : Nat) : List (Document α) :=
  (s.service.handle.shards j).actor.committed

/-- `commit` and `commit_direct` save the record, `commit_fast` does not. -/
def statsAfter (s : Store α) : ServiceEvent α → Option ShardRouter
  | .commitReturns c true =>
    match s.service.threads c with
    | .committing _ false _ _ => some s.routes
    | _ => s.stats
  | .directReturns _ => some s.routes
  | _ => s.stats

/-- The actor of a shard changes behind its back. -/
def setActor (s : Store α) (j : Nat) (a : ShardActor α) : Store α :=
  { s with
    service := { s.service with
      handle := s.service.handle.setShard j { s.service.handle.shards j with actor := a } } }

/-- `reopen_writer_after`, around the delta of one shard. What the writer had pending goes with
it. -/
def applyDelta (s : Store α) (j : Nat) (docs : List (Document α)) : Store α :=
  s.setActor j
    { (s.service.handle.shards j).actor with writer := some (ShardWriter.opened docs) }

/-- `reopen_writer_after` returns with the flag up: the writer it took is dropped. -/
def refuseDelta (s : Store α) (j : Nat) : Store α :=
  s.setActor j
    { (s.service.handle.shards j).actor with writer := none, left := s.committed j }

/-- `open_with_storage`: the shards as committed, the record as saved. -/
def reopen (s : Store α) : Store α where
  service :=
    { Service.create with
      handle := { ShardedHandle.create with
        shards := fun j =>
          ⟨⟨some (ShardWriter.opened (s.committed j)), [], false, [], [], none⟩, [], none⟩
        routes := s.stats.getD ⟨fun _ => none⟩ } }
  stats := s.stats
  searches _ := none

/-- The search of a thread changes. -/
def setSearch (s : Store α) (c : Nat) (search : Option Search) : Store α :=
  { s with searches := Function.update s.searches c search }

/-- **One event** of an index of `n` shards, where it can happen. -/
def next (n : Nat) (s : Store α) : StoreEvent α → Option (Store α)
  | .service e =>
    (s.service.next n e).map fun service => { s with service := service, stats := s.statsAfter e }
  | .searchBegins c allowed =>
    match s.searches c with
    | none => some (s.setSearch c (some ⟨allowed, s.routes⟩))
    | some _ => none
  | .searchEnds c => some (s.setSearch c none)
  | .applyDelta j docs => if j < n then some (s.applyDelta j docs) else none
  | .refuseDelta j => if j < n then some (s.refuseDelta j) else none
  | .reopen => some s.reopen

/-- The events as a step relation. -/
def Step (n : Nat) (s : Store α) (e : StoreEvent α) (t : Store α) : Prop := s.next n e = some t

/-- The shards a search visits. -/
def visited (n : Nat) (search : Search) : List Nat :=
  (search.filter n).elim [] fun f => (active n f).map Prod.fst

/-- What a search finds if it visits its shards now. -/
def answer (n : Nat) (s : Store α) (isHit : Document α → Bool) (residency : Residency)
    (search : Search) : Except SearchError (List (Nat × Document α)) :=
  runSearch n s.committed isHit residency (search.filter n)

/-- What an unfiltered search finds now. -/
def unfiltered (n : Nat) (s : Store α) (isHit : Document α → Bool) (residency : Residency) :
    Except SearchError (List (Nat × Document α)) :=
  runSearch n s.committed isHit residency (shardFilter n s.routes none)

end Store

/-! ## Documents with a shard -/

/-- All documents of a shard, committed or with its writer. -/
def ShardActor.held (a : ShardActor α) : List (Document α) :=
  a.writer.elim a.left fun w => w.committed ++ w.adds.map AddOperation.document

/-- **A document is with a shard**, or routed to it and on its way. -/
inductive At (s : Service α) (j : Nat) (doc : Document α) : Prop
  /-- A thread is about to send it there. -/
  | outbox (c : Nat) (h : Send.shard j (.insert doc) ∈ (s.threads c).outbox)
  /-- The router is. -/
  | hand (h : s.handle.router.inHand = some (doc, j))
  /-- The shard has it to handle. -/
  | queue (h : .insert doc ∈ (s.handle.shards j).queue)
  /-- The shard has it. -/
  | writer (h : doc ∈ (s.handle.shards j).actor.held)

/-- The event routes the document to the shard, and records it. -/
def Routed (n : Nat) (s : Service α) (e : ServiceEvent α) (j : Nat) (doc : Document α) : Prop :=
  match e with
  | .addDocument _ d => n = 1 ∧ j = 0 ∧ doc = d
  | .addWithHashes _ d shard => j = shard ∧ doc = d
  | .routerTakes shard => j = shard ∧ ∃ rest, s.handle.router.mailbox = .route doc :: rest
  | _ => False

/-- **A property of a writer that only writes bring about**: those `W` holds of. -/
structure Traced (D : ShardActor α → Prop) (W : ShardMsg α → Prop) : Prop where
  handleOpen : ∀ {a m}, D (a.handleOpen m).actor → D a ∨ W m
  writer : ∀ {a b : ShardActor α}, D b → b.writer = a.writer → b.left = a.left → D a
  commitWriter : ∀ {a}, D a.commitWriter → D a
  write : ∀ {m}, W m → m.isWrite = true

/-- The writer of a shard has it, or such a write is to be handled. -/
def Shard.Keeps (D : ShardActor α → Prop) (W : ShardMsg α → Prop) (k : Shard α) : Prop :=
  (∃ m ∈ k.queue, W m) ∨ D k.actor

namespace Traced

variable {D : ShardActor α → Prop} {W : ShardMsg α → Prop} (ht : Traced D W)
include ht

/-- The loop over the deferred messages does what they do. -/
theorem runDeferred (ms : List (ShardMsg α)) (r : Reaction α)
    (h : (∃ m ∈ (runDeferred ms r).actor.deferred, W m) ∨ D (runDeferred ms r).actor) :
    (∃ m ∈ ms, W m) ∨ D r.actor := by
  induction ms generalizing r with
  | nil => exact h.elim .inl fun hd => .inr (ht.writer hd rfl rfl)
  | cons m ms ih =>
    rw [ShardActor.runDeferred] at h
    split at h
    · exact h.elim .inl fun hd => .inr (ht.writer hd rfl rfl)
    · rcases ih _ h with ⟨m', hmem, hw⟩ | hd
      · exact .inl ⟨m', mem_cons_of_mem m hmem, hw⟩
      · exact (ht.handleOpen hd).elim .inr fun hw => .inl ⟨m, mem_cons_self, hw⟩

/-- A message does what it can, or is deferred. -/
theorem handle {a : ShardActor α} {m : ShardMsg α}
    (h : (∃ m' ∈ (a.handle m).actor.deferred, W m') ∨ D (a.handle m).actor) :
    (∃ m' ∈ m :: a.deferred, W m') ∨ D a := by
  have hkeep : (∃ m' ∈ a.deferred, W m') ∨ D a → (∃ m' ∈ m :: a.deferred, W m') ∨ D a :=
    Or.imp_left fun ⟨m', hmem, hw⟩ => ⟨m', mem_cons_of_mem m hmem, hw⟩
  have hend : ∀ result reply, (∃ m' ∈ (a.endCommit result reply).actor.deferred, W m') ∨
      D (a.endCommit result reply).actor → (∃ m' ∈ m :: a.deferred, W m') ∨ D a :=
    fun _ _ hh => hkeep ((ht.runDeferred _ _ hh).elim .inl fun hd => .inr (ht.writer hd rfl rfl))
  unfold ShardActor.handle at h
  split at h
  · -- deferred behind the others
    rcases h with ⟨m', hmem, hw⟩ | hd
    · exact .inl ⟨m', by simpa [quietly, or_comm] using hmem, hw⟩
    · exact .inr (ht.writer hd rfl rfl)
  · split at h
    · split at h
      · exact hend _ _ h
      · split at h
        · exact hkeep h
        · exact hend _ _ h
    · exact hkeep h
    · exact hend _ _ h
    · exact .inr (ht.writer (h.resolve_left (by simp)) rfl rfl)
    · rcases h with hmem | hd
      · rw [deferred_handleOpen] at hmem
        exact hkeep (.inl hmem)
      · exact (ht.handleOpen hd).elim .inr fun hw => .inl ⟨m, mem_cons_self, hw⟩

/-- A shard takes a message. -/
theorem take {k : Shard α} {m : ShardMsg α} {rest : List (ShardMsg α)}
    (hmail : k.mailbox = m :: rest) (h : (k.after (k.actor.handle m) rest).Keeps D W) :
    k.Keeps D W := by
  have hnow : (∃ m' ∈ (k.actor.handle m).actor.deferred, W m') ∨ D (k.actor.handle m).actor →
      k.Keeps D W := by
    intro hh
    refine (ht.handle hh).imp_left fun ⟨m', hmem, hw⟩ => ⟨m', ?_, hw⟩
    rw [Shard.queue, hmail]
    rcases mem_cons.mp hmem with rfl | hold
    · simp
    · exact mem_append_left _ hold
  rcases h with ⟨m', hmem, hw⟩ | hd
  · rcases mem_append.mp hmem with hdeferred | hrest
    · exact hnow (.inl ⟨m', hdeferred, hw⟩)
    · exact .inl ⟨m', mem_append_right _ (hmail ▸ mem_cons_of_mem m hrest), hw⟩
  · exact hnow (.inr hd)

/-- A message that is no write arrives, with the writer as it was or committed. -/
theorem finish {k : Shard α} {a : ShardActor α} {m : ShardMsg α} {work : Option Work}
    (hm : m.isWrite = false) (ha : a = k.actor ∨ a = k.actor.commitWriter)
    (h : (⟨a, k.mailbox ++ [m], work⟩ : Shard α).Keeps D W) : k.Keeps D W := by
  have hdeferred : a.deferred = k.actor.deferred := by rcases ha with rfl | rfl <;> rfl
  rcases h with ⟨m', hmem, hw⟩ | hd
  · rw [Shard.queue, ← append_assoc, hdeferred] at hmem
    rcases mem_append.mp hmem with hold | hnew
    · exact .inl ⟨m', hold, hw⟩
    · rw [mem_singleton.mp hnew] at hw
      exact absurd (ht.write hw) (by rw [hm]; decide)
  · rcases ha with rfl | rfl
    · exact .inr hd
    · exact .inr (ht.commitWriter hd)

/-- The writer of a shard commits. -/
theorem commit {k : Shard α}
    (h : (⟨k.actor.commitWriter, k.mailbox, k.work⟩ : Shard α).Keeps D W) : k.Keeps D W :=
  h.elim .inl fun hd => .inr (ht.commitWriter hd)

theorem finishWork {k : Shard α} {w : Work} (h : (k.finishWork w).Keeps D W) : k.Keeps D W := by
  cases w with
  | drainIndexers fast r | flushIndexers fast r => exact ht.finish rfl (.inl rfl) h
  | finalize fast r => exact ht.finish rfl (.inr rfl) h

end Traced

section Keeps

variable {D : ShardActor α → Prop} {W : ShardMsg α → Prop} {handle : ShardedHandle α}
  {k : Shard α} {j : Nat}

/-- One shard moves. -/
theorem Shard.Keeps.of_setShard {i : Nat} (hk : k.Keeps D W → (handle.shards i).Keeps D W)
    (h : ((handle.setShard i k).shards j).Keeps D W) : (handle.shards j).Keeps D W := by
  by_cases hji : j = i
  · subst hji
    rw [shards_setShard_self] at h
    exact hk h
  · rwa [shards_setShard_ne _ hji] at h

/-- A message arrives. -/
theorem Shard.Keeps.of_deliver {m : Send α} (h : ((handle.deliver m).shards j).Keeps D W) :
    (handle.shards j).Keeps D W ∨ ∃ m', m = .shard j m' ∧ W m' := by
  rw [shards_deliver] at h
  rcases h with ⟨m', hmem, hw⟩ | hd
  · rw [Shard.queue, ← append_assoc] at hmem
    rcases mem_append.mp hmem with hold | hnew
    · exact .inl (.inl ⟨m', hold, hw⟩)
    · exact .inr ⟨m', Send.toShard_eq_some.mp (Option.mem_toList.mp hnew), hw⟩
  · exact .inl (.inr hd)

end Keeps

section Holding

variable {a : ShardActor α} {doc : Document α} {m : ShardMsg α}

theorem mem_held_of_commit (w : ShardWriter α) (h : doc ∈ w.commit.committed ++
    w.commit.adds.map AddOperation.document) :
    doc ∈ w.committed ++ w.adds.map AddOperation.document := by
  have hmem : doc ∈ w.contents := by simpa [ShardWriter.commit] using h
  rcases mem_append.mp hmem with hold | hnew
  · exact mem_append_left _ (mem_of_mem_filter hold)
  · obtain ⟨op, hop, rfl⟩ := mem_map.mp hnew
    exact mem_append_right _ (mem_map.mpr ⟨op, mem_of_mem_filter hop, rfl⟩)

theorem held_commitWriter (h : doc ∈ a.commitWriter.held) : doc ∈ a.held := by
  cases hw : a.writer with
  | none => simpa [ShardActor.held, commitWriter, hw] using h
  | some w =>
    simp only [ShardActor.held, commitWriter, hw] at h ⊢
    exact mem_held_of_commit w h

/-- With no commit in flight, a message adds its own document at most, and defers nothing. -/
theorem held_handleOpen (h : doc ∈ (a.handleOpen m).actor.held) :
    doc ∈ a.held ∨ m = .insert doc := by
  cases m with
  | insert d =>
    cases hw : a.writer with
    | none => exact .inl (by simpa [handleOpen, hw, quietly, ShardActor.held] using h)
    | some w =>
      simp only [handleOpen, hw] at h
      split at h
      · -- the document is the last of the new ones
        simp only [quietly, ShardActor.held, elim_some, ShardWriter.addDocument, map_append,
          mem_append, map_cons, map_nil, mem_singleton] at h
        simp only [ShardActor.held, hw, elim_some, mem_append]
        rcases h with hold | hold | rfl
        · exact .inl (.inl hold)
        · exact .inl (.inr hold)
        · exact .inr rfl
      · rw [ShardActor.held, hw]
        exact .inl h
  | delete nodeId =>
    simp only [handleOpen] at h
    split at h
    · next w hw =>
      simp only [ShardActor.held, hw]
      exact .inl h
    · exact .inl h
  | commit fast reply =>
    simp only [handleOpen] at h
    repeat' split at h
    all_goals exact .inl h
  | drain _ | indexersDrained _ _ | flushDone _ _ | commitDone _ _ | shutdown _ =>
    exact .inl (by simpa [handleOpen, quietly] using h)

/-- Documents are held only by being inserted. -/
theorem traced_held (doc : Document α) : Traced (doc ∈ ·.held) (· = .insert doc) where
  handleOpen := held_handleOpen
  writer hheld h hleft := by rwa [ShardActor.held, ← h, ← hleft]
  commitWriter := held_commitWriter
  write := by
    rintro _ rfl
    rfl

end Holding

/-! ## Only routing puts a document with a shard -/

section Backwards

variable {n : Nat} {s t : Service α} {c j : Nat} {doc : Document α}

/-- The shard has the document, handled or not. -/
def Shard.Has (k : Shard α) (doc : Document α) : Prop :=
  .insert doc ∈ k.queue ∨ doc ∈ k.actor.held

theorem Shard.has_iff {k : Shard α} : k.Has doc ↔ k.Keeps (doc ∈ ·.held) (· = .insert doc) := by
  simp [Shard.Has, Shard.Keeps]

theorem At.of_has (h : (s.handle.shards j).Has doc) : At s j doc := h.elim .queue .writer

theorem At.of_keeps (h : (s.handle.shards j).Keeps (doc ∈ ·.held) (· = .insert doc)) : At s j doc :=
  .of_has (Shard.has_iff.mpr h)

/-- A thread moves: a new place is in what it is about to send, or with a shard. -/
theorem At.of_thread (h : At t j doc)
    (hthreads : ∀ d, d ≠ c → (t.threads d).outbox = (s.threads d).outbox)
    (hrouter : t.handle.router.inHand = s.handle.router.inHand)
    (hshards : (t.handle.shards j).Has doc → At s j doc) :
    At s j doc ∨ Send.shard j (.insert doc) ∈ (t.threads c).outbox := by
  cases h with
  | outbox d h =>
    by_cases hdc : d = c
    · subst hdc
      exact .inr h
    · exact .inl (.outbox d (hthreads d hdc ▸ h))
  | hand h => exact .inl (.hand (hrouter ▸ h))
  | queue h => exact .inl (hshards (.inl h))
  | writer h => exact .inl (hshards (.inr h))

/-- A thread moves and no actor does. -/
theorem At.of_update (s : Service α) (c : Nat) {thread : Thread α} (h : At t j doc)
    (hthreads : t.threads = Function.update s.threads c thread)
    (hrouter : t.handle.router = s.handle.router) (hshards : t.handle.shards = s.handle.shards) :
    At s j doc ∨ Send.shard j (.insert doc) ∈ thread.outbox := by
  have hat := h.of_thread (s := s) (c := c) (fun d hdc => by rw [hthreads, update_of_ne hdc])
    (by rw [hrouter]) fun hhas => .of_has (hshards ▸ hhas)
  rwa [hthreads, update_self] at hat

variable {handle : ShardedHandle α} {k : Shard α} {e : ServiceEvent α}

/-- An actor moves, and gives no shard a document it had not. -/
theorem At.of_actor {answers : List (Reply × CommitAnswer)}
    (h : At (s.afterActor answers handle) j doc) (hshards : (handle.shards j).Has doc → At s j doc)
    : At s j doc ∨ handle.router.inHand = some (doc, j) := by
  cases h with
  | outbox d h => exact .inl (.outbox d h)
  | hand h => exact .inr h
  | queue h => exact .inl (hshards (.inl h))
  | writer h => exact .inl (hshards (.inr h))

theorem router_deliver_inHand (handle : ShardedHandle α) (m : Send α) :
    (handle.deliver m).router.inHand = handle.router.inHand := by
  cases m <;> rfl

/-- A message leaves a thread. -/
theorem At.of_send {m : Send α} (hhead : (s.threads c).outbox.head? = some m)
    (h : At (s.send c m) j doc) : At s j doc := by
  obtain ⟨rest, hout⟩ := head?_eq_some_iff.mp hhead
  have hplace : ((s.handle.deliver m).shards j).Has doc → At s j doc := by
    intro hmem
    rcases (Shard.has_iff.mp hmem).of_deliver with hold | ⟨_, rfl, rfl⟩
    · exact .of_keeps hold
    · exact .outbox c (hout ▸ mem_cons_self)
  refine (h.of_thread (fun d hdc => congrArg Thread.outbox (update_of_ne hdc ..))
    (router_deliver_inHand _ _) hplace).elim id fun hmem => ?_
  have hself : (s.send c m).threads c = (s.threads c).sent := update_self ..
  have htail : (s.threads c).sent.outbox = (s.threads c).outbox.tail := by
    cases s.threads c <;> rfl
  rw [hself, htail] at hmem
  exact .outbox c (mem_of_mem_tail hmem)

/-- No request of a commit inserts. -/
theorem not_mem_requests (n call : Nat) (fast : Bool) (phase : CallPhase) :
    Send.shard j (.insert doc) ∉ (purposes n phase).map (request call fast) := by
  intro hmem
  obtain ⟨p, -, hp⟩ := mem_map.mp hmem
  cases p <;> simp [request] at hp

/-- **Only routing puts a document with a shard.** -/
theorem At.back (hstep : s.next n e = some t) (h : At t j doc) :
    At s j doc ∨ Routed n s e j doc := by
  cases Service.does_of_next hstep with
  | @addDocument c d =>
    refine (h.of_update s c rfl rfl rfl).imp_right fun hmem => ?_
    have hsend : Send.shard j (.insert doc) = s.addSend n d := mem_singleton.mp hmem
    unfold Service.addSend at hsend
    split at hsend
    · next hn =>
      obtain ⟨rfl, hdoc⟩ := Send.shard.inj hsend
      exact ⟨hn, rfl, ShardMsg.insert.inj hdoc⟩
    · cases hsend
  | @addDocuments c docs =>
    refine .inl ((h.of_update s c rfl rfl rfl).resolve_right fun hmem => ?_)
    obtain ⟨i, -, hi⟩ := mem_filterMap.mp hmem
    split at hi
    · cases hi
    · cases Option.some.inj hi
  | @addWithHashes c d shard =>
    refine (h.of_update s c rfl rfl rfl).imp_right fun hmem => ?_
    obtain ⟨hj, hdoc⟩ := Send.shard.inj (mem_singleton.mp hmem)
    exact ⟨hj, ShardMsg.insert.inj hdoc⟩
  | @deleteByNodeId c nodeId =>
    refine .inl ((h.of_update s c rfl rfl rfl).resolve_right fun hmem => ?_)
    obtain ⟨i, -, hi⟩ := mem_map.mp hmem
    cases hi
  | @commit c fast | @proceeds c _ fast =>
    exact .inl ((h.of_update s c rfl rfl rfl).resolve_right (not_mem_requests n _ fast _))
  | sends hhead => exact .inl (At.of_send hhead h)
  | @commitDirect c | @returns c | @commitReturns c | @looks c | @looksAgain c | @looksDone c
  | @directReturns c =>
    exact .inl ((h.of_update s c rfl rfl rfl).resolve_right not_mem_nil)
  | @publishes c i rest =>
    have hshard : ((s.publish c i rest).handle.shards j).Has doc → At s j doc :=
      fun hhas => .of_keeps ((Shard.has_iff.mp hhas).of_setShard (traced_held doc).commit)
    refine .inl ((h.of_thread (fun d hdc => congrArg Thread.outbox (update_of_ne hdc ..)) rfl
      hshard).resolve_right ?_)
    simp [Service.publish, Thread.outbox]
  | readerTakes hmove =>
    obtain ⟨-, m, rest, -, rfl⟩ := readerTakes_cases hmove
    exact .inl ((h.of_actor .of_has).elim id .hand)
  | readerSends hmove =>
    obtain ⟨d, docs, -, rfl⟩ := readerSends_cases hmove
    exact .inl ((h.of_actor .of_has).elim id .hand)
  | routerTakes _ hmove =>
    obtain ⟨hhand, m, rest, hmail, rfl⟩ := routerTakes_cases hmove
    refine (h.of_actor .of_has).imp_right fun hin => ?_
    cases m with
    | route d =>
      cases hin
      exact ⟨rfl, rest, hmail⟩
    | drain reply => cases hin
  | routerSends hmove =>
    obtain ⟨d, shard, hhand, rfl⟩ := routerSends_cases hmove
    refine .inl ((h.of_actor fun hmem => ?_).resolve_right fun hin => by cases hin)
    rcases (Shard.has_iff.mp hmem).of_deliver with hold | ⟨_, hsent, rfl⟩
    · exact .of_keeps hold
    · -- the document was in hand
      obtain ⟨rfl, ⟨⟩⟩ := Send.shard.inj hsent
      exact .hand hhand
  | shardTakes hmove =>
    obtain ⟨m, rest, hmail, rfl⟩ := shardTakes_cases hmove
    refine .inl ((h.of_actor fun hmem => .of_keeps ?_).elim id .hand)
    exact (Shard.has_iff.mp hmem).of_setShard ((traced_held doc).take hmail)
  | shardWorked hmove =>
    obtain ⟨w, -, rfl⟩ := map_eq_some_iff.mp hmove
    refine .inl ((h.of_actor fun hmem => .of_keeps ?_).elim id .hand)
    exact (Shard.has_iff.mp hmem).of_setShard (traced_held doc).finishWork

theorem shardForNodeId_record (r : ShardRouter) (id j id' : Nat) :
    (r.recordNodeId id j).shardForNodeId id' =
      if id' = id then some j else r.shardForNodeId id' := by
  simp [ShardRouter.recordNodeId, ShardRouter.shardForNodeId, update_apply]

theorem shardForNodeId_remove (r : ShardRouter) (id id' : Nat) :
    (r.removeNodeId id).shardForNodeId id' = if id' = id then none else r.shardForNodeId id' := by
  simp [ShardRouter.removeNodeId, ShardRouter.shardForNodeId, update_apply]

theorem routes_deliver (handle : ShardedHandle α) (m : Send α) :
    (handle.deliver m).routes = handle.routes := by
  cases m <;> rfl

/-- What is routed is recorded. -/
theorem routes_of_routed (hstep : s.next n e = some t) (h : Routed n s e j doc) :
    t.handle.routes.shardForNodeId doc.nodeId = some j := by
  cases Service.does_of_next hstep with
  | addDocument =>
    obtain ⟨rfl, rfl, rfl⟩ := h
    simp [Service.addDocument, shardForNodeId_record]
  | addWithHashes =>
    obtain ⟨rfl, rfl⟩ := h
    simp [Service.addWithHashes, shardForNodeId_record]
  | routerTakes _ hmove =>
    obtain ⟨rfl, rest, hmail⟩ := h
    obtain ⟨-, m, rest', hmail', rfl⟩ := routerTakes_cases hmove
    obtain ⟨rfl, -⟩ := List.cons.inj (hmail.symm.trans hmail')
    simp [Service.afterActor, setCaller, RouterMsg.recorded, shardForNodeId_record]
  | _ => exact h.elim

/-- **An event changes the record by routing and by deleting only.** -/
theorem routes_back (hstep : s.next n e = some t) (id : Nat) :
    t.handle.routes.shardForNodeId id = s.handle.routes.shardForNodeId id ∨
      t.handle.routes.shardForNodeId id = none ∨ ∃ k d, Routed n s e k d ∧ d.nodeId = id := by
  cases Service.does_of_next hstep with
  | @addDocument c d =>
    by_cases hn : n = 1
    · by_cases hid : id = d.nodeId
      · exact .inr (.inr ⟨0, d, ⟨hn, rfl, rfl⟩, hid.symm⟩)
      · exact .inl (by simp [Service.addDocument, hn, shardForNodeId_record, hid])
    · exact .inl (by simp [Service.addDocument, hn])
  | @addWithHashes c d shard =>
    by_cases hid : id = d.nodeId
    · exact .inr (.inr ⟨shard, d, ⟨rfl, rfl⟩, hid.symm⟩)
    · exact .inl (by simp [Service.addWithHashes, shardForNodeId_record, hid])
  | @deleteByNodeId c nodeId =>
    by_cases hid : id = nodeId
    · exact .inr (.inl (by simp [Service.deleteByNodeId, shardForNodeId_remove, hid]))
    · exact .inl (by simp [Service.deleteByNodeId, shardForNodeId_remove, hid])
  | @sends c m => exact .inl (congrArg (·.shardForNodeId id) (routes_deliver s.handle m))
  | readerTakes hmove =>
    obtain ⟨-, m, rest, -, rfl⟩ := readerTakes_cases hmove
    exact .inl rfl
  | readerSends hmove =>
    obtain ⟨d, docs, -, rfl⟩ := readerSends_cases hmove
    exact .inl rfl
  | @routerTakes shard _ _ hmove =>
    obtain ⟨-, m, rest, hmail, rfl⟩ := routerTakes_cases hmove
    cases m with
    | route d =>
      by_cases hid : id = d.nodeId
      · exact .inr (.inr ⟨shard, d, ⟨rfl, rest, hmail⟩, hid.symm⟩)
      · exact .inl ((shardForNodeId_record ..).trans (if_neg hid))
    | drain reply => exact .inl rfl
  | routerSends hmove =>
    obtain ⟨d, shard, -, rfl⟩ := routerSends_cases hmove
    exact .inl rfl
  | shardTakes hmove =>
    obtain ⟨m, rest, -, rfl⟩ := shardTakes_cases hmove
    exact .inl rfl
  | shardWorked hmove =>
    obtain ⟨w, -, rfl⟩ := map_eq_some_iff.mp hmove
    exact .inl rfl
  | _ => exact .inl rfl

end Backwards

end Lucivy.Sharded
