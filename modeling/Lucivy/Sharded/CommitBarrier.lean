import Lucivy.Foundation.Mailbox
import Lucivy.Sharded.ShardedHandle

/-! # What a commit goes through

The drains of a commit are fences: a message sent behind everything the caller sent before, to
mailboxes nobody else sends to by then. When the readers have answered, no document is with
them; when the router has, none is with it; when the shards have, every write is applied. So a
shard is alone with its commit, nothing is ever deferred, and when the commit returns every shard
has published what it holds.

* `readerQueue`, `routerQueue`, `shardQueue` — what an actor has still to handle, with what the
  caller is about to send it; the sending itself changes none of them (`callerSends_queues`).
* `Shape` — how every queue stands in each phase of a commit.
* `Shape.next` — every event keeps it. -/

namespace Lucivy.Sharded

open Lucivy.Foundation List Send CallPhase Option

variable {α : Type}

/-! ## Queues -/

namespace Send

/-- The message, if it goes to this reader. -/
def toReader (i : Nat) : Send α → Option (ReaderMsg α)
  | .reader k m => if k = i then some m else none
  | _ => none

/-- The message, if it goes to the router. -/
def toRouter : Send α → Option (RouterMsg α)
  | .router m => some m
  | _ => none

/-- The message, if it goes to this shard. -/
def toShard (j : Nat) : Send α → Option (ShardMsg α)
  | .shard k m => if k = j then some m else none
  | _ => none

variable {x : Send α} {i : Nat}

/-- A message to a reader. -/
theorem toReader_eq_some {m : ReaderMsg α} : x.toReader i = some m ↔ x = .reader i m := by
  cases x <;> simp [toReader]

/-- A message to the router. -/
theorem toRouter_eq_some {m : RouterMsg α} : x.toRouter = some m ↔ x = .router m := by
  cases x <;> simp [toRouter]

/-- A message to a shard. -/
theorem toShard_eq_some {m : ShardMsg α} : x.toShard i = some m ↔ x = .shard i m := by
  cases x <;> simp [toShard]

end Send

/-- A message with documents. -/
def ReaderMsg.IsPlain : ReaderMsg α → Prop
  | .drain _ => False
  | _ => True

/-- A message with a document. -/
def RouterMsg.IsPlain : RouterMsg α → Prop
  | .drain _ => False
  | .route _ => True

/-- A message of `add_document` or `delete_by_node_id`. -/
def Send.IsPlain : Send α → Prop
  | .reader _ m => m.IsPlain
  | .router m => m.IsPlain
  | .shard _ m => m.isWrite = true

/-- The documents of a message. -/
def ReaderMsg.docs : ReaderMsg α → List (Document α)
  | .tokenize doc => [doc]
  | .batch docs => docs
  | .drain _ => []

/-- What it answers. -/
def ReaderMsg.answers : ReaderMsg α → List (Reply × CommitAnswer)
  | .drain reply => [(reply, .ok ())]
  | .tokenize _ | .batch _ => []

namespace RouterMsg

/-- The documents of a message. -/
def docs : RouterMsg α → List (Document α)
  | .route doc => [doc]
  | .drain _ => []

/-- What it answers. -/
def answers : RouterMsg α → List (Reply × CommitAnswer)
  | .drain reply => [(reply, .ok ())]
  | .route _ => []

/-- What the router has in hand after it. -/
def inHand (shard : Nat) : RouterMsg α → Option (Document α × Nat)
  | .route doc => some (doc, shard)
  | .drain _ => none

/-- The record after it. -/
def recorded (shard : Nat) (routes : ShardRouter) : RouterMsg α → ShardRouter
  | .route doc => routes.recordNodeId doc.nodeId shard
  | .drain _ => routes

end RouterMsg

namespace ShardedHandle

variable {n : Nat} {s t : ShardedHandle α}

/-- What a reader has still to handle. -/
def readerQueue (s : ShardedHandle α) (i : Nat) : List (ReaderMsg α) :=
  (s.readers i).mailbox ++ s.caller.outbox.filterMap (toReader i)

/-- What the router has still to handle. -/
def routerQueue (s : ShardedHandle α) : List (RouterMsg α) :=
  s.router.mailbox ++ s.caller.outbox.filterMap toRouter

/-- What a shard has still to handle. -/
def shardQueue (s : ShardedHandle α) (j : Nat) : List (ShardMsg α) :=
  (s.shards j).actor.deferred ++ ((s.shards j).mailbox ++ s.caller.outbox.filterMap (toShard j))

/-- Two states whose actors stand alike before the same queues. -/
structure SameQueues (s t : ShardedHandle α) : Prop where
  readerQueue : ∀ i, t.readerQueue i = s.readerQueue i
  readerHand : ∀ i, (t.readers i).inHand = (s.readers i).inHand
  routerQueue : t.routerQueue = s.routerQueue
  routerHand : t.router.inHand = s.router.inHand
  shardQueue : ∀ j, t.shardQueue j = s.shardQueue j
  shardActor : ∀ j, (t.shards j).actor = (s.shards j).actor
  shardWork : ∀ j, (t.shards j).work = (s.shards j).work

section Deliver

variable (s : ShardedHandle α) (m : Send α)

/-- A reader after a delivery. -/
theorem readers_deliver (i : Nat) : (s.deliver m).readers i =
    ⟨(s.readers i).mailbox ++ (m.toReader i).toList, (s.readers i).inHand⟩ := by
  cases m with
  | reader k m =>
    rcases eq_or_ne i k with rfl | hik
    · simp [deliver, setReader, toReader]
    · simp [deliver, setReader, toReader, hik, hik.symm]
  | router _ | shard _ _ => simp [deliver, setShard, toReader]

/-- The router after a delivery. -/
theorem router_deliver : (s.deliver m).router =
    ⟨s.router.mailbox ++ m.toRouter.toList, s.router.inHand⟩ := by
  cases m <;> simp [deliver, setReader, setShard, toRouter]

/-- A shard after a delivery. -/
theorem shards_deliver (j : Nat) : (s.deliver m).shards j =
    { s.shards j with mailbox := (s.shards j).mailbox ++ (m.toShard j).toList } := by
  cases m with
  | shard k m =>
    rcases eq_or_ne j k with rfl | hjk
    · simp [deliver, setShard, toShard]
    · simp [deliver, setShard, toShard, hjk, hjk.symm]
  | reader _ _ | router _ => simp [deliver, setReader, toShard]

/-- Delivering changes no caller. -/
theorem caller_deliver : (s.deliver m).caller = s.caller := by
  cases m <;> rfl

end Deliver

/-- The caller's next message moves from the outbox to a mailbox: no queue changes. -/
theorem callerSends_queues (h : s.callerSends = some t) : SameQueues s t ∧
    ∃ m, s.caller.outbox = m :: t.caller.outbox ∧
      t.caller = { s.caller with outbox := t.caller.outbox } := by
  unfold callerSends at h
  cases hout : s.caller.outbox with
  | nil => rw [hout] at h; exact absurd h (by simp)
  | cons m rest =>
    rw [hout] at h
    cases h
    have hcons : ∀ {β : Type} (f : Send α → Option β),
        (m :: rest).filterMap f = (f m).toList ++ rest.filterMap f := by
      intro β f
      rw [filterMap_cons]
      cases f m <;> rfl
    rw [caller_deliver]
    refine ⟨⟨fun i => ?_, fun i => ?_, ?_, ?_, fun j => ?_, fun j => ?_, fun j => ?_⟩, m, rfl, rfl⟩
    · rw [readerQueue, readers_deliver, caller_deliver, readerQueue, hout, hcons, ← append_assoc]
      rfl
    · rw [readers_deliver]
      rfl
    · rw [routerQueue, router_deliver, caller_deliver, routerQueue, hout, hcons, ← append_assoc]
      rfl
    · rw [router_deliver]
      rfl
    · rw [shardQueue, shards_deliver, caller_deliver, shardQueue, hout, hcons,
        ← append_assoc _ _ (rest.filterMap _)]
      rfl
    · rw [shards_deliver]
      rfl
    · rw [shards_deliver]
      rfl

end ShardedHandle

/-! ## How the queues stand -/

namespace CallPhase

/-- Where the drain of the readers stands. -/
def atReaders : CallPhase → Barrier
  | .idle => .ahead
  | .drainingReaders => .under
  | .drainingRouter | .drainingShards | .committing => .passed

/-- Where the drain of the router stands. -/
def atRouter : CallPhase → Barrier
  | .idle | .drainingReaders => .ahead
  | .drainingRouter => .under
  | .drainingShards | .committing => .passed

/-- Where the drain of the shards stands. -/
def atShards : CallPhase → Barrier
  | .idle | .drainingReaders | .drainingRouter => .ahead
  | .drainingShards => .under
  | .committing => .passed

variable {p : CallPhase}

/-- When the readers are draining. -/
theorem atReaders_under (h : p.atReaders = .under) : p = .drainingReaders := by
  cases p <;> simp_all [atReaders]

/-- When the router is draining. -/
theorem atRouter_under (h : p.atRouter = .under) : p = .drainingRouter := by
  cases p <;> simp_all [atRouter]

/-- The drains follow one another: a reader not drained yet means a router not reached. -/
theorem atRouter_of_atReaders (h : p.atReaders ≠ .passed) : p.atRouter = .ahead := by
  cases p <;> simp_all [atReaders, atRouter]

/-- A router not drained yet means shards not reached. -/
theorem atShards_of_atRouter (h : p.atRouter ≠ .passed) : p.atShards = .ahead := by
  cases p <;> simp_all [atShards, atRouter]

/-- Committing comes behind the shards' drain. -/
theorem ne_committing_of_atShards (h : p.atShards ≠ .passed) : p ≠ .committing := by
  rintro rfl
  exact h rfl

end CallPhase

/-- **A commit under way** in a shard: the message that is next, or the work waited for. -/
inductive CommitUnderWay (j : Nat) : List (ShardMsg α) → ShardActor α → Option Work → Prop
  | asked {a} : a.commitInFlight = false → CommitUnderWay j [.commit false j] a none
  | draining {a} : a.commitInFlight = true → CommitUnderWay j [] a (some (.drainIndexers false j))
  | drained {a} : a.commitInFlight = true → CommitUnderWay j [.indexersDrained false j] a none
  | flushing {a} : a.commitInFlight = true → CommitUnderWay j [] a (some (.flushIndexers false j))
  | flushed {a} : a.commitInFlight = true → CommitUnderWay j [.flushDone false j] a none
  | finalizing {a} : a.commitInFlight = true → CommitUnderWay j [] a (some (.finalize false j))
  | done {a} : a.commitInFlight = true → a.committed = a.contents →
      CommitUnderWay j [.commitDone (.ok ()) j] a none

/-- **A commit that is over** in a shard: everything is published. -/
structure CommitOver (q : List (ShardMsg α)) (a : ShardActor α) (work : Option Work) : Prop where
  inFlight : a.commitInFlight = false
  work_eq : work = none
  queue : q = []
  published : a.committed = a.contents

/-- **How a shard stands** in a phase of the caller. -/
structure ShardStands (phase : CallPhase) (waits : Prop) (j : Nat) (q : List (ShardMsg α))
    (a : ShardActor α) (work : Option Work) : Prop where
  healthy : a.Healthy
  /-- Outside of its commit it has writes to apply, up to the fence. -/
  resting : phase ≠ .committing → a.commitInFlight = false ∧ work = none ∧
    Held (fun m : ShardMsg α => m.isWrite = true) (.drain j) waits True q phase.atShards
  /-- In its commit it is alone with it. -/
  committing : phase = .committing → (waits → CommitUnderWay j q a work) ∧
    (¬ waits → CommitOver q a work)

namespace ShardStands

variable {phase : CallPhase} {waits : Prop} {j : Nat} {m : ShardMsg α} {q : List (ShardMsg α)}
  {a : ShardActor α} {work : Option Work}

/-- What is known of an actor that has just handled a message. -/
structure Handled (phase : CallPhase) (waits : Prop) (j : Nat) (q : List (ShardMsg α))
    (a b : ShardActor α) (work : Option Work) (m : ShardMsg α) : Prop where
  stands : ShardStands phase waits j q b work
  /-- A write is applied, any other message leaves the documents alone. -/
  contents : b.contents = applyWrite a.contents m
  /-- Nothing is published. -/
  committed : b.committed = a.committed

/-- Handling a message answers nothing, or what was waited for. -/
def Takes (phase : CallPhase) (waits : Prop) (j : Nat) (m : ShardMsg α) (q : List (ShardMsg α))
    (a : ShardActor α) (work : Option Work) : Prop :=
  ((a.handle m).answers = [] ∧
    Handled phase waits j q a (a.handle m).actor ((a.handle m).work.or work) m) ∨
  ((a.handle m).answers = [(j, .ok ())] ∧ phase.atShards ≠ .ahead ∧
    Handled phase False j q a (a.handle m).actor ((a.handle m).work.or work) m)

/-- A message handled outside of a commit: a write, or the fence and its answer. -/
theorem take_resting (h : ShardStands phase waits j (m :: q) a work) (hp : phase ≠ .committing) :
    Takes phase waits j m q a work := by
  obtain ⟨hflight, rfl, hheld⟩ := h.resting hp
  by_cases hm : m.isWrite = true
  · obtain ⟨b, hb, hhealthy, hbflight, hcontents, hcommitted⟩ := h.healthy.handle_write hflight hm
    rw [Takes, hb]
    exact .inl ⟨rfl, ⟨hhealthy, fun _ => ⟨hbflight, rfl, hheld.take hm nofun _⟩,
      fun hc => absurd hc hp⟩, hcontents, hcommitted⟩
  · obtain ⟨hunder, -, rfl, rfl⟩ := hheld.take_fence hm
    rw [Takes, ShardActor.handle_drain hflight]
    refine .inr ⟨rfl, by rw [hunder]; nofun, ⟨h.healthy, fun _ => ⟨hflight, rfl, ?_⟩,
      fun hc => absurd hc hp⟩, rfl, rfl⟩
    rw [hunder]
    exact ⟨False.elim, fun _ => ⟨rfl, trivial⟩⟩

/-- The stage of a commit that is waited for. -/
theorem of_underWay (hw : waits) (ha : a.Healthy) (h : CommitUnderWay j q a work) :
    ShardStands .committing waits j q a work :=
  ⟨ha, fun hc => absurd rfl hc, fun _ => ⟨fun _ => h, fun hn => absurd hw hn⟩⟩

/-- A message handled in a commit: its next stage, or its end and its answer. -/
theorem take_committing (h : ShardStands .committing waits j (m :: q) a work) :
    Takes .committing waits j m q a work := by
  -- a shard that has answered has no message left
  have hw : waits := by
    by_contra hw
    exact cons_ne_nil m q ((h.committing rfl).2 hw).queue
  have hstage := (h.committing rfl).1 hw
  cases hstage with
  | asked hflight =>
    rw [Takes, h.healthy.handle_commit hflight]
    exact .inl ⟨rfl, of_underWay hw (h.healthy.setInFlight true) (.draining rfl), rfl, rfl⟩
  | drained hflight =>
    rw [Takes, h.healthy.handle_indexersDrained]
    exact .inl ⟨rfl, of_underWay hw h.healthy (.flushing hflight), rfl, rfl⟩
  | flushed hflight =>
    rw [Takes, ShardActor.handle_flushDone]
    exact .inl ⟨rfl, of_underWay hw h.healthy (.finalizing hflight), rfl, rfl⟩
  | done hflight hpublished =>
    rw [Takes, h.healthy.handle_commitDone]
    exact .inr ⟨rfl, nofun, ⟨h.healthy.setInFlight false, fun hc => absurd rfl hc, fun _ =>
      ⟨False.elim, fun _ => ⟨rfl, rfl, rfl, hpublished⟩⟩⟩, rfl, rfl⟩

/-- **A shard handles a message.** -/
theorem take (h : ShardStands phase waits j (m :: q) a work) : Takes phase waits j m q a work := by
  by_cases hp : phase = .committing
  · subst hp
    exact h.take_committing
  · exact h.take_resting hp

/-- A shard that works is in its commit. -/
theorem underWay {w : Work} (h : ShardStands phase waits j q a (some w)) :
    phase = .committing ∧ waits ∧ CommitUnderWay j q a (some w) := by
  have hp : phase = .committing := by
    by_contra hp
    exact absurd (h.resting hp).2.1 nofun
  have hw : waits := by
    by_contra hw
    exact absurd ((h.committing hp).2 hw).work_eq nofun
  exact ⟨hp, hw, (h.committing hp).1 hw⟩

/-- **The work of a shard ends**: it was in a commit, alone with it, and its queue is the message
the work ends with. Only the finalization task publishes, and what it publishes is everything. -/
theorem worked {w : Work} {k : Shard α} (h : ShardStands phase waits j q k.actor (some w))
    (hk : k.mailbox = []) :
    phase = .committing ∧ q = [] ∧ ShardStands phase waits j (k.finishWork w).mailbox
      (k.finishWork w).actor (k.finishWork w).work ∧
      (k.finishWork w).actor.contents = k.actor.contents := by
  obtain ⟨rfl, hw, hstage⟩ := h.underWay
  refine ⟨rfl, ?_⟩
  simp only [Shard.finishWork, hk]
  cases hstage with
  | draining hflight => exact ⟨rfl, of_underWay hw h.healthy (.drained hflight), rfl⟩
  | flushing hflight => exact ⟨rfl, of_underWay hw h.healthy (.flushed hflight), rfl⟩
  | finalizing hflight =>
    obtain ⟨hhealthy, hcontents, hcommitted⟩ := h.healthy.commitWriter
    have hpublished := hcommitted.trans hcontents.symm
    exact ⟨rfl, of_underWay hw hhealthy (.done hflight hpublished), hcontents⟩

/-- Whether the answer is waited for matters only once the drain has reached the shard. -/
theorem congr_waits {waits' : Prop} (h : ShardStands phase waits j q a work)
    (hw : phase.atShards ≠ .ahead → (waits ↔ waits')) :
    ShardStands phase waits' j q a work := by
  refine ⟨h.healthy, fun hp => ?_, fun hp => ?_⟩
  · obtain ⟨hflight, hwork, hheld⟩ := h.resting hp
    exact ⟨hflight, hwork, hheld.congr_waits fun hu => hw (by rw [hu]; nofun)⟩
  · rw [← hw (by rw [hp]; nofun)]
    exact h.committing hp

end ShardStands

namespace ShardedHandle

variable {n : Nat} {s t : ShardedHandle α}

/-- **The shape of a state.** -/
structure Shape (n : Nat) (s : ShardedHandle α) : Prop where
  readers : ∀ i < numReaders n, Held ReaderMsg.IsPlain (.drain i) (i ∈ s.caller.awaited)
    ((s.readers i).inHand = []) (s.readerQueue i) s.caller.phase.atReaders
  router : Held RouterMsg.IsPlain (.drain 0) (0 ∈ s.caller.awaited) (s.router.inHand = none)
    s.routerQueue s.caller.phase.atRouter
  shards : ∀ j < n, ShardStands s.caller.phase (j ∈ s.caller.awaited) j (s.shardQueue j)
    (s.shards j).actor (s.shards j).work
  errors : s.caller.errors = []

/-- A new handle. -/
theorem shape_create : Shape n (create : ShardedHandle α) where
  readers _ _ := forall_mem_nil _
  router := forall_mem_nil _
  shards _ _ := ⟨ShardActor.healthy_create,
    fun _ => ⟨rfl, rfl, forall_mem_nil _⟩, nofun⟩
  errors := rfl

/-- The shape is a matter of the queues. -/
theorem Shape.of_sameQueues (h : Shape n s) (hq : SameQueues s t)
    (hawaited : t.caller.awaited = s.caller.awaited) (hphase : t.caller.phase = s.caller.phase)
    (herrors : t.caller.errors = s.caller.errors) : Shape n t where
  readers i hi := by rw [hq.readerQueue, hq.readerHand, hawaited, hphase]; exact h.readers i hi
  router := by rw [hq.routerQueue, hq.routerHand, hawaited, hphase]; exact h.router
  shards j hj := by
    rw [hq.shardQueue, hq.shardActor, hq.shardWork, hawaited, hphase]
    exact h.shards j hj
  errors := herrors.trans h.errors

/-! ## Calls -/

section Calls

variable (f : Nat → ReaderMsg α) (g : Nat → ShardMsg α)

/-- A reader gets one of a row to all readers. -/
@[simp] theorem filterMap_toReader_readers (m i : Nat) :
    ((List.range m).map fun k => reader k (f k)).filterMap (toReader i) =
      if i < m then [f i] else [] := by
  rw [filterMap_map]
  exact filterMap_range_ite m i f

/-- A shard gets one of a row to all shards. -/
@[simp] theorem filterMap_toShard_shards (m j : Nat) :
    ((List.range m).map fun k => shard k (g k)).filterMap (toShard j) =
      if j < m then [g j] else [] := by
  rw [filterMap_map]
  exact filterMap_range_ite m j g

/-- No reader gets what is for the shards, -/
@[simp] theorem filterMap_toReader_shards (l : List Nat) (i : Nat) :
    (l.map fun k => shard k (g k)).filterMap (toReader i) = [] := by
  simp [toReader]

/-- nor does the router, -/
@[simp] theorem filterMap_toRouter_shards (l : List Nat) :
    (l.map fun k => shard k (g k)).filterMap toRouter = [] := by
  simp [toRouter]

/-- nor does it get what is for the readers, -/
@[simp] theorem filterMap_toRouter_readers (l : List Nat) :
    (l.map fun k => reader k (f k)).filterMap toRouter = [] := by
  simp [toRouter]

/-- nor does a shard. -/
@[simp] theorem filterMap_toShard_readers (l : List Nat) (j : Nat) :
    (l.map fun k => reader k (f k)).filterMap (toShard j) = [] := by
  simp [toShard]

end Calls

/-- A call, or the next part of one, when everything sent so far is in a mailbox. -/
structure Calls (s t : ShardedHandle α) : Prop where
  ready : s.caller.outbox = []
  readers : t.readers = s.readers
  router : t.router = s.router
  shards : t.shards = s.shards

namespace Calls

variable (h : Calls s t)
include h

/-- A reader's queue grows by what the caller sends it. -/
theorem readerQueue (i : Nat) :
    t.readerQueue i = s.readerQueue i ++ t.caller.outbox.filterMap (toReader i) := by
  simp [ShardedHandle.readerQueue, h.readers, h.ready]

/-- The router's queue does, too. -/
theorem routerQueue : t.routerQueue = s.routerQueue ++ t.caller.outbox.filterMap toRouter := by
  simp [ShardedHandle.routerQueue, h.router, h.ready]

/-- And a shard's queue. -/
theorem shardQueue (j : Nat) :
    t.shardQueue j = s.shardQueue j ++ t.caller.outbox.filterMap (toShard j) := by
  simp [ShardedHandle.shardQueue, h.shards, h.ready]

end Calls

variable {c : Caller α} {j : Nat}

/-- A caller is ready between two calls. -/
theorem isReady_iff : c.isReady = true ↔ c.phase = .idle ∧ c.outbox = [] := by
  simp [Caller.isReady]

/-- Everything is sent and answered. -/
theorem isServed_iff : c.isServed = true ↔ c.outbox = [] ∧ c.awaited = [] := by
  simp [Caller.isServed]

/-- What holds of a queue and of the plain messages holds of the queue they are sent to. -/
theorem forall_mem_sent {β : Type} {f : Send α → Option β} {P : β → Prop} {queue : List β}
    {outbox : List (Send α)} (hold : ∀ m ∈ queue, P m) (hplain : ∀ x ∈ outbox, x.IsPlain)
    (hsent : ∀ x m, x.IsPlain → f x = some m → P m) : ∀ m ∈ queue ++ outbox.filterMap f, P m := by
  refine forall_mem_append.mpr ⟨hold, fun m hm => ?_⟩
  obtain ⟨x, hx, hxm⟩ := mem_filterMap.mp hm
  exact hsent x m (hplain x hx) hxm

/-- A call that sends plain messages only keeps the shape. -/
theorem Shape.call (h : Shape n s) (hc : Calls s t) (hidle : s.caller.phase = .idle)
    (hplain : ∀ m ∈ t.caller.outbox, m.IsPlain) (hphase : t.caller.phase = .idle)
    (herrors : t.caller.errors = s.caller.errors) : Shape n t where
  readers i hi := by
    have hold := h.readers i hi
    rw [hidle] at hold
    rw [hphase, hc.readerQueue]
    refine forall_mem_sent hold hplain fun x m hx hxm => ?_
    obtain rfl := toReader_eq_some.mp hxm
    exact hx
  router := by
    have hold := h.router
    rw [hidle] at hold
    rw [hphase, hc.routerQueue]
    refine forall_mem_sent hold hplain fun x m hx hxm => ?_
    obtain rfl := toRouter_eq_some.mp hxm
    exact hx
  shards j hj := by
    obtain ⟨hhealthy, hresting, -⟩ := h.shards j hj
    rw [hidle] at hresting
    obtain ⟨hflight, hwork, hold⟩ := hresting nofun
    rw [hphase, hc.shardQueue, hc.shards]
    refine ⟨hhealthy, fun _ => ⟨hflight, hwork, ?_⟩, nofun⟩
    refine forall_mem_sent hold hplain fun x m hx hxm => ?_
    obtain rfl := toShard_eq_some.mp hxm
    exact hx
  errors := herrors.trans h.errors

section

variable (h : Shape n s) (hready : s.caller.isReady = true)
include h hready

/-- `add_document` keeps the shape. -/
theorem Shape.addDocument (doc : Document α) :
    Shape n (s.addDocument n doc) := by
  obtain ⟨hidle, hout⟩ := isReady_iff.mp hready
  unfold ShardedHandle.addDocument
  split
  · exact h.call ⟨hout, rfl, rfl, rfl⟩ hidle (forall_mem_singleton.mpr rfl) hidle rfl
  · exact h.call ⟨hout, rfl, rfl, rfl⟩ hidle (forall_mem_singleton.mpr trivial) hidle rfl

/-- `delete_by_node_id` keeps the shape. -/
theorem Shape.deleteByNodeId (nodeId : Nat) :
    Shape n (s.deleteByNodeId n nodeId) := by
  obtain ⟨hidle, hout⟩ := isReady_iff.mp hready
  exact h.call ⟨hout, rfl, rfl, rfl⟩ hidle (forall_mem_map.mpr fun _ _ => rfl) hidle rfl

/-! ## The phases of a commit -/

/-- The readers are fenced. -/
theorem Shape.startCommit :
    Shape n (s.startCommit n) := by
  obtain ⟨hidle, hout⟩ := isReady_iff.mp hready
  have hc : Calls s (s.startCommit n) := ⟨hout, rfl, rfl, rfl⟩
  have hsent : (s.startCommit n).caller.outbox =
      (List.range (numReaders n)).map fun i => reader i (.drain i) := rfl
  obtain ⟨hreaders, hrouter, hshards, -⟩ := h
  rw [hidle] at hreaders hrouter hshards
  refine ⟨fun i hi => ?_, ?_, fun j hj => ?_, rfl⟩
  · rw [hc.readerQueue, hsent, filterMap_toReader_readers, if_pos hi]
    exact Held.reached (hreaders i hi) (mem_range.mpr hi) _
  · rw [hc.routerQueue, hsent, filterMap_toRouter_readers, append_nil]
    exact hrouter
  · obtain ⟨hhealthy, hresting, -⟩ := hshards j hj
    rw [hc.shardQueue, hsent, filterMap_toShard_readers, append_nil]
    exact ⟨hhealthy, fun _ => hresting nofun, nofun⟩

end

/-- Each answered drain leads to the next, the last one to the commits of the shards. -/
theorem Shape.proceeds (h : Shape n s) (hserved : s.caller.isServed = true)
    (hnext : nextPhase n s.caller.phase = some c) : Shape n (s.setCaller c) := by
  obtain ⟨hout, hawaited⟩ := isServed_iff.mp hserved
  have hc : Calls s (s.setCaller c) := ⟨hout, rfl, rfl, rfl⟩
  have hnone : ∀ k, ¬ k ∈ s.caller.awaited := by
    intro k
    rw [hawaited]
    exact not_mem_nil
  have hcaller : (s.setCaller c).caller = c := rfl
  obtain ⟨hreaders, hrouter, hshards, -⟩ := h
  generalize s.caller.phase = phase at hnext hreaders hrouter hshards
  cases phase with
  | idle | committing => cases hnext
  | drainingReaders =>
    cases hnext
    refine ⟨fun i hi => ?_, ?_, fun j hj => ?_, rfl⟩
    · have hsent : [Send.router (.drain 0)].filterMap (Send.toReader (α := α) i) = [] := rfl
      rw [hc.readerQueue, hcaller, hsent, append_nil]
      exact (hreaders i hi).answered (hnone i) _
    · rw [hc.routerQueue, hcaller]
      exact Held.reached hrouter mem_cons_self _
    · obtain ⟨hhealthy, hresting, -⟩ := hshards j hj
      have hsent : [Send.router (.drain 0)].filterMap (Send.toShard (α := α) j) = [] := rfl
      rw [hc.shardQueue, hcaller, hsent, append_nil]
      exact ⟨hhealthy, fun _ => hresting nofun, nofun⟩
  | drainingRouter =>
    cases hnext
    refine ⟨fun i hi => ?_, ?_, fun j hj => ?_, rfl⟩
    · rw [hc.readerQueue, hcaller, filterMap_toReader_shards, append_nil]
      exact (hreaders i hi).congr_waits nofun
    · rw [hc.routerQueue, hcaller, filterMap_toRouter_shards, append_nil]
      exact Held.answered hrouter (hnone 0) _
    · obtain ⟨hhealthy, hresting, -⟩ := hshards j hj
      obtain ⟨hflight, hwork, hheld⟩ := hresting nofun
      rw [hc.shardQueue, hcaller, filterMap_toShard_shards, if_pos hj]
      exact ⟨hhealthy, fun _ => ⟨hflight, hwork, Held.reached hheld (mem_range.mpr hj) _⟩, nofun⟩
  | drainingShards =>
    cases hnext
    refine ⟨fun i hi => ?_, ?_, fun j hj => ?_, rfl⟩
    · rw [hc.readerQueue, hcaller, filterMap_toReader_shards, append_nil]
      exact (hreaders i hi).congr_waits nofun
    · rw [hc.routerQueue, hcaller, filterMap_toRouter_shards, append_nil]
      exact Held.congr_waits hrouter nofun
    · obtain ⟨hhealthy, hresting, -⟩ := hshards j hj
      obtain ⟨hflight, hwork, hheld⟩ := hresting nofun
      have hempty : s.shardQueue j = [] := (Held.answered hheld (hnone j) True).1
      rw [hc.shardQueue, hcaller, filterMap_toShard_shards, if_pos hj, hempty, hc.shards, hwork]
      exact ⟨hhealthy, nofun, fun _ => ⟨fun _ => .asked hflight,
        fun hn => absurd (mem_range.mpr hj) hn⟩⟩

/-- When the commit returns, nothing is left behind. -/
theorem Shape.commitReturns (h : Shape n s) (hserved : s.caller.isServed = true)
    (hphase : s.caller.phase = .committing) :
    Shape n (s.setCaller ⟨[], [], .idle, []⟩) := by
  obtain ⟨hout, hawaited⟩ := isServed_iff.mp hserved
  have hc : Calls s (s.setCaller ⟨[], [], .idle, []⟩) := ⟨hout, rfl, rfl, rfl⟩
  obtain ⟨hreaders, hrouter, hshards, -⟩ := h
  rw [hphase] at hreaders hrouter hshards
  refine ⟨fun i hi => ?_, ?_, fun j hj => ?_, rfl⟩
  · have hempty : s.readerQueue i = [] := (hreaders i hi).1
    rw [hc.readerQueue, hempty]
    exact forall_mem_nil _
  · have hempty : s.routerQueue = [] := hrouter.1
    rw [hc.routerQueue, hempty]
    exact forall_mem_nil _
  · obtain ⟨hhealthy, -, hcommitting⟩ := hshards j hj
    have hover := (hcommitting rfl).2 (by rw [hawaited]; exact not_mem_nil)
    rw [hc.shardQueue, hover.queue]
    exact ⟨hhealthy, fun _ => ⟨hover.inFlight, hover.work_eq,
      forall_mem_nil _⟩, nofun⟩

/-! ## The actors -/

/-- The caller has one answer more. -/
theorem mem_receive_awaited {r k : Reply} :
    k ∈ (c.receive [(r, .ok ())]).awaited ↔ k ∈ c.awaited ∧ k ≠ r := by
  simp [Caller.receive]

/-- No answer, no change. -/
theorem receive_nil (c : Caller α) : c.receive [] = c := by
  simp [Caller.receive]

/-- A success is no error. -/
theorem receive_ok_errors (c : Caller α) (r : Reply) :
    (c.receive [(r, .ok ())]).errors = c.errors := by
  simp [Caller.receive, Caller.errorOf]

section

variable (s : ShardedHandle α)

/-- The queue of the reader that moves, -/
@[simp] theorem readerQueue_setReader_self (i : Nat) (r : ReaderActor α) :
    (s.setReader i r).readerQueue i = r.mailbox ++ s.caller.outbox.filterMap (toReader i) := by
  simp [readerQueue, setReader]

/-- and of another one. -/
theorem readerQueue_setReader_ne {i k : Nat} (h : k ≠ i) (r : ReaderActor α) :
    (s.setReader i r).readerQueue k = s.readerQueue k := by
  simp [readerQueue, setReader, h]

/-- The reader that moves, -/
@[simp] theorem readers_setReader_self (i : Nat) (r : ReaderActor α) :
    (s.setReader i r).readers i = r := by
  simp [setReader]

/-- and another one. -/
theorem readers_setReader_ne {i k : Nat} (h : k ≠ i) (r : ReaderActor α) :
    (s.setReader i r).readers k = s.readers k := by
  simp [setReader, h]

/-- The shard that moves, -/
@[simp] theorem shards_setShard_self (j : Nat) (k : Shard α) :
    (s.setShard j k).shards j = k := by
  simp [setShard]

/-- and another one. -/
theorem shards_setShard_ne {j i : Nat} (h : i ≠ j) (k : Shard α) :
    (s.setShard j k).shards i = s.shards i := by
  simp [setShard, h]

end

/-- What a shard has to handle is its mailbox and what the caller is about to send. -/
theorem shardQueue_of_healthy (h : (s.shards j).actor.Healthy) :
    s.shardQueue j = (s.shards j).mailbox ++ s.caller.outbox.filterMap (toShard j) := by
  rw [shardQueue, h.deferred, nil_append]

/-- What a reader does with the head of its mailbox. -/
theorem readerTakes_cases {i : Nat} (h : s.readerTakes i = some t) :
    (s.readers i).inHand = [] ∧ ∃ m rest, (s.readers i).mailbox = m :: rest ∧
      t = (s.setReader i ⟨rest, m.docs⟩).setCaller (s.caller.receive m.answers) := by
  unfold readerTakes at h
  split at h <;> cases h
  · next doc rest hhand hmail =>
    exact ⟨hhand, _, rest, hmail, by rw [ReaderMsg.answers, receive_nil]; rfl⟩
  · next docs rest hhand hmail =>
    exact ⟨hhand, _, rest, hmail, by rw [ReaderMsg.answers, receive_nil]; rfl⟩
  · next reply rest hhand hmail => exact ⟨hhand, _, rest, hmail, rfl⟩

/-- What a reader sends. -/
theorem readerSends_cases {i : Nat} (h : s.readerSends i = some t) :
    ∃ doc docs, (s.readers i).inHand = doc :: docs ∧
      t = (s.setReader i ⟨(s.readers i).mailbox, docs⟩).deliver (.router (.route doc)) := by
  unfold readerSends at h
  split at h <;> cases h
  next doc docs hhand => exact ⟨doc, docs, hhand, rfl⟩

/-- What the router does with the head of its mailbox. -/
theorem routerTakes_cases {shard : Nat} (h : s.routerTakes shard = some t) :
    s.router.inHand = none ∧ ∃ m rest, s.router.mailbox = m :: rest ∧
      t = { s with
        router := ⟨rest, m.inHand shard⟩
        routes := m.recorded shard s.routes }.setCaller (s.caller.receive m.answers) := by
  unfold routerTakes at h
  split at h <;> cases h
  · next doc rest hhand hmail =>
    exact ⟨hhand, _, rest, hmail, by rw [RouterMsg.answers, receive_nil]; rfl⟩
  · next reply rest hhand hmail => exact ⟨hhand, _, rest, hmail, rfl⟩

/-- What the router sends. -/
theorem routerSends_cases (h : s.routerSends = some t) :
    ∃ doc shard, s.router.inHand = some (doc, shard) ∧
      t = { s with router := ⟨s.router.mailbox, none⟩ }.deliver (.shard shard (.insert doc)) := by
  unfold routerSends at h
  split at h <;> cases h
  next routed hhand => exact ⟨routed.1, routed.2, hhand, rfl⟩

/-- **A reader moves**, and its answer may arrive. -/
theorem Shape.moveReader (h : Shape n s) {i : Nat} {r : ReaderActor α} {w : Nat → Prop}
    (hi : Held ReaderMsg.IsPlain (.drain i) (w i) (r.inHand = [])
      (r.mailbox ++ s.caller.outbox.filterMap (toReader i)) s.caller.phase.atReaders)
    (hothers : ∀ k, k ≠ i → (k ∈ s.caller.awaited ↔ w k)) {k : Nat} (hk : k < numReaders n) :
    Held ReaderMsg.IsPlain (.drain k) (w k) (((s.setReader i r).readers k).inHand = [])
      ((s.setReader i r).readerQueue k) s.caller.phase.atReaders := by
  by_cases hki : k = i
  · subst hki
    rw [readerQueue_setReader_self, readers_setReader_self]
    exact hi
  · rw [readerQueue_setReader_ne s hki, readers_setReader_ne s hki]
    exact (h.readers k hk).congr_waits fun _ => hothers k hki

/-- A reader handles a message. -/
theorem Shape.readerTakes (h : Shape n s) {i : Nat} (hi : i < numReaders n)
    (hstep : s.readerTakes i = some t) : Shape n t := by
  obtain ⟨hhand, m, rest, hmail, rfl⟩ := readerTakes_cases hstep
  have hqueue : s.readerQueue i =
      m :: (rest ++ s.caller.outbox.filterMap (toReader i)) := by
    rw [readerQueue, hmail, cons_append]
  have hheld := h.readers i hi
  rw [hqueue] at hheld
  cases m with
  | tokenize _ | batch _ =>
    rw [ReaderMsg.answers, receive_nil]
    exact ⟨fun k hk => h.moveReader (hheld.take trivial id _) (fun _ _ => Iff.rfl) hk, h.router,
      h.shards, h.errors⟩
  | drain reply =>
    -- the fence: the readers are being drained, and this one is done
    obtain ⟨hunder, -, hreply, hrest⟩ := hheld.take_fence id
    obtain rfl : reply = i := by simpa using hreply
    have hphase := atReaders_under hunder
    refine ⟨fun k hk => ?_, ?_, fun j hj => ?_, ?_⟩
    · refine h.moveReader (w := (· ∈ (s.caller.receive [(reply, .ok ())]).awaited)) ?_
        (fun k hki => ?_) hk
      · rw [hrest, hunder]
        exact ⟨fun hw => absurd rfl (mem_receive_awaited.mp hw).2, fun _ => ⟨rfl, rfl⟩⟩
      · exact (mem_receive_awaited.trans (and_iff_left hki)).symm
    · have hrouter : s.caller.phase.atRouter ≠ .under := by rw [hphase]; nofun
      exact Held.congr_waits h.router fun hu => absurd hu hrouter
    · exact (h.shards j hj).congr_waits fun hu => absurd (hphase ▸ rfl) hu
    · exact (receive_ok_errors _ _).trans h.errors

/-- A reader sends a document to the router, which is not being drained yet. -/
theorem Shape.readerSends (h : Shape n s) {i : Nat} (hi : i < numReaders n)
    (hstep : s.readerSends i = some t) : Shape n t := by
  obtain ⟨doc, docs, hhand, rfl⟩ := readerSends_cases hstep
  obtain ⟨hover, hheld⟩ := (h.readers i hi).working (by rw [hhand]; nofun) (docs = [])
  have hahead := atRouter_of_atReaders hover
  refine ⟨fun k hk => h.moveReader hheld (fun _ _ => Iff.rfl) hk, ?_, h.shards, h.errors⟩
  have hold := h.router
  rw [hahead] at hold
  obtain ⟨hmail, hout⟩ := forall_mem_append.mp hold
  show Held _ _ _ _ (s.router.mailbox ++ [.route doc] ++
    s.caller.outbox.filterMap toRouter) s.caller.phase.atRouter
  rw [hahead]
  exact forall_mem_append.mpr ⟨forall_mem_append.mpr ⟨hmail, forall_mem_singleton.mpr trivial⟩,
    hout⟩

/-- The router handles a message. -/
theorem Shape.routerTakes (h : Shape n s) {shard : Nat} (hstep : s.routerTakes shard = some t) :
    Shape n t := by
  obtain ⟨hhand, m, rest, hmail, rfl⟩ := routerTakes_cases hstep
  have hheld := h.router
  rw [routerQueue, hmail, cons_append] at hheld
  cases m with
  | route doc =>
    rw [RouterMsg.answers, receive_nil]
    exact ⟨h.readers, hheld.take trivial id _, h.shards, h.errors⟩
  | drain reply =>
    obtain ⟨hunder, -, hreply, hrest⟩ := hheld.take_fence id
    obtain rfl : reply = 0 := by simpa using hreply
    have hphase := atRouter_under hunder
    refine ⟨fun i hi => ?_, ?_, fun j hj => ?_, (receive_ok_errors _ _).trans h.errors⟩
    · refine (h.readers i hi).congr_waits fun hu => ?_
      exact absurd (atReaders_under hu) (by rw [hphase]; nofun)
    · show Held _ _ (0 ∈ (s.caller.receive [(0, .ok ())]).awaited) (none = none)
        (rest ++ s.caller.outbox.filterMap toRouter) s.caller.phase.atRouter
      rw [hrest, hunder]
      exact ⟨fun hw => absurd rfl (mem_receive_awaited.mp hw).2, fun _ => ⟨rfl, rfl⟩⟩
    · exact (h.shards j hj).congr_waits fun hu => absurd (hphase ▸ rfl) hu

/-- The router sends a document to its shard, which is not being drained yet. -/
theorem Shape.routerSends (h : Shape n s) (hstep : s.routerSends = some t) : Shape n t := by
  obtain ⟨doc, shard, hhand, rfl⟩ := routerSends_cases hstep
  obtain ⟨hover, hheld⟩ := Held.working h.router (by rw [hhand]; nofun) (none = none)
  have hahead := atShards_of_atRouter hover
  have hphase : s.caller.phase ≠ .committing := ne_committing_of_atShards (by rw [hahead]; nofun)
  refine ⟨h.readers, hheld, fun j hj => ?_, h.errors⟩
  have hstands := h.shards j hj
  by_cases hj' : j = shard
  · subst hj'
    obtain ⟨hflight, hwork, hold⟩ := hstands.resting hphase
    rw [hahead] at hold
    obtain ⟨hdeferred, hrest⟩ := forall_mem_append.mp hold
    obtain ⟨hmail, hout⟩ := forall_mem_append.mp hrest
    simp only [deliver, shardQueue, shards_setShard_self]
    refine ⟨hstands.healthy, fun _ => ⟨hflight, hwork, ?_⟩, fun hc => absurd hc hphase⟩
    show Held _ _ _ _ _ s.caller.phase.atShards
    rw [hahead]
    exact forall_mem_append.mpr ⟨hdeferred, forall_mem_append.mpr
      ⟨forall_mem_append.mpr ⟨hmail, forall_mem_singleton.mpr rfl⟩, hout⟩⟩
  · simp only [deliver, shardQueue, shards_setShard_ne _ hj']
    exact hstands

/-- What a shard does with the head of its mailbox. -/
theorem shardTakes_cases (h : s.shardTakes j = some t) :
    ∃ m rest, (s.shards j).mailbox = m :: rest ∧
      t = (s.setShard j ((s.shards j).after ((s.shards j).actor.handle m) rest)).setCaller
        (s.caller.receive ((s.shards j).actor.handle m).answers) := by
  unfold shardTakes at h
  split at h
  · cases h
  · next m rest hmail => exact ⟨m, rest, hmail, (Option.some.inj h).symm⟩

section

variable (h : Shape n s)
include h

/-- **A shard moves**, and its answer may arrive; the drains of readers and router are over by
then. -/
theorem Shape.moveShard {k : Shard α} (hout : c.outbox = s.caller.outbox)
    (hphase : c.phase = s.caller.phase) (herrors : c.errors = s.caller.errors)
    (hk : ShardStands s.caller.phase (j ∈ c.awaited) j
      (k.mailbox ++ s.caller.outbox.filterMap (toShard j)) k.actor k.work)
    (hothers : ∀ i, i ≠ j → (i ∈ s.caller.awaited ↔ i ∈ c.awaited))
    (hwhen : c.awaited = s.caller.awaited ∨ s.caller.phase.atShards ≠ .ahead) :
    Shape n ((s.setShard j k).setCaller c) := by
  have hsame {p : CallPhase} (hp : s.caller.phase = p) (hahead : p.atShards = .ahead) :
      c.awaited = s.caller.awaited := by
    rw [hp] at hwhen
    exact hwhen.resolve_right (not_not_intro hahead)
  have hcaller : ((s.setShard j k).setCaller c).caller = c := rfl
  refine ⟨fun i hi => ?_, ?_, fun i hi => ?_, herrors.trans h.errors⟩
  · have hqueue : ((s.setShard j k).setCaller c).readerQueue i = s.readerQueue i := by
      rw [readerQueue, hcaller, hout]
      rfl
    rw [hqueue, hcaller, hphase]
    exact (h.readers i hi).congr_waits fun hu => by rw [hsame (atReaders_under hu) rfl]
  · have hqueue : ((s.setShard j k).setCaller c).routerQueue = s.routerQueue := by
      rw [routerQueue, hcaller, hout]
      rfl
    rw [hqueue, hcaller, hphase]
    exact Held.congr_waits h.router fun hu => by rw [hsame (atRouter_under hu) rfl]
  · rw [hcaller, hphase]
    by_cases hij : i = j
    · subst hij
      have hqueue : ((s.setShard i k).setCaller c).shardQueue i =
          k.mailbox ++ s.caller.outbox.filterMap (toShard i) := by
        simp [shardQueue, setCaller, hk.healthy.deferred, hout]
      have hself : ((s.setShard i k).setCaller c).shards i = k := shards_setShard_self s i k
      rw [hqueue, hself]
      exact hk
    · have hqueue : ((s.setShard j k).setCaller c).shardQueue i = s.shardQueue i := by
        simp [shardQueue, setCaller, ShardedHandle.setShard, hij, hout]
      have hother : ((s.setShard j k).setCaller c).shards i = s.shards i :=
        shards_setShard_ne s hij k
      rw [hqueue, hother]
      exact (h.shards i hi).congr_waits fun _ => hothers i hij

/-- How a shard stands before a message at the head of its mailbox. -/
theorem Shape.head (hj : j < n) {m : ShardMsg α} {rest : List (ShardMsg α)}
    (hmail : (s.shards j).mailbox = m :: rest) :
    ShardStands s.caller.phase (j ∈ s.caller.awaited) j
      (m :: (rest ++ s.caller.outbox.filterMap (toShard j)))
      (s.shards j).actor (s.shards j).work := by
  have hstands := h.shards j hj
  rwa [shardQueue_of_healthy hstands.healthy, hmail] at hstands

/-- A shard handles a message. -/
theorem Shape.shardTakes (hj : j < n) (hstep : s.shardTakes j = some t) : Shape n t := by
  obtain ⟨m, rest, hmail, rfl⟩ := shardTakes_cases hstep
  rcases (h.head hj hmail).take with ⟨hanswers, hhandled⟩ | ⟨hanswers, hphase, hhandled⟩
  · rw [hanswers, receive_nil]
    exact h.moveShard rfl rfl rfl hhandled.stands (fun _ _ => Iff.rfl) (.inl rfl)
  · rw [hanswers]
    refine h.moveShard rfl rfl (receive_ok_errors _ _) ?_ (fun i hij => ?_) (.inr hphase)
    · exact hhandled.stands.congr_waits fun _ =>
        ⟨False.elim, fun hw => (mem_receive_awaited.mp hw).2 rfl⟩
    · exact (mem_receive_awaited.trans (and_iff_left hij)).symm

/-- How a shard stands before the end of its work. -/
theorem Shape.work (hj : j < n) {w : Work} (hwork : (s.shards j).work = some w) :
    ShardStands s.caller.phase (j ∈ s.caller.awaited) j (s.shardQueue j) (s.shards j).actor
      (some w) ∧
      (s.shards j).mailbox = [] ∧ s.caller.outbox.filterMap (toShard j) = [] := by
  have hstands := h.shards j hj
  rw [hwork] at hstands
  have hempty : s.shardQueue j = [] := by
    obtain ⟨-, -, hstage⟩ := hstands.underWay
    generalize s.shardQueue j = q at hstage
    cases hstage <;> rfl
  refine ⟨hstands, ?_⟩
  rw [shardQueue_of_healthy hstands.healthy] at hempty
  exact append_eq_nil_iff.mp hempty

/-- The work of a shard is done. -/
theorem Shape.shardWorked (hj : j < n) (hstep : s.shardWorked j = some t) : Shape n t := by
  obtain ⟨w, hwork, rfl⟩ := map_eq_some_iff.mp hstep
  obtain ⟨hstands, hmail, hout⟩ := h.work hj hwork
  obtain ⟨-, -, hafter, -⟩ := hstands.worked hmail
  refine h.moveShard rfl rfl rfl ?_ (fun _ _ => Iff.rfl) (.inl rfl)
  rw [hout, append_nil]
  exact hafter

end

/-- **What an event does**, one constructor for each. -/
inductive Does (n : Nat) (s : ShardedHandle α) : Event α → ShardedHandle α → Prop
  | addDocument {doc} (hready : s.caller.isReady = true) :
      Does n s (.addDocument doc) (s.addDocument n doc)
  | deleteByNodeId {nodeId} (hready : s.caller.isReady = true) :
      Does n s (.deleteByNodeId nodeId) (s.deleteByNodeId n nodeId)
  | commit (hready : s.caller.isReady = true) : Does n s .commit (s.startCommit n)
  | callerSends {handle} (hmove : s.callerSends = some handle) : Does n s .callerSends handle
  | callerProceeds {c : Caller α} (hserved : s.caller.isServed = true)
      (hnext : nextPhase n s.caller.phase = some c) : Does n s .callerProceeds (s.setCaller c)
  | commitReturns {ok} (hserved : s.caller.isServed = true) (hphase : s.caller.phase = .committing)
      (hok : ok = s.caller.errors.isEmpty) :
      Does n s (.commitReturns ok) (s.setCaller ⟨[], [], .idle, []⟩)
  | readerTakes {i handle} (hi : i < numReaders n) (hmove : s.readerTakes i = some handle) :
      Does n s (.readerTakes i) handle
  | readerSends {i handle} (hi : i < numReaders n) (hmove : s.readerSends i = some handle) :
      Does n s (.readerSends i) handle
  | routerTakes {shard handle} (hshard : shard < n) (hmove : s.routerTakes shard = some handle) :
      Does n s (.routerTakes shard) handle
  | routerSends {handle} (hmove : s.routerSends = some handle) : Does n s .routerSends handle
  | shardTakes {j : Nat} {handle} (hj : j < n) (hmove : s.shardTakes j = some handle) :
      Does n s (.shardTakes j) handle
  | shardWorked {j : Nat} {handle} (hj : j < n) (hmove : s.shardWorked j = some handle) :
      Does n s (.shardWorked j) handle

/-- **Every event** does what one of the cases says. -/
theorem does_of_next {e : Event α} (h : s.next n e = some t) : Does n s e t := by
  cases e with
  | callerSends => exact .callerSends h
  | routerSends => exact .routerSends h
  | callerProceeds =>
    obtain ⟨hserved, h⟩ := ite_none_right_eq_some.mp h
    obtain ⟨c, hnext, rfl⟩ := map_eq_some_iff.mp h
    exact .callerProceeds hserved hnext
  | commitReturns ok =>
    obtain ⟨hcond, ⟨⟩⟩ := ite_none_right_eq_some.mp h
    simp only [Bool.and_eq_true, beq_iff_eq] at hcond
    exact .commitReturns hcond.1.1 hcond.1.2 hcond.2
  | addDocument _ | deleteByNodeId _ | commit =>
    obtain ⟨hready, ⟨⟩⟩ := ite_none_right_eq_some.mp h
    constructor
    exact hready
  | readerTakes _ | readerSends _ | routerTakes _ | shardTakes _ | shardWorked _ =>
    obtain ⟨hbound, hmove⟩ := ite_none_right_eq_some.mp h
    constructor <;> assumption

/-- **Every event keeps the shape.** -/
theorem Shape.next (h : Shape n s) {e : Event α} (hstep : s.next n e = some t) : Shape n t := by
  cases does_of_next hstep with
  | addDocument hready => exact h.addDocument hready _
  | deleteByNodeId hready => exact h.deleteByNodeId hready _
  | commit hready => exact h.startCommit hready
  | callerSends hmove =>
    obtain ⟨hqueues, m, -, hcaller⟩ := callerSends_queues hmove
    exact h.of_sameQueues hqueues (by rw [hcaller]) (by rw [hcaller]) (by rw [hcaller])
  | callerProceeds hserved hnext => exact h.proceeds hserved hnext
  | commitReturns hserved hphase => exact h.commitReturns hserved hphase
  | readerTakes hi hmove => exact h.readerTakes hi hmove
  | readerSends hi hmove => exact h.readerSends hi hmove
  | routerTakes _ hmove => exact h.routerTakes hmove
  | routerSends hmove => exact h.routerSends hmove
  | shardTakes hj hmove => exact h.shardTakes hj hmove
  | shardWorked hj hmove => exact h.shardWorked hj hmove

end ShardedHandle

end Lucivy.Sharded
