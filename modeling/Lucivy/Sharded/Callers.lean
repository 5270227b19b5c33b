import Mathlib.Data.Nat.Pairing
import Lucivy.Sharded.CommitBarrier

/-! # A sharded handle with many callers

Any number of threads call one `ShardedHandle` at the same time: they add documents (one, a batch,
or one with its hashes), delete by node id, `commit` (or `commit_fast`) and `commit_direct`. The
actors are those of `ShardedHandle`; its own caller is not used. Answers go to reply slots, each
made for one request of one call.

`commit_direct` does not talk to the actors: it reads the depth of every mailbox, one after the
other, until one pass has found all of them empty, and then commits the writers itself. A message
that an actor has taken from its mailbox, a document in a reader's hand for instance, is in none of
them.

* `Thread` — what a thread is doing.
* `Service.next` — one event.
* `Service.Does` — what the events do, for proofs by cases. -/

namespace Lucivy.Sharded

open Lucivy.Foundation Option

variable {α : Type}

/-! ## Replies -/

/-- What a reply slot is for. -/
inductive Purpose where
  | drainReader (i : Nat)
  | drainRouter
  | drainShard (j : Nat)
  | commitShard (j : Nat)
deriving DecidableEq, Repr

/-- Purposes as numbers. -/
def Purpose.code : Purpose → Nat
  | .drainReader i => 4 * i
  | .drainRouter => 1
  | .drainShard j => 4 * j + 2
  | .commitShard j => 4 * j + 3

/-- The reply slot of a call. -/
def replySlot (call : Nat) (purpose : Purpose) : Reply := Nat.pair call purpose.code

/-! ## Threads -/

/-- A mailbox `commit_direct` looks at. -/
inductive Target where
  | reader (i : Nat)
  | router
  | shard (j : Nat)
deriving DecidableEq, Repr

/-- One pass of the loop of `commit_direct`. -/
def allTargets (n : Nat) : List Target :=
  (List.range (numReaders n)).map Target.reader ++ (.router :: (List.range n).map Target.shard)

/-- **What a thread is doing.** -/
inductive Thread (α : Type) where
  | idle
  /-- In an add or in `delete_by_node_id`, which return when everything is sent. -/
  | sending (out : List (Send α))
  /-- In `commit` or `commit_fast`. -/
  | committing (call : Nat) (fast : Bool) (phase : CallPhase) (out : List (Send α))
  /-- In the loop of `commit_direct`; in this pass a mailbox was found busy or not. -/
  | looking (targets : List Target) (busy : Bool)
  /-- In `commit_direct`, behind its loop. -/
  | publishing (shards : List Nat)

namespace Thread

/-- What it has still to send. -/
def outbox : Thread α → List (Send α)
  | .sending out => out
  | .committing _ _ _ out => out
  | _ => []

/-- The rest of its outbox. -/
def sent : Thread α → Thread α
  | .sending out => .sending out.tail
  | .committing call fast phase out => .committing call fast phase out.tail
  | thread => thread

end Thread

/-- What a phase of `commit` waits for. -/
def purposes (n : Nat) : CallPhase → List Purpose
  | .drainingReaders => (List.range (numReaders n)).map Purpose.drainReader
  | .drainingRouter => [.drainRouter]
  | .drainingShards => (List.range n).map Purpose.drainShard
  | .committing => (List.range n).map Purpose.commitShard
  | .idle => []

/-- The request for a reply slot. -/
def request (call : Nat) (fast : Bool) : Purpose → Send α
  | .drainReader i => .reader i (.drain (replySlot call (.drainReader i)))
  | .drainRouter => .router (.drain (replySlot call .drainRouter))
  | .drainShard j => .shard j (.drain (replySlot call (.drainShard j)))
  | .commitShard j => .shard j (.commit fast (replySlot call (.commitShard j)))

/-- The order of the phases. -/
def phaseAfter : CallPhase → Option CallPhase
  | .drainingReaders => some .drainingRouter
  | .drainingRouter => some .drainingShards
  | .drainingShards => some .committing
  | .committing => none
  | .idle => none

/-! ## The system -/

/-- **A handle and its callers.** -/
structure Service (α : Type) where
  handle : ShardedHandle α
  threads : Nat → Thread α
  nextCall : Nat
  answered : List (Reply × CommitAnswer)

/-- An event: a call, a step of a thread within its call, or a step of an actor. -/
inductive ServiceEvent (α : Type) where
  | addDocument (c : Nat) (doc : Document α)
  | addDocuments (c : Nat) (docs : List (Document α))
  | addWithHashes (c : Nat) (doc : Document α) (shard : Nat)
  | deleteByNodeId (c : Nat) (nodeId : Nat)
  | commit (c : Nat) (fast : Bool)
  | commitDirect (c : Nat)
  /-- The thread sends the next message of its call. -/
  | sends (c : Nat)
  /-- An add or a delete returns. -/
  | returns (c : Nat)
  /-- `commit` has all answers of a drain and goes on. -/
  | proceeds (c : Nat)
  | commitReturns (c : Nat) (ok : Bool)
  /-- `commit_direct` looks at the next mailbox, or ends a pass. -/
  | looks (c : Nat)
  /-- `commit_direct` commits the next shard. -/
  | publishes (c : Nat)
  /-- `commit_direct` returns. -/
  | directReturns (c : Nat)
  | readerTakes (i : Nat)
  | readerSends (i : Nat)
  | routerTakes (shard : Nat)
  | routerSends
  | shardTakes (j : Nat)
  | shardWorked (j : Nat)

namespace Service

/-- A new index, all threads idle. -/
def create : Service α := ⟨.create, fun _ => .idle, 0, []⟩

def setThread (s : Service α) (c : Nat) (thread : Thread α) : Service α :=
  { s with threads := Function.update s.threads c thread }

/-! ### Calls -/

/-- The message of `add_document`. -/
def addSend (n : Nat) (s : Service α) (doc : Document α) : Send α :=
  if n = 1 then .shard 0 (.insert doc)
  else .reader (s.handle.nextReader % numReaders n) (.tokenize doc)

/-- `add_document`: an index of one shard records the shard at once. -/
def addDocument (n : Nat) (s : Service α) (c : Nat) (doc : Document α) : Service α :=
  { s with
    handle := { s.handle with
      nextReader := if n = 1 then s.handle.nextReader else s.handle.nextReader + 1
      routes := if n = 1 then s.handle.routes.recordNodeId doc.nodeId 0 else s.handle.routes }
    threads := Function.update s.threads c (.sending [s.addSend n doc]) }

/-- The documents of a batch for one reader: every so many-th. -/
def batchFor (readers i : Nat) (docs : List (Document α)) : List (Document α) :=
  (docs.zipIdx.filter fun entry => entry.2 % readers == i).map Prod.fst

/-- The messages of `add_documents`. -/
def batchSends (n : Nat) (docs : List (Document α)) : List (Send α) :=
  (List.range (numReaders n)).filterMap fun i =>
    if (batchFor (numReaders n) i docs).isEmpty then none
    else some (.reader i (.batch (batchFor (numReaders n) i docs)))

/-- `route_and_send`. -/
def addWithHashes (s : Service α) (c : Nat) (doc : Document α) (shard : Nat) : Service α :=
  { s with
    handle := { s.handle with routes := s.handle.routes.recordNodeId doc.nodeId shard }
    threads := Function.update s.threads c (.sending [.shard shard (.insert doc)]) }

def deleteByNodeId (n : Nat) (s : Service α) (c nodeId : Nat) : Service α :=
  { s with
    handle := { s.handle with routes := s.handle.routes.removeNodeId nodeId }
    threads := Function.update s.threads c
      (.sending ((s.handle.deleteTargets n nodeId).map fun j => .shard j (.delete nodeId))) }

/-- A phase of `commit` begins. -/
def startPhase (n : Nat) (s : Service α) (c call : Nat) (fast : Bool) (phase : CallPhase) :
    Service α :=
  s.setThread c (.committing call fast phase ((purposes n phase).map (request call fast)))

/-- The number of a call is taken. -/
def takeCall (s : Service α) : Service α := { s with nextCall := s.nextCall + 1 }

/-- A pass of the loop of `commit_direct` begins. -/
def startPass (n : Nat) (s : Service α) (c : Nat) : Service α :=
  s.setThread c (.looking (allTargets n) false)

/-! ### Steps of a call -/

/-- A message leaves a thread. -/
def send (s : Service α) (c : Nat) (m : Send α) : Service α :=
  { s with
    handle := s.handle.deliver m
    threads := Function.update s.threads c (s.threads c).sent }

/-- The thread's commit waits for nothing more. -/
def isAnswered (s : Service α) (n call : Nat) (phase : CallPhase) : Bool :=
  (purposes n phase).all fun purpose => (s.answered.map Prod.fst).contains (replySlot call purpose)

/-- An answer is no error. -/
def isOk : CommitAnswer → Bool
  | .ok () => true
  | .error _ => false

/-- No shard has answered an error to this commit. -/
def isSuccess (s : Service α) (n call : Nat) : Bool :=
  s.answered.all fun answer =>
    !((purposes n .committing).map (replySlot call)).contains answer.1 || isOk answer.2

/-- `mailbox_depth`. -/
def depth (s : Service α) : Target → Nat
  | .reader i => (s.handle.readers i).mailbox.length
  | .router => s.handle.router.mailbox.length
  | .shard j => (s.handle.shards j).mailbox.length

/-- `commit_direct` reads a depth. -/
def look (s : Service α) (c : Nat) (target : Target) (rest : List Target) (busy : Bool) :
    Service α :=
  s.setThread c (.looking rest (busy || s.depth target != 0))

/-- `commit_direct` commits a shard's writer. -/
def publish (s : Service α) (c j : Nat) (rest : List Nat) : Service α :=
  { s with
    handle := s.handle.setShard j
      ⟨(s.handle.shards j).actor.commitWriter, (s.handle.shards j).mailbox,
        (s.handle.shards j).work⟩
    threads := Function.update s.threads c (.publishing rest) }

/-! ### Steps of the actors -/

/-- What the head of a reader's mailbox answers. -/
def readerAnswers (a : ReaderActor α) : List (Reply × CommitAnswer) :=
  match a.mailbox with
  | .drain reply :: _ => [(reply, .ok ())]
  | _ => []

/-- What the head of the router's mailbox answers. -/
def routerAnswers (a : RouterActor α) : List (Reply × CommitAnswer) :=
  match a.mailbox with
  | .drain reply :: _ => [(reply, .ok ())]
  | _ => []

/-- What the head of a shard's mailbox answers. -/
def shardAnswers (k : Shard α) : List (Reply × CommitAnswer) :=
  match k.mailbox with
  | m :: _ => (k.actor.handle m).answers
  | [] => []

/-- An actor has moved, and answers arrive. -/
def afterActor (s : Service α) (answers : List (Reply × CommitAnswer)) (handle : ShardedHandle α) :
    Service α :=
  { s with handle := handle, answered := s.answered ++ answers }

/-- **One event** of a handle over `n` shards, where it can happen. -/
def next (n : Nat) (s : Service α) : ServiceEvent α → Option (Service α)
  | .addDocument c doc =>
    match s.threads c with
    | .idle => some (s.addDocument n c doc)
    | _ => none
  | .addDocuments c docs =>
    match s.threads c with
    | .idle => some (s.setThread c (.sending (batchSends n docs)))
    | _ => none
  | .addWithHashes c doc shard =>
    match s.threads c with
    | .idle => if shard < n then some (s.addWithHashes c doc shard) else none
    | _ => none
  | .deleteByNodeId c nodeId =>
    match s.threads c with
    | .idle => some (s.deleteByNodeId n c nodeId)
    | _ => none
  | .commit c fast =>
    match s.threads c with
    | .idle => some (s.takeCall.startPhase n c s.nextCall fast .drainingReaders)
    | _ => none
  | .commitDirect c =>
    match s.threads c with
    | .idle => some (s.startPass n c)
    | _ => none
  | .sends c => (s.threads c).outbox.head?.map (s.send c)
  | .returns c =>
    match s.threads c with
    | .sending [] => some (s.setThread c .idle)
    | _ => none
  | .proceeds c =>
    match s.threads c with
    | .committing call fast phase [] =>
      if s.isAnswered n call phase then
        (phaseAfter phase).map fun phase' => s.startPhase n c call fast phase'
      else none
    | _ => none
  | .commitReturns c ok =>
    match s.threads c with
    | .committing call _ .committing [] =>
      if s.isAnswered n call .committing && ok == s.isSuccess n call then
        some (s.setThread c .idle)
      else none
    | _ => none
  | .looks c =>
    match s.threads c with
    | .looking (target :: rest) busy => some (s.look c target rest busy)
    | .looking [] true => some (s.startPass n c)
    | .looking [] false => some (s.setThread c (.publishing (List.range n)))
    | _ => none
  | .publishes c =>
    match s.threads c with
    | .publishing (j :: rest) => some (s.publish c j rest)
    | _ => none
  | .directReturns c =>
    match s.threads c with
    | .publishing [] => some (s.setThread c .idle)
    | _ => none
  | .readerTakes i =>
    if i < numReaders n then
      (s.handle.readerTakes i).map (s.afterActor (readerAnswers (s.handle.readers i)))
    else none
  | .readerSends i =>
    if i < numReaders n then (s.handle.readerSends i).map (s.afterActor []) else none
  | .routerTakes shard =>
    if shard < n then
      (s.handle.routerTakes shard).map (s.afterActor (routerAnswers s.handle.router))
    else none
  | .routerSends => s.handle.routerSends.map (s.afterActor [])
  | .shardTakes j =>
    if j < n then
      (s.handle.shardTakes j).map (s.afterActor (shardAnswers (s.handle.shards j)))
    else none
  | .shardWorked j => if j < n then (s.handle.shardWorked j).map (s.afterActor []) else none

/-- **What an event does**, one constructor for each way it can happen. -/
inductive Does (n : Nat) (s : Service α) : ServiceEvent α → Service α → Prop
  | addDocument {c doc} : Does n s (.addDocument c doc) (s.addDocument n c doc)
  | addDocuments {c docs} :
      Does n s (.addDocuments c docs) (s.setThread c (.sending (batchSends n docs)))
  | addWithHashes {c doc shard} (hshard : shard < n) :
      Does n s (.addWithHashes c doc shard) (s.addWithHashes c doc shard)
  | deleteByNodeId {c nodeId} : Does n s (.deleteByNodeId c nodeId) (s.deleteByNodeId n c nodeId)
  | commit {c fast} :
      Does n s (.commit c fast) (s.takeCall.startPhase n c s.nextCall fast .drainingReaders)
  | commitDirect {c} : Does n s (.commitDirect c) (s.startPass n c)
  | sends {c m} (hhead : (s.threads c).outbox.head? = some m) : Does n s (.sends c) (s.send c m)
  | returns {c} : Does n s (.returns c) (s.setThread c .idle)
  | proceeds {c call fast phase} : Does n s (.proceeds c) (s.startPhase n c call fast phase)
  | commitReturns {c ok} : Does n s (.commitReturns c ok) (s.setThread c .idle)
  | looks {c target rest busy} : Does n s (.looks c) (s.look c target rest busy)
  | looksAgain {c} : Does n s (.looks c) (s.startPass n c)
  | looksDone {c} : Does n s (.looks c) (s.setThread c (.publishing (List.range n)))
  | publishes {c j rest} : Does n s (.publishes c) (s.publish c j rest)
  | directReturns {c} : Does n s (.directReturns c) (s.setThread c .idle)
  | readerTakes {i handle} (hmove : s.handle.readerTakes i = some handle) :
      Does n s (.readerTakes i) (s.afterActor (readerAnswers (s.handle.readers i)) handle)
  | readerSends {i handle} (hmove : s.handle.readerSends i = some handle) :
      Does n s (.readerSends i) (s.afterActor [] handle)
  | routerTakes {shard handle} (hshard : shard < n)
      (hmove : s.handle.routerTakes shard = some handle) :
      Does n s (.routerTakes shard) (s.afterActor (routerAnswers s.handle.router) handle)
  | routerSends {handle} (hmove : s.handle.routerSends = some handle) :
      Does n s .routerSends (s.afterActor [] handle)
  | shardTakes {j handle} (hmove : s.handle.shardTakes j = some handle) :
      Does n s (.shardTakes j) (s.afterActor (shardAnswers (s.handle.shards j)) handle)
  | shardWorked {j handle} (hmove : s.handle.shardWorked j = some handle) :
      Does n s (.shardWorked j) (s.afterActor [] handle)

/-- **Every event** does what one of the cases says. -/
theorem does_of_next {n : Nat} {s t : Service α} {e : ServiceEvent α} (h : s.next n e = some t) :
    Does n s e t := by
  cases e with
  | addDocument _ _ | addDocuments _ _ | deleteByNodeId _ _ | commit _ _ | commitDirect _
  | returns _ | publishes _ | directReturns _ =>
    simp only [next] at h
    split at h
    · cases h
      constructor
    · cases h
  | looks c =>
    simp only [next] at h
    split at h <;> cases h
    · exact .looks
    · exact .looksAgain
    · exact .looksDone
  | addWithHashes c doc shard =>
    simp only [next] at h
    split at h
    · obtain ⟨hshard, ⟨⟩⟩ := ite_none_right_eq_some.mp h
      exact .addWithHashes hshard
    · cases h
  | sends c =>
    obtain ⟨m, hhead, rfl⟩ := map_eq_some_iff.mp h
    exact .sends hhead
  | proceeds c =>
    simp only [next] at h
    split at h
    · obtain ⟨-, h⟩ := ite_none_right_eq_some.mp h
      obtain ⟨phase', -, rfl⟩ := map_eq_some_iff.mp h
      exact .proceeds
    · cases h
  | commitReturns c ok =>
    simp only [next] at h
    split at h
    · obtain ⟨-, ⟨⟩⟩ := ite_none_right_eq_some.mp h
      exact .commitReturns
    · cases h
  | routerSends =>
    obtain ⟨handle, hmove, rfl⟩ := map_eq_some_iff.mp h
    exact .routerSends hmove
  | readerTakes _ | readerSends _ | routerTakes _ | shardTakes _ | shardWorked _ =>
    obtain ⟨hbound, h⟩ := ite_none_right_eq_some.mp h
    obtain ⟨handle, hmove, rfl⟩ := map_eq_some_iff.mp h
    constructor <;> assumption

end Service

end Lucivy.Sharded
