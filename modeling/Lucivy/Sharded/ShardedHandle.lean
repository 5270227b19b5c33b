import Lucivy.Foundation.Transition
import Lucivy.Sharded.ShardActor

/-! # The sharded handle

`ShardedHandle` (`sharded_handle.rs`) with one caller. A document added to an index of several
shards goes to a reader, from there to the router, which picks a shard, records it for the node
id and sends the document there. A delete asks the record at once and goes to the shard it names,
or to every shard. A commit drains the readers, the router and the shards, in this order, and
then commits every shard. Mailboxes are in order; everything else may interleave, between any two
messages of the caller too.

The shard the router picks depends on floating-point scores over token counts; it is left open
here, so is the tokenization it rests on. Storage does not fail, and the handle is open for
writing.

* `ShardRouter` — the record of shards by node id.
* `ReaderActor`, `RouterActor`, `Caller` — the actors between the caller and the shards.
* `ShardedHandle.next` — one event of the system. -/

namespace Lucivy.Sharded

open Lucivy.Foundation

variable {α : Type}

/-! ## The record of node ids -/

/-- `ShardRouter`, its map `node_id_to_shard`. -/
structure ShardRouter where
  /-- Where a node id was last routed. -/
  nodeIdToShard : Nat → Option Nat

namespace ShardRouter

def recordNodeId (r : ShardRouter) (nodeId shard : Nat) : ShardRouter :=
  ⟨Function.update r.nodeIdToShard nodeId (some shard)⟩

def shardForNodeId (r : ShardRouter) (nodeId : Nat) : Option Nat := r.nodeIdToShard nodeId

/-- `remove_node_id`, as far as the map is concerned; it returns `shardForNodeId`. -/
def removeNodeId (r : ShardRouter) (nodeId : Nat) : ShardRouter :=
  ⟨Function.update r.nodeIdToShard nodeId none⟩

end ShardRouter

/-! ## Readers and router -/

inductive ReaderMsg (α : Type)
  | tokenize (doc : Document α)
  | batch (docs : List (Document α))
  /-- Acknowledged once everything before it is handled. -/
  | drain (reply : Reply)

/-- `ReaderActor`: its mailbox, and the tokenized documents it has still to send on. -/
structure ReaderActor (α : Type) where
  /-- The mailbox, oldest first. -/
  mailbox : List (ReaderMsg α)
  /-- Taken from the mailbox and not yet sent. -/
  inHand : List (Document α)

inductive RouterMsg (α : Type)
  | route (doc : Document α)
  /-- Acknowledged once everything before it is handled. -/
  | drain (reply : Reply)

/-- `RouterActor`: between recording a document's shard and sending it there, the document is in
hand. -/
structure RouterActor (α : Type) where
  /-- The mailbox, oldest first. -/
  mailbox : List (RouterMsg α)
  /-- A document recorded for a shard and not yet sent. -/
  inHand : Option (Document α × Nat)

/-! ## The caller -/

/-- A message the caller sends. -/
inductive Send (α : Type)
  | reader (i : Nat) (m : ReaderMsg α)
  | router (m : RouterMsg α)
  | shard (j : Nat) (m : ShardMsg α)

/-- Where the caller stands. -/
inductive CallPhase
  | idle
  /-- `commit`, in `drain_readers`. -/
  | drainingReaders
  /-- `commit`, in `drain_router`. -/
  | drainingRouter
  /-- `commit`, in `drain_shards`. -/
  | drainingShards
  /-- `commit`, in `commit_shard`. -/
  | committing
deriving DecidableEq, Repr

/-- **The caller's thread.** -/
structure Caller (α : Type) where
  /-- What the call under way has still to send, in order. -/
  outbox : List (Send α)
  /-- The answers it waits for after that. -/
  awaited : List Reply
  phase : CallPhase
  /-- The errors the shards answered to the commit under way. -/
  errors : List CommitError

namespace Caller

/-- The last call has returned. -/
def isReady (c : Caller α) : Bool := c.phase == .idle && c.outbox.isEmpty

/-- Everything is sent and every answer is there. -/
def isServed (c : Caller α) : Bool := c.outbox.isEmpty && c.awaited.isEmpty

/-- The error in an answer. -/
def errorOf : CommitAnswer → Option CommitError
  | .ok () => none
  | .error e => some e

/-- Answers arrive. -/
def receive (c : Caller α) (answers : List (Reply × CommitAnswer)) : Caller α :=
  { c with
    awaited := c.awaited.filter (· ∉ answers.map Prod.fst)
    errors := c.errors ++ (answers.map Prod.snd).filterMap errorOf }

end Caller

/-! ## The system -/

/-- **The handle**: shards, readers, router, the record behind its lock, and the caller. -/
structure ShardedHandle (α : Type) where
  /-- `shard_pool`. -/
  shards : Nat → Shard α
  /-- `reader_pool`. -/
  readers : Nat → ReaderActor α
  /-- `router_ref`. -/
  router : RouterActor α
  /-- `router`, behind its lock. -/
  routes : ShardRouter
  /-- The round-robin counter of the reader pool. -/
  nextReader : Nat
  caller : Caller α

def numReaders (n : Nat) : Nat := max n 2

/-- An event: a call, a step of the caller within its call, or a step of an actor. -/
inductive Event (α : Type)
  /-- The caller calls `add_document`. -/
  | addDocument (doc : Document α)
  /-- The caller calls `delete_by_node_id`. -/
  | deleteByNodeId (nodeId : Nat)
  /-- The caller calls `commit`. -/
  | commit
  /-- The caller sends the next message of its call. -/
  | callerSends
  /-- The caller has all answers of a drain and goes on. -/
  | callerProceeds
  /-- `commit` returns, with or without an error. -/
  | commitReturns (ok : Bool)
  | readerTakes (i : Nat)
  | readerSends (i : Nat)
  /-- The router takes a message; a document is recorded for this shard. -/
  | routerTakes (shard : Nat)
  /-- The router sends the document in hand to its shard. -/
  | routerSends
  | shardTakes (j : Nat)
  | shardWorked (j : Nat)

namespace ShardedHandle

/-- A new index. -/
def create : ShardedHandle α where
  shards _ := .create
  readers _ := ⟨[], []⟩
  router := ⟨[], none⟩
  routes := ⟨fun _ => none⟩
  nextReader := 0
  caller := ⟨[], [], .idle, []⟩

/-- One reader changes. -/
def setReader (s : ShardedHandle α) (i : Nat) (r : ReaderActor α) : ShardedHandle α :=
  { s with readers := Function.update s.readers i r }

/-- One shard changes. -/
def setShard (s : ShardedHandle α) (j : Nat) (k : Shard α) : ShardedHandle α :=
  { s with shards := Function.update s.shards j k }

/-- The caller's state changes. -/
def setCaller (s : ShardedHandle α) (c : Caller α) : ShardedHandle α := { s with caller := c }

/-- A message arrives in its mailbox. -/
def deliver (s : ShardedHandle α) : Send α → ShardedHandle α
  | .reader i m => s.setReader i ⟨(s.readers i).mailbox ++ [m], (s.readers i).inHand⟩
  | .router m => { s with router := ⟨s.router.mailbox ++ [m], s.router.inHand⟩ }
  | .shard j m => s.setShard j { s.shards j with mailbox := (s.shards j).mailbox ++ [m] }

/-- `add_document`: an index of one shard records the shard and sends the document there
(`route_and_send`), any other sends it to the next reader. -/
def addDocument (n : Nat) (doc : Document α) (s : ShardedHandle α) : ShardedHandle α :=
  if n = 1 then
    { s with
      routes := s.routes.recordNodeId doc.nodeId 0
      caller := { s.caller with outbox := [.shard 0 (.insert doc)] } }
  else
    { s with
      nextReader := s.nextReader + 1
      caller := { s.caller with
        outbox := [.reader (s.nextReader % numReaders n) (.tokenize doc)] } }

/-- The shards a delete goes to: the one on record, or all of them. -/
def deleteTargets (n : Nat) (nodeId : Nat) (s : ShardedHandle α) : List Nat :=
  (s.routes.shardForNodeId nodeId).elim (List.range n) fun shard => [shard % n]

/-- `delete_by_node_id`: the record is taken, then the deletes are sent. -/
def deleteByNodeId (n : Nat) (nodeId : Nat) (s : ShardedHandle α) : ShardedHandle α :=
  { s with
    routes := s.routes.removeNodeId nodeId
    caller := { s.caller with
      outbox := (s.deleteTargets n nodeId).map fun j => .shard j (.delete nodeId) } }

/-- `commit` up to its first wait. -/
def startCommit (n : Nat) (s : ShardedHandle α) : ShardedHandle α :=
  s.setCaller ⟨(List.range (numReaders n)).map fun i => .reader i (.drain i),
    List.range (numReaders n), .drainingReaders, []⟩

/-- The next part of `commit`, behind a drain. -/
def nextPhase (n : Nat) : CallPhase → Option (Caller α)
  | .drainingReaders => some ⟨[.router (.drain 0)], [0], .drainingRouter, []⟩
  | .drainingRouter =>
    some ⟨(List.range n).map fun j => .shard j (.drain j), List.range n, .drainingShards, []⟩
  | .drainingShards =>
    some ⟨(List.range n).map fun j => .shard j (.commit false j), List.range n, .committing, []⟩
  | .committing => none
  | .idle => none

/-- A reader handles the message at the head of its mailbox. -/
def readerTakes (s : ShardedHandle α) (i : Nat) : Option (ShardedHandle α) :=
  match (s.readers i).inHand, (s.readers i).mailbox with
  | [], .tokenize doc :: rest => some (s.setReader i ⟨rest, [doc]⟩)
  | [], .batch docs :: rest => some (s.setReader i ⟨rest, docs⟩)
  | [], .drain reply :: rest =>
    some ((s.setReader i ⟨rest, []⟩).setCaller (s.caller.receive [(reply, .ok ())]))
  | _, _ => none

/-- A reader sends a document to the router. -/
def readerSends (s : ShardedHandle α) (i : Nat) : Option (ShardedHandle α) :=
  match (s.readers i).inHand with
  | [] => none
  | doc :: docs =>
    some ((s.setReader i ⟨(s.readers i).mailbox, docs⟩).deliver (.router (.route doc)))

/-- The router handles the message at the head of its mailbox. -/
def routerTakes (s : ShardedHandle α) (shard : Nat) : Option (ShardedHandle α) :=
  match s.router.inHand, s.router.mailbox with
  | none, .route doc :: rest =>
    some { s with
      router := ⟨rest, some (doc, shard)⟩
      routes := s.routes.recordNodeId doc.nodeId shard }
  | none, .drain reply :: rest =>
    some ({ s with router := ⟨rest, none⟩ }.setCaller (s.caller.receive [(reply, .ok ())]))
  | _, _ => none

/-- The router sends the document in hand. -/
def routerSends (s : ShardedHandle α) : Option (ShardedHandle α) :=
  match s.router.inHand with
  | none => none
  | some routed =>
    some ({ s with router := ⟨s.router.mailbox, none⟩ }.deliver
      (.shard routed.2 (.insert routed.1)))

/-- A shard handles the message at the head of its mailbox. -/
def shardTakes (s : ShardedHandle α) (j : Nat) : Option (ShardedHandle α) :=
  match (s.shards j).mailbox with
  | [] => none
  | m :: rest =>
    some ((s.setShard j ((s.shards j).after ((s.shards j).actor.handle m) rest)).setCaller
      (s.caller.receive ((s.shards j).actor.handle m).answers))

/-- The work of a shard is done. -/
def shardWorked (s : ShardedHandle α) (j : Nat) : Option (ShardedHandle α) :=
  (s.shards j).work.map fun w => s.setShard j ((s.shards j).finishWork w)

/-- The caller sends the first message of its outbox. -/
def callerSends (s : ShardedHandle α) : Option (ShardedHandle α) :=
  match s.caller.outbox with
  | [] => none
  | m :: rest => some ((s.setCaller { s.caller with outbox := rest }).deliver m)

/-- **One event** of the handle over `n` shards, where it can happen. -/
def next (n : Nat) (s : ShardedHandle α) : Event α → Option (ShardedHandle α)
  | .addDocument doc => if s.caller.isReady then some (s.addDocument n doc) else none
  | .deleteByNodeId nodeId => if s.caller.isReady then some (s.deleteByNodeId n nodeId) else none
  | .commit => if s.caller.isReady then some (s.startCommit n) else none
  | .callerSends => s.callerSends
  | .callerProceeds =>
    if s.caller.isServed then
      (nextPhase n s.caller.phase).map s.setCaller
    else none
  | .commitReturns ok =>
    if s.caller.isServed && s.caller.phase == .committing && ok == s.caller.errors.isEmpty then
      some (s.setCaller ⟨[], [], .idle, []⟩)
    else none
  | .readerTakes i => if i < numReaders n then s.readerTakes i else none
  | .readerSends i => if i < numReaders n then s.readerSends i else none
  | .routerTakes shard => if shard < n then s.routerTakes shard else none
  | .routerSends => s.routerSends
  | .shardTakes j => if j < n then s.shardTakes j else none
  | .shardWorked j => if j < n then s.shardWorked j else none

/-- The events as a step relation. -/
def Step (n : Nat) (s : ShardedHandle α) (e : Event α) (t : ShardedHandle α) : Prop :=
  s.next n e = some t

/-- The documents of the committed segments of all shards. -/
def committedDocs (n : Nat) (s : ShardedHandle α) : List (Document α) :=
  (List.range n).flatMap fun j => (s.shards j).actor.committed

end ShardedHandle

end Lucivy.Sharded
