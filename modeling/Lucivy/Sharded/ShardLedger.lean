import Lucivy.Foundation.Transition
import Lucivy.Sharded.ShardActor

/-! # What becomes of every message to a shard

One shard actor with its mailbox, and callers that send it writes, commits, drains and a shutdown in
any order; the work of a commit may fail, the writer may be closed, its indexers may give up or die
at any point.
Every message gets a ticket, and a ledger kept beside the actor says what has become of it. The
ledger is for the statement only: the actor does not see it.

* `TicketedShard.next` — one event.
* `Ledger.record` — the ledger's entry for a message the actor takes.
* `TicketedShard.Accounted` — every write is applied or reported or still kept for one of the two,
  the writer has what was applied, every commit is answered once, and a commit that answers success
  has every write before it. -/

namespace Lucivy.Sharded

open Lucivy.Foundation

variable {α : Type}

/-! ## Requests and their tickets -/

/-- What callers send to a shard. -/
inductive Request (α : Type) where
  | insert (doc : Document α)
  | delete (nodeId : Nat)
  | commit (fast : Bool)
  | drain
  | shutdown

/-- The message of a request; an answer goes back to its ticket. -/
def Request.message (ticket : Nat) : Request α → ShardMsg α
  | .insert doc => .insert doc
  | .delete nodeId => .delete nodeId
  | .commit fast => .commit fast ticket
  | .drain => .drain ticket
  | .shutdown => .shutdown ticket

def ShardMsg.isCommit : ShardMsg α → Bool
  | .commit _ _ => true
  | _ => false

def ShardMsg.isShutdown : ShardMsg α → Bool
  | .shutdown _ => true
  | _ => false

/-- The messages of callers that wait for an answer, with where it goes to. -/
def ShardMsg.replyTo : ShardMsg α → Option Reply
  | .commit _ reply => some reply
  | .drain reply => some reply
  | .shutdown reply => some reply
  | _ => none

/-- The messages by which a commit in flight goes on, with where it is answered. -/
def ShardMsg.continues : ShardMsg α → Option Reply
  | .indexersDrained _ reply => some reply
  | .flushDone _ reply => some reply
  | .commitDone _ reply => some reply
  | _ => none

/-- Where the commit is answered that waits for the work. -/
def Work.reply : Work → Reply
  | .drainIndexers _ reply => reply
  | .flushIndexers _ reply => reply
  | .finalize _ reply => reply

namespace ShardActor

/-- A write is applied: a delete needs a writer, a document one that takes it. -/
def appliesWrite (a : ShardActor α) : ShardMsg α → Bool
  | .insert _ => a.writer.any ShardWriter.takesDocuments
  | .delete _ => a.writer.isSome
  | _ => false

end ShardActor

/-! ## The ledger -/

/-- **What became of the messages taken**, by their tickets. -/
structure Ledger (α : Type) where
  /-- The next ticket to be taken, at the earliest. -/
  next : Nat
  /-- Inserts and deletes. -/
  writes : List Nat
  /-- Messages whose callers wait for an answer. -/
  requests : List Nat
  commits : List Nat
  waiting : List (Nat × ShardMsg α)
  /-- Writes not applied, for the next commit to report. -/
  lost : List Nat
  /-- Writes not applied, for the commit in flight to report. -/
  report : List Nat
  inFlight : Option Nat
  /-- Writes applied to the writer, in order. -/
  applied : List (Nat × ShardMsg α)
  /-- Writes reported as an error, and the commit that did. -/
  reported : List (Nat × Reply)

namespace Ledger

/-- Nothing yet. -/
def create : Ledger α := ⟨0, [], [], [], [], [], [], none, [], []⟩

/-- A message is taken. -/
def enter (l : Ledger α) (t : Nat) (m : ShardMsg α) : Ledger α :=
  { l with
    next := t + 1
    writes := if m.isWrite then l.writes ++ [t] else l.writes
    requests := if m.replyTo.isSome then l.requests ++ [t] else l.requests
    commits := if m.isCommit then l.commits ++ [t] else l.commits }

/-- A message handled with no commit in flight. -/
def execute (l : Ledger α) (a : ShardActor α) (t : Nat) (m : ShardMsg α) : Ledger α :=
  if m.isWrite then
    if a.appliesWrite m then { l with applied := l.applied ++ [(t, m)] }
    else { l with lost := l.lost ++ [t] }
  else if m.isCommit then
    if a.isReachable then { l with report := l.lost, lost := [], inFlight := some t }
    else { l with reported := l.reported ++ l.lost.map fun w => (w, t), lost := [] }
  else l

/-- The deferred messages, until one of them starts a commit. -/
def replay : List (Nat × ShardMsg α) → ShardActor α → Ledger α → Ledger α
  | [], _, l => { l with waiting := [] }
  | entry :: entries, a, l =>
    if a.commitInFlight then { l with waiting := entry :: entries }
    else replay entries (a.handleOpen entry.2).actor (l.execute a entry.1 entry.2)

/-- The commit in flight is answered, its report with it. -/
def settle (l : Ledger α) (reply : Reply) : Ledger α :=
  { l with
    reported := l.reported ++ l.report.map fun w => (w, reply)
    report := []
    inFlight := none }

/-- The commit in flight is over. -/
def endCommit (l : Ledger α) (a : ShardActor α) (reply : Reply) : Ledger α :=
  replay l.waiting { a with lostReport := none, commitInFlight := false } (l.settle reply)

/-- **The entry for a message the actor takes.** A shutdown forgets what is deferred. -/
def record (l : Ledger α) (a : ShardActor α) (t : Nat) (m : ShardMsg α) : Ledger α :=
  if a.commitInFlight && m.isDeferrable then
    { l.enter t m with waiting := l.waiting ++ [(t, m)] }
  else
    match m with
    | .indexersDrained _ reply => if a.isReachable then l else l.endCommit a reply
    | .flushDone _ _ => l
    | .commitDone _ reply => l.endCommit a reply
    | .shutdown reply => { l.enter t (.shutdown reply) with waiting := [] }
    | m => (l.enter t m).execute a t m

end Ledger

/-! ## The shard with its callers -/

/-- **A shard whose messages have tickets.** -/
structure TicketedShard (α : Type) where
  actor : ShardActor α
  /-- The mailbox, oldest first. -/
  mailbox : List (Nat × ShardMsg α)
  /-- The work the actor waits for. -/
  work : Option Work
  stopped : Bool
  nextTicket : Nat
  answers : List (Reply × CommitAnswer)
  ledger : Ledger α

/-- An event. -/
inductive ShardEvent (α : Type) where
  | sends (request : Request α)
  | takes
  /-- The work it waits for is done. -/
  | worked
  /-- The finalization task fails, before the commit or behind it. -/
  | fails (published : Bool)
  /-- The writer is closed (`LucivyHandle::close`). -/
  | closes
  /-- An indexer gives up on an error (`set_error`): the status is not alive any more. -/
  | givesUp
  /-- An indexer is gone, and its mailbox takes nothing. -/
  | dies

namespace TicketedShard

/-- A new shard. -/
def create : TicketedShard α := ⟨.create, [], none, false, 0, [], .create⟩

/-- A request arrives in the mailbox. -/
def receive (s : TicketedShard α) (request : Request α) : TicketedShard α :=
  { s with
    mailbox := s.mailbox ++ [(s.nextTicket, request.message s.nextTicket)]
    nextTicket := s.nextTicket + 1 }

/-- The actor handles a message. -/
def take (s : TicketedShard α) (t : Nat) (m : ShardMsg α) (rest : List (Nat × ShardMsg α)) :
    TicketedShard α :=
  { s with
    actor := (s.actor.handle m).actor
    mailbox := rest
    work := (s.actor.handle m).work.or s.work
    stopped := (s.actor.handle m).stop
    answers := s.answers ++ (s.actor.handle m).answers
    ledger := s.ledger.record s.actor t m }

/-- The work ends with a message, which leaves the actor like this. -/
def finish (s : TicketedShard α) (reply : Reply) (actor : ShardActor α) (m : ShardMsg α) :
    TicketedShard α :=
  { s with actor := actor, mailbox := s.mailbox ++ [(reply, m)], work := none }

/-- The work is done. -/
def finishWork (s : TicketedShard α) : Work → TicketedShard α
  | .drainIndexers fast reply => s.finish reply s.actor (.indexersDrained fast reply)
  | .flushIndexers fast reply => s.finish reply s.actor (.flushDone fast reply)
  | .finalize _ reply => s.finish reply s.actor.commitWriter (.commitDone (.ok ()) reply)

/-- The finalization task fails. -/
def failWork (s : TicketedShard α) (published : Bool) : Work → Option (TicketedShard α)
  | .finalize _ reply =>
    some (s.finish reply (if published then s.actor.commitWriter else s.actor)
      (.commitDone (.error .finalize) reply))
  | _ => none

/-- The writer changes behind the actor's back. -/
def setWriter (s : TicketedShard α) (writer : Option (ShardWriter α)) : TicketedShard α :=
  { s with actor := { s.actor with writer := writer } }

/-- **One event**, where it can happen. -/
def next (s : TicketedShard α) (e : ShardEvent α) : Option (TicketedShard α) :=
  if s.stopped then none
  else
    match e with
    | .sends request => some (s.receive request)
    | .takes => s.mailbox.head?.map fun entry => s.take entry.1 entry.2 s.mailbox.tail
    | .worked => s.work.map s.finishWork
    | .fails published => s.work.bind (s.failWork published)
    | .closes => some (s.setWriter none)
    | .givesUp => some (s.setWriter (s.actor.writer.map fun w => { w with alive := false }))
    | .dies => some (s.setWriter (s.actor.writer.map fun w => { w with reachable := false }))

/-- The events as a step relation. -/
def Step (s : TicketedShard α) (e : ShardEvent α) (t : TicketedShard α) : Prop := s.next e = some t

/-! ## Accounts -/

/-- Writes that are neither applied nor reported yet. -/
def pendingWrites (s : TicketedShard α) : List Nat :=
  s.ledger.lost ++ (s.ledger.report ++ (s.ledger.waiting.filter (·.2.isWrite)).map Prod.fst)

/-- Commits that are not answered yet. -/
def pendingCommits (s : TicketedShard α) : List Nat :=
  s.ledger.inFlight.toList ++ (s.ledger.waiting.filter (·.2.isCommit)).map Prod.fst

/-- The work and the messages by which the commit in flight goes on. -/
def continuations (s : TicketedShard α) : List Reply :=
  s.work.toList.map Work.reply ++ s.mailbox.filterMap fun entry => entry.2.continues

/-- **Nothing is dropped silently.** -/
structure Accounted (s : TicketedShard α) : Prop where
  /-- A write taken is applied, reported, or kept for one of the two. -/
  writes : ∀ t ∈ s.ledger.writes, (s.ledger.applied.map Prod.fst).count t +
    (s.ledger.reported.map Prod.fst).count t + s.pendingWrites.count t = 1
  /-- The writer has been given what was applied, in order, and nothing else. -/
  contents : ∀ w ∈ s.actor.writer,
    w.contents = (s.ledger.applied.map Prod.snd).foldl applyWrite []
  /-- A write reported is reported by an error that a caller got. -/
  reports : ∀ entry ∈ s.ledger.reported,
    ∃ error, (entry.2, .error error) ∈ s.answers ∧ error.lost.isSome = true
  /-- A commit taken is answered exactly once, unless it is in flight or deferred. -/
  commits : ∀ c ∈ s.ledger.commits, (s.answers.map Prod.fst).count c + s.pendingCommits.count c = 1
  /-- At the success of a commit every write before it is applied or reported. -/
  success : ∀ c ∈ s.ledger.commits, (c, .ok ()) ∈ s.answers → ∀ t ∈ s.ledger.writes, t < c →
    t ∈ s.ledger.applied.map Prod.fst ∨ t ∈ s.ledger.reported.map Prod.fst
  /-- What is deferred waits for a commit, and the commit in flight goes on. -/
  underWay : s.stopped = false → (s.ledger.inFlight = none → s.ledger.waiting = []) ∧
    s.continuations = s.ledger.inFlight.toList
  /-- At the end nothing is left. -/
  stopped : s.stopped = true → s.pendingWrites = [] ∧ s.pendingCommits = []

/-- **The shutdown comes to rest**: no commit is in flight, no lost write is yet to be reported. -/
def closesInOrder (s : TicketedShard α) : ShardEvent α → Bool
  | .takes => s.mailbox.head?.all fun entry =>
    !entry.2.isShutdown || (!s.actor.commitInFlight && s.actor.lost.isEmpty)
  | _ => true

/-- The events, with shutdowns that come to rest. -/
def StepInOrder (s : TicketedShard α) (e : ShardEvent α) (t : TicketedShard α) : Prop :=
  Guarded Step (fun s e => s.closesInOrder e = true) s e t

end TicketedShard

end Lucivy.Sharded
