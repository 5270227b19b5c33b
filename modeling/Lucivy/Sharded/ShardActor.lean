import Lucivy.Sharded.ShardWriter

/-! # The actor of a shard

`ShardActor` (`sharded_handle.rs`): one mailbox, handled in order. A commit goes through four
messages — the request, the indexers drained, the indexers flushed, the commit done — and while
it is in flight every message that writes, commits or drains is deferred; when it ends the
deferred messages are handled ahead of the mailbox. A write that could not be applied is kept
and reported by the next commit.

`Search` is not modelled: it reads only. Texts of errors stand as constructors.

* `ShardActor.handle` — one message.
* `Shard` — the actor with its mailbox and the work it waits for.
* `handle_drain`, `handle_flushDone` — what a message does while the writer is alive. -/

namespace Lucivy.Sharded

variable {α : Type}

/-- Whom an answer goes to (`luciole::Reply`). -/
abbrev Reply := Nat

/-- An entry of `lost`. -/
inductive LostWrite
  | refused
  /-- A document dropped, the shard has no writer. -/
  | dropped
  /-- A delete skipped, the shard has no writer. -/
  | skipped
deriving DecidableEq, Repr

/-- What `take_lost_report` says: how many, and the first three. -/
structure LostReport where
  /-- How many writes were not applied. -/
  count : Nat
  /-- The first three of them. -/
  first : List LostWrite
deriving DecidableEq, Repr

/-- Where a commit stopped. -/
inductive CommitStage
  /-- `drain_workers`. -/
  | drain
  /-- `flush_workers`. -/
  | flush
  /-- The finalization task. -/
  | finalize
  /-- The shard shut down with the commit deferred. -/
  | shutdown
deriving DecidableEq, Repr

/-- The error a commit answers. -/
structure CommitError where
  /-- Where it stopped, if it did. -/
  stage : Option CommitStage
  lost : Option LostReport
deriving DecidableEq, Repr

abbrev CommitAnswer := Except CommitError Unit

/-- `commit_result`: lost writes turn the answer of a commit into an error. -/
def commitResult (result : Except CommitStage Unit) (lost : Option LostReport) : CommitAnswer :=
  match result, lost with
  | .ok (), none => .ok ()
  | .ok (), some report => .error ⟨none, some report⟩
  | .error stage, lost => .error ⟨some stage, lost⟩

inductive ShardMsg (α : Type)
  | insert (doc : Document α)
  | delete (nodeId : Nat)
  | commit (fast : Bool) (reply : Reply)
  /-- Every indexer has handled its documents. -/
  | indexersDrained (fast : Bool) (reply : Reply)
  /-- Every indexer has flushed its segment. -/
  | flushDone (fast : Bool) (reply : Reply)
  /-- The finalization task is over. -/
  | commitDone (result : Except CommitStage Unit) (reply : Reply)
  /-- Acknowledged once everything before it is handled. -/
  | drain (reply : Reply)
  | shutdown (reply : Reply)

/-- The messages a commit in flight defers. -/
def ShardMsg.isDeferrable : ShardMsg α → Bool
  | .insert _ | .delete _ | .commit _ _ | .drain _ => true
  | _ => false

/-- The messages that write. -/
def ShardMsg.isWrite : ShardMsg α → Bool
  | .insert _ | .delete _ => true
  | _ => false

structure ShardActor (α : Type) where
  /-- The writer behind its lock; none once the handle is closed or a delta was refused. -/
  writer : Option (ShardWriter α)
  /-- The documents of the committed segments, while there is no writer. -/
  left : List (Document α)
  commitInFlight : Bool
  deferred : List (ShardMsg α)
  lost : List LostWrite
  lostReport : Option LostReport

/-- Work the actor started and waits for; its end comes back as a message. -/
inductive Work
  | drainIndexers (fast : Bool) (reply : Reply)
  | flushIndexers (fast : Bool) (reply : Reply)
  | finalize (fast : Bool) (reply : Reply)
deriving DecidableEq, Repr

/-- What handling a message leads to. -/
structure Reaction (α : Type) where
  actor : ShardActor α
  answers : List (Reply × CommitAnswer)
  work : Option Work
  /-- `ActorStatus::Stop`. -/
  stop : Bool

namespace ShardActor

/-- The actor of a new shard. -/
def create : ShardActor α := ⟨some .create, [], false, [], [], none⟩

/-- `take_lost_report`; the actor's list is emptied with it. -/
def takeLostReport (a : ShardActor α) : Option LostReport :=
  if a.lost = [] then none else some ⟨a.lost.length, a.lost.take 3⟩

/-- The actor alone, nothing sent. -/
def quietly (a : ShardActor α) : Reaction α := ⟨a, [], none, false⟩

/-- The messages that can be deferred, handled with no commit in flight. -/
def handleOpen (a : ShardActor α) : ShardMsg α → Reaction α
  | .insert doc =>
    match a.writer with
    | some w =>
      if w.takesDocuments then { a with writer := some (w.addDocument doc) }.quietly
      else { a with lost := a.lost ++ [LostWrite.refused] }.quietly
    | none => { a with lost := a.lost ++ [LostWrite.dropped] }.quietly
  | .delete nodeId =>
    match a.writer with
    | some w => { a with writer := some (w.deleteTerm nodeId) }.quietly
    | none => { a with lost := a.lost ++ [LostWrite.skipped] }.quietly
  | .commit fast reply =>
    match a.writer with
    | none => ⟨{ a with lost := [] }, [(reply, commitResult (.ok ()) a.takeLostReport)],
        none, false⟩
    | some w =>
      if w.reachable then
        ⟨{ a with lost := [], lostReport := a.takeLostReport, commitInFlight := true }, [],
          some (.drainIndexers fast reply), false⟩
      else
        ⟨{ a with lost := [] }, [(reply, commitResult (.error .drain) a.takeLostReport)], none,
          false⟩
  | .drain reply => ⟨a, [(reply, .ok ())], none, false⟩
  | _ => a.quietly

theorem deferred_handleOpen {a : ShardActor α} {m : ShardMsg α} :
    (a.handleOpen m).actor.deferred = a.deferred := by
  unfold handleOpen
  repeat' split
  all_goals rfl

/-- The loop of `finish_commit`: deferred messages in their order, until one of them starts a
commit. -/
def runDeferred : List (ShardMsg α) → Reaction α → Reaction α
  | [], r => { r with actor := { r.actor with deferred := [] } }
  | m :: ms, r =>
    if r.actor.commitInFlight then { r with actor := { r.actor with deferred := m :: ms } }
    else
      let r' := r.actor.handleOpen m
      runDeferred ms ⟨r'.actor, r.answers ++ r'.answers, r.work.or r'.work, r.stop || r'.stop⟩

/-- The commit in flight is over: it is answered, and `finish_commit` runs. -/
def endCommit (a : ShardActor α) (result : Except CommitStage Unit) (reply : Reply) : Reaction α :=
  runDeferred a.deferred
    ⟨{ a with lostReport := none, commitInFlight := false },
      [(reply, commitResult result a.lostReport)], none, false⟩

/-- The answers of a shutdown to what is deferred. -/
def answerShutdown : ShardMsg α → Option (Reply × CommitAnswer)
  | .commit _ reply => some (reply, .error ⟨some .shutdown, none⟩)
  | .drain reply => some (reply, .ok ())
  | _ => none

def handle (a : ShardActor α) (m : ShardMsg α) : Reaction α :=
  if a.commitInFlight && m.isDeferrable then { a with deferred := a.deferred ++ [m] }.quietly
  else
    match m with
    | .indexersDrained fast reply =>
      match a.writer with
      | none => a.endCommit (.ok ()) reply
      | some w =>
        if w.reachable then ⟨a, [], some (.flushIndexers fast reply), false⟩
        else a.endCommit (.error .flush) reply
    | .flushDone fast reply => ⟨a, [], some (.finalize fast reply), false⟩
    | .commitDone result reply => a.endCommit result reply
    | .shutdown reply =>
      ⟨{ a with deferred := [] }, a.deferred.filterMap answerShutdown ++ [(reply, .ok ())], none,
        true⟩
    | m => a.handleOpen m

/-- The documents of the committed segments. -/
def committed (a : ShardActor α) : List (Document α) := a.writer.elim a.left ShardWriter.committed

/-- What a commit would publish if it ran now. -/
def contents (a : ShardActor α) : List (Document α) := a.writer.elim [] ShardWriter.contents

/-- The writer commits: its indexers can be drained and flushed. -/
def isReachable (a : ShardActor α) : Bool := a.writer.any ShardWriter.reachable

/-- The finalization task commits the writer. -/
def commitWriter (a : ShardActor α) : ShardActor α :=
  { a with writer := a.writer.map ShardWriter.commit }

end ShardActor

/-! ## The actor with its mailbox -/

/-- **A shard**: its actor, what waits in its mailbox, the work it waits for. -/
structure Shard (α : Type) where
  actor : ShardActor α
  /-- The mailbox, oldest first. -/
  mailbox : List (ShardMsg α)
  /-- The work started and not done. -/
  work : Option Work

namespace Shard

/-- A new shard. -/
def create : Shard α := ⟨.create, [], none⟩

/-- What the shard has still to handle, in order. -/
def queue (k : Shard α) : List (ShardMsg α) := k.actor.deferred ++ k.mailbox

/-- The shard as a message leaves it. -/
def after (s : Shard α) (r : Reaction α) (rest : List (ShardMsg α)) : Shard α :=
  ⟨r.actor, rest, r.work.or s.work⟩

/-- The work is done: its message is sent. -/
def finishWork (s : Shard α) : Work → Shard α
  | .drainIndexers fast reply => ⟨s.actor, s.mailbox ++ [.indexersDrained fast reply], none⟩
  | .flushIndexers fast reply => ⟨s.actor, s.mailbox ++ [.flushDone fast reply], none⟩
  | .finalize _ reply => ⟨s.actor.commitWriter, s.mailbox ++ [.commitDone (.ok ()) reply], none⟩

end Shard

/-! ## An actor in service -/

/-- What a write does to the documents of a shard. -/
def applyWrite (docs : List (Document α)) : ShardMsg α → List (Document α)
  | .insert doc => docs ++ [doc]
  | .delete nodeId => docs.filter (·.nodeId ≠ nodeId)
  | _ => docs

namespace ShardActor

/-- **An actor in service**: a writer that takes everything, no lost write, nothing deferred. -/
structure Healthy (a : ShardActor α) : Prop where
  /-- The writer is there, takes documents and commits. -/
  writer : ∃ w, a.writer = some w ∧ w.takesDocuments = true ∧ w.reachable = true
  deferred : a.deferred = []
  lost : a.lost = []
  lostReport : a.lostReport = none

theorem healthy_create : (create : ShardActor α).Healthy :=
  ⟨⟨.create, rfl, rfl, rfl⟩, rfl, rfl, rfl⟩

variable {a : ShardActor α}

/-- **Writes.** With no commit in flight a write is applied at once and answers nothing. -/
theorem Healthy.handle_write (h : a.Healthy) (hflight : a.commitInFlight = false)
    {m : ShardMsg α} (hm : m.isWrite = true) :
    ∃ b : ShardActor α, a.handle m = b.quietly ∧ b.Healthy ∧ b.commitInFlight = false ∧
      b.contents = applyWrite a.contents m ∧ b.committed = a.committed := by
  obtain ⟨w, hw, htakes⟩ := h.writer
  have hclosed : (a.commitInFlight && m.isDeferrable) = false := by rw [hflight]; rfl
  cases m with
  | insert doc =>
    refine ⟨{ a with writer := some (w.addDocument doc) }, ?_,
      ⟨⟨_, rfl, htakes⟩, h.deferred, h.lost, h.lostReport⟩, hflight, ?_, ?_⟩
    · simp [handle, hclosed, handleOpen, hw, htakes]
    · simp only [contents, hw]
      exact w.contents_addDocument doc
    · simp only [committed, hw]
      rfl
  | delete nodeId =>
    refine ⟨{ a with writer := some (w.deleteTerm nodeId) }, ?_,
      ⟨⟨_, rfl, htakes⟩, h.deferred, h.lost, h.lostReport⟩, hflight, ?_, ?_⟩
    · simp [handle, hclosed, handleOpen, hw]
    · simp only [contents, hw]
      exact w.contents_deleteTerm nodeId
    · simp only [committed, hw]
      rfl
  | commit _ _ | indexersDrained _ _ | flushDone _ _ | commitDone _ _ | drain _ | shutdown _ =>
    exact absurd hm Bool.false_ne_true

/-- A drain with no commit in flight is acknowledged and changes nothing. -/
theorem handle_drain (hflight : a.commitInFlight = false) (reply : Reply) :
    a.handle (.drain reply) = ⟨a, [(reply, .ok ())], none, false⟩ := by
  simp [handle, hflight, handleOpen]

/-- A commit starts by draining the indexers. -/
theorem Healthy.handle_commit (h : a.Healthy) (hflight : a.commitInFlight = false) (fast : Bool)
    (reply : Reply) :
    a.handle (.commit fast reply) =
      ⟨{ a with commitInFlight := true }, [], some (.drainIndexers fast reply), false⟩ := by
  obtain ⟨w, hw, -, hreachable⟩ := h.writer
  have hlost := h.lost
  have hreport := h.lostReport
  obtain ⟨writer, left, inFlight, deferred, lost, lostReport⟩ := a
  subst hw hlost hreport hflight
  simp [handle, handleOpen, takeLostReport, hreachable]

/-- Then it flushes them. -/
theorem Healthy.handle_indexersDrained (h : a.Healthy) (fast : Bool) (reply : Reply) :
    a.handle (.indexersDrained fast reply) = ⟨a, [], some (.flushIndexers fast reply), false⟩ := by
  obtain ⟨w, hw, -, hreachable⟩ := h.writer
  simp [handle, ShardMsg.isDeferrable, hw, hreachable]

/-- Then the finalization task starts. -/
theorem handle_flushDone (fast : Bool) (reply : Reply) :
    a.handle (.flushDone fast reply) = ⟨a, [], some (.finalize fast reply), false⟩ := by
  simp [handle, ShardMsg.isDeferrable]

/-- And the commit is answered. -/
theorem Healthy.handle_commitDone (h : a.Healthy) (reply : Reply) :
    a.handle (.commitDone (.ok ()) reply) =
      ⟨{ a with commitInFlight := false }, [(reply, .ok ())], none, false⟩ := by
  have hdeferred := h.deferred
  have hreport := h.lostReport
  obtain ⟨writer, left, inFlight, deferred, lost, lostReport⟩ := a
  subst hdeferred hreport
  simp [handle, ShardMsg.isDeferrable, endCommit, runDeferred, commitResult]

/-- Whether a commit is in flight says nothing about the rest. -/
theorem Healthy.setInFlight (h : a.Healthy) (b : Bool) :
    ({ a with commitInFlight := b } : ShardActor α).Healthy :=
  ⟨h.writer, h.deferred, h.lost, h.lostReport⟩

/-- The finalization task publishes what there is. -/
theorem Healthy.commitWriter (h : a.Healthy) :
    a.commitWriter.Healthy ∧ a.commitWriter.contents = a.contents ∧
      a.commitWriter.committed = a.contents := by
  obtain ⟨w, hw, htakes⟩ := h.writer
  have hw' : a.commitWriter.writer = some w.commit := by simp [ShardActor.commitWriter, hw]
  refine ⟨⟨⟨_, hw', htakes⟩, h.deferred, h.lost, h.lostReport⟩, ?_, ?_⟩
  · rw [contents, contents, hw', hw]
    exact w.contents_commit
  · rw [committed, contents, hw', hw]
    rfl

end ShardActor

end Lucivy.Sharded
