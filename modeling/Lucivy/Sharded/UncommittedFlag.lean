import Lucivy.Sharded.IndexHistory

/-! # The uncommitted flag

`has_uncommitted` of a shard: an export refuses while it is up. `add_document` and
`delete_by_node_id` raise it for every shard when they are called, a shard actor raises its own when
it writes; `add_documents` and `add_document_with_hashes` raise nothing. The finalization of a
commit lowers the flag of its shard behind the commit, whatever was accepted since.

* `FlaggedService` — the handle with its callers, and the flags.
* `Waits` — a change that concerns a shard is accepted and not published.
* `tells_iff_timely` — **the flags tell of every such change exactly as long as the calls that mark
  nothing find the flags up and no commit ends with a change behind it**. -/

namespace Lucivy.Sharded

open Lucivy.Foundation List ShardActor ShardedHandle Function

variable {α : Type}

/-! ## The flags -/

namespace ShardActor

/-- A write marks the shard if there is a writer, which may refuse it. -/
def marks (a : ShardActor α) (m : ShardMsg α) : Bool := m.isWrite && a.writer.isSome

/-- The loop of `finish_commit` marks the shard. -/
def marksDeferred : List (ShardMsg α) → ShardActor α → Bool
  | [], _ => false
  | m :: ms, a => !a.commitInFlight && (a.marks m || marksDeferred ms (a.handleOpen m).actor)

/-- `handle` marks the shard. -/
def marksHandling (a : ShardActor α) (m : ShardMsg α) : Bool :=
  let atEnd := marksDeferred a.deferred { a with lostReport := none, commitInFlight := false }
  if a.commitInFlight && m.isDeferrable then false
  else
    match m with
    | .indexersDrained _ _ => !a.isReachable && atEnd
    | .commitDone _ _ => atEnd
    | m => a.marks m

/-- The writer has changes that no commit has published. -/
def isDirty (a : ShardActor α) : Bool :=
  a.writer.any fun w => !w.adds.isEmpty || !w.deleteQueue.isEmpty

end ShardActor

/-- The finalization task of a commit. -/
def Work.isFinalize : Work → Bool
  | .finalize _ _ => true
  | _ => false

/-- **A handle with its callers and the flags of its shards.** -/
structure FlaggedService (α : Type) where
  service : Service α
  uncommitted : Nat → Bool

/-- An event. -/
inductive FlagEvent (α : Type)
  | service (e : ServiceEvent α)
  /-- A finalization task fails, before the commit or behind it. -/
  | fails (j : Nat) (published : Bool)

/-- The message carries a change, which may concern the shard. -/
def Send.Concerns (j : Nat) : Send α → Prop
  | .reader _ m => m.docs ≠ []
  | .router m => m.docs ≠ []
  | .shard i m => i = j ∧ m.isWrite = true

/-- A call has taken a change for the shard and has still to send it. -/
def Outgoing (s : Service α) (j : Nat) : Prop := ∃ c, ∃ m ∈ (s.threads c).outbox, m.Concerns j

/-- A change is with a reader or the router. -/
def InTransit (h : ShardedHandle α) : Prop :=
  (∃ i, (h.readers i).inHand ++ (h.readers i).mailbox.flatMap ReaderMsg.docs ≠ []) ∨
    h.router.inHand.isSome = true ∨ h.router.mailbox.flatMap RouterMsg.docs ≠ []

/-- A change is on its way to the shard, or the shard has still to handle it. -/
def Unhandled (s : Service α) (j : Nat) : Prop :=
  Outgoing s j ∨ InTransit s.handle ∨ ∃ m ∈ (s.handle.shards j).queue, m.isWrite = true

/-- **A change that concerns the shard is accepted and not published.** -/
def Waits (s : Service α) (j : Nat) : Prop :=
  Outgoing s j ∨ InTransit s.handle ∨
    (s.handle.shards j).Keeps (·.isDirty = true) (·.isWrite = true)

namespace FlaggedService

/-- A new index. -/
def create : FlaggedService α := ⟨.create, fun _ => false⟩

variable (s : FlaggedService α)

def shard (j : Nat) : Shard α := s.service.handle.shards j

/-- `mark_uncommitted`. -/
def raises (j : Nat) : FlagEvent α → Bool
  | .service (.addDocument _ _) | .service (.deleteByNodeId _ _) => true
  | .service (.shardTakes i) =>
    i == j && (s.shard i).mailbox.head?.any (s.shard i).actor.marksHandling
  | _ => false

/-- `mark_committed`. -/
def lowers (j : Nat) : FlagEvent α → Bool
  | .service (.shardWorked i) => i == j && (s.shard i).work.any Work.isFinalize
  | .fails i published => i == j && published
  | _ => false

/-- The handle after an event over `n` shards, where it can happen. -/
def nextService (n : Nat) : FlagEvent α → Option (Service α)
  | .service e => s.service.next n e
  | .fails j published =>
    match decide (j < n), (s.shard j).work with
    | true, some (.finalize _ reply) =>
      some (s.service.afterActor [] (s.service.handle.setShard j
        ⟨if published then (s.shard j).actor.commitWriter else (s.shard j).actor,
          (s.shard j).mailbox ++ [.commitDone (.error .finalize) reply], none⟩))
    | _, _ => none

/-- **One event**: the handle and the flags. -/
def next (n : Nat) (e : FlagEvent α) : Option (FlaggedService α) :=
  (s.nextService n e).map fun t => ⟨t, fun j => !s.lowers j e && (s.uncommitted j || s.raises j e)⟩

/-- The events as a step relation. -/
def Step (n : Nat) (s : FlaggedService α) (e : FlagEvent α) (t : FlaggedService α) : Prop :=
  s.next n e = some t

/-- **The flag is up while a change waits.** -/
def Tells (n : Nat) : Prop := ∀ j < n, Waits s.service j → s.uncommitted j = true

/-- The call takes a change that may concern the shard, and marks nothing: `add_documents`, and
`add_document_with_hashes`. -/
def TakesUnmarked (j : Nat) : FlagEvent α → Prop
  | .service (.addDocuments _ docs) => docs ≠ []
  | .service (.addWithHashes _ _ shard) => shard = j
  | _ => False

/-- **In time**: a call that marks nothing finds the flags up, and a flag is lowered with nothing
behind it. -/
def Timely (n : Nat) (s : FlaggedService α) (e : FlagEvent α) : Prop :=
  (∀ j < n, TakesUnmarked j e → s.uncommitted j = true) ∧
    ∀ j, s.lowers j e = true → ¬ Unhandled s.service j

end FlaggedService

/-! ## Where changes come from -/

theorem traced_isDirty : Traced (α := α) (·.isDirty = true) (·.isWrite = true) where
  handleOpen {a m} h := by
    cases m with
    | insert _ | delete _ => exact .inr rfl
    | commit fast reply =>
      -- a commit, taken up or refused, leaves the writer as it is
      simp only [handleOpen] at h
      repeat' split at h
      all_goals exact .inl h
    | _ => exact .inl h
  writer hd h _ := by rwa [isDirty, ← h]
  commitWriter {a} h := by
    cases hw : a.writer <;> simp [isDirty, commitWriter, hw, ShardWriter.commit] at h
  write h := h

variable {handle : ShardedHandle α} {j : Nat}

/-- A message arrives: a change behind the calls was there before, or is its own. -/
theorem InTransit.of_deliver {m : Send α} (h : InTransit (handle.deliver m)) :
    InTransit handle ∨ m.Concerns j := by
  cases m with
  | reader i m =>
    rcases h with ⟨k, hk⟩ | hrouter
    · by_cases hm : m.docs = []
      · refine .inl (.inl ⟨k, ?_⟩)
        rcases eq_or_ne k i with rfl | hki
        · simpa [deliver, hm] using hk
        · simpa [deliver, setReader, hki] using hk
      · exact .inr hm
    · exact .inl (.inr hrouter)
  | router m =>
    by_cases hm : m.docs = []
    · exact .inl (by simpa [InTransit, deliver, hm] using h)
    · exact .inr hm
  | shard i m => exact .inl h

section Outgoing

variable {s t : Service α} {n c : Nat}

/-- What a thread has to send may be new, the other threads have what they had. -/
theorem Outgoing.of_update (h : Outgoing t j) {thread : Thread α}
    (hthreads : t.threads = update s.threads c thread) :
    Outgoing s j ∨ ∃ m ∈ thread.outbox, m.Concerns j := by
  obtain ⟨d, m, hm, hconcerns⟩ := h
  rw [hthreads] at hm
  rcases eq_or_ne d c with rfl | hdc
  · rw [update_self] at hm
    exact .inr ⟨m, hm, hconcerns⟩
  · rw [update_of_ne hdc] at hm
    exact .inl ⟨d, m, hm, hconcerns⟩

/-- A thread that starts to send a change has it to send. -/
theorem outgoing_setThread {out : List (Send α)} {m : Send α} (hm : m ∈ out)
    (hconcerns : m.Concerns j) : Outgoing (s.setThread c (.sending out)) j := by
  refine ⟨c, m, ?_, hconcerns⟩
  simpa [Service.setThread, Thread.outbox] using hm

/-- No request of a commit is a change. -/
theorem not_concerns_request {call : Nat} {fast : Bool} {p : Purpose} :
    ¬ (request call fast p : Send α).Concerns j := by
  cases p <;> simp [request, Send.Concerns, ReaderMsg.docs, RouterMsg.docs, ShardMsg.isWrite]

/-- A batch that is not empty is sent to some reader. -/
theorem concerns_batchSends {docs : List (Document α)} :
    (∃ m ∈ Service.batchSends n docs, m.Concerns j) ↔ docs ≠ [] := by
  constructor
  · rintro ⟨m, hm, -⟩ rfl
    simp [Service.batchSends, Service.batchFor] at hm
  · intro hdocs
    obtain ⟨doc, rest, rfl⟩ := exists_cons_of_ne_nil hdocs
    -- the first document goes to the first reader
    have hbatch : Service.batchFor (numReaders n) 0 (doc :: rest) ≠ [] := by
      simp [Service.batchFor, zipIdx_cons]
    refine ⟨.reader 0 (.batch (Service.batchFor (numReaders n) 0 (doc :: rest))), ?_, hbatch⟩
    refine mem_filterMap.mpr ⟨0, mem_range.mpr ?_, ?_⟩
    · exact Nat.lt_of_lt_of_le Nat.two_pos (Nat.le_max_right n 2)
    · rw [if_neg (by simpa using hbatch)]

end Outgoing

/-- A finalization that has published leaves what was behind the commit. -/
theorem waits_published {s u : Service α} {m : ShardMsg α} (hm : m.isWrite = false)
    (hthreads : u.threads = s.threads) (hhandle : u.handle = s.handle.setShard j
      ⟨(s.handle.shards j).actor.commitWriter, (s.handle.shards j).mailbox ++ [m], none⟩) :
    Waits u j ↔ Unhandled s j := by
  have hclean : ¬ (s.handle.shards j).actor.commitWriter.isDirty = true := by
    cases hw : (s.handle.shards j).actor.writer <;>
      simp [isDirty, commitWriter, hw, ShardWriter.commit]
  -- the writer is empty behind the commit: only the mailbox is left to look at
  rw [Waits, Outgoing, hthreads, hhandle, Shard.Keeps, shards_setShard_self, or_iff_left hclean,
    Unhandled]
  simp only [Shard.queue, mem_append, mem_singleton, or_and_right, exists_or, exists_eq_left, hm,
    Bool.false_eq_true, or_false]
  rfl

/-- The call takes a change that may concern the shard. -/
def Takes (j : Nat) : ServiceEvent α → Prop
  | .addDocument _ _ => True
  | .addDocuments _ docs => docs ≠ []
  | .addWithHashes _ _ shard => shard = j
  | .deleteByNodeId _ _ => True
  | _ => False

section Back

variable {n : Nat} {s t : Service α} {e : ServiceEvent α}

/-- **A change to be sent was so before, unless a call takes it just now.** -/
theorem Outgoing.back (hstep : s.next n e = some t) (h : Outgoing t j) :
    Outgoing s j ∨ Takes j e := by
  cases Service.does_of_next hstep with
  | addDocument | deleteByNodeId => exact .inr trivial
  | @addDocuments c docs =>
    rcases h.of_update (s := s) rfl with hold | hnew
    · exact .inl hold
    · exact .inr (concerns_batchSends.mp hnew)
  | @addWithHashes c doc shard =>
    rcases h.of_update (s := s) rfl with hold | ⟨m, hm, hconcerns⟩
    · exact .inl hold
    · rw [mem_singleton.mp hm] at hconcerns
      exact .inr hconcerns.1
  | commit | proceeds =>
    rcases h.of_update (s := s) rfl with hold | ⟨m, hm, hconcerns⟩
    · exact .inl hold
    · obtain ⟨p, -, rfl⟩ := mem_map.mp hm
      exact absurd hconcerns not_concerns_request
  | @sends c m hhead =>
    rcases h.of_update (s := s) rfl with hold | ⟨m', hm', hconcerns⟩
    · exact .inl hold
    · have htail : (s.threads c).sent.outbox = (s.threads c).outbox.tail := by
        cases s.threads c <;> rfl
      exact .inl ⟨c, m', mem_of_mem_tail (htail ▸ hm'), hconcerns⟩
  | commitDirect | returns | commitReturns | looks | looksAgain | looksDone | publishes
  | directReturns =>
    rcases h.of_update (s := s) rfl with hold | ⟨m, hm, -⟩
    · exact .inl hold
    · cases hm
  -- an actor does not touch the threads
  | readerTakes | readerSends | routerTakes | routerSends | shardTakes | shardWorked => exact .inl h

/-- A change behind the calls was there before, unless it was sent just now. -/
theorem arrived_back (hstep : s.next n e = some t)
    (h : InTransit t.handle ∨ (t.handle.shards j).Keeps (·.isDirty = true) (·.isWrite = true)) :
    Waits s j := by
  cases Service.does_of_next hstep with
  | @sends c m hhead =>
    have hout : m.Concerns j → Waits s j := fun hm => .inl ⟨c, m, mem_of_mem_head? hhead, hm⟩
    rcases h with htransit | hkeeps
    · rcases htransit.of_deliver with hold | hm
      · exact .inr (.inl hold)
      · exact hout hm
    · rcases hkeeps.of_deliver with hold | ⟨m', rfl, hm'⟩
      · exact .inr (.inr hold)
      · exact hout ⟨rfl, hm'⟩
  | publishes => exact .inr (h.imp_right fun hk => hk.of_setShard traced_isDirty.commit)
  | @readerTakes i _ hmove =>
    obtain ⟨hhand, m, rest, hmail, rfl⟩ := readerTakes_cases hmove
    rcases h with (⟨k, hk⟩ | hrouter) | hkeeps
    · refine .inr (.inl (.inl ⟨k, ?_⟩))
      rcases eq_or_ne k i with rfl | hki
      · simpa [Service.afterActor, setCaller, hhand, hmail] using hk
      · simpa [Service.afterActor, setReader, setCaller, hki] using hk
    · exact .inr (.inl (.inr hrouter))
    · exact .inr (.inr hkeeps)
  | readerSends hmove =>
    obtain ⟨d, docs, hhand, rfl⟩ := readerSends_cases hmove
    exact .inr (.inl (.inl ⟨_, by rw [hhand]; exact cons_ne_nil _ _⟩))
  | routerTakes _ hmove =>
    obtain ⟨hhand, m, rest, hmail, rfl⟩ := routerTakes_cases hmove
    rcases h with (hreaders | hrouter) | hkeeps
    · exact .inr (.inl (.inl hreaders))
    · refine .inr (.inl (.inr (.inr ?_)))
      rw [hmail]
      cases m with
      | route d => simp [RouterMsg.docs]
      | drain r =>
        simpa [Service.afterActor, setCaller, RouterMsg.inHand, RouterMsg.docs] using hrouter
    · exact .inr (.inr hkeeps)
  | routerSends hmove =>
    obtain ⟨d, shard, hhand, rfl⟩ := routerSends_cases hmove
    exact .inr (.inl (.inr (.inl (by rw [hhand]; rfl))))
  | shardTakes hmove =>
    obtain ⟨m, rest, hmail, rfl⟩ := shardTakes_cases hmove
    exact .inr (h.imp_right fun hk => hk.of_setShard (traced_isDirty.take hmail))
  | shardWorked hmove =>
    obtain ⟨w, -, rfl⟩ := Option.map_eq_some_iff.mp hmove
    exact .inr (h.imp_right fun hk => hk.of_setShard traced_isDirty.finishWork)
  -- a call fills the caller's outbox and no mailbox
  | _ => exact .inr h

/-- **A change that waits did before, unless a call takes it just now.** -/
theorem Waits.back (hstep : s.next n e = some t) (h : Waits t j) : Waits s j ∨ Takes j e := by
  rcases h with hout | harrived
  · exact (hout.back hstep).imp_left .inl
  · exact .inl (arrived_back hstep harrived)

end Back

/-! ## Runs -/

namespace FlaggedService

variable {n : Nat} {s t : FlaggedService α} {u : Service α} {e : FlagEvent α}

/-- A failed finalization leaves a message that is no write. -/
theorem fails_cases {i : Nat} {published : Bool}
    (h : s.nextService n (.fails i published) = some u) :
    i < n ∧ u.threads = s.service.threads ∧ ∃ m : ShardMsg α, m.isWrite = false ∧
      u.handle = s.service.handle.setShard i
        ⟨if published then (s.shard i).actor.commitWriter else (s.shard i).actor,
          (s.shard i).mailbox ++ [m], none⟩ := by
  rw [nextService] at h
  split at h
  · next hlt _ =>
    cases h
    exact ⟨of_decide_eq_true hlt, rfl, _, rfl, rfl⟩
  · cases h

/-- A flag is lowered by a finalization that has published. -/
theorem lowers_cases (hlow : s.lowers j e = true) (h : s.nextService n e = some u) :
    j < n ∧ (Waits u j ↔ Unhandled s.service j) := by
  cases e with
  | service e =>
    cases e with
    | shardWorked i =>
      obtain ⟨hij, hwork⟩ := Bool.and_eq_true_iff.mp hlow
      obtain rfl := beq_iff_eq.mp hij
      obtain ⟨hlt, h⟩ := Option.ite_none_right_eq_some.mp h
      obtain ⟨handle, hmove, rfl⟩ := Option.map_eq_some_iff.mp h
      obtain ⟨w, hw, rfl⟩ := Option.map_eq_some_iff.mp hmove
      cases w with
      | finalize fast reply => exact ⟨hlt, waits_published rfl rfl rfl⟩
      | _ => simp [shard, hw, Work.isFinalize] at hwork
    | _ => cases hlow
  | fails i published =>
    obtain ⟨hij, rfl⟩ := Bool.and_eq_true_iff.mp hlow
    obtain rfl := beq_iff_eq.mp hij
    obtain ⟨hlt, hthreads, m, hm, hu⟩ := fails_cases h
    exact ⟨hlt, waits_published hm hthreads hu⟩

/-- A change that waits did before, or a call takes it. -/
theorem waits_back (h : s.nextService n e = some u) (hw : Waits u j) :
    Waits s.service j ∨ ∃ call, e = .service call ∧ Takes j call := by
  cases e with
  | service call => exact (hw.back h).imp_right fun htakes => ⟨call, rfl, htakes⟩
  | fails i published =>
    obtain ⟨-, hthreads, m, hm, hhandle⟩ := fails_cases h
    rw [Waits, Outgoing, hthreads, hhandle] at hw
    refine .inl (hw.imp_right (Or.imp_right fun hk => hk.of_setShard (traced_isDirty.finish hm ?_)))
    cases published
    · exact .inl rfl
    · exact .inr rfl

/-- **A call that takes a change marks every shard, or is one of those that mark nothing.** -/
theorem raises_of_takes {call : ServiceEvent α} (h : Takes j call) :
    s.raises j (.service call) = true ∨ TakesUnmarked j (.service call) := by
  cases call with
  | addDocument _ _ | deleteByNodeId _ _ => exact .inl rfl
  | addDocuments _ _ | addWithHashes _ _ _ => exact .inr h
  | _ => exact h.elim

/-- What a call takes waits behind it, and its flag is as it was if the call marks nothing. -/
theorem waits_of_takesUnmarked (hstep : s.Step n e t) (h : TakesUnmarked j e) :
    Waits t.service j ∧ t.uncommitted j = s.uncommitted j := by
  obtain ⟨u, hu, rfl⟩ := Option.map_eq_some_iff.mp hstep
  cases e with
  | fails _ _ => exact h.elim
  | service call =>
    cases call with
    | addDocuments c docs =>
      obtain ⟨m, hm, hconcerns⟩ := (concerns_batchSends (n := n) (j := j)).mpr h
      have hnext : s.service.next n (.addDocuments c docs) = some u := hu
      cases Service.does_of_next hnext with
      | addDocuments => exact ⟨.inl (outgoing_setThread hm hconcerns), by simp [lowers, raises]⟩
    | addWithHashes c doc shard =>
      have hnext : s.service.next n (.addWithHashes c doc shard) = some u := hu
      cases Service.does_of_next hnext with
      | addWithHashes =>
        refine ⟨.inl ⟨c, .shard shard (.insert doc), ?_, h, rfl⟩, by simp [lowers, raises]⟩
        simp [Service.addWithHashes, Thread.outbox]
    | _ => exact h.elim

/-- **One event** keeps the flags telling exactly if it is in time. -/
theorem Tells.step (h : s.Tells n) (hstep : s.Step n e t) : t.Tells n ↔ Timely n s e := by
  constructor
  · -- what a call takes waits behind it, and so does what a lowered flag leaves behind
    intro ht
    refine ⟨fun j hj htakes => ?_, fun j hlow hun => ?_⟩
    · obtain ⟨hwaits, hsame⟩ := waits_of_takesUnmarked hstep htakes
      rw [← hsame]
      exact ht j hj hwaits
    · obtain ⟨u, hu, rfl⟩ := Option.map_eq_some_iff.mp hstep
      obtain ⟨hj, hwaits⟩ := lowers_cases hlow hu
      simpa [hlow] using ht j hj (hwaits.mpr hun)
  · rintro ⟨hunmarked, hclear⟩ j hj hw
    obtain ⟨u, hu, rfl⟩ := Option.map_eq_some_iff.mp hstep
    cases hlow : s.lowers j e with
    | true => exact absurd ((lowers_cases hlow hu).2.mp hw) (hclear j hlow)
    | false =>
      -- the flag is not lowered: it was up, or the call raises it
      have hup : s.uncommitted j = true ∨ s.raises j e = true := by
        rcases waits_back hu hw with hold | ⟨call, rfl, htakes⟩
        · exact .inl (h j hj hold)
        · exact (raises_of_takes htakes).symm.imp_left (hunmarked j hj)
      simpa [hlow] using hup

/-- **The flags tell of every change that waits exactly as long as every event is in time**: in
every state that a run reaches all of whose events are, and in the state after one more event if and
only if it is too. -/
theorem tells_iff_timely {log : List (FlagEvent α)}
    (hrun : Run (Guarded (Step n) (Timely n)) create log s) :
    s.Tells n ∧ ∀ e t, s.Step n e t → (t.Tells n ↔ Timely n s e) := by
  have htells : s.Tells n := by
    refine hrun.invariant (I := (Tells · n)) (fun s e t h hstep => (h.step hstep.2).mpr hstep.1) ?_
    -- a new index has no change anywhere
    rintro j - (⟨c, m, hm, -⟩ | (⟨i, hi⟩ | hhand | hmail) | ⟨m, hmem, -⟩ | hdirty)
    · cases hm
    · exact absurd rfl hi
    · cases hhand
    · exact absurd rfl hmail
    · cases hmem
    · cases hdirty
  exact ⟨htells, fun e t hstep => htells.step hstep⟩

/-- A document is added and sent, and then a batch: the flags are up already. -/
theorem tells_iff_timely_added : ∃ s t : FlaggedService Unit,
    Run (Guarded (Step 2) (Timely 2)) create
      [.service (.addDocument 0 ⟨7, ()⟩), .service (.sends 0)] s ∧
      s.Step 2 (.service (.addDocuments 1 [⟨8, ()⟩])) t ∧ s.Tells 2 ∧ t.Tells 2 := by
  have hadd : Guarded (Step 2) (Timely 2) create (.service (.addDocument 0 ⟨7, ()⟩))
      (_ : FlaggedService Unit) := ⟨⟨by simp [TakesUnmarked], by simp [lowers]⟩, rfl⟩
  have hrun : Run (Guarded (Step 2) (Timely 2)) create
      [.service (.addDocument 0 ⟨7, ()⟩), .service (.sends 0)] (_ : FlaggedService Unit) :=
    .snoc (.snoc .nil hadd) ⟨⟨by simp [TakesUnmarked], by simp [lowers]⟩, rfl⟩
  have h := tells_iff_timely hrun
  have hbatch := (h.2 (.service (.addDocuments 1 [⟨8, ()⟩])) _ rfl).mpr
    ⟨fun _ _ _ => rfl, by simp [lowers]⟩
  exact ⟨_, _, hrun, rfl, h.1, hbatch⟩

/-- **A batch is accepted and no flag is up.** -/
theorem batch_not_told : ∃ s : FlaggedService Unit,
    Run (Step 2) create [.service (.addDocuments 0 [⟨7, ()⟩]), .service (.sends 0),
      .service (.returns 0)] s ∧ s.service.threads 0 = .idle ∧
      (s.service.handle.readers 0).mailbox = [.batch [⟨7, ()⟩]] ∧
      (∀ j < 2, s.uncommitted j = false) ∧ ¬ s.Tells 2 := by
  refine ⟨_, Run.of_foldlM rfl, rfl, rfl, by decide, fun h => ?_⟩
  exact absurd (h 0 (by decide) (.inr (.inl (.inl ⟨0, by decide⟩)))) (by decide)

end FlaggedService

end Lucivy.Sharded
