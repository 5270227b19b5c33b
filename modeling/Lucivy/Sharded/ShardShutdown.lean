import Mathlib.Data.List.Nodup
import Lucivy.Sharded.ShardAccounts

/-! # The shutdown of a shard

The books of a shard are kept by every event but one: a shutdown taken while a commit is in flight
drops the deferred writes and leaves that commit without an answer, and one taken with lost writes
leaves them without a report. It is the one exit of the actor that does not go through a commit.

* `Books` — the invariant, with the mailbox and the work under way.
* `accounted_iff` — **a shard stays accounted for exactly while the shutdown comes to rest.** -/

namespace Lucivy.Sharded

open Lucivy.Foundation List ShardActor TicketedShard Ledger ShardMsg Option

variable {α : Type}

/-! ## The mailbox -/

/-- Requests arrive in the order of their tickets, from `next` on and below `limit`. -/
structure Arrivals (next limit : Nat) (mailbox : List (Nat × ShardMsg α)) : Prop where
  /-- Tickets are given out in order. -/
  sorted : ((mailbox.filter (·.2.continues.isNone)).map Prod.fst).Pairwise (· < ·)
  /-- They are not taken yet. -/
  bounds : ∀ entry ∈ mailbox, entry.2.continues = none → next ≤ entry.1 ∧ entry.1 < limit
  /-- Answers go to them. -/
  replies : ∀ entry ∈ mailbox, entry.2.continues = none → ∀ reply ∈ entry.2.replyTo, reply = entry.1
  /-- The tickets of later requests. -/
  le : next ≤ limit

namespace Arrivals

variable {next limit t : Nat} {m : ShardMsg α} {mailbox : List (Nat × ShardMsg α)}

/-- A request is taken. -/
theorem take (h : Arrivals next limit ((t, m) :: mailbox)) (hm : m.continues = none) :
    Arrivals (t + 1) limit mailbox where
  sorted := by
    have := h.sorted
    rw [filter_cons_of_pos (by simp [hm]), map_cons] at this
    exact this.of_cons
  bounds := by
    intro entry hentry hnone
    have hsorted := h.sorted
    rw [filter_cons_of_pos (by simp [hm]), map_cons] at hsorted
    have hmem : entry.1 ∈ (mailbox.filter (·.2.continues.isNone)).map Prod.fst :=
      mem_map_of_mem (mem_filter.mpr ⟨hentry, by simp [hnone]⟩)
    exact ⟨rel_of_pairwise_cons hsorted hmem, (h.bounds entry (mem_cons_of_mem _ hentry) hnone).2⟩
  replies entry hentry := h.replies entry (mem_cons_of_mem _ hentry)
  le := (h.bounds (t, m) mem_cons_self hm).2

/-- A message of the commit in flight is taken. -/
theorem tail (h : Arrivals next limit ((t, m) :: mailbox)) (hm : m.continues.isSome = true) :
    Arrivals next limit mailbox where
  sorted := by
    have := h.sorted
    rwa [filter_cons_of_neg (by simpa using isSome_iff_ne_none.mp hm)] at this
  bounds entry hentry := h.bounds entry (mem_cons_of_mem _ hentry)
  replies entry hentry := h.replies entry (mem_cons_of_mem _ hentry)
  le := h.le

theorem continues_message (ticket : Nat) (request : Request α) :
    (request.message ticket).continues = none := by
  cases request <;> rfl

/-- A request arrives. -/
theorem receive (h : Arrivals next limit mailbox) (request : Request α) :
    Arrivals next (limit + 1) (mailbox ++ [(limit, request.message limit)]) where
  sorted := by
    rw [filter_append, map_append, pairwise_append]
    refine ⟨h.sorted, ?_, ?_⟩
    · simp [continues_message]
    · intro x hx y hy
      obtain ⟨entry, hentry, rfl⟩ := mem_map.mp hx
      obtain ⟨hentry, hnone⟩ := mem_filter.mp hentry
      obtain rfl : y = limit := by simpa [continues_message] using hy
      exact (h.bounds entry hentry (by simpa using hnone)).2
  bounds := forall_mem_append.mpr
    ⟨fun entry hentry hnone => (h.bounds entry hentry hnone).imp_right Nat.lt_succ_of_lt,
      forall_mem_singleton.mpr fun _ => ⟨h.le, Nat.lt_succ_self _⟩⟩
  replies := by
    refine forall_mem_append.mpr ⟨h.replies, forall_mem_singleton.mpr fun _ reply hreply => ?_⟩
    cases request <;> simp [Request.message, replyTo] at hreply ⊢ <;> exact hreply.symm
  le := Nat.le_succ_of_le h.le

/-- A message of the commit in flight arrives. -/
theorem finish (h : Arrivals next limit mailbox) (hm : m.continues.isSome = true) :
    Arrivals next limit (mailbox ++ [(t, m)]) where
  sorted := by
    have hnone : m.continues.isNone = false := by
      rw [isNone_eq_false_iff]
      exact hm
    rw [filter_append, filter_cons_of_neg (by simp [hnone]), filter_nil, append_nil]
    exact h.sorted
  bounds := forall_mem_append.mpr ⟨h.bounds, forall_mem_singleton.mpr fun hnone =>
    absurd hnone (isSome_iff_ne_none.mp hm)⟩
  replies := forall_mem_append.mpr ⟨h.replies, forall_mem_singleton.mpr fun hnone =>
    absurd hnone (isSome_iff_ne_none.mp hm)⟩
  le := h.le

end Arrivals

/-! ## The invariant -/

/-- **The books of a shard in service.** -/
structure Books (s : TicketedShard α) : Prop where
  kept : Kept s.actor s.ledger s.answers s.ledger.waiting
  deferred : s.actor.deferred = s.ledger.waiting.map Prod.snd
  /-- Only a commit in flight defers. -/
  quiet : s.ledger.inFlight = none → s.ledger.waiting = []
  /-- The commit in flight goes on. -/
  underWay : s.continuations = s.ledger.inFlight.toList
  arrivals : Arrivals s.ledger.next s.nextTicket s.mailbox

/-- The books of a shard that has stopped. -/
structure Closed (s : TicketedShard α) : Prop where
  kept : Kept s.actor s.ledger s.answers s.ledger.waiting
  inFlight : s.ledger.inFlight = none
  lost : s.ledger.lost = []
  waiting : s.ledger.waiting = []

section Events

variable {s t : TicketedShard α}

theorem books_create : Books (create : TicketedShard α) where
  kept :=
    { lost := rfl
      report := rfl
      flight := rfl
      idle := fun _ => rfl
      flying := fun _ h => by cases h
      ordered := .nil
      below := ⟨forall_mem_nil _, forall_mem_nil _,
        forall_mem_nil _⟩
      nodup := ⟨nodup_nil, nodup_nil⟩
      writes := fun _ => rfl
      contents := fun w hw => by
        cases hw
        rfl
      requests := fun _ => rfl
      reports := forall_mem_nil _
      success := forall_mem_nil _ }
  deferred := rfl
  quiet _ := rfl
  underWay := rfl
  arrivals := ⟨List.Pairwise.nil, forall_mem_nil _,
    forall_mem_nil _, Nat.le_refl _⟩

variable {m : ShardMsg α} {rest : List (Nat × ShardMsg α)} {ticket : Nat} {e : ShardEvent α}

theorem eq_of_append_cons_eq_toList {β : Type} {l l' : List β} {x : β} {o : Option β}
    (h : l ++ x :: l' = o.toList) : o = some x ∧ l = [] ∧ l' = [] := by
  cases o <;> simp_all [append_eq_singleton_iff]

/-- The commit whose message stands first in the mailbox is the one in flight, and nothing else of
it is under way. -/
theorem Books.head_continues (h : Books s) (hmail : s.mailbox = (ticket, m) :: rest) {c : Reply}
    (hm : m.continues = some c) :
    s.ledger.inFlight = some c ∧ s.work = none ∧
      (rest.filterMap fun entry => entry.2.continues) = [] := by
  have hunder := h.underWay
  have hcons : ((ticket, m) :: rest).filterMap (fun entry => entry.2.continues) =
      c :: rest.filterMap fun entry => entry.2.continues := filterMap_cons_some hm
  rw [continuations, hmail, hcons] at hunder
  obtain ⟨hflight, hwork, hrest⟩ := eq_of_append_cons_eq_toList hunder
  exact ⟨hflight, by simpa using hwork, hrest⟩

/-! ## The events -/

/-- A request arrives. -/
theorem Books.receive (h : Books s) (request : Request α) : Books (s.receive request) :=
  { h with
    underWay := by
      have hunder := h.underWay
      rw [continuations] at hunder ⊢
      simp only [TicketedShard.receive, filterMap_append, filterMap_cons,
        Arrivals.continues_message, filterMap_nil, append_nil]
      exact hunder
    arrivals := h.arrivals.receive request }

/-- The work under way ends with its message. -/
theorem Books.finish (h : Books s) {w : Work} (hwork : s.work = some w) {actor : ShardActor α}
    (hactor : actor = s.actor ∨ actor = s.actor.commitWriter) (hm : m.continues = some w.reply) :
    Books (s.finish w.reply actor m) where
  kept := by
    rcases hactor with rfl | rfl
    · exact h.kept
    · -- a commit publishes what the writer was given, and keeps it
      refine h.kept.setWriter fun x hx => ?_
      obtain ⟨v, hv, rfl⟩ := map_eq_some_iff.mp hx
      exact ⟨v, hv, v.contents_commit⟩
  deferred := by
    rcases hactor with rfl | rfl <;> exact h.deferred
  quiet := h.quiet
  underWay := by
    have hunder := h.underWay
    rw [continuations, hwork, toList_some, map_singleton, singleton_append] at hunder
    rw [continuations]
    simp only [TicketedShard.finish, filterMap_append, filterMap_cons, hm,
      filterMap_nil, toList_none, map_nil, nil_append]
    -- the work was all that was under way
    obtain ⟨hflight, -, hrest⟩ := eq_of_append_cons_eq_toList (l := []) hunder
    rw [hrest, hflight]
    rfl
  arrivals := h.arrivals.finish (by rw [hm]; rfl)

/-- The writer changes behind the actor's back, and keeps what it was given. -/
theorem Books.setWriter (h : Books s) {writer : Option (ShardWriter α)}
    (hwriter : ∀ w ∈ writer, ∃ v ∈ s.actor.writer, w.contents = v.contents) :
    Books (s.setWriter writer) :=
  ⟨h.kept.setWriter hwriter, h.deferred, h.quiet, h.underWay, h.arrivals⟩

/-- The requests other than a shutdown are those a commit defers. -/
theorem isDeferrable_of_continues (hm : m.continues = none) :
    m.isDeferrable = true ∨ ∃ reply, m = .shutdown reply := by
  cases m with
  | insert _ | delete _ | commit _ _ | drain _ => exact .inl rfl
  | shutdown reply => exact .inr ⟨reply, rfl⟩
  | indexersDrained _ _ | flushDone _ _ | commitDone _ _ => cases hm

theorem continuations_take (h : Books s) (hmail : s.mailbox = (ticket, m) :: rest)
    (hm : m.continues = none) :
    s.work.toList.map Work.reply ++ (rest.filterMap fun entry => entry.2.continues) =
      s.ledger.inFlight.toList := by
  have hunder := h.underWay
  have hcons : ((ticket, m) :: rest).filterMap (fun entry => entry.2.continues) =
      rest.filterMap fun entry => entry.2.continues := filterMap_cons_none hm
  rwa [continuations, hmail, hcons] at hunder

/-- **A request is deferred** behind the commit in flight. -/
theorem Books.takeDeferred (h : Books s) (hmail : s.mailbox = (ticket, m) :: rest)
    (hm : m.continues = none) (hdefer : m.isDeferrable = true)
    (hflight : s.actor.commitInFlight = true) :
    (s.take ticket m rest).stopped = false ∧ Books (s.take ticket m rest) := by
  have harrivals := h.arrivals
  rw [hmail] at harrivals
  have hhandle : s.actor.handle m =
      { s.actor with deferred := s.actor.deferred ++ [m] }.quietly := by
    simp [handle, hflight, hdefer]
  have hrecord : s.ledger.record s.actor ticket m =
      { s.ledger.enter ticket m with waiting := s.ledger.waiting ++ [(ticket, m)] } := by
    simp [record, hflight, hdefer]
  have hkept := h.kept.enter (harrivals.bounds _ mem_cons_self hm).1 hdefer
    (harrivals.replies _ mem_cons_self hm)
  have hinFlight : s.ledger.inFlight.isSome = true := by rw [← h.kept.flight, hflight]
  rw [TicketedShard.take, hhandle, hrecord]
  refine ⟨rfl, ?_, ?_, fun hnone => ?_, ?_, harrivals.take hm⟩
  · simpa [quietly] using hkept.move (s.actor.deferred ++ [m]) (s.ledger.waiting ++ [(ticket, m)])
  · simp [quietly, h.deferred]
  · have hnone : s.ledger.inFlight = none := hnone
    rw [hnone] at hinFlight
    cases hinFlight
  · simpa [continuations, quietly, enter] using continuations_take h hmail hm

/-- Handling a message with no commit in flight leaves the queue alone. -/
theorem execute_frame (l : Ledger α) (a : ShardActor α) (ticket : Nat) (m : ShardMsg α) :
    (l.execute a ticket m).waiting = l.waiting ∧ (l.execute a ticket m).next = l.next := by
  rw [execute]
  split
  · split <;> exact ⟨rfl, rfl⟩
  · split
    · split <;> exact ⟨rfl, rfl⟩
    · exact ⟨rfl, rfl⟩

/-- **A request is handled at once**, with no commit in flight. -/
theorem Books.takeOpen (h : Books s) (hmail : s.mailbox = (ticket, m) :: rest)
    (hm : m.continues = none) (hdefer : m.isDeferrable = true)
    (hflight : s.actor.commitInFlight = false) :
    (s.take ticket m rest).stopped = false ∧ Books (s.take ticket m rest) := by
  have harrivals := h.arrivals
  rw [hmail] at harrivals
  have hreplies := harrivals.replies _ mem_cons_self hm
  have hidle := h.kept.idle_of hflight
  obtain ⟨hhandle, hrecord⟩ : s.actor.handle m = s.actor.handleOpen m ∧
      s.ledger.record s.actor ticket m =
        (s.ledger.enter ticket m).execute s.actor ticket m := by
    cases m with
    | insert _ | delete _ | commit _ _ | drain _ => simp [handle, record, hflight]
    | indexersDrained _ _ | flushDone _ _ | commitDone _ _ | shutdown _ => cases hdefer
  have hkept := h.kept.enter (harrivals.bounds _ mem_cons_self hm).1 hdefer hreplies
  rw [h.quiet hidle, nil_append] at hkept
  have hexecuted := hkept.execute (l := s.ledger.enter ticket m) hidle
  obtain ⟨hwork, hstop⟩ := handleOpen_work (a := s.actor) (l := s.ledger.enter ticket m) hidle
    hreplies
  have hwaiting : (s.ledger.record s.actor ticket m).waiting = [] := by
    rw [hrecord, (execute_frame ..).1]
    exact h.quiet hidle
  have hunder := continuations_take h hmail hm
  rw [hidle, toList_none, append_eq_nil_iff] at hunder
  have hnowork : s.work = none := by simpa using hunder.1
  constructor
  · rw [TicketedShard.take, hhandle]
    exact hstop
  · refine ⟨?_, ?_, fun _ => hwaiting, ?_, ?_⟩
    · change Kept (s.actor.handle m).actor (s.ledger.record s.actor ticket m)
        (s.answers ++ (s.actor.handle m).answers) (s.ledger.record s.actor ticket m).waiting
      rw [hwaiting, hhandle, hrecord]
      exact hexecuted
    · change (s.actor.handle m).actor.deferred =
        (s.ledger.record s.actor ticket m).waiting.map Prod.snd
      rw [hwaiting, hhandle, deferred_handleOpen, h.deferred, h.quiet hidle]
    · change ((s.actor.handle m).work.or s.work).toList.map Work.reply ++
        (rest.filterMap fun entry => entry.2.continues) =
        (s.ledger.record s.actor ticket m).inFlight.toList
      rw [hnowork, hunder.2, hhandle, hrecord, ← hwork, append_nil]
      cases (s.actor.handleOpen m).work <;> rfl
    · change Arrivals (s.ledger.record s.actor ticket m).next s.nextTicket rest
      rw [hrecord, (execute_frame ..).2]
      exact harrivals.take hm

/-- The replayed ledger is at the same ticket. -/
theorem replay_next (queue : List (Nat × ShardMsg α)) (a : ShardActor α) (l : Ledger α) :
    (replay queue a l).next = l.next := by
  induction queue generalizing a l with
  | nil => rfl
  | cons entry queue ih =>
    rw [replay]
    split
    · rfl
    · rw [ih, (execute_frame ..).2]

section

variable (h : Books s) (hmail : s.mailbox = (ticket, m) :: rest)
include h hmail

/-- **The commit in flight is over**: it is answered, and the deferred messages are handled. -/
theorem Books.endCommit {c : Reply} (hm : m.continues = some c) (result : Except CommitStage Unit)
    (hhandle : s.actor.handle m = s.actor.endCommit result c)
    (hrecord : s.ledger.record s.actor ticket m = s.ledger.endCommit s.actor c) :
    (s.take ticket m rest).stopped = false ∧ Books (s.take ticket m rest) := by
  obtain ⟨hflight, hnowork, hrest⟩ := h.head_continues hmail hm
  have harrivals := h.arrivals
  rw [hmail] at harrivals
  have hreplayed : Replayed s.answers (s.actor.endCommit result c)
      (s.ledger.endCommit s.actor c) := by
    have hend : s.actor.endCommit result c =
        runDeferred (s.ledger.waiting.map Prod.snd)
          ⟨{ s.actor with lostReport := none, commitInFlight := false },
            [(c, commitResult result s.actor.lostReport)], none, false⟩ := by
      rw [← h.deferred]
      rfl
    rw [hend]
    exact Kept.replay (r := ⟨{ s.actor with lostReport := none, commitInFlight := false },
      [(c, commitResult result s.actor.lostReport)], none, false⟩) (h.kept.settle hflight result)
      rfl rfl
  have hwork := hreplayed.work
  rw [TicketedShard.take, hhandle, hrecord]
  refine ⟨hreplayed.stop, hreplayed.kept, hreplayed.deferred, hreplayed.quiet, ?_, ?_⟩
  · rw [continuations, hnowork, hrest, ← hwork]
    cases (s.actor.endCommit result c).work <;> rfl
  · dsimp only
    rw [Ledger.endCommit, replay_next]
    exact harrivals.tail (by rw [hm]; rfl)

/-- **The commit in flight goes on** to its next work. -/
theorem Books.goOn {w : Work} (hm : m.continues = some w.reply)
    (hhandle : s.actor.handle m = ⟨s.actor, [], some w, false⟩)
    (hrecord : s.ledger.record s.actor ticket m = s.ledger) :
    (s.take ticket m rest).stopped = false ∧ Books (s.take ticket m rest) := by
  obtain ⟨hflight, -, hrest⟩ := h.head_continues hmail hm
  have harrivals := h.arrivals
  rw [hmail] at harrivals
  rw [TicketedShard.take, hhandle, hrecord, append_nil]
  refine ⟨rfl, h.kept, h.deferred, h.quiet, ?_, harrivals.tail (by rw [hm]; rfl)⟩
  rw [continuations, hrest, hflight]
  rfl

/-- A message of the commit in flight is taken. -/
theorem Books.takeContinuation (hm : m.continues.isSome = true) :
    (s.take ticket m rest).stopped = false ∧ Books (s.take ticket m rest) := by
  cases m with
  | indexersDrained fast reply =>
    cases hw : s.actor.writer with
    | none =>
      refine h.endCommit hmail rfl (.ok ()) ?_ ?_
      · simp [handle, isDeferrable, hw]
      · simp [record, isDeferrable, isReachable, hw]
    | some w =>
      cases hreach : w.reachable with
      | true =>
        refine h.goOn (w := .flushIndexers fast reply) hmail rfl ?_ ?_
        · simp [handle, isDeferrable, hw, hreach]
        · simp [record, isDeferrable, isReachable, hw, hreach]
      | false =>
        refine h.endCommit hmail rfl (.error .flush) ?_ ?_
        · simp [handle, isDeferrable, hw, hreach]
        · simp [record, isDeferrable, isReachable, hw, hreach]
  | flushDone fast reply =>
    refine h.goOn (w := .finalize fast reply) hmail rfl ?_ ?_
    · exact handle_flushDone fast reply
    · simp [record, isDeferrable]
  | commitDone result reply =>
    refine h.endCommit hmail rfl result ?_ ?_
    · simp [handle, isDeferrable]
    · simp [record, isDeferrable]
  | insert _ | delete _ | commit _ _ | drain _ | shutdown _ => cases hm

end

/-- What a shutdown does to the ledger. -/
theorem TicketedShard.take_shutdown (s : TicketedShard α) (ticket : Nat) (reply : Reply)
    (rest : List (Nat × ShardMsg α)) :
    (s.take ticket (.shutdown reply) rest).stopped = true ∧
      (s.take ticket (.shutdown reply) rest).ledger =
        { s.ledger.enter ticket (.shutdown reply) with waiting := [] } ∧
      (s.take ticket (.shutdown reply) rest).actor = { s.actor with deferred := [] } ∧
      (s.take ticket (.shutdown reply) rest).answers = s.answers ++
        (s.actor.deferred.filterMap answerShutdown ++ [(reply, .ok ())]) := by
  simp [TicketedShard.take, handle, isDeferrable, record]

/-- **A shutdown that comes to rest** leaves nothing open. -/
theorem Books.shutdown (h : Books s) {reply : Reply}
    (hmail : s.mailbox = (ticket, .shutdown reply) :: rest)
    (hflight : s.actor.commitInFlight = false) (hlost : s.actor.lost = []) :
    Closed (s.take ticket (.shutdown reply) rest) := by
  obtain ⟨-, hledger, hactor, hanswers⟩ := s.take_shutdown ticket reply rest
  have harrivals := h.arrivals
  rw [hmail] at harrivals
  obtain rfl := harrivals.replies _ mem_cons_self rfl reply rfl
  have hnext : s.ledger.next ≤ reply := (harrivals.bounds _ mem_cons_self rfl).1
  have hidle := h.kept.idle_of hflight
  have hdeferred : s.actor.deferred = [] := by rw [h.deferred, h.quiet hidle]; rfl
  have hledgerLost : s.ledger.lost = [] := by
    have := h.kept.lost
    rw [hlost, length_nil, eq_comm, length_eq_zero_iff] at this
    exact this
  have hkept := h.kept
  rw [h.quiet hidle] at hkept
  rw [hdeferred, filterMap_nil, nil_append] at hanswers
  refine ⟨?_, by rw [hledger]; exact hidle, by rw [hledger]; exact hledgerLost, by rw [hledger]⟩
  rw [hledger, hactor, hanswers]
  exact (hkept.answerShutdown hnext).move [] []

/-! ## Accounts -/

/-- Every write has one fate. -/
theorem Kept.write_once (h : Kept s.actor s.ledger s.answers s.ledger.waiting) {w : Nat}
    (hw : w ∈ s.ledger.writes) :
    (s.ledger.applied.map Prod.fst).count w + (s.ledger.reported.map Prod.fst).count w +
      s.pendingWrites.count w = 1 := by
  have hcount := h.writes w
  rw [count_eq_one_of_mem h.nodup.1 hw] at hcount
  rw [pendingWrites, count_append, count_append]
  exact hcount.symm

/-- The deferred commits are the deferred requests with tickets of commits. -/
theorem count_commitsOf {commits : List Nat} {next : Nat} {queue : List (Nat × ShardMsg α)}
    (h : InOrder commits next queue) {c : Nat} (hc : c ∈ commits) :
    ((queue.filter (·.2.isCommit)).map Prod.fst).count c = (requestsOf queue).count c := by
  induction queue with
  | nil => rfl
  | cons entry queue ih =>
    obtain ⟨ticket, m⟩ := entry
    have hrest := ih h.tail
    rw [requestsOf_cons]
    cases hcommit : m.isCommit with
    | true =>
      have hreply : m.replyTo.isSome = true := by cases m <;> first | rfl | cases hcommit
      rw [filter_cons_of_pos (by simp [hcommit]), map_cons, hreply, if_pos rfl,
        count_cons, count_cons, hrest]
    | false =>
      have hne : ticket ≠ c := fun heq =>
        h.others _ mem_cons_self hcommit (show ticket ∈ commits from heq ▸ hc)
      rw [filter_cons_of_neg (by simp [hcommit]), hrest]
      split
      · rw [count_cons_of_ne hne]
      · rfl

/-- Every commit is answered once. -/
theorem Kept.commit_once (h : Kept s.actor s.ledger s.answers s.ledger.waiting) {c : Nat}
    (hc : c ∈ s.ledger.commits) :
    (s.answers.map Prod.fst).count c + s.pendingCommits.count c = 1 := by
  have hcount := h.requests c
  rw [count_eq_one_of_mem h.nodup.2 (h.below.2.2 c hc)] at hcount
  rw [pendingCommits, count_append, count_commitsOf h.ordered hc]
  exact hcount.symm

theorem Books.accounted (h : Books s) (hrunning : s.stopped = false) : s.Accounted where
  writes _ hw := h.kept.write_once hw
  contents := h.kept.contents
  reports := h.kept.reports
  commits _ hc := h.kept.commit_once hc
  success := h.kept.success
  underWay _ := ⟨h.quiet, h.underWay⟩
  stopped hstopped := by
    rw [hrunning] at hstopped
    cases hstopped

theorem Closed.accounted (h : Closed s) (hstopped : s.stopped = true) : s.Accounted where
  writes _ hw := h.kept.write_once hw
  contents := h.kept.contents
  reports := h.kept.reports
  commits _ hc := h.kept.commit_once hc
  success := h.kept.success
  underWay hrunning := by
    rw [hstopped] at hrunning
    cases hrunning
  stopped _ := by
    rw [pendingWrites, pendingCommits, h.lost, h.waiting, h.inFlight, h.kept.idle h.inFlight]
    exact ⟨rfl, rfl⟩

/-- The books of a shard, in service or stopped. -/
def InService (s : TicketedShard α) : Prop :=
  (s.stopped = false ∧ Books s) ∨ (s.stopped = true ∧ Closed s)

/-- A message is taken, in order. -/
theorem Books.takes (h : Books s) (hmail : s.mailbox = (ticket, m) :: rest)
    (horder : s.closesInOrder .takes = true) : InService (s.take ticket m rest) := by
  cases hm : m.continues with
  | some c => exact .inl (h.takeContinuation hmail (by rw [hm]; rfl))
  | none =>
    rcases isDeferrable_of_continues hm with hdefer | ⟨reply, rfl⟩
    · cases hflight : s.actor.commitInFlight with
      | true => exact .inl (h.takeDeferred hmail hm hdefer hflight)
      | false => exact .inl (h.takeOpen hmail hm hdefer hflight)
    · obtain ⟨hflight, hlost⟩ : s.actor.commitInFlight = false ∧ s.actor.lost = [] := by
        simpa [closesInOrder, hmail, isShutdown] using horder
      exact .inr ⟨(s.take_shutdown ticket reply rest).1, h.shutdown hmail hflight hlost⟩

theorem InService.accounted (h : InService s) : s.Accounted := by
  rcases h with ⟨hrunning, hbooks⟩ | ⟨hstopped, hclosed⟩
  · exact hbooks.accounted hrunning
  · exact hclosed.accounted hstopped

theorem next_eq_some (hstep : s.next e = some t) : s.stopped = false := by
  cases hstopped : s.stopped with
  | false => rfl
  | true => simp [TicketedShard.next, hstopped] at hstep

/-- **One event** keeps the books, if a shutdown comes to rest. -/
theorem InService.step (h : InService s) (hstep : s.next e = some t)
    (horder : s.closesInOrder e = true) : InService t := by
  have hrunning := next_eq_some hstep
  obtain ⟨-, hbooks⟩ | ⟨hstopped, -⟩ := h
  · simp only [TicketedShard.next, hrunning] at hstep
    cases e with
    | sends request =>
      cases hstep
      exact .inl ⟨hrunning, hbooks.receive request⟩
    | takes =>
      cases hmail : s.mailbox with
      | nil =>
        rw [hmail] at hstep
        cases hstep
      | cons entry rest =>
        rw [hmail] at hstep
        cases hstep
        exact hbooks.takes hmail horder
    | worked =>
      obtain ⟨w, hwork, rfl⟩ := map_eq_some_iff.mp hstep
      refine .inl ⟨?_, ?_⟩
      · cases w <;> exact hrunning
      · cases w with
        | drainIndexers fast reply | flushIndexers fast reply =>
          exact hbooks.finish hwork (.inl rfl) rfl
        | finalize fast reply => exact hbooks.finish hwork (.inr rfl) rfl
    | fails published =>
      obtain ⟨w, hwork, hfail⟩ := bind_eq_some_iff.mp hstep
      cases w with
      | finalize fast reply =>
        cases hfail
        refine .inl ⟨hrunning, hbooks.finish hwork ?_ rfl⟩
        cases published with
        | true => exact .inr rfl
        | false => exact .inl rfl
      | drainIndexers _ _ | flushIndexers _ _ => cases hfail
    | closes =>
      cases hstep
      exact .inl ⟨hrunning, hbooks.setWriter fun w hw => by cases hw⟩
    | givesUp | dies =>
      cases hstep
      refine .inl ⟨hrunning, hbooks.setWriter fun w hw => ?_⟩
      obtain ⟨v, hv, rfl⟩ := map_eq_some_iff.mp hw
      exact ⟨v, hv, rfl⟩
  · rw [hstopped] at hrunning
    cases hrunning

/-- What a shutdown leaves open was open before it. -/
theorem Books.atRest_of_stopped (h : Books s) {reply : Reply}
    (htake : s.take ticket (.shutdown reply) rest = t) (haccounted : t.Accounted) :
    s.actor.commitInFlight = false ∧ s.actor.lost = [] := by
  obtain ⟨hstops, hledger, -, -⟩ := s.take_shutdown ticket reply rest
  rw [htake] at hstops hledger
  obtain ⟨hwrites, hcommits⟩ := haccounted.stopped hstops
  rw [pendingWrites, hledger, append_eq_nil_iff] at hwrites
  rw [pendingCommits, hledger, append_eq_nil_iff] at hcommits
  have hidle : s.ledger.inFlight = none := by simpa [enter] using hcommits.1
  have hlost : s.ledger.lost = [] := hwrites.1
  constructor
  · rw [h.kept.flight, hidle]
    rfl
  · have hlength := h.kept.lost
    rw [hlost, length_nil, length_eq_zero_iff] at hlength
    exact hlength

/-- A stopped shard that is accounted for had its shutdown come to rest. -/
theorem InService.closesInOrder (h : InService s) (hstep : s.next e = some t)
    (haccounted : t.Accounted) : s.closesInOrder e = true := by
  have hrunning := next_eq_some hstep
  obtain ⟨-, hbooks⟩ | ⟨hstopped, -⟩ := h
  · cases e with
    | takes =>
      cases hmail : s.mailbox with
      | nil => simp [closesInOrder, hmail]
      | cons entry rest =>
        obtain ⟨ticket, m⟩ := entry
        cases hshutdown : m.isShutdown with
        | false => simp [closesInOrder, hmail, hshutdown]
        | true =>
          obtain ⟨reply, rfl⟩ : ∃ reply, m = .shutdown reply := by
            cases m <;> first | exact ⟨_, rfl⟩ | cases hshutdown
          simp only [TicketedShard.next, hrunning, Bool.false_eq_true, if_false, hmail,
            head?_cons, map_some, Option.some.injEq] at hstep
          obtain ⟨hflight, hlost⟩ := hbooks.atRest_of_stopped hstep haccounted
          simp [closesInOrder, hmail, hflight, hlost]
    | sends _ | worked | fails _ | closes | givesUp | dies => rfl
  · rw [hstopped] at hrunning
    cases hrunning

theorem inService_of_run {log : List (ShardEvent α)}
    (hrun : Run TicketedShard.StepInOrder create log s) : InService s :=
  hrun.invariant (fun _ _ _ h hstep => h.step hstep.2 hstep.1) (.inl ⟨rfl, books_create⟩)

/-- **No write is dropped silently and every commit is answered once, exactly as long as the
shutdown comes to rest**: in every state that a run reaches all of whose shutdowns do, and in the
state after one more event if and only if it does too. -/
theorem accounted_iff {log : List (ShardEvent α)}
    (hrun : Run TicketedShard.StepInOrder create log s) :
    s.Accounted ∧ ∀ e t, TicketedShard.Step s e t → (t.Accounted ↔ s.closesInOrder e = true) := by
  have hservice := inService_of_run hrun
  refine ⟨hservice.accounted, fun e t hstep => ⟨?_, ?_⟩⟩
  · exact hservice.closesInOrder hstep
  · intro horder
    exact (hservice.step hstep horder).accounted

end Events

/-! ## Runs -/

/-- One event of a run in order. -/
def TicketedShard.nextInOrder (s : TicketedShard α) (e : ShardEvent α) : Option (TicketedShard α) :=
  if s.closesInOrder e then s.next e else none

theorem run_of_nextInOrder {s t : TicketedShard α} {log : List (ShardEvent α)}
    (h : log.foldlM nextInOrder s = some t) :
    Run TicketedShard.StepInOrder s log t :=
  (Run.of_foldlM h).mono fun _ _ _ hstep => ite_none_right_eq_some.mp hstep

/-- A document, a commit, a document while it runs, and a shutdown behind it. -/
def closedRun : List (ShardEvent Unit) :=
  [.sends (.insert ⟨1, ()⟩), .sends (.commit false), .sends (.insert ⟨2, ()⟩), .takes, .takes,
    .takes, .worked, .takes, .worked, .takes, .worked, .takes, .sends .shutdown, .takes]

/-- Both documents are applied and in the writer, the commit and the shutdown answered. -/
theorem accounted_iff_closed :
    ∃ s, Run TicketedShard.StepInOrder create closedRun s ∧ s.Accounted ∧
      s.stopped = true ∧ s.ledger.applied.map Prod.fst = [0, 2] ∧
      s.actor.contents = [⟨1, ()⟩, ⟨2, ()⟩] ∧ s.answers = [(1, .ok ()), (3, .ok ())] := by
  have hrun : Run TicketedShard.StepInOrder create closedRun _ := run_of_nextInOrder rfl
  exact ⟨_, hrun, (accounted_iff hrun).1, rfl, rfl, rfl, rfl⟩

/-- A commit, a document while it runs, and a shutdown before it is done. -/
def hastyRun : List (ShardEvent Unit) :=
  [.sends (.commit false), .sends (.insert ⟨1, ()⟩), .sends .shutdown, .takes, .takes, .takes]

/-- **A shutdown during a commit drops a deferred write silently**, and the commit is never
answered. -/
theorem shutdown_drops_write :
    ∃ s, Run TicketedShard.Step create hastyRun s ∧ s.stopped = true ∧
      s.ledger.writes = [1] ∧ s.actor.contents = [] ∧ s.ledger.reported = [] ∧
      s.ledger.commits = [0] ∧ s.answers = [(2, .ok ())] ∧ ¬ s.Accounted := by
  have hrun : Run TicketedShard.Step create hastyRun _ := Run.of_foldlM rfl
  refine ⟨_, hrun, rfl, rfl, rfl, rfl, rfl, rfl, fun haccounted => ?_⟩
  have hwrite := haccounted.writes 1 (mem_singleton_self 1)
  exact absurd hwrite (by decide)

end Lucivy.Sharded
