import Lucivy.Sharded.ShardLedger

/-! # The accounts of a shard

The invariant behind `TicketedShard.Accounted`, and its step lemmas. A message is entered behind the
deferred ones and, with no commit in flight, executed at once; the end of a commit executes deferred
messages from the front. So tickets are executed in their order, and a commit is started behind
every write before it.

* `Kept` — the books of an actor, with the deferred messages as a queue.
* `Kept.enter`, `Kept.execute`, `Kept.settle`, `Kept.replay` — the four things that happen to
  them. -/

namespace Lucivy.Sharded

open Lucivy.Foundation List Ledger ShardMsg

variable {α : Type}

/-! ## What the actor does with a message and no commit in flight -/

namespace ShardActor

variable (a : ShardActor α)

/-- A write is applied, or kept as lost. -/
theorem handleOpen_write {m : ShardMsg α} (hm : m.isWrite = true) :
    ∃ b : ShardActor α, a.handleOpen m = b.quietly ∧ b.commitInFlight = a.commitInFlight ∧
      b.lostReport = a.lostReport ∧
      if a.appliesWrite m then b.lost = a.lost ∧
        ∀ w ∈ b.writer, ∃ v ∈ a.writer, w.contents = applyWrite v.contents m
      else (∃ entry, b.lost = a.lost ++ [entry]) ∧ b.writer = a.writer := by
  cases m with
  | insert doc =>
    cases hw : a.writer with
    | none =>
      refine ⟨{ a with lost := a.lost ++ [LostWrite.dropped] }, ?_, rfl, rfl, ?_⟩
      · simp [handleOpen, hw]
      · simp [appliesWrite, hw]
    | some w =>
      cases htakes : w.takesDocuments with
      | true =>
        refine ⟨{ a with writer := some (w.addDocument doc) }, ?_, rfl, rfl, ?_⟩
        · simp [handleOpen, hw, htakes]
        · simp [appliesWrite, hw, htakes, applyWrite, ShardWriter.contents_addDocument]
      | false =>
        refine ⟨{ a with lost := a.lost ++ [LostWrite.refused] }, ?_, rfl, rfl, ?_⟩
        · simp [handleOpen, hw, htakes]
        · simp [appliesWrite, hw, htakes]
  | delete nodeId =>
    cases hw : a.writer with
    | none =>
      refine ⟨{ a with lost := a.lost ++ [LostWrite.skipped] }, ?_, rfl, rfl, ?_⟩
      · simp [handleOpen, hw]
      · simp [appliesWrite, hw]
    | some w =>
      refine ⟨{ a with writer := some (w.deleteTerm nodeId) }, ?_, rfl, rfl, ?_⟩
      · simp [handleOpen, hw]
      · simp [appliesWrite, hw, applyWrite, ShardWriter.contents_deleteTerm]
  | commit _ _ | indexersDrained _ _ | flushDone _ _ | commitDone _ _ | drain _ | shutdown _ =>
    exact absurd hm Bool.false_ne_true

/-- A commit starts if the indexers can be drained. -/
theorem handleOpen_commit_reachable (hreach : a.isReachable = true) (fast : Bool) (reply : Reply) :
    a.handleOpen (.commit fast reply) =
      ⟨{ a with lost := [], lostReport := a.takeLostReport, commitInFlight := true }, [],
        some (.drainIndexers fast reply), false⟩ := by
  cases hw : a.writer with
  | none => simp [isReachable, hw] at hreach
  | some w =>
    have hw' : w.reachable = true := by simpa [isReachable, hw] using hreach
    simp [handleOpen, hw, hw']

/-- Otherwise it is answered at once, with what is to be reported. -/
theorem handleOpen_commit_unreachable (hreach : a.isReachable = false) (fast : Bool)
    (reply : Reply) :
    ∃ result, a.handleOpen (.commit fast reply) =
      ⟨{ a with lost := [] }, [(reply, commitResult result a.takeLostReport)], none, false⟩ := by
  cases hw : a.writer with
  | none => exact ⟨.ok (), by simp [handleOpen, hw]⟩
  | some w =>
    have hw' : w.reachable = false := by simpa [isReachable, hw] using hreach
    exact ⟨.error .drain, by simp [handleOpen, hw, hw']⟩

/-- There is a report if a write is lost. -/
theorem isSome_takeLostReport : a.takeLostReport.isSome = !a.lost.isEmpty := by
  cases h : a.lost <;> simp [takeLostReport, h]

end ShardActor

/-- A report makes an answer an error that carries it. -/
theorem commitResult_some (result : Except CommitStage Unit) (report : LostReport) :
    ∃ error, commitResult result (some report) = .error error ∧ error.lost.isSome = true := by
  cases result with
  | ok _ => exact ⟨_, rfl, rfl⟩
  | error stage => exact ⟨_, rfl, rfl⟩

/-- A success carries no report. -/
theorem commitResult_ok {result : Except CommitStage Unit} {lost : Option LostReport}
    (h : commitResult result lost = .ok ()) : lost = none := by
  cases lost with
  | none => rfl
  | some report =>
    obtain ⟨error, herror, -⟩ := commitResult_some result report
    rw [herror] at h
    cases h

/-! ## The books -/

/-- The tickets of the writes among deferred messages. -/
def writesOf (queue : List (Nat × ShardMsg α)) : List Nat :=
  (queue.filter (·.2.isWrite)).map Prod.fst

/-- The tickets of the requests among deferred messages. -/
def requestsOf (queue : List (Nat × ShardMsg α)) : List Nat :=
  (queue.filter (·.2.replyTo.isSome)).map Prod.fst

/-- Messages deferred in the order of their tickets, which are all below `next`. -/
structure InOrder (commits : List Nat) (next : Nat) (queue : List (Nat × ShardMsg α)) : Prop where
  /-- Tickets are deferred in their order. -/
  sorted : (queue.map Prod.fst).Pairwise (· < ·)
  /-- What is deferred, and where it is answered. -/
  deferrable : ∀ entry ∈ queue, entry.2.isDeferrable = true ∧
    ∀ reply ∈ entry.2.replyTo, reply = entry.1
  /-- Commits are told from other messages by their tickets. -/
  others : ∀ entry ∈ queue, entry.2.isCommit = false → entry.1 ∉ commits
  /-- They have been taken. -/
  below : ∀ entry ∈ queue, entry.1 < next

/-- **The books of an actor**, with the messages still to be executed as a queue. -/
structure Kept (a : ShardActor α) (l : Ledger α) (answers : List (Reply × CommitAnswer))
    (queue : List (Nat × ShardMsg α)) : Prop where
  lost : a.lost.length = l.lost.length
  report : a.lostReport.isSome = !l.report.isEmpty
  flight : a.commitInFlight = l.inFlight.isSome
  /-- Without one there is no report. -/
  idle : l.inFlight = none → l.report = []
  /-- It has taken the lost writes, and stands before everything deferred. -/
  flying : ∀ c ∈ l.inFlight, l.lost = [] ∧ ∀ entry ∈ queue, c < entry.1
  /-- What is still to be executed. -/
  ordered : InOrder l.commits l.next queue
  /-- Tickets taken so far. -/
  below : (∀ t ∈ l.writes, t < l.next) ∧ (∀ t ∈ l.requests, t < l.next) ∧
    ∀ t ∈ l.commits, t ∈ l.requests
  /-- No ticket is taken twice. -/
  nodup : l.writes.Nodup ∧ l.requests.Nodup
  writes : ∀ t, l.writes.count t =
    (l.applied.map Prod.fst).count t + (l.reported.map Prod.fst).count t +
      (l.lost.count t + (l.report.count t + (writesOf queue).count t))
  /-- The writer has been given what was applied. -/
  contents : ∀ w ∈ a.writer, w.contents = (l.applied.map Prod.snd).foldl applyWrite []
  requests : ∀ c, l.requests.count c = (answers.map Prod.fst).count c +
    (l.inFlight.toList.count c + (requestsOf queue).count c)
  /-- Reports are errors that were answered. -/
  reports : ∀ entry ∈ l.reported,
    ∃ error, (entry.2, .error error) ∈ answers ∧ error.lost.isSome = true
  /-- A success has every write before it. -/
  success : ∀ c ∈ l.commits, (c, .ok ()) ∈ answers → ∀ t ∈ l.writes, t < c →
    t ∈ l.applied.map Prod.fst ∨ t ∈ l.reported.map Prod.fst

@[simp] theorem writesOf_nil : writesOf ([] : List (Nat × ShardMsg α)) = [] := rfl

@[simp] theorem requestsOf_nil : requestsOf ([] : List (Nat × ShardMsg α)) = [] := rfl

/-- One message more, -/
theorem writesOf_cons (t : Nat) (m : ShardMsg α) (queue : List (Nat × ShardMsg α)) :
    writesOf ((t, m) :: queue) = if m.isWrite then t :: writesOf queue else writesOf queue := by
  cases h : m.isWrite <;> simp [writesOf, h]

/-- one request more. -/
theorem requestsOf_cons (t : Nat) (m : ShardMsg α) (queue : List (Nat × ShardMsg α)) :
    requestsOf ((t, m) :: queue) =
      if m.replyTo.isSome then t :: requestsOf queue else requestsOf queue := by
  cases h : m.replyTo.isSome <;> simp [requestsOf, h]

/-- Two queues, -/
theorem writesOf_append (queue queue' : List (Nat × ShardMsg α)) :
    writesOf (queue ++ queue') = writesOf queue ++ writesOf queue' := by
  simp [writesOf]

/-- and their requests. -/
theorem requestsOf_append (queue queue' : List (Nat × ShardMsg α)) :
    requestsOf (queue ++ queue') = requestsOf queue ++ requestsOf queue' := by
  simp [requestsOf]

namespace InOrder

variable {commits : List Nat} {next t : Nat} {m : ShardMsg α} {queue : List (Nat × ShardMsg α)}

/-- No message. -/
theorem nil : InOrder commits next ([] : List (Nat × ShardMsg α)) where
  sorted := List.Pairwise.nil
  deferrable := forall_mem_nil _
  others := forall_mem_nil _
  below := forall_mem_nil _

/-- The head is taken. -/
theorem tail (h : InOrder commits next ((t, m) :: queue)) : InOrder commits next queue where
  sorted := h.sorted.of_cons
  deferrable entry hentry := h.deferrable entry (mem_cons_of_mem _ hentry)
  others entry hentry := h.others entry (mem_cons_of_mem _ hentry)
  below entry hentry := h.below entry (mem_cons_of_mem _ hentry)

/-- The tickets behind the head. -/
theorem head_lt (h : InOrder commits next ((t, m) :: queue)) : ∀ entry ∈ queue, t < entry.1 := by
  intro entry hentry
  exact rel_of_pairwise_cons h.sorted (mem_map_of_mem hentry)

/-- A later ticket goes to the end. -/
theorem snoc (h : InOrder commits next queue) (ht : next ≤ t) (hcommits : ∀ c ∈ commits, c < next)
    (hm : m.isDeferrable = true) (hreply : ∀ reply ∈ m.replyTo, reply = t) :
    InOrder (if m.isCommit then commits ++ [t] else commits) (t + 1) (queue ++ [(t, m)]) where
  sorted := by
    rw [map_append, pairwise_append]
    refine ⟨h.sorted, pairwise_singleton _ _, ?_⟩
    intro x hx y hy
    obtain ⟨entry, hentry, rfl⟩ := mem_map.mp hx
    obtain rfl : y = t := by simpa using hy
    exact Nat.lt_of_lt_of_le (h.below entry hentry) ht
  deferrable := forall_mem_append.mpr ⟨h.deferrable, forall_mem_singleton.mpr ⟨hm, hreply⟩⟩
  others := by
    intro entry hentry hother hcommit
    have hcommit : entry.1 ∈ commits ∨ (m.isCommit = true ∧ entry.1 = t) := by
      cases hc : m.isCommit <;> simpa [hc] using hcommit
    rcases mem_append.mp hentry with hentry | hentry
    · rcases hcommit with hcommit | ⟨-, heq⟩
      · exact h.others entry hentry hother hcommit
      · exact absurd (h.below entry hentry) (by omega)
    · rw [mem_singleton.mp hentry] at hother hcommit
      rcases hcommit with hcommit | ⟨hc, -⟩
      · exact absurd (hcommits t hcommit) (Nat.not_lt.mpr ht)
      · rw [hc] at hother
        cases hother
  below := by
    refine forall_mem_append.mpr ⟨fun entry hentry => ?_, forall_mem_singleton.mpr ?_⟩
    · exact Nat.lt_succ_of_lt (Nat.lt_of_lt_of_le (h.below entry hentry) ht)
    · exact Nat.lt_succ_self _

end InOrder

theorem map_fst_tickets (tickets : List Nat) (reply : Reply) :
    (tickets.map fun w => (w, reply)).map Prod.fst = tickets := by
  rw [map_map]
  exact map_id _

section Noted

variable {b : Bool} {tickets : List Nat} {next t w : Nat}

/-- A ticket noted, if it is of the kind. -/
theorem mem_noted (h : w ∈ if b then tickets ++ [t] else tickets) : w ∈ tickets ∨ w = t := by
  cases b
  · exact .inl h
  · simpa using h

variable (hbelow : ∀ w ∈ tickets, w < next) (ht : next ≤ t)
include hbelow ht

/-- Tickets noted are below the next. -/
theorem lt_of_mem_noted : ∀ w ∈ if b then tickets ++ [t] else tickets, w < t + 1 := by
  intro w hw
  rcases mem_noted hw with hw | rfl
  · exact Nat.lt_succ_of_lt (Nat.lt_of_lt_of_le (hbelow w hw) ht)
  · exact Nat.lt_succ_self _

/-- No ticket is noted twice. -/
theorem nodup_noted (h : tickets.Nodup) : (if b then tickets ++ [t] else tickets).Nodup := by
  have hfresh : t ∉ tickets := fun hmem => absurd (hbelow t hmem) (Nat.not_lt.mpr ht)
  cases b
  · exact h
  · simpa [nodup_append, h] using fun w hw => ne_of_mem_of_not_mem hw hfresh

end Noted

namespace Kept

variable {a : ShardActor α} {l : Ledger α} {answers : List (Reply × CommitAnswer)}
  {queue : List (Nat × ShardMsg α)} {t : Nat} {m : ShardMsg α}

section

variable (h : Kept a l answers queue)
include h

/-- Whatever was answered was asked for. -/
theorem answered_lt {c : Nat} (hc : c ∈ answers.map Prod.fst) : c < l.next := by
  have hcount := h.requests c
  have hpos := count_pos_iff.mpr hc
  exact h.below.2.1 c (count_pos_iff.mp (by omega))

/-- So is the commit in flight. -/
theorem inFlight_lt {c : Nat} (hc : c ∈ l.inFlight) : c < l.next := by
  have hcount := h.requests c
  have hpos : 0 < l.inFlight.toList.count c := count_pos_iff.mpr (Option.mem_toList.mpr hc)
  exact h.below.2.1 c (count_pos_iff.mp (by omega))

/-- No commit in flight, none in the ledger. -/
theorem idle_of (hflight : a.commitInFlight = false) : l.inFlight = none := by
  simpa [hflight] using h.flight.symm

/-- And every commit taken. -/
theorem commit_lt {c : Nat} (hc : c ∈ l.commits) : c < l.next := h.below.2.1 c (h.below.2.2 c hc)

/-- **A message is taken**: it goes behind what is deferred. -/
theorem enter (ht : l.next ≤ t) (hm : m.isDeferrable = true)
    (hreply : ∀ reply ∈ m.replyTo, reply = t) :
    Kept a (l.enter t m) answers (queue ++ [(t, m)]) where
  __ := h
  flying := by
    intro c hc
    obtain ⟨hlost, hqueue⟩ := h.flying c hc
    refine ⟨hlost, forall_mem_append.mpr ⟨hqueue, forall_mem_singleton.mpr ?_⟩⟩
    exact Nat.lt_of_lt_of_le (h.inFlight_lt hc) ht
  ordered := h.ordered.snoc ht (fun c hc => h.commit_lt hc) hm hreply
  below := by
    refine ⟨lt_of_mem_noted h.below.1 ht, lt_of_mem_noted h.below.2.1 ht, ?_⟩
    intro c hc
    cases m <;> simp [enter, isCommit, replyTo] at hc ⊢ <;> first
      | exact h.below.2.2 c hc
      | exact .inl (h.below.2.2 c hc)
      | exact hc.imp_left (h.below.2.2 c)
  nodup := ⟨nodup_noted h.below.1 ht h.nodup.1, nodup_noted h.below.2.1 ht h.nodup.2⟩
  writes := by
    intro w
    have := h.writes w
    rw [writesOf_append, writesOf_cons]
    cases hc : m.isWrite <;> simp [Ledger.enter, hc, count_append] <;> omega
  requests := by
    intro c
    have := h.requests c
    rw [requestsOf_append, requestsOf_cons]
    cases hr : m.replyTo.isSome <;> simp [Ledger.enter, hr, count_append] <;> omega
  success := by
    intro c hc hanswer w hw hlt
    have hold : c < l.next := h.answered_lt (mem_map_of_mem hanswer)
    have hc : c ∈ l.commits := (mem_noted hc).resolve_right (by omega)
    exact h.success c hc hanswer w ((mem_noted hw).resolve_right (by omega)) hlt

/-- A write that is neither lost nor deferred is applied or reported. -/
theorem settled (hlost : l.lost = []) (hreport : l.report = []) {w : Nat}
    (hw : w ∈ l.writes) (hqueue : ∀ entry ∈ queue, entry.2.isWrite = true → w ≠ entry.1) :
    w ∈ l.applied.map Prod.fst ∨ w ∈ l.reported.map Prod.fst := by
  have hcount := h.writes w
  have hpos := count_pos_iff.mpr hw
  have hzero : (writesOf queue).count w = 0 := by
    rw [count_eq_zero]
    intro hmem
    obtain ⟨entry, hentry, heq⟩ := mem_map.mp hmem
    obtain ⟨hentry, hwrite⟩ := mem_filter.mp hentry
    exact hqueue entry hentry hwrite heq.symm
  rw [hlost, hreport, hzero, count_nil] at hcount
  rcases Nat.eq_zero_or_pos ((l.applied.map Prod.fst).count w) with hnone | hsome
  · exact .inr (count_pos_iff.mp (by omega))
  · exact .inl (count_pos_iff.mp hsome)

end

/-- **A write is executed.** -/
theorem execute_write (h : Kept a l answers ((t, m) :: queue)) (hidle : l.inFlight = none)
    (hm : m.isWrite = true) :
    Kept (a.handleOpen m).actor (l.execute a t m) (answers ++ (a.handleOpen m).answers) queue := by
  obtain ⟨b, hb, hflight, hreport, houtcome⟩ := a.handleOpen_write hm
  have hnone : m.replyTo.isSome = false := by cases m <;> first | rfl | cases hm
  have hwrites := h.writes
  have hrequests := h.requests
  simp only [writesOf_cons, hm, if_true, count_cons] at hwrites
  simp only [requestsOf_cons, hnone] at hrequests
  rw [hb, ShardActor.quietly, append_nil]
  -- the write goes to the applied ones, and into the writer, or to the lost ones
  obtain ⟨applied, lost, hone, hl, hlost, hcontents⟩ :
      ∃ (applied : List (Nat × ShardMsg α)) (lost : List Nat),
        applied.map Prod.fst ++ lost = [t] ∧
      l.execute a t m = { l with applied := l.applied ++ applied, lost := l.lost ++ lost } ∧
      b.lost.length = (l.lost ++ lost).length ∧ ∀ w ∈ b.writer,
        w.contents = ((l.applied ++ applied).map Prod.snd).foldl applyWrite [] := by
    cases happlies : a.appliesWrite m with
    | true =>
      rw [happlies, if_pos rfl] at houtcome
      refine ⟨[(t, m)], [], rfl, by simp [execute, hm, happlies], ?_, fun w hw => ?_⟩
      · rw [houtcome.1, append_nil, h.lost]
      · obtain ⟨v, hv, hwv⟩ := houtcome.2 w hw
        rw [hwv, h.contents v hv, map_append, foldl_append]
        rfl
    | false =>
      rw [happlies, if_neg Bool.false_ne_true] at houtcome
      obtain ⟨⟨entry, hlost⟩, hwriter⟩ := houtcome
      refine ⟨[], [t], rfl, by simp [execute, hm, happlies], ?_, fun w hw => ?_⟩
      · rw [hlost, length_append, length_append, h.lost]
        rfl
      · rw [append_nil]
        exact h.contents w (hwriter ▸ hw)
  rw [hl]
  exact
    { h with
      lost := hlost
      report := by rw [hreport]; exact h.report
      flight := by rw [hflight]; exact h.flight
      flying := fun c hc => by rw [hidle] at hc; cases hc
      ordered := h.ordered.tail
      writes := fun w => by
        have hcount := congrArg (count w) hone
        have := hwrites w
        simp only [map_append, count_append, count_singleton] at hcount ⊢
        omega
      contents := hcontents
      requests := hrequests
      success := fun c hc hanswer w hw hlt => by
        rcases h.success c hc hanswer w hw hlt with happlied | hreported
        · refine .inl ?_
          rw [map_append]
          exact mem_append_left _ happlied
        · exact .inr hreported }

/-- **A commit starts**: it takes the lost writes with it. -/
theorem start {fast : Bool} {reply : Reply}
    (h : Kept a l answers ((t, .commit fast reply) :: queue)) (hidle : l.inFlight = none) :
    Kept { a with lost := [], lostReport := a.takeLostReport, commitInFlight := true }
      { l with report := l.lost, lost := [], inFlight := some t } answers queue := by
  have hempty : a.lost.isEmpty = l.lost.isEmpty := by
    have := h.lost
    cases ha : a.lost <;> cases hl : l.lost <;> simp_all
  exact
    { h with
      lost := rfl
      report := by rw [a.isSome_takeLostReport, hempty]
      flight := rfl
      idle := fun hnone => by cases hnone
      flying := fun c hc => by
        obtain rfl : t = c := Option.some.inj hc
        exact ⟨rfl, h.ordered.head_lt⟩
      ordered := h.ordered.tail
      writes := fun w => by
        have := h.writes w
        simp only [writesOf_cons, isWrite, h.idle hidle, count_nil] at this ⊢
        simp at this
        omega
      requests := fun c => by
        have := h.requests c
        simp only [requestsOf_cons, replyTo, hidle, Option.isSome_some, if_true,
          count_cons, Option.toList_none, count_nil] at this
        simp only [Option.toList_some, count_singleton]
        omega }

/-- **The commit in flight is answered.** -/
theorem settle (h : Kept a l answers queue) {c : Nat} (hc : l.inFlight = some c)
    (result : Except CommitStage Unit) :
    Kept { a with lostReport := none, commitInFlight := false } (l.settle c)
      (answers ++ [(c, commitResult result a.lostReport)]) queue := by
  obtain ⟨hlost, hbehind⟩ := h.flying c hc
  exact
    { h with
      report := rfl
      flight := rfl
      idle := fun _ => rfl
      flying := fun _ hnone => by cases hnone
      writes := fun w => by
        have := h.writes w
        simp only [Ledger.settle, map_append, map_fst_tickets, count_append, count_nil]
        omega
      requests := fun c' => by
        have := h.requests c'
        simp only [hc, Option.toList_some, count_singleton] at this
        simp only [Ledger.settle, map_append, map_cons, map_nil, count_append,
          count_singleton, Option.toList_none, count_nil]
        omega
      reports := fun entry hentry => by
        rcases mem_append.mp hentry with hentry | hentry
        · exact (h.reports entry hentry).imp fun _ => .imp_left (mem_append_left _)
        · obtain ⟨w, hw, rfl⟩ := mem_map.mp hentry
          have hsome : a.lostReport.isSome = true := by
            rw [h.report]
            cases hreport : l.report with
            | nil =>
              rw [hreport] at hw
              cases hw
            | cons _ _ => rfl
          obtain ⟨report, hreport⟩ := Option.isSome_iff_exists.mp hsome
          obtain ⟨error, herror, hcarries⟩ := commitResult_some result report
          refine ⟨error, mem_append_right _ ?_, hcarries⟩
          rw [hreport, herror]
          exact mem_singleton_self _
      success := fun c' hc' hanswer w hw hlt => by
        rcases mem_append.mp hanswer with hanswer | hanswer
        · rcases h.success c' hc' hanswer w hw hlt with happlied | hreported
          · exact .inl happlied
          · refine .inr ?_
            simp only [Ledger.settle, map_append]
            exact mem_append_left _ hreported
        · -- a success of this commit: there was nothing to report
          obtain ⟨rfl, hok⟩ := Prod.mk.inj (mem_singleton.mp hanswer)
          have hreport : l.report = [] := by
            have := h.report
            rw [commitResult_ok hok.symm] at this
            simpa using this.symm
          have hsettled := h.settled hlost hreport hw fun entry hentry _ heq => by
            have := hbehind entry hentry
            omega
          simpa [Ledger.settle, hreport] using hsettled }

/-- A commit is executed. Without a writer it is answered at once, as one that starts and ends. -/
theorem execute_commit {fast : Bool} {reply : Reply}
    (h : Kept a l answers ((t, .commit fast reply) :: queue)) (hidle : l.inFlight = none) :
    Kept (a.handleOpen (.commit fast reply)).actor (l.execute a t (.commit fast reply))
      (answers ++ (a.handleOpen (.commit fast reply)).answers) queue := by
  cases hreach : a.isReachable with
  | true =>
    rw [a.handleOpen_commit_reachable hreach, append_nil]
    simpa [Ledger.execute, isWrite, isCommit, hreach] using h.start hidle
  | false =>
    obtain ⟨result, hresult⟩ := a.handleOpen_commit_unreachable hreach fast reply
    obtain rfl : reply = t := (h.ordered.deferrable _ mem_cons_self).2 reply rfl
    have hflight : a.commitInFlight = false := by rw [h.flight, hidle]; rfl
    have hreport : a.lostReport = none := by simpa [h.idle hidle] using h.report
    have hended := (h.start hidle).settle rfl result
    have hactor : ({ a with lost := [], lostReport := none, commitInFlight := false } :
        ShardActor α) = { a with lost := [] } := by rw [← hreport, ← hflight]
    have hl : l.execute a reply (.commit fast reply) =
        Ledger.settle { l with report := l.lost, lost := [], inFlight := some reply } reply := by
      simp [Ledger.execute, Ledger.settle, isWrite, isCommit, hreach, hidle, h.idle hidle]
    rw [hresult, hl]
    exact hactor ▸ hended

/-- A drain is acknowledged. -/
theorem execute_drain {reply : Reply} (h : Kept a l answers ((t, .drain reply) :: queue))
    (hidle : l.inFlight = none) :
    Kept (a.handleOpen (.drain reply)).actor (l.execute a t (.drain reply))
      (answers ++ (a.handleOpen (.drain reply)).answers) queue := by
  obtain rfl : reply = t := (h.ordered.deferrable _ mem_cons_self).2 reply rfl
  have hother : reply ∉ l.commits := h.ordered.others _ mem_cons_self rfl
  have hl : l.execute a reply (.drain reply) = l := rfl
  rw [hl]
  exact
    { h with
      flying := fun c hc => by rw [hidle] at hc; cases hc
      ordered := h.ordered.tail
      writes := fun w => by simpa [writesOf_cons, isWrite] using h.writes w
      requests := fun c => by
        have := h.requests c
        simp only [requestsOf_cons, replyTo, hidle, Option.isSome_some, if_true,
          count_cons, Option.toList_none, count_nil] at this
        simp only [ShardActor.handleOpen, map_append, map_cons, map_nil,
          count_append, count_singleton, hidle, Option.toList_none, count_nil]
        omega
      reports := fun entry hentry =>
        (h.reports entry hentry).imp fun _ => .imp_left (mem_append_left _)
      success := fun c hc hanswer => by
        rcases mem_append.mp hanswer with hanswer | hanswer
        · exact h.success c hc hanswer
        · obtain ⟨rfl, -⟩ := Prod.mk.inj (mem_singleton.mp hanswer)
          exact absurd hc hother }

/-- **The head of the queue is executed.** -/
theorem execute (h : Kept a l answers ((t, m) :: queue)) (hidle : l.inFlight = none) :
    Kept (a.handleOpen m).actor (l.execute a t m) (answers ++ (a.handleOpen m).answers) queue := by
  have hm := (h.ordered.deferrable _ mem_cons_self).1
  cases m with
  | insert doc | delete nodeId => exact h.execute_write hidle rfl
  | commit fast reply => exact h.execute_commit hidle
  | drain reply => exact h.execute_drain hidle
  | indexersDrained _ _ | flushDone _ _ | commitDone _ _ | shutdown _ => cases hm

/-- The shutdown is acknowledged. -/
theorem answerShutdown (h : Kept a l answers []) (ht : l.next ≤ t) :
    Kept a (l.enter t (.shutdown t)) (answers ++ [(t, .ok ())]) [] where
  __ := h
  ordered := .nil
  below := ⟨lt_of_mem_noted (b := false) h.below.1 ht, lt_of_mem_noted (b := true) h.below.2.1 ht,
    fun c hc => mem_append_left _ (h.below.2.2 c hc)⟩
  nodup := ⟨h.nodup.1, nodup_noted (b := true) h.below.2.1 ht h.nodup.2⟩
  requests := by
    intro c
    have := h.requests c
    simp only [Ledger.enter, replyTo, Option.isSome_some, if_true, map_append,
      map_cons, map_nil, count_append]
    omega
  reports entry hentry := (h.reports entry hentry).imp fun _ => .imp_left (mem_append_left _)
  success := by
    intro c hc hanswer
    rcases mem_append.mp hanswer with hanswer | hanswer
    · exact h.success c hc hanswer
    · obtain ⟨rfl, -⟩ := Prod.mk.inj (mem_singleton.mp hanswer)
      exact absurd (h.commit_lt hc) (Nat.not_lt.mpr ht)

/-- The books do not depend on where the deferred messages are kept. -/
theorem move (h : Kept a l answers queue) (deferred : List (ShardMsg α))
    (waiting : List (Nat × ShardMsg α)) :
    Kept { a with deferred := deferred } { l with waiting := waiting } answers queue :=
  { h with }

/-- The writer may change as long as it keeps what it was given. -/
theorem setWriter (h : Kept a l answers queue) {writer : Option (ShardWriter α)}
    (hwriter : ∀ w ∈ writer, ∃ v ∈ a.writer, w.contents = v.contents) :
    Kept { a with writer := writer } l answers queue :=
  { h with
    contents := fun w hw => by
      obtain ⟨v, hv, hwv⟩ := hwriter w hw
      rw [hwv, h.contents v hv] }

end Kept

/-! ## Deferred messages -/

/-- Work is started exactly for the commit that starts. -/
theorem handleOpen_work {a : ShardActor α} {l : Ledger α} {t : Nat} {m : ShardMsg α}
    (hidle : l.inFlight = none) (hreply : ∀ reply ∈ m.replyTo, reply = t) :
    (a.handleOpen m).work.map Work.reply = (l.execute a t m).inFlight ∧
      (a.handleOpen m).stop = false := by
  cases hm : m.isWrite with
  | true =>
    obtain ⟨b, hb, -⟩ := a.handleOpen_write hm
    rw [hb]
    refine ⟨?_, rfl⟩
    simp only [execute, hm, if_true]
    split <;> exact hidle.symm
  | false =>
    cases m with
    | commit fast reply =>
      obtain rfl : reply = t := hreply reply rfl
      cases hreach : a.isReachable with
      | true =>
        rw [a.handleOpen_commit_reachable hreach]
        simp [execute, isWrite, isCommit, hreach, Work.reply]
      | false =>
        obtain ⟨result, hresult⟩ := a.handleOpen_commit_unreachable hreach fast reply
        rw [hresult]
        simp [execute, isWrite, isCommit, hreach, hidle]
    | insert _ | delete _ => cases hm
    | drain _ | indexersDrained _ _ | flushDone _ _ | commitDone _ _ | shutdown _ =>
      exact ⟨hidle.symm, rfl⟩

/-- What is left when deferred messages have been handled. -/
structure Replayed (prior : List (Reply × CommitAnswer)) (r : Reaction α) (l : Ledger α) :
    Prop where
  kept : Kept r.actor l (prior ++ r.answers) l.waiting
  deferred : r.actor.deferred = l.waiting.map Prod.snd
  /-- Only a commit in flight defers. -/
  quiet : l.inFlight = none → l.waiting = []
  /-- The commit in flight has its work. -/
  work : r.work.map Work.reply = l.inFlight
  stop : r.stop = false

/-- **The deferred messages are handled in their order**, until one of them starts a commit. -/
theorem Kept.replay {prior : List (Reply × CommitAnswer)} {queue : List (Nat × ShardMsg α)}
    {r : Reaction α} {l : Ledger α} (h : Kept r.actor l (prior ++ r.answers) queue)
    (hwork : r.work.map Work.reply = l.inFlight) (hstop : r.stop = false) :
    Replayed prior (ShardActor.runDeferred (queue.map Prod.snd) r) (replay queue r.actor l) := by
  induction queue generalizing r l with
  | nil => exact ⟨h.move [] [], rfl, fun _ => rfl, hwork, hstop⟩
  | cons entry queue ih =>
    rw [map_cons, ShardActor.runDeferred, Ledger.replay]
    cases hflight : r.actor.commitInFlight with
    | true =>
      refine ⟨h.move _ _, rfl, fun hnone => ?_, hwork, hstop⟩
      have := h.flight
      rw [hflight, show l.inFlight = none from hnone] at this
      cases this
    | false =>
      have hidle := h.idle_of hflight
      have hnowork : r.work = none := by
        rw [hidle] at hwork
        simpa using hwork
      obtain ⟨hwork', hstop'⟩ := handleOpen_work hidle
        (h.ordered.deferrable _ mem_cons_self).2 (a := r.actor)
      have hkept := h.execute hidle
      rw [append_assoc] at hkept
      refine ih hkept ?_ ?_
      · rw [hnowork, Option.none_or]
        exact hwork'
      · rw [hstop, hstop']
        rfl

end Lucivy.Sharded
