import Lucivy.Indexer.MergesInFlight
import Lucivy.Indexer.MetaHistory

/-! # The flag of pending merges

`pending_merge_tasks` is one boolean for any number of batches: every batch that is started
raises it, and `handle_merges_done` lowers it when it starts nothing itself.
`wait_merging_thread` polls it to learn whether merges still run.

* `FlagTells` — the flag is up exactly while a batch is in flight.
* `handle_flag` — a message keeps that, if a done message finds no other batch in flight and
  what the policy proposes next can be started.
* `flagTells_of_finishesAlone` — every run of such messages keeps it; `flag_misleads` has a
  run of each kind that does not. -/

namespace Lucivy.Indexer

open Lucivy.Foundation Lucivy.SuffixFst

variable {τ : Type}

/-! ## The flag and the batches -/

/-- **The flag tells the truth**: up while a batch is in flight, down when none is. -/
structure FlagTells (s : SegmentUpdaterState τ) : Prop where
  /-- Never quiet while a batch runs. -/
  up : s.inFlight ≠ [] → s.pendingMergeTasks = true
  /-- Never waiting for nothing. -/
  down : s.inFlight = [] → s.pendingMergeTasks = false

theorem FlagTells.of_mergeState {s t : SegmentUpdaterState τ} (hs : FlagTells s)
    (h : mergeState t = mergeState s) : FlagTells t := by
  simp only [mergeState, mergeBook, Prod.mk.injEq, MergeBook.mk.injEq] at h
  obtain ⟨hflag, -, hflight⟩ := h
  constructor
  · rw [hflag, hflight]
    exact hs.up
  · rw [hflag, hflight]
    exact hs.down

variable {s : SegmentUpdaterState τ}

/-- Nothing in flight, and the flag down. -/
theorem FlagTells.of_quiet (hflag : s.pendingMergeTasks = false) (hnone : s.inFlight = []) :
    FlagTells s :=
  ⟨fun h => absurd hnone h, fun _ => hflag⟩

/-- A batch in flight, and the flag up. -/
theorem FlagTells.of_busy (hflag : s.pendingMergeTasks = true) (hsome : s.inFlight ≠ []) :
    FlagTells s :=
  ⟨fun _ => hflag, fun h => absurd h hsome⟩

/-! ## Starting a batch -/

section Start

/-- What leaves the merge state alone keeps the flag truthful. -/
theorem flagTells_of_keeps {α : Type} {x : Handler τ α} (h : Keeps mergeState x) :
    Triple FlagTells x (fun _ => FlagTells) FlagTells :=
  triple_of_relates h fun _ _ hs hst => hs.of_mergeState hst

theorem flagTells_of_bookkeeping {α : Type} {x : Handler τ α} (h : Keeps bookkeeping x) :
    Triple FlagTells x (fun _ => FlagTells) FlagTells :=
  flagTells_of_keeps (mergeState_of_bookkeeping h)

/-- Started or refused, a batch keeps the flag truthful. -/
theorem handleStartMerges_flag (scan : SegmentId → Option DeleteScan) (ops : List MergeOperation) :
    Triple FlagTells (handleStartMerges scan ops : Handler τ Unit) (fun _ => FlagTells)
      FlagTells := by
  refine triple_bind (flagTells_of_keeps (keeps_get_bind fun _ => rfl)) fun info => ?_
  refine triple_bind (flagTells_of_bookkeeping (purgeAndCommit_bookkeeping _ _)) fun _ => ?_
  refine triple_bind (flagTells_of_bookkeeping (refuseIfMerging_bookkeeping _)) fun _ => ?_
  refine triple_bind (flagTells_of_bookkeeping (startMerges_bookkeeping _)) fun _ => ?_
  -- only here the flag and the batches change, and both at once
  refine triple_modify fun s _ => .of_busy rfl ?_
  simp

/-- The batch that was started is the last in flight. -/
theorem handleStartMerges_busy {P : SegmentUpdaterState τ → Prop}
    (scan : SegmentId → Option DeleteScan) (ops : List MergeOperation) :
    Triple P (handleStartMerges scan ops : Handler τ Unit) (fun _ => FlagTells) fun _ => True := by
  have hany : ∀ {α : Type} {x : Handler τ α},
      Triple (fun _ => True) x (fun _ _ => True) fun _ => True :=
    ⟨fun _ _ _ _ _ => trivial, fun _ _ _ _ _ => trivial⟩
  refine (triple_bind hany fun info => triple_bind hany fun _ => triple_bind hany fun _ =>
    triple_bind hany fun _ => triple_modify fun s _ => ?_).mono_pre fun _ _ => trivial
  refine .of_busy rfl ?_
  simp

theorem policyMerges_flag (io : Io) (opstamp : Opstamp) :
    Triple FlagTells (policyMerges io opstamp : Handler τ Bool) (fun _ => FlagTells) FlagTells := by
  refine triple_bind (flagTells_of_bookkeeping committedSegmentMetas_bookkeeping) fun _ => ?_
  refine triple_get_bind fun s hs => triple_ite (fun _ => ?_) fun _ => ?_
  · exact triple_pure fun t ht => ht ▸ hs
  · refine triple_bind (Q := fun _ => FlagTells) ?_ fun _ => triple_pure fun _ => id
    exact (handleStartMerges_flag _ _).mono_pre fun t ht => ht ▸ hs

/-- The policy's turn after a batch: a batch was started, or the batches in flight are as
they were. -/
theorem policyMerges_cascade (io : Io) (opstamp : Opstamp) :
    Triple (fun s => s.inFlight = []) (policyMerges io opstamp : Handler τ Bool)
      (fun started s => if started then FlagTells s else s.inFlight = []) fun _ => True := by
  refine triple_bind (Q := fun _ s => s.inFlight = [])
    ⟨fun s hs a t hrun => ?_, fun _ _ _ _ _ => trivial⟩ fun _ => ?_
  · cases hrun
    exact hs
  refine triple_get_bind fun s hs => triple_ite (fun _ => ?_) fun _ => ?_
  · refine triple_pure fun t ht => ?_
    simpa [ht] using hs
  · refine triple_bind (handleStartMerges_busy _ _) fun _ => triple_pure fun t ht => ?_
    simpa using ht

end Start

/-! ## The end of a batch -/

/-- **The condition on the cascade**: the deletes of the segments in question can be purged,
and the policy proposes segments it was shown. -/
structure CascadeStarts (io : Io) : Prop where
  /-- Purging the deletes for the policy's merges. -/
  policyPurge : ∀ id, (io.policyPurge id).isSome
  /-- The policy proposes segments it was shown. -/
  policy : ∀ metas, ∀ candidate ∈ io.policy metas, ∀ id ∈ candidate, id ∈ metas.map SegmentMeta.id

/-- A cascade that can be started does not end the handler early. -/
theorem policyMerges_starts {io : Io} (h : CascadeStarts io) (opstamp : Opstamp)
    {P : SegmentUpdaterState τ → Prop} {Q : Bool → SegmentUpdaterState τ → Prop}
    {E E' : SegmentUpdaterState τ → Prop}
    (hx : Triple P (policyMerges io opstamp : Handler τ Bool) Q E) :
    Triple P (policyMerges io opstamp : Handler τ Bool) Q E' where
  ok := hx.ok
  error s hs e t hrun := by
    obtain ⟨b, u, hok⟩ := policyMerges_ok h.policyPurge h.policy opstamp s
    rw [hok] at hrun
    cases hrun

/-- **The last batch is done**: the flag goes down, unless the policy started the next one. A
failed batch ends with the flag down as well. -/
theorem handleMergesDone_flag {io : Io} (h : CascadeStarts io) (batch : MergeBatch)
    (results : Nat → TaskResult) :
    Triple (fun s => s.inFlight = []) (handleMergesDone io batch results : Handler τ Unit)
      (fun _ => FlagTells) FlagTells := by
  refine triple_bind (Q := fun _ s => s.inFlight = []) (triple_modify fun s hs => hs) fun _ => ?_
  have hinner : Triple (fun s => s.inFlight = [])
      (attempt (mergesDoneInner io batch results) : Handler τ _)
      (fun _ s => s.inFlight = []) FlagTells := by
    have hkeeps := relates_attempt (mergesDoneInner_book (τ := τ) io batch results)
    constructor
    · intro s hs r t hrun
      have hst := congrArg (fun k => k.2.inFlight) (finalState_eq_of_ok hrun ▸ hkeeps s)
      exact hst.trans hs
    · intro s hs e t hrun
      simp only [attempt, EStateM.run] at hrun
      cases hx : mergesDoneInner io batch results s <;> rw [hx] at hrun <;> cases hrun
  refine triple_bind hinner fun outcome => ?_
  cases outcome with
  | ok _ =>
    refine triple_bind (policyMerges_starts h _ (policyMerges_cascade io _)) fun started => ?_
    cases started with
    | true => exact triple_pure fun s hs => by simpa using hs
    | false => exact triple_modify fun s hs => .of_quiet rfl (by simpa using hs)
  | error e =>
    refine triple_bind (Q := fun _ => FlagTells) (triple_modify fun s hs => .of_quiet rfl hs)
      fun _ => ?_
    exact triple_throw fun _ => id

/-! ## Messages and runs -/

/-- **The condition on a step**: a batch is done while no other is in flight, and what the
policy proposes then can be started. -/
def FinishesAlone (s : SegmentUpdaterState τ) : UpdaterEvent → Prop
  | .handled (.mergesDone n _) io _ =>
    ∀ batch ∈ s.inFlight[n]?, s.inFlight = [batch] ∧ CascadeStarts io
  | _ => True

/-- **What a message does to the flag.** -/
theorem handle_flag {m : Message} {io : Io} {reply : Except LucivyError Unit} (hs : FlagTells s)
    (halone : FinishesAlone s (.handled m io reply)) : FlagTells (finalState (handle io m) s) := by
  cases m with
  | addSegment entry => exact hs.of_mergeState rfl
  | garbageCollect =>
    exact hs.of_mergeState (mergeState_of_bookkeeping (garbageCollectFiles_bookkeeping io) s)
  | startMerge op result => exact hs.of_mergeState (handleMerge_book io op result s)
  | dictionaryFolded => exact hs.of_mergeState (handleDictionaryFolded_book io s)
  | startMerges ops => exact (handleStartMerges_flag io.purge ops).finalState hs
  | compact maxDocs =>
    refine Triple.finalState (P := FlagTells) ?_ hs
    refine triple_bind (flagTells_of_bookkeeping committedSegmentMetas_bookkeeping) fun _ => ?_
    refine triple_get_bind fun t ht => triple_ite (fun _ => ?_) fun _ => ?_
    · exact triple_pure fun u hu => hu ▸ ht
    · exact (handleStartMerges_flag _ _).mono_pre fun u hu => hu ▸ ht
  | commit opstamp payload =>
    refine Triple.finalState (P := FlagTells) ?_ hs
    refine triple_bind (flagTells_of_bookkeeping (foldNewTexts_bookkeeping io)) fun _ => ?_
    refine triple_bind (flagTells_of_keeps (commitDag_book io opstamp payload)) fun _ => ?_
    refine triple_bind (flagTells_of_bookkeeping (deleteConsumedPairs_bookkeeping io)) fun _ => ?_
    exact triple_bind (policyMerges_flag io opstamp) fun _ => triple_pure fun _ => id
  | mergesDone n results =>
    rw [finalState, handle_mergesDone_run]
    cases hbatch : s.inFlight[n]? with
    | none => exact hs
    | some batch =>
      obtain ⟨honly, hcascade⟩ := halone batch hbatch
      -- the batch was the only one, so nothing is in flight once it is taken out
      have hn : n = 0 := by
        have hlt := (List.getElem?_eq_some_iff.mp hbatch).1
        rw [honly] at hlt
        simpa using hlt
      have hnone : s.inFlight.eraseIdx n = [] := by
        rw [honly, hn]
        rfl
      exact (handleMergesDone_flag hcascade batch results).finalState hnone

/-- **The flag over whole runs**: from a state without merges and with the flag down, in every
state of a run whose batches finish alone the flag tells the truth. -/
theorem flagTells_of_finishesAlone {s t : SegmentUpdaterState τ} {events : List UpdaterEvent}
    (hflag : s.pendingMergeTasks = false) (hnone : s.inFlight = [])
    (hrun : Run (Guarded UpdaterStep FinishesAlone) s events t) :
    (t.inFlight ≠ [] → t.pendingMergeTasks = true) ∧
      (t.inFlight = [] → t.pendingMergeTasks = false) := by
  have hkept : FlagTells t := by
    refine hrun.invariant (I := FlagTells) ?_ (.of_quiet hflag hnone)
    rintro u e v hu ⟨halone, hstep⟩
    cases e with
    | handled m io reply =>
      rw [hstep.finalState_eq]
      exact handle_flag hu halone
    | dictionaryWork =>
      cases hstep
      exact hu.of_mergeState rfl
  exact ⟨hkept.up, hkept.down⟩

/-- A batch started and, after a commit, done: the flag is up in between and down at the end. -/
theorem flagTells_one_batch :
    ∃ t u : SegmentUpdaterState Unit,
      Run (Guarded UpdaterStep FinishesAlone) (createdOn [.new 1 10 [], .new 2 10 []] 5 none)
        [.handled (.startMerges [⟨5, [1, 2]⟩]) calmIo (.ok ()),
          .handled (.commit 6 none) calmIo (.ok ())] t ∧
      UpdaterStep t (.handled (.mergesDone 0 fun _ => .failed) calmIo
        (.error (.systemError "merge"))) u ∧
      t.pendingMergeTasks = true ∧ u.pendingMergeTasks = false := by
  have hcascade : CascadeStarts calmIo := ⟨fun _ => rfl, fun _ _ h => absurd h List.not_mem_nil⟩
  obtain ⟨t, u, hrun, hdone, ht, hu⟩ : ∃ t u : SegmentUpdaterState Unit,
      Run (Guarded UpdaterStep FinishesAlone) (createdOn [.new 1 10 [], .new 2 10 []] 5 none)
        [.handled (.startMerges [⟨5, [1, 2]⟩]) calmIo (.ok ()),
          .handled (.commit 6 none) calmIo (.ok ())] t ∧
      UpdaterStep t (.handled (.mergesDone 0 fun _ => .failed) calmIo
        (.error (.systemError "merge"))) u ∧
      t.inFlight = [⟨[⟨5, [1, 2]⟩], 5, none⟩] ∧ u.inFlight = [] :=
    ⟨_, _, .snoc (.snoc .nil ⟨trivial, .ok rfl⟩) ⟨trivial, .ok rfl⟩, .error rfl, rfl, rfl⟩
  have halone : FinishesAlone t (.handled (.mergesDone 0 fun _ => .failed) calmIo
      (.error (.systemError "merge"))) := by
    intro batch hbatch
    rw [ht] at hbatch ⊢
    cases hbatch
    exact ⟨rfl, hcascade⟩
  exact ⟨t, u, hrun, hdone, (flagTells_of_finishesAlone rfl rfl hrun).1 (by simp [ht]),
    (flagTells_of_finishesAlone rfl rfl (.snoc hrun ⟨halone, hdone⟩)).2 hu⟩

/-! ## Where the flag misleads -/

/-- A policy that proposes segments 3 and 4, while deletes cannot be purged. -/
def cascadeFailsIo : Io := { calmIo with policy := fun _ => [[3, 4]], policyPurge := fun _ => none }

/-- **The flag misleads both ways.** Of two batches in flight the first to finish lowers the
flag under the other. And when a batch finishes and the policy's next merge cannot be
prepared, `policy_merges(..)?` leaves `handle_merges_done` before the flag is lowered: it stays
up with nothing in flight. -/
theorem flag_misleads :
    (∃ t : SegmentUpdaterState Unit,
      Run UpdaterStep (createdOn [.new 1 10 [], .new 2 10 [], .new 3 10 [], .new 4 10 []] 5 none)
        [.handled (.startMerges [⟨5, [1, 2]⟩]) calmIo (.ok ()),
          .handled (.startMerges [⟨5, [3, 4]⟩]) calmIo (.ok ()),
          .handled (.mergesDone 1 fun _ => .merged (some (twentyDocs 6))) calmIo (.ok ())] t ∧
      t.inFlight.map MergeBatch.segmentIds = [[1, 2]] ∧ t.pendingMergeTasks = false) ∧
    ∃ t : SegmentUpdaterState Unit,
      Run UpdaterStep (createdOn [.new 1 10 [], .new 2 10 [], .new 3 10 [], .new 4 10 []] 5 none)
        [.handled (.startMerges [⟨5, [1, 2]⟩]) calmIo (.ok ()),
          .handled (.addSegment ⟨.new 7 10 [], false, some 6⟩) calmIo (.ok ()),
          .handled (.mergesDone 0 fun _ => .merged (some (twentyDocs 6))) cascadeFailsIo
            (.error .ioError)] t ∧
      t.inFlight = [] ∧ t.pendingMergeTasks = true :=
  ⟨⟨_, .snoc (.snoc (.snoc .nil (.ok rfl)) (.ok rfl)) (.ok rfl), by decide, by decide⟩,
    ⟨_, .snoc (.snoc (.snoc .nil (.ok rfl)) (.ok rfl)) (.error rfl), by decide, by decide⟩⟩

end Lucivy.Indexer
