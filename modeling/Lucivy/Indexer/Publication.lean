import Lucivy.Indexer.HandlerFrames

/-! # What enters the committed register

The committed register is what `save_metas` writes to `meta.json`, so a segment becomes
searchable when it enters it. Adding a segment must not do that; a commit must; a finished
merge may, for a segment that replaces committed ones.

* `Entitled s e id` — the segments that may be committed after the event `e` of state `s`.
* `PublishesEntitled` — the step puts no other segment in the committed register or in
  `meta.json`.
* `MergeStartsSettled` — no merge is prepared while an uncommitted segment waits.
* `publishesEntitled_of_settled` — under that condition every step of every run publishes
  entitled segments only.
* `unsettled_merge_start_publishes` — without it a merge start publishes what no commit has
  covered: `PrepareNode` and `handle_start_merges` call `SegmentManager::commit` with the
  entries of *both* registers. -/

namespace Lucivy.Indexer

open Lucivy.Foundation Lucivy.SuffixFst List SegmentRegisters

variable {τ : Type}

/-! ## Statements -/

/-- The merges whose results the event `e` registers. -/
def finishedMerges (s : SegmentUpdaterState τ) : UpdaterEvent → List (MergeOperation × TaskResult)
  | .handled (.startMerge op result) _ _ => [(op, result)]
  | .handled (.mergesDone n results) _ _ =>
    match s.inFlight[n]? with
    | none => []
    | some batch => batch.ops.zipIdx.map fun (op, i) => (op, results i)
  | _ => []

/-- **Entitled segments**: those committed before the event, those a commit message finds in
the uncommitted register, and those a finished merge makes out of entitled ones. -/
inductive Entitled (s : SegmentUpdaterState τ) (e : UpdaterEvent) : SegmentId → Prop
  | already {id : SegmentId} : id ∈ s.registers.committed.ids → Entitled s e id
  | committed {id : SegmentId} {opstamp : Opstamp} {payload : Option String} {io : Io}
      {reply : Except LucivyError Unit} :
      e = .handled (.commit opstamp payload) io reply → id ∈ s.registers.uncommitted.ids →
      Entitled s e id
  | merged {op : MergeOperation} {entry : SegmentEntry} :
      (op, .merged (some entry)) ∈ finishedMerges s e →
      (∀ source ∈ op.segmentIds, Entitled s e source) → Entitled s e entry.id

/-- The step publishes entitled segments only, in the register and on disk. -/
structure PublishesEntitled (s : SegmentUpdaterState τ) (e : UpdaterEvent)
    (t : SegmentUpdaterState τ) : Prop where
  committed : ∀ id ∈ t.registers.committed.ids, Entitled s e id
  /-- The segment list of `meta.json`. -/
  written : ∀ id ∈ t.metaJson.segmentIds, id ∈ s.metaJson.segmentIds ∨ Entitled s e id

/-- **No merge is prepared while a segment waits uncommitted.** An explicit merge that is
refused, a compaction that plans nothing and a finished batch after which the policy stays
silent prepare nothing. -/
def MergeStartsSettled (s : SegmentUpdaterState τ) : UpdaterEvent → Prop
  | .handled (.startMerge op _) _ _ =>
    s.registers.uncommitted.ids = [] ∨ op.segmentIds.any (· ∈ s.merging)
  | .handled (.startMerges _) _ _ => s.registers.uncommitted.ids = []
  | .handled (.compact maxDocs) _ _ => s.registers.uncommitted.ids = [] ∨ compactOps maxDocs s = []
  | .handled (.mergesDone _ _) io _ =>
    s.registers.uncommitted.ids = [] ∨ ∀ metas, ∀ candidate ∈ io.policy metas, candidate.length ≤ 1
  | _ => True

/-! ## One operation after the other

`Inside allowed written pending` bounds the three lists at stake: the committed register, the
list in `meta.json`, and the uncommitted register. The predicates are those of the state the
message was handled in, so they stay fixed while the handler runs. -/

/-- Committed segments are `allowed`, listed ones `written`, uncommitted ones `pending`. -/
structure Inside (allowed written pending : SegmentId → Prop) (t : SegmentUpdaterState τ) :
    Prop where
  committed : ∀ id ∈ t.registers.committed.ids, allowed id
  /-- The segment list of `meta.json`. -/
  written : ∀ id ∈ t.metaJson.segmentIds, written id
  uncommitted : ∀ id ∈ t.registers.uncommitted.ids, pending id

section Inside

variable {allowed written pending : SegmentId → Prop}

/-- Quiet steps stay inside, -/
theorem Inside.of_quiet {s t : SegmentUpdaterState τ} (h : Inside allowed written pending s)
    (hquiet : QuietRegisters s t) (hmeta : t.metaJson = s.metaJson) :
    Inside allowed written pending t where
  committed id hid := h.committed id (hquiet.2 id hid)
  written id hid := h.written id (hmeta ▸ hid)
  uncommitted id hid := h.uncommitted id (hquiet.1 ▸ hid)

/-- and quiet handlers, -/
theorem inside_of_quiet {α : Type} {x : Handler τ α} (hquiet : Relates QuietRegisters x)
    (hbook : Keeps bookkeeping x) : Preserves (Inside allowed written pending) x :=
  fun s h => h.of_quiet (hquiet s) (congrArg Prod.fst (hbook s))

/-- and work on the dictionary. -/
theorem inside_of_outside {α : Type} {x : Handler τ α} (h : Keeps outsideDictionary x) :
    Preserves (Inside allowed written pending) x :=
  inside_of_quiet (quiet_of_outside h) (bookkeeping_of_outside h)

theorem committedSegmentMetas_inside :
    Preserves (Inside allowed written pending) (committedSegmentMetas : Handler τ _) :=
  inside_of_quiet committedSegmentMetas_quiet committedSegmentMetas_bookkeeping

/-- Writing `meta.json` lists the committed register. -/
theorem saveMetas_inside (hw : ∀ id, allowed id → written id) (io : Io) (opstamp : Opstamp)
    (payload : Option String) :
    Preserves (Inside allowed written pending) (saveMetas io opstamp payload : Handler τ _) := by
  intro s h
  rw [finalState, saveMetas_run]
  cases io.saveOk with
  | false => exact h.of_quiet ⟨rfl, fun _ h => mem_ids_removeEmptySegments h⟩ rfl
  | true =>
    refine ⟨fun id hid => ?_, fun id hid => ?_, h.uncommitted⟩
    · exact h.committed id (mem_ids_removeEmptySegments hid)
    · have hid := mem_segmentIds_insertionSort.mp hid
      exact hw id (h.committed id (mem_ids_removeEmptySegments hid))

/-- The register swap takes every uncommitted segment with it, so those must be allowed. -/
theorem purgeAndCommit_inside (hp : ∀ id, pending id → allowed id)
    (scan : SegmentId → Option DeleteScan) (opstamp : Opstamp) :
    Preserves (Inside allowed written pending) (purgeAndCommit scan opstamp : Handler τ _) := by
  refine relates_get_bind fun s h => ?_
  split
  · exact h
  · rename_i entries hpurge
    refine ⟨fun id hid => ?_, h.written, fun id hid => by cases hid⟩
    have hid : id ∈ s.registers.uncommitted.ids ++ s.registers.committed.ids := by
      rw [← purgeDeletes_ids hpurge]
      exact (mem_ids_commit (r := s.registers)).mp hid
    rcases mem_append.mp hid with hid | hid
    · exact hp id (h.uncommitted id hid)
    · exact h.committed id hid

theorem refuseIfMerging_outside (ids : List SegmentId) :
    Keeps outsideDictionary (refuseIfMerging ids : Handler τ _) := by
  refine keeps_get_bind fun s => ?_
  split <;> rfl

theorem startMerges_outside (ops : List MergeOperation) :
    Keeps outsideDictionary (startMerges ops : Handler τ _) := by
  refine keeps_get_bind fun s => ?_
  split <;> rfl

/-- `PrepareNode`. -/
theorem prepareNode_inside (hp : ∀ id, pending id → allowed id) (io : Io)
    (ops : List MergeOperation) (opstamp : Opstamp) :
    Preserves (Inside allowed written pending) (prepareNode io ops opstamp : Handler τ _) :=
  preserves_bind (purgeAndCommit_inside hp _ _) fun _ => inside_of_outside (startMerges_outside ops)

/-- Merges start. -/
theorem handleStartMerges_inside (hp : ∀ id, pending id → allowed id)
    (scan : SegmentId → Option DeleteScan) (ops : List MergeOperation) :
    Preserves (Inside allowed written pending) (handleStartMerges scan ops : Handler τ _) := by
  refine preserves_bind (fun _ => id) fun info => ?_
  refine preserves_bind (purgeAndCommit_inside hp _ _) fun _ => ?_
  refine preserves_bind (inside_of_outside (refuseIfMerging_outside _)) fun _ => ?_
  refine preserves_bind (inside_of_outside (startMerges_outside ops)) fun _ => ?_
  exact fun s h => h.of_quiet (quietRegisters_of_eq rfl) rfl

/-- The policy's merges: nothing to show when it proposes nothing. -/
theorem policyMerges_inside {io : Io}
    (hp : (∀ id, pending id → allowed id) ∨
      ∀ metas, ∀ candidate ∈ io.policy metas, candidate.length ≤ 1) (opstamp : Opstamp) :
    Preserves (Inside allowed written pending) (policyMerges io opstamp : Handler τ _) := by
  refine preserves_bind committedSegmentMetas_inside fun _ => ?_
  refine relates_get_bind fun s h => ?_
  by_cases hops : policyOps io opstamp s = []
  · rw [if_pos hops]
    exact h
  · rw [if_neg hops]
    rcases hp with hp | hsilent
    · exact preserves_bind (handleStartMerges_inside hp _ _) (fun _ => preserves_pure _) s h
    · refine absurd ?_ hops
      rw [policyOps, map_eq_nil_iff, filter_eq_nil_iff]
      intro candidate hmem
      have := hsilent _ candidate hmem
      simpa using this

/-- Catching up with deletes keeps the merged segment's id. -/
theorem catchUpDeletes_id {io : Io} {o : Opstamp} {entry after : SegmentEntry}
    (h : catchUpDeletes io o entry = some after) : after.id = entry.id := by
  unfold catchUpDeletes at h
  split at h
  · split at h
    · exact advanceDeletes_id h
    · cases h; rfl
  · cases h; rfl

/-- The registered entry is the merged one, up to its deletes. -/
theorem exists_entry_of_catchUp {io : Io} {o : Opstamp} {entry : Option SegmentEntry}
    {a : SegmentEntry} (h : entry.mapM (catchUpDeletes io o) = some (some a)) :
    ∃ e ∈ entry, a.id = e.id := by
  cases entry with
  | none => simp at h
  | some e =>
    simp only [Option.mapM_some, Option.map_eq_map, Option.map_eq_some_iff,
      Option.some.injEq] at h
    obtain ⟨a', ha', rfl⟩ := h
    exact ⟨e, rfl, catchUpDeletes_id ha'⟩

/-- A registered merge stays inside when the two registers' bounds are closed under it. -/
theorem registerMergeResult_inside {op : MergeOperation} {entry : Option SegmentEntry}
    (ha : ∀ e ∈ entry, (∀ src ∈ op.segmentIds, allowed src) → allowed e.id)
    (hp : ∀ e ∈ entry, (∀ src ∈ op.segmentIds, pending src) → pending e.id) (io : Io) :
    Preserves (Inside allowed written pending) (registerMergeResult io op entry : Handler τ _) := by
  refine relates_get_bind fun s h => ?_
  split
  · exact h
  · rename_i after hafter
    split
    · exact h
    · rename_i registers hend
      rcases endMerge_ok hend with ⟨hsrc, rfl⟩ | ⟨hsrc, rfl⟩
      · refine ⟨h.committed, h.written, fun id hmem => ?_⟩
        rcases mem_ids_replaceIn hmem with hmem | ⟨a, ha', rfl⟩
        · exact h.uncommitted id hmem
        · obtain ⟨e, he, hae⟩ := exists_entry_of_catchUp (ha' ▸ hafter)
          rw [hae]
          exact hp e he fun src hsrc' => h.uncommitted src (hsrc src hsrc')
      · refine ⟨fun id hmem => ?_, h.written, h.uncommitted⟩
        rcases mem_ids_replaceIn hmem with hmem | ⟨a, ha', rfl⟩
        · exact h.committed id hmem
        · obtain ⟨e, he, hae⟩ := exists_entry_of_catchUp (ha' ▸ hafter)
          rw [hae]
          exact ha e he fun src hsrc' => h.committed src (hsrc src hsrc')

/-! ## Handlers -/

section

variable (hw : ∀ id, allowed id → written id) (hp : ∀ id, pending id → allowed id) (io : Io)
  (opstamp : Opstamp) (payload : Option String)
include hw hp

/-- The commit's graph. -/
theorem commitDag_inside :
    Preserves (Inside allowed written pending) (commitDag io opstamp payload : Handler τ _) :=
  preserves_bind (prepareNode_inside hp _ _ _) fun _ =>
    preserves_bind (saveMetas_inside hw _ _ _) fun _ =>
      inside_of_outside (garbageCollectFiles_outside io)

/-- **A commit.** -/
theorem handleCommit_inside :
    Preserves (Inside allowed written pending) (handleCommit io opstamp payload : Handler τ _) := by
  refine preserves_bind
    (inside_of_quiet (foldNewTexts_quiet io) (foldNewTexts_bookkeeping io)) fun _ => ?_
  refine preserves_bind (commitDag_inside hw hp io opstamp payload) fun _ => ?_
  refine preserves_bind
    (inside_of_quiet (deleteConsumedPairs_quiet io) (deleteConsumedPairs_bookkeeping io))
    fun _ => ?_
  exact preserves_bind (policyMerges_inside (.inl hp) opstamp) fun _ => preserves_pure _

end

/-- Both bounds are closed under the merges of `results`. -/
def ClosedUnder (results : List (MergeOperation × TaskResult)) (bound : SegmentId → Prop) :
    Prop :=
  ∀ op entry, (op, TaskResult.merged (some entry)) ∈ results →
    (∀ src ∈ op.segmentIds, bound src) → bound entry.id

section

variable (io : Io) {results : List (MergeOperation × TaskResult)}
  (ha : ClosedUnder results allowed) (hp : ClosedUnder results pending)
include ha hp

theorem registerMergeResult_of_closed {op : MergeOperation} {entry : Option SegmentEntry}
    (hmem : (op, .merged entry) ∈ results) :
    Preserves (Inside allowed written pending) (registerMergeResult io op entry : Handler τ _) := by
  refine registerMergeResult_inside (fun e he => ?_) (fun e he => ?_) io
  · exact ha op e (Option.mem_def.mp he ▸ hmem)
  · exact hp op e (Option.mem_def.mp he ▸ hmem)

/-- Results are registered. -/
theorem registerMergeResults_inside :
    Preserves (Inside allowed written pending) (registerMergeResults io results : Handler τ _) := by
  induction results with
  | nil => exact preserves_pure _
  | cons r rest ih =>
    have hrest := ih (fun op e h => ha op e (mem_cons_of_mem r h))
      (fun op e h => hp op e (mem_cons_of_mem r h))
    obtain ⟨op, result⟩ := r
    cases result with
    | failed => exact preserves_bind hrest fun _ => preserves_pure _
    | merged entry =>
      refine preserves_bind (relates_attempt (registerMergeResult_of_closed io ha hp mem_cons_self))
        fun _ => ?_
      exact preserves_bind hrest fun _ => preserves_pure _

end

section

variable (hw : ∀ id, allowed id → written id)
include hw

section

variable (io : Io) (batch : MergeBatch) (results : Nat → TaskResult)
  (ha : ClosedUnder (batch.ops.zipIdx.map fun (op, i) => (op, results i)) allowed)
  (hp : ClosedUnder (batch.ops.zipIdx.map fun (op, i) => (op, results i)) pending)
include ha hp

/-- They are, and saved. -/
theorem mergesDoneInner_inside :
    Preserves (Inside allowed written pending)
      (mergesDoneInner io batch results : Handler τ _) := by
  refine preserves_bind (registerMergeResults_inside io ha hp) fun _ => ?_
  refine relates_ite ?_ (preserves_throw _)
  exact preserves_bind (saveMetas_inside hw _ _ _) fun _ =>
    inside_of_outside (garbageCollectFiles_outside io)

/-- **A finished batch.** -/
theorem handleMergesDone_inside
    (hstart : (∀ id, pending id → allowed id) ∨
      ∀ metas, ∀ candidate ∈ io.policy metas, candidate.length ≤ 1) :
    Preserves (Inside allowed written pending)
      (handleMergesDone io batch results : Handler τ _) := by
  have hfree : ∀ f : SegmentUpdaterState τ → SegmentUpdaterState τ,
      (∀ s, (f s).registers = s.registers ∧ (f s).metaJson = s.metaJson) →
      Preserves (Inside allowed written pending) (modify f : Handler τ _) :=
    fun f hf s h => h.of_quiet (quietRegisters_of_eq (hf s).1) (hf s).2
  refine preserves_bind (hfree _ fun _ => ⟨rfl, rfl⟩) fun _ => ?_
  refine preserves_bind
    (relates_attempt (mergesDoneInner_inside hw io batch results ha hp)) fun outcome => ?_
  split
  · refine preserves_bind (policyMerges_inside hstart _) fun _ => ?_
    exact relates_ite (preserves_pure _) (hfree _ fun _ => ⟨rfl, rfl⟩)
  · exact preserves_bind (hfree _ fun _ => ⟨rfl, rfl⟩) fun _ => preserves_throw _

end

/-- **An explicit merge.** -/
theorem handleMerge_inside
    (hpa : ∀ id, pending id → allowed id) (io : Io) (op : MergeOperation) (result : TaskResult)
    (ha : ClosedUnder [(op, result)] allowed) (hp : ClosedUnder [(op, result)] pending) :
    Preserves (Inside allowed written pending) (handleMerge io op result : Handler τ _) := by
  refine preserves_bind (inside_of_outside (refuseIfMerging_outside _)) fun _ => ?_
  refine preserves_bind (fun _ => id) fun info => ?_
  refine preserves_bind (prepareNode_inside hpa _ _ _) fun _ => ?_
  cases result with
  | failed => exact preserves_throw _
  | merged entry =>
    refine preserves_bind (registerMergeResult_of_closed io ha hp mem_cons_self) fun _ => ?_
    exact preserves_bind (saveMetas_inside hw _ _ _) fun _ =>
      inside_of_outside (garbageCollectFiles_outside io)

/-- A fold is persisted. -/
theorem handleDictionaryFolded_inside (io : Io) :
    Preserves (Inside allowed written pending) (handleDictionaryFolded io : Handler τ _) := by
  refine preserves_bind (fun _ => id) fun info => ?_
  refine preserves_bind (saveMetas_inside hw _ _ _) fun _ => ?_
  refine preserves_bind
    (inside_of_quiet (deleteConsumedPairs_quiet io) (deleteConsumedPairs_bookkeeping io))
    fun _ => ?_
  exact inside_of_outside (garbageCollectFiles_outside io)

end

end Inside

/-! ## Steps and runs -/

/-- Dropping empty segments does not change what a compaction plans. -/
theorem compactOps_removeEmptySegments (maxDocs : Nat) (s : SegmentUpdaterState τ) :
    compactOps maxDocs { s with registers := s.registers.removeEmptySegments } =
      compactOps maxDocs s := by
  have hfilter : (s.registers.removeEmptySegments.committed.segmentMetas.filter fun m =>
        0 < m.numDocs ∧ m.id ∉ s.merging) =
      s.registers.committed.segmentMetas.filter fun m => 0 < m.numDocs ∧ m.id ∉ s.merging := by
    simp only [removeEmptySegments, SegmentRegister.segmentMetas,
      SegmentRegister.filter, filter_map, filter_filter]
    congr 1
    refine filter_congr fun e _ => ?_
    by_cases h : e.info.numDocs = 0
    · simp [h]
    · simp [h]
  unfold compactOps
  simp only [hfilter]

/-- Inside the bounds that an event sets. -/
abbrev InsideEvent (s : SegmentUpdaterState τ) (e : UpdaterEvent) :
    (SegmentId → Prop) → SegmentUpdaterState τ → Prop :=
  Inside (Entitled s e) fun id => id ∈ s.metaJson.segmentIds ∨ Entitled s e id

/-- The state an event starts from is inside them. -/
theorem inside_start (s : SegmentUpdaterState τ) (e : UpdaterEvent)
    (pending : SegmentId → Prop) (hp : ∀ id ∈ s.registers.uncommitted.ids, pending id) :
    InsideEvent s e pending s :=
  ⟨fun _ h => .already h, fun _ h => .inl h, hp⟩

theorem entitled_closedUnder (s : SegmentUpdaterState τ) (e : UpdaterEvent) :
    ClosedUnder (finishedMerges s e) (Entitled s e) :=
  fun _ _ h hsrc => .merged h hsrc

/-- **Every message publishes entitled segments only**, once merges start settled. -/
theorem handle_publishesEntitled {s : SegmentUpdaterState τ} {m : Message} {io : Io}
    {reply : Except LucivyError Unit} (h : MergeStartsSettled s (.handled m io reply)) :
    PublishesEntitled s (.handled m io reply) (finalState (handle io m) s) := by
  -- it is enough to stay inside the bounds of the event, with any bound on what waits
  suffices hin : ∃ pending, InsideEvent s (.handled m io reply) pending
      (finalState (handle io m) s) by
    obtain ⟨_, hin⟩ := hin
    exact ⟨hin.committed, hin.written⟩
  have hw : ∀ id, Entitled s (.handled m io reply) id →
      id ∈ s.metaJson.segmentIds ∨ Entitled s (.handled m io reply) id := fun _ => .inr
  have hclosed := entitled_closedUnder s (.handled m io reply)
  -- with nothing uncommitted, the start is inside the bound "what waits is entitled"
  have hempty (hnil : s.registers.uncommitted.ids = []) :=
    inside_start s (.handled m io reply) (Entitled s (.handled m io reply)) (by simp [hnil])
  have hany := inside_start s (.handled m io reply) (fun _ => True) fun _ _ => trivial
  cases m with
  | addSegment entry => exact ⟨fun _ => True, hany.committed, hany.written, fun _ _ => trivial⟩
  | commit opstamp payload =>
    refine ⟨_, handleCommit_inside hw (fun _ => id) io opstamp payload s ?_⟩
    exact inside_start s _ _ fun id hid => .committed rfl hid
  | garbageCollect => exact ⟨_, inside_of_outside (garbageCollectFiles_outside io) s hany⟩
  | startMerge op result =>
    rcases h with h | h
    · exact ⟨_, handleMerge_inside hw (fun _ => id) io op result hclosed hclosed s (hempty h)⟩
    · -- a refused merge changes nothing
      have hrefused : finalState (handle io (.startMerge op result)) s = s := by
        have hrun : (refuseIfMerging op.segmentIds : Handler τ _).run s = .error
            (.invalidArgument "segment is being merged by a running merge") s := by
          rw [refuseIfMerging, run_get_bind, if_pos h]
          rfl
        exact finalState_eq_of_error (run_bind_of_error hrun)
      rw [hrefused]
      exact ⟨_, hany⟩
  | startMerges ops => exact ⟨_, handleStartMerges_inside (fun _ => id) _ ops s (hempty h)⟩
  | compact maxDocs =>
    rcases h with h | h
    · refine ⟨_, preserves_bind committedSegmentMetas_inside (fun _ => ?_) s (hempty h)⟩
      refine relates_get_bind fun t ht => ?_
      dsimp only
      split
      · exact ht
      · exact handleStartMerges_inside (fun _ => id) _ _ t ht
    · have hplan : compactOps maxDocs
          { s with registers := s.registers.removeEmptySegments } = [] := by
        rw [compactOps_removeEmptySegments, h]
      have hquiet : finalState (handle io (.compact maxDocs)) s =
          { s with registers := s.registers.removeEmptySegments } := by
        show finalState (if compactOps maxDocs
            { s with registers := s.registers.removeEmptySegments } = [] then pure ()
          else handleStartMerges io.purge _) _ = _
        rw [if_pos hplan]
        rfl
      rw [hquiet]
      exact ⟨_, hany.of_quiet ⟨rfl, fun _ h => mem_ids_removeEmptySegments h⟩ rfl⟩
  | mergesDone n results =>
    rw [finalState, handle_mergesDone_run]
    cases hbatch : s.inFlight[n]? with
    | none => exact ⟨_, hany⟩
    | some batch =>
      simp only [finishedMerges, hbatch] at hclosed
      rcases h with h | h
      · exact ⟨_, handleMergesDone_inside hw io batch results hclosed hclosed
          (.inl fun _ => id) _ ((hempty h).of_quiet (quietRegisters_of_eq rfl) rfl)⟩
      · exact ⟨_, handleMergesDone_inside hw io batch results hclosed
          (fun _ _ _ _ => trivial) (.inr h) _ (hany.of_quiet (quietRegisters_of_eq rfl) rfl)⟩
  | dictionaryFolded => exact ⟨_, handleDictionaryFolded_inside hw io s hany⟩

/-- One step, messages and dictionary work alike. -/
theorem step_publishesEntitled {s t : SegmentUpdaterState τ} {e : UpdaterEvent}
    (h : Guarded UpdaterStep MergeStartsSettled s e t) : PublishesEntitled s e t := by
  obtain ⟨hcond, hstep⟩ := h
  cases e with
  | handled m io reply =>
    rw [hstep.finalState_eq]
    exact handle_publishesEntitled hcond
  | dictionaryWork =>
    cases hstep
    exact ⟨fun _ h => .already h, fun _ h => .inl h⟩

/-- **In every run whose merges start settled, every step publishes entitled segments only**:
a segment enters the committed register, or the list in `meta.json`, while a commit handled
after it was added is processed, or as the merged replacement of committed segments. -/
theorem publishesEntitled_of_settled {s t : SegmentUpdaterState τ} {es : List UpdaterEvent}
    (h : Run (Guarded UpdaterStep MergeStartsSettled) s es t) :
    Run (fun s e t => UpdaterStep s e t ∧ PublishesEntitled s e t) s es t :=
  h.mono fun _ _ _ hstep => ⟨hstep.2, step_publishesEntitled hstep⟩

/-! ## A merge start that publishes -/

/-- A segment of ten documents. -/
def tenDocs (id : SegmentId) : SegmentEntry := .ofMeta (.new id 10 [])

/-- What two such segments are merged into. -/
def twentyDocs (id : SegmentId) : SegmentEntry := .ofMeta (.new id 20 [])

/-- An updater just created on an index whose `meta.json` lists the given segments, without a
shard dictionary. -/
def createdOn (committed : List SegmentMeta) (opstamp : Opstamp) (payload : Option String) :
    SegmentUpdaterState Unit where
  metaJson := ⟨committed, opstamp, payload, none⟩
  activeIndexMeta := ⟨committed, opstamp, payload, none⟩
  registers := .fromSegments committed
  pendingMergeTasks := false
  merging := []
  inFlight := []
  dictionary := none
  dictionaryShared := ⟨fun _ => 0, [], 1⟩
  directory := ⟨fun _ _ => none, fun _ _ => none⟩
  fold := .idle

/-- The settled run of two messages orders: segment 3 is added and committed, then 1 and 2
are merged into 4. Every hypothesis of the run theorem holds of it. -/
theorem publishesEntitled_add_commit_merge :
    ∃ t, Run (fun s e t => UpdaterStep s e t ∧ PublishesEntitled s e t)
        (createdOn [.new 1 10 [], .new 2 10 []] 5 none)
        [.handled (.addSegment (tenDocs 3)) calmIo (.ok ()),
          .handled (.commit 8 none) calmIo (.ok ()),
          .handled (.startMerges [⟨8, [1, 2]⟩]) calmIo (.ok ()),
          .handled (.mergesDone 0 fun _ => .merged (some (twentyDocs 4))) calmIo (.ok ())] t ∧
      t.metaJson.segmentIds = [4, 3] :=
  ⟨_, publishesEntitled_of_settled
      (.snoc (.snoc (.snoc (.snoc .nil ⟨trivial, .ok rfl⟩) ⟨trivial, .ok rfl⟩)
        ⟨rfl, .ok rfl⟩) ⟨.inl rfl, .ok rfl⟩), by decide⟩

/-- **A merge start publishes what no commit has covered.** Segment 3 is added and never
committed; starting the merge of 1 and 2 puts it in the committed register, and when the
merge is done `meta.json` lists it. -/
theorem unsettled_merge_start_publishes :
    ∃ s t u : SegmentUpdaterState Unit,
      UpdaterStep (createdOn [.new 1 10 [], .new 2 10 []] 5 none)
        (.handled (.addSegment (tenDocs 3)) calmIo (.ok ())) s ∧
      UpdaterStep s (.handled (.startMerges [⟨5, [1, 2]⟩]) calmIo (.ok ())) t ∧
      UpdaterStep t
        (.handled (.mergesDone 0 fun _ => .merged (some (twentyDocs 4))) calmIo (.ok ())) u ∧
      3 ∈ t.registers.committed.ids ∧
      u.metaJson.segmentIds = [4, 3] ∧
      ¬ PublishesEntitled s (.handled (.startMerges [⟨5, [1, 2]⟩]) calmIo (.ok ())) t := by
  refine ⟨_, _, _, .ok rfl, .ok rfl, .ok rfl, by decide, by decide, fun h => ?_⟩
  -- nothing entitles segment 3: it was not committed, the message is no commit, and a merge
  -- start registers no result
  have hentitled := h.committed 3 (by decide)
  generalize hid : 3 = id at hentitled
  cases hentitled with
  | already hmem => subst hid; revert hmem; decide
  | committed hcommit _ => cases hcommit
  | merged hmem _ => cases hmem

end Lucivy.Indexer
