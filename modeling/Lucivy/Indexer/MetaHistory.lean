import Lucivy.Indexer.Publication

/-! # The opstamp and payload of `meta.json`

Every `meta.json` carries the opstamp and the payload of a commit. Merges rewrite the file
too, and should keep what the last commit put there.

* `WriterStep` — the updater together with the writer's stamper, which numbers the commits.
* `lastCommitPayload` — the payload of the last commit of a history that was answered with
  success.
* `FinishesUndisturbed` — a batch is finished while the meta it was started from still holds,
  and a commit that has written `meta.json` does not fail afterwards.
* `metaJson_follows_commits` — then the opstamp never decreases and the payload is the last
  successful commit's.
* `stale_batch_reverts_commit` — a batch started before a commit and finished after it puts
  the old opstamp and payload back: `handle_start_merges` captures both, and
  `merges_done_inner` writes what was captured. -/

namespace Lucivy.Indexer

open Lucivy.Foundation Lucivy.SuffixFst List

variable {τ : Type}

/-! ## The writer's side -/

/-- The updater and the stamper of the writer it belongs to. -/
structure WriterState (τ : Type) where
  /-- `Stamper`: the next opstamp. -/
  stamper : Opstamp
  updater : SegmentUpdaterState τ

/-- What can be seen of the writer and its updater. -/
inductive WriterEvent
  | stamped (count : Nat)
  | commit (payload : Option String) (io : Io) (reply : Except LucivyError Unit)
  | background (event : UpdaterEvent)

/-- The event is a commit message. -/
def UpdaterEvent.IsCommit : UpdaterEvent → Prop
  | .handled (.commit _ _) _ _ => True
  | _ => False

/-- **One step of the writer.** Added documents and deletes take stamps; `prepare_commit`
takes one more and the commit message carries it; every other message comes and goes
without the writer. -/
inductive WriterStep : WriterState τ → WriterEvent → WriterState τ → Prop
  | stamped {s : WriterState τ} (count : Nat) :
      WriterStep s (.stamped count) ⟨s.stamper + count, s.updater⟩
  | commit {s : WriterState τ} {t : SegmentUpdaterState τ} {payload : Option String} {io : Io}
      {reply : Except LucivyError Unit} :
      UpdaterStep s.updater (.handled (.commit s.stamper payload) io reply) t →
      WriterStep s (.commit payload io reply) ⟨s.stamper + 1, t⟩
  | background {s : WriterState τ} {t : SegmentUpdaterState τ} {e : UpdaterEvent} :
      ¬ e.IsCommit → UpdaterStep s.updater e t → WriterStep s (.background e) ⟨s.stamper, t⟩

/-- `IndexWriter::new`: the stamper starts at the opstamp of `meta.json`, the active meta is
the file's, no merge runs. -/
structure Created (s : WriterState τ) : Prop where
  /-- `Stamper::new(current_opstamp)`. -/
  stamper : s.stamper = s.updater.metaJson.opstamp
  /-- `load_metas`. -/
  active : s.updater.activeIndexMeta = s.updater.metaJson
  inFlight : s.updater.inFlight = []

/-- The payload of the last commit that was answered with success, `initial` before any. -/
def lastCommitPayload (initial : Option String) : List WriterEvent → Option String :=
  List.foldl (fun last e =>
    match e with
    | .commit payload _ (.ok _) => payload
    | _ => last) initial

/-- What runs after `meta.json` is written goes through: garbage collection, the deletion of
consumed pairs, and the policy's merges (its scans succeed and it proposes segments it was
shown). -/
structure AfterWriteOk (io : Io) : Prop where
  gc : io.gc = .done
  /-- Deleting consumed pairs. -/
  deletable : ∀ id, io.deletable id = true
  /-- Purging the deletes for the policy's merges. -/
  policyPurge : ∀ id, (io.policyPurge id).isSome
  /-- The policy proposes segments it was shown. -/
  policy : ∀ metas, ∀ candidate ∈ io.policy metas, ∀ id ∈ candidate, id ∈ metas.map SegmentMeta.id

/-- **Undisturbed**: a batch is finished while the opstamp and payload it captured are still
the active ones, and a commit that writes `meta.json` does not fail afterwards. -/
def FinishesUndisturbed (s : WriterState τ) : WriterEvent → Prop
  | .commit _ io _ => io.saveOk = true → AfterWriteOk io
  | .background (.handled (.mergesDone n _) _ _) =>
    ∀ batch ∈ s.updater.inFlight[n]?,
      batch.opstamp = s.updater.activeIndexMeta.opstamp ∧
        batch.payload = s.updater.activeIndexMeta.payload
  | _ => True

/-! ## Who rewrites the meta -/

/-- The two copies of the meta. -/
def metas (s : SegmentUpdaterState τ) : IndexMeta × IndexMeta := (s.metaJson, s.activeIndexMeta)

/-- Both copies stay, or both are rewritten with the given opstamp and payload. -/
def RewritesMetas (opstamp : Opstamp) (payload : Option String)
    (s t : SegmentUpdaterState τ) : Prop :=
  metas t = metas s ∨
    (t.activeIndexMeta = t.metaJson ∧ t.metaJson.opstamp = opstamp ∧ t.metaJson.payload = payload)

section Rewrites

variable {opstamp : Opstamp} {payload : Option String}

/-- Nothing is written. -/
theorem rewritesMetas_refl (s : SegmentUpdaterState τ) : RewritesMetas opstamp payload s s :=
  .inl rfl

/-- One after the other. -/
theorem rewritesMetas_trans (s t u : SegmentUpdaterState τ)
    (h₁ : RewritesMetas opstamp payload s t) (h₂ : RewritesMetas opstamp payload t u) :
    RewritesMetas opstamp payload s u := by
  rcases h₂ with h₂ | h₂
  · rcases h₁ with h₁ | h₁
    · exact .inl (h₂.trans h₁)
    · have hjson : u.metaJson = t.metaJson := congrArg Prod.fst h₂
      have hactive : u.activeIndexMeta = t.activeIndexMeta := congrArg Prod.snd h₂
      exact .inr (by rw [hjson, hactive]; exact h₁)
  · exact .inr h₂

variable {α : Type} {x : Handler τ α}

theorem metas_of_bookkeeping (h : Keeps bookkeeping x) : Keeps metas x :=
  fun s => congrArg (fun b => (b.1, b.2.1)) (h s)

/-- What leaves the metas alone. -/
theorem rewrites_of_metas (h : Keeps metas x) : Relates (RewritesMetas opstamp payload) x :=
  fun s => .inl (h s)

theorem rewrites_of_bookkeeping (h : Keeps bookkeeping x) :
    Relates (RewritesMetas opstamp payload) x :=
  rewrites_of_metas (metas_of_bookkeeping h)

/-- `save_metas`. -/
theorem saveMetas_rewrites (io : Io) :
    Relates (RewritesMetas opstamp payload) (saveMetas io opstamp payload : Handler τ _) := by
  intro s
  rw [finalState, saveMetas_run]
  cases io.saveOk with
  | false => exact .inl rfl
  | true => exact .inr ⟨rfl, rfl, rfl⟩

end Rewrites

/-- Starting merges writes nothing, -/
theorem handleStartMerges_metas (scan : SegmentId → Option DeleteScan)
    (ops : List MergeOperation) : Keeps metas (handleStartMerges scan ops : Handler τ _) := by
  refine keeps_bind (keeps_get_bind fun _ => rfl) fun info => ?_
  refine keeps_bind (metas_of_bookkeeping (purgeAndCommit_bookkeeping _ _)) fun _ => ?_
  refine keeps_bind (metas_of_bookkeeping (refuseIfMerging_bookkeeping _)) fun _ => ?_
  refine keeps_bind (metas_of_bookkeeping (startMerges_bookkeeping ops)) fun _ => ?_
  exact keeps_modify fun _ => rfl

/-- nor does the policy. -/
theorem policyMerges_metas (io : Io) (o : Opstamp) :
    Keeps metas (policyMerges io o : Handler τ _) := by
  refine keeps_bind (metas_of_bookkeeping committedSegmentMetas_bookkeeping) fun _ => ?_
  refine keeps_bind (keeps_get _) fun s => keeps_ite (keeps_pure _ _) ?_
  exact keeps_bind (handleStartMerges_metas _ _) fun _ => keeps_pure _ _

/-! ## The messages that are no commit -/

/-- A finished batch writes its own opstamp. -/
theorem handleMergesDone_rewrites (io : Io) (batch : MergeBatch) (results : Nat → TaskResult) :
    Relates (RewritesMetas batch.opstamp batch.payload)
      (handleMergesDone io batch results : Handler τ _) := by
  have hfree : ∀ f : SegmentUpdaterState τ → SegmentUpdaterState τ, (∀ s, metas (f s) = metas s) →
      Relates (RewritesMetas batch.opstamp batch.payload) (modify f : Handler τ _) :=
    fun f hf s => .inl (hf s)
  refine relates_bind rewritesMetas_trans (hfree _ fun _ => rfl) fun _ => ?_
  refine relates_bind rewritesMetas_trans (relates_attempt ?_) fun outcome => ?_
  · refine relates_bind rewritesMetas_trans
      (rewrites_of_bookkeeping (registerMergeResults_bookkeeping io _)) fun _ => ?_
    refine relates_ite ?_ (relates_throw rewritesMetas_refl _)
    exact relates_bind rewritesMetas_trans (saveMetas_rewrites io) fun _ =>
      rewrites_of_bookkeeping (garbageCollectFiles_bookkeeping io)
  · split
    · refine relates_bind rewritesMetas_trans
        (rewrites_of_metas (policyMerges_metas io _)) fun _ => ?_
      exact relates_ite (relates_pure rewritesMetas_refl _) (hfree _ fun _ => rfl)
    · exact relates_bind rewritesMetas_trans (hfree _ fun _ => rfl) fun _ =>
        relates_throw rewritesMetas_refl _

/-- An explicit merge writes the active one. -/
theorem handleMerge_rewrites (io : Io) (op : MergeOperation) (result : TaskResult)
    (s : SegmentUpdaterState τ) :
    RewritesMetas s.activeIndexMeta.opstamp s.activeIndexMeta.payload s
      (finalState (handleMerge io op result) s) := by
  -- `load_meta` is read in a state with the same metas as `s`
  have hmetas := metas_of_bookkeeping (refuseIfMerging_bookkeeping op.segmentIds) s
  unfold handleMerge
  cases hrefuse : (refuseIfMerging op.segmentIds : Handler τ _).run s with
  | error e t =>
    rw [finalState_eq_of_error (run_bind_of_error hrefuse)]
    rw [finalState_eq_of_error hrefuse] at hmetas
    exact .inl hmetas
  | ok a t =>
    rw [finalState_eq_of_ok hrefuse] at hmetas
    have hactive : t.activeIndexMeta = s.activeIndexMeta := congrArg Prod.snd hmetas
    rw [finalState, run_bind_of_ok hrefuse]
    refine rewritesMetas_trans s t _ (.inl hmetas) ?_
    rw [← hactive]
    refine relates_bind rewritesMetas_trans
      (rewrites_of_bookkeeping (prepareNode_bookkeeping _ _ _)) (fun _ => ?_) t
    cases result with
    | failed => exact relates_throw rewritesMetas_refl _
    | merged entry =>
      refine relates_bind rewritesMetas_trans
        (rewrites_of_bookkeeping (registerMergeResult_bookkeeping _ _ _)) fun _ => ?_
      exact relates_bind rewritesMetas_trans (saveMetas_rewrites io) fun _ =>
        rewrites_of_bookkeeping (garbageCollectFiles_bookkeeping io)

/-- So does the message after a fold. -/
theorem handleDictionaryFolded_rewrites (io : Io) (s : SegmentUpdaterState τ) :
    RewritesMetas s.activeIndexMeta.opstamp s.activeIndexMeta.payload s
      (finalState (handleDictionaryFolded io) s) := by
  refine relates_bind rewritesMetas_trans (saveMetas_rewrites io) (fun _ => ?_) s
  refine relates_bind rewritesMetas_trans
    (rewrites_of_bookkeeping (deleteConsumedPairs_bookkeeping io)) fun _ => ?_
  exact rewrites_of_bookkeeping (garbageCollectFiles_bookkeeping io)

variable {s : SegmentUpdaterState τ} {scan : SegmentId → Option DeleteScan} {io : Io}

/-- **What a message other than a commit writes**: the active opstamp and payload, or those
of the batch it finishes. -/
theorem handle_rewrites {m : Message} (io : Io) (hm : ∀ o p, m ≠ .commit o p) :
    (∃ n results batch, m = .mergesDone n results ∧ s.inFlight[n]? = some batch ∧
        RewritesMetas batch.opstamp batch.payload s (finalState (handle io m) s)) ∨
      RewritesMetas s.activeIndexMeta.opstamp s.activeIndexMeta.payload s
        (finalState (handle io m) s) := by
  cases m with
  | commit o p => exact absurd rfl (hm o p)
  | addSegment entry => exact .inr (.inl rfl)
  | garbageCollect =>
    exact .inr (.inl (metas_of_bookkeeping (garbageCollectFiles_bookkeeping io) s))
  | startMerge op result => exact .inr (handleMerge_rewrites io op result s)
  | startMerges ops => exact .inr (.inl (handleStartMerges_metas _ ops s))
  | compact maxDocs =>
    have hkeeps : Keeps metas (handleCompact io maxDocs : Handler τ _) := by
      refine keeps_bind (metas_of_bookkeeping committedSegmentMetas_bookkeeping) fun _ => ?_
      refine keeps_bind (keeps_get _) fun t => keeps_ite (keeps_pure _ _) ?_
      exact handleStartMerges_metas _ _
    exact .inr (.inl (hkeeps s))
  | mergesDone n results =>
    rw [finalState, handle_mergesDone_run]
    cases hbatch : s.inFlight[n]? with
    | none => exact .inr (.inl rfl)
    | some batch =>
      exact .inl ⟨n, results, batch, rfl, hbatch,
        handleMergesDone_rewrites io batch results { s with inFlight := _ }⟩
  | dictionaryFolded => exact .inr (handleDictionaryFolded_rewrites io s)

/-! ## Commits

After `meta.json` is written a commit can still fail. `AfterWriteOk` excludes that, and these
lemmas say that it does. -/

theorem advanceDeletes_isSome (h : ∀ id, (scan id).isSome) (e : SegmentEntry) (o : Opstamp) :
    (advanceDeletes scan e o).isSome := by
  unfold advanceDeletes
  split
  · rfl
  · split
    · rfl
    · have := h e.id
      split
      · rename_i hnone
        rw [hnone] at this
        cases this
      · rfl

/-- Deletes that can be purged are. -/
theorem purgeDeletes_isSome (h : ∀ id, (scan id).isSome) (registers : SegmentRegisters)
    (o : Opstamp) : ∃ entries, purgeDeletes scan registers o = some entries := by
  unfold purgeDeletes
  induction registers.segmentEntries with
  | nil => exact ⟨[], rfl⟩
  | cons e rest ih =>
    obtain ⟨e', he⟩ := Option.isSome_iff_exists.mp (advanceDeletes_isSome h e o)
    obtain ⟨rest', hrest⟩ := ih
    exact ⟨e' :: rest', by simp [he, hrest]⟩

/-- Merging committed segments is not refused. -/
theorem startMerge_committed {r : SegmentRegisters} {ids : List SegmentId}
    (h : ∀ id ∈ ids, id ∈ r.committed.ids) : ∃ entries, r.startMerge ids = .ok entries := by
  unfold SegmentRegisters.startMerge
  by_cases hu : r.uncommitted.containsAll ids = true
  · exact ⟨_, if_pos hu⟩
  · rw [if_neg hu, if_pos (SegmentRegister.containsAll_iff.mpr h)]
    exact ⟨_, rfl⟩

/-- Merges over committed segments start. -/
theorem startMerges_run {ops : List MergeOperation}
    (h : ∀ op ∈ ops, ∀ id ∈ op.segmentIds, id ∈ s.registers.committed.ids) :
    (startMerges ops : Handler τ _).run s = .ok () s := by
  have hmap : ∃ prepared,
      (ops.mapM fun op => s.registers.startMerge op.segmentIds) = .ok prepared := by
    induction ops with
    | nil => exact ⟨[], rfl⟩
    | cons op rest ih =>
      obtain ⟨entries, hfirst⟩ := startMerge_committed (h op mem_cons_self)
      obtain ⟨others, hothers⟩ := ih fun op' h' => h op' (mem_cons_of_mem op h')
      exact ⟨entries :: others, by rw [mapM_cons, hfirst, hothers]; rfl⟩
  obtain ⟨prepared, hmap⟩ := hmap
  rw [startMerges, run_get_bind, hmap]
  rfl

/-- Segments not being merged are accepted. -/
theorem refuseIfMerging_run {ids : List SegmentId} (h : ∀ id ∈ ids, id ∉ s.merging) :
    (refuseIfMerging ids : Handler τ _).run s = .ok () s := by
  have hany : ids.any (· ∈ s.merging) = false := by simpa using h
  rw [refuseIfMerging, run_get_bind, hany]
  rfl

/-- A batch of committed segments that no merge holds is started. -/
theorem handleStartMerges_ok {ops : List MergeOperation} (hscan : ∀ id, (scan id).isSome)
    (hcommitted : ∀ op ∈ ops, ∀ id ∈ op.segmentIds, id ∈ s.registers.committed.ids)
    (hmerging : ∀ op ∈ ops, ∀ id ∈ op.segmentIds, id ∉ s.merging) :
    ∃ t, (handleStartMerges scan ops : Handler τ _).run s = .ok () t := by
  obtain ⟨entries, hpurge⟩ := purgeDeletes_isSome hscan s.registers s.activeIndexMeta.opstamp
  let t := { s with registers := s.registers.commit entries }
  have hswap : (purgeAndCommit scan s.activeIndexMeta.opstamp : Handler τ _).run s = .ok () t := by
    rw [purgeAndCommit, run_get_bind, hpurge]
    rfl
  have hrefuse : (refuseIfMerging (ops.flatMap MergeOperation.segmentIds) : Handler τ _).run t =
      .ok () t := by
    refine refuseIfMerging_run fun id hid => ?_
    obtain ⟨op, hop, hid⟩ := mem_flatMap.mp hid
    exact hmerging op hop id hid
  have hstart : (startMerges ops : Handler τ _).run t = .ok () t := by
    refine startMerges_run fun op hop id hid => ?_
    refine (SegmentRegisters.mem_ids_commit (r := s.registers)).mpr ?_
    rw [purgeDeletes_ids hpurge]
    exact mem_append_right _ (hcommitted op hop id hid)
  rw [handleStartMerges, run_bind_of_ok (show loadMeta.run s = .ok s.activeIndexMeta s from rfl),
    run_bind_of_ok hswap, run_bind_of_ok hrefuse, run_bind_of_ok hstart]
  exact ⟨_, rfl⟩

/-- What the policy proposes out of the segments it was shown is started. -/
theorem policyMerges_ok (hpurge : ∀ id, (io.policyPurge id).isSome)
    (hpolicy : ∀ metas, ∀ candidate ∈ io.policy metas, ∀ id ∈ candidate,
      id ∈ metas.map SegmentMeta.id) (o : Opstamp) (s : SegmentUpdaterState τ) :
    ∃ b t, (policyMerges io o : Handler τ _).run s = .ok b t := by
  rw [policyMerges, run_bind_of_ok (show committedSegmentMetas.run s = .ok
    s.registers.removeEmptySegments.committed.segmentMetas
    { s with registers := s.registers.removeEmptySegments } from rfl), run_get_bind]
  generalize { s with registers := s.registers.removeEmptySegments } = s'
  dsimp only
  split
  · exact ⟨_, _, rfl⟩
  · -- the proposed segments were shown to the policy: committed, and in no merge
    have hshown : ∀ op ∈ policyOps io o s', ∀ id ∈ op.segmentIds,
        id ∈ s'.registers.committed.ids ∧ id ∉ s'.merging := by
      intro op hop id hid
      obtain ⟨candidate, hcand, rfl⟩ := mem_map.mp hop
      have hmem := hpolicy _ candidate (mem_filter.mp hcand).1 id hid
      obtain ⟨m, hm, rfl⟩ := mem_map.mp hmem
      obtain ⟨hm, hfree⟩ := mem_filter.mp hm
      obtain ⟨e, he, rfl⟩ := mem_map.mp hm
      exact ⟨SegmentRegister.mem_ids.mpr ⟨e, he, rfl⟩, by simpa using hfree⟩
    obtain ⟨t, ht⟩ := handleStartMerges_ok hpurge (fun op hop id hid => (hshown op hop id hid).1)
      (fun op hop id hid => (hshown op hop id hid).2)
    exact ⟨true, t, by rw [run_bind_of_ok ht]; rfl⟩

/-- Pairs that can be deleted are. -/
theorem deleteConsumedPairs_ok (h : ∀ id, io.deletable id = true) (s : SegmentUpdaterState τ) :
    ∃ t, (deleteConsumedPairs io : Handler τ _).run s = .ok () t := by
  have hloop : ∀ named (ms : List SegmentMeta) (s : SegmentUpdaterState τ),
      ∃ t, (deletePairs io named ms : Handler τ _).run s = .ok () t := by
    intro named ms
    induction ms with
    | nil => exact fun s => ⟨s, rfl⟩
    | cons m rest ih =>
      intro s
      rw [deletePairs]
      split
      · exact ih s
      · rw [if_pos (h m.id)]
        obtain ⟨t, ht⟩ := ih { s with
          directory := s.directory.deleteMinted m.id m.sfxFieldIds }
        exact ⟨t, by rw [← ht]; rfl⟩
  rw [deleteConsumedPairs, run_get_bind]
  split
  · exact ⟨s, rfl⟩
  · rw [run_bind_of_ok (show loadMeta.run s = .ok s.activeIndexMeta s from rfl)]
    split
    · exact ⟨s, rfl⟩
    · exact hloop _ _ _

/-- A collection that succeeds. -/
theorem garbageCollectFiles_ok (h : io.gc = .done) (s : SegmentUpdaterState τ) :
    ∃ t, (garbageCollectFiles io : Handler τ _).run s = .ok () t := by
  rw [garbageCollectFiles, h]
  exact ⟨_, rfl⟩

/-- What keeps the metas keeps them. -/
theorem metas_of_run_ok {α : Type} {x : Handler τ α} (h : Keeps metas x)
    {s t : SegmentUpdaterState τ} {a : α} (hx : x.run s = .ok a t) : metas t = metas s := by
  have hkeeps := h s
  rwa [finalState_eq_of_ok hx] at hkeeps

/-- How a commit can end: refused with both metas as they were, or through with both
rewritten. -/
inductive CommitEnds (opstamp : Opstamp) (payload : Option String) (s : SegmentUpdaterState τ) :
    EStateM.Result LucivyError (SegmentUpdaterState τ) Unit → Prop
  | refused {e : LucivyError} {t : SegmentUpdaterState τ} :
      metas t = metas s → CommitEnds opstamp payload s (.error e t)
  | written {t : SegmentUpdaterState τ} :
      t.activeIndexMeta = t.metaJson → t.metaJson.opstamp = opstamp →
      t.metaJson.payload = payload → CommitEnds opstamp payload s (.ok () t)

/-- What leaves the metas alone comes before a commit's end. -/
theorem CommitEnds.bind {opstamp : Opstamp} {payload : Option String} {α : Type}
    {x : Handler τ α} {f : α → Handler τ Unit} (hx : Keeps metas x)
    (hf : ∀ a s, CommitEnds opstamp payload s ((f a).run s)) (s : SegmentUpdaterState τ) :
    CommitEnds opstamp payload s ((x >>= f).run s) := by
  have hmetas := hx s
  cases hrun : x.run s with
  | error e t =>
    rw [run_bind_of_error hrun]
    rw [finalState_eq_of_error hrun] at hmetas
    exact .refused hmetas
  | ok a t =>
    rw [run_bind_of_ok hrun]
    rw [finalState_eq_of_ok hrun] at hmetas
    have hends := hf a t
    generalize (f a).run t = r at hends
    cases hends with
    | refused h => exact .refused (h.trans hmetas)
    | written h₁ h₂ h₃ => exact .written h₁ h₂ h₃

/-- Once `meta.json` is written, the rest of the commit goes through and leaves it alone. -/
theorem handleCommit_tail (h : AfterWriteOk io) (o : Opstamp) (s : SegmentUpdaterState τ) :
    ∃ t, (do
        garbageCollectFiles io
        deleteConsumedPairs io
        let _ ← policyMerges io o : Handler τ Unit).run s = .ok () t ∧ metas t = metas s := by
  obtain ⟨t₁, h₁⟩ := garbageCollectFiles_ok h.gc s
  obtain ⟨t₂, h₂⟩ := deleteConsumedPairs_ok h.deletable t₁
  obtain ⟨b, t₃, h₃⟩ := policyMerges_ok h.policyPurge h.policy o t₂
  refine ⟨t₃, by rw [run_bind_of_ok h₁, run_bind_of_ok h₂, run_bind_of_ok h₃]; rfl, ?_⟩
  calc metas t₃ = metas t₂ := metas_of_run_ok (policyMerges_metas io o) h₃
    _ = metas t₁ := metas_of_run_ok (metas_of_bookkeeping (deleteConsumedPairs_bookkeeping io)) h₂
    _ = metas s := metas_of_run_ok (metas_of_bookkeeping (garbageCollectFiles_bookkeeping io)) h₁

/-- **A commit writes its own opstamp and payload, or leaves the metas alone and fails.** -/
theorem handleCommit_ends (h : io.saveOk = true → AfterWriteOk io) (opstamp : Opstamp)
    (payload : Option String) (s : SegmentUpdaterState τ) :
    CommitEnds opstamp payload s ((handleCommit io opstamp payload).run s) := by
  have hassoc : (handleCommit io opstamp payload : Handler τ Unit) = (do
      foldNewTexts io
      prepareNode io [] opstamp
      saveMetas io opstamp payload
      garbageCollectFiles io
      deleteConsumedPairs io
      let _ ← policyMerges io opstamp) := by
    simp [handleCommit, commitDag]
  rw [hassoc]
  refine CommitEnds.bind (metas_of_bookkeeping (foldNewTexts_bookkeeping io)) (fun _ s => ?_) s
  refine CommitEnds.bind (metas_of_bookkeeping (prepareNode_bookkeeping _ _ _)) (fun _ s => ?_) s
  have hsave := saveMetas_run io opstamp payload s
  cases hok : io.saveOk with
  | false =>
    rw [hok] at hsave
    rw [run_bind_of_error hsave]
    exact .refused rfl
  | true =>
    rw [hok, if_pos rfl] at hsave
    rw [run_bind_of_ok hsave]
    obtain ⟨t, ht, hmetas⟩ := handleCommit_tail (h hok) opstamp _
    rw [ht]
    have hjson : t.metaJson = _ := congrArg Prod.fst hmetas
    have hactive : t.activeIndexMeta = _ := congrArg Prod.snd hmetas
    exact .written (hactive.trans hjson.symm) (congrArg IndexMeta.opstamp hjson)
      (congrArg IndexMeta.payload hjson)

/-! ## Steps and runs -/

/-- What the run keeps: both copies of the meta agree, the stamper is not behind them, and
the payload is the last successful commit's. -/
structure MetaInvariant (initial : Option String) (ls : List WriterEvent) (s : WriterState τ) :
    Prop where
  active : s.updater.activeIndexMeta = s.updater.metaJson
  /-- The next commit's opstamp is not below the file's. -/
  stamper : s.updater.metaJson.opstamp ≤ s.stamper
  payload : s.updater.metaJson.payload = lastCommitPayload initial ls

/-- One event more. -/
theorem lastCommitPayload_snoc (initial : Option String) (ls : List WriterEvent) (l : WriterEvent) :
    lastCommitPayload initial (ls ++ [l]) = match l with
      | .commit payload _ (.ok _) => payload
      | _ => lastCommitPayload initial ls := by
  rw [lastCommitPayload, foldl_append]
  rfl

section Step

variable {initial : Option String} {ls : List WriterEvent} {l : WriterEvent}
  {s : WriterState τ} {n : Opstamp} {u : SegmentUpdaterState τ}

/-- A step that leaves the metas alone. -/
theorem metaInvariant_of_metas (hs : MetaInvariant initial ls s)
    (hmetas : metas u = metas s.updater) (hn : s.stamper ≤ n)
    (hl : lastCommitPayload initial (ls ++ [l]) = lastCommitPayload initial ls) :
    MetaInvariant initial (ls ++ [l]) ⟨n, u⟩ ∧ s.updater.metaJson.opstamp ≤ u.metaJson.opstamp := by
  have hjson : u.metaJson = s.updater.metaJson := congrArg Prod.fst hmetas
  have hactive : u.activeIndexMeta = s.updater.activeIndexMeta := congrArg Prod.snd hmetas
  refine ⟨⟨?_, ?_, ?_⟩, ?_⟩
  · rw [hactive, hjson, hs.active]
  · rw [hjson]
    exact hs.stamper.trans hn
  · rw [hjson, hl, hs.payload]
  · rw [hjson]

end Step

/-- **One step keeps the invariant and never lowers the opstamp.** -/
theorem metaInvariant_step {initial : Option String} {ls : List WriterEvent}
    {s t : WriterState τ} {l : WriterEvent} (hs : MetaInvariant initial ls s)
    (h : Guarded WriterStep FinishesUndisturbed s l t) :
    MetaInvariant initial (ls ++ [l]) t ∧
      s.updater.metaJson.opstamp ≤ t.updater.metaJson.opstamp := by
  obtain ⟨hcond, hstep⟩ := h
  cases hstep with
  | stamped count =>
    exact metaInvariant_of_metas hs rfl (Nat.le_add_right _ _) (lastCommitPayload_snoc initial ls _)
  | @commit u payload io reply hstep =>
    have hends := handleCommit_ends hcond s.stamper payload s.updater
    cases hstep with
    | ok hrun =>
      rw [show (handleCommit io s.stamper payload).run s.updater = _ from hrun] at hends
      cases hends with
      | written hactive hopstamp hpayload =>
        refine ⟨⟨hactive, ?_, ?_⟩, ?_⟩
        · rw [hopstamp]
          exact Nat.le_succ _
        · rw [lastCommitPayload_snoc, hpayload]
        · rw [hopstamp]
          exact hs.stamper
    | error hrun =>
      rw [show (handleCommit io s.stamper payload).run s.updater = _ from hrun] at hends
      cases hends with
      | refused hmetas =>
        exact metaInvariant_of_metas hs hmetas (Nat.le_succ _) (lastCommitPayload_snoc initial ls _)
  | @background u e hnot hstep =>
    -- whatever is written carries the active opstamp and payload
    have hrewrites : RewritesMetas s.updater.activeIndexMeta.opstamp
        s.updater.activeIndexMeta.payload s.updater u := by
      cases e with
      | dictionaryWork => cases hstep; exact .inl rfl
      | handled m io reply =>
        rw [hstep.finalState_eq]
        have hm : ∀ o p, m ≠ .commit o p := by
          rintro o p rfl
          exact hnot trivial
        rcases handle_rewrites io hm with ⟨n, results, batch, rfl, hbatch, h⟩ | h
        · obtain ⟨ho, hp⟩ := hcond batch hbatch
          rwa [ho, hp] at h
        · exact h
    have hl := lastCommitPayload_snoc initial ls (.background e)
    rcases hrewrites with hmetas | ⟨hactive, hopstamp, hpayload⟩
    · exact metaInvariant_of_metas hs hmetas le_rfl hl
    · rw [hs.active] at hopstamp hpayload
      refine ⟨⟨hactive, ?_, ?_⟩, hopstamp.ge⟩
      · rw [hopstamp]
        exact hs.stamper
      · rw [hl, hpayload, hs.payload]

/-- **In every undisturbed run of a writer, the opstamp of `meta.json` never decreases and its
payload is that of the last successful commit.** -/
theorem metaJson_follows_commits {s t : WriterState τ} {ls : List WriterEvent}
    (hs : Created s) (h : Run (Guarded WriterStep FinishesUndisturbed) s ls t) :
    Run (fun s l t => WriterStep s l t ∧
        s.updater.metaJson.opstamp ≤ t.updater.metaJson.opstamp) s ls t ∧
      t.updater.metaJson.payload = lastCommitPayload s.updater.metaJson.payload ls := by
  have hboth : MetaInvariant s.updater.metaJson.payload ls t ∧
      Run (fun s l t => WriterStep s l t ∧
        s.updater.metaJson.opstamp ≤ t.updater.metaJson.opstamp) s ls t := by
    induction h with
    | nil => exact ⟨⟨hs.active, hs.stamper.ge, rfl⟩, .nil⟩
    | snoc _ hstep ih =>
      obtain ⟨hinv, hrun⟩ := ih
      obtain ⟨hinv', hle⟩ := metaInvariant_step hinv hstep
      exact ⟨hinv', hrun.snoc ⟨hstep.2, hle⟩⟩
  exact ⟨hboth.2, hboth.1.payload⟩

/-! ## Two runs -/

/-- A writer opened on two committed segments at opstamp 5, with payload "old". -/
def openedWriter : WriterState Unit :=
  ⟨5, createdOn [.new 1 10 [], .new 2 10 []] 5 (some "old")⟩

/-- A batch is started and finished, three documents are added, and a commit follows. -/
def batchThenCommit : List WriterEvent :=
  [.background (.handled (.startMerges [⟨5, [1, 2]⟩]) calmIo (.ok ())),
    .background (.handled (.mergesDone 0 fun _ => .merged (some (twentyDocs 4))) calmIo (.ok ())),
    .stamped 3,
    .commit (some "new") calmIo (.ok ())]

/-- An undisturbed run: the batch is finished before the next commit, which keeps its opstamp
and payload. -/
theorem metaJson_follows_batchThenCommit :
    ∃ t : WriterState Unit,
      Run (fun s l t => WriterStep s l t ∧
        s.updater.metaJson.opstamp ≤ t.updater.metaJson.opstamp) openedWriter batchThenCommit t ∧
      t.updater.metaJson.payload = lastCommitPayload (some "old") batchThenCommit ∧
      t.updater.metaJson.opstamp = 8 ∧ t.updater.metaJson.payload = some "new" := by
  have hrun : ∃ t, Run (Guarded WriterStep FinishesUndisturbed) openedWriter batchThenCommit t ∧
      t.updater.metaJson.opstamp = 8 ∧ t.updater.metaJson.payload = some "new" := by
    refine ⟨_, .snoc (.snoc (.snoc (.snoc .nil ⟨trivial, .background id (.ok rfl)⟩)
        ⟨?started, .background id (.ok rfl)⟩)
        ⟨trivial, .stamped 3⟩)
        ⟨?after, .commit (.ok rfl)⟩, rfl, rfl⟩
    case started =>
      intro batch h
      cases h
      exact ⟨rfl, rfl⟩
    case after => exact fun _ => ⟨rfl, fun _ => rfl, fun _ => rfl, by simp [calmIo]⟩
  obtain ⟨t, hrun, hopstamp, hpayload⟩ := hrun
  have hfollows := metaJson_follows_commits ⟨rfl, rfl, rfl⟩ hrun
  exact ⟨t, hfollows.1, hfollows.2, hopstamp, hpayload⟩

/-- **A batch that outlives a commit takes it back.** The batch starts at opstamp 5; the
commit writes opstamp 8 and its payload; the finished batch writes opstamp 5 and the old
payload again. -/
theorem stale_batch_reverts_commit :
    ∃ s t u : WriterState Unit,
      Run WriterStep openedWriter
        [.background (.handled (.startMerges [⟨5, [1, 2]⟩]) calmIo (.ok ())), .stamped 3] s ∧
      WriterStep s (.commit (some "new") calmIo (.ok ())) t ∧
      WriterStep t (.background
        (.handled (.mergesDone 0 fun _ => .merged (some (twentyDocs 4))) calmIo (.ok ()))) u ∧
      t.updater.metaJson.opstamp = 8 ∧ t.updater.metaJson.payload = some "new" ∧
      u.updater.metaJson.opstamp = 5 ∧ u.updater.metaJson.payload = some "old" :=
  ⟨_, _, _, .snoc (.snoc .nil (.background (fun h => h) (.ok rfl))) (.stamped 3),
    .commit (.ok rfl), .background (fun h => h) (.ok rfl), rfl, rfl, rfl, rfl⟩

end Lucivy.Indexer
