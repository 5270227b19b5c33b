import Mathlib.Data.List.Perm.Basic
import Lucivy.Indexer.Publication

/-! # Merges in flight

The actor marks the segments of every batch it starts and releases them when the batch's
`MergesDone` message is handled. `refuse_if_merging` compares a new batch with what is
marked; it does not compare the operations of the batch with each other.

* `MergeBook` — the marked segments and the batches in flight, with `start` and `release`,
  the only two ways a handler changes them.
* `MergeBook.Sound` — exactly the sources of the batches in flight are marked, and no two
  operations in flight share a source.
* `handle_book` — what each message does to the book.
* `MergesKept` — what holds at a state: disjoint sources, refusals without effect, batches
  that last until their own done message and are released by it.
* `mergesKept_of_plansApart` — every run keeps it whose batches are planned over disjoint
  sources; `overlapping_batch_starts` is a batch that is not. -/

namespace Lucivy.Indexer

open Lucivy.Foundation Lucivy.SuffixFst List

variable {τ : Type}

/-! ## The book -/

/-- No two operations share a source. -/
def Apart (ops : List MergeOperation) : Prop :=
  ops.Pairwise fun a b => a.segmentIds.Disjoint b.segmentIds

instance (ops : List MergeOperation) : Decidable (Apart ops) :=
  inferInstanceAs
    (Decidable (ops.Pairwise fun a b => ∀ id ∈ a.segmentIds, id ∈ b.segmentIds → False))

/-- **The merge book**: the segments marked, the batches in flight. -/
structure MergeBook where
  merging : List SegmentId
  /-- The batches whose `MergesDone` message has not been handled. -/
  inFlight : List MergeBatch

namespace MergeBook

/-- The operations in flight. -/
def operations (k : MergeBook) : List MergeOperation := k.inFlight.flatMap MergeBatch.ops

/-- A batch is marked and started. -/
def start (k : MergeBook) (b : MergeBatch) : MergeBook :=
  ⟨k.merging ++ b.segmentIds, k.inFlight ++ [b]⟩

/-- The batch at place `n` is done and its segments are released. -/
def release (k : MergeBook) (n : Nat) (b : MergeBatch) : MergeBook :=
  ⟨k.merging.filter (· ∉ b.segmentIds), k.inFlight.eraseIdx n⟩

/-- **A sound book.** -/
structure Sound (k : MergeBook) : Prop where
  /-- Marked are exactly the sources of the batches in flight. -/
  marked : ∀ id, id ∈ k.merging ↔ ∃ op ∈ k.operations, id ∈ op.segmentIds
  /-- No segment is the source of two operations in flight. -/
  apart : Apart k.operations

/-- Nothing is merged. -/
theorem sound_empty : Sound ⟨[], []⟩ where
  marked id := by simp [operations]
  apart := List.Pairwise.nil

/-- The segments of a batch. -/
theorem mem_segmentIds {b : MergeBatch} {id : SegmentId} :
    id ∈ b.segmentIds ↔ ∃ op ∈ b.ops, id ∈ op.segmentIds :=
  mem_flatMap

/-- One batch more. -/
theorem operations_start (k : MergeBook) (b : MergeBatch) :
    (k.start b).operations = k.operations ++ b.ops := by
  simp [start, operations]

/-- Starting a batch over disjoint sources, none of them marked, keeps the book sound. -/
theorem Sound.start {k : MergeBook} (hk : k.Sound) {b : MergeBatch} (hb : Apart b.ops)
    (hfree : ∀ id ∈ b.segmentIds, id ∉ k.merging) : (k.start b).Sound where
  marked id := by
    rw [operations_start, show (k.start b).merging = k.merging ++ b.segmentIds from rfl,
      mem_append, hk.marked, mem_segmentIds]
    simp [or_and_right, exists_or]
  apart := by
    rw [Apart, operations_start, pairwise_append]
    refine ⟨hk.apart, hb, fun a ha c hc id hida hidc => ?_⟩
    exact hfree id (mem_segmentIds.mpr ⟨c, hc, hidc⟩) ((hk.marked id).mpr ⟨a, ha, hida⟩)

/-- Releasing a batch in flight keeps the book sound: no other batch has its sources. -/
theorem Sound.release {k : MergeBook} (hk : k.Sound) {n : Nat} {b : MergeBatch}
    (hb : k.inFlight[n]? = some b) : (k.release n b).Sound := by
  obtain ⟨hn, rfl⟩ := List.getElem?_eq_some_iff.mp hb
  have hops : k.inFlight[n].ops ++ (k.release n k.inFlight[n]).operations ~ k.operations :=
    (getElem_cons_eraseIdx_perm hn).flatMap_right MergeBatch.ops
  have hapart := (hops.pairwise_iff List.disjoint_symm).mpr hk.apart
  rw [pairwise_append] at hapart
  obtain ⟨-, hleft, hcross⟩ := hapart
  refine ⟨fun id => ?_, hleft⟩
  rw [show (k.release n k.inFlight[n]).merging =
      k.merging.filter (· ∉ k.inFlight[n].segmentIds) from rfl, mem_filter, hk.marked,
    decide_eq_true_iff, mem_segmentIds]
  simp only [← hops.mem_iff, mem_append, or_and_right, exists_or, and_not_self, false_or]
  refine and_iff_left_of_imp ?_
  rintro ⟨op, hop, hid⟩ ⟨c, hc, hidc⟩
  exact hcross c hc op hop hidc hid

/-- The book is as it was, or a batch planned as `P` says was started over free segments. -/
def Settles (P : List MergeOperation → Prop) (k k' : MergeBook) : Prop :=
  k' = k ∨ ∃ b : MergeBatch, P b.ops ∧ (∀ id ∈ b.segmentIds, id ∉ k.merging) ∧ k' = k.start b

/-- What a message leaves is sound. -/
theorem Sound.settles {k k' : MergeBook} (hk : k.Sound) (h : Settles Apart k k') : k'.Sound := by
  rcases h with rfl | ⟨b, hb, hfree, rfl⟩
  · exact hk
  · exact hk.start hb hfree

/-- What is in flight stays; at most one batch comes behind it. -/
theorem Settles.inFlight {P : List MergeOperation → Prop} {k k' : MergeBook} (h : Settles P k k') :
    ∃ new : List MergeBatch, k'.inFlight = k.inFlight ++ new ∧
      ∀ id ∈ k'.merging, id ∈ k.merging ∨ ∃ b ∈ new, id ∈ b.segmentIds := by
  rcases h with rfl | ⟨b, -, -, rfl⟩
  · exact ⟨[], by simp, fun id hid => .inl hid⟩
  · refine ⟨[b], rfl, fun id hid => ?_⟩
    rcases mem_append.mp hid with hid | hid
    · exact .inl hid
    · exact .inr ⟨b, by simp, hid⟩

end MergeBook

/-- The updater's merge book. -/
def mergeBook (s : SegmentUpdaterState τ) : MergeBook := ⟨s.merging, s.inFlight⟩

/-- All the updater knows of running merges: the flag of pending ones and the book. -/
def mergeState (s : SegmentUpdaterState τ) : Bool × MergeBook :=
  (s.pendingMergeTasks, mergeBook s)

/-! ## What the handlers' parts leave alone -/

/-- The book is part of the bookkeeping. -/
theorem mergeState_of_bookkeeping {α : Type} {x : Handler τ α} (h : Keeps bookkeeping x) :
    Keeps mergeState x := by
  intro s
  have hs := h s
  simp only [bookkeeping, Prod.mk.injEq] at hs
  rw [mergeState, mergeState, mergeBook, mergeBook, hs.2.2.1, hs.2.2.2.1, hs.2.2.2.2]

/-- Saving leaves the book alone, -/
theorem saveMetas_book (io : Io) (opstamp : Opstamp) (payload : Option String) :
    Keeps mergeState (saveMetas io opstamp payload : Handler τ Unit) := by
  intro s
  rw [finalState, saveMetas_run]
  cases io.saveOk <;> rfl

/-- with the collection behind it, -/
theorem saveAndCollect_book (io : Io) (opstamp : Opstamp) (payload : Option String) :
    Keeps mergeState (do saveMetas io opstamp payload; garbageCollectFiles io : Handler τ Unit) :=
  keeps_bind (saveMetas_book io opstamp payload) fun _ =>
    mergeState_of_bookkeeping (garbageCollectFiles_bookkeeping io)

/-- registering results, -/
theorem mergesDoneInner_book (io : Io) (batch : MergeBatch) (results : Nat → TaskResult) :
    Keeps mergeState (mergesDoneInner io batch results : Handler τ Unit) := by
  refine keeps_bind (mergeState_of_bookkeeping (registerMergeResults_bookkeeping io _))
    fun _ => keeps_ite ?_ (keeps_throw _ _)
  exact saveAndCollect_book io _ _

/-- a commit, -/
theorem commitDag_book (io : Io) (opstamp : Opstamp) (payload : Option String) :
    Keeps mergeState (commitDag io opstamp payload : Handler τ Unit) := by
  refine keeps_bind (mergeState_of_bookkeeping (prepareNode_bookkeeping _ _ _)) fun _ => ?_
  exact saveAndCollect_book io _ _

/-- An explicit merge runs inline: it marks nothing. -/
theorem handleMerge_book (io : Io) (op : MergeOperation) (result : TaskResult) :
    Keeps mergeState (handleMerge io op result : Handler τ Unit) := by
  refine keeps_bind (mergeState_of_bookkeeping (refuseIfMerging_bookkeeping _)) fun _ => ?_
  refine keeps_bind (keeps_get_bind fun _ => rfl) fun info => ?_
  refine keeps_bind (mergeState_of_bookkeeping (prepareNode_bookkeeping _ _ _)) fun _ => ?_
  cases result with
  | failed => exact keeps_throw _ _
  | merged entry =>
    refine keeps_bind (mergeState_of_bookkeeping (registerMergeResult_bookkeeping io op entry))
      fun _ => saveAndCollect_book io _ _

/-- and the message after a fold. -/
theorem handleDictionaryFolded_book (io : Io) :
    Keeps mergeState (handleDictionaryFolded io : Handler τ Unit) := by
  refine keeps_bind (keeps_get_bind fun _ => rfl) fun info => ?_
  refine keeps_bind (saveMetas_book io _ _) fun _ => ?_
  refine keeps_bind (mergeState_of_bookkeeping (deleteConsumedPairs_bookkeeping io)) fun _ => ?_
  exact mergeState_of_bookkeeping (garbageCollectFiles_bookkeeping io)

/-! ## Starting a batch -/

section Start

variable {k : MergeBook} {P : List MergeOperation → Prop}

/-- What keeps the book, keeps it at `k`, on success and on failure. -/
theorem triple_of_book {α : Type} {x : Handler τ α} (h : Keeps mergeState x) :
    Triple (mergeBook · = k) x (fun _ s => mergeBook s = k) (mergeBook · = k) :=
  triple_of_relates h fun _ _ hs hst => (congrArg Prod.snd hst).trans hs

/-- The same as a triple. -/
theorem triple_of_bookkeeping {α : Type} {x : Handler τ α} (h : Keeps bookkeeping x) :
    Triple (mergeBook · = k) x (fun _ s => mergeBook s = k) (mergeBook · = k) :=
  triple_of_book (mergeState_of_bookkeeping h)

/-- What passes `refuse_if_merging` is not marked. -/
theorem refuseIfMerging_triple (ids : List SegmentId) :
    Triple (mergeBook · = k) (refuseIfMerging ids : Handler τ Unit)
      (fun _ s => mergeBook s = k ∧ ∀ id ∈ ids, id ∉ k.merging) (mergeBook · = k) := by
  refine triple_get_bind fun s hs => triple_ite (fun _ => ?_) fun hfree => ?_
  · exact triple_throw fun t ht => ht ▸ hs
  · refine triple_pure fun t ht => ⟨ht ▸ hs, fun id hid hmem => hfree ?_⟩
    rw [← hs] at hmem
    exact any_eq_true.mpr ⟨id, hid, decide_eq_true hmem⟩

/-- **A batch is started whole or not at all**: a failure leaves the book alone; a success
means that none of its sources was marked. -/
theorem handleStartMerges_triple (scan : SegmentId → Option DeleteScan)
    {ops : List MergeOperation} (hP : P ops) :
    Triple (mergeBook · = k) (handleStartMerges scan ops : Handler τ Unit)
      (fun _ s => MergeBook.Settles P k (mergeBook s)) (mergeBook · = k) := by
  refine triple_bind (triple_of_book (keeps_get_bind fun _ => rfl)) fun info => ?_
  refine triple_bind (triple_of_bookkeeping (purgeAndCommit_bookkeeping _ _)) fun _ => ?_
  refine triple_bind (refuseIfMerging_triple _) fun _ => ?_
  have hstart : Triple (fun s => mergeBook s = k ∧
        ∀ id ∈ ops.flatMap MergeOperation.segmentIds, id ∉ k.merging)
      (startMerges ops : Handler τ Unit) (fun _ s => mergeBook s = k ∧
        ∀ id ∈ ops.flatMap MergeOperation.segmentIds, id ∉ k.merging) (mergeBook · = k) := by
    constructor
    · intro s hs a t hrun
      exact ⟨(triple_of_bookkeeping (startMerges_bookkeeping ops)).ok s hs.1 a t hrun, hs.2⟩
    · intro s hs e t hrun
      exact (triple_of_bookkeeping (startMerges_bookkeeping ops)).error s hs.1 e t hrun
  refine triple_bind hstart fun _ => triple_modify fun s hs => ?_
  refine .inr ⟨⟨ops, info.opstamp, info.payload⟩, hP, hs.2, ?_⟩
  rw [← hs.1]
  rfl

/-- A planned batch: nothing to start, or a start. -/
theorem planned_triple (scan : SegmentId → Option DeleteScan)
    {plan : SegmentUpdaterState τ → List MergeOperation} (hP : ∀ s, P (plan s)) :
    Triple (mergeBook · = k)
      (do
        let s ← get
        if plan s = [] then pure false
        else
          handleStartMerges scan (plan s)
          return true : Handler τ Bool)
      (fun _ s => MergeBook.Settles P k (mergeBook s)) (mergeBook · = k) := by
  refine triple_get_bind fun s hs => triple_ite (fun _ => ?_) fun _ => ?_
  · exact triple_pure fun t ht => .inl (ht ▸ hs)
  · refine triple_bind (Q := fun _ t => MergeBook.Settles P k (mergeBook t)) ?_ fun _ =>
      triple_pure fun _ => id
    exact (handleStartMerges_triple scan (hP s)).mono_pre fun t ht => ht ▸ hs

/-- The policy's merges. -/
theorem policyMerges_triple {io : Io} {opstamp : Opstamp}
    (hP : ∀ s : SegmentUpdaterState τ, P (policyOps io opstamp s)) :
    Triple (mergeBook · = k) (policyMerges io opstamp : Handler τ Bool)
      (fun _ s => MergeBook.Settles P k (mergeBook s)) (mergeBook · = k) :=
  triple_bind (triple_of_bookkeeping committedSegmentMetas_bookkeeping) fun _ => planned_triple _ hP

/-- A compaction. -/
theorem handleCompact_triple {io : Io} {maxDocs : Nat}
    (hP : ∀ s : SegmentUpdaterState τ, P (compactOps maxDocs s)) :
    Triple (mergeBook · = k) (handleCompact io maxDocs : Handler τ Unit)
      (fun _ s => MergeBook.Settles P k (mergeBook s)) (mergeBook · = k) := by
  refine triple_bind (triple_of_bookkeeping committedSegmentMetas_bookkeeping) fun _ => ?_
  refine triple_get_bind fun s hs => triple_ite (fun _ => ?_) fun _ => ?_
  · exact triple_pure fun t ht => .inl (ht ▸ hs)
  · exact (handleStartMerges_triple _ (hP s)).mono_pre fun t ht => ht ▸ hs

/-- A commit. -/
theorem handleCommit_triple {io : Io} {opstamp : Opstamp} {payload : Option String}
    (hP : ∀ s : SegmentUpdaterState τ, P (policyOps io opstamp s)) :
    Triple (mergeBook · = k) (handleCommit io opstamp payload : Handler τ Unit)
      (fun _ s => MergeBook.Settles P k (mergeBook s)) (mergeBook · = k) := by
  refine triple_bind (triple_of_bookkeeping (foldNewTexts_bookkeeping io)) fun _ => ?_
  refine triple_bind (triple_of_book (commitDag_book io opstamp payload)) fun _ => ?_
  refine triple_bind (triple_of_bookkeeping (deleteConsumedPairs_bookkeeping io)) fun _ => ?_
  exact triple_bind (policyMerges_triple hP) fun _ => triple_pure fun _ => id

/-- The done message of a batch: its segments are released, whatever becomes of the results,
and the policy may start the next batch. -/
theorem handleMergesDone_triple {io : Io} {batch : MergeBatch} {results : Nat → TaskResult}
    {n : Nat} (hP : ∀ s : SegmentUpdaterState τ, P (policyOps io batch.opstamp s)) :
    Triple (mergeBook · = ⟨k.merging, k.inFlight.eraseIdx n⟩)
      (handleMergesDone io batch results : Handler τ Unit)
      (fun _ s => MergeBook.Settles P (k.release n batch) (mergeBook s))
      (mergeBook · = k.release n batch) := by
  refine triple_bind (Q := fun _ s => mergeBook s = k.release n batch)
    (triple_modify fun s hs => ?_) fun _ => ?_
  · simp only [mergeBook, MergeBook.mk.injEq] at hs
    rw [mergeBook, MergeBook.release, hs.1, hs.2]
  have hinner : Triple (mergeBook · = k.release n batch)
      (attempt (mergesDoneInner io batch results) : Handler τ _)
      (fun _ s => mergeBook s = k.release n batch) (mergeBook · = k.release n batch) :=
    triple_of_book (relates_attempt (mergesDoneInner_book io batch results))
  refine triple_bind hinner fun outcome => ?_
  cases outcome with
  | ok _ =>
    refine triple_bind (policyMerges_triple hP) fun stillPending => triple_ite (fun _ => ?_)
      fun _ => ?_
    · exact triple_pure fun _ => id
    · exact triple_modify fun _ => id
  | error e =>
    refine triple_bind (Q := fun _ s => mergeBook s = k.release n batch)
      (triple_modify fun _ => id) fun _ => ?_
    exact triple_throw fun _ => id

end Start

/-! ## Messages -/

/-- What a message plans is as `P` says: the batch it brings, what the policy proposes, what
a compaction groups. -/
def Plans (τ : Type) (P : List MergeOperation → Prop) (io : Io) : Message → Prop
  | .startMerges ops => P ops
  | .commit opstamp _ => ∀ s : SegmentUpdaterState τ, P (policyOps io opstamp s)
  | .mergesDone _ _ => ∀ (opstamp : Opstamp) (s : SegmentUpdaterState τ), P (policyOps io opstamp s)
  | .compact maxDocs => ∀ s : SegmentUpdaterState τ, P (compactOps maxDocs s)
  | _ => True

/-- The book a message starts from: without its batch, if it is a done message. -/
def Message.before (k : MergeBook) : Message → MergeBook
  | .mergesDone n _ =>
    match k.inFlight[n]? with
    | none => k
    | some b => k.release n b
  | _ => k

/-- **What a message does to the book.** A done message releases its batch; then a batch is
started over free segments, or nothing changes. On an error nothing was started. -/
theorem handle_book {P : List MergeOperation → Prop} {io : Io} {m : Message}
    (hP : Plans τ P io m) (k : MergeBook) :
    Triple (mergeBook · = k) (handle io m : Handler τ Unit)
      (fun _ s => MergeBook.Settles P (m.before k) (mergeBook s)) (mergeBook · = m.before k) := by
  have hkeep : ∀ {x : Handler τ Unit}, Keeps mergeState x → Triple (mergeBook · = k) x
      (fun _ s => MergeBook.Settles P k (mergeBook s)) (mergeBook · = k) := fun hx =>
    (triple_of_book hx).mono (fun _ => id) (fun _ _ h => .inl h) fun _ => id
  cases m with
  | addSegment entry => exact hkeep (keeps_modify fun _ => rfl)
  | commit opstamp payload => exact handleCommit_triple hP
  | garbageCollect => exact hkeep (mergeState_of_bookkeeping (garbageCollectFiles_bookkeeping io))
  | startMerge op result => exact hkeep (handleMerge_book io op result)
  | startMerges ops => exact handleStartMerges_triple io.purge hP
  | compact maxDocs => exact handleCompact_triple hP
  | dictionaryFolded => exact hkeep (handleDictionaryFolded_book io)
  | mergesDone n results =>
    refine triple_get_bind fun s hs => ?_
    rw [Message.before, ← show s.inFlight = k.inFlight from congrArg MergeBook.inFlight hs]
    cases hb : s.inFlight[n]? with
    | none => exact triple_pure fun t ht => .inl (ht ▸ hs)
    | some b =>
      refine triple_bind (Q := fun _ t => mergeBook t = ⟨k.merging, k.inFlight.eraseIdx n⟩)
        (triple_set fun t _ => ?_) fun _ => handleMergesDone_triple (hP b.opstamp)
      rw [← hs]
      rfl

/-- Whatever a message plans, `True` says of it. -/
theorem plans_true (io : Io) (m : Message) : Plans τ (fun _ => True) io m := by
  cases m <;> simp [Plans]

variable {s t : SegmentUpdaterState τ}

/-- What is in flight after a step, with no condition on what it planned. -/
theorem step_settles {P : List MergeOperation → Prop} {m : Message} {io : Io}
    {reply : Except LucivyError Unit} (hP : Plans τ P io m)
    (h : UpdaterStep s (.handled m io reply) t) :
    MergeBook.Settles P (m.before (mergeBook s)) (mergeBook t) := by
  rw [h.finalState_eq]
  exact ((handle_book hP (mergeBook s)).mono_error fun _ h => .inl h).finalState rfl

/-! ## Plans over disjoint sources -/

/-- The groups of a compaction are the segments in order, cut. -/
theorem flatten_compactGroups (maxDocs : Nat) (metas : List SegmentMeta) :
    ∀ (current : List SegmentId) (docs : Nat),
      (compactGroups maxDocs metas current docs).flatten = current ++ metas.map SegmentMeta.id := by
  induction metas with
  | nil =>
    intro current docs
    by_cases h : current = []
    · simp [compactGroups, h]
    · simp [compactGroups, h]
  | cons m rest ih =>
    intro current docs
    rw [compactGroups]
    split
    · rw [flatten_cons, ih, map_cons, singleton_append]
    · rw [ih, map_cons, append_assoc, singleton_append]

/-- Ids in a register are distinct. -/
theorem nodup_segmentMetas (r : SegmentRegister) : (r.segmentMetas.map SegmentMeta.id).Nodup := by
  have h := r.nodup
  rwa [SegmentRegister.segmentMetas, map_map]

/-- Operations over groups without common segments are apart. -/
theorem apart_of_groups {groups : List (List SegmentId)} (h : groups.Pairwise List.Disjoint)
    (p : List SegmentId → Bool) (opstamp : Opstamp) :
    Apart ((groups.filter p).map (⟨opstamp, ·⟩)) :=
  (h.filter p).map _ fun _ _ h => h

/-- A compaction plans over disjoint sources. -/
theorem apart_compactOps (maxDocs : Nat) (s : SegmentUpdaterState τ) :
    Apart (compactOps maxDocs s) := by
  refine apart_of_groups ?_ _ _
  refine (nodup_flatten.mp ?_).2
  rw [flatten_compactGroups, nil_append]
  refine ((perm_insertionSort _ _).map _).nodup_iff.mpr ?_
  exact (filter_sublist.map _).nodup (nodup_segmentMetas _)

/-- **A policy that plans over disjoint sources**: given segments with distinct ids, no two
of the merges it proposes share one. -/
def PolicyApart (io : Io) : Prop :=
  ∀ metas : List SegmentMeta, (metas.map SegmentMeta.id).Nodup →
    (io.policy metas).Pairwise List.Disjoint

/-- The policy's groups are disjoint. -/
theorem apart_policyOps {io : Io} (h : PolicyApart io) (opstamp : Opstamp)
    (s : SegmentUpdaterState τ) : Apart (policyOps io opstamp s) :=
  apart_of_groups (h _ ((filter_sublist.map _).nodup (nodup_segmentMetas _))) _ _

/-- **The condition on a step**: the batch a caller asks for, and the batch the policy
proposes, are over disjoint sources. -/
def PlansApart (_ : SegmentUpdaterState τ) : UpdaterEvent → Prop
  | .handled (.startMerges ops) _ _ => Apart ops
  | .handled (.commit _ _) io _ => PolicyApart io
  | .handled (.mergesDone _ _) io _ => PolicyApart io
  | _ => True

/-- A guarded message plans disjoint merges. -/
theorem plans_apart {s : SegmentUpdaterState τ} {m : Message} {io : Io}
    {reply : Except LucivyError Unit} (h : PlansApart s (.handled m io reply)) :
    Plans τ Apart io m := by
  cases m with
  | startMerges ops => exact h
  | commit opstamp payload => exact apart_policyOps h opstamp
  | mergesDone n results => exact apart_policyOps h
  | compact maxDocs => exact apart_compactOps maxDocs
  | _ => trivial

/-- The book once a batch is taken out. -/
theorem sound_before {k : MergeBook} (hk : k.Sound) (m : Message) : (m.before k).Sound := by
  cases m with
  | mergesDone n results =>
    rw [Message.before]
    split
    · exact hk
    · exact hk.release ‹_›
  | _ => exact hk

/-- **Step lemma**: a step that plans over disjoint sources keeps the book sound. -/
theorem sound_step {e : UpdaterEvent} (hs : (mergeBook s).Sound)
    (h : Guarded UpdaterStep PlansApart s e t) : (mergeBook t).Sound := by
  obtain ⟨hplans, hstep⟩ := h
  cases e with
  | dictionaryWork =>
    cases hstep
    exact hs
  | handled m io reply =>
    exact (sound_before hs m).settles (step_settles (plans_apart hplans) hstep)

/-! ## Batches last until they are done -/

/-- Where the batch at place `n` stands after an event; nowhere after its own done message. -/
def follow (n : Nat) : UpdaterEvent → Option Nat
  | .handled (.mergesDone d _) _ _ => if d = n then none else some (if d < n then n - 1 else n)
  | _ => some n

/-- A batch that is not done is still in flight after the step. -/
theorem step_follow {e : UpdaterEvent} (h : UpdaterStep s e t) {n n' : Nat} {b : MergeBatch}
    (hb : s.inFlight[n]? = some b) (hn : follow n e = some n') : t.inFlight[n']? = some b := by
  cases e with
  | dictionaryWork =>
    cases h
    cases hn
    exact hb
  | handled m io reply =>
    obtain ⟨new, hnew, -⟩ := (step_settles (plans_true io m) h).inFlight
    have hbefore : (m.before (mergeBook s)).inFlight[n']? = some b := by
      cases m with
      | mergesDone d results =>
        simp only [follow, Option.ite_none_left_eq_some, Option.some.injEq] at hn
        obtain ⟨hdn, rfl⟩ := hn
        rw [Message.before]
        cases hd : (mergeBook s).inFlight[d]? with
        | none =>
          -- no batch stands at `d`, so `n` is before it
          have hlen : s.inFlight.length ≤ d := getElem?_eq_none_iff.mp hd
          have hlt : n < s.inFlight.length := (List.getElem?_eq_some_iff.mp hb).1
          rw [if_neg (by omega)]
          exact hb
        | some c =>
          change (s.inFlight.eraseIdx d)[_]? = some b
          rw [getElem?_eraseIdx]
          by_cases hlt : d < n
          · rw [if_pos hlt, if_neg (by omega), show n - 1 + 1 = n by omega]
            exact hb
          · rw [if_neg hlt, if_pos (by omega)]
            exact hb
      | _ =>
        cases hn
        exact hb
    rw [show t.inFlight = _ from hnew]
    rw [List.getElem?_append_left (List.getElem?_eq_some_iff.mp hbefore).1]
    exact hbefore

/-! ## What every run keeps -/

/-- **What holds of the merges at a state.** -/
structure MergesKept (s : SegmentUpdaterState τ) : Prop where
  /-- No segment is a source of two merges in flight. -/
  apart : Apart (s.inFlight.flatMap MergeBatch.ops)
  /-- The set of segments in merge is the set of the sources of the merges in flight. -/
  marked : ∀ id, id ∈ s.merging ↔ ∃ b ∈ s.inFlight, id ∈ b.segmentIds
  /-- An explicit merge is refused without effect, or shares no source with one in flight. -/
  explicit : ∀ op result io reply t, UpdaterStep s (.handled (.startMerge op result) io reply) t →
    (t = s ∧ ∃ e, reply = .error e) ∨
      ∀ b ∈ s.inFlight, ∀ o ∈ b.ops, op.segmentIds.Disjoint o.segmentIds
  /-- A message answered with an error has started nothing: the set is as it was, without the
  segments of the message's own batch if it is a done message. -/
  refused : ∀ m io e t, UpdaterStep s (.handled m io (.error e)) t →
    mergeBook t = m.before (mergeBook s)
  /-- A batch in flight stays in flight on every step but its own done message. -/
  lasts : ∀ e t, UpdaterStep s e t → ∀ n b, s.inFlight[n]? = some b →
    ∀ n', follow n e = some n' → t.inFlight[n']? = some b
  /-- Its own done message takes it out and releases its segments: one that is marked
  afterwards is a source of the batch that message started. -/
  released : ∀ n results io reply t, UpdaterStep s (.handled (.mergesDone n results) io reply) t →
    ∀ b, s.inFlight[n]? = some b →
      ∃ new : List MergeBatch, t.inFlight = s.inFlight.eraseIdx n ++ new ∧
        ∀ id ∈ b.segmentIds, id ∈ t.merging → ∃ b' ∈ new, id ∈ b'.segmentIds

/-- An explicit merge that goes past `refuse_if_merging` has no marked source. -/
theorem handleMerge_refuses (io : Io) (op : MergeOperation) (result : TaskResult)
    (s : SegmentUpdaterState τ) :
    (∃ e, (handleMerge io op result : Handler τ Unit).run s = .error e s) ∨
      ∀ id ∈ op.segmentIds, id ∉ s.merging := by
  by_cases h : op.segmentIds.any (· ∈ s.merging) = true
  · left
    refine ⟨_, run_bind_of_error
      (e := .invalidArgument "segment is being merged by a running merge") ?_⟩
    rw [refuseIfMerging, run_get_bind, if_pos h]
    rfl
  · right
    intro id hid hmem
    exact h (any_eq_true.mpr ⟨id, hid, decide_eq_true hmem⟩)

/-- The sound book is all a state needs. -/
theorem mergesKept_of_sound {s : SegmentUpdaterState τ} (h : (mergeBook s).Sound) :
    MergesKept s where
  apart := h.apart
  marked id := by
    rw [show id ∈ s.merging ↔ _ from h.marked id]
    simp only [MergeBook.operations, MergeBook.mem_segmentIds, mem_flatMap, ← exists_and_left,
      ← exists_and_right, and_assoc]
    exact exists_comm
  explicit op result io reply t hstep := by
    rcases handleMerge_refuses io op result s with ⟨e, hrun⟩ | hfree
    · left
      cases hstep with
      | ok hok => exact nomatch hok.symm.trans hrun
      | error herr =>
        cases herr.symm.trans hrun
        exact ⟨rfl, e, rfl⟩
    · right
      intro b hb o ho id hid hido
      exact hfree id hid ((h.marked id).mpr ⟨o, mem_flatMap.mpr ⟨b, hb, ho⟩, hido⟩)
  refused m io e t hstep := by
    cases hstep with
    | error herr => exact (handle_book (plans_true io m) (mergeBook s)).error s rfl e t herr
  lasts e t hstep n b hb n' hn := step_follow hstep hb hn
  released n results io reply t hstep b hb := by
    obtain ⟨new, hnew, hmarked⟩ := (step_settles (plans_true io _) hstep).inFlight
    simp only [Message.before, show (mergeBook s).inFlight[n]? = some b from hb] at hnew hmarked
    refine ⟨new, hnew, fun id hid hmem => (hmarked id hmem).resolve_left fun hrel => ?_⟩
    exact of_decide_eq_true (mem_filter.mp hrel).2 hid

/-- **An unending run** of the updater, with the events that drive it. -/
structure UnendingRun (C : SegmentUpdaterState τ → UpdaterEvent → Prop) where
  state : Nat → SegmentUpdaterState τ
  /-- The events between them. -/
  event : Nat → UpdaterEvent
  /-- Each event leads from its state to the next. -/
  step : ∀ i, Guarded UpdaterStep C (state i) (event i) (state (i + 1))

namespace UnendingRun

variable {C : SegmentUpdaterState τ → UpdaterEvent → Prop}

/-- Where the batch at place `n` of state `i` stands `d` events later. -/
def place (r : UnendingRun C) (i n : Nat) : Nat → Option Nat
  | 0 => some n
  | d + 1 => (r.place i n d).bind fun n' => follow n' (r.event (i + d))

/-- **Every batch is answered**: its tasks all come back, and its done message is handled. -/
def Answers (r : UnendingRun C) : Prop :=
  ∀ i n b, (r.state i).inFlight[n]? = some b →
    ∃ d n' results io reply, r.place i n d = some n' ∧
      r.event (i + d) = .handled (.mergesDone n' results) io reply

/-- The batch stays in flight. -/
theorem inFlight_place (r : UnendingRun C) {i n : Nat} {b : MergeBatch}
    (hb : (r.state i).inFlight[n]? = some b) {d n' : Nat} (h : r.place i n d = some n') :
    (r.state (i + d)).inFlight[n']? = some b := by
  induction d generalizing n' with
  | zero =>
    cases h
    exact hb
  | succ d ih =>
    obtain ⟨m, hm, hfollow⟩ := Option.bind_eq_some_iff.mp h
    exact step_follow (r.step (i + d)).2 (ih hm) hfollow

/-- The prefix of an unending run is a run. -/
theorem run (r : UnendingRun C) (i : Nat) :
    ∃ events, Run (Guarded UpdaterStep C) (r.state 0) events (r.state i) := by
  induction i with
  | zero => exact ⟨[], .nil⟩
  | succ i ih =>
    obtain ⟨events, h⟩ := ih
    exact ⟨_, .snoc h (r.step i)⟩

end UnendingRun

/-- **Merges in flight.** From a state without merges, in every run whose batches are planned
over disjoint sources: what `MergesKept` says holds at every state reached; and if every
batch is answered, every batch that starts is taken out of flight by its own done message,
which releases its segments. -/
theorem mergesKept_of_plansApart {s : SegmentUpdaterState τ} (hmerging : s.merging = [])
    (hinFlight : s.inFlight = []) :
    (∀ events t, Run (Guarded UpdaterStep PlansApart) s events t → MergesKept t) ∧
      ∀ r : UnendingRun (τ := τ) PlansApart, r.state 0 = s → r.Answers →
        ∀ (i n : Nat) (b : MergeBatch), (r.state i).inFlight[n]? = some b →
          ∃ (j n' : Nat) (results : Nat → TaskResult) (io : Io) (reply : Except LucivyError Unit),
            i ≤ j ∧ (r.state j).inFlight[n']? = some b ∧
            r.event j = .handled (.mergesDone n' results) io reply ∧
            ∃ new : List MergeBatch,
              (r.state (j + 1)).inFlight = (r.state j).inFlight.eraseIdx n' ++ new ∧
              ∀ id ∈ b.segmentIds, id ∈ (r.state (j + 1)).merging →
                ∃ b' ∈ new, id ∈ b'.segmentIds := by
  have hsound : ∀ events t, Run (Guarded UpdaterStep PlansApart) s events t →
      (mergeBook t).Sound := by
    intro events t hrun
    refine hrun.invariant (I := fun u => (mergeBook u).Sound) (fun u e v => sound_step) ?_
    rw [mergeBook, hmerging, hinFlight]
    exact MergeBook.sound_empty
  refine ⟨fun events t hrun => mergesKept_of_sound (hsound events t hrun), ?_⟩
  intro r hstart hanswers i n b hb
  obtain ⟨d, n', results, io, reply, hplace, hevent⟩ := hanswers i n b hb
  have hbatch := r.inFlight_place hb hplace
  obtain ⟨events, hrun⟩ := r.run (i + d)
  have hkept := mergesKept_of_sound (hsound events _ (hstart ▸ hrun))
  have hstep := (r.step (i + d)).2
  rw [hevent] at hstep
  exact ⟨i + d, n', results, io, reply, Nat.le_add_right i d, hbatch, hevent,
    hkept.released n' results io reply _ hstep b hbatch⟩

/-- Four committed segments of ten documents. -/
def fourSegments : SegmentUpdaterState Unit :=
  createdOn [.new 1 10 [], .new 2 10 [], .new 3 10 [], .new 4 10 []] 5 none

/-- A policy that proposes nothing. -/
theorem policyApart_calmIo : PolicyApart calmIo := fun _ _ => List.Pairwise.nil

/-- A batch starts, its done message follows, and nothing happens behind it. -/
def oneBatch : UnendingRun (τ := Unit) PlansApart where
  state
    | 0 => fourSegments
    | 1 => finalState (handle calmIo (.startMerges [⟨5, [1, 2]⟩])) fourSegments
    | _ => finalState (handle calmIo (.mergesDone 0 fun _ => .merged (some (twentyDocs 6))))
        (finalState (handle calmIo (.startMerges [⟨5, [1, 2]⟩])) fourSegments)
  event
    | 0 => .handled (.startMerges [⟨5, [1, 2]⟩]) calmIo (.ok ())
    | 1 => .handled (.mergesDone 0 fun _ => .merged (some (twentyDocs 6))) calmIo (.ok ())
    | _ => .dictionaryWork
  step
    | 0 => ⟨pairwise_singleton _ _, .ok rfl⟩
    | 1 => ⟨policyApart_calmIo, .ok rfl⟩
    | _ + 2 => ⟨trivial, .dictionaryWork _ _ _ _⟩

/-- Its batch is answered. -/
theorem answers_oneBatch : oneBatch.Answers := by
  intro i n b hb
  match i with
  | 0 =>
    have hnone : (oneBatch.state 0).inFlight = [] := rfl
    simp [hnone] at hb
  | 1 =>
    have hone : (oneBatch.state 1).inFlight = [⟨[⟨5, [1, 2]⟩], 5, none⟩] := rfl
    have hfirst : n = 0 := by
      rw [hone] at hb
      simpa using (List.getElem?_eq_some_iff.mp hb).1
    subst hfirst
    exact ⟨0, 0, _, _, _, rfl, rfl⟩
  | i + 2 =>
    have hnone : (oneBatch.state (i + 2)).inFlight = [] := rfl
    simp [hnone] at hb

/-- Two merges over different segments, started one after the other and done in the other
order. -/
def twoBatches : List UpdaterEvent :=
  [.handled (.startMerges [⟨5, [1, 2]⟩]) calmIo (.ok ()),
    .handled (.startMerges [⟨5, [3, 4]⟩]) calmIo (.ok ()),
    .handled (.mergesDone 1 fun _ => .merged (some (twentyDocs 6))) calmIo (.ok ())]

/-- These, and an unending run, whose batch is taken out of flight. -/
theorem mergesKept_two_batches :
    (∃ t : SegmentUpdaterState Unit,
      Run (Guarded UpdaterStep PlansApart) fourSegments twoBatches t ∧
      t.merging = [1, 2] ∧ MergesKept t) ∧
    ∃ b, (oneBatch.state 1).inFlight = [b] ∧ b.segmentIds = [1, 2] ∧
      ∃ j n results io reply, 1 ≤ j ∧ (oneBatch.state j).inFlight[n]? = some b ∧
        oneBatch.event j = .handled (.mergesDone n results) io reply := by
  have hrun : Run (Guarded UpdaterStep PlansApart) fourSegments twoBatches _ :=
    .snoc (.snoc (.snoc .nil ⟨pairwise_singleton _ _, .ok rfl⟩)
      ⟨pairwise_singleton _ _, .ok rfl⟩) ⟨policyApart_calmIo, .ok rfl⟩
  have hkept := mergesKept_of_plansApart (s := fourSegments) rfl rfl
  obtain ⟨j, n, results, io, reply, hle, hplace, hevent, -⟩ :=
    hkept.2 oneBatch rfl answers_oneBatch 1 0 _ rfl
  exact ⟨⟨_, hrun, by decide, hkept.1 _ _ hrun⟩,
    _, rfl, by decide, j, n, results, io, reply, hle, hplace, hevent⟩

/-- **A batch may overlap itself.** The two operations of one batch share segment 2; nothing
is marked, so nothing refuses it, and segment 2 is a source of two merges in flight. -/
theorem overlapping_batch_starts :
    ∃ t : SegmentUpdaterState Unit,
      UpdaterStep (createdOn [.new 1 10 [], .new 2 10 [], .new 3 10 []] 5 none)
        (.handled (.startMerges [⟨5, [1, 2]⟩, ⟨5, [2, 3]⟩]) calmIo (.ok ())) t ∧
      t.inFlight.flatMap MergeBatch.ops = [⟨5, [1, 2]⟩, ⟨5, [2, 3]⟩] ∧ ¬ MergesKept t :=
  ⟨_, .ok rfl, by decide, fun h => absurd h.apart (by decide)⟩

end Lucivy.Indexer
