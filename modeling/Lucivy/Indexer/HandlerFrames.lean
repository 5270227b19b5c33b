import Lucivy.Indexer.SegmentUpdaterActor

/-! # What each part of a handler leaves alone

Frame lemmas, one for each operation the handlers are made of.

* `bookkeeping` — the fields only the actor's own bookkeeping writes: both copies of the
  meta, the merging set, the batches in flight, the pending flag.
* `QuietRegisters` — a step that at most drops empty committed segments.
* `outsideDictionary` — registers and bookkeeping, which folding and garbage collection
  keep. -/

namespace Lucivy.Indexer

open Lucivy.Foundation Lucivy.SuffixFst

variable {τ : Type}

/-- The fields no dictionary work touches. -/
def bookkeeping (s : SegmentUpdaterState τ) :
    IndexMeta × IndexMeta × Bool × List SegmentId × List MergeBatch :=
  (s.metaJson, s.activeIndexMeta, s.pendingMergeTasks, s.merging, s.inFlight)

/-- The registers at most lose empty committed segments. -/
def QuietRegisters (s t : SegmentUpdaterState τ) : Prop :=
  t.registers.uncommitted = s.registers.uncommitted ∧
    ∀ id ∈ t.registers.committed.ids, id ∈ s.registers.committed.ids

/-- Nothing happens. -/
theorem quietRegisters_refl (s : SegmentUpdaterState τ) : QuietRegisters s s := ⟨rfl, fun _ h => h⟩

/-- One after the other. -/
theorem quietRegisters_trans (s t u : SegmentUpdaterState τ) (h₁ : QuietRegisters s t)
    (h₂ : QuietRegisters t u) : QuietRegisters s u :=
  ⟨h₂.1.trans h₁.1, fun id h => h₁.2 id (h₂.2 id h)⟩

/-- Registers left alone are quiet. -/
theorem quietRegisters_of_eq {s t : SegmentUpdaterState τ} (h : t.registers = s.registers) :
    QuietRegisters s t := by
  rw [QuietRegisters, h]
  exact ⟨rfl, fun _ => id⟩

/-! ## Registers and `meta.json` -/

/-- Listing drops empty segments only, -/
theorem committedSegmentMetas_quiet :
    Relates QuietRegisters (committedSegmentMetas : Handler τ _) :=
  fun _ => ⟨rfl, fun _ h => SegmentRegisters.mem_ids_removeEmptySegments h⟩

/-- and leaves the merges alone. -/
theorem committedSegmentMetas_bookkeeping :
    Keeps bookkeeping (committedSegmentMetas : Handler τ _) :=
  fun _ => rfl

/-- The state `save_metas` leaves, field by field. -/
theorem saveMetas_run (io : Io) (opstamp : Opstamp) (payload : Option String)
    (s : SegmentUpdaterState τ) :
    (saveMetas io opstamp payload : Handler τ Unit).run s =
      if io.saveOk then
        .ok () { s with
          registers := s.registers.removeEmptySegments
          metaJson := ⟨s.registers.removeEmptySegments.committed.segmentMetas.insertionSort
            segmentOrder, opstamp, payload, sfxDictionaryMeta s⟩
          activeIndexMeta := ⟨s.registers.removeEmptySegments.committed.segmentMetas.insertionSort
            segmentOrder, opstamp, payload, sfxDictionaryMeta s⟩ }
      else .error .ioError { s with registers := s.registers.removeEmptySegments } := by
  cases h : io.saveOk <;> simp only [saveMetas, h] <;> rfl

/-- The segments a written meta lists are the committed ones that hold a document. -/
theorem mem_segmentIds_insertionSort {r : SegmentRegisters} {id : SegmentId} {o : Opstamp}
    {p : Option String} {d : Option SfxDictionaryMeta} :
    id ∈ (IndexMeta.mk (r.removeEmptySegments.committed.segmentMetas.insertionSort
        segmentOrder) o p d).segmentIds ↔ id ∈ r.removeEmptySegments.committed.ids := by
  simp only [IndexMeta.segmentIds, List.mem_map, List.mem_insertionSort,
    SegmentRegister.segmentMetas, SegmentRegister.ids, SegmentEntry.id]
  exact exists_exists_and_eq_and

/-- A `MergesDone` message finds its batch in flight, or is no message at all. -/
theorem handle_mergesDone_run (io : Io) (n : Nat) (results : Nat → TaskResult)
    (s : SegmentUpdaterState τ) :
    (handle io (.mergesDone n results)).run s = match s.inFlight[n]? with
      | none => .ok () s
      | some batch =>
        (handleMergesDone io batch results).run { s with inFlight := s.inFlight.eraseIdx n } := by
  rw [handle, run_get_bind]
  cases s.inFlight[n]? <;> rfl

/-! ## The dictionary's operations -/

/-- Everything but the dictionary, its files and its fold. -/
def outsideDictionary (s : SegmentUpdaterState τ) :=
  (s.registers, bookkeeping s)

/-- Work on the dictionary is quiet, -/
theorem quiet_of_outside {α : Type} {x : Handler τ α} (h : Keeps outsideDictionary x) :
    Relates QuietRegisters x :=
  fun s => quietRegisters_of_eq (congrArg Prod.fst (h s))

/-- and leaves the merges alone. -/
theorem bookkeeping_of_outside {α : Type} {x : Handler τ α} (h : Keeps outsideDictionary x) :
    Keeps bookkeeping x :=
  fun s => congrArg Prod.snd (h s)

/-- A refresh changes the dictionary only. -/
theorem refreshSfxDictionary_outside (metas : IndexMeta) (s : SegmentUpdaterState τ) :
    outsideDictionary (refreshSfxDictionary metas s) = outsideDictionary s := by
  unfold refreshSfxDictionary
  split
  · rfl
  · split_ifs <;> rfl

/-- A refresh that meets one of its two guards leaves the index as it was. -/
theorem refreshSfxDictionary_of_ahead {metas : IndexMeta} {s : SegmentUpdaterState τ}
    {d : SfxDictionary τ} (hd : s.dictionary = some d)
    (h : ∀ info, metas.sfxDictionary = some info →
      d.sameParts info = true ∨ info.nextGeneration < d.info.nextGeneration) :
    refreshSfxDictionary metas s = s := by
  unfold refreshSfxDictionary
  cases hinfo : metas.sfxDictionary with
  | none => rfl
  | some info =>
    dsimp only
    rw [hd, Option.any_some, Option.any_some]
    rcases h info hinfo with hsame | hahead
    · rw [if_pos hsame]
    · rw [if_pos (decide_eq_true hahead), ite_self]

/-- So does garbage collection. -/
theorem garbageCollectFiles_outside (io : Io) :
    Keeps outsideDictionary (garbageCollectFiles io : Handler τ Unit) := by
  have hcollect : ∀ s : SegmentUpdaterState τ,
      outsideDictionary (collectGarbage io (refreshSfxDictionary s.metaJson s)) =
        outsideDictionary s :=
    fun s => refreshSfxDictionary_outside s.metaJson s
  intro s
  unfold garbageCollectFiles
  split
  · rfl
  · exact hcollect s
  · exact hcollect s

/-- So does naming pairs. -/
theorem nameNewPairs_outside (ids : List SegmentId) (fields : List FieldId)
    (s : SegmentUpdaterState τ) :
    outsideDictionary (nameNewPairs ids fields s) = outsideDictionary s := by
  unfold nameNewPairs
  split <;> rfl

/-- So does a fold's swap, -/
theorem foldSwap_outside (snapshot : SfxDictionaryMeta) (gs : List Nat) (next : Nat)
    (s : SegmentUpdaterState τ) :
    outsideDictionary (foldSwap snapshot gs next s) = outsideDictionary s := by
  unfold foldSwap
  split <;> rfl

/-- and each of its steps, -/
theorem foldStep_outside (io : Io) (s : SegmentUpdaterState τ) :
    outsideDictionary (foldStep io s) = outsideDictionary s := by
  unfold foldStep
  split
  · rfl
  · split <;> rfl
  · split <;> rfl
  · rw [foldSwap_outside]; rfl

/-- and waiting for it, -/
theorem foldWait_outside (io : Io) (s : SegmentUpdaterState τ) :
    outsideDictionary (foldWait io s) = outsideDictionary s := by
  have hiter : ∀ n, outsideDictionary ((foldStep io)^[n] s) = outsideDictionary s := by
    intro n
    induction n with
    | zero => rfl
    | succ n ih => rw [Function.iterate_succ_apply', foldStep_outside, ih]
  exact hiter 7

/-- and a fold as a whole, -/
theorem foldOnce_outside (io : Io) : Keeps outsideDictionary (foldOnce io : Handler τ Unit) := by
  refine keeps_get_bind fun s => ?_
  split
  · rfl
  · split
    · rfl
    · exact foldSwap_outside _ _ _ _

/-- here or in the background. -/
theorem foldOrStart_outside (io : Io) :
    Keeps outsideDictionary (foldOrStart io : Handler τ Unit) := by
  refine keeps_bind (keeps_get _) fun _ => keeps_ite ?_ ?_
  · refine keeps_bind (keeps_modify (foldWait_outside io)) fun _ => ?_
    exact keeps_bind (keeps_get _) fun _ => keeps_ite (foldOnce_outside io) (keeps_pure _ _)
  · refine keeps_modify fun s => ?_
    unfold foldStart
    split <;> rfl

/-! ## `fold_new_texts` and `delete_consumed_pairs` -/

section Texts

variable {R : SegmentUpdaterState τ → SegmentUpdaterState τ → Prop}

section

variable (hrefl : ∀ s, R s s) (htrans : ∀ s t u, R s t → R t u → R s u)
  (hmetas : Relates R (committedSegmentMetas : Handler τ _))
include hrefl htrans hmetas

/-- What holds of dropping empty segments and of any dictionary work holds of naming the new
pairs. -/
theorem namePairs_relates (hout : ∀ s t, outsideDictionary t = outsideDictionary s → R s t)
    (io : Io) :
    Relates R (namePairs io) := by
  refine relates_bind htrans hmetas fun _ => relates_bind htrans (relates_get hrefl) fun s => ?_
  refine relates_ite (relates_throw hrefl _) (relates_ite (relates_pure hrefl _) ?_)
  exact relates_bind htrans (relates_modify fun t => hout _ _ (nameNewPairs_outside _ _ t))
    fun _ => relates_pure hrefl _

/-- The same for `fold_new_texts`. -/
theorem foldNewTexts_relates (hout : ∀ s t, outsideDictionary t = outsideDictionary s → R s t)
    (io : Io) :
    Relates R (foldNewTexts io) := by
  refine relates_bind htrans (relates_get hrefl) fun _ => relates_ite (relates_pure hrefl _) ?_
  refine relates_bind htrans (namePairs_relates hrefl htrans hmetas hout io) fun _ => ?_
  refine relates_ite ?_ (relates_pure hrefl _)
  exact (foldOrStart_outside io).mono fun s t h => hout s t h

/-- What holds of dropping empty segments and of deleting one segment's pair holds of
`delete_consumed_pairs`. -/
theorem deleteConsumedPairs_relates
    (hdelete : ∀ (s : SegmentUpdaterState τ) id fields,
      R s { s with directory := s.directory.deleteMinted id fields }) (io : Io) :
    Relates R (deleteConsumedPairs io) := by
  have hloop : ∀ named (ms : List SegmentMeta), Relates R (deletePairs io named ms) := by
    intro named ms
    induction ms with
    | nil => exact relates_pure hrefl _
    | cons m rest ih =>
      refine relates_ite ih (relates_ite ?_ (relates_throw hrefl _))
      exact relates_bind htrans (relates_modify fun s => hdelete s _ _) fun _ => ih
  refine relates_bind htrans (relates_get hrefl) fun _ => relates_ite (relates_pure hrefl _) ?_
  refine relates_bind htrans (relates_get_bind fun s => hrefl s) fun info => ?_
  split
  · exact relates_pure hrefl _
  · exact relates_bind htrans hmetas fun ms => hloop _ ms

end

end Texts

/-- `fold_new_texts` is quiet, -/
theorem foldNewTexts_quiet (io : Io) : Relates QuietRegisters (foldNewTexts io : Handler τ _) :=
  foldNewTexts_relates quietRegisters_refl quietRegisters_trans committedSegmentMetas_quiet
    (fun _ _ h => quietRegisters_of_eq (congrArg Prod.fst h)) io

/-- and leaves the merges alone. -/
theorem foldNewTexts_bookkeeping (io : Io) : Keeps bookkeeping (foldNewTexts io : Handler τ Unit) :=
  foldNewTexts_relates (R := fun s t => bookkeeping t = bookkeeping s) (fun _ => rfl)
    (fun _ _ _ h₁ h₂ => h₂.trans h₁) committedSegmentMetas_bookkeeping
    (fun _ _ h => congrArg Prod.snd h) io

/-- `delete_consumed_pairs` is quiet, -/
theorem deleteConsumedPairs_quiet (io : Io) :
    Relates QuietRegisters (deleteConsumedPairs io : Handler τ _) :=
  deleteConsumedPairs_relates quietRegisters_refl quietRegisters_trans
    committedSegmentMetas_quiet (fun _ _ _ => quietRegisters_of_eq rfl) io

/-- and leaves the merges alone, -/
theorem deleteConsumedPairs_bookkeeping (io : Io) :
    Keeps bookkeeping (deleteConsumedPairs io : Handler τ Unit) :=
  deleteConsumedPairs_relates (R := fun s t => bookkeeping t = bookkeeping s) (fun _ => rfl)
    (fun _ _ _ h₁ h₂ => h₂.trans h₁) committedSegmentMetas_bookkeeping
    (fun _ _ _ => rfl) io

/-! ## The work on the registers -/

/-- as garbage collection does, -/
theorem garbageCollectFiles_bookkeeping (io : Io) :
    Keeps bookkeeping (garbageCollectFiles io : Handler τ Unit) :=
  bookkeeping_of_outside (garbageCollectFiles_outside io)

/-- and the purge, -/
theorem purgeAndCommit_bookkeeping (scan : SegmentId → Option DeleteScan) (opstamp : Opstamp) :
    Keeps bookkeeping (purgeAndCommit scan opstamp : Handler τ Unit) := by
  refine keeps_get_bind fun s => ?_
  split <;> rfl

/-- and the refusal, -/
theorem refuseIfMerging_bookkeeping (ids : List SegmentId) :
    Keeps bookkeeping (refuseIfMerging ids : Handler τ Unit) := by
  refine keeps_get_bind fun s => ?_
  split <;> rfl

/-- and preparing merges, -/
theorem startMerges_bookkeeping (ops : List MergeOperation) :
    Keeps bookkeeping (startMerges ops : Handler τ Unit) := by
  refine keeps_get_bind fun s => ?_
  split <;> rfl

/-- the whole of `PrepareNode`, -/
theorem prepareNode_bookkeeping (io : Io) (ops : List MergeOperation) (opstamp : Opstamp) :
    Keeps bookkeeping (prepareNode io ops opstamp : Handler τ Unit) :=
  keeps_bind (purgeAndCommit_bookkeeping _ _) fun _ => startMerges_bookkeeping ops

/-- registering one result, -/
theorem registerMergeResult_bookkeeping (io : Io) (op : MergeOperation)
    (entry : Option SegmentEntry) :
    Keeps bookkeeping (registerMergeResult io op entry : Handler τ Unit) := by
  refine keeps_get_bind fun s => ?_
  split
  · rfl
  · split <;> rfl

/-- and registering all. -/
theorem registerMergeResults_bookkeeping (io : Io) (results : List (MergeOperation × TaskResult)) :
    Keeps bookkeeping (registerMergeResults io results : Handler τ Bool) := by
  induction results with
  | nil => exact keeps_pure _ _
  | cons r rest ih =>
    obtain ⟨op, result⟩ := r
    cases result with
    | failed => exact keeps_bind ih fun _ => keeps_pure _ _
    | merged entry =>
      refine keeps_bind (relates_attempt (registerMergeResult_bookkeeping io op entry)) fun _ => ?_
      exact keeps_bind ih fun _ => keeps_pure _ _

end Lucivy.Indexer
