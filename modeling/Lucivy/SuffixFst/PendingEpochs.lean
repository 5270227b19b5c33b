import Lucivy.Foundation.Transition
import Lucivy.SuffixFst.Dictionary

/-! # The pending table over commits

A text that is minted waits in the pending table, under the epoch it was minted in, until a
commit has named the pair that holds it; the commit then forgets every epoch before the current
one. `prepare_commit` turns the epoch before the writers flush. The shards' path, `flush_workers`
and then `finalize_flush_and_prepare`, does not.

* `CommitPath`, `beginFlush` — what either path does to the table when its flush begins.
* `TableEvent` — interning, and commits with the interning that goes on while they flush.
* `Forgets` — what a commit that names its pairs should leave in the table.
* `forgets_iff` — in every state reached, for either path, exactly when it does. -/

namespace Lucivy.SuffixFst

open Lucivy.Foundation List

variable {τ : Type}

/-- The two ways a commit is prepared. -/
inductive CommitPath
  /-- `IndexWriter::prepare_commit`. -/
  | prepareCommit
  /-- `flush_workers`, then `finalize_flush_and_prepare`. -/
  | flushWorkers
  deriving DecidableEq

/-- The flush begins: only `prepare_commit` turns the epoch. -/
def CommitPath.beginFlush : CommitPath → DictionaryShared τ → DictionaryShared τ
  | .prepareCommit, s => s.beginCommitEpoch
  | .flushWorkers, s => s

/-- One call of `lookup_or_mint_hashed`, with what it finds outside the table. -/
structure InternCall (τ : Type) where
  dictionary : SfxDictionary τ
  cached : Option GlobalId
  maybe : Bool
  fieldId : FieldId
  key : τ

theorem beginFlush_pending (path : CommitPath) (s : DictionaryShared τ) :
    (path.beginFlush s).pending = s.pending := by
  cases path <;> rfl

theorem le_beginFlush_epoch (path : CommitPath) (s : DictionaryShared τ) :
    s.epoch ≤ (path.beginFlush s).epoch := by
  cases path
  · exact Nat.le_succ _
  · exact Nat.le_refl _

variable [DecidableEq τ]

/-- What a call does to the table. -/
def InternCall.apply (s : DictionaryShared τ) (c : InternCall τ) : DictionaryShared τ :=
  (lookupOrMint c.dictionary s c.cached c.maybe c.fieldId c.key).2

/-- What happens to the table. A commit flushes while writers go on interning; then it names its
pairs and forgets, or it ends without naming any. -/
inductive TableEvent (τ : Type)
  | intern (call : InternCall τ)
  | commit (path : CommitPath) (calls : List (InternCall τ)) (names : Bool)

/-- The table when a commit has flushed. -/
def flushed (path : CommitPath) (calls : List (InternCall τ)) (s : DictionaryShared τ) :
    DictionaryShared τ :=
  calls.foldl InternCall.apply (path.beginFlush s)

/-- The table when the commit has named its pairs. -/
def named (path : CommitPath) (calls : List (InternCall τ)) (s : DictionaryShared τ) :
    DictionaryShared τ :=
  (flushed path calls s).forgetCommittedPending

def TableStep (s : DictionaryShared τ) : TableEvent τ → DictionaryShared τ → Prop
  | .intern call, t => t = call.apply s
  | .commit path calls names, t => t = if names then named path calls s else flushed path calls s

/-- **What a commit should leave**: none of the texts minted before its flush began, and every
text minted after. -/
def Forgets (path : CommitPath) (calls : List (InternCall τ)) (s : DictionaryShared τ) : Prop :=
  (∀ p ∈ s.pending, p ∉ (named path calls s).pending) ∧
    ∀ p ∈ (flushed path calls s).pending, p ∉ s.pending → p ∈ (named path calls s).pending

/-! ## Minting -/

/-- A call mints at most one text, into the current epoch. -/
theorem apply_pending (s : DictionaryShared τ) (c : InternCall τ) :
    ∃ new : List (PendingEntry τ), (c.apply s).pending = new ++ s.pending ∧
      (∀ p ∈ new, p.epoch = s.epoch) ∧ (c.apply s).epoch = s.epoch := by
  unfold InternCall.apply
  rcases lookupOrMint_cases c.dictionary s c.cached c.maybe c.fieldId c.key with
    ⟨id, h, -⟩ | ⟨id, h, -⟩ | h
  · rw [h]
    exact ⟨[], rfl, forall_mem_nil _, rfl⟩
  · rw [h]
    exact ⟨[], rfl, forall_mem_nil _, rfl⟩
  · rw [h]
    refine ⟨[⟨s.epoch, c.fieldId, c.key, s.nextIds c.fieldId⟩], rfl, ?_, rfl⟩
    exact forall_mem_singleton.mpr rfl

/-- Many calls add texts of the current epoch in front. -/
theorem foldl_apply_pending (calls : List (InternCall τ)) (s : DictionaryShared τ) :
    ∃ new : List (PendingEntry τ), (calls.foldl InternCall.apply s).pending = new ++ s.pending ∧
      (∀ p ∈ new, p.epoch = s.epoch) ∧ (calls.foldl InternCall.apply s).epoch = s.epoch := by
  induction calls generalizing s with
  | nil => exact ⟨[], rfl, forall_mem_nil _, rfl⟩
  | cons c calls ih =>
    obtain ⟨new, hnew, hepoch, hsame⟩ := apply_pending s c
    obtain ⟨more, hmore, hepoch', hsame'⟩ := ih (c.apply s)
    refine ⟨more ++ new, ?_, forall_mem_append.mpr ⟨fun p hp => ?_, hepoch⟩, hsame'.trans hsame⟩
    · rw [foldl_cons, hmore, hnew, append_assoc]
    · exact (hepoch' p hp).trans hsame

/-! ## Runs -/

/-- No text is pending from an epoch to come. -/
def EpochsPast (s : DictionaryShared τ) : Prop := ∀ p ∈ s.pending, p.epoch ≤ s.epoch

theorem epochsPast_flushed (path : CommitPath) (calls : List (InternCall τ))
    {s : DictionaryShared τ} (h : EpochsPast s) : EpochsPast (flushed path calls s) := by
  obtain ⟨new, hpending, hepoch, hsame⟩ := foldl_apply_pending calls (path.beginFlush s)
  intro p hp
  rw [flushed, hpending, beginFlush_pending, mem_append] at hp
  rw [flushed, hsame]
  rcases hp with hp | hp
  · exact Nat.le_of_eq (hepoch p hp)
  · exact Nat.le_trans (h p hp) (le_beginFlush_epoch path s)

theorem epochsPast_step {s t : DictionaryShared τ} {e : TableEvent τ} (h : EpochsPast s)
    (hstep : TableStep s e t) : EpochsPast t := by
  cases e with
  | intern call =>
    obtain rfl := hstep
    exact epochsPast_flushed .flushWorkers [call] h
  | commit path calls names =>
    obtain rfl := hstep
    cases names with
    | false => exact epochsPast_flushed path calls h
    | true =>
      exact fun p hp => epochsPast_flushed path calls h p
        (DictionaryShared.mem_of_mem_forgetCommittedPending hp)

/-- **When a commit leaves the table right**, in every state a run reaches from an empty table:
if it turns the epoch, or if no text was minted in the current one. -/
theorem forgets_iff {s t : DictionaryShared τ} {events : List (TableEvent τ)}
    (hempty : s.pending = []) (hrun : Run TableStep s events t) (path : CommitPath)
    (calls : List (InternCall τ)) :
    Forgets path calls t ↔ path = .prepareCommit ∨ ∀ p ∈ t.pending, p.epoch ≠ t.epoch := by
  have hpast : EpochsPast t := by
    refine hrun.invariant (I := EpochsPast) (fun _ _ _ h hstep => epochsPast_step h hstep) ?_
    intro p hp
    rw [hempty] at hp
    cases hp
  obtain ⟨new, hpending, hepoch, hsame⟩ := foldl_apply_pending calls (path.beginFlush t)
  rw [beginFlush_pending] at hpending
  -- what stays is what has the epoch current after the flush began
  have hstays : ∀ p, p ∈ (named path calls t).pending ↔
      (p ∈ new ∨ p ∈ t.pending) ∧ (path.beginFlush t).epoch ≤ p.epoch := by
    intro p
    rw [named, DictionaryShared.forgetCommittedPending, mem_filter, flushed, hpending,
      hsame, mem_append, decide_eq_true_iff]
  constructor
  · rintro ⟨hgone, -⟩
    cases path with
    | prepareCommit => exact .inl rfl
    | flushWorkers =>
      exact .inr fun p hp heq => hgone p hp ((hstays p).mpr ⟨.inr hp, Nat.le_of_eq heq.symm⟩)
  · intro hwhen
    refine ⟨fun p hp hstay => ?_, fun p hp hnew => ?_⟩
    · have hle := ((hstays p).mp hstay).2
      have hold := hpast p hp
      rcases hwhen with rfl | hnone
      · exact Nat.not_succ_le_self _ (Nat.le_trans hle hold)
      · have hgrows := le_beginFlush_epoch path t
        exact hnone p hp (by omega)
    · rw [flushed, hpending, mem_append] at hp
      have hp := hp.resolve_right hnew
      exact (hstays p).mpr ⟨.inl hp, Nat.le_of_eq (hepoch p hp).symm⟩

/-- An empty table, and a call that mints a text. -/
def emptyTable : DictionaryShared String := ⟨fun _ => 0, [], 1⟩

/-- A caller without a dictionary, whose filter has not seen the text. -/
def mintCall (key : String) : InternCall String := ⟨.empty, none, false, 0, key⟩

/-- A text is minted, `prepare_commit` flushes while another is minted, and names its pairs. -/
theorem forgets_prepared :
    ∃ t, Run TableStep emptyTable [.intern (mintCall "alpha")] t ∧
      Forgets .prepareCommit [mintCall "gamma"] t ∧
      (named .prepareCommit [mintCall "gamma"] t).pending.map PendingEntry.key = ["gamma"] := by
  have hrun : Run TableStep emptyTable [.intern (mintCall "alpha")] _ := .snoc .nil rfl
  exact ⟨_, hrun, (forgets_iff rfl hrun _ _).mpr (.inl rfl), by decide⟩

/-- **The shards' path forgets nothing.** The text was minted before the flush began, and is
still pending when the commit has named its pairs; so it is after every later commit. -/
theorem flushWorkers_keeps_pending :
    ∃ t, Run TableStep emptyTable [.intern (mintCall "alpha")] t ∧ ¬ Forgets .flushWorkers [] t ∧
      (named .flushWorkers [] (named .flushWorkers [] t)).pending.map PendingEntry.key =
        ["alpha"] := by
  have hrun : Run TableStep emptyTable [.intern (mintCall "alpha")] _ := .snoc .nil rfl
  refine ⟨_, hrun, fun h => ?_, by decide⟩
  exact h.1 ⟨1, 0, "alpha", 0⟩ (mem_singleton.mpr rfl) (mem_singleton.mpr rfl)

end Lucivy.SuffixFst
