import Lucivy.Indexer.DictionaryTexts

/-! # Which texts the live dictionary and `meta.json` account for

A text counts as named when one of the parts a meta names holds it: a generation, or a
pending pair. Folding, naming pairs, writing `meta.json` and deleting files each keep the
texts that are named.

* `Named`, `LiveNamed`, `DiskNamed` — a text is in a part of the given meta, of the live
  dictionary, of the `meta.json` on disk.
* `PartsKept s d w` — how the live dictionary `d`, the meta `w` on disk, the files and the
  fold under way stand to each other.
* `Grows s t` — what every dictionary operation does to the named texts: none is lost.
* `foldStep_kept`, `namePairs_kept`, `foldOrStart_kept`, `collect_kept`, `deleteConsumedPairs_kept`,
  `saveMetas_kept` — the operations, one lemma each. -/

namespace Lucivy.Indexer

open Lucivy.Foundation Lucivy.SuffixFst List Function

variable {τ : Type}

/-- A text of a field, under its global id. -/
abbrev TextRef (τ : Type) := FieldId × GlobalId × τ

/-- **The text is in a part `info` names**: a generation or a pending pair. -/
def Named (dir : Directory τ) (info : SfxDictionaryMeta) (r : TextRef τ) : Prop :=
  r.1 ∈ info.fieldIds ∧
    (InGenerations dir info.generations r.1 r.2 ∨
      ∃ id ∈ info.pendingSegments, r.2 ∈ mintedTexts dir id r.1)

/-- The text is in a part of the live dictionary. -/
def LiveNamed (s : SegmentUpdaterState τ) (r : TextRef τ) : Prop :=
  ∃ d, s.dictionary = some d ∧ Named s.directory d.info r

/-- The text is in a part of the `meta.json` on disk. -/
def DiskNamed (s : SegmentUpdaterState τ) (r : TextRef τ) : Prop :=
  ∃ info, s.metaJson.sfxDictionary = some info ∧ Named s.directory info r

/-- The pairs the live dictionary names. -/
def livePairs (s : SegmentUpdaterState τ) : List SegmentId :=
  (s.dictionary.map (·.info.pendingSegments)).getD []

/-- The pairs of the live dictionary. -/
theorem livePairs_eq {s : SegmentUpdaterState τ} {d : SfxDictionary τ}
    (h : s.dictionary = some d) : livePairs s = d.info.pendingSegments := by
  rw [livePairs, h]
  rfl

/-- What the live dictionary names. -/
theorem liveNamed_iff {s : SegmentUpdaterState τ} {d : SfxDictionary τ}
    (h : s.dictionary = some d) (r : TextRef τ) :
    LiveNamed s r ↔ Named s.directory d.info r := by
  simp [LiveNamed, h]

/-- The parts a `meta.json` names: none before a commit has written a dictionary. -/
def namedParts (metas : IndexMeta) : SfxDictionaryMeta :=
  metas.sfxDictionary.getD (SfxDictionary.empty : SfxDictionary Unit).info

/-- What `meta.json` names. -/
theorem diskNamed_iff {s : SegmentUpdaterState τ} {w : SfxDictionaryMeta}
    (h : namedParts s.metaJson = w) (r : TextRef τ) :
    DiskNamed s r ↔ Named s.directory w r := by
  subst h
  cases hinfo : s.metaJson.sfxDictionary with
  | none => simp [DiskNamed, namedParts, hinfo, Named, SfxDictionary.empty]
  | some info => simp [DiskNamed, namedParts, hinfo]

/-- A named text stays named when the files it may stand in stay. -/
theorem Named.of_files {dir dir' : Directory τ} {info : SfxDictionaryMeta} {r : TextRef τ}
    (h : Named dir info r)
    (hgen : ∀ g ∈ info.generations, ∀ f, generationTexts dir' g f = generationTexts dir g f)
    (hpair : ∀ id ∈ info.pendingSegments, ∀ f, mintedTexts dir' id f = mintedTexts dir id f) :
    Named dir' info r := by
  refine ⟨h.1, ?_⟩
  rcases h.2 with ⟨g, hg, hx⟩ | ⟨id, hid, hx⟩
  · exact .inl ⟨g, hg, by rwa [hgen g hg]⟩
  · exact .inr ⟨id, hid, by rwa [hpair id hid]⟩

/-- What a dictionary reads when it is opened is named by its meta. -/
theorem named_of_openParts {dir : Directory τ} {info : SfxDictionaryMeta} {f : FieldId}
    {part : Texts τ} (hpart : part ∈ (SfxDictionary.openParts dir info).fields f)
    {x : GlobalId × τ} (hx : x ∈ part) : Named dir info (f, x) := by
  unfold SfxDictionary.openParts at hpart
  dsimp only at hpart
  by_cases hf : f ∈ info.fieldIds
  · rw [if_pos hf] at hpart
    refine ⟨hf, ?_⟩
    rcases mem_append.mp hpart with hpart | hpart
    · obtain ⟨g, hg, hfile⟩ := mem_filterMap.mp hpart
      exact .inl ⟨g, hg, by simpa [generationTexts, hfile] using hx⟩
    · obtain ⟨id, hid, hfile⟩ := mem_filterMap.mp hpart
      exact .inr ⟨id, hid, by simpa [mintedTexts, hfile] using hx⟩
  · rw [if_neg hf] at hpart
    cases hpart

/-! ## The invariant of the parts -/

/-- `info` lists every field its parts have a text in, and numbers its generations below the
next. -/
structure Covers (dir : Directory τ) (info : SfxDictionaryMeta) : Prop where
  pairs : ∀ id ∈ info.pendingSegments, ∀ f, f ∉ info.fieldIds → mintedTexts dir id f = []
  fields : ∀ g f, f ∉ info.fieldIds → generationTexts dir g f = []
  numbers : ∀ g ∈ info.generations, g < info.nextGeneration

/-- Where the fold under way stands to the live meta `info`. -/
def FoldKeeps (dir : Directory τ) (info : SfxDictionaryMeta) : FoldTask → Prop
  | .idle => True
  | .started => True
  | .snapshot taken =>
    taken.generations = info.generations ∧ taken.nextGeneration = info.nextGeneration ∧
      (∀ id ∈ taken.pendingSegments, id ∈ info.pendingSegments) ∧
      (∀ f ∈ taken.fieldIds, f ∈ info.fieldIds) ∧ Covers dir taken
  | .written taken generations next =>
    (∀ id ∈ taken.pendingSegments, id ∈ info.pendingSegments ∧
      ∀ f x, x ∈ mintedTexts dir id f → InGenerations dir generations f x) ∧
      (∀ f x, InGenerations dir info.generations f x → InGenerations dir generations f x) ∧
      (∀ g ∈ generations, g < next ∧ (g ∈ info.generations ∨ info.nextGeneration ≤ g)) ∧
      info.nextGeneration ≤ next

/-- Parts with fewer texts. -/
theorem Covers.mono {dir dir' : Directory τ} {info : SfxDictionaryMeta} (h : Covers dir info)
    (hpair : ∀ id ∈ info.pendingSegments, ∀ f, mintedTexts dir' id f ⊆ mintedTexts dir id f)
    (hgen : ∀ g f, f ∉ info.fieldIds → generationTexts dir' g f ⊆ generationTexts dir g f) :
    Covers dir' info where
  pairs id hid f hf := eq_nil_of_subset_nil (h.pairs id hid f hf ▸ hpair id hid f)
  fields g f hf := eq_nil_of_subset_nil (h.fields g f hf ▸ hgen g f hf)
  numbers := h.numbers

/-- The fold's part of the invariant, when the live meta gains pairs and fields and files go that
it does not speak of. -/
theorem FoldKeeps.mono {dir dir' : Directory τ} {info info' : SfxDictionaryMeta} {task : FoldTask}
    (h : FoldKeeps dir info task) (hgens : info'.generations = info.generations)
    (hnext : info'.nextGeneration = info.nextGeneration)
    (hpending : info.pendingSegments ⊆ info'.pendingSegments)
    (hfields : info.fieldIds ⊆ info'.fieldIds)
    (hpair : ∀ id ∈ info.pendingSegments, ∀ f, mintedTexts dir' id f ⊆ mintedTexts dir id f)
    (hgen : ∀ g f, generationTexts dir' g f ⊆ generationTexts dir g f)
    (hkept : ∀ g, g ∈ info.generations ∨ info.nextGeneration ≤ g → ∀ f,
      generationTexts dir' g f = generationTexts dir g f) : FoldKeeps dir' info' task := by
  cases task with
  | snapshot taken =>
    obtain ⟨h₁, h₂, h₃, h₄, h₅⟩ := h
    exact ⟨h₁.trans hgens.symm, h₂.trans hnext.symm, fun id hid => hpending (h₃ id hid),
      fun f hf => hfields (h₄ f hf),
      h₅.mono (fun id hid => hpair id (h₃ id hid)) fun g f _ => hgen g f⟩
  | written taken gs next =>
    obtain ⟨h₁, h₂, h₃, h₄⟩ := h
    have hin : ∀ f x, InGenerations dir gs f x → InGenerations dir' gs f x := by
      rintro f x ⟨g, hg, hx⟩
      exact ⟨g, hg, by rwa [hkept g (h₃ g hg).2]⟩
    rw [FoldKeeps, hgens, hnext]
    refine ⟨fun id hid => ⟨hpending (h₁ id hid).1, fun f x hx => ?_⟩, fun f x hx => ?_, h₃, h₄⟩
    · exact hin f x ((h₁ id hid).2 f x (hpair id (h₁ id hid).1 f hx))
    · obtain ⟨g, hg, hxg⟩ := hx
      exact hin f x (h₂ f x ⟨g, hg, hgen g f hxg⟩)
  | _ => trivial

/-- **The live dictionary `d`, the meta `w` on disk, the files and the fold.** -/
structure PartsKept (s : SegmentUpdaterState τ) (d : SfxDictionary τ) (w : SfxDictionaryMeta) :
    Prop where
  /-- `d` is live. -/
  live : s.dictionary = some d
  /-- `w` is on disk. -/
  disk : namedParts s.metaJson = w
  active : s.activeIndexMeta = s.metaJson
  /-- `d` lists the fields of its parts. -/
  covers : Covers s.directory d.info
  /-- No fold will write over a generation the disk names. -/
  diskNumbers : ∀ g ∈ w.generations, g < d.info.nextGeneration
  /-- What `d` has read is named. -/
  opened : ∀ f, ∀ part ∈ d.fields f, ∀ x ∈ part, Named s.directory d.info (f, x)
  fold : FoldKeeps s.directory d.info s.fold
  /-- An uncommitted segment minted only in fields it lists. -/
  ownFields : ∀ e ∈ s.registers.uncommitted.entries, ∀ f, mintedTexts s.directory e.id f ≠ [] →
    f ∈ e.info.sfxFieldIds
  /-- A segment in both registers has no pair. -/
  disjoint : ∀ id ∈ s.registers.uncommitted.ids, id ∈ s.registers.committed.ids →
    ∀ f, mintedTexts s.directory id f = []

/-- **What a dictionary operation may do**: no named text is lost, live or on disk; the pairs
of uncommitted segments stay; nothing new is pending; the registers stay, up to empty
segments. -/
structure Grows (s t : SegmentUpdaterState τ) : Prop where
  /-- No text leaves the live parts. -/
  live : ∀ r, LiveNamed s r → LiveNamed t r
  /-- No text leaves the parts on disk. -/
  disk : ∀ r, DiskNamed s r → DiskNamed t r
  /-- Uncommitted pairs stay. -/
  pairs : ∀ id ∈ s.registers.uncommitted.ids, ∀ f,
    mintedTexts t.directory id f = mintedTexts s.directory id f
  files : ∀ id f x, x ∈ mintedTexts t.directory id f → x ∈ mintedTexts s.directory id f
  table : ∀ p ∈ t.dictionaryShared.pending, p ∈ s.dictionaryShared.pending
  /-- A pair is named only for an uncommitted segment. -/
  named : ∀ id ∈ livePairs t, id ∈ livePairs s ∨ id ∈ s.registers.uncommitted.ids
  registers : QuietRegisters s t
  books : bookkeeping t = bookkeeping s

/-- The fold's state names nothing. -/
theorem grows_with_fold (s : SegmentUpdaterState τ) (task : FoldTask) :
    Grows s { s with fold := task } :=
  ⟨fun _ h => h, fun _ h => h, fun _ _ _ => rfl, fun _ _ _ h => h, fun _ h => h,
    fun _ h => .inl h, quietRegisters_of_eq rfl, rfl⟩

theorem grows_refl (s : SegmentUpdaterState τ) : Grows s s := grows_with_fold s s.fold

/-- One after the other. -/
theorem grows_trans (s t u : SegmentUpdaterState τ) (h₁ : Grows s t) (h₂ : Grows t u) :
    Grows s u where
  live r h := h₂.live r (h₁.live r h)
  disk r h := h₂.disk r (h₁.disk r h)
  pairs id hid f := by
    rw [h₂.pairs id (by rwa [h₁.registers.1]) f, h₁.pairs id hid f]
  files id f x h := h₁.files id f x (h₂.files id f x h)
  table p h := h₁.table p (h₂.table p h)
  named id h := by
    rcases h₂.named id h with h | h
    · exact h₁.named id h
    · rw [h₁.registers.1] at h
      exact .inr h
  registers := quietRegisters_trans s t u h₁.registers h₂.registers
  books := h₂.books.trans h₁.books

/-- The parts are kept and no text is lost. -/
def Carries (w : SfxDictionaryMeta) (s t : SegmentUpdaterState τ) : Prop :=
  (∃ d, PartsKept t d w) ∧ Grows s t

/-! ## The fold -/

section Fold

variable {s t u : SegmentUpdaterState τ} {d : SfxDictionary τ} {w : SfxDictionaryMeta} {io : Io}

theorem PartsKept.carries (h : PartsKept s d w) : Carries w s s := ⟨⟨d, h⟩, grows_refl s⟩

/-- One after the other. -/
theorem Carries.trans (h : Carries w s t) (hnext : ∀ d, PartsKept t d w → Carries w t u) :
    Carries w s u := by
  obtain ⟨⟨d, hd⟩, hgrows⟩ := h
  obtain ⟨hkept, hmore⟩ := hnext d hd
  exact ⟨hkept, grows_trans _ _ _ hgrows hmore⟩

/-- A step that changes nothing but the fold. -/
theorem PartsKept.with_fold (h : PartsKept s d w) {task : FoldTask}
    (htask : FoldKeeps s.directory d.info task) : Carries w s { s with fold := task } :=
  ⟨⟨d, { h with fold := htask }⟩, grows_with_fold s task⟩

variable {r : FoldResult τ} {taken : SfxDictionaryMeta}

/-- The texts a fold's generations hold, for the fold's part of the invariant. -/
theorem foldKeeps_written (htaken : FoldKeeps s.directory d.info (.snapshot taken))
    (hopen : OpensParts io) (hwrite : foldWrite io taken s.directory = some r) :
    FoldKeeps r.directory d.info (.written taken r.generations r.nextGeneration) := by
  obtain ⟨hgens, hnext, hpending, -, hcovers⟩ := htaken
  have hminted : r.directory.minted = s.directory.minted := foldWrite_minted hwrite
  refine ⟨fun id hid => ⟨hpending id hid, fun f x hx => ?_⟩, fun f x hx => ?_, fun g hg => ?_, ?_⟩
  · rw [mintedTexts, hminted] at hx
    have hf : f ∈ taken.fieldIds := by
      by_contra hf
      rw [← mintedTexts, hcovers.pairs id hid f hf] at hx
      cases hx
    exact foldWrite_holds_pairs hwrite hopen hcovers.numbers hf hid hx
  · obtain ⟨g, hg, hxg⟩ := hx
    rw [← hgens] at hg
    rw [foldWrite_old_generation hwrite (hcovers.numbers g hg)] at hxg
    have hf : f ∈ taken.fieldIds := by
      by_contra hf
      rw [hcovers.fields g f hf] at hxg
      cases hxg
    exact foldWrite_keeps_generations hwrite hopen hcovers.numbers hf ⟨g, hg, hxg⟩
  · refine ⟨foldWrite_generations_lt hwrite hcovers.numbers g hg, ?_⟩
    rw [← hgens, ← hnext]
    exact ((foldWrite_numbers hwrite).1 g hg).imp_right And.left
  · rw [← hnext]
    exact (foldWrite_numbers hwrite).2

/-- A fold writes only in fields that are listed. -/
theorem Covers.foldWrite (h : Covers s.directory d.info)
    (htaken : FoldKeeps s.directory d.info (.snapshot taken))
    (hwrite : foldWrite io taken s.directory = some r) : Covers r.directory d.info := by
  refine h.mono (fun id _ f => ?_) fun g f hf => ?_
  · rw [mintedTexts, foldWrite_minted hwrite]
    exact Subset.refl _
  · rw [generationTexts, foldWrite_other_fields hwrite fun hin => hf (htaken.2.2.2.1 f hin)]
    exact Subset.refl _

/-- The fold writes its files: no file that is named changes. -/
theorem foldWrite_kept (h : PartsKept s d w)
    (htaken : FoldKeeps s.directory d.info (.snapshot taken))
    (hwrite : foldWrite io taken s.directory = some r) {task : FoldTask}
    (htask : FoldKeeps r.directory d.info task) :
    PartsKept { s with directory := r.directory, fold := task } d w ∧
      Grows s { s with directory := r.directory, fold := task } := by
  have hminted : ∀ id f, mintedTexts r.directory id f = mintedTexts s.directory id f :=
    fun id f => by rw [mintedTexts, foldWrite_minted hwrite]; rfl
  have hold : ∀ g, g < d.info.nextGeneration → ∀ f,
      generationTexts r.directory g f = generationTexts s.directory g f :=
    fun g hg f => foldWrite_old_generation hwrite (by rw [htaken.2.1]; exact hg) f
  have hlive : ∀ x, Named s.directory d.info x → Named r.directory d.info x := fun x hx =>
    hx.of_files (fun g hg f => hold g (h.covers.numbers g hg) f) fun id _ f => hminted id f
  constructor
  · refine ⟨h.live, h.disk, h.active, h.covers.foldWrite htaken hwrite, h.diskNumbers, ?_,
      htask, ?_, ?_⟩
    · exact fun f part hpart x hx => hlive _ (h.opened f part hpart x hx)
    · intro e he f hne
      rw [hminted] at hne
      exact h.ownFields e he f hne
    · intro id hunc hcom f
      rw [hminted]
      exact h.disjoint id hunc hcom f
  · refine ⟨?_, ?_, fun id _ f => hminted id f, fun id f x hx => ?_, fun _ hp => hp,
      fun _ hid => .inl hid, quietRegisters_of_eq rfl, rfl⟩
    · exact fun x hx => ⟨d, h.live, hlive x ((liveNamed_iff h.live x).mp hx)⟩
    · intro x hx
      rw [diskNamed_iff h.disk] at hx
      refine (diskNamed_iff (s := { s with directory := r.directory, fold := task }) h.disk x).mpr
        ?_
      exact hx.of_files (fun g hg f => hold g (h.diskNumbers g hg) f) fun id _ f => hminted id f
    · rwa [hminted] at hx

/-- The swap: the snapshot's pairs leave, the generations that hold their texts enter. -/
theorem foldSwap_kept (h : PartsKept s d w) {gs : List Nat} {next : Nat}
    (htask : FoldKeeps s.directory d.info (.written taken gs next))
    (hfold : s.fold = .idle ∨ s.fold = .started) : Carries w s (foldSwap taken gs next s) := by
  obtain ⟨hpairs, hkeep, hnumbers, hnext⟩ := htask
  rw [foldSwap, h.live]
  set swapped : SfxDictionaryMeta :=
    { d.info with
      nextIds := s.dictionaryShared.nextIds
      generations := gs
      nextGeneration := next
      pendingSegments := d.info.pendingSegments.filter (· ∉ taken.pendingSegments) }
  have hsub : ∀ id ∈ swapped.pendingSegments, id ∈ d.info.pendingSegments :=
    fun id hid => mem_of_mem_filter hid
  have hlive : ∀ x, Named s.directory d.info x → Named s.directory swapped x := by
    rintro x ⟨hf, hx⟩
    refine ⟨hf, ?_⟩
    rcases hx with hx | ⟨id, hid, hx⟩
    · exact .inl (hkeep _ _ hx)
    · by_cases hin : id ∈ taken.pendingSegments
      · exact .inl ((hpairs id hin).2 _ _ hx)
      · exact .inr ⟨id, mem_filter.mpr ⟨hid, by simpa using hin⟩, hx⟩
  refine ⟨⟨.openParts s.directory swapped, rfl, h.disk, h.active, ⟨?_, h.covers.fields, ?_⟩, ?_,
    ?_, ?_, h.ownFields, h.disjoint⟩, ⟨?_, fun _ => id, fun _ _ _ => rfl, fun _ _ _ => id,
    fun _ => id, fun id hid => ?_, quietRegisters_of_eq rfl, rfl⟩⟩
  · exact fun id hid f hf => h.covers.pairs id (hsub id hid) f hf
  · exact fun g hg => (hnumbers g hg).1
  · exact fun g hg => (h.diskNumbers g hg).trans_le hnext
  · exact fun f part hpart x hx => named_of_openParts hpart hx
  · rcases hfold with hfold | hfold <;> exact hfold ▸ trivial
  · exact fun x hx => ⟨_, rfl, hlive x ((liveNamed_iff h.live x).mp hx)⟩
  · rw [livePairs_eq h.live]
    exact .inl (hsub id hid)

/-- **One step of the fold** keeps the parts and loses no text. -/
theorem foldStep_kept (h : PartsKept s d w) (hopen : OpensParts io) :
    Carries w s (foldStep io s) := by
  cases hfold : s.fold with
  | idle =>
    rw [foldStep_of_idle hfold]
    exact h.carries
  | started =>
    rw [foldStep_of_started hfold, foldSnapshot_eq h.live]
    by_cases hnone : d.info.pendingSegments = []
    · rw [if_pos hnone]
      exact h.with_fold trivial
    · rw [if_neg hnone]
      exact h.with_fold ⟨rfl, rfl, fun _ => id, fun _ => id, h.covers⟩
  | snapshot taken =>
    have htask : FoldKeeps s.directory d.info (.snapshot taken) := hfold ▸ h.fold
    rw [foldStep_of_snapshot hfold]
    cases hwrite : foldWrite io taken s.directory with
    | none => exact h.with_fold trivial
    | some r =>
      obtain ⟨hkept, hgrows⟩ := foldWrite_kept h htask hwrite (foldKeeps_written htask hopen hwrite)
      exact ⟨⟨d, hkept⟩, hgrows⟩
  | written taken gs next =>
    have htask : FoldKeeps s.directory d.info (.written taken gs next) := hfold ▸ h.fold
    rw [foldStep_of_written hfold]
    have hstarted : PartsKept { s with fold := .started } d w := { h with fold := trivial }
    exact Carries.trans ⟨⟨d, hstarted⟩, grows_with_fold s .started⟩ fun _ _ =>
      foldSwap_kept hstarted htask (.inr rfl)

/-- A swap that takes every pair out leaves none to fold. -/
theorem foldSnapshot_foldSwap (hd : s.dictionary = some d) (gs : List Nat) (next : Nat) :
    foldSnapshot (foldSwap d.info gs next s) = none := by
  rw [foldSwap, hd]
  refine (foldSnapshot_eq rfl).trans (if_pos ?_)
  simp [SfxDictionary.openParts]

/-- No fold under way stays so. -/
theorem iterate_foldStep_idle (hfold : s.fold = .idle) (n : Nat) :
    ((foldStep io)^[n] s).fold = .idle := by
  induction n with
  | zero => exact hfold
  | succ n ih => rw [iterate_succ_apply', foldStep_of_idle ih, ih]

theorem fold_foldSwap (taken : SfxDictionaryMeta) (gs : List Nat) (next : Nat)
    (s : SegmentUpdaterState τ) : (foldSwap taken gs next s).fold = s.fold := by
  rw [foldSwap]
  cases s.dictionary <;> rfl

/-- A fold that has just begun ends within four steps: its first round takes every pair. -/
theorem iterate_foldStep_started (hfold : s.fold = .started) :
    ((foldStep io)^[4] s).fold = .idle := by
  rw [iterate_succ_apply, foldStep_of_started hfold]
  cases htake : foldSnapshot s with
  | none => exact iterate_foldStep_idle rfl 3
  | some taken =>
    obtain ⟨d, hd, rfl⟩ : ∃ d, s.dictionary = some d ∧ d.info = taken := by
      cases hd : s.dictionary with
      | none => simp [foldSnapshot, hd] at htake
      | some d =>
        rw [foldSnapshot_eq hd] at htake
        exact ⟨d, rfl, Option.some.inj (Option.ite_none_left_eq_some.mp htake).2⟩
    rw [Option.elim_some, iterate_succ_apply, foldStep_of_snapshot rfl]
    cases foldWrite io d.info s.directory with
    | none => exact iterate_foldStep_idle rfl 2
    | some r =>
      have hnone : ∀ u : SegmentUpdaterState τ, u.dictionary = some d →
          foldSnapshot (foldSwap d.info r.generations r.nextGeneration u) = none :=
        fun u hu => foldSnapshot_foldSwap hu _ _
      rw [iterate_succ_apply, foldStep_of_written rfl,
        iterate_one, foldStep_of_started (fold_foldSwap _ _ _ _), hnone]
      · rfl
      · exact hd

/-- Waiting for the fold leaves none running. -/
theorem foldWait_idle (s : SegmentUpdaterState τ) : (foldWait io s).fold = .idle := by
  have hstarted : ∀ (n : Nat) (u : SegmentUpdaterState τ), u.fold = .started →
      ((foldStep io)^[n + 4] u).fold = .idle := by
    intro n u hu
    exact iterate_foldStep_idle (iterate_foldStep_started hu) n
  unfold foldWait
  cases hfold : s.fold with
  | idle => exact iterate_foldStep_idle hfold 7
  | started => exact hstarted 3 s hfold
  | snapshot taken =>
    rw [iterate_succ_apply, foldStep_of_snapshot hfold]
    cases foldWrite io taken s.directory with
    | none => exact iterate_foldStep_idle rfl 6
    | some r => exact hstarted 1 _ (fold_foldSwap _ _ _ _)
  | written taken gs next =>
    rw [iterate_succ_apply, foldStep_of_written hfold]
    exact hstarted 2 _ (fold_foldSwap _ _ _ _)

/-- Folding inside the commit, with no other fold running. -/
theorem foldOnce_kept (h : PartsKept s d w) (hopen : OpensParts io) (hidle : s.fold = .idle) :
    Carries w s (finalState (foldOnce io) s) := by
  rw [finalState, foldOnce, run_get_bind, foldSnapshot_eq h.live]
  by_cases hnone : d.info.pendingSegments = []
  · rw [if_pos hnone]
    exact h.carries
  · rw [if_neg hnone]
    dsimp only
    cases hwrite : foldWrite io d.info s.directory with
    | none => exact h.carries
    | some r =>
      have htaken : FoldKeeps s.directory d.info (.snapshot d.info) :=
        ⟨rfl, rfl, fun _ => id, fun _ => id, h.covers⟩
      obtain ⟨hkept, hgrows⟩ := foldWrite_kept h htaken hwrite
        (show FoldKeeps r.directory d.info s.fold from hidle ▸ trivial)
      obtain ⟨hswapped, hmore⟩ := foldSwap_kept hkept (foldKeeps_written htaken hopen hwrite)
        (.inl hidle)
      exact ⟨hswapped, grows_trans _ _ _ hgrows hmore⟩

/-- A fold starts. -/
theorem foldStart_kept (h : PartsKept s d w) : Carries w s (foldStart s) := by
  unfold foldStart
  split
  · exact h.with_fold trivial
  · exact h.carries

/-- **Folding in the commit, or starting the background fold.** -/
theorem foldOrStart_kept (h : PartsKept s d w) (hopen : OpensParts io) :
    Carries w s (finalState (foldOrStart io) s) := by
  have hiter : ∀ n, Carries w s ((foldStep io)^[n] s) := by
    intro n
    induction n with
    | zero => exact h.carries
    | succ n ih =>
      rw [iterate_succ_apply']
      exact ih.trans fun _ hd => foldStep_kept hd hopen
  have hmodify : (modify (foldWait io) : Handler τ PUnit).run s = .ok ⟨⟩ (foldWait io s) := rfl
  rw [finalState, foldOrStart, run_get_bind]
  by_cases hmany : tooManyPending io s = true
  · rw [if_pos hmany, run_bind_of_ok hmodify, run_get_bind]
    by_cases hstill : tooManyPending io (foldWait io s) = true
    · rw [if_pos hstill]
      exact (hiter 7).trans fun _ hd => foldOnce_kept hd hopen (foldWait_idle s)
    · rw [if_neg hstill]
      exact hiter 7
  · rw [if_neg hmany]
    exact foldStart_kept h

end Fold

/-! ## Naming the pairs -/

section Names

variable {s : SegmentUpdaterState τ} {d : SfxDictionary τ} {w : SfxDictionaryMeta} {io : Io}

/-- Dropping empty committed segments. -/
theorem removeEmpty_kept (h : PartsKept s d w) :
    PartsKept { s with registers := s.registers.removeEmptySegments } d w :=
  { h with disjoint := fun id hunc hcom =>
      h.disjoint id hunc (SegmentRegisters.mem_ids_removeEmptySegments hcom) }

/-- Dropping empty segments. -/
theorem removeEmpty_grows (s : SegmentUpdaterState τ) :
    Grows s { s with registers := s.registers.removeEmptySegments } :=
  ⟨fun _ hx => hx, fun _ hx => hx, fun _ _ _ => rfl, fun _ _ _ hx => hx, fun _ hp => hp,
    fun _ hid => .inl hid, committedSegmentMetas_quiet s, rfl⟩

/-- The meta a commit leaves in the live dictionary when it names `pairs`. -/
def namedMeta (d : SfxDictionary τ) (io : Io) (s : SegmentUpdaterState τ)
    (pairs : List SegmentMeta) : SfxDictionaryMeta :=
  { d.info with
    nextIds := s.dictionaryShared.nextIds
    fieldIds := addFields d.info.fieldIds (pairs.flatMap (mintedFields io s.directory))
    pendingSegments := d.info.pendingSegments ++ pairs.map SegmentMeta.id }

/-- The fields of the new pairs are listed with them. -/
theorem Covers.namedMeta {registers : SegmentRegisters} (h : Covers s.directory d.info)
    (hown : ∀ e ∈ registers.uncommitted.entries, ∀ f, mintedTexts s.directory e.id f ≠ [] →
      f ∈ e.info.sfxFieldIds) :
    Covers s.directory (namedMeta d io s (newPairs io s.directory registers)) where
  pairs id hid f hf := by
    have hf' := mt mem_addFields.mpr hf
    rw [not_or] at hf'
    rcases mem_append.mp hid with hid | hid
    · exact h.pairs id hid f hf'.1
    · obtain ⟨e, he, rfl, hfields⟩ := mem_newPairs_ids hid
      by_contra hne
      exact hf'.2 (hfields f (hown e he f hne) hne)
  fields g f hf := h.fields g f fun hin => hf (mem_addFields.mpr (.inl hin))
  numbers := h.numbers

/-- Naming the new pairs keeps the parts and loses no text. -/
theorem nameNewPairs_kept (h : PartsKept s d w) (io : Io) :
    let pairs := newPairs io s.directory s.registers
    let t := nameNewPairs (pairs.map SegmentMeta.id) (pairs.flatMap (mintedFields io s.directory)) s
    PartsKept t (.openParts s.directory (namedMeta d io s pairs)) w ∧ Grows s t := by
  intro pairs t
  have ht : t = { s with
      dictionary := some (.openParts s.directory (namedMeta d io s pairs))
      dictionaryShared := s.dictionaryShared.forgetCommittedPending } := by
    change nameNewPairs _ _ s = _
    rw [nameNewPairs, h.live]
    rfl
  rw [ht]
  have hold : d.info.fieldIds ⊆ (namedMeta d io s pairs).fieldIds :=
    fun f hf => mem_addFields.mpr (.inl hf)
  have hlive : ∀ r, Named s.directory d.info r → Named s.directory (namedMeta d io s pairs) r := by
    rintro r ⟨hf, hr⟩
    refine ⟨hold hf, hr.imp_right ?_⟩
    rintro ⟨id, hid, hx⟩
    exact ⟨id, mem_append_left _ hid, hx⟩
  constructor
  · refine { h with
      live := rfl
      covers := h.covers.namedMeta h.ownFields
      opened := fun f part hpart x hx => named_of_openParts hpart hx
      fold := ?_ }
    exact h.fold.mono rfl rfl (subset_append_left _ _) hold (fun _ _ _ => Subset.refl _)
      (fun _ _ => Subset.refl _) fun _ _ _ => rfl
  · refine ⟨?_, fun _ hx => hx, fun _ _ _ => rfl, fun _ _ _ hx => hx,
      fun p hp => DictionaryShared.mem_of_mem_forgetCommittedPending hp, fun id hid => ?_,
      quietRegisters_of_eq rfl, rfl⟩
    · exact fun r hr => ⟨_, rfl, hlive r ((liveNamed_iff h.live r).mp hr)⟩
    · rw [livePairs_eq h.live]
      rcases mem_append.mp hid with hid | hid
      · exact .inl hid
      · obtain ⟨e, he, rfl, -⟩ := mem_newPairs_ids hid
        exact .inr (SegmentRegister.mem_ids.mpr ⟨e, he, rfl⟩)

/-- The texts of the uncommitted segments are named. -/
def UncommittedNamed (s : SegmentUpdaterState τ) : Prop :=
  ∀ id ∈ s.registers.uncommitted.ids, ∀ f, ∀ x ∈ mintedTexts s.directory id f, LiveNamed s (f, x)

/-- A segment with a text is among the pairs to be named, if pairs open. -/
theorem mem_newPairs_of_minted (h : PartsKept s d w) (hopen : OpensParts io) {e : SegmentEntry}
    (he : e ∈ s.registers.uncommitted.entries) {f : FieldId} {x : GlobalId × τ}
    (hx : x ∈ mintedTexts s.directory e.id f) :
    e.info ∈ newPairs io s.directory s.registers ∧ f ∈ mintedFields io s.directory e.info := by
  have hne : mintedTexts s.directory e.id f ≠ [] := ne_nil_of_mem hx
  have hf : f ∈ mintedFields io s.directory e.info := by
    refine mem_filter.mpr ⟨h.ownFields e he f hne, decide_eq_true ⟨hopen.1 _, ?_⟩⟩
    exact fun hlen => hne (length_eq_zero_iff.mp hlen)
  have hcom : e.info.id ∉ s.registers.committed.ids := by
    intro hcom
    have hunc : e.id ∈ s.registers.uncommitted.ids := SegmentRegister.mem_ids.mpr ⟨e, he, rfl⟩
    exact hne (h.disjoint e.id hunc hcom f)
  refine ⟨mem_filter.mpr ⟨?_, decide_eq_true ⟨hcom, ne_nil_of_mem hf⟩⟩, hf⟩
  exact mem_map.mpr ⟨e, mem_append_left _ he, rfl⟩

/-- **Naming the pairs**: on success every text of an uncommitted segment is named. -/
theorem namePairs_kept (h : PartsKept s d w) (hopen : OpensParts io) :
    (∃ d', PartsKept (finalState (namePairs io) s) d' w) ∧ Grows s (finalState (namePairs io) s) ∧
      ∀ b t, (namePairs io).run s = .ok b t → UncommittedNamed t := by
  have hr := removeEmpty_kept h
  have hg := removeEmpty_grows s
  rw [finalState, namePairs_run]
  set r := s.registers.removeEmptySegments
  by_cases hbad : newPairUnreadable io s.directory r = true
  · rw [if_pos hbad]
    exact ⟨⟨d, hr⟩, hg, fun b t hrun => by cases hrun⟩
  rw [if_neg hbad]
  have hminted : ∀ id ∈ r.uncommitted.ids, ∀ f, ∀ x ∈ mintedTexts s.directory id f,
      ∃ m ∈ newPairs io s.directory r, m.id = id ∧ f ∈ mintedFields io s.directory m := by
    intro id hid f x hx
    obtain ⟨e, he, rfl⟩ := SegmentRegister.mem_ids.mp hid
    obtain ⟨hm, hf⟩ := mem_newPairs_of_minted hr hopen he hx
    exact ⟨_, hm, rfl, hf⟩
  by_cases hnone : newPairs io s.directory r = []
  · rw [if_pos hnone]
    refine ⟨⟨d, hr⟩, hg, fun b t hrun => ?_⟩
    cases hrun
    intro id hid f x hx
    obtain ⟨m, hm, -⟩ := hminted id hid f x hx
    rw [hnone] at hm
    cases hm
  · rw [if_neg hnone]
    obtain ⟨hkept, hgrows⟩ := nameNewPairs_kept hr io
    refine ⟨⟨_, hkept⟩, grows_trans _ _ _ hg hgrows, fun b t hrun => ?_⟩
    cases hrun
    intro id hid f x hx
    have hid' : id ∈ r.uncommitted.ids := by rwa [hgrows.registers.1] at hid
    obtain ⟨m, hm, rfl, hf⟩ := hminted id hid' f x (hgrows.files _ f x hx)
    refine ⟨_, hkept.live, ?_, .inr ⟨m.id, ?_, hx⟩⟩
    · exact mem_addFields.mpr (.inr (mem_flatMap.mpr ⟨m, hm, hf⟩))
    · exact mem_append_right _ (mem_map.mpr ⟨m, hm, rfl⟩)

end Names

/-! ## Writing `meta.json` and deleting files -/

section Files

variable {s : SegmentUpdaterState τ} {d : SfxDictionary τ} {w : SfxDictionaryMeta} {io : Io}

variable {t : SegmentUpdaterState τ}

/-- The live parts are exactly those `meta.json` names. -/
def Synced (s : SegmentUpdaterState τ) : Prop :=
  ∃ d w, s.dictionary = some d ∧ s.metaJson.sfxDictionary = some w ∧ d.sameParts w = true

/-- Generations and pairs are the same. -/
theorem sameParts_iff {info : SfxDictionaryMeta} :
    d.sameParts info = true ↔
      d.info.generations = info.generations ∧ d.info.pendingSegments = info.pendingSegments := by
  simp [SfxDictionary.sameParts]

/-- **`save_metas`**: what was live is now on disk. A failed write changes nothing. -/
theorem saveMetas_kept (h : PartsKept s d w) (io : Io) (opstamp : Opstamp) (payload : Option String)
    (hrun : (saveMetas io opstamp payload).run s = .ok () t) :
    PartsKept t d { d.info with nextIds := s.dictionaryShared.nextIds } ∧
      (∀ r, DiskNamed t r ↔ LiveNamed s r) ∧ Synced t ∧
      t = { s with
        registers := s.registers.removeEmptySegments
        metaJson := t.metaJson
        activeIndexMeta := t.metaJson } ∧
      (∀ id, id ∈ t.metaJson.segmentIds ↔ id ∈ s.registers.removeEmptySegments.committed.ids) := by
  rw [saveMetas_run] at hrun
  cases hok : io.saveOk with
  | false =>
    rw [hok] at hrun
    cases hrun
  | true =>
    rw [hok] at hrun
    cases hrun
    have hdisk : sfxDictionaryMeta s =
        some { d.info with nextIds := s.dictionaryShared.nextIds } := by
      rw [sfxDictionaryMeta, h.live]
      rfl
    have hr := removeEmpty_kept h
    have hparts : (sfxDictionaryMeta s).getD (SfxDictionary.empty : SfxDictionary Unit).info =
        { d.info with nextIds := s.dictionaryShared.nextIds } := by rw [hdisk]; rfl
    refine ⟨⟨h.live, hparts, rfl, h.covers, h.covers.numbers, h.opened, h.fold, h.ownFields,
      hr.disjoint⟩, fun r => ?_, ⟨d, _, h.live, hdisk, sameParts_iff.mpr ⟨rfl, rfl⟩⟩, rfl,
      fun id => mem_segmentIds_insertionSort⟩
    refine (diskNamed_iff (w := { d.info with nextIds := s.dictionaryShared.nextIds }) ?_ r).trans
      (liveNamed_iff h.live r).symm
    exact hparts

section

variable (h : PartsKept s d w)
include h

section

variable (hs : Synced s)
include hs

/-- Once the live parts are on disk, `meta.json` has a dictionary. -/
theorem PartsKept.onDisk : s.metaJson.sfxDictionary = some w := by
  obtain ⟨_, w', _, hw', _⟩ := hs
  rw [hw', ← h.disk, namedParts, hw', Option.getD_some]

/-- The parts on disk are the live ones. -/
theorem PartsKept.synced : d.sameParts w = true := by
  have hw := h.onDisk hs
  obtain ⟨d', w', hd', hw', hsame⟩ := hs
  rw [h.live] at hd'
  rw [hw] at hw'
  cases hd'
  cases hw'
  exact hsame

/-- **A step that at most deletes files** keeps the parts and loses no text, when the live parts are
on disk and their files, those of the fold under way and the uncommitted pairs stay. -/
theorem PartsKept.of_deletes (hlive : t.dictionary = s.dictionary)
    (hshared : t.dictionaryShared = s.dictionaryShared) (hfold : t.fold = s.fold)
    (hbooks : bookkeeping t = bookkeeping s) (hquiet : QuietRegisters s t)
    (hminted : ∀ id f, mintedTexts t.directory id f ⊆ mintedTexts s.directory id f)
    (hpairs : ∀ id, id ∈ d.info.pendingSegments ∨ id ∈ s.registers.uncommitted.ids → ∀ f,
      mintedTexts t.directory id f = mintedTexts s.directory id f)
    (hgen : ∀ g f, generationTexts t.directory g f ⊆ generationTexts s.directory g f)
    (hgens : ∀ g, g ∈ d.info.generations ∨ d.info.nextGeneration ≤ g → ∀ f,
      generationTexts t.directory g f = generationTexts s.directory g f) :
    PartsKept t d w ∧ Grows s t := by
  obtain ⟨hsameGens, hsamePairs⟩ := sameParts_iff.mp (h.synced hs)
  have hjson : t.metaJson = s.metaJson := congrArg Prod.fst hbooks
  have hactive : t.activeIndexMeta = s.activeIndexMeta := congrArg (fun b => b.2.1) hbooks
  have hdisk : namedParts t.metaJson = w := by rw [hjson]; exact h.disk
  have hnil : ∀ {id f}, mintedTexts s.directory id f = [] → mintedTexts t.directory id f = [] :=
    fun hn => eq_nil_of_subset_nil (hn ▸ hminted _ _)
  have hnamed : ∀ {r}, Named s.directory d.info r → Named t.directory d.info r := fun hr =>
    hr.of_files (fun g hg => hgens g (.inl hg)) fun id hid => hpairs id (.inl hid)
  constructor
  · refine ⟨hlive.trans h.live, hdisk, by rw [hjson, hactive]; exact h.active, ?_, h.diskNumbers,
      fun f part hpart x hx => hnamed (h.opened f part hpart x hx), ?_, ?_, ?_⟩
    · exact h.covers.mono (fun id _ f => hminted id f) fun g f _ => hgen g f
    · rw [hfold]
      exact h.fold.mono rfl rfl (Subset.refl _) (Subset.refl _) (fun id _ => hminted id) hgen hgens
    · intro e he f hne
      rw [hquiet.1] at he
      exact h.ownFields e he f (mt hnil hne)
    · intro id hunc hcom f
      rw [hquiet.1] at hunc
      exact hnil (h.disjoint id hunc (hquiet.2 id hcom) f)
  · refine ⟨?_, ?_, fun id hid => hpairs id (.inr hid), fun id f x hx => hminted id f hx,
      fun p hp => by rwa [hshared] at hp, fun id hid => .inl ?_, hquiet, hbooks⟩
    · exact fun r hr => ⟨d, hlive.trans h.live, hnamed ((liveNamed_iff h.live r).mp hr)⟩
    · refine fun r hr => (diskNamed_iff hdisk r).mpr
        (((diskNamed_iff h.disk r).mp hr).of_files (fun g hg => ?_) fun id hid => ?_)
      · exact hgens g (.inl (hsameGens ▸ hg))
      · exact hpairs id (.inl (hsamePairs ▸ hid))
    · rw [livePairs, hlive] at hid
      exact hid

omit h hs in
theorem getD_ite_subset {β : Type} {p : Prop} [Decidable p] (file : Option (List β)) :
    (if p then file else none).getD [] ⊆ file.getD [] := by
  split <;> simp

/-- What a collection with the live parts on disk keeps: their files, those of uncommitted
segments, and every generation newer than the live ones. -/
theorem collect_kept (io : Io) :
    PartsKept (collectGarbage io s) d w ∧ Grows s (collectGarbage io s) := by
  obtain ⟨hsameGens, hsamePairs⟩ := sameParts_iff.mp (h.synced hs)
  have hminted : ∀ id f, mintedTexts (liveFiles io s) id f ⊆ mintedTexts s.directory id f :=
    fun _ _ => getD_ite_subset _
  have hgen : ∀ g f, generationTexts (liveFiles io s) g f ⊆ generationTexts s.directory g f :=
    fun _ _ => getD_ite_subset _
  have hpairs : ∀ id, id ∈ d.info.pendingSegments ∨ id ∈ s.registers.uncommitted.ids → ∀ f,
      mintedTexts (liveFiles io s) id f = mintedTexts s.directory id f := by
    intro id hid f
    refine congrArg (Option.getD · []) (if_pos ?_)
    rw [h.onDisk hs, Option.any_some, ← hsamePairs]
    rcases hid with hid | hid
    · simp [hid]
    · simp [inventory, hid]
  have hgens : ∀ g, g ∈ d.info.generations ∨ d.info.nextGeneration ≤ g → ∀ f,
      generationTexts (liveFiles io s) g f = generationTexts s.directory g f := by
    intro g hg f
    refine congrArg (Option.getD · []) (if_pos ?_)
    rw [h.onDisk hs, Option.all_some, ← hsameGens]
    rcases hg with hg | hg
    · simp [hg]
    · -- newer than every live generation, so newer than every one on disk
      have hall : d.info.generations.all (· < g) = true := by
        rw [all_eq_true]
        exact fun g' hg' => decide_eq_true ((h.covers.numbers g' hg').trans_le hg)
      rw [hall]
      simp
  exact h.of_deletes hs rfl rfl rfl rfl (quietRegisters_of_eq rfl) hminted hpairs hgen hgens

/-- **`garbage_collect_files`**, with the live parts on disk. -/
theorem garbageCollectFiles_kept (io : Io) :
    PartsKept (finalState (garbageCollectFiles io) s) d w ∧
      Grows s (finalState (garbageCollectFiles io) s) := by
  have hrefresh : refreshSfxDictionary s.metaJson s = s :=
    refreshSfxDictionary_of_ahead h.live fun info hinfo => by
      rw [h.onDisk hs] at hinfo
      cases hinfo
      exact .inl (h.synced hs)
  have hcollect : PartsKept (collectGarbage io (refreshSfxDictionary s.metaJson s)) d w ∧
      Grows s (collectGarbage io (refreshSfxDictionary s.metaJson s)) := by
    rw [hrefresh]
    exact collect_kept h hs io
  unfold garbageCollectFiles
  cases io.gc with
  | lockFailed => exact ⟨h, grows_refl s⟩
  | done => exact hcollect
  | recordFailed => exact hcollect

/-- **`delete_consumed_pairs`**, with the live parts on disk. -/
theorem deleteConsumedPairs_kept (io : Io) :
    PartsKept (finalState (deleteConsumedPairs io) s) d w ∧
      Grows s (finalState (deleteConsumedPairs io) s) := by
  obtain ⟨-, hsamePairs⟩ := sameParts_iff.mp (h.synced hs)
  have hkept := deleteConsumedPairs_exceptMinted io s
  simp only [exceptMinted, Prod.mk.injEq] at hkept
  obtain ⟨hdict, hshared, hfold, hgen⟩ := hkept
  have hquiet := deleteConsumedPairs_quiet io s
  have hbooks := deleteConsumedPairs_bookkeeping io s
  have hminted id f : mintedTexts (finalState (deleteConsumedPairs io) s).directory id f ⊆
      mintedTexts s.directory id f := fun _ => deleteConsumedPairs_shrinks io s id f
  have hpairs : ∀ id, id ∈ d.info.pendingSegments ∨ id ∈ s.registers.uncommitted.ids → ∀ f,
      mintedTexts (finalState (deleteConsumedPairs io) s).directory id f =
        mintedTexts s.directory id f := by
    intro id hid f
    by_cases hcom : id ∈ s.registers.committed.ids
    · rcases hid with hid | hid
      · rw [mintedTexts, deleteConsumedPairs_minted io s (.inr ⟨w, ?_, hsamePairs ▸ hid⟩)]
        · rfl
        · rw [h.active]
          exact h.onDisk hs
      · -- in both registers: it has no pair to lose
        rw [h.disjoint id hid hcom f]
        exact eq_nil_of_subset_nil (h.disjoint id hid hcom f ▸ hminted id f)
    · rw [mintedTexts, deleteConsumedPairs_minted io s (.inl hcom)]
      rfl
  have hgens : ∀ g f, generationTexts (finalState (deleteConsumedPairs io) s).directory g f =
      generationTexts s.directory g f := by
    intro g f
    rw [generationTexts, hgen]
    rfl
  exact h.of_deletes hs hdict hshared hfold hbooks hquiet hminted hpairs
    (fun g f => by rw [hgens]; exact Subset.refl _) fun g _ => hgens g

end

end

end Files

/-! ## A new index -/

/-- **An index just created**: `save_new_metas` lists no segment and no dictionary, and the live
dictionary is empty. -/
def createdIndex : SegmentUpdaterState Unit where
  metaJson := ⟨[], 0, none, none⟩
  activeIndexMeta := ⟨[], 0, none, none⟩
  registers := .fromSegments []
  pendingMergeTasks := false
  merging := []
  inFlight := []
  dictionary := some .empty
  dictionaryShared := ⟨fun _ => 0, [], 1⟩
  directory := ⟨fun _ _ => none, fun _ _ => none⟩
  fold := .idle

/-- A segment of ten documents with one text field, 0. -/
def mintingSegment : SegmentEntry := .ofMeta (.new 7 10 [0])

end Lucivy.Indexer
