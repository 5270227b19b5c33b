import Lucivy.Indexer.HandlerFrames

/-! # What folds and commits do to the texts

`fold_once` reads the pairs of its snapshot, writes them as the next generation and may
compact small generations into one more. Provided it can open every file it reads, no text is
lost: what the snapshot's generations and pairs held, the generations it leaves hold.

* `generationTexts`, `mintedTexts` — the content of one file, empty when there is none.
* `InGenerations` — a text is in one of the given generations.
* `OpensParts` — every file the fold asks for opens.
* `foldWrite_keeps_generations`, `foldWrite_holds_pairs` — nothing is lost.
* `foldWrite_generations_lt`, `foldWrite_minted`, `foldWrite_old_generation`,
  `foldWrite_other_fields` — its frame.
* `namePairs_run`, `deleteConsumedPairs_minted` — the commit's two edits: which pairs it
  names, and which files it leaves. -/

namespace Lucivy.Indexer

open Lucivy.Foundation Lucivy.SuffixFst List Directory Function

variable {τ : Type}

/-- The texts of one generation for one field. -/
def generationTexts (dir : Directory τ) (g : Nat) (f : FieldId) : Texts τ :=
  (dir.generation g f).getD []

/-- The texts of one segment's minted pair for one field. -/
def mintedTexts (dir : Directory τ) (id : SegmentId) (f : FieldId) : Texts τ :=
  (dir.minted id f).getD []

/-- A pair just written, where a field without a text has no file. -/
theorem mintedTexts_writeMinted_self (dir : Directory τ) (id : SegmentId)
    (texts : FieldId → Texts τ) :
    mintedTexts (dir.writeMinted id fun f => if texts f = [] then none else some (texts f)) id =
      texts := by
  funext f
  by_cases hf : texts f = [] <;> simp [mintedTexts, Directory.writeMinted, hf]

theorem mintedTexts_writeMinted_of_ne (dir : Directory τ) {id id' : SegmentId} (h : id ≠ id')
    (texts : FieldId → Option (Texts τ)) :
    mintedTexts (dir.writeMinted id' texts) id = mintedTexts dir id := by
  funext f
  simp [mintedTexts, Directory.writeMinted, Function.update_of_ne h]

/-- The text is in one of the generations. -/
def InGenerations (dir : Directory τ) (generations : List Nat) (f : FieldId)
    (x : GlobalId × τ) : Prop :=
  ∃ g ∈ generations, x ∈ generationTexts dir g f

/-- Every dictionary file that is asked for can be opened. -/
def OpensParts (io : Io) : Prop :=
  (∀ id, io.readMinted id ≠ .unopened) ∧ ∀ g, io.readGeneration g ≠ .unopened

theorem opensParts_calmIo : OpensParts calmIo := by simp [OpensParts, calmIo]

/-- The merged texts are those of the parts whose files open. -/
theorem mem_mergedTexts {α : Type} {read : α → FileRead} {file : α → Option (Texts τ)}
    {parts : List α} {x : GlobalId × τ} : x ∈ (mergedTexts read file parts).getD [] ↔
      ∃ a ∈ parts, read a ≠ .unopened ∧ x ∈ (file a).getD [] := by
  have hflat : (mergedTexts read file parts).getD [] =
      ((parts.filter (read · ≠ .unopened)).filterMap file).flatten := by
    rw [mergedTexts]
    cases (parts.filter (read · ≠ .unopened)).filterMap file <;> rfl
  rw [hflat, mem_flatten]
  constructor
  · rintro ⟨texts, ht, hx⟩
    obtain ⟨a, ha, hfile⟩ := mem_filterMap.mp ht
    obtain ⟨ha, hopen⟩ := mem_filter.mp ha
    exact ⟨a, ha, of_decide_eq_true hopen, by rwa [hfile]⟩
  · rintro ⟨a, ha, hopen, hx⟩
    cases hfile : file a with
    | none => simp [hfile] at hx
    | some texts =>
      have ha' : a ∈ parts.filter (read · ≠ .unopened) := mem_filter.mpr ⟨ha, decide_eq_true hopen⟩
      exact ⟨texts, mem_filterMap.mpr ⟨a, ha', hfile⟩, by simpa [hfile] using hx⟩

/-! ## The two files a fold writes -/

section

variable {io : Io} {snapshot : SfxDictionaryMeta} {dir : Directory τ} {f : FieldId}

/-- A generation other than the one written is left alone. -/
theorem generationTexts_writeGeneration_of_ne (texts : FieldId → Option (Texts τ)) {g g' : Nat}
    (h : g' ≠ g) (f : FieldId) :
    generationTexts (dir.writeGeneration g texts) g' f = generationTexts dir g' f := by
  simp [generationTexts, writeGeneration, update_of_ne h]

/-- The written generation holds what was written. -/
theorem generationTexts_writeGeneration (texts : FieldId → Option (Texts τ)) (g : Nat)
    (f : FieldId) : generationTexts (dir.writeGeneration g texts) g f = (texts f).getD [] := by
  simp [generationTexts, writeGeneration]

/-- The generation `fold_once` writes has the texts of the snapshot's pairs. -/
theorem mem_foldPairs (hread : ∀ id, io.readMinted id ≠ .unopened) (hf : f ∈ snapshot.fieldIds)
    (x : GlobalId × τ) :
    x ∈ generationTexts (foldPairs io snapshot dir) (max snapshot.nextGeneration 1) f ↔
      ∃ id ∈ snapshot.pendingSegments, x ∈ mintedTexts dir id f := by
  rw [foldPairs, generationTexts_writeGeneration, if_pos hf]
  simp [mem_mergedTexts, hread, mintedTexts]

/-- The compacted generation has the texts of the merged ones. -/
theorem mem_compactGenerations (hread : ∀ g, io.readGeneration g ≠ .unopened)
    (hf : f ∈ snapshot.fieldIds) (merged : List Nat) (out : Nat) (x : GlobalId × τ) :
    x ∈ generationTexts (compactGenerations io snapshot merged out dir) out f ↔
      InGenerations dir merged f x := by
  rw [compactGenerations, generationTexts_writeGeneration, if_pos hf]
  simp [mem_mergedTexts, hread, InGenerations, generationTexts]

/-- A field that is written as it was is left alone. -/
theorem generation_writeGeneration {texts : FieldId → Option (Texts τ)} {out : Nat}
    (h : texts f = dir.generation out f) (g : Nat) :
    (dir.writeGeneration out texts).generation g f = dir.generation g f := by
  rcases eq_or_ne g out with rfl | hg
  · simp [writeGeneration, h]
  · simp [writeGeneration, update_of_ne hg]

/-- A generation of a field the snapshot does not have is left alone by both. -/
theorem foldPairs_other_field (hf : f ∉ snapshot.fieldIds) (g : Nat) :
    (foldPairs io snapshot dir).generation g f = dir.generation g f :=
  generation_writeGeneration (if_neg hf) g

theorem compactGenerations_other_field (hf : f ∉ snapshot.fieldIds) (merged : List Nat)
    (out g : Nat) : (compactGenerations io snapshot merged out dir).generation g f =
      dir.generation g f :=
  generation_writeGeneration (if_neg hf) g

end

/-! ## The fold as a whole -/

section

variable {io : Io} {snapshot : SfxDictionaryMeta} {dir : Directory τ} {r : FoldResult τ}

section

variable (h : foldWrite io snapshot dir = some r)
include h

/-- A fold that succeeds wrote the pairs' generation, and possibly a compacted one. -/
theorem foldWrite_cases :
    r = ⟨foldPairs io snapshot dir, snapshot.generations ++ [max snapshot.nextGeneration 1],
        max snapshot.nextGeneration 1 + 1⟩ ∨
      ∃ merged, r = ⟨compactGenerations io snapshot merged (max snapshot.nextGeneration 1 + 1)
          (foldPairs io snapshot dir),
        (snapshot.generations ++ [max snapshot.nextGeneration 1]).filter (· ∉ merged) ++
          [max snapshot.nextGeneration 1 + 1], max snapshot.nextGeneration 1 + 2⟩ := by
  unfold foldWrite at h
  split_ifs at h
  dsimp only at h
  split at h
  · exact .inl (Option.some.inj h).symm
  · split_ifs at h
    exact .inr ⟨_, (Option.some.inj h).symm⟩

/-- A fold leaves the minted pairs alone. -/
theorem foldWrite_minted : r.directory.minted = dir.minted := by
  obtain rfl | ⟨merged, rfl⟩ := foldWrite_cases h <;> rfl

/-- A fold writes only the fields of its snapshot. -/
theorem foldWrite_other_fields {f : FieldId} (hf : f ∉ snapshot.fieldIds) (g : Nat) :
    r.directory.generation g f = dir.generation g f := by
  obtain rfl | ⟨merged, rfl⟩ := foldWrite_cases h
  · exact foldPairs_other_field hf g
  · rw [compactGenerations_other_field hf, foldPairs_other_field hf]

/-- A fold writes only under new numbers. -/
theorem foldWrite_old_generation {g : Nat} (hg : g < snapshot.nextGeneration) (f : FieldId) :
    generationTexts r.directory g f = generationTexts dir g f := by
  have hpairs : generationTexts (foldPairs io snapshot dir) g f = generationTexts dir g f :=
    generationTexts_writeGeneration_of_ne _ (by omega) f
  obtain rfl | ⟨merged, rfl⟩ := foldWrite_cases h
  · exact hpairs
  · rw [← hpairs]
    exact generationTexts_writeGeneration_of_ne _ (by omega) f

/-- What a fold leaves, by number: the live generations, and numbers not used yet. -/
theorem foldWrite_numbers : (∀ g ∈ r.generations, g ∈ snapshot.generations ∨
      snapshot.nextGeneration ≤ g ∧ g < r.nextGeneration) ∧
      snapshot.nextGeneration ≤ r.nextGeneration := by
  obtain rfl | ⟨merged, rfl⟩ := foldWrite_cases h
  · refine ⟨fun g hg => ?_, by dsimp only; omega⟩
    simp only [mem_append, mem_singleton] at hg
    exact hg.imp_right fun hg => by dsimp only; omega
  · refine ⟨fun g hg => ?_, by dsimp only; omega⟩
    simp only [mem_append, mem_filter, mem_singleton] at hg
    rcases hg with ⟨hg | hg, -⟩ | hg
    · exact .inl hg
    · exact .inr (by dsimp only; omega)
    · exact .inr (by dsimp only; omega)

/-- The generations a fold leaves are numbered below the next one. -/
theorem foldWrite_generations_lt (hlt : ∀ g ∈ snapshot.generations, g < snapshot.nextGeneration) :
    ∀ g ∈ r.generations, g < r.nextGeneration := by
  intro g hg
  obtain ⟨hnumbers, hnext⟩ := foldWrite_numbers h
  exact (hnumbers g hg).elim (fun hg => Nat.lt_of_lt_of_le (hlt g hg) hnext) And.right

end

/-- A text in one of the generations before compaction is in one of those after. -/
private theorem compaction_keeps {dir : Directory τ} (hread : ∀ g, io.readGeneration g ≠ .unopened)
    {f : FieldId} (hf : f ∈ snapshot.fieldIds) {generations merged : List Nat} {out : Nat}
    (hout : out ∉ generations) {x : GlobalId × τ} (hx : InGenerations dir generations f x) :
    InGenerations (compactGenerations io snapshot merged out dir)
      (generations.filter (· ∉ merged) ++ [out]) f x := by
  obtain ⟨g, hg, hxg⟩ := hx
  by_cases hm : g ∈ merged
  · refine ⟨out, by simp, ?_⟩
    exact (mem_compactGenerations hread hf merged out x).mpr ⟨g, hm, hxg⟩
  · refine ⟨g, by simp [hg, hm], ?_⟩
    have hne : g ≠ out := fun he => hout (he ▸ hg)
    rwa [compactGenerations, generationTexts_writeGeneration_of_ne _ hne]

/-- The number behind that of a folded generation is new. -/
theorem next_not_mem {generations : List Nat} {next : Nat} (hlt : ∀ g ∈ generations, g < next) :
    max next 1 + 1 ∉ generations ++ [max next 1] := by
  grind

section

variable (h : foldWrite io snapshot dir = some r) (hopen : OpensParts io)
  (hlt : ∀ g ∈ snapshot.generations, g < snapshot.nextGeneration) {f : FieldId}
  (hf : f ∈ snapshot.fieldIds)
include h hopen hlt hf

/-- What is in the generations once the pairs are folded stays through the whole fold. -/
private theorem foldWrite_keeps_folded {x : GlobalId × τ}
    (hx : InGenerations (foldPairs io snapshot dir)
      (snapshot.generations ++ [max snapshot.nextGeneration 1]) f x) :
    InGenerations r.directory r.generations f x := by
  obtain rfl | ⟨merged, rfl⟩ := foldWrite_cases h
  · exact hx
  · exact compaction_keeps hopen.2 hf (next_not_mem hlt) hx

/-- **A fold keeps what its snapshot's generations held.** -/
theorem foldWrite_keeps_generations {x : GlobalId × τ}
    (hx : InGenerations dir snapshot.generations f x) :
    InGenerations r.directory r.generations f x := by
  obtain ⟨g, hg, hxg⟩ := hx
  have hne : g ≠ max snapshot.nextGeneration 1 := by
    have := hlt g hg
    omega
  refine foldWrite_keeps_folded h hopen hlt hf ⟨g, mem_append_left _ hg, ?_⟩
  rwa [foldPairs, generationTexts_writeGeneration_of_ne _ hne]

/-- **A fold puts the texts of its snapshot's pairs in a generation it leaves.** -/
theorem foldWrite_holds_pairs {id : SegmentId} (hid : id ∈ snapshot.pendingSegments)
    {x : GlobalId × τ} (hx : x ∈ mintedTexts dir id f) :
    InGenerations r.directory r.generations f x := by
  refine foldWrite_keeps_folded h hopen hlt hf ⟨max snapshot.nextGeneration 1, by simp, ?_⟩
  exact (mem_foldPairs hopen.1 hf x).mpr ⟨id, hid, hx⟩

end

end

/-! ## Naming pairs and deleting them -/

theorem mem_addFields {fieldIds newFields : List FieldId} {f : FieldId} :
    f ∈ addFields fieldIds newFields ↔ f ∈ fieldIds ∨ f ∈ newFields := by
  have hfold : ∀ (fs acc : List FieldId),
      f ∈ fs.foldl (fun acc f => if f ∈ acc then acc else acc ++ [f]) acc ↔ f ∈ acc ∨ f ∈ fs := by
    intro fs
    induction fs with
    | nil => simp
    | cons a rest ih =>
      intro acc
      rw [foldl_cons, ih, mem_cons]
      by_cases ha : a ∈ acc
      · have hold : f ∈ acc ∨ f = a ↔ f ∈ acc := or_iff_left_of_imp fun h => h ▸ ha
        rw [if_pos ha, ← or_assoc, hold]
      · rw [if_neg ha, mem_append, mem_singleton, or_assoc]
  rw [addFields, mem_insertionSort, hfold]

/-- A segment whose pair a commit names is not committed, its pair opens, and the fields it
minted in are exactly those with a text. -/
theorem mem_newPairs {io : Io} {dir : Directory τ} {registers : SegmentRegisters}
    {m : SegmentMeta} (h : m ∈ newPairs io dir registers) :
    (∃ e ∈ registers.uncommitted.entries, e.info = m) ∧
      ∀ f ∈ m.sfxFieldIds, mintedTexts dir m.id f ≠ [] → f ∈ mintedFields io dir m := by
  obtain ⟨hm, hp⟩ := mem_filter.mp h
  obtain ⟨hcommitted, hfields⟩ := of_decide_eq_true hp
  obtain ⟨e, he, rfl⟩ := mem_map.mp hm
  have hunc : e ∈ registers.uncommitted.entries := by
    rcases mem_append.mp he with he | he
    · exact he
    · exact absurd (SegmentRegister.mem_ids.mpr ⟨e, he, rfl⟩) hcommitted
  refine ⟨⟨e, hunc, rfl⟩, fun f hf hne => ?_⟩
  obtain ⟨g, hg⟩ := exists_mem_of_ne_nil _ hfields
  have hopen : io.readMinted e.info.id ≠ .unopened := (of_decide_eq_true (mem_filter.mp hg).2).1
  refine mem_filter.mpr ⟨hf, decide_eq_true ⟨hopen, ?_⟩⟩
  exact fun hlen => hne (length_eq_zero_iff.mp hlen)

/-- The same by id: the segment is uncommitted, and the fields it minted in are added. -/
theorem mem_newPairs_ids {io : Io} {dir : Directory τ} {registers : SegmentRegisters}
    {id : SegmentId} (hid : id ∈ (newPairs io dir registers).map SegmentMeta.id) :
    ∃ e ∈ registers.uncommitted.entries, e.id = id ∧
      ∀ f ∈ e.info.sfxFieldIds, mintedTexts dir e.id f ≠ [] →
        f ∈ (newPairs io dir registers).flatMap (mintedFields io dir) := by
  obtain ⟨m, hm, rfl⟩ := mem_map.mp hid
  obtain ⟨⟨e, he, rfl⟩, hfields⟩ := mem_newPairs hm
  exact ⟨e, he, rfl, fun f hf hne => mem_flatMap.mpr ⟨_, hm, hfields f hf hne⟩⟩

/-- The state naming the pairs leaves. -/
theorem namePairs_run (io : Io) (s : SegmentUpdaterState τ) :
    (namePairs io).run s = let r := s.registers.removeEmptySegments
      let pairs := newPairs io s.directory r
      if newPairUnreadable io s.directory r then .error .ioError { s with registers := r }
      else if pairs = [] then .ok false { s with registers := r }
      else .ok true (nameNewPairs (pairs.map SegmentMeta.id)
        (pairs.flatMap (mintedFields io s.directory)) { s with registers := r }) := by
  have hmetas : (committedSegmentMetas : Handler τ _).run s =
      .ok s.registers.removeEmptySegments.committed.segmentMetas
        { s with registers := s.registers.removeEmptySegments } := rfl
  rw [namePairs, run_bind_of_ok hmetas, run_get_bind]
  dsimp only
  split_ifs <;> rfl

/-- The deleting loop leaves the pairs of other segments, and the named ones. -/
theorem deletePairs_minted (io : Io) (named : List SegmentId) (ms : List SegmentMeta)
    {id : SegmentId} (h : id ∈ named ∨ id ∉ ms.map SegmentMeta.id) :
    Keeps (fun s => s.directory.minted id) (deletePairs io named ms : Handler τ Unit) := by
  induction ms with
  | nil => exact keeps_pure _ _
  | cons m rest ih =>
    have hrest := ih (h.imp_right fun hn hmem => hn (mem_cons_of_mem _ hmem))
    by_cases hm : m.id ∈ named
    · rw [deletePairs, if_pos hm]
      exact hrest
    · have hne : id ≠ m.id := by
        rintro rfl
        rcases h with h | h
        · exact hm h
        · exact h mem_cons_self
      rw [deletePairs, if_neg hm]
      refine keeps_ite (keeps_bind (keeps_modify fun s => ?_) fun _ => hrest) (keeps_throw _ _)
      simp [deleteMinted, update_of_ne hne]

/-- What `delete_consumed_pairs` never touches. -/
def exceptMinted (s : SegmentUpdaterState τ) :=
  (s.dictionary, s.dictionaryShared, s.fold, s.directory.generation)

theorem deleteConsumedPairs_exceptMinted (io : Io) :
    Keeps exceptMinted (deleteConsumedPairs io : Handler τ Unit) :=
  deleteConsumedPairs_relates (R := fun s t => exceptMinted t = exceptMinted s) (fun _ => rfl)
    (fun _ _ _ h₁ h₂ => h₂.trans h₁) (fun _ => rfl) (fun _ _ _ => rfl) io

/-- `delete_consumed_pairs` writes no pair. -/
theorem deleteConsumedPairs_shrinks (io : Io) (s : SegmentUpdaterState τ) (id : SegmentId)
    (f : FieldId) {x : GlobalId × τ}
    (hx : x ∈ mintedTexts (finalState (deleteConsumedPairs io) s).directory id f) :
    x ∈ mintedTexts s.directory id f := by
  have hdelete : ∀ (s : SegmentUpdaterState τ) id' fields,
      x ∈ mintedTexts (s.directory.deleteMinted id' fields) id f →
        x ∈ mintedTexts s.directory id f := by
    intro s id' fields hx
    by_cases hid : id = id'
    · subst hid
      by_cases hf : f ∈ fields
      · simp [mintedTexts, deleteMinted, hf] at hx
      · simpa [mintedTexts, deleteMinted, hf] using hx
    · simpa [mintedTexts, deleteMinted, update_of_ne hid] using hx
  exact deleteConsumedPairs_relates (R := fun s t => x ∈ mintedTexts t.directory id f →
    x ∈ mintedTexts s.directory id f) (fun _ h => h) (fun _ _ _ h₁ h₂ h => h₁ (h₂ h))
    (fun _ h => h) hdelete io s hx

/-- **`delete_consumed_pairs` leaves** the pair of every segment that is not committed, and
every pair the active meta names. -/
theorem deleteConsumedPairs_minted (io : Io) (s : SegmentUpdaterState τ) {id : SegmentId}
    (h : id ∉ s.registers.committed.ids ∨
      ∃ info, s.activeIndexMeta.sfxDictionary = some info ∧ id ∈ info.pendingSegments) :
    (finalState (deleteConsumedPairs io) s).directory.minted id = s.directory.minted id := by
  have hload : (loadMeta : Handler τ _).run s = .ok s.activeIndexMeta s := rfl
  by_cases hd : s.dictionary.isNone = true
  · rw [finalState, deleteConsumedPairs, run_get_bind, if_pos hd]
    rfl
  rw [finalState, deleteConsumedPairs, run_get_bind, if_neg hd, run_bind_of_ok hload]
  cases hdict : s.activeIndexMeta.sfxDictionary with
  | none => rfl
  | some info =>
    have hid : id ∈ info.pendingSegments ∨
        id ∉ s.registers.removeEmptySegments.committed.segmentMetas.map SegmentMeta.id := by
      rcases h with h | ⟨info', hinfo', hid⟩
      · refine .inr fun hmem => h (SegmentRegisters.mem_ids_removeEmptySegments ?_)
        rw [SegmentRegister.segmentMetas, map_map] at hmem
        exact hmem
      · rw [hdict] at hinfo'
        cases hinfo'
        exact .inl hid
    exact deletePairs_minted io info.pendingSegments _ hid _

end Lucivy.Indexer
