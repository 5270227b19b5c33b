import Lucivy.Indexer.DictionaryInterleaving
import Lucivy.Indexer.MetaHistory

/-! # Each text in one part

A commit names the pairs of its uncommitted segments before it publishes the segments. If it
fails in between, the retry finds the segments uncommitted still and names them again. The runs
here are those of `ShardStep`: cuts, commits step by step with failures, folds step by step.

* `Part`, `HeldOnce` — the parts of a dictionary; no part listed twice, no text in two parts.
* `PartsOnce` — the invariant: the live parts and the pairs still to be named hold each text
  once, and so will the parts a written fold is about to swap in.
* `RetriesCleanly` — when a step keeps it: above all, a commit that has named its pairs gets its
  deletes purged, so that it publishes the segments.
* `parts_hold_once` — the result over runs; `retry_names_twice` shows what a failed purge does. -/

namespace Lucivy.Indexer

open Lucivy.Foundation Lucivy.SuffixFst List

variable {τ : Type}

/-! ## Parts -/

/-- A part of the dictionary. -/
inductive Part
  | generation (g : Nat)
  | pair (id : SegmentId)
  deriving DecidableEq

def Part.texts (dir : Directory τ) : Part → FieldId → Texts τ
  | .generation g => generationTexts dir g
  | .pair id => mintedTexts dir id

/-- The part has the text. -/
def Part.Holds (dir : Directory τ) (p : Part) (f : FieldId) (key : τ) : Prop :=
  ∃ id, (id, key) ∈ p.texts dir f

/-- The parts a meta names. -/
def partsOf (generations : List Nat) (pending : List SegmentId) : List Part :=
  generations.map .generation ++ pending.map .pair

def liveParts (s : ShardState τ) : List Part := partsOf (liveGenerations s) (livePending s)

/-- **Each text once**: no part is listed twice, and no text is in two parts. -/
structure HeldOnce (dir : Directory τ) (ps : List Part) : Prop where
  nodup : ps.Nodup
  unique : ∀ p ∈ ps, ∀ q ∈ ps, ∀ f key, p.Holds dir f key → q.Holds dir f key → p = q

variable {dir dir' : Directory τ}

/-- **Regrouping.** If every text of a new part comes from an old part that went into it, texts
held once are held once again. -/
theorem HeldOnce.regroup {ps qs : List Part} (h : HeldOnce dir ps) (hnodup : qs.Nodup)
    (into : Part → Part)
    (hfrom : ∀ q ∈ qs, ∀ f, ∀ x ∈ q.texts dir' f, ∃ p ∈ ps, x ∈ p.texts dir f ∧ into p = q) :
    HeldOnce dir' qs where
  nodup := hnodup
  unique := by
    rintro p hp q hq f key ⟨i, hi⟩ ⟨j, hj⟩
    obtain ⟨p', hp', hxp, rfl⟩ := hfrom p hp f _ hi
    obtain ⟨q', hq', hxq, rfl⟩ := hfrom q hq f _ hj
    rw [h.unique p' hp' q' hq' f key ⟨i, hxp⟩ ⟨j, hxq⟩]

/-- Fewer parts, with fewer texts. -/
theorem HeldOnce.of_sublist {ps qs : List Part} (h : HeldOnce dir ps) (hsub : qs.Sublist ps)
    (hfiles : ∀ p f, ∀ x ∈ Part.texts dir' p f, x ∈ p.texts dir f) : HeldOnce dir' qs :=
  h.regroup (h.nodup.sublist hsub) id fun q hq f x hx => ⟨q, hsub.subset hq, hfiles q f x hx, rfl⟩

/-- One part more, with texts no part has. -/
theorem HeldOnce.add {ps : List Part} {new : Part} (h : HeldOnce dir ps) (hnew : new ∉ ps)
    (hfiles : ∀ p ∈ ps, p.texts dir' = p.texts dir)
    (hfresh : ∀ f key, new.Holds dir' f key → ∀ p ∈ ps, ¬ p.Holds dir f key) :
    HeldOnce dir' (ps ++ [new]) where
  nodup := nodup_append_comm.mp (nodup_cons.mpr ⟨hnew, h.nodup⟩)
  unique := by
    have hold : ∀ p ∈ ps, ∀ f key, p.Holds dir' f key → p.Holds dir f key := by
      intro p hp f key hholds
      rwa [Part.Holds, hfiles p hp] at hholds
    intro p hp q hq f key hpk hqk
    rcases mem_append.mp hp with hp | hp <;> rcases mem_append.mp hq with hq | hq
    · exact h.unique p hp q hq f key (hold p hp f key hpk) (hold q hq f key hqk)
    · rw [mem_singleton] at hq
      exact absurd (hold p hp f key hpk) (hfresh f key (hq ▸ hqk) p hp)
    · rw [mem_singleton] at hp
      exact absurd (hold q hq f key hqk) (hfresh f key (hp ▸ hpk) q hq)
    · rw [mem_singleton.mp hp, mem_singleton.mp hq]

/-! ## The invariant -/

/-- The pairs a commit has still to name. -/
def waiting (s : ShardState τ) : List Part :=
  match s.phase with
  | .named _ => []
  | _ => s.index.registers.uncommitted.ids.map .pair

/-- What the fold under way leaves once: its snapshot is of the live parts, or what it has
written can be swapped in. -/
def FoldOnce (s : ShardState τ) (d : SfxDictionary τ) : FoldTask → Prop
  | .snapshot info =>
    info.generations = d.info.generations ∧ info.nextGeneration = d.info.nextGeneration ∧
      (∀ id ∈ info.pendingSegments, id ∈ d.info.pendingSegments) ∧
      (∀ f ∈ info.fieldIds, f ∈ d.info.fieldIds) ∧
      ∀ g f, ∀ x ∈ generationTexts s.index.directory g f, f ∈ info.fieldIds
  | .written info generations next =>
    (∀ g ∈ generations, g < next) ∧
      HeldOnce s.index.directory (partsOf generations
        (d.info.pendingSegments.filter (· ∉ info.pendingSegments)) ++ waiting s)
  | _ => True

/-- **The invariant**, with `d` the live dictionary. -/
structure PartsOnce (s : ShardState τ) (d : SfxDictionary τ) : Prop where
  /-- `d` is live. -/
  dictionary : s.index.dictionary = some d
  known : ∀ id, id ∈ d.info.pendingSegments ∨ id ∈ s.index.registers.uncommitted.ids → id ∈ s.known
  numbers : ∀ g ∈ d.info.generations, g < d.info.nextGeneration
  /-- No generation file has a field the dictionary does not list. -/
  fields : ∀ g f, ∀ x ∈ generationTexts s.index.directory g f, f ∈ d.info.fieldIds
  /-- The live parts and the pairs to come hold each text once. -/
  once : HeldOnce s.index.directory
    (partsOf d.info.generations d.info.pendingSegments ++ waiting s)
  fold : FoldOnce s d s.index.fold

/-- **When a step keeps each text once.** A cut segment's texts are in no file yet; a commit that
has named its pairs gets its deletes purged; a refresh finds the live dictionary made of the
parts its `meta.json` names, or ahead of it by a fold. -/
def RetriesCleanly (s : ShardState τ) : ShardEvent τ → Prop
  | .cut _ texts => ∀ f, ∀ x ∈ texts f, ∀ p : Part, ¬ p.Holds s.index.directory f x.2
  | .write io _ _ => ∀ id, (io.purge id).isSome
  | .refresh n => HarmlessReload s (.refresh n)
  | _ => True

section Steps

variable {s t : ShardState τ} {d : SfxDictionary τ} {io : Io}

/-- Steps that write no dictionary file and leave the dictionary and the fold alone. -/
theorem PartsOnce.of_shrinks (h : PartsOnce s d) (hdict : t.index.dictionary = s.index.dictionary)
    (hfold : t.index.fold = s.index.fold) (hknown : ∀ id ∈ s.known, id ∈ t.known)
    (hunc : ∀ id ∈ t.index.registers.uncommitted.ids, id ∈ s.index.registers.uncommitted.ids)
    (hwaiting : (waiting t).Sublist (waiting s))
    (hfiles : ∀ p f, ∀ x ∈ Part.texts t.index.directory p f, x ∈ p.texts s.index.directory f) :
    PartsOnce t d where
  dictionary := hdict.trans h.dictionary
  known id hid := hknown id (h.known id (hid.imp_right (hunc id)))
  numbers := h.numbers
  fields g f x hx := h.fields g f x (hfiles (.generation g) f x hx)
  once := h.once.of_sublist (hwaiting.append_left _) hfiles
  fold := by
    have hold := h.fold
    rw [hfold]
    cases hf : s.index.fold with
    | snapshot info =>
      rw [hf] at hold
      obtain ⟨h₁, h₂, h₃, h₄, h₅⟩ := hold
      exact ⟨h₁, h₂, h₃, h₄, fun g f x hx => h₅ g f x (hfiles (.generation g) f x hx)⟩
    | written info gs next =>
      rw [hf] at hold
      exact ⟨hold.1, hold.2.of_sublist (hwaiting.append_left _) hfiles⟩
    | _ => trivial

theorem PartsOnce.with_fold (h : PartsOnce s d) {task : FoldTask} (htask : FoldOnce s d task) :
    PartsOnce { s with index := { s.index with fold := task } } d :=
  { h with fold := by cases task <;> exact htask }

theorem waiting_sublist : (waiting s).Sublist (s.index.registers.uncommitted.ids.map .pair) := by
  unfold waiting
  split
  · exact nil_sublist _
  · exact List.Sublist.refl _

/-- A part that is listed is a generation, or the pair of a known segment. -/
theorem PartsOnce.known_of_mem (h : PartsOnce s d) {gs : List Nat} {pending : List SegmentId}
    (hpending : ∀ id ∈ pending, id ∈ d.info.pendingSegments) {id : SegmentId}
    (hid : Part.pair id ∈ partsOf gs pending ++ waiting s) : id ∈ s.known := by
  rcases mem_append.mp hid with hid | hid
  · have : id ∈ pending := by simpa [partsOf] using hid
    exact h.known id (.inl (hpending id this))
  · have : id ∈ s.index.registers.uncommitted.ids := by simpa using waiting_sublist.subset hid
    exact h.known id (.inr this)

/-- A segment is cut: its pair is new, and so are its texts. -/
theorem cut_once (h : PartsOnce s d) {entry : SegmentEntry} {texts : FieldId → Texts τ}
    (hnew : entry.id ∉ s.known)
    (hfresh : ∀ f, ∀ x ∈ texts f, ∀ p : Part, ¬ p.Holds s.index.directory f x.2) :
    PartsOnce (s.cut entry texts) d := by
  have hother : ∀ p, p ≠ .pair entry.id →
      Part.texts (s.cut entry texts).index.directory p = p.texts s.index.directory := by
    rintro (g | id) hp
    · rfl
    · exact mintedTexts_writeMinted_of_ne _ (fun he => hp (congrArg _ he)) _
  have hholds : ∀ f key, (Part.pair entry.id).Holds (s.cut entry texts).index.directory f key →
      ∃ id, (id, key) ∈ texts f := by
    rintro f key ⟨id, hid⟩
    refine ⟨id, ?_⟩
    by_cases hf : texts f = []
    · simp [Part.texts, ShardState.cut, mintedTexts, Directory.writeMinted, hf] at hid
    · simpa [Part.texts, ShardState.cut, mintedTexts, Directory.writeMinted, hf] using hid
  -- while a commit has named its pairs, the new one is not waited for
  have hwait : (waiting (s.cut entry texts)).Sublist (waiting s ++ [.pair entry.id]) := by
    unfold waiting ShardState.cut
    split
    · exact nil_sublist _
    · rw [← map_singleton, ← map_append]
      refine List.Sublist.map _ ?_
      rw [SegmentRegister.ids, SegmentRegisters.addSegment, SegmentRegister.addSegmentEntry,
        map_append]
      exact (filter_sublist.map _).append_right _
  -- parts of known pairs that hold each text once do so with the new pair
  have hadd : ∀ gs pending, (∀ id ∈ pending, id ∈ d.info.pendingSegments) →
      HeldOnce s.index.directory (partsOf gs pending ++ waiting s) →
      HeldOnce (s.cut entry texts).index.directory
        (partsOf gs pending ++ waiting (s.cut entry texts)) := by
    intro gs pending hpending honce
    have hnot : Part.pair entry.id ∉ partsOf gs pending ++ waiting s := fun hmem =>
      hnew (h.known_of_mem hpending hmem)
    have hall := honce.add hnot (fun p hp => hother p fun he => hnot (he ▸ hp))
      fun f key hk p _ => by
      obtain ⟨id, hid⟩ := hholds f key hk
      exact hfresh f _ hid p
    refine hall.of_sublist ?_ fun _ _ _ => id
    rw [append_assoc]
    exact hwait.append_left _
  refine ⟨h.dictionary, fun id hid => ?_, h.numbers, h.fields, hadd _ _ (fun _ => id) h.once, ?_⟩
  · rcases hid with hid | hid
    · exact mem_cons_of_mem _ (h.known id (.inl hid))
    · rcases SegmentRegister.mem_ids_addSegmentEntry.mp hid with hid | hid
      · exact mem_cons_of_mem _ (h.known id (.inr hid))
      · exact hid ▸ mem_cons_self
  · have hold := h.fold
    change FoldOnce _ d s.index.fold
    cases hf : s.index.fold with
    | written info gs next =>
      rw [hf] at hold
      exact ⟨hold.1, hadd _ _ (fun id hid => mem_of_mem_filter hid) hold.2⟩
    | _ =>
      rw [hf] at hold
      exact hold

/-! ## Commits -/

/-- The pairs a commit names are some of the uncommitted segments', in order. -/
theorem newPairs_sublist (io : Io) (dir : Directory τ) (r : SegmentRegisters) :
    ((newPairs io dir r).map SegmentMeta.id).Sublist r.uncommitted.ids := by
  have hnone : (r.committed.entries.map SegmentEntry.info).filter (fun m =>
      m.id ∉ r.committed.ids ∧ mintedFields io dir m ≠ []) = [] := by
    refine filter_eq_nil_iff.mpr fun m hm hp => ?_
    obtain ⟨e, he, rfl⟩ := mem_map.mp hm
    exact (of_decide_eq_true hp).1 (SegmentRegister.mem_ids.mpr ⟨e, he, rfl⟩)
  have hids : r.uncommitted.ids =
      (r.uncommitted.entries.map SegmentEntry.info).map SegmentMeta.id := by
    rw [map_map]
    rfl
  rw [newPairs, SegmentRegisters.segmentEntries, map_append, filter_append, hnone,
    append_nil, hids]
  exact filter_sublist.map _

section

variable (h : PartsOnce s d)
include h

/-- Naming turns pairs that are waited for into live parts. -/
theorem name_once (hphase : s.phase = .idle) : ∃ d', PartsOnce (s.name io) d' := by
  have hwait : waiting s = s.index.registers.uncommitted.ids.map .pair := by
    rw [waiting, hphase]
  have hrun := namePairs_run io s.index
  dsimp only at hrun
  unfold ShardState.name
  rw [hrun]
  generalize hpairs : newPairs io s.index.directory s.index.registers.removeEmptySegments = pairs
  have hsub : (pairs.map SegmentMeta.id).Sublist s.index.registers.uncommitted.ids :=
    hpairs ▸ newPairs_sublist io s.index.directory s.index.registers.removeEmptySegments
  split_ifs with hread hnil
  · refine ⟨d, h.of_shrinks rfl rfl (fun _ => id) (fun _ => id) ?_ fun _ _ _ => id⟩
    exact List.Sublist.refl _
  · exact ⟨d, h.of_shrinks rfl rfl (fun _ => id) (fun _ => id) (nil_sublist _)
      fun _ _ _ => id⟩
  · rw [h.dictionary]
    -- the named pairs were waited for, so the parts are a sublist of what held each text once
    have hsplit : ∀ gs kept named, named.Sublist s.index.registers.uncommitted.ids →
        (partsOf gs (kept ++ named) ++ []).Sublist (partsOf gs kept ++ waiting s) := by
      intro gs kept named hnamed
      rw [append_nil, hwait, partsOf, partsOf, map_append, ← append_assoc]
      exact (hnamed.map _).append_left _
    refine ⟨_, rfl, fun id hid => ?_, h.numbers, fun g f x hx => ?_, ?_, ?_⟩
    · rcases hid with hid | hid
      · rcases mem_append.mp hid with hid | hid
        · exact h.known id (.inl hid)
        · exact h.known id (.inr (hsub.subset hid))
      · exact h.known id (.inr hid)
    · exact mem_addFields.mpr (.inl (h.fields g f x hx))
    · exact h.once.of_sublist (hsplit _ _ _ hsub) fun _ _ _ => id
    · have hold := h.fold
      cases hf : s.index.fold with
      | snapshot info =>
        rw [hf] at hold
        obtain ⟨h₁, h₂, h₃, h₄, h₅⟩ := hold
        exact ⟨h₁, h₂, fun id hid => mem_append_left _ (h₃ id hid),
          fun f hf => mem_addFields.mpr (.inl (h₄ f hf)), h₅⟩
      | written info gs next =>
        rw [hf] at hold
        refine ⟨hold.1, hold.2.of_sublist ?_ fun _ _ _ => id⟩
        show (partsOf gs ((d.info.pendingSegments ++ pairs.map SegmentMeta.id).filter
          (· ∉ info.pendingSegments)) ++ []).Sublist _
        rw [filter_append]
        exact hsplit _ _ _ (filter_sublist.trans hsub)
      | _ => trivial

/-- A commit whose deletes are purged publishes every segment, whether or not `meta.json` is
written. -/
theorem write_once (hpurge : ∀ id, (io.purge id).isSome) (opstamp : Opstamp)
    (payload : Option String) : PartsOnce (s.writeWith (writeMeta io opstamp payload)) d := by
  obtain ⟨entries, hentries⟩ := purgeDeletes_isSome hpurge s.index.registers opstamp
  have hprep := prepareNode_run io opstamp s.index
  rw [hentries] at hprep
  rw [ShardState.writeWith, writeMeta, run_bind_of_ok hprep, saveMetas_run]
  cases io.saveOk
  all_goals
    exact h.of_shrinks rfl rfl (fun _ => id) (forall_mem_nil _)
      (nil_sublist _) fun _ _ _ => id

theorem rewrite_once (hphase : s.phase = .idle) : PartsOnce (s.writeWith (rewriteMeta io)) d := by
  have hload : (loadMeta : Handler τ _).run s.index = .ok s.index.activeIndexMeta s.index := rfl
  rw [ShardState.writeWith, rewriteMeta, run_bind_of_ok hload, saveMetas_run]
  cases io.saveOk
  all_goals
    refine h.of_shrinks rfl rfl (fun _ => id) (fun _ => id) ?_ fun _ _ _ => id
    simp only [waiting, hphase]
    exact List.Sublist.refl _

theorem delete_once (hphase : s.phase = .written) : PartsOnce (s.delete io) d := by
  have hkept := deleteConsumedPairs_exceptMinted io s.index
  have hquiet := (deleteConsumedPairs_quiet io s.index).1
  simp only [exceptMinted, Prod.mk.injEq] at hkept
  refine h.of_shrinks hkept.1 hkept.2.2.1 (fun _ => id) (fun id hid => ?_) ?_ ?_
  · rwa [ShardState.delete, hquiet] at hid
  · simp only [waiting, ShardState.delete, hphase, hquiet]
    exact List.Sublist.refl _
  · rintro (g | id) f x hx
    · rwa [Part.texts, ShardState.delete, generationTexts, hkept.2.2.2] at hx
    · exact deleteConsumedPairs_shrinks io s.index id f hx

end

/-! ## Folds -/

/-- Generations chosen to be compacted are among those there are. -/
theorem mem_of_chooseCompaction {live : List (Nat × Nat)} {most : Nat} {merged : List Nat}
    (h : chooseCompaction live most = some merged) : ∀ g ∈ merged, g ∈ live.map Prod.fst := by
  intro g hg
  unfold chooseCompaction at h
  split_ifs at h
  cases h
  obtain ⟨p, hp, rfl⟩ := mem_map.mp (mem_insertionSort _ |>.mp hg)
  exact mem_map.mpr ⟨p, mem_insertionSort _ |>.mp (mem_of_mem_take hp), rfl⟩

/-- **Parts merged into a new generation**: what stays and the new generation hold each text
once, if the new generation's texts are of parts that do not stay. -/
theorem HeldOnce.add_generation {dir : Directory τ} {ps w : List Part} {gs : List Nat}
    {rest : List SegmentId} (h : HeldOnce dir ps) (ms : List Part)
    (hstay : (partsOf gs rest ++ w).Sublist ps)
    (hgone : ∀ q ∈ partsOf gs rest ++ w, q ∉ ms) {out : Nat} (hout : .generation out ∉ ps)
    {texts : FieldId → Option (Texts τ)}
    (htexts : ∀ f, ∀ x ∈ (texts f).getD [], ∃ p ∈ ps, p ∈ ms ∧ x ∈ p.texts dir f) :
    HeldOnce (dir.writeGeneration out texts) (partsOf (gs ++ [out]) rest ++ w) := by
  have hlist : partsOf (gs ++ [out]) rest ++ w =
      gs.map .generation ++ Part.generation out :: (rest.map .pair ++ w) := by
    simp [partsOf]
  have hstays : partsOf gs rest ++ w = gs.map .generation ++ (rest.map .pair ++ w) := by
    simp [partsOf]
  rw [hstays] at hstay hgone
  rw [hlist]
  refine h.regroup ?_ (fun p => if p ∈ ms then .generation out else p) fun q hq f x hx => ?_
  · rw [nodup_middle]
    exact nodup_cons.mpr ⟨fun hmem => hout (hstay.subset hmem), h.nodup.sublist hstay⟩
  · by_cases hq' : q = .generation out
    · subst hq'
      rw [Part.texts, generationTexts_writeGeneration] at hx
      obtain ⟨p, hp, hms, hxp⟩ := htexts f x hx
      exact ⟨p, hp, hxp, if_pos hms⟩
    · have hmem : q ∈ gs.map .generation ++ (rest.map .pair ++ w) := by
        simp only [mem_append, mem_cons] at hq ⊢
        tauto
      refine ⟨q, hstay.subset hmem, ?_, if_neg (hgone q hmem)⟩
      cases q with
      | generation g =>
        have hne : g ≠ out := fun he => hq' (he ▸ rfl)
        rwa [Part.texts, generationTexts_writeGeneration_of_ne _ hne] at hx
      | pair id => exact hx

/-- Only pairs are waited for. -/
theorem pair_of_mem_waiting {p : Part} (h : p ∈ waiting s) : ∃ id, p = .pair id := by
  obtain ⟨id, -, rfl⟩ := mem_map.mp (waiting_sublist.subset h)
  exact ⟨id, rfl⟩

theorem generation_mem_parts {gs : List Nat} {rest : List SegmentId} {g : Nat} :
    Part.generation g ∈ partsOf gs rest ++ waiting s ↔ g ∈ gs := by
  have hnot : Part.generation g ∉ waiting s := fun hmem => by
    obtain ⟨id, hid⟩ := pair_of_mem_waiting hmem
    cases hid
  simp [partsOf, hnot]

/-- **A fold's files hold each text once**: the pairs' generation, and the compacted one. -/
theorem foldWrite_once (h : PartsOnce s d) {info : SfxDictionaryMeta}
    (hfold : FoldOnce s d (.snapshot info)) {r : FoldResult τ}
    (hr : foldWrite io info s.index.directory = some r) :
    HeldOnce r.directory (partsOf r.generations
      (d.info.pendingSegments.filter (· ∉ info.pendingSegments)) ++ waiting s) := by
  obtain ⟨hgens, hnext, hpending, -, hfields⟩ := hfold
  have hlt := h.numbers
  rw [← hgens, ← hnext] at hlt
  have honce := h.once
  rw [← hgens] at honce
  -- the snapshot's pairs go into the next generation
  have hpairs : HeldOnce (foldPairs io info s.index.directory)
      (partsOf (info.generations ++ [max info.nextGeneration 1])
        (d.info.pendingSegments.filter (· ∉ info.pendingSegments)) ++ waiting s) := by
    refine honce.add_generation (info.pendingSegments.map .pair) ?_ ?_ ?_ ?_
    · exact ((filter_sublist.map _).append_left _).append_right _
    · intro q hq hms
      obtain ⟨id, hid, rfl⟩ := mem_map.mp hms
      rcases mem_append.mp hq with hq | hq
      · have : id ∈ d.info.pendingSegments.filter (· ∉ info.pendingSegments) := by
          simpa [partsOf] using hq
        exact of_decide_eq_true (mem_filter.mp this).2 hid
      · have hlive : Part.pair id ∈ partsOf info.generations d.info.pendingSegments := by
          simpa [partsOf] using hpending id hid
        exact (nodup_append.mp honce.nodup).2.2 _ hlive _ hq rfl
    · rw [generation_mem_parts]
      intro hmem
      have := hlt _ hmem
      omega
    · intro f x hx
      split_ifs at hx with hf
      · obtain ⟨id, hid, -, hxid⟩ := mem_mergedTexts.mp hx
        exact ⟨.pair id, mem_append_left _ (by simpa [partsOf] using hpending id hid),
          mem_map.mpr ⟨id, hid, rfl⟩, hxid⟩
      · exact absurd (hfields _ f x hx) hf
  unfold foldWrite at hr
  split_ifs at hr
  dsimp only at hr
  split at hr
  · cases hr
    exact hpairs
  · next merged hmerged =>
    split_ifs at hr
    cases hr
    have hfrom : ∀ g ∈ merged, g ∈ info.generations ++ [max info.nextGeneration 1] := by
      intro g hg
      have := mem_of_chooseCompaction hmerged g hg
      rwa [map_map, show Prod.fst ∘ (fun g => (g, io.generationBytes g)) = id from rfl,
        map_id] at this
    refine hpairs.add_generation (merged.map .generation) ?_ ?_ ?_ ?_
    · exact ((filter_sublist.map _).append_right _).append_right _
    · intro q hq hms
      obtain ⟨g, hg, rfl⟩ := mem_map.mp hms
      exact of_decide_eq_true (mem_filter.mp (generation_mem_parts.mp hq)).2 hg
    · rw [generation_mem_parts]
      exact next_not_mem hlt
    · intro f x hx
      split_ifs at hx with hf
      · obtain ⟨g, hg, -, hxg⟩ := mem_mergedTexts.mp hx
        exact ⟨.generation g, generation_mem_parts.mpr (hfrom g hg),
          mem_map.mpr ⟨g, hg, rfl⟩, hxg⟩
      · rw [foldPairs_other_field hf] at hx
        exact absurd (hfields _ f x hx) hf

theorem foldStep_once (h : PartsOnce s d) :
    ∃ d', PartsOnce { s with index := foldStep io s.index } d' := by
  have hold := h.fold
  cases hf : s.index.fold with
  | idle =>
    rw [foldStep_of_idle hf]
    exact ⟨d, h⟩
  | started =>
    rw [foldStep_of_started hf, foldSnapshot_eq h.dictionary]
    refine ⟨d, h.with_fold ?_⟩
    split
    · trivial
    · exact ⟨rfl, rfl, fun _ => id, fun _ => id, h.fields⟩
  | snapshot info =>
    rw [hf] at hold
    rw [foldStep_of_snapshot hf]
    cases hr : foldWrite io info s.index.directory with
    | none => exact ⟨d, h.with_fold trivial⟩
    | some r =>
      rw [Option.elim_some]
      have hlt := h.numbers
      rw [← hold.1, ← hold.2.1] at hlt
      -- the live generations are below the numbers written
      have hfiles : ∀ p ∈ partsOf d.info.generations d.info.pendingSegments ++ waiting s,
          p.texts r.directory = p.texts s.index.directory := by
        rintro (g | id) hp
        · funext f
          have hg := h.numbers g (generation_mem_parts.mp hp)
          exact foldWrite_old_generation hr (hold.2.1 ▸ hg) f
        · funext f
          simp only [Part.texts, mintedTexts, foldWrite_minted hr]
      refine ⟨d, h.dictionary, h.known, h.numbers, fun g f x hx => ?_, ?_,
        foldWrite_generations_lt hr hlt, foldWrite_once h hold hr⟩
      · by_cases hmem : f ∈ info.fieldIds
        · exact hold.2.2.2.1 f hmem
        · refine h.fields g f x ?_
          have hsame := foldWrite_other_fields hr hmem g
          rwa [generationTexts, hsame] at hx
      · refine h.once.regroup h.once.nodup id fun q hq f x hx => ⟨q, hq, ?_, rfl⟩
        rwa [hfiles q hq] at hx
  | written info gs next =>
    rw [hf] at hold
    rw [foldStep_of_written hf, foldSwap, show ({ s.index with fold := .started } :
      SegmentUpdaterState τ).dictionary = s.index.dictionary from rfl, h.dictionary]
    refine ⟨_, rfl, fun id hid => ?_, hold.1, h.fields, hold.2, trivial⟩
    exact h.known id (hid.imp_left mem_of_mem_filter)

/-- **Every such step keeps each text once.** -/
theorem step_once (h : PartsOnce s d) {e : ShardEvent τ} (hclean : RetriesCleanly s e)
    (hstep : ShardStep s e t) : ∃ d', PartsOnce t d' := by
  cases hstep with
  | cut hnew _ => exact ⟨d, cut_once h hnew hclean⟩
  | name hphase => exact name_once h hphase
  | write _ => exact ⟨d, write_once h hclean _ _⟩
  | rewrite hphase => exact ⟨d, rewrite_once h hphase⟩
  | delete hphase => exact ⟨d, delete_once h hphase⟩
  | foldBegin _ => exact ⟨d, h.with_fold trivial⟩
  | foldStep => exact foldStep_once h
  | readMeta => exact ⟨d, h.of_shrinks rfl rfl (fun _ => id) (fun _ => id) (.refl _)
      fun _ _ _ => id⟩
  | refresh hread =>
    rw [refreshSfxDictionary_of_ahead h.dictionary fun info hinfo =>
      hclean _ info d hread hinfo h.dictionary]
    exact ⟨d, h.of_shrinks rfl rfl (fun _ => id) (fun _ => id) (.refl _) fun _ _ _ => id⟩

end Steps

/-! ## Runs -/

theorem PartsOnce.liveParts_eq {s : ShardState τ} {d : SfxDictionary τ} (h : PartsOnce s d) :
    liveParts s = partsOf d.info.generations d.info.pendingSegments := by
  rw [liveParts, liveGenerations, livePending, h.dictionary]
  rfl

/-- **Each text in one part, over whole runs.** From an opened shard whose parts hold each text
once, after every run of such steps no segment is pending twice, and every text of the live
dictionary is held by exactly one of its parts. -/
theorem parts_hold_once {s t : ShardState τ} {events : List (ShardEvent τ)} (hs : Opened s)
    (honce : HeldOnce s.index.directory (liveParts s))
    (hrun : Run (Guarded ShardStep RetriesCleanly) s events t) :
    (livePending t).Nodup ∧ (liveParts t).Nodup ∧
      ∀ f key, (∃ p ∈ liveParts t, p.Holds t.index.directory f key) →
        ∃! p, p ∈ liveParts t ∧ p.Holds t.index.directory f key := by
  obtain ⟨d₀, hd, hparts⟩ := hs.dictionary
  have hstart : PartsOnce s d₀ := by
    have hwait : waiting s = [] := by rw [waiting, hs.phase, hs.uncommitted]; rfl
    refine ⟨hd, ?_, hparts.generations, fun g f x hx => ?_, ?_, by rw [hs.fold]; trivial⟩
    · rintro id (hid | hid)
      · exact hparts.known id hid
      · rw [hs.uncommitted] at hid
        cases hid
    · by_contra hf
      rw [hparts.generationFields g f hf] at hx
      cases hx
    · rw [liveParts, liveGenerations, livePending, hd] at honce
      rw [hwait, append_nil]
      exact honce
  obtain ⟨d, hkept⟩ : ∃ d, PartsOnce t d := by
    refine hrun.invariant (I := fun u => ∃ d, PartsOnce u d) ?_ ⟨_, hstart⟩
    rintro u e v ⟨_, h⟩ hstep
    exact step_once h hstep.1 hstep.2
  have hlive : HeldOnce t.index.directory (liveParts t) := by
    rw [hkept.liveParts_eq]
    exact hkept.once.of_sublist (sublist_append_left _ _) fun _ _ _ => id
  refine ⟨?_, hlive.nodup, ?_⟩
  · have := (nodup_append.mp hlive.nodup).2.1
    exact this.of_map _
  · rintro f key ⟨p, hp, hholds⟩
    exact ⟨p, ⟨hp, hholds⟩, fun q hq => hlive.unique q hq.1 p hp f key hq.2 hholds⟩

/-- A segment with texts and a delete to apply. -/
def deletingSegment : SegmentEntry := ⟨.new 7 10 [0], false, some 3⟩

theorem createdShard_once : HeldOnce createdShard.index.directory (liveParts createdShard) where
  nodup := by decide
  unique p hp := absurd hp not_mem_nil

/-- A commit whose `meta.json` cannot be written is retried, and a fold runs in between. -/
def retriedRun : List (ShardEvent Unit) :=
  [.cut deletingSegment mintedText, .name calmIo, .write { calmIo with saveOk := false } 4 none,
    .foldBegin, .foldStep calmIo, .foldStep calmIo, .foldStep calmIo, .name calmIo]

/-- The fold's generation is then the one part with the text. -/
theorem parts_hold_once_retried :
    ∃ t, Run (Guarded ShardStep RetriesCleanly) createdShard retriedRun t ∧
      liveParts t = [.generation 1] ∧ ∃! p, p ∈ liveParts t ∧ p.Holds t.index.directory 0 () := by
  have hcut : RetriesCleanly createdShard (.cut deletingSegment mintedText) := by
    rintro f x - (g | id) ⟨_, hid⟩
    · exact absurd hid not_mem_nil
    · exact absurd hid not_mem_nil
  have hrun : Run (Guarded ShardStep RetriesCleanly) createdShard retriedRun _ :=
    .snoc (.snoc (.snoc (.snoc (.snoc (.snoc (.snoc (.snoc .nil
      ⟨hcut, .cut (by decide) mintedText_fields⟩)
      ⟨trivial, .name rfl⟩) ⟨fun _ => rfl, .write rfl⟩) ⟨trivial, .foldBegin rfl⟩)
      ⟨trivial, .foldStep⟩) ⟨trivial, .foldStep⟩) ⟨trivial, .foldStep⟩) ⟨trivial, .name rfl⟩
  exact ⟨_, hrun, by decide, (parts_hold_once createdShard_opened createdShard_once hrun).2.2 0 ()
    ⟨.generation 1, by decide, 0, by decide⟩⟩

/-- **A commit that fails between naming and publishing names its pairs twice.** The deletes of
segment 7 cannot be purged, so it stays uncommitted with its pair named; the retry names the
pair again. If a fold took the pair over meanwhile, its text is in a generation and in a pair. -/
theorem retry_names_twice :
    (∃ t, Run ShardStep createdShard [.cut deletingSegment mintedText, .name calmIo,
        .write { calmIo with purge := fun _ => none } 4 none, .name calmIo] t ∧
      livePending t = [7, 7]) ∧
    ∃ t, Run ShardStep createdShard [.cut deletingSegment mintedText, .name calmIo,
        .write { calmIo with purge := fun _ => none } 4 none, .foldBegin, .foldStep calmIo,
        .foldStep calmIo, .foldStep calmIo, .name calmIo] t ∧
      liveParts t = [.generation 1, .pair 7] ∧
      (Part.generation 1).Holds t.index.directory 0 () ∧
        (Part.pair 7).Holds t.index.directory 0 () :=
  ⟨⟨_, .snoc (.snoc (.snoc (.snoc .nil (.cut (by decide) mintedText_fields)) (.name rfl))
      (.write rfl)) (.name rfl), by decide⟩,
    ⟨_, .snoc (.snoc (.snoc (.snoc (.snoc (.snoc (.snoc (.snoc .nil
      (.cut (by decide) mintedText_fields)) (.name rfl)) (.write rfl)) (.foldBegin rfl)) .foldStep)
      .foldStep) .foldStep) (.name rfl), by decide, ⟨0, by decide⟩, ⟨0, by decide⟩⟩⟩

end Lucivy.Indexer
