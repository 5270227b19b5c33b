import Lucivy.Foundation.Results
import Lucivy.Indexer.NamedTexts
import Lucivy.Indexer.Publication

/-! # Every referenced text is accounted for

Segments and open segment writers refer to texts by global id. A committed segment's texts
must stand in a part the live dictionary names; an uncommitted one's, and an open writer's,
may also stand in the pair of an uncommitted segment or still be with the writer that minted
them. Every handler of the updater keeps this.

* `Interned` — what the indexers hold: the open writers, and what each segment refers to.
* `Backed` — where the text of an uncommitted reference may stand.
* `Accounted` — the invariant.
* `handleMergesDone_accounted` and its siblings — the handlers, each by a triple that says what its
  parts leave to one another. -/

namespace Lucivy.Indexer

open Lucivy.Foundation Lucivy.SuffixFst List SegmentRegisters

variable {τ : Type}

/-- A segment being written: the texts its documents refer to, and those it minted. -/
structure OpenWriter (τ : Type) where
  /-- Every text referred to so far. -/
  refs : List (TextRef τ)
  /-- The texts this writer was the first to mint. -/
  minted : List (TextRef τ)

/-- **What the indexers hold**: open writers, and what is known of the segments there have
been. -/
structure Interned (τ : Type) where
  writers : List (OpenWriter τ)
  /-- `.gmap`: the texts a segment refers to. -/
  refs : SegmentId → List (TextRef τ)
  known : List SegmentId
  /-- The segments that come from a merge; a merge mints nothing. -/
  merged : List SegmentId
  merged_known : ∀ id ∈ merged, id ∈ known

/-- **Backed**: the text is in a live part, in the pair of an uncommitted segment, or with the
open writer that minted it. -/
def Backed (c : Interned τ) (s : SegmentUpdaterState τ) (r : TextRef τ) : Prop :=
  LiveNamed s r ∨ (∃ id ∈ s.registers.uncommitted.ids, r.2 ∈ mintedTexts s.directory id r.1) ∨
    ∃ o ∈ c.writers, r ∈ o.minted

/-- Some list of the updater has the segment. -/
inductive Mentioned (s : SegmentUpdaterState τ) (id : SegmentId) : Prop
  | uncommitted : id ∈ s.registers.uncommitted.ids → Mentioned s id
  | committed : id ∈ s.registers.committed.ids → Mentioned s id
  | written : id ∈ s.metaJson.segmentIds → Mentioned s id
  | live : id ∈ livePairs s → Mentioned s id
  | disk {info : SfxDictionaryMeta} : s.metaJson.sfxDictionary = some info →
      id ∈ info.pendingSegments → Mentioned s id
  | inFlight : id ∈ s.inFlight.flatMap MergeBatch.segmentIds → Mentioned s id

/-- The segment refers to nothing and has no pair. -/
def Inert (c : Interned τ) (s : SegmentUpdaterState τ) (id : SegmentId) : Prop :=
  c.refs id = [] ∧ ∀ f, mintedTexts s.directory id f = []

/-- **The invariant.** `held` are the sources of the merges being registered: those in flight
and these are not waiting uncommitted, unless inert. -/
structure Accounted (c : Interned τ) (held : List SegmentId) (s : SegmentUpdaterState τ) :
    Prop where
  /-- The parts, the files and the fold. -/
  parts : ∃ d w, PartsKept s d w
  committed : ∀ id ∈ s.registers.committed.ids, ∀ r ∈ c.refs id, LiveNamed s r
  /-- The segments `meta.json` lists. -/
  written : ∀ id ∈ s.metaJson.segmentIds, ∀ r ∈ c.refs id, DiskNamed s r ∧ LiveNamed s r
  uncommitted : ∀ id ∈ s.registers.uncommitted.ids, ∀ r ∈ c.refs id, Backed c s r
  writers : ∀ o ∈ c.writers, ∀ r ∈ o.refs, Backed c s r
  table : ∀ p ∈ s.dictionaryShared.pending, Backed c s (p.fieldId, p.id, p.key)
  known : ∀ id, Mentioned s id → id ∈ c.known
  /-- A segment that has not been has no pair, and a merged one neither. -/
  pairless : ∀ id, id ∉ c.known ∨ id ∈ c.merged → ∀ f, mintedTexts s.directory id f = []
  /-- The sources of running merges. -/
  inert : ∀ id, id ∈ held ∨ id ∈ s.inFlight.flatMap MergeBatch.segmentIds →
    id ∈ s.registers.uncommitted.ids → Inert c s id

/-- Accounted for, and something more. -/
abbrev AccountedAnd (c : Interned τ) (held : List SegmentId) (P : SegmentUpdaterState τ → Prop)
    (s : SegmentUpdaterState τ) : Prop := Accounted c held s ∧ P s

/-- A program keeps `I`, whether it fails or not. -/
abbrev Steady {α : Type} (I : SegmentUpdaterState τ → Prop) (x : Handler τ α) : Prop :=
  Triple I x (fun _ => I) I

/-- Every uncommitted segment is inert: nothing waits for a commit. -/
def Settled (c : Interned τ) (s : SegmentUpdaterState τ) : Prop :=
  ∀ id ∈ s.registers.uncommitted.ids, Inert c s id

section Keep

variable {c : Interned τ} {held : List SegmentId} {s t : SegmentUpdaterState τ}

section

variable (hgrows : Grows s t)
include hgrows

theorem Inert.grows {id : SegmentId} (h : Inert c s id) : Inert c t id :=
  ⟨h.1, fun f => eq_nil_of_subset_nil (h.2 f ▸ hgrows.files id f)⟩

theorem Backed.grows {r : TextRef τ} (h : Backed c s r) : Backed c t r := by
  rcases h with h | ⟨id, hid, hx⟩ | h
  · exact .inl (hgrows.live r h)
  · refine .inr (.inl ⟨id, ?_, ?_⟩)
    · rwa [hgrows.registers.1]
    · rwa [hgrows.pairs id hid]
  · exact .inr (.inr h)

theorem Settled.grows (h : Settled c s) : Settled c t := by
  intro id hid
  rw [hgrows.registers.1] at hid
  exact (h id hid).grows hgrows

theorem UncommittedNamed.grows (h : UncommittedNamed s) : UncommittedNamed t := by
  intro id hid f x hx
  rw [hgrows.registers.1] at hid
  exact hgrows.live _ (h id hid f x (hgrows.files id f x hx))

end

/-- **A dictionary operation keeps the account.** -/
theorem Accounted.grows (h : Accounted c held s) (hgrows : Grows s t)
    (hparts : ∃ d w, PartsKept t d w) : Accounted c held t := by
  have hjson : t.metaJson = s.metaJson := congrArg Prod.fst hgrows.books
  have hflight : t.inFlight = s.inFlight := congrArg (fun b => b.2.2.2.2) hgrows.books
  refine ⟨hparts, ?_, ?_, ?_, ?_, ?_, ?_, ?_, ?_⟩
  · exact fun id hid r hr => hgrows.live r (h.committed id (hgrows.registers.2 id hid) r hr)
  · intro id hid r hr
    rw [hjson] at hid
    obtain ⟨hdisk, hlive⟩ := h.written id hid r hr
    exact ⟨hgrows.disk r hdisk, hgrows.live r hlive⟩
  · intro id hid r hr
    rw [hgrows.registers.1] at hid
    exact (h.uncommitted id hid r hr).grows hgrows
  · exact fun o ho r hr => (h.writers o ho r hr).grows hgrows
  · exact fun p hp => (h.table p (hgrows.table p hp)).grows hgrows
  · intro id hid
    refine h.known id ?_
    cases hid with
    | uncommitted hid => exact .uncommitted (by rwa [hgrows.registers.1] at hid)
    | committed hid => exact .committed (hgrows.registers.2 id hid)
    | written hid => exact .written (by rwa [hjson] at hid)
    | live hid =>
      rcases hgrows.named id hid with hid | hid
      · exact .live hid
      · exact .uncommitted hid
    | disk hinfo hid => exact .disk (by rwa [hjson] at hinfo) hid
    | inFlight hid => exact .inFlight (by rwa [hflight] at hid)
  · exact fun id hid f => eq_nil_of_subset_nil (h.pairless id hid f ▸ hgrows.files id f)
  · intro id hid hunc
    rw [hflight] at hid
    rw [hgrows.registers.1] at hunc
    exact (h.inert id hid hunc).grows hgrows

/-- When every uncommitted pair is named and no writer is open, what is backed is named. -/
theorem Backed.live {r : TextRef τ} (h : Backed c s r) (hnamed : UncommittedNamed s)
    (hwriters : c.writers = []) : LiveNamed s r := by
  rcases h with h | ⟨id, hid, hx⟩ | ⟨o, ho, -⟩
  · exact h
  · exact hnamed id hid r.1 r.2 hx
  · rw [hwriters] at ho
    cases ho

theorem Settled.uncommittedNamed (h : Settled c s) : UncommittedNamed s := by
  intro id hid f x hx
  rw [(h id hid).2 f] at hx
  cases hx

theorem settled_of_nil (h : s.registers.uncommitted.ids = []) : Settled c s := by
  intro id hid
  rw [h] at hid
  cases hid

/-- The uncommitted segments may be committed: their pairs are named, and so is what they
refer to. -/
def Committable (c : Interned τ) (s : SegmentUpdaterState τ) : Prop :=
  UncommittedNamed s ∧ ∀ id ∈ s.registers.uncommitted.ids, ∀ r ∈ c.refs id, LiveNamed s r

theorem Settled.committable (h : Settled c s) : Committable c s := by
  refine ⟨h.uncommittedNamed, fun id hid r hr => ?_⟩
  rw [(h id hid).1] at hr
  cases hr

/-- What is mentioned stays known when only the registers and the merges change. -/
theorem Accounted.known_of (h : Accounted c held s)
    (hunc : ∀ id ∈ t.registers.uncommitted.ids, id ∈ c.known)
    (hcom : ∀ id ∈ t.registers.committed.ids, id ∈ c.known)
    (hflight : ∀ id ∈ t.inFlight.flatMap MergeBatch.segmentIds, id ∈ c.known)
    (hdict : t.dictionary = s.dictionary) (hjson : t.metaJson = s.metaJson) (id : SegmentId)
    (hid : Mentioned t id) : id ∈ c.known := by
  cases hid with
  | uncommitted hid => exact hunc id hid
  | committed hid => exact hcom id hid
  | written hid => exact h.known id (.written (hjson ▸ hid))
  | live hid => exact h.known id (.live (by rwa [livePairs, hdict] at hid))
  | disk hinfo hid => exact h.known id (.disk (hjson ▸ hinfo) hid)
  | inFlight hid => exact hflight id hid

/-- **The uncommitted register is emptied** while its pairs are named, and what is committed
refers to named texts. -/
theorem Accounted.with_registers (h : Accounted c held s) (hnamed : UncommittedNamed s)
    {r : SegmentRegisters} (hunc : r.uncommitted = .empty)
    (hcom : ∀ id ∈ r.committed.ids, id ∈ c.known ∧ ∀ x ∈ c.refs id, LiveNamed s x) :
    Accounted c held { s with registers := r } := by
  have hnone : ∀ id, id ∉ r.uncommitted.ids := by
    intro id hid
    rw [hunc] at hid
    cases hid
  have hback : ∀ x, Backed c s x → Backed c { s with registers := r } x := by
    rintro x (hx | ⟨id, hid, hx⟩ | hx)
    · exact .inl hx
    · exact .inl (hnamed id hid x.1 x.2 hx)
    · exact .inr (.inr hx)
  obtain ⟨d, w, hd⟩ := h.parts
  refine ⟨⟨d, w, { hd with
    ownFields := fun e he => ?_, disjoint := fun id hid => absurd hid (hnone id) }⟩,
    fun id hid => (hcom id hid).2, h.written,
    fun id hid => absurd hid (hnone id), fun o ho x hx => hback x (h.writers o ho x hx),
    fun p hp => hback _ (h.table p hp), ?_, h.pairless, fun id _ hid => absurd hid (hnone id)⟩
  · exact absurd (SegmentRegister.mem_ids.mpr ⟨e, he, rfl⟩) (hnone e.id)
  · exact h.known_of (fun id hid => absurd hid (hnone id)) (fun id hid => (hcom id hid).1)
      (fun id hid => h.known id (.inFlight hid)) rfl rfl

/-- Other merges are in flight, the sources of others held. -/
theorem Accounted.with_merges (h : Accounted c held s) {inFlight : List MergeBatch}
    {held' : List SegmentId}
    (hknown : ∀ id ∈ inFlight.flatMap MergeBatch.segmentIds, id ∈ c.known)
    (hinert : ∀ id, id ∈ held' ∨ id ∈ inFlight.flatMap MergeBatch.segmentIds →
      id ∈ s.registers.uncommitted.ids → Inert c s id)
    (merging : List SegmentId) (pendingMergeTasks : Bool) :
    Accounted c held' { s with
      inFlight := inFlight, merging := merging, pendingMergeTasks := pendingMergeTasks } := by
  obtain ⟨d, w, hd⟩ := h.parts
  refine { h with parts := ⟨d, w, { hd with }⟩, inert := hinert, known := ?_ }
  exact h.known_of (fun id hid => h.known id (.uncommitted hid))
    (fun id hid => h.known id (.committed hid)) hknown rfl rfl

/-- Releasing merges: fewer batches in flight, the sources of one now held. -/
theorem Accounted.release (h : Accounted c held s) {inFlight : List MergeBatch}
    {held' : List SegmentId}
    (hflight : ∀ id ∈ inFlight.flatMap MergeBatch.segmentIds,
      id ∈ s.inFlight.flatMap MergeBatch.segmentIds)
    (hheld : ∀ id ∈ held', id ∈ held ∨ id ∈ s.inFlight.flatMap MergeBatch.segmentIds)
    (merging : List SegmentId) (pendingMergeTasks : Bool) :
    Accounted c held' { s with
      inFlight := inFlight, merging := merging, pendingMergeTasks := pendingMergeTasks } := by
  refine h.with_merges (fun id hid => h.known id (.inFlight (hflight id hid)))
    (fun id hid => h.inert id ?_) merging pendingMergeTasks
  rcases hid with hid | hid
  · exact hheld id hid
  · exact .inr (hflight id hid)

end Keep

/-! ## The parts of the handlers -/

section Parts

variable {c : Interned τ} {held : List SegmentId} {io : Io}

/-- `SegmentManager::commit` with every entry, once the uncommitted segments may be. -/
theorem purgeAndCommit_accounted (scan : SegmentId → Option DeleteScan) (opstamp : Opstamp) :
    Triple (AccountedAnd c held (Committable c)) (purgeAndCommit scan opstamp : Handler τ Unit)
      (fun _ => AccountedAnd c held (·.registers.uncommitted.ids = [])) (Accounted c held) := by
  refine triple_get_bind fun s ⟨h, hnamed, hrefs⟩ => ?_
  cases hpurge : purgeDeletes scan s.registers opstamp with
  | none => exact triple_throw fun t ht => ht ▸ h
  | some entries =>
    refine ⟨fun u hu a t hrun => ?_, fun u hu e t hrun => by cases hrun⟩
    cases hrun
    refine ⟨h.with_registers hnamed rfl fun id hid => ?_, rfl⟩
    rw [mem_ids_commit, purgeDeletes_ids hpurge, mem_append] at hid
    rcases hid with hid | hid
    · exact ⟨h.known id (.uncommitted hid), hrefs id hid⟩
    · exact ⟨h.known id (.committed hid), h.committed id hid⟩

variable {P : SegmentUpdaterState τ → Prop}

/-- A program that only works on the dictionary keeps the account, with anything else it
keeps. -/
theorem triple_of_grows {α : Type} {x : Handler τ α}
    (h : ∀ s d w, PartsKept s d w → P s → (∃ d' w', PartsKept (finalState x s) d' w') ∧
      Grows s (finalState x s) ∧ P (finalState x s)) :
    Steady (AccountedAnd c held P) x := by
  have hrel : Relates (fun s t => AccountedAnd c held P s → AccountedAnd c held P t) x := by
    rintro s ⟨hs, hp⟩
    obtain ⟨d, w, hd⟩ := hs.parts
    obtain ⟨hparts, hgrows, hafter⟩ := h s d w hd hp
    exact ⟨hs.grows hgrows hparts, hafter⟩
  exact triple_of_relates hrel fun s t hs hst => hst hs

theorem committedSegmentMetas_accounted (hP : ∀ s t, P s → Grows s t → P t) :
    Steady (AccountedAnd c held P) (committedSegmentMetas : Handler τ _) :=
  triple_of_grows fun s d w h hp =>
    ⟨⟨d, w, removeEmpty_kept h⟩, removeEmpty_grows s, hP s _ hp (removeEmpty_grows s)⟩

/-- **`fold_new_texts`**: on success every uncommitted pair is named. -/
theorem foldNewTexts_accounted (hopen : OpensParts io) :
    Triple (Accounted c held) (foldNewTexts io : Handler τ Unit)
      (fun _ => AccountedAnd c held UncommittedNamed) (Accounted c held) := by
  have hname : Triple (Accounted c held) (namePairs io : Handler τ Bool)
      (fun _ => AccountedAnd c held UncommittedNamed) (Accounted c held) := by
    have hkept : ∀ s, Accounted c held s → Accounted c held (finalState (namePairs io) s) ∧
        ∀ b t, (namePairs io).run s = .ok b t → UncommittedNamed t := by
      intro s hs
      obtain ⟨d, w, hd⟩ := hs.parts
      obtain ⟨⟨d', hd'⟩, hgrows, hnamed⟩ := namePairs_kept hd hopen
      exact ⟨hs.grows hgrows ⟨d', w, hd'⟩, hnamed⟩
    refine ⟨fun s hs b t hrun => ?_, fun s hs e t hrun => ?_⟩
    · obtain ⟨hacc, hnamed⟩ := hkept s hs
      exact ⟨finalState_eq_of_ok hrun ▸ hacc, hnamed b t hrun⟩
    · exact finalState_eq_of_error hrun ▸ (hkept s hs).1
  have hfold : Triple (AccountedAnd c held UncommittedNamed) (foldOrStart io : Handler τ Unit)
      (fun _ => AccountedAnd c held UncommittedNamed) (Accounted c held) := by
    refine (triple_of_grows fun s d w h hp => ?_).mono_error fun _ h => h.1
    obtain ⟨⟨d', hd'⟩, hgrows⟩ := foldOrStart_kept h hopen
    exact ⟨⟨d', w, hd'⟩, hgrows, UncommittedNamed.grows hgrows hp⟩
  refine triple_get_bind fun s hs => triple_ite (fun hnone => ?_) fun _ => ?_
  · -- an index with a shard dictionary holds one
    obtain ⟨d, w, hd⟩ := hs.parts
    rw [hd.live] at hnone
    cases hnone
  · refine (triple_bind hname fun b => triple_ite (fun _ => hfold) fun _ => ?_).mono_pre
      fun t ht => ht ▸ hs
    exact triple_pure fun _ => id

/-- **`save_metas`**: on success the live parts are on disk. -/
theorem saveMetas_accounted (hP : ∀ s t, P s → t.registers.uncommitted = s.registers.uncommitted →
      t.directory = s.directory → P t) (opstamp : Opstamp) (payload : Option String) :
    Triple (AccountedAnd c held P) (saveMetas io opstamp payload : Handler τ Unit)
      (fun _ => AccountedAnd c held fun s => Synced s ∧ P s) (AccountedAnd c held P) := by
  refine ⟨fun s ⟨h, hp⟩ _ t hrun => ?_, fun s ⟨h, hp⟩ e t hrun => ?_⟩
  · obtain ⟨d, w, hd⟩ := h.parts
    obtain ⟨hkept, hdisk, hsync, ht, hids⟩ := saveMetas_kept hd io opstamp payload hrun
    have hg := removeEmpty_grows s
    have hr := h.grows hg ⟨d, w, removeEmpty_kept hd⟩
    rw [ht] at hkept hdisk hsync hids ⊢
    have hinfo := hkept.onDisk hsync
    refine ⟨⟨⟨d, _, hkept⟩, hr.committed, fun id hid r hx => ?_, hr.uncommitted, hr.writers,
      hr.table, fun id hid => ?_, hr.pairless, hr.inert⟩, hsync, hP s _ hp rfl rfl⟩
    · have hlive := hr.committed id ((hids id).mp hid) r hx
      exact ⟨(hdisk r).mpr hlive, hlive⟩
    · cases hid with
      | uncommitted hid => exact hr.known id (.uncommitted hid)
      | committed hid => exact hr.known id (.committed hid)
      | written hid => exact hr.known id (.committed ((hids id).mp hid))
      | live hid => exact hr.known id (.live hid)
      | disk hinfo' hid =>
        rw [hinfo] at hinfo'
        cases hinfo'
        have hlive : id ∈ livePairs s := by
          rw [livePairs_eq hd.live]
          exact hid
        exact h.known id (.live hlive)
      | inFlight hid => exact hr.known id (.inFlight hid)
  · have hg := removeEmpty_grows s
    obtain ⟨d, w, hd⟩ := h.parts
    rw [saveMetas_run] at hrun
    cases hok : io.saveOk with
    | true =>
      rw [hok] at hrun
      cases hrun
    | false =>
      rw [hok] at hrun
      cases hrun
      exact ⟨h.grows hg ⟨d, w, removeEmpty_kept hd⟩, hP s _ hp rfl rfl⟩

section

variable (hP : ∀ s t, P s → Grows s t → P t)
include hP

/-- Garbage collection and the deletion of consumed pairs, with the live parts on disk. -/
theorem triple_of_synced {α : Type} {x : Handler τ α} (h : ∀ s d w, PartsKept s d w → Synced s →
      PartsKept (finalState x s) d w ∧ Grows s (finalState x s)) :
    Steady (AccountedAnd c held fun s => Synced s ∧ P s) x := by
  refine triple_of_grows fun s d w hd ⟨hsync, hp⟩ => ?_
  obtain ⟨hparts, hgrows⟩ := h s d w hd hsync
  have hjson : (finalState x s).metaJson = s.metaJson := congrArg Prod.fst hgrows.books
  exact ⟨⟨d, w, hparts⟩, hgrows, ⟨d, w, hparts.live, by rw [hjson, hd.onDisk hsync],
    hd.synced hsync⟩, hP s _ hp hgrows⟩

theorem garbageCollectFiles_accounted :
    Steady (AccountedAnd c held fun s => Synced s ∧ P s)
      (garbageCollectFiles io : Handler τ Unit) :=
  triple_of_synced hP fun _ _ _ h hs => garbageCollectFiles_kept h hs io

theorem deleteConsumedPairs_accounted :
    Steady (AccountedAnd c held fun s => Synced s ∧ P s)
      (deleteConsumedPairs io : Handler τ Unit) :=
  triple_of_synced hP fun _ _ _ h hs => deleteConsumedPairs_kept h hs io

end

end Parts

/-! ## Starting merges -/

section Merges

variable {c : Interned τ} {held : List SegmentId} {io : Io}

/-- A program that keeps registers and dictionary keeps any account. -/
theorem triple_of_outside {α : Type} {x : Handler τ α} {P : SegmentUpdaterState τ → Prop}
    (h : ∀ s, finalState x s = s) : Steady P x :=
  triple_of_relates (S := fun s t => t = s) h fun _ _ hs ht => ht ▸ hs

theorem refuseIfMerging_same (ids : List SegmentId) (s : SegmentUpdaterState τ) :
    finalState (refuseIfMerging ids) s = s := by
  rw [finalState, refuseIfMerging, run_get_bind]
  split_ifs <;> rfl

theorem loadMeta_same (s : SegmentUpdaterState τ) : finalState (loadMeta : Handler τ _) s = s := rfl

/-- The merges that start are merges of registered segments. -/
theorem startMerges_registered {ops : List MergeOperation} {P : SegmentUpdaterState τ → Prop} :
    Triple P (startMerges ops : Handler τ Unit)
      (fun _ s => P s ∧ ∀ op ∈ ops, ∀ id ∈ op.segmentIds,
        id ∈ s.registers.uncommitted.ids ∨ id ∈ s.registers.committed.ids) P := by
  refine triple_get_bind fun s hs => ?_
  cases hmap : ops.mapM fun op => s.registers.startMerge op.segmentIds with
  | error e => exact triple_throw fun t ht => ht ▸ hs
  | ok entries =>
    refine triple_pure fun t ht => ht ▸ ⟨hs, fun op hop id hid => ?_⟩
    obtain ⟨_, -, hstart⟩ := (mapM_ok_mem hmap).1 op hop
    unfold startMerge at hstart
    split_ifs at hstart with hu hc
    · exact .inl (SegmentRegister.containsAll_iff.mp hu id hid)
    · exact .inr (SegmentRegister.containsAll_iff.mp hc id hid)

/-- **`handle_start_merges`**, with nothing waiting for a commit. -/
theorem startMerges_accounted (scan : SegmentId → Option DeleteScan) (ops : List MergeOperation) :
    Triple (AccountedAnd c held (Settled c)) (handleStartMerges scan ops : Handler τ Unit)
      (fun _ => Accounted c held) (Accounted c held) := by
  refine triple_bind ((triple_of_outside loadMeta_same).mono_error fun _ h => h.1) fun info => ?_
  refine triple_bind ((purgeAndCommit_accounted scan info.opstamp).mono_pre
    fun s h => ⟨h.1, h.2.committable⟩) fun _ => ?_
  refine triple_bind ((triple_of_outside (refuseIfMerging_same _)).mono_error fun _ h => h.1)
    fun _ => ?_
  refine triple_bind (startMerges_registered.mono_error fun _ h => h.1) fun _ => ?_
  refine triple_modify fun s ⟨⟨h, hnil⟩, hreg⟩ => h.with_merges (fun id hid => ?_)
    (fun id _ hunc => absurd hunc (by rw [hnil]; exact not_mem_nil)) _ _
  rw [flatMap_append, mem_append] at hid
  rcases hid with hid | hid
  · exact h.known id (.inFlight hid)
  · obtain ⟨b, hb, hid⟩ := mem_flatMap.mp hid
    rw [mem_singleton.mp hb] at hid
    obtain ⟨op, hop, hid⟩ := mem_flatMap.mp hid
    rcases hreg op hop id hid with hid | hid
    · exact h.known id (.uncommitted hid)
    · exact h.known id (.committed hid)

/-- Accounted for, with nothing waiting for a commit or `P`. -/
abbrev SettledOr (c : Interned τ) (held : List SegmentId) (P : Prop) :
    SegmentUpdaterState τ → Prop :=
  AccountedAnd c held fun s => P ∨ Settled c s

/-- The policy proposes no merge. -/
def PolicySilent (io : Io) : Prop :=
  ∀ metas, ∀ candidate ∈ io.policy metas, candidate.length ≤ 1

/-- **`policy_merges`**, with nothing waiting, or nothing proposed. -/
theorem policyMerges_accounted (opstamp : Opstamp) :
    Triple (fun s => Accounted c held s ∧ (Settled c s ∨ PolicySilent io))
      (policyMerges io opstamp : Handler τ Bool) (fun _ => Accounted c held)
      (Accounted c held) := by
  refine triple_bind ((committedSegmentMetas_accounted
    (fun s t h hg => h.imp_left fun h => h.grows hg)).mono_error fun _ h => h.1) fun _ => ?_
  refine triple_get_bind fun s ⟨h, hor⟩ => triple_ite (fun _ => ?_) fun hops => ?_
  · exact triple_pure fun t ht => ht ▸ h
  · rcases hor with hset | hsilent
    · refine triple_bind ((startMerges_accounted io.policyPurge _).mono_pre
        fun t ht => ht ▸ ⟨h, hset⟩) fun _ => ?_
      exact triple_pure fun _ => id
    · -- a silent policy plans nothing
      refine absurd ?_ hops
      rw [policyOps, map_eq_nil_iff, filter_eq_nil_iff]
      intro candidate hc
      have := hsilent _ candidate hc
      simpa using this

/-- A merged segment: known as one, and it refers only to what its sources refer to. -/
def MergedFrom (c : Interned τ) (op : MergeOperation) (entry : Option SegmentEntry) : Prop :=
  ∀ e, entry = some e → e.id ∈ c.known ∧ e.id ∈ c.merged ∧
    ∀ r ∈ c.refs e.id, ∃ id ∈ op.segmentIds, r ∈ c.refs id

variable {after : Option SegmentEntry} {op : MergeOperation}

/-- What `replaceIn` leaves in the register: what was there and is no source. -/
theorem mem_ids_replaceIn_of_mem {r : SegmentRegister} {before : List SegmentId} {id : SegmentId}
    (hid : id ∈ r.ids) (hb : id ∉ before) :
    id ∈ (replaceIn r before after).ids := by
  have hkept : id ∈ (before.foldl SegmentRegister.removeSegment r).ids :=
    SegmentRegister.mem_ids_foldl_removeSegment.mpr ⟨hid, hb⟩
  cases after with
  | none => exact hkept
  | some e => exact SegmentRegister.mem_ids_addSegmentEntry.mpr (.inl hkept)

/-- The entries of `replaceIn`: old ones, and the merged one. -/
theorem mem_entries_replaceIn {r : SegmentRegister} {before : List SegmentId} {e : SegmentEntry}
    (he : e ∈ (replaceIn r before after).entries) :
    e ∈ r.entries ∨ after = some e := by
  have hfold : e ∈ (before.foldl SegmentRegister.removeSegment r).entries → e ∈ r.entries :=
    foldlRecOn (motive := fun r' : SegmentRegister => e ∈ r'.entries → e ∈ r.entries) before _ id
      fun _ ih _ _ h => ih (mem_filter.mp h).1
  cases after with
  | none => exact .inl (hfold he)
  | some a =>
    rcases mem_append.mp he with he | he
    · exact .inl (hfold (mem_filter.mp he).1)
    · exact .inr (by rw [mem_singleton.mp he])

/-- A merged segment replaces its sources in the uncommitted register: they were inert, and
so is it. -/
theorem Accounted.merge_uncommitted {s t : SegmentUpdaterState τ} (h : Accounted c held s)
    (hheld : ∀ id ∈ op.segmentIds, id ∈ held) (hmerged : MergedFrom c op after)
    (hsub : ∀ id ∈ op.segmentIds, id ∈ s.registers.uncommitted.ids)
    (ht : t = { s with registers := { s.registers with
      uncommitted := replaceIn s.registers.uncommitted op.segmentIds after } }) :
    Accounted c held t ∧ (Settled c s → Settled c t) := by
  have hsources : ∀ id ∈ op.segmentIds, Inert c s id :=
    fun id hid => h.inert id (.inl (hheld id hid)) (hsub id hid)
  have hafter : ∀ e, after = some e → Inert c s e.id := by
    intro e he
    obtain ⟨-, hm, hrefs⟩ := hmerged e he
    refine ⟨eq_nil_iff_forall_not_mem.mpr fun r hr => ?_, h.pairless e.id (.inr hm)⟩
    obtain ⟨id, hid, hr⟩ := hrefs r hr
    rw [(hsources id hid).1] at hr
    cases hr
  have hids : ∀ id ∈ t.registers.uncommitted.ids,
      id ∈ s.registers.uncommitted.ids ∨ Inert c s id := by
    intro id hid
    rw [ht] at hid
    rcases mem_ids_replaceIn hid with hid | ⟨e, he, rfl⟩
    · exact .inl hid
    · exact .inr (hafter e he)
  have hback : ∀ r, Backed c s r → Backed c t r := by
    rw [ht]
    rintro r (hr | ⟨id, hid, hx⟩ | hr)
    · exact .inl hr
    · refine .inr (.inl ⟨id, mem_ids_replaceIn_of_mem hid fun hb => ?_, hx⟩)
      rw [(hsources id hb).2 r.1] at hx
      cases hx
    · exact .inr (.inr hr)
  subst ht
  obtain ⟨d, w, hd⟩ := h.parts
  refine ⟨⟨⟨d, w, { hd with
    ownFields := fun e he f hne => ?_, disjoint := fun id hunc hcom => ?_ }⟩,
    h.committed, h.written, fun id hid r hr => ?_,
    fun o ho r hr => hback r (h.writers o ho r hr), fun p hp => hback _ (h.table p hp),
    ?_, h.pairless, fun id hid hunc => ?_⟩, fun hset id hid => ?_⟩
  · rcases mem_entries_replaceIn he with he | he
    · exact hd.ownFields e he f hne
    · exact absurd ((hafter e he).2 f) hne
  · rcases hids id hunc with hid | hinert
    · exact hd.disjoint id hid hcom
    · exact hinert.2
  · rcases hids id hid with hid | hinert
    · exact hback r (h.uncommitted id hid r hr)
    · rw [hinert.1] at hr
      cases hr
  · refine h.known_of (fun id hid => ?_) (fun id hid => h.known id (.committed hid))
      (fun id hid => h.known id (.inFlight hid)) rfl rfl
    rcases mem_ids_replaceIn hid with hid | ⟨e, he, rfl⟩
    · exact h.known id (.uncommitted hid)
    · exact (hmerged e he).1
  · rcases hids id hunc with hunc | hinert
    · exact h.inert id hid hunc
    · exact hinert
  · rcases hids id hid with hid | hinert
    · exact hset id hid
    · exact hinert

/-- A merged segment replaces its sources in the committed register: it refers to what they
referred to. -/
theorem Accounted.merge_committed {s : SegmentUpdaterState τ} (h : Accounted c held s)
    (hmerged : MergedFrom c op after)
    (hsub : ∀ id ∈ op.segmentIds, id ∈ s.registers.committed.ids) :
    Accounted c held { s with registers := { s.registers with
      committed := replaceIn s.registers.committed op.segmentIds after } } := by
  obtain ⟨d, w, hd⟩ := h.parts
  refine { h with
    parts := ⟨d, w, { hd with disjoint := fun id hunc hcom => ?_ }⟩
    committed := fun id hid r hr => ?_
    known := ?_ }
  · rcases mem_ids_replaceIn hcom with hcom | ⟨e, he, rfl⟩
    · exact hd.disjoint id hunc hcom
    · exact h.pairless e.id (.inr (hmerged e he).2.1)
  · rcases mem_ids_replaceIn hid with hid | ⟨e, he, rfl⟩
    · exact h.committed id hid r hr
    · obtain ⟨src, hsrc, hr⟩ := (hmerged e he).2.2 r hr
      exact h.committed src (hsub src hsrc) r hr
  · refine h.known_of (fun id hid => h.known id (.uncommitted hid)) (fun id hid => ?_)
      (fun id hid => h.known id (.inFlight hid)) rfl rfl
    rcases mem_ids_replaceIn hid with hid | ⟨e, he, rfl⟩
    · exact h.known id (.committed hid)
    · exact (hmerged e he).1

/-- **`register_merge_result`.** -/
theorem registerMergeResult_accounted (io : Io) (P : Prop) {entry : Option SegmentEntry}
    (hheld : ∀ id ∈ op.segmentIds, id ∈ held) (hmerged : MergedFrom c op entry) :
    Steady (SettledOr c held P) (registerMergeResult io op entry : Handler τ Unit) := by
  refine triple_get_bind fun s ⟨h, hset⟩ => ?_
  cases hafter : entry.mapM (catchUpDeletes io s.activeIndexMeta.opstamp) with
  | none => exact triple_throw fun t ht => ht ▸ ⟨h, hset⟩
  | some after =>
    have hmerged' : MergedFrom c op after := by
      rintro a rfl
      obtain ⟨e, he, hid⟩ := exists_entry_of_catchUp hafter
      rw [hid]
      exact hmerged e he
    dsimp only
    cases hend : s.registers.endMerge op.segmentIds after with
    | error e => exact triple_throw fun t ht => ht ▸ ⟨h, hset⟩
    | ok registers =>
      refine ⟨fun u hu a t hrun => ?_, fun u hu e t hrun => by cases hrun⟩
      cases hrun
      rcases endMerge_ok hend with ⟨hsub, rfl⟩ | ⟨hsub, rfl⟩
      · obtain ⟨hacc, hset'⟩ := h.merge_uncommitted hheld hmerged' hsub rfl
        exact ⟨hacc, hset.imp_right hset'⟩
      · exact ⟨h.merge_committed hmerged' hsub, hset⟩

end Merges

/-! ## The handlers -/

section Handlers

variable {c : Interned τ} {held : List SegmentId} {io : Io}

/-- Nothing waits for a commit, or `P`: what a handler carries along for its last part. -/
theorem settledOr_grows {P : Prop} {s t : SegmentUpdaterState τ} (h : P ∨ Settled c s)
    (hg : Grows s t) : P ∨ Settled c t :=
  h.imp_right fun h => h.grows hg

theorem settledOr_saved {P : Prop} {s t : SegmentUpdaterState τ} (h : P ∨ Settled c s)
    (hunc : t.registers.uncommitted = s.registers.uncommitted)
    (hdir : t.directory = s.directory) : P ∨ Settled c t := by
  refine h.imp_right fun h id hid => ?_
  rw [hunc] at hid
  obtain ⟨hrefs, hpairs⟩ := h id hid
  exact ⟨hrefs, fun f => by rw [hdir]; exact hpairs f⟩

/-- Writing `meta.json` and collecting garbage. -/
theorem saveAndCollect_accounted {P : Prop} (opstamp : Opstamp) (payload : Option String) :
    Triple (SettledOr c held P)
      (do saveMetas io opstamp payload; garbageCollectFiles io : Handler τ Unit)
      (fun _ s => Accounted c held s ∧ Synced s ∧ (P ∨ Settled c s)) (SettledOr c held P) :=
  triple_bind (saveMetas_accounted (fun _ _ => settledOr_saved) opstamp payload) fun _ =>
    (garbageCollectFiles_accounted fun _ _ => settledOr_grows).mono_error fun _ h => ⟨h.1, h.2.2⟩

theorem accounted_nil {s : SegmentUpdaterState τ} (h : Accounted c held s) : Accounted c [] s :=
  h.release (fun _ hid => hid) (fun _ hid => by cases hid) s.merging s.pendingMergeTasks

/-- With nothing waiting for a commit, any segments may be held. -/
theorem Accounted.hold {s : SegmentUpdaterState τ} (h : Accounted c [] s)
    (hset : Settled c s) (held : List SegmentId) : Accounted c held s :=
  h.with_merges (fun id hid => h.known id (.inFlight hid)) (fun id _ => hset id) s.merging
    s.pendingMergeTasks

/-- **`handle_commit`**, after every writer was flushed. -/
theorem commit_accounted (hopen : OpensParts io) (hwriters : c.writers = [])
    (opstamp : Opstamp) (payload : Option String) :
    Triple (Accounted c []) (handleCommit io opstamp payload : Handler τ Unit)
      (fun _ => Accounted c []) (Accounted c []) := by
  refine triple_bind (foldNewTexts_accounted hopen) fun _ => ?_
  refine triple_bind (Q := fun _ s => Accounted c [] s ∧ Synced s ∧ (False ∨ Settled c s)) ?_
    fun _ => ?_
  · -- the commit graph: all is named, so all may be committed
    have hprepare : Triple (AccountedAnd c [] UncommittedNamed)
        (prepareNode io [] opstamp : Handler τ Unit) (fun _ => SettledOr c [] False)
        (Accounted c []) := by
      refine triple_bind ((purgeAndCommit_accounted io.purge opstamp).mono_pre
        fun s ⟨h, hn⟩ => ⟨h, hn, fun id hid r hr => (h.uncommitted id hid r hr).live hn hwriters⟩)
        fun _ => ?_
      exact startMerges_registered.mono (fun _ => id)
        (fun _ _ h => ⟨h.1.1, .inr (settled_of_nil h.1.2)⟩) fun _ h => h.1
    exact triple_bind hprepare fun _ =>
      (saveAndCollect_accounted opstamp payload).mono_error fun _ h => h.1
  · refine triple_bind ((deleteConsumedPairs_accounted fun _ _ => settledOr_grows).mono_error
      fun _ h => h.1) fun _ => ?_
    refine triple_bind ((policyMerges_accounted opstamp).mono_pre
      fun s h => ⟨h.1, .inl (h.2.2.resolve_left id)⟩) fun _ => ?_
    exact triple_pure fun _ => id

/-- The results of a batch, registered one after the other. -/
theorem registerMergeResults_accounted {P : Prop} (results : List (MergeOperation × TaskResult))
    (hheld : ∀ p ∈ results, ∀ id ∈ p.1.segmentIds, id ∈ held)
    (hmerged : ∀ op entry, (op, TaskResult.merged entry) ∈ results → MergedFrom c op entry)
    {E : SegmentUpdaterState τ → Prop} :
    Triple (SettledOr c held P) (registerMergeResults io results : Handler τ Bool)
      (fun _ => SettledOr c held P) E := by
  induction results with
  | nil => exact triple_pure fun _ => id
  | cons first rest ih =>
    have hrest := ih (forall_mem_cons.mp hheld).2
      fun op entry hp => hmerged op entry (mem_cons_of_mem _ hp)
    obtain ⟨op, result⟩ := first
    cases result with
    | failed => exact triple_bind hrest fun _ => triple_pure fun _ => id
    | merged entry =>
      have hone := registerMergeResult_accounted io P (hheld (op, .merged entry) mem_cons_self)
        (hmerged op entry mem_cons_self)
      have htry : Triple (SettledOr c held P)
          (attempt (registerMergeResult io op entry) : Handler τ _)
          (fun _ => SettledOr c held P) E := by
        refine (triple_attempt hone).mono (fun _ => id) (fun r s h => ?_) fun _ => id
        cases r with
        | ok a => exact h.1 a rfl
        | error e => exact h.2 e rfl
      exact triple_bind htry fun _ => triple_bind hrest fun _ => triple_pure fun _ => id

/-- **`handle_merges_done`** for a batch whose sources are held, with nothing waiting for a
commit or a policy that proposes nothing. -/
theorem handleMergesDone_accounted (batch : MergeBatch) (results : Nat → TaskResult)
    (hheld : batch.segmentIds = held)
    (hmerged : ∀ op entry,
      (op, TaskResult.merged entry) ∈ (batch.ops.zipIdx.map fun (op, i) => (op, results i)) →
        MergedFrom c op entry) :
    Triple (SettledOr c held (PolicySilent io)) (handleMergesDone io batch results : Handler τ Unit)
      (fun _ => Accounted c held) (Accounted c held) := by
  have hops : ∀ p ∈ (batch.ops.zipIdx.map fun (op, i) => (op, results i)),
      ∀ id ∈ p.1.segmentIds, id ∈ held := by
    intro p hp id hid
    obtain ⟨⟨op, i⟩, hop, rfl⟩ := mem_map.mp hp
    rw [← hheld]
    exact mem_flatMap.mpr ⟨op, (mem_zipIdx hop).2.2 ▸ getElem_mem _, hid⟩
  have hinner : Steady (SettledOr c held (PolicySilent io))
      (mergesDoneInner io batch results : Handler τ Unit) := by
    refine triple_bind (registerMergeResults_accounted _ hops hmerged) fun registered => ?_
    refine triple_ite (fun _ => ?_) fun _ => triple_throw fun _ => id
    exact (saveAndCollect_accounted batch.opstamp batch.payload).mono (fun _ => id)
      (fun _ _ h => ⟨h.1, h.2.2⟩) fun _ => id
  have hflag : ∀ (b : Bool) (s : SegmentUpdaterState τ), Accounted c held s →
      Accounted c held { s with pendingMergeTasks := b } :=
    fun b s h => h.release (fun _ => id) (fun _ hid => .inl hid) s.merging b
  refine triple_bind (Q := fun _ => SettledOr c held (PolicySilent io))
    (triple_modify fun s h => ⟨h.1.release (fun _ => id) (fun _ hid => .inl hid) _
      s.pendingMergeTasks, h.2⟩) fun _ => ?_
  refine triple_bind (triple_attempt hinner) fun outcome => ?_
  cases outcome with
  | error e =>
    exact triple_bind (Q := fun _ => Accounted c held)
      (triple_modify fun s h => hflag false s (h.2 e rfl).1) fun _ => triple_throw fun _ => id
  | ok a =>
    refine triple_bind ((policyMerges_accounted batch.opstamp).mono_pre
      fun s h => ⟨(h.1 a rfl).1, (h.1 a rfl).2.symm⟩) fun stillPending => ?_
    exact triple_ite (fun _ => triple_pure fun _ => id)
      fun _ => triple_modify fun s h => hflag false s h

/-- **`handle_merge`**, with nothing waiting for a commit, or refused. -/
theorem merge_accounted (op : MergeOperation) (result : TaskResult)
    (hmerged : ∀ entry, result = .merged entry → MergedFrom c op entry) :
    Triple (fun s => Accounted c [] s ∧ (op.segmentIds.any (· ∈ s.merging) = true ∨ Settled c s))
      (handleMerge io op result : Handler τ Unit) (fun _ => Accounted c [])
      (Accounted c []) := by
  refine triple_bind (Q := fun _ => AccountedAnd c [] (Settled c)) ?_ fun _ => ?_
  · refine triple_get_bind fun s ⟨h, hor⟩ => triple_ite (fun _ => triple_throw fun t ht => ht ▸ h)
      fun hfree => ?_
    exact triple_pure fun t ht => ht ▸ ⟨h, hor.resolve_left hfree⟩
  refine triple_bind ((triple_of_outside loadMeta_same).mono_error fun _ h => h.1) fun info => ?_
  refine triple_bind (Q := fun _ => SettledOr c op.segmentIds False) ?_ fun _ => ?_
  · refine triple_bind ((purgeAndCommit_accounted io.purge info.opstamp).mono_pre
    fun s h => ⟨h.1, h.2.committable⟩) fun _ => ?_
    exact startMerges_registered.mono (fun _ => id)
      (fun _ _ h => ⟨h.1.1.hold (settled_of_nil h.1.2) _, .inr (settled_of_nil h.1.2)⟩)
      fun _ h => h.1
  cases result with
  | failed => exact triple_throw fun _ h => accounted_nil h.1
  | merged entry =>
    refine triple_bind ((registerMergeResult_accounted io False (fun _ => id)
      (hmerged entry rfl)).mono_error fun _ h => accounted_nil h.1)
      fun _ => ?_
    exact (saveAndCollect_accounted info.opstamp info.payload).mono (fun _ => id)
      (fun _ _ h => accounted_nil h.1) fun _ h => accounted_nil h.1

/-- The handler of `SuCompactMsg`, with nothing waiting for a commit or nothing planned. -/
theorem compact_accounted (maxDocs : Nat) :
    Triple (fun s => Accounted c [] s ∧ (compactOps maxDocs s = [] ∨ Settled c s))
      (handleCompact io maxDocs : Handler τ Unit) (fun _ => Accounted c [])
      (Accounted c []) := by
  refine triple_bind (Q := fun _ s => Accounted c [] s ∧ (compactOps maxDocs s = [] ∨ Settled c s))
    ⟨fun s ⟨h, hor⟩ a t hrun => ?_, fun s _ e t hrun => by cases hrun⟩ fun _ => ?_
  · -- the plan is made after the empty segments are dropped, and is the same
    cases hrun
    obtain ⟨d, w, hd⟩ := h.parts
    refine ⟨h.grows (removeEmpty_grows s) ⟨d, w, removeEmpty_kept hd⟩, ?_⟩
    exact hor.imp (fun hn => (compactOps_removeEmptySegments maxDocs s).trans hn)
      fun hset => hset.grows (removeEmpty_grows s)
  · refine triple_get_bind fun s ⟨h, hor⟩ => triple_ite (fun _ => triple_pure fun t ht => ht ▸ h)
      fun hops => ?_
    exact (startMerges_accounted io.purge _).mono_pre fun t ht => ht ▸ ⟨h, hor.resolve_left hops⟩

/-- The handler of `SuDictionaryFoldedMsg`. -/
theorem folded_accounted :
    Triple (Accounted c []) (handleDictionaryFolded io : Handler τ Unit)
      (fun _ => Accounted c []) (Accounted c []) := by
  refine triple_bind (triple_of_outside loadMeta_same) fun info => ?_
  refine triple_bind ((saveMetas_accounted (P := fun _ => True) (fun _ _ _ _ _ => trivial)
    info.opstamp info.payload).mono (fun _ h => ⟨h, trivial⟩) (fun _ _ => id) fun _ h => h.1)
    fun _ => ?_
  refine triple_bind ((deleteConsumedPairs_accounted fun _ _ _ _ => trivial).mono_error
    fun _ h => h.1) fun _ => ?_
  exact (garbageCollectFiles_accounted fun _ _ _ _ => trivial).mono (fun _ => id)
    (fun _ _ h => h.1) fun _ h => h.1

end Handlers

end Lucivy.Indexer
