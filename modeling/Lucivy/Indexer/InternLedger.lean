import Lucivy.Indexer.Interning

/-! # The texts an index knows

The *known* texts of a shard are those of the dictionary named last, of the cut pairs and of the
open segments. `Ledger` says what holds of them whatever the calls under way do: keys and ids
belong together one to one, the pending table is part of them, and a text no dictionary names is
pending, in an epoch that the commit under way does not forget.

* `known_minting`, `Ledger.minting` — a text more.
* `known_cutAt`, `Ledger.cutAt` — a segment is cut.
* `known_name` — the cut segments are named. -/

namespace Lucivy.Indexer

open List

open Lucivy.SuffixFst

variable {τ : Type}

namespace InternState

/-! ## The known texts -/

/-- The texts a dictionary's parts hold for a field. -/
def dictTexts (d : SfxDictionary τ) (f : FieldId) : Texts τ := (d.fields f).flatten

/-- The dictionary named last: the one a commit has open, or the live one. -/
def latest (s : InternState τ) : SfxDictionary τ :=
  match s.naming with
  | .forgetting d _ _ => d
  | _ => s.live

/-- The minted texts no dictionary names: those of a thread's open segment, or of the cut ones. -/
def unnamed (s : InternState τ) : Option Nat → MintedTexts τ
  | none => s.pairs.flatMap Prod.snd
  | some c => s.minted c

/-- **A known text**: some dictionary, pair or open segment has it under this id. -/
def Known (s : InternState τ) (f : FieldId) (x : GlobalId × τ) : Prop :=
  x ∈ dictTexts s.latest f ∨ ∃ o, (f, x) ∈ s.unnamed o

/-- A key that is pending. -/
def Pending (s : InternState τ) (f : FieldId) (key : τ) : Prop :=
  ∃ p ∈ s.shared.pending, p.fieldId = f ∧ p.key = key

/-- The epoch before which the texts of an open segment, or of the cut ones, cannot have been
minted: once a thread has flushed, its segment began in the commit's epoch. -/
def oldest (s : InternState τ) (o : Option Nat) : Nat :=
  match s.naming, o with
  | .idle, _ => 0
  | .flushing _, none => 0
  | .flushing todo, some c => if c ∈ todo then 0 else s.shared.epoch
  | .forgetting _ epoch _, _ => epoch

/-- Keys and ids belong together one to one, and the counter is past every id. -/
structure OneToOne (known : FieldId → GlobalId × τ → Prop) (nextIds : FieldId → GlobalId) :
    Prop where
  /-- A key has one id. -/
  key : ∀ f x y, known f x → known f y → x.2 = y.2 → x.1 = y.1
  /-- An id has one key. -/
  id : ∀ f x y, known f x → known f y → x.1 = y.1 → x.2 = y.2
  /-- The counter is past it. -/
  lt : ∀ f x, known f x → x.1 < nextIds f

variable {f : FieldId} {x : GlobalId × τ} {nextIds : FieldId → GlobalId} {c : Nat}
  {call : InternCall τ} {segment : SegmentId}

theorem mem_textsOf {minted : MintedTexts τ} : x ∈ textsOf f minted ↔ (f, x) ∈ minted := by
  simp [textsOf]

/-- The parts of a dictionary that was given pairs: its own texts and theirs. -/
theorem mem_dictTexts_nameInto {d : SfxDictionary τ} {pairs : List (SegmentId × MintedTexts τ)} :
    x ∈ dictTexts (nameInto d nextIds pairs) f ↔
      x ∈ dictTexts d f ∨ (f, x) ∈ pairs.flatMap Prod.snd := by
  have hpairs : x ∈ ((pairs.map fun p => textsOf f p.2).filter (· ≠ [])).flatten ↔
      (f, x) ∈ pairs.flatMap Prod.snd := by
    rw [flatten_filter_ne_nil, ← flatMap_def]
    simp only [mem_flatMap, mem_textsOf]
  rw [dictTexts, nameInto, flatten_append, mem_append, hpairs, dictTexts]

/-- A fold changes no text. -/
theorem mem_dictTexts_folded {d d' : SfxDictionary τ} (h : SameTexts d d') :
    x ∈ dictTexts (folded d d') f ↔ x ∈ dictTexts d f := by
  rw [dictTexts, dictTexts, folded]
  dsimp only
  split
  · next hf => exact (h.2 f hf).mem_iff
  · exact Iff.rfl

theorem OneToOne.congr {known known' : FieldId → GlobalId × τ → Prop} (h : OneToOne known nextIds)
    (hiff : ∀ f x, known' f x ↔ known f x) : OneToOne known' nextIds where
  key f x y hx hy := h.key f x y ((hiff f x).mp hx) ((hiff f y).mp hy)
  id f x y hx hy := h.id f x y ((hiff f x).mp hx) ((hiff f y).mp hy)
  lt f x hx := h.lt f x ((hiff f x).mp hx)

/-- A key nobody knows, with the counter's id, keeps keys and ids together. -/
theorem OneToOne.insert {known known' : FieldId → GlobalId × τ → Prop} (h : OneToOne known nextIds)
    {key : τ} (hfresh : ∀ x, known f x → x.2 ≠ key)
    (hiff : ∀ f' x, known' f' x ↔ known f' x ∨ f' = f ∧ x = (nextIds f, key)) :
    OneToOne known' (Function.update nextIds f (nextIds f + 1)) := by
  refine ⟨fun f' x y hx hy hxy => ?_, fun f' x y hx hy hxy => ?_, fun f' x hx => ?_⟩
  · rcases (hiff f' x).mp hx with hx | ⟨rfl, rfl⟩ <;> rcases (hiff _ y).mp hy with hy | ⟨hf, rfl⟩
    · exact h.key f' x y hx hy hxy
    · subst hf
      exact absurd hxy (hfresh x hx)
    · exact absurd hxy.symm (hfresh y hy)
    · rfl
  · rcases (hiff f' x).mp hx with hx | ⟨rfl, rfl⟩ <;> rcases (hiff _ y).mp hy with hy | ⟨hf, rfl⟩
    · exact h.id f' x y hx hy hxy
    · subst hf
      exact absurd hxy (h.lt f' x hx).ne
    · exact absurd hxy.symm (h.lt _ y hy).ne
    · rfl
  · rcases (hiff f' x).mp hx with hx | ⟨rfl, rfl⟩
    · refine (h.lt f' x hx).trans_le ?_
      by_cases hf : f' = f
      · subst hf
        simp
      · simp [hf]
    · simp

/-! ## The ledger -/

/-- What holds of the texts. -/
structure Ledger (cfg : InternConfig τ) (s : InternState τ) : Prop where
  oneToOne : OneToOne s.Known s.shared.nextIds
  pending_known : ∀ p ∈ s.shared.pending, s.Known p.fieldId (p.id, p.key)
  /-- The live texts are in the dictionary named last. -/
  live_latest : ∀ f, ∀ x ∈ dictTexts s.live f, x ∈ dictTexts s.latest f
  /-- A text no dictionary names is pending, in an epoch its segment allows. -/
  unnamed_pending : ∀ o f x, (f, x) ∈ s.unnamed o →
    ∃ p ∈ s.shared.pending, p.fieldId = f ∧ p.key = x.2 ∧ s.oldest o ≤ p.epoch
  /-- Only threads that index mint. -/
  minter : ∀ c, s.minted c ≠ [] → c ∈ cfg.workers
  /-- The epoch does not turn while a commit forgets. -/
  epoch_eq : ∀ d epoch todo, s.naming = .forgetting d epoch todo → epoch = s.shared.epoch

/-! ## One text more -/

/-- The state after the locked section minted. -/
def minting (cfg : InternConfig τ) (s : InternState τ) (c : Nat) (call : InternCall τ) :
    InternState τ :=
  s.mintNew cfg c call (s.shared.nextIds call.fieldId)
    { s.shared with
      nextIds := Function.update s.shared.nextIds call.fieldId (s.shared.nextIds call.fieldId + 1)
      pending := ⟨s.shared.epoch, call.fieldId, call.key, s.shared.nextIds call.fieldId⟩ ::
        s.shared.pending }

variable {cfg : InternConfig τ} {s : InternState τ}

theorem mem_unnamed_minting {o : Option Nat} :
    (f, x) ∈ (s.minting cfg c call).unnamed o ↔
      (f, x) ∈ s.unnamed o ∨
        o = some c ∧ f = call.fieldId ∧ x = (s.shared.nextIds call.fieldId, call.key) := by
  cases o with
  | none => simp [unnamed, minting, mintNew, finish, setCall]
  | some c' =>
    by_cases hc : c' = c
    · simp [unnamed, minting, mintNew, hc]
    · simp [unnamed, minting, mintNew, hc]

/-- What is known after minting: one text more. -/
theorem known_minting :
    (s.minting cfg c call).Known f x ↔
      s.Known f x ∨ f = call.fieldId ∧ x = (s.shared.nextIds call.fieldId, call.key) := by
  have hlatest : (s.minting cfg c call).latest = s.latest := rfl
  rw [Known, Known, hlatest]
  simp only [mem_unnamed_minting, exists_or, exists_eq_left, or_assoc]

theorem pending_minting {key : τ} (h : s.Pending f key) : (s.minting cfg c call).Pending f key := by
  obtain ⟨p, hp, hpk⟩ := h
  exact ⟨p, mem_cons_of_mem _ hp, hpk⟩

theorem oldest_minting {o : Option Nat} : (s.minting cfg c call).oldest o = s.oldest o := rfl

theorem Ledger.minting (h : Ledger cfg s) (hc : c ∈ cfg.workers)
    (hfresh : ∀ x, s.Known call.fieldId x → x.2 ≠ call.key) :
    Ledger cfg (s.minting cfg c call) where
  oneToOne := h.oneToOne.insert hfresh fun _ _ => known_minting
  pending_known := forall_mem_cons.mpr ⟨known_minting.mpr (.inr ⟨rfl, rfl⟩),
    fun p hp => known_minting.mpr (.inl (h.pending_known p hp))⟩
  live_latest := h.live_latest
  unnamed_pending o f x hx := by
    rcases mem_unnamed_minting.mp hx with hx | ⟨rfl, rfl, rfl⟩
    · obtain ⟨p, hp, hpk⟩ := h.unnamed_pending o f x hx
      exact ⟨p, mem_cons_of_mem _ hp, hpk⟩
    · refine ⟨_, mem_cons_self, rfl, rfl, ?_⟩
      -- minted in the current epoch, which every bound allows
      rw [oldest_minting]
      unfold oldest
      split
      · exact Nat.zero_le _
      · exact Nat.zero_le _
      · split
        · exact Nat.zero_le _
        · exact le_rfl
      · next hn => exact (h.epoch_eq _ _ _ hn).le
  minter c' hne := by
    by_cases hcc : c' = c
    · exact hcc ▸ hc
    · refine h.minter c' fun hnil => hne ?_
      simp [InternState.minting, mintNew, finish, setCall, hcc, hnil]
  epoch_eq := h.epoch_eq

/-! ## Texts that move -/

theorem mem_unnamed_cut {o : Option Nat} : (f, x) ∈ (s.cut c segment).unnamed o ↔
    (f, x) ∈ s.unnamed o ∧ o ≠ some c ∨ o = none ∧ (f, x) ∈ s.unnamed (some c) := by
  cases o with
  | none => simp [unnamed, cut]
  | some c' =>
    by_cases hc : c' = c
    · simp [unnamed, cut, hc]
    · simp [unnamed, cut, hc]

theorem exists_unnamed_cut :
    (∃ o, (f, x) ∈ (s.cut c segment).unnamed o) ↔ ∃ o, (f, x) ∈ s.unnamed o := by
  simp only [mem_unnamed_cut, exists_or, exists_eq_left]
  constructor
  · rintro (⟨o, ho, -⟩ | ho)
    · exact ⟨o, ho⟩
    · exact ⟨some c, ho⟩
  · rintro ⟨o, ho⟩
    by_cases hc : o = some c
    · exact .inr (hc ▸ ho)
    · exact .inl ⟨o, ho, hc⟩

/-- A cut, while the commit goes over to a stage. -/
def cutAt (s : InternState τ) (c : Nat) (segment : SegmentId) (n : NamingStage τ) :
    InternState τ :=
  { s.cut c segment with naming := n }

/-- A cut moves texts from an open segment to the cut ones. -/
theorem known_cutAt {n : NamingStage τ} (hlatest : (s.cutAt c segment n).latest = s.latest)
    (f : FieldId) (x : GlobalId × τ) : (s.cutAt c segment n).Known f x ↔ s.Known f x := by
  rw [Known, hlatest]
  exact or_congr_right exists_unnamed_cut

theorem Ledger.cutAt (h : Ledger cfg s) {n : NamingStage τ}
    (hlatest : (s.cutAt c segment n).latest = s.latest)
    (hnone : ∀ o, (s.cutAt c segment n).oldest none ≤ s.oldest o)
    (hsome : ∀ o, o ≠ some c → (s.cutAt c segment n).oldest o ≤ s.oldest o)
    (hepoch : ∀ d epoch todo, n = .forgetting d epoch todo → epoch = s.shared.epoch) :
    Ledger cfg (s.cutAt c segment n) where
  oneToOne := h.oneToOne.congr (known_cutAt hlatest)
  pending_known p hp := (known_cutAt hlatest _ _).mpr (h.pending_known p hp)
  live_latest f x hx := by
    rw [hlatest]
    exact h.live_latest f x hx
  unnamed_pending o f x hx := by
    rcases mem_unnamed_cut.mp hx with ⟨hstay, ho⟩ | ⟨rfl, hmoved⟩
    · obtain ⟨p, hp, hf, hkey, hepoch⟩ := h.unnamed_pending o f x hstay
      exact ⟨p, hp, hf, hkey, (hsome o ho).trans hepoch⟩
    · obtain ⟨p, hp, hf, hkey, hepoch⟩ := h.unnamed_pending (some c) f x hmoved
      exact ⟨p, hp, hf, hkey, (hnone _).trans hepoch⟩
  minter c' hne := by
    refine h.minter c' fun hnil => hne ?_
    by_cases hc : c' = c
    · simp [InternState.cutAt, cut, hc]
    · simp [InternState.cutAt, cut, hc, hnil]
  epoch_eq := hepoch

/-- The pairs that have texts. -/
def newPairs (s : InternState τ) : List (SegmentId × MintedTexts τ) := s.pairs.filter (·.2 ≠ [])

theorem naming_name (s : InternState τ) :
    s.newPairs = [] ∧ s.name.naming = .idle ∨
      s.name.naming = .forgetting (nameInto s.live s.shared.nextIds s.newPairs) s.shared.epoch
        (List.range stripes) := by
  by_cases hnil : s.newPairs = []
  · exact .inl ⟨hnil, if_pos hnil⟩
  · exact .inr (if_neg hnil)

/-- The texts of the pairs are named: they are in the new dictionary. -/
theorem known_name (hnaming : s.naming = .flushing []) (f : FieldId) (x : GlobalId × τ) :
    s.name.Known f x ↔ s.Known f x := by
  have hpairs : (f, x) ∈ s.newPairs.flatMap Prod.snd ↔ (f, x) ∈ s.unnamed none := by
    simp only [unnamed, newPairs, mem_flatMap, mem_filter, decide_eq_true_eq]
    exact exists_congr fun p => and_congr_left fun hx => and_iff_left (ne_nil_of_mem hx)
  have hlatest : x ∈ dictTexts s.name.latest f ↔
      x ∈ dictTexts s.live f ∨ (f, x) ∈ s.unnamed none := by
    rw [← hpairs]
    rcases s.naming_name with ⟨hnil, hn⟩ | hn
    · have hlive : s.name.latest = s.live := by
        rw [latest, hn]
        rfl
      simp [hlive, hnil]
    · have hnext : s.name.latest = nameInto s.live s.shared.nextIds s.newPairs := by
        rw [latest, hn]
      rw [hnext]
      exact mem_dictTexts_nameInto
  have hlive : s.latest = s.live := by simp [latest, hnaming]
  have hnone : (f, x) ∉ s.name.unnamed none := not_mem_nil
  rw [Known, Known, hlatest, hlive, Option.exists, Option.exists, or_iff_right hnone, or_assoc]
  rfl

end InternState

end Lucivy.Indexer
