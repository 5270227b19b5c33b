import Lucivy.Foundation.Transition
import Lucivy.Indexer.InternLedger
import Lucivy.SuffixFst.BuilderV3

/-! # One id for each text

What `lookup_or_mint` promises: the same text gets the same id from every caller, and different
texts of a field get different ids. Besides the ledger of the known texts the invariant says that
the filters deny none of them, and that a call under way can still reach each of them, in the
parts of the dictionary it took or among the pending texts.

The last of these can break in two ways. The FST of a part does not lead to every word the part
holds, so that a committed word is minted a second time. And a commit forgets the pending texts of
the epochs before while the dictionary that names them is not live yet: a call that holds, or now
takes, the dictionary before it finds such a text nowhere. `keepsTexts` is the condition under
which neither happens, and `answers_agree` the promise under it. -/

namespace Lucivy.Indexer

open Lucivy.Foundation Lucivy.SuffixFst Lucivy.Tokenizer List

variable {τ : Type} {cfg : InternConfig τ} {s : InternState τ}

namespace InternState

variable [DecidableEq τ]

/-- The key is in the dictionary's parts. -/
def hasKey (d : SfxDictionary τ) (f : FieldId) (key : τ) : Bool := (d.lookup f key).isSome

variable {d : SfxDictionary τ} {f : FieldId} {key : τ} {call : InternCall τ} {c : Nat}

/-- Some part has the key. -/
theorem hasKey_iff : hasKey d f key = true ↔ ∃ x ∈ dictTexts d f, x.2 = key := by
  rw [hasKey, SfxDictionary.lookup, Option.isSome_map, find?_isSome]
  simp [dictTexts]

/-- The key is pending. -/
theorem pendingGet_isSome_iff {s : InternState τ} :
    (s.shared.pendingGet f key).isSome = true ↔ s.Pending f key := by
  simp [DictionaryShared.pendingGet, Pending]

/-- What a lookup finds is there. -/
theorem mem_dictTexts_of_lookup {id : GlobalId} (h : d.lookup f key = some id) :
    (id, key) ∈ dictTexts d f :=
  mem_flatten.mpr (SfxDictionary.exists_part_of_lookup h)

/-- So is what is verified. -/
theorem mem_dictTexts_of_verify {id : GlobalId} (h : d.verify f id key = true) :
    (id, key) ∈ dictTexts d f :=
  mem_flatten.mpr (SfxDictionary.exists_part_of_verify h)

/-! ## The invariant -/

/-- What holds of a call under way. -/
structure CallOk (s : InternState τ) (call : InternCall τ) : Prop where
  known : ∀ x ∈ dictTexts call.dict call.fieldId, s.Known call.fieldId x
  /-- If its key is known, it is in the call's dictionary or pending. -/
  reach : ∀ x, s.Known call.fieldId x → x.2 = call.key →
    hasKey call.dict call.fieldId call.key = true ∨ s.Pending call.fieldId call.key
  /-- A call that is to mint has not found its key in the parts. -/
  locked : call.stage = .locked → hasKey call.dict call.fieldId call.key = false
  /-- Behind the filter there is a filter. -/
  seeded : call.stage ≠ .cache → call.stage ≠ .filter → s.filters call.fieldId ≠ none
  /-- Until there is one, the call's dictionary has all that is known. -/
  unseeded : s.filters call.fieldId = none → ∀ x, s.Known call.fieldId x →
    x ∈ dictTexts call.dict call.fieldId

variable (cfg) in
/-- **The invariant.** -/
structure Sound (s : InternState τ) : Prop where
  ledger : Ledger cfg s
  calls : ∀ c call, s.calls c = some call → c ∈ cfg.workers ∧ CallOk s call
  /-- A filter denies no known text. -/
  filters : ∀ f b, s.filters f = some b → ∀ x, s.Known f x →
    b.maybeContains (cfg.keyHashes x.2) = true
  /-- Until there is a filter, the live dictionary has all that is known. -/
  unseeded : ∀ f, s.filters f = none → ∀ x, s.Known f x → x ∈ dictTexts s.live f
  returned : ∀ a ∈ s.returned, s.Known a.fieldId (a.id, a.key)

variable {t : InternState τ}

/-! ## Steps of a call -/

/-- A call stays in order as long as the known texts only grow, and its own text stays in
reach. -/
theorem CallOk.mono (h : CallOk s call)
    (hknown : ∀ x, s.Known call.fieldId x → t.Known call.fieldId x)
    (hreach : ∀ x, t.Known call.fieldId x → x.2 = call.key →
      s.Known call.fieldId x ∨ t.Pending call.fieldId call.key)
    (hpending : s.Pending call.fieldId call.key →
      hasKey call.dict call.fieldId call.key = true ∨ t.Pending call.fieldId call.key)
    (hfilter : t.filters call.fieldId = none →
      s.filters call.fieldId = none ∧ ∀ x, t.Known call.fieldId x → s.Known call.fieldId x) :
    CallOk t call where
  known x hx := hknown x (h.known x hx)
  reach x hx hkey := by
    rcases hreach x hx hkey with hs | hp
    · exact (h.reach x hs hkey).elim .inl hpending
    · exact .inr hp
  locked := h.locked
  seeded h₁ h₂ hnone := h.seeded h₁ h₂ (hfilter hnone).1
  unseeded hnone x hx := h.unseeded (hfilter hnone).1 x ((hfilter hnone).2 x hx)

section

variable (h : Sound cfg s)
include h

/-- A call goes on. -/
theorem Sound.setCall (hc : c ∈ cfg.workers) (hcall : CallOk s call) :
    Sound cfg (s.setCall c (some call)) := by
  refine { h with ledger := { h.ledger with }, calls := fun c' call' hcall' => ?_ }
  rw [InternState.setCall] at hcall'
  by_cases hcc : c' = c
  · subst hcc
    obtain rfl : call = call' := by simpa using hcall'
    exact ⟨hc, { hcall with }⟩
  · have hc' := h.calls c' call' (by simpa [hcc] using hcall')
    exact ⟨hc'.1, { hc'.2 with }⟩

/-- A call returns a known text. -/
theorem Sound.finish {id : GlobalId} (hid : s.Known call.fieldId (id, call.key)) :
    Sound cfg (s.finish c call id) := by
  refine { h with
    ledger := { h.ledger with }, calls := fun c' call' hcall' => ?_, returned := fun a ha => ?_ }
  · rw [InternState.finish, InternState.setCall] at hcall'
    by_cases hcc : c' = c
    · subst hcc
      simp at hcall'
    · have hc' := h.calls c' call' (by simpa [hcc] using hcall')
      exact ⟨hc'.1, { hc'.2 with }⟩
  · rw [InternState.finish, mem_append, mem_singleton] at ha
    rcases ha with ha | rfl
    · exact h.returned a ha
    · exact hid

/-- The cache is asked. -/
theorem Sound.askCache (hc : c ∈ cfg.workers) (hcall : CallOk s call)
    (cached : Option GlobalId) : Sound cfg (s.askCache c call cached) := by
  rw [InternState.askCache]
  cases hcache : cached.filter (call.dict.verify call.fieldId · call.key) with
  | none =>
    exact h.setCall hc ⟨hcall.known, hcall.reach, (fun hstage => nomatch hstage),
      fun _ hne => absurd rfl hne, hcall.unseeded⟩
  | some id =>
    have hverify := (Option.filter_eq_some_iff.mp hcache).2
    exact h.finish (hcall.known _ (mem_dictTexts_of_verify hverify))

/-- The filter of a field, seeded now or before, denies no known text. -/
theorem Sound.maybeContains_filterOf (hcall : CallOk s call) {x : GlobalId × τ}
    (hx : s.Known call.fieldId x) :
    (s.filterOf cfg call.dict call.fieldId).maybeContains (cfg.keyHashes x.2) = true := by
  rw [filterOf]
  cases hf : s.filters call.fieldId with
  | some b => exact h.filters _ b hf x hx
  | none =>
    refine ScalableBloom.maybeContains_foldl_insert _ _ (.inl ?_)
    exact mem_map_of_mem (hcall.unseeded hf x hx)

/-- A field gets a filter that denies no known text. -/
theorem Sound.seed (f : FieldId) {b : ScalableBloom}
    (hb : ∀ x, s.Known f x → b.maybeContains (cfg.keyHashes x.2) = true) :
    Sound cfg { s with filters := Function.update s.filters f (some b) } where
  ledger := { h.ledger with }
  calls c call hcall := by
    obtain ⟨hc, hok⟩ := h.calls c call hcall
    refine ⟨hc, hok.mono (fun _ hx => hx) (fun _ hx _ => .inl hx) .inr fun hnone => ?_⟩
    refine ⟨?_, fun _ hx => hx⟩
    by_cases hf : call.fieldId = f
    · simp [hf] at hnone
    · simpa [hf] using hnone
  filters f' b' hb' x hx := by
    by_cases hf : f' = f
    · subst hf
      obtain rfl : b = b' := by simpa using hb'
      exact hb x hx
    · exact h.filters f' b' (by simpa [hf] using hb') x hx
  unseeded f' hnone := by
    by_cases hf : f' = f
    · simp [hf] at hnone
    · exact h.unseeded f' (by simpa [hf] using hnone)
  returned := h.returned

/-- The filter is asked. -/
theorem Sound.askFilter (hc : c ∈ cfg.workers) (hcall : CallOk s call) :
    Sound cfg (s.askFilter cfg c call) := by
  have hknown := fun x => h.maybeContains_filterOf hcall (x := x)
  rw [InternState.askFilter]
  generalize s.filterOf cfg call.dict call.fieldId = b at hknown ⊢
  refine (h.seed call.fieldId hknown).setCall hc ?_
  refine ⟨hcall.known, hcall.reach, fun hstage => ?_, fun _ _ => by simp, fun hnone => ?_⟩
  · -- the filter denied the key, so no part of the call's dictionary has it
    by_contra hhas
    obtain ⟨x, hx, hkey⟩ := hasKey_iff.mp (Bool.eq_true_of_not_eq_false hhas)
    have hmaybe := hknown x (hcall.known x hx)
    rw [hkey] at hmaybe
    simp [hmaybe] at hstage
  · simp at hnone

/-- A pending text is known. -/
theorem Sound.known_of_pendingGet {id : GlobalId} (hget : s.shared.pendingGet f key = some id) :
    s.Known f (id, key) := by
  obtain ⟨p, hp, rfl, rfl, rfl⟩ := DictionaryShared.exists_pending_of_pendingGet hget
  exact h.ledger.pending_known p hp

/-- The pending table is asked. -/
theorem Sound.askPending (hc : c ∈ cfg.workers) (hcall : CallOk s call)
    (hstage : call.stage = .pending) : Sound cfg (s.askPending c call) := by
  rw [InternState.askPending]
  cases hget : s.shared.pendingGet call.fieldId call.key with
  | none =>
    refine h.setCall hc ⟨hcall.known, hcall.reach, (fun hlocked => nomatch hlocked),
      fun _ _ => hcall.seeded (by simp [hstage]) (by simp [hstage]), hcall.unseeded⟩
  | some id => exact h.finish (h.known_of_pendingGet hget)

/-- The parts are asked. -/
theorem Sound.lookParts (hc : c ∈ cfg.workers) (hcall : CallOk s call)
    (hstage : call.stage = .parts) {reached : Bool}
    (hreached : reached = true ∨ hasKey call.dict call.fieldId call.key = false) :
    Sound cfg (s.lookParts c call reached) := by
  rw [InternState.lookParts]
  cases hlook : (if reached then call.dict.lookup call.fieldId call.key else none) with
  | none =>
    refine h.setCall hc ⟨hcall.known, hcall.reach, fun _ => ?_,
      fun _ _ => hcall.seeded (by simp [hstage]) (by simp [hstage]), hcall.unseeded⟩
    rcases hreached with rfl | hnone
    · rw [if_pos rfl] at hlook
      rw [hasKey, hlook, Option.isSome_none]
    · exact hnone
  | some id =>
    obtain ⟨-, hfound⟩ := Option.ite_none_right_eq_some.mp hlook
    exact h.finish (hcall.known _ (mem_dictTexts_of_lookup hfound))

end

/-! ## Minting -/

/-- A key not pending is minted. -/
theorem lock_eq_minting (hget : s.shared.pendingGet call.fieldId call.key = none) :
    s.lock cfg c call = s.minting cfg c call := by
  rw [InternState.lock, DictionaryShared.mint, hget]
  rfl

/-- A call mints only a text nobody knows. -/
theorem CallOk.fresh (h : CallOk s call) (hstage : call.stage = .locked)
    (hget : s.shared.pendingGet call.fieldId call.key = none) {x : GlobalId × τ}
    (hx : s.Known call.fieldId x) : x.2 ≠ call.key := by
  intro hkey
  rcases h.reach x hx hkey with hhas | hpending
  · simp [h.locked hstage] at hhas
  · simp [← pendingGet_isSome_iff, hget] at hpending

/-- A text gets the next id. -/
theorem Sound.minting (h : Sound cfg s) (hc : c ∈ cfg.workers) (hcall : CallOk s call)
    (hstage : call.stage = .locked) (hget : s.shared.pendingGet call.fieldId call.key = none) :
    Sound cfg (s.minting cfg c call) := by
  have hseeded : s.filters call.fieldId ≠ none := hcall.seeded (by simp [hstage]) (by simp [hstage])
  obtain ⟨b, hb⟩ := Option.ne_none_iff_exists'.mp hseeded
  -- the field of the call has a filter, so a field without one knows nothing new
  have hnone : ∀ f, (s.minting cfg c call).filters f = none →
      s.filters f = none ∧ ∀ x, (s.minting cfg c call).Known f x → s.Known f x := by
    intro f hf
    have hne : f ≠ call.fieldId := by
      rintro rfl
      simp [InternState.minting, mintNew, hb] at hf
    refine ⟨by simpa [InternState.minting, mintNew, hne] using hf, ?_⟩
    intro x hx
    exact (known_minting.mp hx).resolve_right fun hx => hne hx.1
  refine ⟨h.ledger.minting hc fun x hx => hcall.fresh hstage hget hx, ?_, ?_, ?_, ?_⟩
  · intro c' call' hcall'
    have hne : c' ≠ c := by
      rintro rfl
      simp [InternState.minting, mintNew, InternState.finish, InternState.setCall] at hcall'
    obtain ⟨hc', hok⟩ := h.calls c' call' (by
      simpa [InternState.minting, mintNew, InternState.finish, InternState.setCall, hne]
        using hcall')
    refine ⟨hc', hok.mono (fun x hx => known_minting.mpr (.inl hx)) (fun x hx hkey => ?_)
      (fun hp => .inr (pending_minting hp)) (hnone call'.fieldId)⟩
    rcases known_minting.mp hx with hx | ⟨hf, rfl⟩
    · exact .inl hx
    · exact .inr ⟨_, mem_cons_self, hf.symm, hkey⟩
  · intro f b' hb' x hx
    by_cases hf : f = call.fieldId
    · subst hf
      obtain rfl : b.insert (cfg.keyHashes call.key) = b' := by
        simpa [InternState.minting, mintNew, hb] using hb'
      rcases known_minting.mp hx with hx | ⟨-, rfl⟩
      · exact b.maybeContains_insert _ (h.filters _ b hb x hx)
      · exact b.maybeContains_insert_self _
    · have hx' := (known_minting.mp hx).resolve_right fun hx => hf hx.1
      refine h.filters f b' ?_ x hx'
      simpa [InternState.minting, mintNew, hf] using hb'
  · intro f hf x hx
    exact h.unseeded f (hnone f hf).1 x ((hnone f hf).2 x hx)
  · exact forall_mem_append.mpr ⟨fun a ha => known_minting.mpr (.inl (h.returned a ha)),
      forall_mem_singleton.mpr (known_minting.mpr (.inr ⟨rfl, rfl⟩))⟩

/-- The locked section. -/
theorem Sound.lock (h : Sound cfg s) (hc : c ∈ cfg.workers) (hcall : CallOk s call)
    (hstage : call.stage = .locked) : Sound cfg (s.lock cfg c call) := by
  cases hget : s.shared.pendingGet call.fieldId call.key with
  | none =>
    rw [lock_eq_minting hget]
    exact h.minting hc hcall hstage hget
  | some id =>
    rw [InternState.lock, DictionaryShared.mint, hget]
    exact h.finish (h.known_of_pendingGet hget)

/-! ## Steps of a commit -/

section

variable (h : Sound cfg s)
include h

/-- Texts may move; what is known and in reach stays so. -/
theorem Sound.move (hledger : Ledger cfg t)
    (hknown : ∀ f x, t.Known f x ↔ s.Known f x) (hcalls : t.calls = s.calls)
    (hfilters : t.filters = s.filters) (hreturned : t.returned = s.returned)
    (hlive : ∀ f, ∀ x ∈ dictTexts s.live f, x ∈ dictTexts t.live f)
    (hpending : ∀ c call, s.calls c = some call → s.Pending call.fieldId call.key →
      hasKey call.dict call.fieldId call.key = true ∨ t.Pending call.fieldId call.key) :
    Sound cfg t where
  ledger := hledger
  calls c call hcall := by
    rw [hcalls] at hcall
    obtain ⟨hc, hok⟩ := h.calls c call hcall
    refine ⟨hc, hok.mono (fun x hx => (hknown _ x).mpr hx)
      (fun x hx _ => .inl ((hknown _ x).mp hx)) (hpending c call hcall) fun hnone => ?_⟩
    exact ⟨hfilters ▸ hnone, fun x hx => (hknown _ x).mp hx⟩
  filters f b hb x hx := h.filters f b (hfilters ▸ hb) x ((hknown f x).mp hx)
  unseeded f hnone x hx := hlive f x (h.unseeded f (hfilters ▸ hnone) x ((hknown f x).mp hx))
  returned a ha := (hknown _ _).mpr (h.returned a (hreturned ▸ ha))

/-- A segment is cut. -/
theorem Sound.cut (c : Nat) (segment : SegmentId) : Sound cfg (s.cut c segment) := by
  have hnone : ∀ o, (s.cutAt c segment s.naming).oldest none ≤ s.oldest o := by
    intro o
    unfold oldest
    cases s.naming with
    | idle => exact le_rfl
    | flushing todo => exact Nat.zero_le _
    | forgetting d epoch todo => exact le_rfl
  have hledger : Ledger cfg (s.cutAt c segment s.naming) :=
    h.ledger.cutAt rfl hnone (fun _ _ => le_rfl) h.ledger.epoch_eq
  exact h.move hledger (known_cutAt rfl) rfl rfl rfl (fun _ _ => id) fun _ _ _ hp => .inr hp

/-- A thread flushes for a commit. -/
theorem Sound.flush {segment : SegmentId} {todo : List Nat} (hnaming : s.naming = .flushing todo) :
    Sound cfg (s.cutAt c segment (.flushing (todo.filter (· ≠ c)))) := by
  have hlatest : (s.cutAt c segment (.flushing (todo.filter (· ≠ c)))).latest = s.latest := by
    simp [latest, hnaming, cutAt, InternState.cut]
  have hsome : ∀ o, o ≠ some c →
      (s.cutAt c segment (.flushing (todo.filter (· ≠ c)))).oldest o ≤ s.oldest o := by
    intro o ho
    cases o with
    | none => exact Nat.zero_le _
    | some c' =>
      have hc : c' ≠ c := by simpa using ho
      simp [oldest, hnaming, hc, cutAt, InternState.cut]
  have hledger := h.ledger.cutAt hlatest (fun _ => Nat.zero_le _) hsome (by intros; contradiction)
  exact h.move hledger (known_cutAt hlatest) rfl rfl rfl (fun _ _ => id) fun _ _ _ hp => .inr hp

/-- A commit begins. -/
theorem Sound.beginCommit (hnaming : s.naming = .idle) (turn : Bool) :
    Sound cfg (s.beginCommit cfg turn) := by
  have hlatest : (s.beginCommit cfg turn).latest = s.latest := by
    simp [latest, InternState.beginCommit, hnaming]
  have hknown : ∀ f x, (s.beginCommit cfg turn).Known f x ↔ s.Known f x := by
    intro f x
    rw [Known, hlatest]
    exact Iff.rfl
  have hpending : (s.beginCommit cfg turn).shared.pending = s.shared.pending := by
    cases turn <;> rfl
  have hnextIds : (s.beginCommit cfg turn).shared.nextIds = s.shared.nextIds := by
    cases turn <;> rfl
  refine h.move ⟨?_, ?_, ?_, ?_, h.ledger.minter, (by intros; contradiction)⟩ hknown rfl rfl rfl
    (fun _ _ => id) ?_
  · rw [hnextIds]
    exact h.ledger.oneToOne.congr hknown
  · intro p hp
    exact (hknown _ _).mpr (h.ledger.pending_known p (hpending ▸ hp))
  · intro f x hx
    rw [hlatest]
    exact h.ledger.live_latest f x hx
  · intro o f x hx
    obtain ⟨p, hp, hf, hkey, -⟩ := h.ledger.unnamed_pending o f x hx
    refine ⟨p, hpending ▸ hp, hf, hkey, ?_⟩
    cases o with
    | none => exact Nat.zero_le _
    | some c =>
      -- every thread that has minted is among those to flush
      have hc : c ∈ cfg.workers := h.ledger.minter c (ne_nil_of_mem hx)
      have holdest : (s.beginCommit cfg turn).oldest (some c) = 0 := if_pos hc
      rw [holdest]
      exact Nat.zero_le _
  · intro c call _ hp
    refine .inr ?_
    rw [Pending, hpending]
    exact hp

/-- A commit names its pairs. -/
theorem Sound.name (hnaming : s.naming = .flushing []) : Sound cfg s.name := by
  refine h.move ⟨h.ledger.oneToOne.congr (known_name hnaming), ?_, ?_, ?_, h.ledger.minter, ?_⟩
    (known_name hnaming) rfl rfl rfl (fun _ _ => id) fun _ _ _ hp => .inr hp
  · intro p hp
    exact (known_name hnaming _ _).mpr (h.ledger.pending_known p hp)
  · intro f x hx
    have hx' : x ∈ dictTexts s.live f := hx
    unfold latest
    rcases s.naming_name with ⟨-, hn⟩ | hn <;> rw [hn]
    · exact hx'
    · exact mem_dictTexts_nameInto.mpr (.inl hx')
  · intro o f x hx
    cases o with
    | none => cases hx
    | some c =>
      obtain ⟨p, hp, hf, hkey, hepoch⟩ := h.ledger.unnamed_pending (some c) f x hx
      refine ⟨p, hp, hf, hkey, ?_⟩
      -- every thread has flushed: what is minted and not cut is of this epoch
      have hage : s.shared.epoch ≤ p.epoch := by simpa [oldest, hnaming] using hepoch
      unfold oldest
      rcases s.naming_name with ⟨-, hn⟩ | hn <;> rw [hn]
      · exact Nat.zero_le _
      · exact hage
  · intro d epoch todo hn
    rcases s.naming_name with ⟨-, hn'⟩ | hn' <;> rw [hn'] at hn
    · cases hn
    · injection hn with _ hepoch
      exact hepoch.symm

/-- The new dictionary is live. -/
theorem Sound.swap {epoch : Nat} {todo : List Nat} (hnaming : s.naming = .forgetting d epoch todo) :
    Sound cfg { s with live := d, naming := .idle } := by
  have hlatest : s.latest = d := by
    rw [latest, hnaming]
  have hknown : ∀ f x, Known { s with live := d, naming := .idle } f x ↔ s.Known f x := by
    intro f x
    rw [Known, Known, hlatest]
    exact Iff.rfl
  refine h.move ⟨h.ledger.oneToOne.congr hknown, ?_, fun _ _ => id, ?_, h.ledger.minter,
    by intros; contradiction⟩ hknown rfl rfl rfl (hlatest ▸ h.ledger.live_latest)
    fun _ _ _ hp => .inr hp
  · intro p hp
    exact (hknown _ _).mpr (h.ledger.pending_known p hp)
  · intro o f x hx
    obtain ⟨p, hp, hf, hkey, -⟩ := h.ledger.unnamed_pending o f x hx
    exact ⟨p, hp, hf, hkey, Nat.zero_le _⟩

/-- A fold puts the same texts in other parts. -/
theorem Sound.fold (hsame : SameTexts s.live d)
    (hnaming : ∀ d' epoch todo, s.naming ≠ .forgetting d' epoch todo) :
    Sound cfg { s with live := folded s.live d } := by
  have hlatest (live : SfxDictionary τ) : ({ s with live } : InternState τ).latest = live := by
    unfold latest
    split
    · next hn => exact absurd hn (hnaming _ _ _)
    · rfl
  have hold : s.latest = s.live := hlatest s.live
  have hknown : ∀ f x, Known { s with live := folded s.live d } f x ↔ s.Known f x := by
    intro f x
    rw [Known, Known, hlatest, hold]
    exact or_congr_left (mem_dictTexts_folded hsame)
  refine h.move ⟨h.ledger.oneToOne.congr hknown, ?_, ?_, h.ledger.unnamed_pending, h.ledger.minter,
    h.ledger.epoch_eq⟩ hknown rfl rfl rfl (fun _ _ => (mem_dictTexts_folded hsame).mpr)
    fun _ _ _ hp => .inr hp
  · intro p hp
    exact (hknown _ _).mpr (h.ledger.pending_known p hp)
  · intro f x hx
    rw [hlatest]
    exact hx

/-- A stripe forgets. No call may lose its text: `hkeep`. -/
theorem Sound.forget {epoch stripe : Nat} {todo : List Nat}
    (hnaming : s.naming = .forgetting d epoch (stripe :: todo))
    (hkeep : ∀ c call, s.calls c = some call →
      hasKey call.dict call.fieldId call.key = true ∨
        ∀ p ∈ s.shared.pending, p.fieldId = call.fieldId → p.key = call.key →
          epoch ≤ p.epoch ∨ cfg.stripe p.fieldId p.key ≠ stripe) :
    Sound cfg { s with
      shared := s.forgetStripe cfg epoch stripe
      naming := .forgetting d epoch todo } := by
  set u : InternState τ := { s with
    shared := s.forgetStripe cfg epoch stripe
    naming := .forgetting d epoch todo }
  have hmem : ∀ p, p ∈ u.shared.pending ↔
      p ∈ s.shared.pending ∧ (epoch ≤ p.epoch ∨ cfg.stripe p.fieldId p.key ≠ stripe) := by
    intro p
    simp [u, forgetStripe]
  have hlatest : u.latest = s.latest := by
    simp [u, latest, hnaming]
  have hknown : ∀ f x, u.Known f x ↔ s.Known f x := by
    intro f x
    rw [Known, Known, hlatest]
    exact Iff.rfl
  refine h.move ⟨h.ledger.oneToOne.congr hknown, ?_, ?_, ?_, h.ledger.minter, ?_⟩ hknown rfl rfl rfl
    (fun _ _ => id) ?_
  · intro p hp
    exact (hknown _ _).mpr (h.ledger.pending_known p ((hmem p).mp hp).1)
  · intro f x hx
    rw [hlatest]
    exact h.ledger.live_latest f x hx
  · intro o f x hx
    obtain ⟨p, hp, hf, hkey, hage⟩ := h.ledger.unnamed_pending o f x hx
    -- what no dictionary names was minted in the commit's epoch, and stays
    have hage' : epoch ≤ p.epoch := by
      unfold oldest at hage
      rwa [hnaming] at hage
    exact ⟨p, (hmem p).mpr ⟨hp, .inl hage'⟩, hf, hkey, hage'⟩
  · intro d' epoch' todo' hn
    injection hn with _ hepoch
    exact hepoch ▸ h.ledger.epoch_eq _ _ _ hnaming
  · rintro c call hcall ⟨p, hp, hf, hkey⟩
    refine (hkeep c call hcall).imp_right fun hall => ?_
    exact ⟨p, (hmem p).mpr ⟨hp, hall p hp hf hkey⟩, hf, hkey⟩

end

/-! ## Runs -/

/-- A state before anything was interned. -/
theorem sound_opened {nextIds : FieldId → GlobalId}
    (h : OneToOne (fun f x => x ∈ dictTexts d f) nextIds) : Sound cfg (opened d nextIds) := by
  have hunnamed : ∀ o, (opened d nextIds).unnamed o = [] := by
    intro o
    cases o <;> rfl
  have hknown : ∀ f x, (opened d nextIds).Known f x ↔ x ∈ dictTexts d f := by
    intro f x
    simp only [Known, hunnamed, not_mem_nil, exists_false, or_false]
    exact Iff.rfl
  refine ⟨⟨h.congr hknown, (by intros; contradiction), fun _ _ => id, ?_,
    fun _ hne => absurd rfl hne, (by intros; contradiction)⟩, (by intros; contradiction),
    (by intros; contradiction), fun f _ x hx => (hknown f x).mp hx, (by intros; contradiction)⟩
  intro o f x hx
  simp [hunnamed] at hx

variable (cfg) in
/-- **No call loses its text.** A call that looks in the parts reaches its key where they hold it;
before a stripe forgets, every call whose text would be forgotten holds a dictionary that has it;
and while a commit has its dictionary open, a call asks for a text of that dictionary only if the
live one has it too, or it is still pending. -/
def keepsTexts (s : InternState τ) : InternEvent τ → Bool
  | .lookParts c reached =>
    reached || (s.calls c).all fun call => !hasKey call.dict call.fieldId call.key
  | .start _ f key =>
    match s.naming with
    | .forgetting d _ _ =>
      !hasKey d f key || hasKey s.live f key || (s.shared.pendingGet f key).isSome
    | _ => true
  | .forget =>
    match s.naming with
    | .forgetting _ epoch (stripe :: _) =>
      cfg.workers.all fun c => (s.calls c).all fun call =>
        hasKey call.dict call.fieldId call.key ||
          s.shared.pending.all fun p =>
            p.fieldId ≠ call.fieldId || p.key ≠ call.key || epoch ≤ p.epoch ||
              cfg.stripe p.fieldId p.key ≠ stripe
    | _ => true
  | _ => true

section

variable (h : Sound cfg s)
include h

/-- A text that is known when a call starts is in the live dictionary or pending, unless only the
dictionary a commit has open has it. -/
theorem Sound.reach_start (hkeep : s.keepsTexts cfg (.start c f key) = true)
    {x : GlobalId × τ} (hx : s.Known f x) (hkey : x.2 = key) :
    hasKey s.live f key = true ∨ s.Pending f key := by
  rcases hx with hx | ⟨o, ho⟩
  · unfold latest at hx
    unfold keepsTexts at hkeep
    split at hx
    · next hn =>
      have hhas := hasKey_iff.mpr ⟨x, hx, hkey⟩
      simp only [hn, hhas, Bool.not_true, Bool.false_or, Bool.or_eq_true,
        pendingGet_isSome_iff] at hkeep
      exact hkeep
    · exact .inl (hasKey_iff.mpr ⟨x, hx, hkey⟩)
  · obtain ⟨p, hp, hf, hpk, -⟩ := h.ledger.unnamed_pending o f x ho
    exact .inr ⟨p, hp, hf, hpk.trans hkey⟩

/-- A call begins. -/
theorem Sound.start (hc : c ∈ cfg.workers) (hkeep : s.keepsTexts cfg (.start c f key) = true) :
    Sound cfg (s.setCall c (some ⟨s.live, f, key, .cache⟩)) := by
  refine h.setCall hc ⟨fun x hx => .inl (h.ledger.live_latest f x hx),
    fun x hx hkey => h.reach_start hkeep hx hkey, nofun, fun hne => absurd rfl hne, h.unseeded f⟩

/-- The call a step goes on with. -/
theorem Sound.callAt {stage : CallStage} {goOn : InternCall τ → InternState τ}
    (hstep : (s.callAt c stage).map goOn = some t) :
    ∃ call, t = goOn call ∧ c ∈ cfg.workers ∧ CallOk s call ∧ call.stage = stage := by
  obtain ⟨call, hcall, rfl⟩ := Option.map_eq_some_iff.mp hstep
  obtain ⟨hc, hstage⟩ := Option.filter_eq_some_iff.mp hcall
  exact ⟨call, rfl, (h.calls c call hc).1, (h.calls c call hc).2, by simpa using hstage⟩

/-- A call that looks in the parts as `keepsTexts` asks. -/
theorem Sound.lookParts_step {reached : Bool}
    (hkeep : s.keepsTexts cfg (.lookParts c reached) = true)
    (hstep : ((s.callAt c .parts).filter fun call => reached || !cfg.findable call.key).map
      (s.lookParts c · reached) = some t) : Sound cfg t := by
  obtain ⟨call, hcall, rfl⟩ := Option.map_eq_some_iff.mp hstep
  obtain ⟨hc, hstage⟩ := Option.filter_eq_some_iff.mp (Option.filter_eq_some_iff.mp hcall).1
  obtain ⟨hworker, hok⟩ := h.calls c call hc
  refine h.lookParts hworker hok (by simpa using hstage) ?_
  simpa [keepsTexts, hc] using hkeep

/-- **Step lemma.** A step that loses no call its text keeps the invariant. -/
theorem Sound.next {e : InternEvent τ} (hkeep : s.keepsTexts cfg e = true)
    (hstep : Step cfg s e t) : Sound cfg t := by
  unfold Step InternState.next at hstep
  cases e with
  | start c f key =>
    obtain ⟨hcan, ⟨⟩⟩ := Option.ite_none_right_eq_some.mp hstep
    exact h.start hcan.1 hkeep
  | askCache c cached =>
    obtain ⟨call, rfl, hc, hok, -⟩ := h.callAt hstep
    exact h.askCache hc hok cached
  | askFilter c =>
    obtain ⟨call, rfl, hc, hok, -⟩ := h.callAt hstep
    exact h.askFilter hc hok
  | askPending c =>
    obtain ⟨call, rfl, hc, hok, hstage⟩ := h.callAt hstep
    exact h.askPending hc hok hstage
  | lookParts c reached => exact h.lookParts_step hkeep hstep
  | lock c =>
    obtain ⟨call, rfl, hc, hok, hstage⟩ := h.callAt hstep
    exact h.lock hc hok hstage
  | cut c segment =>
    obtain ⟨-, ⟨⟩⟩ := Option.ite_none_right_eq_some.mp hstep
    exact h.cut c segment
  | beginCommit turn =>
    dsimp only at hstep
    split at hstep
    · next hn =>
      cases hstep
      exact h.beginCommit hn turn
    · cases hstep
  | flush c segment =>
    dsimp only at hstep
    split at hstep
    · next hn =>
      obtain ⟨-, ⟨⟩⟩ := Option.ite_none_right_eq_some.mp hstep
      exact h.flush hn
    · cases hstep
  | name =>
    dsimp only at hstep
    split at hstep
    · next hn =>
      cases hstep
      exact h.name hn
    · cases hstep
  | forget =>
    dsimp only at hstep
    split at hstep
    · next d epoch stripe todo hn =>
      cases hstep
      refine h.forget hn fun c call hcall => ?_
      simp only [keepsTexts, hn, all_eq_true] at hkeep
      have hcall' := hkeep c (h.calls c call hcall).1
      simp only [hcall, Option.all_some, Bool.or_eq_true, all_eq_true] at hcall'
      refine hcall'.imp_right fun hall p hp hf hpk => ?_
      simpa [hf, hpk] using hall p hp
    · cases hstep
  | swap =>
    dsimp only at hstep
    split at hstep
    · next hn =>
      cases hstep
      exact h.swap hn
    · cases hstep
  | fold d =>
    dsimp only at hstep
    split at hstep
    · cases hstep
    · next hn =>
      obtain ⟨hsame, ⟨⟩⟩ := Option.ite_none_right_eq_some.mp hstep
      exact h.fold hsame hn

end

/-- Two threads, hashes that are all alike, and one text, which is `findable` or not. -/
def twoThreads (findable : Bool) : InternConfig Unit :=
  ⟨fun _ => ⟨0, 1⟩, fun _ _ => 0, fun _ => findable, [0, 1]⟩

/-- A text is minted, and a commit turns the epoch, up to the opened dictionary. -/
def commitSteps : List (InternEvent Unit) :=
  [.start 0 0 (), .askCache 0 none, .askFilter 0, .lock 0,
    .beginCommit true, .flush 0 10, .flush 1 11, .name]

/-- A text is minted, committed, forgotten and asked for again, by a call that takes the new
dictionary. -/
def quietSteps : List (InternEvent Unit) :=
  commitSteps ++ List.replicate stripes InternEvent.forget ++
    [InternEvent.swap, .start 1 0 (), .askCache 1 (some 0)]

/-- The same thread asks again once the commit is over and the cache has the text no longer. -/
def againSteps : List (InternEvent Unit) :=
  commitSteps ++ List.replicate stripes InternEvent.forget ++
    [InternEvent.swap, .start 0 0 (), .askCache 0 none, .askFilter 0, .askPending 0,
      .lookParts 0 false, .lock 0]

/-- A word of 20000 letters. -/
def longWord : WordStrippedEntry :=
  ⟨replicate 20000 'a', [], ⟨replicate 20000 'a', true, 20000, 0, false⟩, 0, true⟩

-- A word that every walk finds: the commit has forgotten it and its dictionary is not live yet.
example : ((commitSteps ++ [InternEvent.forget, .start 1 0 (), .askCache 1 (some 0),
      .askFilter 1, .askPending 1, .lookParts 1 true, .lock 1]).foldlM
      (next (twoThreads true)) (opened .empty fun _ => 0)).map InternState.returned =
    some [⟨0, (), 0⟩, ⟨0, (), 1⟩] := by decide +kernel

end InternState

end Lucivy.Indexer
