import Lucivy.Indexer.DictionaryCommit
import Lucivy.SuffixFst.DictionaryBloom

/-! # Interning while commits run

The collectors of a shard ask the dictionary for the ids of their texts, each on its own thread,
while a commit turns the epoch, has every collector flush its segment, names the pairs of the new
segments in a new dictionary, forgets the pending texts of earlier epochs, stripe by stripe, and
swaps the new dictionary in.

A call of `lookup_or_mint_hashed` is a sequence of steps: it takes the live dictionary from its
slot, asks the lookup cache, the Bloom filter, the pending texts and the parts of the dictionary
it took, and at last, under the lock of its stripe, the pending texts once more before it mints.
Each of them is one step here, and so is each stripe a commit forgets. The lookup cache is a table
without a lock whose pairs may tear: it may answer anything, and an answer counts only once
`verify` has found it in a part. The parts are asked through their FST, and `lookup_with_key` does
not reach every word they hold (`findsWord`).

* `InternCall` — a call under way.
* `InternState`, `InternEvent` — the system.
* `InternState.next` — one step. -/

namespace Lucivy.Indexer

open Lucivy.SuffixFst

variable {τ : Type}

def stripes : Nat := 64

/-- What does not change: the hashes, the FST keys, and the threads that index. -/
structure InternConfig (τ : Type) where
  /-- `ScalableBloom::hashes` of a key. -/
  keyHashes : τ → KeyHashes
  pendingHash : FieldId → τ → UInt64
  /-- A part that holds the key has an FST record that `lookup_with_key` accepts. -/
  findable : τ → Bool
  /-- The indexer threads, each with the collector of its open segment. -/
  workers : List Nat

/-- The stripe of a key (`DictionaryShared::stripe`). -/
def InternConfig.stripe (cfg : InternConfig τ) (f : FieldId) (key : τ) : Nat :=
  (cfg.pendingHash f key).toNat % stripes

/-- The next thing a call does. -/
inductive CallStage
  /-- Ask the lookup cache. -/
  | cache
  /-- Ask the Bloom filter. -/
  | filter
  /-- Ask the pending texts. -/
  | pending
  /-- Look in the parts. -/
  | parts
  /-- Take the stripe's lock, ask once more, mint. -/
  | locked
deriving DecidableEq, Repr

/-- **A call under way.** -/
structure InternCall (τ : Type) where
  /-- The dictionary that was live when it began. -/
  dict : SfxDictionary τ
  fieldId : FieldId
  key : τ
  stage : CallStage

/-- What a call returned. -/
structure Answer (τ : Type) where
  fieldId : FieldId
  key : τ
  id : GlobalId
deriving DecidableEq, Repr

/-- The texts a segment was the first to mint, with their fields. -/
abbrev MintedTexts (τ : Type) := List (FieldId × GlobalId × τ)

/-- The minted texts of one field. -/
def textsOf (f : FieldId) (minted : MintedTexts τ) : Texts τ :=
  (minted.filter (·.1 = f)).map Prod.snd

/-- How far a commit has got. -/
inductive NamingStage (τ : Type)
  | idle
  /-- These threads have still to flush. -/
  | flushing (todo : List Nat)
  /-- The new dictionary is open; these stripes have still to forget the epochs before. -/
  | forgetting (next : SfxDictionary τ) (epoch : Nat) (todo : List Nat)

/-- **The dictionary and its users.** -/
structure InternState (τ : Type) where
  /-- What all dictionaries share. -/
  shared : DictionaryShared τ
  /-- The Bloom filters, built when first asked. -/
  filters : FieldId → Option ScalableBloom
  live : SfxDictionary τ
  calls : Nat → Option (InternCall τ)
  /-- The texts a thread's open segment has minted. -/
  minted : Nat → MintedTexts τ
  /-- The minted texts of segments that are cut and not committed. -/
  pairs : List (SegmentId × MintedTexts τ)
  naming : NamingStage τ
  returned : List (Answer τ)

/-- A step. -/
inductive InternEvent (τ : Type)
  /-- A thread calls `lookup_or_mint` and takes the live dictionary. -/
  | start (c : Nat) (f : FieldId) (key : τ)
  /-- The call asks the lookup cache, which answers this. -/
  | askCache (c : Nat) (cached : Option GlobalId)
  | askFilter (c : Nat)
  | askPending (c : Nat)
  /-- The call looks in the parts of its dictionary; the walk reaches the key's record or not. -/
  | lookParts (c : Nat) (reached : Bool)
  | lock (c : Nat)
  /-- A thread cuts its segment. -/
  | cut (c : Nat) (segment : SegmentId)
  /-- A commit begins; the writer's turns the epoch, the shard handle's does not. -/
  | beginCommit (turn : Bool)
  /-- A thread flushes its segment for the commit. -/
  | flush (c : Nat) (segment : SegmentId)
  /-- Every thread has flushed: the pairs are named in a new dictionary. -/
  | name
  /-- The next stripe forgets the epochs before. -/
  | forget
  | swap
  /-- A fold in the background puts this dictionary in the place of the live one. -/
  | fold (d : SfxDictionary τ)

namespace InternState

variable [DecidableEq τ] (cfg : InternConfig τ)

/-- A freshly opened index. -/
def opened (d : SfxDictionary τ) (nextIds : FieldId → GlobalId) : InternState τ where
  shared := ⟨nextIds, [], 1⟩
  filters _ := none
  live := d
  calls _ := none
  minted _ := []
  pairs := []
  naming := .idle
  returned := []

/-! ## A call -/

/-- A call goes on. -/
def setCall (s : InternState τ) (c : Nat) (call : Option (InternCall τ)) : InternState τ :=
  { s with calls := Function.update s.calls c call }

/-- A call returns. -/
def finish (s : InternState τ) (c : Nat) (call : InternCall τ) (id : GlobalId) : InternState τ :=
  { s.setCall c none with returned := s.returned ++ [⟨call.fieldId, call.key, id⟩] }

/-- The call of a thread, if it is at this stage. -/
def callAt (s : InternState τ) (c : Nat) (stage : CallStage) : Option (InternCall τ) :=
  (s.calls c).filter (·.stage = stage)

/-- The lookup cache answers; what it answers counts if a part has it. -/
def askCache (s : InternState τ) (c : Nat) (call : InternCall τ) (cached : Option GlobalId) :
    InternState τ :=
  (cached.filter (call.dict.verify call.fieldId · call.key)).elim
    (s.setCall c (some { call with stage := .filter })) (s.finish c call)

/-- `filter`: the field's filter, seeded from the parts of the caller's dictionary when it is not
there yet. -/
def filterOf (s : InternState τ) (d : SfxDictionary τ) (f : FieldId) : ScalableBloom :=
  (s.filters f).getD
    (((d.fields f).flatten.map fun x => cfg.keyHashes x.2).foldl ScalableBloom.insert
      (.withCapacity (s.shared.nextIds f * 2)))

/-- The Bloom filter answers: a key it denies is in no part and not pending. -/
def askFilter (s : InternState τ) (c : Nat) (call : InternCall τ) : InternState τ :=
  let filter := s.filterOf cfg call.dict call.fieldId
  let stage := if filter.maybeContains (cfg.keyHashes call.key) then .pending else .locked
  { s.setCall c (some { call with stage := stage }) with
    filters := Function.update s.filters call.fieldId (some filter) }

/-- The pending texts answer. -/
def askPending (s : InternState τ) (c : Nat) (call : InternCall τ) : InternState τ :=
  (s.shared.pendingGet call.fieldId call.key).elim
    (s.setCall c (some { call with stage := .parts })) (s.finish c call)

/-- The parts of the call's dictionary answer, if their FST leads to the key. -/
def lookParts (s : InternState τ) (c : Nat) (call : InternCall τ) (reached : Bool) :
    InternState τ :=
  (if reached then call.dict.lookup call.fieldId call.key else none).elim
    (s.setCall c (some { call with stage := .locked })) (s.finish c call)

/-- A new id: the minter keeps the text for its segment's pair, and the filter learns the key. -/
def mintNew (s : InternState τ) (c : Nat) (call : InternCall τ) (id : GlobalId)
    (shared : DictionaryShared τ) : InternState τ :=
  { s.finish c call id with
    shared := shared
    filters := Function.update s.filters call.fieldId
      ((s.filters call.fieldId).map (·.insert (cfg.keyHashes call.key)))
    minted := Function.update s.minted c (s.minted c ++ [(call.fieldId, id, call.key)]) }

/-- The locked section: the pending texts once more, then a new id. -/
def lock (s : InternState τ) (c : Nat) (call : InternCall τ) : InternState τ :=
  let m := s.shared.mint call.fieldId call.key
  if m.1.2 then s.mintNew cfg c call m.1.1 m.2 else s.finish c call m.1.1

/-! ## A commit -/

/-- A segment is cut: its minted texts are a pair now. -/
def cut (s : InternState τ) (c : Nat) (segment : SegmentId) : InternState τ :=
  { s with
    minted := Function.update s.minted c []
    pairs := s.pairs ++ [(segment, s.minted c)] }

/-- `begin_commit_epoch`, where the commit path has it, and the flush messages. -/
def beginCommit (s : InternState τ) (turn : Bool) : InternState τ :=
  { s with
    shared := if turn then s.shared.beginCommitEpoch else s.shared
    naming := .flushing cfg.workers }

/-- The parts of a dictionary with the pairs of new segments behind them. -/
def nameInto (d : SfxDictionary τ) (nextIds : FieldId → GlobalId)
    (pairs : List (SegmentId × MintedTexts τ)) : SfxDictionary τ where
  info :=
    { d.info with
      nextIds := nextIds
      fieldIds := addFields d.info.fieldIds (pairs.flatMap fun p => p.2.map Prod.fst)
      pendingSegments := d.info.pendingSegments ++ pairs.map Prod.fst }
  fields f := d.fields f ++ (pairs.map fun p => textsOf f p.2).filter (· ≠ [])

/-- `fold_new_texts` up to the opened dictionary. Without new texts it ends there. -/
def name (s : InternState τ) : InternState τ :=
  let pairs := s.pairs.filter (·.2 ≠ [])
  { s with
    pairs := []
    naming := if pairs = [] then .idle
      else
        .forgetting (nameInto s.live s.shared.nextIds pairs) s.shared.epoch (List.range stripes) }

/-- `forget_before` on one stripe. -/
def forgetStripe (s : InternState τ) (epoch stripe : Nat) : DictionaryShared τ :=
  { s.shared with
    pending := s.shared.pending.filter fun p =>
      epoch ≤ p.epoch || cfg.stripe p.fieldId p.key ≠ stripe }

/-- What a fold may put in place of a dictionary: the same texts, otherwise cut into parts. -/
def SameTexts (d d' : SfxDictionary τ) : Prop :=
  d'.info.fieldIds = d.info.fieldIds ∧
    ∀ f ∈ d.info.fieldIds, (d'.fields f).flatten.Perm (d.fields f).flatten

instance (d d' : SfxDictionary τ) : Decidable (SameTexts d d') :=
  inferInstanceAs (Decidable (_ ∧ _))

/-- The folded dictionary, for the fields the dictionary has. -/
def folded (d d' : SfxDictionary τ) : SfxDictionary τ :=
  ⟨d'.info, fun f => if f ∈ d.info.fieldIds then d'.fields f else d.fields f⟩

/-- **One step**, where it can happen. A thread has one call at a time, and cuts its segment
between two calls; `meta_lock` keeps a fold out while a commit has its dictionary open. -/
def next (s : InternState τ) : InternEvent τ → Option (InternState τ)
  | .start c f key =>
    if c ∈ cfg.workers ∧ (s.calls c).isNone then
      some (s.setCall c (some ⟨s.live, f, key, .cache⟩))
    else none
  | .askCache c cached => (s.callAt c .cache).map fun call => s.askCache c call cached
  | .askFilter c => (s.callAt c .filter).map (s.askFilter cfg c)
  | .askPending c => (s.callAt c .pending).map (s.askPending c)
  | .lookParts c reached =>
    ((s.callAt c .parts).filter fun call => reached || !cfg.findable call.key).map
      (s.lookParts c · reached)
  | .lock c => (s.callAt c .locked).map (s.lock cfg c)
  | .cut c segment => if (s.calls c).isNone then some (s.cut c segment) else none
  | .beginCommit turn =>
    match s.naming with
    | .idle => some (s.beginCommit cfg turn)
    | _ => none
  | .flush c segment =>
    match s.naming with
    | .flushing todo =>
      if c ∈ todo ∧ (s.calls c).isNone then
        some { s.cut c segment with naming := .flushing (todo.filter (· ≠ c)) }
      else none
    | _ => none
  | .name =>
    match s.naming with
    | .flushing [] => some s.name
    | _ => none
  | .forget =>
    match s.naming with
    | .forgetting d epoch (stripe :: todo) =>
      some { s with
        shared := s.forgetStripe cfg epoch stripe
        naming := .forgetting d epoch todo }
    | _ => none
  | .swap =>
    match s.naming with
    | .forgetting d _ [] => some { s with live := d, naming := .idle }
    | _ => none
  | .fold d =>
    match s.naming with
    | .forgetting _ _ _ => none
    | _ => if SameTexts s.live d then some { s with live := folded s.live d } else none

/-- The steps as a relation. -/
def Step (s : InternState τ) (e : InternEvent τ) (t : InternState τ) : Prop :=
  s.next cfg e = some t

end InternState

end Lucivy.Indexer
