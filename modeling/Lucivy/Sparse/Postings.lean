import Mathlib.Data.List.TakeWhile
import Mathlib.Order.BoundedOrder.Basic
import Lucivy.Foundation.SortDedup

/-! # Posting lists in RAM

The posting lists of the sparse index (`wand/postings.rs`): elements by record id, each with the
largest weight from there on. An edit repairs the ceilings leftwards and stops at the first one that
is right.

* `upsert`, `delete` — the edits.
* `ceilings_repairTailMax` — the early stop is sound.
* `edits_eq_rebuilt` — **after any edits the list is the one built from scratch**. -/

namespace Lucivy.Sparse

open Lucivy.Foundation List

structure Posting (W : Type) where
  id : Nat
  weight : W
  /-- The largest weight from here on. -/
  tailMax : W

variable {W : Type}

/-- The entry of the id-weight map. -/
def Posting.pair (p : Posting W) : Nat × W := (p.id, p.weight)

/-- `locate`, a binary search: the elements below the id, the one that has it, those above. -/
def locate (items : List (Posting W)) (id : Nat) :
    List (Posting W) × Option (Posting W) × List (Posting W) :=
  match items.dropWhile (·.id < id) with
  | [] => (items, none, [])
  | p :: above =>
    if p.id = id then (items.takeWhile (·.id < id), some p, above)
    else (items.takeWhile (·.id < id), none, p :: above)

/-- The last of several weights for one id. -/
def pushUnique (unique : List (Nat × W)) (pair : Nat × W) : List (Nat × W) :=
  if unique.getLast?.any (·.1 = pair.1) then unique.dropLast ++ [pair] else unique ++ [pair]

inductive Edit (W : Type)
  | upsert (id : Nat) (weight : W)
  | delete (id : Nat)

/-- What an edit makes of an id-weight map. -/
def Edit.update (entries : Nat → Option W) : Edit W → Nat → Option W
  | .upsert id weight => Function.update entries id (some weight)
  | .delete id => Function.update entries id none

variable {a b s items : List (Posting W)} {p : Posting W}

/-- The list around an id: the elements below it, the one that has it, those above. -/
structure Around (id : Nat) (below : List (Posting W)) (found : Option (Posting W))
    (above : List (Posting W)) : Prop where
  below : ∀ p ∈ below, p.id < id
  found : ∀ p ∈ found, p.id = id
  above : ∀ p ∈ above, id < p.id

/-- What a list has for an id, and for the others. -/
theorem Around.mem_iff {id : Nat} {found : Option (Posting W)} (h : Around id a found b)
    (x : Nat × W) : x ∈ (a ++ (found.toList ++ b)).map Posting.pair ↔
      if x.1 = id then found.map (·.weight) = some x.2 else x ∈ (a ++ b).map Posting.pair := by
  have hfound : x ∈ found.toList.map Posting.pair ↔
      x.1 = id ∧ found.map (·.weight) = some x.2 := by
    have hid := h.found
    cases found <;> grind [Posting.pair]
  have hbelow := h.below
  have habove := h.above
  simp only [map_append, mem_append, hfound]
  split <;> grind [Posting.pair]

theorem locate_eq (h : items.Pairwise (·.id < ·.id)) (id : Nat) :
    ∃ below found above, locate items id = (below, found, above) ∧
      items = below ++ (found.toList ++ above) ∧ Around id below found above := by
  have hbelow : ∀ p ∈ items.takeWhile (·.id < id), p.id < id := fun _ hp =>
    of_decide_eq_true (mem_takeWhile_imp hp :)
  have hsplit := takeWhile_append_dropWhile (p := (decide <| Posting.id · < id)) (l := items)
  rw [locate]
  cases hrest : items.dropWhile (·.id < id) with
  | nil =>
    rw [hrest, append_nil] at hsplit
    exact ⟨items, none, [], rfl, by simp, hsplit ▸ hbelow, by simp, by simp⟩
  | cons p above =>
    have hp := head?_dropWhile_not (decide <| Posting.id · < id) items
    rw [hrest] at hsplit hp
    rw [← hsplit, pairwise_append, pairwise_cons] at h
    dsimp only
    split
    · next heq =>
      exact ⟨_, some p, above, rfl, hsplit.symm, hbelow, by simpa using heq, heq ▸ h.2.1.1⟩
    · next hne =>
      have hlt : id < p.id := by simp at hp; omega
      exact ⟨_, none, p :: above, rfl, hsplit.symm, hbelow, by simp,
        forall_mem_cons.mpr ⟨hlt, fun q hq => hlt.trans (h.2.1.1 q hq)⟩⟩

theorem foldl_pushUnique {unique pairs : List (Nat × W)}
    (h : (unique ++ pairs).Pairwise (·.1 < ·.1)) :
    pairs.foldl pushUnique unique = unique ++ pairs := by
  induction pairs generalizing unique with
  | nil => simp
  | cons x pairs ih =>
    have hnew : ¬ unique.getLast?.any (·.1 = x.1) = true := by
      rw [Option.any_eq_true]
      rintro ⟨last, hlast, heq⟩
      have := (pairwise_append.mp h).2.2 last (mem_of_getLast? hlast) x mem_cons_self
      exact this.ne (of_decide_eq_true heq)
    rw [append_cons] at h ⊢
    rw [foldl_cons, pushUnique, if_neg hnew, ih h]

/-! ## Ceilings -/

variable [LinearOrder W] [OrderBot W]

/-- `suffix_ceiling`, of the suffix itself; `⊥` is `-inf`. -/
def suffixCeiling (suffix : List (Posting W)) : W := (suffix.head?.map (·.tailMax)).getD ⊥

/-- An element gets its ceiling, over a suffix that has its own. -/
def lift (p : Posting W) (suffix : List (Posting W)) : List (Posting W) :=
  { p with tailMax := max (suffixCeiling suffix) p.weight } :: suffix

/-- `from_sorted_pairs` with `rebuild_tail_max`, which keeps the ceiling written last. -/
def fromSortedPairs (pairs : List (Nat × W)) : List (Posting W) :=
  pairs.foldr (fun pair => lift ⟨pair.1, pair.2, pair.2⟩) []

/-- `from_pairs`, which is `PostingsBuilder::build`: a stable sort by id. -/
def fromPairs (pairs : List (Nat × W)) : List (Posting W) :=
  fromSortedPairs ((pairs.insertionSort fun a b => lexLe [a.1] [b.1]).foldl pushUnique [])

/-- `repair_tail_max`, of the elements left of the change, the last one first. -/
def repairTailMax : List (Posting W) → List (Posting W) → List (Posting W)
  | [], suffix => suffix
  | p :: left, suffix =>
    if p.tailMax = max (suffixCeiling suffix) p.weight then left.reverse ++ p :: suffix
    else repairTailMax left (lift p suffix)

/-- The weight there was, and the list. -/
def upsert (items : List (Posting W)) (id : Nat) (weight : W) : Option W × List (Posting W) :=
  let (below, found, above) := locate items id
  if found.any (·.weight = weight) then (some weight, items)
  else (found.map (·.weight),
    repairTailMax below.reverse (⟨id, weight, max weight (suffixCeiling above)⟩ :: above))

def delete (items : List (Posting W)) (id : Nat) : Option W × List (Posting W) :=
  match locate items id with
  | (below, some p, above) => (some p.weight, repairTailMax below.reverse above)
  | (_, none, _) => (none, items)

def Edit.apply (items : List (Posting W)) : Edit W → List (Posting W)
  | .upsert id weight => (Sparse.upsert items id weight).2
  | .delete id => (Sparse.delete items id).2

/-- The ceilings are right. -/
def Ceilings : List (Posting W) → Prop
  | [] => True
  | p :: s => p.tailMax = max (suffixCeiling s) p.weight ∧ Ceilings s

theorem Ceilings.right (h : Ceilings (a ++ b)) : Ceilings b := by
  induction a with
  | nil => exact h
  | cons p a ih => exact ih h.2

/-- Ceilings on the left look at the next ceiling only. -/
theorem Ceilings.replace (h : Ceilings (a ++ b)) (hs : Ceilings s)
    (hsame : suffixCeiling s = suffixCeiling b) : Ceilings (a ++ s) := by
  induction a with
  | nil => exact hs
  | cons q a ih =>
    refine ⟨?_, ih h.2⟩
    cases a with
    | nil => exact h.1.trans (congrArg (max · q.weight) hsame.symm)
    | cons r a => exact h.1

theorem Ceilings.suffixCeiling_eq (h : Ceilings s) :
    suffixCeiling s = (s.map (·.weight)).foldr max ⊥ := by
  induction s with
  | nil => rfl
  | cons p s ih =>
    rw [map_cons, foldr_cons, ← ih h.2, max_comm]
    exact h.1

theorem Ceilings.eq_rebuilt (h : Ceilings s) : fromSortedPairs (s.map Posting.pair) = s := by
  induction s with
  | nil => rfl
  | cons p s ih =>
    rw [map_cons, fromSortedPairs, foldr_cons, ← fromSortedPairs, ih h.2, lift]
    exact congrArg (⟨p.id, p.weight, ·⟩ :: s) h.1.symm

theorem pairs_repairTailMax (a s : List (Posting W)) :
    (repairTailMax a s).map Posting.pair = (a.reverse ++ s).map Posting.pair := by
  induction a generalizing s with
  | nil => rfl
  | cons p a ih =>
    rw [repairTailMax, reverse_cons, append_assoc, singleton_append]
    split
    · rfl
    · rw [ih, map_append, map_append]
      rfl

/-- **The early stop is sound**: ceilings that were right over `b` are repaired over `s`. -/
theorem ceilings_repairTailMax (h : Ceilings (a.reverse ++ b)) (hs : Ceilings s) :
    Ceilings (repairTailMax a s) := by
  induction a generalizing b s with
  | nil => exact hs
  | cons p a ih =>
    rw [reverse_cons, append_assoc, singleton_append] at h
    rw [repairTailMax]
    split
    · next hp => exact h.replace (s := p :: s) ⟨hp, hs⟩ rfl
    · exact ih h (s := lift p s) ⟨rfl, hs⟩

/-- What holds of a list that has the entries of a map. -/
structure Sound (entries : Nat → Option W) (items : List (Posting W)) : Prop where
  sorted : (items.map Posting.pair).Pairwise (·.1 < ·.1)
  ceilings : Ceilings items
  mem_iff : ∀ x, x ∈ items.map Posting.pair ↔ entries x.1 = some x.2

variable {entries : Nat → Option W}

/-- What has the id is replaced. -/
theorem Sound.splice {id : Nat} {found : Option (Posting W)}
    (h : Sound entries (a ++ (found.toList ++ b))) (hfound : Around id a found b)
    (new : Option (Posting W)) (hid : ∀ p ∈ new, p.id = id) (hnew : Ceilings (new.toList ++ b)) :
    Sound (Function.update entries id (new.map (·.weight)))
      (repairTailMax a.reverse (new.toList ++ b)) := by
  have haround : Around id a new b := ⟨hfound.below, hid, hfound.above⟩
  have hpairs := pairs_repairTailMax a.reverse (new.toList ++ b)
  rw [reverse_reverse] at hpairs
  refine ⟨?_, ceilings_repairTailMax (by rw [reverse_reverse]; exact h.ceilings) hnew, fun x => ?_⟩
  · obtain ⟨hleft, hright, hcross⟩ := pairwise_append.mp (pairwise_map.mp h.sorted)
    rw [hpairs, pairwise_map, pairwise_append, pairwise_append]
    refine ⟨hleft, ⟨by cases new <;> simp, (pairwise_append.mp hright).2.1, ?_⟩, ?_⟩
    · intro p hp q hq
      exact (hid p (Option.mem_toList.mp hp)).trans_lt (hfound.above q hq)
    · intro p hp q hq
      rcases mem_append.mp hq with hq | hq
      · exact (hfound.below p hp).trans_eq (hid q (Option.mem_toList.mp hq)).symm
      · exact hcross p hp q (mem_append_right _ hq)
  · have hold := (hfound.mem_iff x).symm.trans (h.mem_iff x)
    rw [hpairs, haround.mem_iff, Function.update_apply]
    by_cases hx : x.1 = id
    · simp [hx]
    · simpa [hx] using hold

/-- **Step lemma.** -/
theorem Sound.apply (h : Sound entries items) (e : Edit W) :
    Sound (e.update entries) (e.apply items) := by
  have hsorted := pairwise_map.mp h.sorted
  cases e with
  | upsert id weight =>
    obtain ⟨below, found, above, hat, rfl, hfound⟩ := locate_eq hsorted id
    rw [Edit.apply, upsert, hat]
    dsimp only
    split
    · next hsame =>
      have hold := (h.mem_iff (id, weight)).mp ((hfound.mem_iff _).mpr (by
        simpa [Option.any_eq_true] using hsame))
      rwa [Edit.update, ← hold, Function.update_eq_self]
    · exact h.splice hfound (some ⟨id, weight, _⟩) (by simp)
        ⟨max_comm _ _, h.ceilings.right.right⟩
  | delete id =>
    obtain ⟨below, found, above, hat, rfl, hfound⟩ := locate_eq hsorted id
    rw [Edit.apply, delete, hat]
    cases found with
    | none =>
      have hold : entries id = none := Option.eq_none_iff_forall_ne_some.mpr fun w hw => by
        simpa using (hfound.mem_iff _).mp ((h.mem_iff (id, w)).mpr hw)
      rwa [Edit.update, ← hold, Function.update_eq_self]
    | some p => exact h.splice hfound none (by simp) h.ceilings.right.right

/-- **After any edits the list is the one built from scratch**: ids increase, every ceiling is the
largest weight of the inclusive suffix, and the entries of the map the edits make, in any order,
are built into this list. -/
theorem edits_eq_rebuilt (edits : List (Edit W)) :
    ∃ items, edits.foldl Edit.apply [] = items ∧ items.Pairwise (·.id < ·.id) ∧
      (∀ i, ∀ p ∈ items[i]?, p.tailMax = ((items.drop i).map (·.weight)).foldr max ⊥) ∧
      ∀ pairs : List (Nat × W), pairs.Nodup →
        (∀ x, x ∈ pairs ↔ edits.foldl Edit.update (fun _ => none) x.1 = some x.2) →
        fromPairs pairs = items := by
  have hrun : ∀ {entries : Nat → Option W} {items}, Sound entries items →
      Sound (edits.foldl Edit.update entries) (edits.foldl Edit.apply items) := by
    induction edits with
    | nil => exact id
    | cons e edits ih => exact fun h => ih (h.apply e)
  have hempty : Sound (W := W) (fun _ => none) [] := ⟨.nil, trivial, by simp⟩
  obtain ⟨hsorted, hright, hmem⟩ := hrun hempty
  have hids := pairwise_map.mp hsorted
  refine ⟨_, rfl, hids, fun i p hp => ?_, fun pairs hnodup hpairs => ?_⟩
  · rw [← take_append_drop i (foldl _ _ _)] at hright
    rw [← hright.right.suffixCeiling_eq, suffixCeiling, head?_drop, hp]
    rfl
  · have hperm := (perm_ext_iff_of_nodup hnodup (hsorted.imp fun h => ne_of_apply_ne _ h.ne)).mpr
      fun x => (hpairs x).trans (hmem x).symm
    have hsort : pairs.insertionSort (fun a b => lexLe [a.1] [b.1]) = _ :=
      insertionSort_eq_of_perm (hsorted.imp fun h => cons_lt_cons_iff.mpr (.inl h)) hperm
    rw [fromPairs, hsort, foldl_pushUnique hsorted]
    exact hright.eq_rebuilt

end Lucivy.Sparse
