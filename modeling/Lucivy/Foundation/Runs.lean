import Mathlib.Data.List.SplitBy
import Mathlib.Logic.Function.Basic

/-! # Runs of equal keys

A list sorted by a key falls into runs, one for each key it has.

* `runsBy` — neighbours with one key in one run.
* `runsBy_increasing` — in a sorted list the keys of the runs increase.
* `runsBy_map` — the runs of a mapped list. -/

namespace Lucivy.Foundation

open List

variable {α β κ : Type} [DecidableEq κ]

/-- The runs of a list: neighbours that have one key. -/
def runsBy (key : α → κ) (l : List α) : List (List α) := l.splitBy fun a b => key a == key b

variable {key : α → κ} {l : List α}

@[simp] theorem flatten_runsBy (key : α → κ) (l : List α) : (runsBy key l).flatten = l :=
  flatten_splitBy _ l

theorem ne_nil_of_mem_runsBy {run : List α} (h : run ∈ runsBy key l) : run ≠ [] :=
  ne_nil_of_mem_splitBy h

/-- A run has one key. -/
theorem key_eq_of_mem_runsBy {run : List α} (h : run ∈ runsBy key l) {a b : α} (ha : a ∈ run)
    (hb : b ∈ run) : key a = key b := by
  have hchain : run.IsChain fun a b => key a = key b :=
    (isChain_of_mem_splitBy h).imp fun a b hab => eq_of_beq hab
  -- equality is symmetric, so the order of the two does not matter
  have hpairs : run.Pairwise fun a b => key a = key b := hchain.pairwise
  have hflip : run.Pairwise (flip fun a b => key a = key b) := hpairs.imp fun hab => hab.symm
  exact List.Pairwise.forall_of_forall_of_flip (R := fun a b => key a = key b) (fun _ _ => rfl)
    hpairs hflip ha hb

/-- **In a sorted list the keys of the runs increase.** -/
theorem runsBy_increasing {rank : κ → Nat} (hrank : Function.Injective rank)
    (hsorted : l.Pairwise fun a b => rank (key a) ≤ rank (key b)) :
    (runsBy key l).Pairwise fun r s => ∀ a ∈ r, ∀ b ∈ s, rank (key a) < rank (key b) := by
  have hflat : (runsBy key l).flatten.Pairwise fun a b => rank (key a) ≤ rank (key b) := by
    rwa [flatten_runsBy]
  have hle := (pairwise_flatten.mp hflat).2
  -- neighbouring runs: in order, and of different keys
  let R (r s : List α) : Prop :=
    r ≠ [] ∧ s ≠ [] ∧ ∀ a ∈ r, ∀ b ∈ s, rank (key a) < rank (key b)
  have hchain : (runsBy key l).IsChain R := by
    refine isChain_iff_getElem.mpr fun i hi => ?_
    have hlast : (runsBy key l).IsChain fun a b =>
        ∃ ha hb, (key (a.getLast ha) == key (b.head hb)) = false :=
      isChain_getLast_head_splitBy (fun a b => key a == key b) l
    obtain ⟨ha, hb, hdiff⟩ := hlast.getElem i hi
    refine ⟨ha, hb, fun a har b hbs => ?_⟩
    have hmem : (runsBy key l)[i] ∈ runsBy key l := getElem_mem _
    have hmem' : (runsBy key l)[i + 1] ∈ runsBy key l := getElem_mem hi
    have hka := key_eq_of_mem_runsBy hmem har (getLast_mem ha)
    have hkb := key_eq_of_mem_runsBy hmem' hbs (head_mem hb)
    have hab := hle.isChain.getElem i hi a har b hbs
    refine Nat.lt_of_le_of_ne hab fun heq => ?_
    have hkey := hrank heq
    rw [hka, hkb] at hkey
    exact absurd (beq_iff_eq.mpr hkey) (Bool.eq_false_iff.mp hdiff)
  have : Trans R R R := by
    refine ⟨fun hrs hst => ⟨hrs.1, hst.2.1, fun a ha c hc => ?_⟩⟩
    obtain ⟨b, hb⟩ := exists_mem_of_ne_nil _ hrs.2.1
    exact (hrs.2.2 a ha b hb).trans (hst.2.2 b hb c hc)
  exact hchain.pairwise.imp fun h => h.2.2

/-- The runs of a mapped list. -/
theorem runsBy_map (f : β → α) (key : α → κ) (l : List β) :
    runsBy key (l.map f) = (runsBy (key ∘ f) l).map (List.map f) := by
  refine splitBy_eq_iff.mpr ⟨?_, ?_, ?_, ?_⟩
  · rw [← map_flatten, flatten_runsBy]
  · intro hnil
    obtain ⟨run, hrun, hmap⟩ := mem_map.mp hnil
    exact ne_nil_of_mem_runsBy hrun (map_eq_nil_iff.mp hmap)
  · intro m hm
    obtain ⟨run, hrun, rfl⟩ := mem_map.mp hm
    exact isChain_map _ |>.mpr (isChain_of_mem_splitBy hrun)
  · refine (isChain_map _).mpr ((isChain_getLast_head_splitBy _ l).imp ?_)
    rintro r s ⟨hr, hs, hdiff⟩
    refine ⟨by simpa using hr, by simpa using hs, ?_⟩
    rw [getLast_map, head_map]
    exact hdiff

end Lucivy.Foundation
