import Mathlib.Data.List.Infix
import Mathlib.Tactic.ByContra

/-! # Search by halving

A predicate on the numbers from 1 that holds up to some number and not behind it: the loop
that finds that number by halving an interval. A sorted list is searched with it through
checkpoints, one for each run of its elements.

* `lastBelow` — the loop; a probe that answers nothing ends it.
* `lastBelow_spec` — where it ends.
* `find?_cons_eq_ite` — a scan of a sorted list, step by step.
* `find?_lastBelow` — the run it leads to has the first element of a rank, if any has. -/

namespace Lucivy.Foundation

open List Option Nat

/-- The largest number in `(lo, hi]` that is below, `lo` if there is none: the middle is
probed, and the half the answer lies in is kept. -/
def lastBelow (below : Nat → Option Bool) (lo hi : Nat) : Nat :=
  if _h : lo < hi then
    let mid := lo + (hi - lo) / 2 + 1
    match below mid with
    | none => lo
    | some true => lastBelow below mid hi
    | some false => lastBelow below lo (mid - 1)
  else lo
termination_by hi - lo

/-- **Where the search ends**, if every probe answers and what is below lies in front of what
is not. -/
theorem lastBelow_spec {below : Nat → Option Bool} {isBelow : Nat → Bool} {lo hi : Nat}
    (hle : lo ≤ hi) (hprobe : ∀ k, lo < k → k ≤ hi → below k = some (isBelow k))
    (hmono : ∀ k l, lo < k → k ≤ l → l ≤ hi → isBelow l = true → isBelow k = true) :
    lo ≤ lastBelow below lo hi ∧ lastBelow below lo hi ≤ hi ∧
      (∀ k, lo < k → k ≤ lastBelow below lo hi → isBelow k = true) ∧
      ∀ k, lastBelow below lo hi < k → k ≤ hi → isBelow k = false := by
  have hbounds : ∀ {lo hi : Nat}, lo < hi →
      lo < lo + (hi - lo) / 2 + 1 ∧ lo + (hi - lo) / 2 + 1 ≤ hi := by
    omega
  fun_induction lastBelow below lo hi with
  | case1 lo hi hlt mid hnone =>
    obtain ⟨hlo, hhi⟩ : lo < mid ∧ mid ≤ hi := hbounds hlt
    cases hnone.symm.trans (hprobe mid hlo hhi)
  | case2 lo hi hlt mid htrue ih =>
    obtain ⟨hlo, hhi⟩ : lo < mid ∧ mid ≤ hi := hbounds hlt
    have hb : true = isBelow mid := Option.some.inj (htrue.symm.trans (hprobe mid hlo hhi))
    obtain ⟨h1, h2, h3, h4⟩ := ih hhi (fun k hk hk' => hprobe k (by omega) hk')
      fun k l hk hkl hl => hmono k l (by omega) hkl hl
    refine ⟨by omega, h2, fun k hk hk' => ?_, h4⟩
    by_cases hkm : k ≤ mid
    · exact hmono k mid hk hkm hhi hb.symm
    · exact h3 k (by omega) hk'
  | case3 lo hi hlt mid hfalse ih =>
    obtain ⟨hlo, hhi⟩ : lo < mid ∧ mid ≤ hi := hbounds hlt
    have hb : false = isBelow mid := Option.some.inj (hfalse.symm.trans (hprobe mid hlo hhi))
    obtain ⟨h1, h2, h3, h4⟩ := ih (by omega) (fun k hk hk' => hprobe k hk (by omega))
      fun k l hk hkl hl => hmono k l hk hkl (by omega)
    refine ⟨h1, by omega, h3, fun k hk hk' => ?_⟩
    by_cases hkm : mid ≤ k
    · exact Bool.eq_false_iff.mpr fun htrue =>
        Bool.false_ne_true (hb.trans (hmono mid k hlo hkm hk' htrue))
    · exact h4 k hk (by omega)
  | case4 lo hi hlt => exact ⟨le_refl _, hle, fun k hk hk' => by omega, fun k hk hk' => by omega⟩

/-! ## Sorted lists with checkpoints -/

section Checkpoints

variable {α : Type} {rank : α → Nat} {l : List α} {target : Nat}

/-- **One step of a scan**: on past an element below the target, and no further than one that is
not. -/
theorem find?_cons_eq_ite (rank : α → Nat) (target : Nat) {a : α} (h : ∀ b ∈ l, rank a ≤ rank b) :
    (a :: l).find? (fun b => rank b = target) = if rank a < target then
      l.find? fun b => rank b = target else if rank a = target then some a else none := by
  rcases lt_trichotomy (rank a) target with hlt | heq | hgt
  · rw [if_pos hlt, find?_cons_of_neg (by simpa using hlt.ne)]
  · rw [if_neg heq.not_lt, if_pos heq, find?_cons_of_pos (by simpa using heq)]
  · have hnone : l.find? (fun b => rank b = target) = none :=
      find?_eq_none.mpr fun b hb => by simpa using (hgt.trans_le (h b hb)).ne'
    rw [if_neg hgt.not_gt, if_neg hgt.ne', find?_cons_of_neg (by simpa using hgt.ne'), hnone]

section

variable (hsorted : l.Pairwise fun a b => rank a ≤ rank b)
include hsorted

theorem rank_le_of_le {i j : Nat} {a b : α} (hij : i ≤ j) (ha : l[i]? = some a)
    (hb : l[j]? = some b) : rank a ≤ rank b := by
  obtain ⟨hi, rfl⟩ := List.getElem?_eq_some_iff.mp ha
  obtain ⟨hj, rfl⟩ := List.getElem?_eq_some_iff.mp hb
  rcases hij.eq_or_lt with rfl | hlt
  · exact le_rfl
  · exact pairwise_iff_getElem.mp hsorted i j hi hj hlt

/-- Elements below the target are passed over. -/
theorem find?_drop_of_lt {m : Nat}
    (hbelow : ∀ a, 0 < m → l[m - 1]? = some a → rank a < target) (hm : m ≤ l.length) :
    l.find? (fun a => rank a = target) = (l.drop m).find? fun a => rank a = target := by
  have hnone : (l.take m).find? (fun a => rank a = target) = none := by
    refine find?_eq_none.mpr fun b hb => ?_
    obtain ⟨i, hi⟩ := mem_iff_getElem?.mp hb
    rw [getElem?_take, ite_none_right_eq_some] at hi
    have hlast := getElem?_eq_getElem (show m - 1 < l.length by omega)
    have hlt := hbelow _ (by omega) hlast
    have hle := rank_le_of_le hsorted (by omega) hi.2 hlast
    rw [decide_eq_true_eq]
    omega
  conv =>
    lhs
    rw [← take_append_drop m l, find?_append, hnone, none_or]

/-- Behind an element not below the target there is nothing new. -/
theorem find?_take_of_le {m : Nat}
    (habove : ∀ a, m < l.length → l[m - 1]? = some a → target ≤ rank a) (hm : 0 < m) :
    l.find? (fun a => rank a = target) = (l.take m).find? fun a => rank a = target := by
  conv =>
    lhs
    rw [← take_append_drop m l, find?_append]
  cases hfind : (l.take m).find? (fun a => rank a = target) with
  | some a => rw [some_or]
  | none =>
    rw [none_or, find?_eq_none]
    intro b hb
    obtain ⟨i, hi⟩ := mem_iff_getElem?.mp hb
    rw [getElem?_drop] at hi
    have hlen := (List.getElem?_eq_some_iff.mp hi).1
    have hlast := getElem?_eq_getElem (show m - 1 < l.length by omega)
    have hge := habove _ (by omega) hlast
    have hle := rank_le_of_le hsorted (by omega) hlast hi
    have hmem := mem_of_getElem? ((getElem?_take_of_lt (by omega : m - 1 < m)).trans hlast)
    have hne := find?_eq_none.mp hfind _ hmem
    rw [decide_eq_true_eq] at hne ⊢
    omega

end

/-- **A lookup through checkpoints.** Checkpoint `k` knows the last element of the first `k`
runs. The last one below the target leads to a run that has the first element of the wanted
rank, if the list has one. -/
theorem find?_lastBelow {every : Nat} (hevery : 0 < every)
    (hsorted : l.Pairwise fun a b => rank a ≤ rank b) {below : Nat → Option Bool}
    (hprobe : ∀ k a, 0 < k → k ≤ (l.length - 1) / every → l[k * every - 1]? = some a →
      below k = some (decide (rank a < target))) :
    ∃ k, lastBelow below 0 ((l.length - 1) / every) = k ∧ k ≤ (l.length - 1) / every ∧
      l.find? (fun a => rank a = target) =
        ((l.drop (k * every)).take (min (l.length - k * every) every)).find?
          fun a => rank a = target := by
  -- the last element of the first `k` runs
  have hlast : ∀ k, 0 < k → k ≤ (l.length - 1) / every →
      k * every < l.length ∧ ∃ a, l[k * every - 1]? = some a := by
    intro k hk hk'
    have hmul : every ≤ k * every := Nat.le_mul_of_pos_left every hk
    have hle := (le_div_iff_mul_le hevery).mp hk'
    exact ⟨by omega, _, getElem?_eq_getElem (show k * every - 1 < l.length by omega)⟩
  have hprobe' : ∀ k, 0 < k → k ≤ (l.length - 1) / every →
      below k = some (l[k * every - 1]?.any fun a => decide (rank a < target)) := by
    intro k hk hk'
    obtain ⟨-, a, ha⟩ := hlast k hk hk'
    rw [hprobe k a hk hk' ha, ha, any_some]
  have hmono : ∀ k j, 0 < k → k ≤ j → j ≤ (l.length - 1) / every →
      (l[j * every - 1]?.any fun a => decide (rank a < target)) = true →
      (l[k * every - 1]?.any fun a => decide (rank a < target)) = true := by
    intro k j hk hkj hj h
    obtain ⟨-, a, ha⟩ := hlast j (by omega) hj
    obtain ⟨-, b, hb⟩ := hlast k hk (by omega)
    have hle := rank_le_of_le hsorted (Nat.sub_le_sub_right (mul_le_mul_right every hkj) 1) hb ha
    rw [ha, any_some, decide_eq_true_eq] at h
    rw [hb, any_some, decide_eq_true_eq]
    omega
  obtain ⟨-, hle, hbelow, habove⟩ := lastBelow_spec (zero_le _) hprobe' hmono
  generalize lastBelow below 0 ((l.length - 1) / every) = k at hle hbelow habove
  have hkle : k * every ≤ l.length := by
    have := (le_div_iff_mul_le hevery).mp hle
    omega
  refine ⟨k, rfl, hle, ?_⟩
  rw [← length_drop, min_comm, ← take_eq_take_min, find?_drop_of_lt hsorted ?_ hkle,
    find?_take_of_le (hsorted.sublist (drop_sublist _ _)) ?_ hevery]
  · intro a hlen ha
    rw [length_drop] at hlen
    have hk' : k + 1 ≤ (l.length - 1) / every := by
      rw [le_div_iff_mul_le hevery, succ_mul]
      omega
    rw [getElem?_drop] at ha
    have hnot := habove (k + 1) (by omega) hk'
    rw [succ_mul, show k * every + every - 1 = k * every + (every - 1) by omega, ha,
      any_some, decide_eq_false_iff_not] at hnot
    omega
  · intro a hpos ha
    have hk : 0 < k := Nat.pos_of_ne_zero fun h0 => by simp [h0] at hpos
    have h := hbelow k hk (le_refl _)
    rwa [ha, any_some, decide_eq_true_eq] at h

end Checkpoints

end Lucivy.Foundation
