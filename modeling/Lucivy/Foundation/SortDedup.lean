import Mathlib.Algebra.BigOperators.Group.List.Basic
import Mathlib.Data.List.Sort
import Mathlib.Data.List.Destutter

/-! # Sorting and dropping repeats

A list sorted so that elements of one key stand together, of which only the first of each run
of equal keys is kept (`sort_by_key` and `dedup_by_key`).

* `lexLe` — lists of numbers in dictionary order.
* `sortDedup le same` — sort, then drop what is the same as the last one kept.
* `exists_mem_sortDedup` — every element is represented, by one that is no later.
* `pairwise_lt_sortDedup` — by a key no two elements share, the list increases.
* `sortDedup_congr` — only the elements count, not their order or number.
* `insertionSort_eq_of_perm` — sorting finds the increasing order.
* `flatMap_filter_perm` — a list grouped by a key. -/

namespace Lucivy.Foundation

open List

variable {α : Type*}

/-- Dictionary order of lists of numbers. -/
def lexLe : List Nat → List Nat → Bool
  | [], _ => true
  | _ :: _, [] => false
  | a :: as, b :: bs => a < b || a == b && lexLe as bs

/-- Sort by `le`, then drop every element that is the same as the last one kept. -/
def sortDedup (le : α → α → Bool) (same : α → α → Bool) (l : List α) : List α :=
  (l.insertionSort fun a b => le a b).destutter fun a b => same a b = false

theorem lexLe_iff_lt_or_eq {a b : List Nat} : lexLe a b = true ↔ a < b ∨ a = b := by
  induction a generalizing b with
  | nil => cases b <;> simp [lexLe]
  | cons x a ih =>
    cases b with
    | nil => simp [lexLe]
    | cons y b =>
      simp only [lexLe, Bool.or_eq_true, Bool.and_eq_true, decide_eq_true_eq, beq_iff_eq, ih,
        cons_lt_cons_iff, List.cons.injEq, and_or_left, or_assoc]

theorem lexLe_iff_le {a b : List Nat} : lexLe a b = true ↔ a ≤ b :=
  lexLe_iff_lt_or_eq.trans le_iff_lt_or_eq.symm

theorem lexLe_total (a b : List Nat) : lexLe a b = true ∨ lexLe b a = true := by
  rw [lexLe_iff_le, lexLe_iff_le]
  exact le_total a b

theorem lexLe_trans {a b c : List Nat} (hab : lexLe a b = true) (hbc : lexLe b c = true) :
    lexLe a c = true := by
  rw [lexLe_iff_le] at hab hbc ⊢
  exact hab.trans hbc

/-! ## What is kept -/

variable {le same : α → α → Bool}

variable {l : List α}

/-- Nothing is made up. -/
theorem mem_of_mem_sortDedup {x : α} (h : x ∈ sortDedup le same l) : x ∈ l :=
  (mem_insertionSort _).mp ((destutter_sublist _ _).subset h)

/-- The first of each run is kept: with `a` the last one kept, every element of a sorted list
is the same as one kept that stands no later. -/
theorem exists_mem_destutter' (hrefl : ∀ a, same a a = true) (hle : ∀ a, le a a = true)
    (htrans : ∀ {a b c}, le a b = true → le b c = true → le a c = true)
    (hsame : ∀ {a b c}, same a b = true → same b c = true → same a c = true) {a : α}
    (hsorted : (a :: l).Pairwise fun a b => le a b = true) {x : α} (hx : x ∈ a :: l) :
    ∃ y ∈ l.destutter' (fun a b => same a b = false) a, same y x = true ∧ le y x = true := by
  induction l generalizing a x with
  | nil =>
    rw [mem_singleton] at hx
    subst hx
    exact ⟨x, mem_singleton.mpr rfl, hrefl x, hle x⟩
  | cons b l ih =>
    rw [List.destutter']
    obtain ⟨hab, hbl⟩ := pairwise_cons.mp hsorted
    have hle_ab : le a b = true := hab b mem_cons_self
    split
    · rcases mem_cons.mp hx with rfl | hx
      · exact ⟨x, mem_cons_self .., hrefl x, hle x⟩
      · obtain ⟨y, hy, hyx⟩ := ih hbl hx
        exact ⟨y, mem_cons_of_mem _ hy, hyx⟩
    · next hsame_ab =>
      have hal : (a :: l).Pairwise fun a b => le a b = true :=
        pairwise_cons.mpr ⟨(forall_mem_cons.mp hab).2, (pairwise_cons.mp hbl).2⟩
      rcases mem_cons.mp hx with rfl | hx
      · exact ih hal mem_cons_self
      · rcases mem_cons.mp hx with rfl | hx
        · obtain ⟨y, hy, hya, hle_ya⟩ := ih hal mem_cons_self
          have hax : same a x = true := by simpa using hsame_ab
          exact ⟨y, hy, hsame hya hax, htrans hle_ya hle_ab⟩
        · exact ih hal (mem_cons_of_mem _ hx)

theorem pairwise_insertionSort_of (htotal : ∀ a b, le a b = true ∨ le b a = true)
    (htrans : ∀ {a b c}, le a b = true → le b c = true → le a c = true) (l : List α) :
    (l.insertionSort fun a b => le a b).Pairwise fun a b => le a b = true := by
  have : Std.Total fun a b => le a b = true := ⟨htotal⟩
  have : IsTrans α fun a b => le a b = true := ⟨fun _ _ _ => htrans⟩
  exact pairwise_insertionSort _ l

/-- **Every element is represented** by one of the same key that stands no later in the order. -/
theorem exists_mem_sortDedup (le same : α → α → Bool) (hrefl : ∀ a, same a a = true)
    (htotal : ∀ a b, le a b = true ∨ le b a = true)
    (htrans : ∀ {a b c}, le a b = true → le b c = true → le a c = true)
    (hsame : ∀ {a b c}, same a b = true → same b c = true → same a c = true) {x : α} (hx : x ∈ l) :
    ∃ y ∈ sortDedup le same l, same y x = true ∧ le y x = true := by
  have hsorted := pairwise_insertionSort_of htotal htrans l
  have hx' : x ∈ l.insertionSort fun a b => le a b := (mem_insertionSort _).mpr hx
  rw [sortDedup]
  cases hl : l.insertionSort fun a b => le a b with
  | nil =>
    rw [hl] at hx'
    cases hx'
  | cons a l' =>
    rw [hl] at hx' hsorted
    exact exists_mem_destutter' hrefl (fun a => (htotal a a).elim id id) htrans hsame hsorted hx'

/-! ## Sorting by a key of its own -/

theorem pairwise_insertionSort_lexLe (key : α → List Nat) (l : List α) :
    (l.insertionSort fun a b => lexLe (key a) (key b) = true).Pairwise
      fun a b => lexLe (key a) (key b) = true :=
  pairwise_insertionSort_of (fun a b => lexLe_total (key a) (key b)) lexLe_trans l

variable [BEq α] [LawfulBEq α] {key : α → List Nat}

/-- Dropping equal elements drops no element altogether. -/
theorem mem_sortDedup_beq {x : α} :
    x ∈ sortDedup (fun a b => lexLe (key a) (key b)) (· == ·) l ↔ x ∈ l := by
  refine ⟨mem_of_mem_sortDedup, fun hx => ?_⟩
  obtain ⟨y, hy, hyx, -⟩ := exists_mem_sortDedup (fun a b => lexLe (key a) (key b)) (· == ·)
    (fun a => beq_self_eq_true a) (fun a b => lexLe_total _ _) (fun hab hbc => lexLe_trans hab hbc)
    (fun hab hbc => by rw [eq_of_beq hab]; exact hbc) hx
  rwa [← eq_of_beq hyx]

/-- **A list sorted by a key no two elements share, each element once.** -/
theorem pairwise_lt_sortDedup (hkey : Function.Injective key) (l : List α) :
    (sortDedup (fun a b => lexLe (key a) (key b)) (· == ·) l).Pairwise
      fun a b => key a < key b := by
  have hsorted : (sortDedup (fun a b => lexLe (key a) (key b)) (· == ·) l).Pairwise
      fun a b => lexLe (key a) (key b) = true :=
    List.Pairwise.sublist (destutter_sublist _ _) (pairwise_insertionSort_lexLe key l)
  have hdiff : (sortDedup (fun a b => lexLe (key a) (key b)) (· == ·) l).IsChain
      fun a b => (a == b) = false := isChain_destutter _ _
  -- neighbours are in order and differ, so they increase, and increasing is transitive
  refine isChain_iff_pairwise.mp (isChain_iff_getElem.mpr fun i hi => ?_)
  rcases lexLe_iff_lt_or_eq.mp (hsorted.isChain.getElem i hi) with hlt | heq
  · exact hlt
  · have hne := hdiff.getElem i hi
    rw [hkey heq, beq_self_eq_true] at hne
    cases hne

omit [BEq α] [LawfulBEq α] in
/-- Two lists that increase by a key and have the same elements are equal. -/
theorem eq_of_pairwise_lt {κ : Type*} [Preorder κ] {key : α → κ} {l l' : List α}
    (hl : l.Pairwise fun a b => key a < key b) (hl' : l'.Pairwise fun a b => key a < key b)
    (hmem : ∀ x, x ∈ l ↔ x ∈ l') : l = l' := by
  have : Std.Irrefl fun a b => key a < key b := ⟨fun _ => lt_irrefl _⟩
  have : Std.Antisymm fun a b => key a < key b := ⟨fun _ _ hab hba => (hab.asymm hba).elim⟩
  exact hl.eq_of_mem_iff hl' hmem

/-- What is sorted and rid of repeats depends only on the elements there are. -/
theorem sortDedup_congr (hkey : Function.Injective key) {l l' : List α}
    (hmem : ∀ x, x ∈ l ↔ x ∈ l') :
    sortDedup (fun a b => lexLe (key a) (key b)) (· == ·) l =
      sortDedup (fun a b => lexLe (key a) (key b)) (· == ·) l' := by
  refine eq_of_pairwise_lt (pairwise_lt_sortDedup hkey l)
    (pairwise_lt_sortDedup hkey l') fun x => ?_
  rw [mem_sortDedup_beq, mem_sortDedup_beq, hmem]

omit [BEq α] [LawfulBEq α] in
/-- **Sorting finds the increasing order**, if there is one. -/
theorem insertionSort_eq_of_perm {l l' : List α} (hl' : l'.Pairwise fun a b => key a < key b)
    (hperm : l.Perm l') : (l.insertionSort fun a b => lexLe (key a) (key b) = true) = l' := by
  have hsorted := pairwise_insertionSort_lexLe key l
  have hkeys : (l'.map key).Nodup := pairwise_map.mpr (hl'.imp fun {a b} hab => hab.ne)
  refine ((perm_insertionSort _ l).trans hperm).eq_of_pairwise (fun a b ha hb hab hba => ?_)
    hsorted (hl'.imp fun {a b} hab => lexLe_iff_lt_or_eq.mpr (.inl hab))
  have hmem : a ∈ l' := ((perm_insertionSort _ l).trans hperm).mem_iff.mp ha
  exact inj_on_of_nodup_map hkeys hmem hb
    (le_antisymm (lexLe_iff_le.mp hab) (lexLe_iff_le.mp hba))

/-! ## Grouping -/

omit [BEq α] [LawfulBEq α]

variable {κ : Type*} [DecidableEq κ]

/-- **A list grouped by a key**, one group for each key there is, is the list up to order. -/
theorem flatMap_filter_perm (group : α → κ) {keys : List κ} (hkeys : keys.Nodup)
    (h : ∀ x ∈ l, group x ∈ keys) : (keys.flatMap fun k => l.filter (group · = k)).Perm l := by
  classical
  refine perm_iff_count.mpr fun x => ?_
  have hother : ∀ k, k ≠ group x → k ∈ keys → (l.filter (group · = k)).count x = 0 :=
    fun k hk _ => count_eq_zero.mpr fun hx => hk (of_decide_eq_true (mem_filter.mp hx).2).symm
  rw [count_flatMap, Function.comp_def, sum_map_eq_nsmul_single _ _ hother, count_filter (by simp)]
  by_cases hx : x ∈ l
  · rw [count_eq_one_of_mem hkeys (h x hx), one_nsmul]
  · rw [count_eq_zero_of_not_mem hx, nsmul_zero]

end Lucivy.Foundation
