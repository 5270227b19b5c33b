import Mathlib.Data.List.Basic

/-! # Neighbours in a list

Pairs of elements that stand next to each other (`windows(2)`), in a list whose parts are told
apart: by an empty slot behind each, or by a condition no pair across two parts meets.

* `neighbours` — pairs of filled slots, over slots that may be empty.
* `neighbours_parts` — the pairs are those of the parts between empty slots.
* `filter_zip_tail_flatten` — the same for `windows(2)` and a condition. -/

namespace Lucivy.Foundation

open List

variable {α : Type*}

/-- The pair of two slots, if both are filled. -/
def filledPair : Option α → Option α → List (α × α)
  | some a, some b => [(a, b)]
  | _, _ => []

/-- Neighbours that are both filled, the slot before the list given. -/
def neighbours : Option α → List (Option α) → List (α × α)
  | _, [] => []
  | prev, cur :: rest => filledPair prev cur ++ neighbours cur rest

theorem mem_filledPair {s t : Option α} {a b : α} :
    (a, b) ∈ filledPair s t ↔ s = some a ∧ t = some b := by
  cases s <;> cases t <;> simp [filledPair, eq_comm]

theorem mem_neighbours {prev : Option α} {slots : List (Option α)} {a b : α} :
    (a, b) ∈ neighbours prev slots ↔
      ∃ p : Nat, (prev :: slots)[p]? = some (some a) ∧ slots[p]? = some (some b) := by
  induction slots generalizing prev with
  | nil => simp [neighbours]
  | cons cur rest ih =>
    -- the first pair is at 0, the others are those of the rest one further
    rw [neighbours, mem_append, mem_filledPair, ih]
    constructor
    · rintro (⟨rfl, rfl⟩ | ⟨p, ha, hb⟩)
      · exact ⟨0, rfl, rfl⟩
      · exact ⟨p + 1, ha, hb⟩
    · rintro ⟨p, ha, hb⟩
      cases p with
      | zero => exact .inl ⟨Option.some.inj ha, Option.some.inj hb⟩
      | succ p => exact .inr ⟨p, ha, hb⟩

/-- With no slot before, both slots are in the list. -/
theorem mem_neighbours_none {slots : List (Option α)} {a b : α} :
    (a, b) ∈ neighbours none slots ↔
      ∃ p : Nat, slots[p]? = some (some a) ∧ slots[p + 1]? = some (some b) := by
  rw [mem_neighbours]
  constructor
  · rintro ⟨p, ha, hb⟩
    cases p with
    | zero => cases ha
    | succ p => exact ⟨p, ha, hb⟩
  · rintro ⟨p, ha, hb⟩
    exact ⟨p + 1, ha, hb⟩

theorem neighbours_some (a : α) (part : List α) (rest : List (Option α)) :
    neighbours (some a) (part.map some ++ none :: rest) =
      (a :: part).zip part ++ neighbours none rest := by
  induction part generalizing a with
  | nil => rfl
  | cons b part ih =>
    rw [map_cons, cons_append, neighbours, ih]
    rfl

/-- A part with an empty slot behind it. -/
theorem neighbours_part (part : List α) (rest : List (Option α)) :
    neighbours none (part.map some ++ none :: rest) =
      part.zip part.tail ++ neighbours none rest := by
  cases part with
  | nil => rfl
  | cons a part => exact neighbours_some a part rest

/-- Parts with an empty slot behind each. -/
theorem neighbours_parts (parts : List (List α)) :
    neighbours none (parts.flatMap fun part => part.map some ++ [none]) =
      parts.flatMap fun part => part.zip part.tail := by
  induction parts with
  | nil => rfl
  | cons part parts ih =>
    rw [flatMap_cons, append_assoc, singleton_append, neighbours_part, ih, flatMap_cons]

/-! ## Windows -/

variable {q : α × α → Bool}

/-- Two parts, and no pair across them. -/
theorem filter_zip_tail_append {l₁ l₂ : List α} (h : ∀ a ∈ l₁, ∀ b ∈ l₂, q (a, b) = false) :
    ((l₁ ++ l₂).zip (l₁ ++ l₂).tail).filter q =
      (l₁.zip l₁.tail).filter q ++ (l₂.zip l₂.tail).filter q := by
  induction l₁ with
  | nil => rfl
  | cons a l₁ ih =>
    cases l₁ with
    | nil =>
      cases l₂ with
      | nil => rfl
      | cons b l₂ =>
        have hab := h a mem_cons_self b mem_cons_self
        exact filter_cons_of_neg (by simp [hab])
    | cons a' l₁ =>
      have hrest := ih (forall_mem_cons.mp h).2
      have hzip : ∀ l : List α, (a :: a' :: l).zip (a :: a' :: l).tail =
          (a, a') :: (a' :: l).zip (a' :: l).tail := fun l => rfl
      rw [cons_append, cons_append, hzip, hzip, filter_cons, filter_cons, ← cons_append, hrest]
      split <;> rfl

/-- **Parts with no pair across two of them.** -/
theorem filter_zip_tail_flatten {parts : List (List α)}
    (h : parts.Pairwise fun l₁ l₂ => ∀ a ∈ l₁, ∀ b ∈ l₂, q (a, b) = false) :
    (parts.flatten.zip parts.flatten.tail).filter q =
      parts.flatMap fun part => (part.zip part.tail).filter q := by
  induction parts with
  | nil => rfl
  | cons part parts ih =>
    obtain ⟨hpart, hparts⟩ := pairwise_cons.mp h
    rw [flatten_cons, filter_zip_tail_append, ih hparts, flatMap_cons]
    intro a ha b hb
    obtain ⟨l, hl, hbl⟩ := mem_flatten.mp hb
    exact hpart l hl a ha b hbl

end Lucivy.Foundation
