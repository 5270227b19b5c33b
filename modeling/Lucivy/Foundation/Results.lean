import Mathlib.Data.List.Basic

/-! # Computations that may fail

Rules for `Except`: what a sequence of computations comes to, and what a traversal yields.

* `bind_eq_ok`, `bind_eq_error` — a sequence by its parts.
* `mapM_ok_mem` — a traversal that succeeds yields exactly the values of the elements. -/

namespace Lucivy.Foundation

open List

variable {ε α β : Type}

variable {f : α → Except ε β}

theorem bind_eq_ok {x : Except ε α} {b : β} : x >>= f = .ok b ↔ ∃ a, x = .ok a ∧ f a = .ok b := by
  cases x with
  | error e => simp [bind, Except.bind]
  | ok a => simp [bind, Except.bind]

theorem bind_eq_error {x : Except ε α} {e : ε} :
    x >>= f = .error e ↔ x = .error e ∨ ∃ a, x = .ok a ∧ f a = .error e := by
  cases x with
  | error e' => simp [bind, Except.bind]
  | ok a => simp [bind, Except.bind]

/-- A traversal that succeeds yields the values of its elements, and every element has one. -/
theorem mapM_ok_mem {xs : List α} {ys : List β} (h : xs.mapM f = .ok ys) :
    (∀ x ∈ xs, ∃ y ∈ ys, f x = .ok y) ∧ ∀ y ∈ ys, ∃ x ∈ xs, f x = .ok y := by
  induction xs generalizing ys with
  | nil =>
    cases h
    exact ⟨forall_mem_nil _, forall_mem_nil _⟩
  | cons x xs ih =>
    rw [mapM_cons, bind_eq_ok] at h
    obtain ⟨y, hx, h⟩ := h
    obtain ⟨rest, hxs, h⟩ := bind_eq_ok.mp h
    cases h
    obtain ⟨hforth, hback⟩ := ih hxs
    refine ⟨forall_mem_cons.mpr ⟨⟨y, mem_cons_self, hx⟩, fun x' hx' => ?_⟩,
      forall_mem_cons.mpr ⟨⟨x, mem_cons_self, hx⟩, fun y' hy' => ?_⟩⟩
    · obtain ⟨y', hy', hfx⟩ := hforth x' hx'
      exact ⟨y', mem_cons_of_mem _ hy', hfx⟩
    · obtain ⟨x', hx', hfx⟩ := hback y' hy'
      exact ⟨x', mem_cons_of_mem _ hx', hfx⟩

end Lucivy.Foundation
