import Mathlib.Data.List.Induction

/-! # Runs of a labelled step relation

The rules every "for all interleavings" result of this development is read from. A system is
a step relation `step : σ → ℓ → σ → Prop`; a label carries the event and whatever the event
answered.

* `Run step s ls t` — the labels `ls`, in order, lead from `s` to `t`.
* `Guarded step C` — the same system with the steps restricted to those meeting `C`.
* `Run.mono` — what holds of every single step holds of every step of a run.
* `Run.invariant`, `Run.invariant_log` — what one step preserves, a whole run preserves; the
  second form lets the invariant speak of the labels seen so far.
* `Run.of_foldlM` — a step function run over a list of labels. -/

namespace Lucivy.Foundation

variable {σ ℓ : Type*}

/-- **Runs.** `Run step s ls t`: the labels `ls`, in the order they happened, lead from `s`
to `t`. Runs grow at their end, as histories do. -/
inductive Run (step : σ → ℓ → σ → Prop) (s : σ) : List ℓ → σ → Prop
  | nil : Run step s [] s
  | snoc {t u : σ} {ls : List ℓ} {l : ℓ} : Run step s ls t → step t l u → Run step s (ls ++ [l]) u

/-- The steps of `step` that meet the condition `C` on the state before and the label. -/
def Guarded (step : σ → ℓ → σ → Prop) (C : σ → ℓ → Prop) (s : σ) (l : ℓ) (t : σ) : Prop :=
  C s l ∧ step s l t

variable {step : σ → ℓ → σ → Prop}

variable {ls : List ℓ}

/-- What holds of every single step holds of every step of a run. -/
theorem Run.mono {step' : σ → ℓ → σ → Prop} (h : ∀ s l t, step s l t → step' s l t) {s t : σ}
    (hrun : Run step s ls t) : Run step' s ls t := by
  induction hrun with
  | nil => exact .nil
  | snoc _ hstep ih => exact .snoc ih (h _ _ _ hstep)

/-- **Invariant rule.** What every step preserves, every run preserves. -/
theorem Run.invariant {I : σ → Prop} (hstep : ∀ s l t, I s → step s l t → I t) {s t : σ}
    (h : Run step s ls t) (hs : I s) : I t := by
  induction h with
  | nil => exact hs
  | snoc _ hlast ih => exact hstep _ _ _ ih hlast

/-- **Invariant rule with history.** The invariant may mention the labels seen so far. -/
theorem Run.invariant_log {I : List ℓ → σ → Prop}
    (hstep : ∀ ls s l t, I ls s → step s l t → I (ls ++ [l]) t) {s t : σ} (h : Run step s ls t)
    (hs : I [] s) : I ls t := by
  induction h with
  | nil => exact hs
  | snoc _ hlast ih => exact hstep _ _ _ _ ih hlast

/-- A step function run over labels is a run of its steps. -/
theorem Run.of_foldlM {f : σ → ℓ → Option σ} {s t : σ} (h : ls.foldlM f s = some t) :
    Run (fun s l t => f s l = some t) s ls t := by
  induction ls using List.reverseRecOn generalizing t with
  | nil =>
    obtain rfl : s = t := by simpa using h
    exact .nil
  | append_singleton ls l ih =>
    rw [List.foldlM_append, Option.bind_eq_bind, Option.bind_eq_some_iff] at h
    obtain ⟨u, hu, hl⟩ := h
    refine .snoc (ih hu) ?_
    simpa using hl

end Lucivy.Foundation
