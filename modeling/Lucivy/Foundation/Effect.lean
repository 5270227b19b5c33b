import Mathlib.Order.Defs.Unbundled

/-! # Programs with state and failure

A handler of an actor reads and writes its state and may stop with an error in the middle;
what it wrote before the error stays. `EStateM ε σ α` is exactly that monad. This file has
the rules for statements about the state such a program leaves behind, whether it succeeded
or failed:

* `finalState x s` — the state after running `x` from `s`, on success and on failure alike.
* `Relates R x` — every run of `x` relates its first state to its last by `R`; closed under
  sequencing for a reflexive and transitive `R`.
* `Preserves I x` — the special case "`x` keeps the invariant `I`".
* `Keeps f x` — the special case "`x` leaves `f` of the state alone".
* `Triple P x Q E` — from a state with `P`, a success leaves `Q` of the value and the state
  and a failure leaves `E`: for programs whose later parts rely on what the earlier ones
  established. -/

namespace Lucivy.Foundation

universe u

variable {ε σ α β : Type u} {γ : Type*}

/-- The state `x` leaves behind when started in `s`. -/
def finalState (x : EStateM ε σ α) (s : σ) : σ :=
  match x.run s with
  | .ok _ t => t
  | .error _ t => t

variable {x : EStateM ε σ α} {f : σ → γ}

/-- The state behind a success, -/
theorem finalState_eq_of_ok {s t : σ} {a : α} (h : x.run s = .ok a t) : finalState x s = t := by
  rw [finalState, h]

/-- behind an error, -/
theorem finalState_eq_of_error {s t : σ} {e : ε} (h : x.run s = .error e t) :
    finalState x s = t := by
  rw [finalState, h]

/-- Running a sequence: the second program runs from where the first succeeded. -/
theorem run_bind_of_ok {f : α → EStateM ε σ β} {s t : σ} {a : α} (h : x.run s = .ok a t) :
    (x >>= f).run s = (f a).run t := by
  simp only [EStateM.run] at h ⊢
  simp only [bind, EStateM.bind, h]

/-- Running a sequence: a failure of the first program ends it, with the state kept. -/
theorem run_bind_of_error {f : α → EStateM ε σ β} {s t : σ} {e : ε} (h : x.run s = .error e t) :
    (x >>= f).run s = .error e t := by
  simp only [EStateM.run] at h ⊢
  simp only [bind, EStateM.bind, h]

/-- Running a program that reads the state first. -/
theorem run_get_bind (k : σ → EStateM ε σ α) (s : σ) :
    (get >>= k : EStateM ε σ α).run s = (k s).run s := rfl

/-- Run `x` and hand its outcome on as a value: the state is kept either way. -/
def attempt (x : EStateM ε σ α) : EStateM ε σ (Except ε α) := fun s =>
  match x.run s with
  | .ok a t => .ok (.ok a) t
  | .error e t => .ok (.error e) t

/-- and behind a caught one. -/
@[simp] theorem finalState_attempt (x : EStateM ε σ α) (s : σ) :
    finalState (attempt x) s = finalState x s := by
  simp only [finalState, attempt, EStateM.run]
  cases x s <;> rfl

/-- **Related states.** Every run of `x`, successful or not, ends in a state that `R` relates
to the one it started from. -/
def Relates (R : σ → σ → Prop) (x : EStateM ε σ α) : Prop :=
  ∀ s, R s (finalState x s)

section Relates

variable {R : σ → σ → Prop}

/-- A value, -/
theorem relates_pure (hR : ∀ s, R s s) (a : α) : Relates R (pure a : EStateM ε σ α) := fun s => hR s

/-- an error, -/
theorem relates_throw (hR : ∀ s, R s s) (e : ε) : Relates R (throw e : EStateM ε σ α) :=
  fun s => hR s

variable {x : EStateM ε σ α}

/-- **Sequencing.** A transitive relation kept by both parts is kept by the sequence. -/
theorem relates_bind (hR : ∀ s t u, R s t → R t u → R s u) {f : α → EStateM ε σ β}
    (hx : Relates R x) (hf : ∀ a, Relates R (f a)) : Relates R (x >>= f) := by
  intro s
  have hxs := hx s
  cases h : x.run s with
  | ok a t =>
    rw [finalState_eq_of_ok h] at hxs
    have hft := hf a t
    rw [finalState, run_bind_of_ok h]
    exact hR s t _ hxs hft
  | error e t =>
    rw [finalState_eq_of_error h] at hxs
    rwa [finalState_eq_of_error (run_bind_of_error h)]

/-- a read, -/
theorem relates_get (hR : ∀ s, R s s) : Relates R (get : EStateM ε σ σ) := fun s => hR s

/-- a write, -/
theorem relates_modify {f : σ → σ} (h : ∀ s, R s (f s)) :
    Relates R (modify f : EStateM ε σ PUnit) :=
  h

/-- Reading the state first: the rest runs from the very state it was given. -/
theorem relates_get_bind {k : σ → EStateM ε σ α} (h : ∀ s, R s (finalState (k s) s)) :
    Relates R (get >>= k) :=
  h

/-- a caught error, -/
theorem relates_attempt (hx : Relates R x) : Relates R (attempt x) := by
  intro s
  rw [finalState_attempt]
  exact hx s

/-- a choice. -/
theorem relates_ite {c : Prop} [Decidable c] {x y : EStateM ε σ α} (hx : Relates R x)
    (hy : Relates R y) : Relates R (if c then x else y) := by
  split
  · exact hx
  · exact hy

/-- A weaker relation holds of the same programs. -/
theorem Relates.mono {R' : σ → σ → Prop} (hx : Relates R x) (h : ∀ s t, R s t → R' s t) :
    Relates R' x :=
  fun s => h _ _ (hx s)

end Relates

/-- `x` keeps `I`: started in a state with `I`, it leaves one with `I`. -/
def Preserves (I : σ → Prop) (x : EStateM ε σ α) : Prop :=
  Relates (fun s t => I s → I t) x

section Preserves

variable {I : σ → Prop}

/-- A value, -/
theorem preserves_pure (a : α) : Preserves I (pure a : EStateM ε σ α) := fun _ h => h

/-- an error, -/
theorem preserves_throw (e : ε) : Preserves I (throw e : EStateM ε σ α) := fun _ h => h

/-- and one after the other. -/
theorem preserves_bind {x : EStateM ε σ α} {f : α → EStateM ε σ β} (hx : Preserves I x)
    (hf : ∀ a, Preserves I (f a)) : Preserves I (x >>= f) :=
  relates_bind (R := fun s t => I s → I t) (fun _ _ _ h₁ h₂ h => h₂ (h₁ h)) hx hf

end Preserves

/-- `x` leaves `f` of the state alone, on every run. -/
def Keeps (f : σ → γ) (x : EStateM ε σ α) : Prop :=
  Relates (fun s t => f t = f s) x

/-- A value, -/
theorem keeps_pure (f : σ → γ) (a : α) : Keeps f (pure a : EStateM ε σ α) := fun _ => rfl

/-- an error, -/
theorem keeps_throw (f : σ → γ) (e : ε) : Keeps f (throw e : EStateM ε σ α) := fun _ => rfl

/-- one after the other, -/
theorem keeps_bind {g : α → EStateM ε σ β} (hx : Keeps f x) (hg : ∀ a, Keeps f (g a)) :
    Keeps f (x >>= g) :=
  relates_bind (fun _ _ _ h₁ h₂ => h₂.trans h₁) hx hg

/-- a read, -/
theorem keeps_get (f : σ → γ) : Keeps f (get : EStateM ε σ σ) := fun _ => rfl

/-- a write, -/
theorem keeps_modify {g : σ → σ} (h : ∀ s, f (g s) = f s) :
    Keeps f (modify g : EStateM ε σ PUnit) :=
  h

/-- a read and its use, -/
theorem keeps_get_bind {k : σ → EStateM ε σ α} (h : ∀ s, f (finalState (k s) s) = f s) :
    Keeps f (get >>= k) :=
  h

/-- a choice. -/
theorem keeps_ite {c : Prop} [Decidable c] {x y : EStateM ε σ α} (hx : Keeps f x) (hy : Keeps f y) :
    Keeps f (if c then x else y) :=
  relates_ite hx hy

/-- **Triples.** Started with `P`, the program succeeds with `Q`, or fails with `E`. -/
structure Triple (P : σ → Prop) (x : EStateM ε σ α) (Q : α → σ → Prop) (E : σ → Prop) :
    Prop where
  ok : ∀ s, P s → ∀ a t, x.run s = .ok a t → Q a t
  error : ∀ s, P s → ∀ e t, x.run s = .error e t → E t

section Triple

variable {P P' : σ → Prop} {Q Q' : α → σ → Prop} {E : σ → Prop} {R : β → σ → Prop}

/-- A value. -/
theorem triple_pure {a : α} (h : ∀ s, P s → Q a s) : Triple P (pure a : EStateM ε σ α) Q E where
  ok s hs b t hrun := by cases hrun; exact h s hs
  error s hs e t hrun := by cases hrun

/-- An error. -/
theorem triple_throw {e : ε} (h : ∀ s, P s → E s) : Triple P (throw e : EStateM ε σ α) Q E where
  ok s hs b t hrun := by cases hrun
  error s hs e t hrun := by cases hrun; exact h s hs

/-- A write. -/
theorem triple_modify {f : σ → σ} {Q : PUnit → σ → Prop} (h : ∀ s, P s → Q ⟨⟩ (f s)) :
    Triple P (modify f : EStateM ε σ PUnit) Q E where
  ok s hs b t hrun := by cases hrun; exact h s hs
  error s hs e t hrun := by cases hrun

/-- A new state. -/
theorem triple_set {t : σ} {Q : PUnit → σ → Prop} (h : ∀ s, P s → Q ⟨⟩ t) :
    Triple P (set t : EStateM ε σ PUnit) Q E where
  ok s hs b u hrun := by cases hrun; exact h s hs
  error s hs e u hrun := by cases hrun

variable {x : EStateM ε σ α}

/-- **Sequencing**: what the first part establishes, the second starts from. -/
theorem triple_bind {f : α → EStateM ε σ β} (hx : Triple P x Q E) (hf : ∀ a, Triple (Q a) (f a) R E)
    : Triple P (x >>= f) R E := by
  constructor
  · intro s hs b u hrun
    cases h : x.run s with
    | ok a t =>
      rw [run_bind_of_ok h] at hrun
      exact (hf a).ok t (hx.ok s hs a t h) b u hrun
    | error e t =>
      rw [run_bind_of_error h] at hrun
      cases hrun
  · intro s hs e u hrun
    cases h : x.run s with
    | ok a t =>
      rw [run_bind_of_ok h] at hrun
      exact (hf a).error t (hx.ok s hs a t h) e u hrun
    | error e' t =>
      rw [run_bind_of_error h] at hrun
      cases hrun
      exact hx.error s hs e u h

/-- Reading the state first. -/
theorem triple_get_bind {k : σ → EStateM ε σ α}
    (h : ∀ s, P s → Triple (· = s) (k s) Q E) : Triple P (get >>= k) Q E where
  ok s hs a t hrun := (h s hs).ok s rfl a t hrun
  error s hs e t hrun := (h s hs).error s rfl e t hrun

/-- A choice. -/
theorem triple_ite {c : Prop} [Decidable c] {x y : EStateM ε σ α} (hx : c → Triple P x Q E)
    (hy : ¬ c → Triple P y Q E) : Triple P (if c then x else y) Q E := by
  by_cases hc : c
  · rw [if_pos hc]
    exact hx hc
  · rw [if_neg hc]
    exact hy hc

/-- **Consequence.** -/
theorem Triple.mono {E' : σ → Prop} (h : Triple P x Q E) (hP : ∀ s, P' s → P s)
    (hQ : ∀ a s, Q a s → Q' a s) (hE : ∀ s, E s → E' s) :
    Triple P' x Q' E' where
  ok s hs a t hrun := hQ a t (h.ok s (hP s hs) a t hrun)
  error s hs e t hrun := hE t (h.error s (hP s hs) e t hrun)

/-- A stronger precondition. -/
theorem Triple.mono_pre (h : Triple P x Q E) (hP : ∀ s, P' s → P s) : Triple P' x Q E :=
  h.mono hP (fun _ _ h => h) fun _ h => h

/-- A weaker error case. -/
theorem Triple.mono_error {E' : σ → Prop} (h : Triple P x Q E) (hE : ∀ s, E s → E' s) :
    Triple P x Q E' :=
  h.mono (fun _ h => h) (fun _ _ h => h) hE

/-- A triple whose two ends agree is about the state the program leaves. -/
theorem Triple.finalState {I : σ → Prop} (h : Triple P x (fun _ => I) I) {s : σ} (hs : P s) :
    I (finalState x s) := by
  cases hx : x.run s with
  | ok a t =>
    rw [finalState_eq_of_ok hx]
    exact h.ok s hs a t hx
  | error e t =>
    rw [finalState_eq_of_error hx]
    exact h.error s hs e t hx

/-- A program that relates its states gives a triple for whatever the relation carries. -/
theorem triple_of_relates {I J : σ → Prop} {S : σ → σ → Prop} (h : Relates S x)
    (hS : ∀ s t, I s → S s t → J t) : Triple I x (fun _ => J) J where
  ok s hs _ t hrun := hS s t hs (finalState_eq_of_ok hrun ▸ h s)
  error s hs _ t hrun := hS s t hs (finalState_eq_of_error hrun ▸ h s)

/-- What an attempted program establishes, by its outcome. -/
theorem triple_attempt (hx : Triple P x Q E) {F : σ → Prop} :
    Triple P (attempt x) (fun r s => (∀ a, r = .ok a → Q a s) ∧ ∀ e, r = .error e → E s) F := by
  constructor
  · intro s hs r t hrun
    cases h : x.run s with
    | ok a u =>
      simp only [attempt, EStateM.run] at h hrun
      rw [h] at hrun
      cases hrun
      refine ⟨fun b hb => ?_, fun e he => by cases he⟩
      cases hb
      exact hx.ok s hs a t h
    | error e u =>
      simp only [attempt, EStateM.run] at h hrun
      rw [h] at hrun
      cases hrun
      refine ⟨fun b hb => (by cases hb), fun e' he => ?_⟩
      exact hx.error s hs e t h
  · intro s hs e t hrun
    simp only [attempt, EStateM.run] at hrun
    cases h : x s <;> rw [h] at hrun <;> cases hrun

end Triple

end Lucivy.Foundation
