import Mathlib.Algebra.BigOperators.Group.Finset.Basic
import Mathlib.Algebra.Order.Group.Multiset

/-! # Mailboxes and pools of actors

What is used of queues that are read in order and of quantities summed over a pool of actors of
which one moves at a time.

* `Fenced` — a queue whose last message is a given one, all others being plain.
* `Fenced.cons` — taking the first message leaves a fenced queue, or was the fence itself and
  leaves nothing.
* `Held` — how a queue stands while a drain goes through a system: not reached yet, fenced until
  the fence is taken, empty from then on. `Held.take`, `Held.take_fence`, `Held.working` say what
  the actor that reads it may do.
* `sum_range_exchange` — what one actor gives up of a sum, something outside it may take. -/

namespace Lucivy.Foundation

open Finset
open List hiding range mem_range sum_range_succ

variable {M : Type*}

/-- **A fenced queue**: plain messages, then the fence. -/
def Fenced (plain : M → Prop) (fence : M) (q : List M) : Prop :=
  ∃ before, q = before ++ [fence] ∧ ∀ m ∈ before, plain m

/-- A plain queue is fenced by a message behind it. -/
theorem Fenced.of_plain {plain : M → Prop} {q : List M} (h : ∀ m ∈ q, plain m) (fence : M) :
    Fenced plain fence (q ++ [fence]) :=
  ⟨q, rfl, h⟩

/-- The first message is a plain one in front of a fenced queue, or it is the fence and the
last. -/
theorem Fenced.cons {plain : M → Prop} {fence m : M} {q : List M}
    (h : Fenced plain fence (m :: q)) :
    (plain m ∧ Fenced plain fence q) ∨ (m = fence ∧ q = []) := by
  obtain ⟨before, heq, hplain⟩ := h
  cases before with
  | nil =>
    rw [nil_append, List.cons.injEq] at heq
    exact .inr heq
  | cons m' before =>
    obtain ⟨rfl, rfl⟩ := heq
    exact .inl ⟨hplain m mem_cons_self, before, rfl, fun x hx => hplain x (mem_cons_of_mem m hx)⟩

/-- Where a drain stands with regard to an actor. -/
inductive Barrier
  /-- Not there yet. -/
  | ahead
  /-- Under way. -/
  | under
  /-- Over. -/
  | passed
deriving DecidableEq, Repr

/-- **A queue a drain goes through**: plain messages ahead of it; while it is under way, fenced as
long as the answer is waited for, and then empty with the actor at rest; the same once it is
over. -/
def Held (plain : M → Prop) (fence : M) (waits rests : Prop) (q : List M) : Barrier → Prop
  | .ahead => ∀ m ∈ q, plain m
  | .under => (waits → Fenced plain fence q) ∧ (¬ waits → q = [] ∧ rests)
  | .passed => q = [] ∧ rests

variable {plain : M → Prop} {fence m : M} {waits rests : Prop} {q : List M} {b : Barrier}

/-- A plain message is taken, whatever the actor then works at. -/
theorem Held.take (h : Held plain fence waits rests (m :: q) b) (hm : plain m)
    (hfence : ¬ plain fence) (rests' : Prop) : Held plain fence waits rests' q b := by
  cases b with
  | ahead => exact fun x hx => h x (mem_cons_of_mem m hx)
  | under =>
    refine ⟨fun hw => ?_, fun hw => absurd (h.2 hw).1 (cons_ne_nil m q)⟩
    rcases (h.1 hw).cons with hc | hc
    · exact hc.2
    · exact absurd (hc.1 ▸ hm) hfence
  | passed => exact absurd h.1 (cons_ne_nil m q)

/-- A message that is not plain is the fence: it was waited for, and nothing is behind it. -/
theorem Held.take_fence (h : Held plain fence waits rests (m :: q) b) (hm : ¬ plain m) :
    b = .under ∧ waits ∧ m = fence ∧ q = [] := by
  cases b with
  | ahead => exact absurd (h m mem_cons_self) hm
  | under =>
    have hw : waits := by
      by_contra hw
      exact cons_ne_nil m q (h.2 hw).1
    rcases (h.1 hw).cons with hc | hc
    · exact absurd hc.1 hm
    · exact ⟨rfl, hw, hc⟩
  | passed => exact absurd h.1 (cons_ne_nil m q)

/-- An actor that works is one the drain has not gone through. -/
theorem Held.working (h : Held plain fence waits rests q b) (hr : ¬ rests) (rests' : Prop) :
    b ≠ .passed ∧ Held plain fence waits rests' q b := by
  cases b with
  | ahead => exact ⟨nofun, h⟩
  | under => exact ⟨nofun, h.1, fun hw => absurd (h.2 hw).2 hr⟩
  | passed => exact absurd h.2 hr

/-- Whether the answer is waited for matters only while the drain is under way. -/
theorem Held.congr_waits {waits' : Prop} (h : Held plain fence waits rests q b)
    (hw : b = .under → (waits ↔ waits')) : Held plain fence waits' rests q b := by
  cases b with
  | under => rwa [Held, ← hw rfl]
  | ahead | passed => exact h

/-- The drain reaches a queue: its fence is behind everything. -/
theorem Held.reached (h : Held plain fence waits rests q .ahead) {waits' : Prop} (hw : waits')
    (rests' : Prop) : Held plain fence waits' rests' (q ++ [fence]) .under :=
  ⟨fun _ => Fenced.of_plain h fence, fun hn => absurd hw hn⟩

/-- The answer is there: the drain is over. -/
theorem Held.answered (h : Held plain fence waits rests q .under) (hw : ¬ waits) (waits' : Prop) :
    Held plain fence waits' rests q .passed :=
  h.2 hw

/-- Of one message to each member of a pool, a member gets its own. -/
theorem filterMap_range_ite (n i : Nat) (f : Nat → M) :
    (List.range n).filterMap (fun k => if k = i then some (f k) else none) =
      if i < n then [f i] else [] := by
  induction n with
  | zero => rfl
  | succ n ih =>
    rw [range_succ, filterMap_append, ih]
    by_cases hi : i = n
    · subst hi
      simp
    · have hne : ¬ n = i := fun h => hi h.symm
      have hlt : i < n + 1 ↔ i < n := by omega
      simp [hne, hlt]

/-- **One actor of a pool moves**: what its part of a sum loses, the rest may gain. -/
theorem sum_range_exchange {A : Type*} [AddCommMonoid A] {n j : Nat} (hj : j < n) {f g : Nat → A}
    {a b : A} (hne : ∀ i, i ≠ j → g i = f i) (hmove : g j + a = f j + b) :
    ∑ i ∈ range n, g i + a = ∑ i ∈ range n, f i + b := by
  have hmem : j ∈ range n := mem_range.mpr hj
  have hrest : ∑ i ∈ (range n).erase j, g i = ∑ i ∈ (range n).erase j, f i :=
    sum_congr rfl fun i hi => hne i (ne_of_mem_erase hi)
  rw [← add_sum_erase _ g hmem, ← add_sum_erase _ f hmem, hrest, add_right_comm, hmove,
    add_right_comm]

/-- The lists of a pool, one behind the other, as a sum. -/
theorem coe_flatMap_range (n : Nat) (f : Nat → List M) :
    (((List.range n).flatMap f : List M) : Multiset M) = ∑ i ∈ range n, (f i : Multiset M) := by
  induction n with
  | zero => rfl
  | succ n ih =>
    rw [range_succ, flatMap_append, ← Multiset.coe_add, ih, sum_range_succ, flatMap_singleton]

/-- Filtering every part filters the sum. -/
theorem sum_range_filter (n : Nat) (f : Nat → List M) (p : M → Prop) [DecidablePred p] :
    ∑ i ∈ range n, (((f i).filter fun m => p m : List M) : Multiset M) =
      (∑ i ∈ range n, (f i : Multiset M)).filter p := by
  rw [← coe_flatMap_range, ← coe_flatMap_range, Multiset.filter_coe, filter_flatMap]

end Lucivy.Foundation
