import Lucivy.Foundation.Bytes

/-! # Delta-coded lists with checkpoints

A list coded element by element, each against a state that the elements before it leave. In
front of every run of `every` elements the writer notes the state and how many bytes it has
written, so that a reader can start there.

* `codeFrom`, `stateAfter` — the bytes of a list, and the state it leaves.
* `codeLoop` — the writer's loop, with its checkpoints.
* `codeLoop_eq` — what the loop makes of a list.
* `codeFrom_drop` — what a reader that starts at a checkpoint finds. -/

namespace Lucivy.Foundation

open List

variable {σ α : Type} (enc : σ → α → Bytes) (next : σ → α → σ)

/-- The bytes of a list, from a state on. -/
def codeFrom : σ → List α → Bytes
  | _, [] => []
  | s, a :: l => enc s a ++ codeFrom (next s a) l

/-- The state some elements leave. -/
def stateAfter (s : σ) (l : List α) : σ := l.foldl next s

/-- How many runs are complete in front of the last of `n` elements. -/
def checkpointCount (every n : Nat) : Nat := (n - 1) / every

/-- The writer's loop at element `i`: a checkpoint in front of each run but the first. -/
def codeLoop (every : Nat) : Nat → σ → List α → Bytes → List (σ × Nat) → Bytes × List (σ × Nat)
  | _, _, [], body, checkpoints => (body, checkpoints)
  | i, s, a :: l, body, checkpoints =>
    codeLoop every (i + 1) (next s a) l (body ++ enc s a)
      (if 0 < i ∧ i % every = 0 then checkpoints ++ [(s, body.length)] else checkpoints)

theorem codeFrom_append (s : σ) (l m : List α) :
    codeFrom enc next s (l ++ m) =
      codeFrom enc next s l ++ codeFrom enc next (stateAfter next s l) m := by
  induction l generalizing s with
  | nil => rfl
  | cons a l ih =>
    rw [cons_append, codeFrom, codeFrom, ih, append_assoc]
    rfl

/-- Every element takes a byte. -/
theorem length_le_codeFrom (henc : ∀ s a, enc s a ≠ []) (s : σ) (l : List α) :
    l.length ≤ (codeFrom enc next s l).length := by
  induction l generalizing s with
  | nil => exact Nat.zero_le _
  | cons a l ih =>
    have hpos := length_pos_iff.mpr (henc s a)
    have hrest := ih (next s a)
    rw [length_cons, codeFrom, length_append]
    omega

/-! ## Checkpoints -/

/-- Checkpoint `k`: the state behind the first `k` runs, and how far they reach. -/
def checkpointAt (every : Nat) (s : σ) (l : List α) (k : Nat) : σ × Nat :=
  (stateAfter next s (l.take (k * every)), (codeFrom enc next s (l.take (k * every))).length)

/-- The checkpoints in front of element `i`. -/
def checkpointsBefore (every : Nat) (s : σ) (l : List α) (i : Nat) : List (σ × Nat) :=
  (List.range (checkpointCount every i)).map fun j => checkpointAt enc next every s l (j + 1)

theorem length_checkpointsBefore (every : Nat) (s : σ) (l : List α) (i : Nat) :
    (checkpointsBefore enc next every s l i).length = checkpointCount every i := by
  rw [checkpointsBefore, length_map, length_range]

variable {every : Nat}

theorem getElem?_checkpointsBefore {s : σ} {l : List α} {i k : Nat} (hk : 0 < k)
    (hk' : k ≤ checkpointCount every i) :
    (checkpointsBefore enc next every s l i)[k - 1]? =
      some (checkpointAt enc next every s l k) := by
  rw [checkpointsBefore, getElem?_map, getElem?_range (by omega), Option.map_some,
    Nat.sub_add_cancel hk]

/-- One more element: a checkpoint in front of it where a run starts. -/
theorem checkpointsBefore_succ (s : σ) (done rest : List α) :
    checkpointsBefore enc next every s (done ++ rest) (done.length + 1) =
      if 0 < done.length ∧ done.length % every = 0 then
        checkpointsBefore enc next every s (done ++ rest) done.length ++
          [(stateAfter next s done, (codeFrom enc next s done).length)]
      else checkpointsBefore enc next every s (done ++ rest) done.length := by
  have hcount : checkpointCount every (done.length + 1) = done.length / every := rfl
  cases hlen : done.length with
  | zero => rw [if_neg (by omega), checkpointsBefore, checkpointsBefore, checkpointCount,
      checkpointCount]
  | succ n =>
    have hbefore : checkpointCount every (n + 1) = n / every := rfl
    rw [hlen] at hcount
    split_ifs with h
    · -- a run is complete: one checkpoint more, at the end of what is done
      have hdvd := Nat.dvd_of_mod_eq_zero h.2
      have hwhole : (n / every + 1) * every = done.length := by
        rw [← Nat.succ_div_of_dvd hdvd, Nat.div_mul_cancel hdvd, hlen]
      rw [checkpointsBefore, checkpointsBefore, hcount, hbefore, Nat.succ_div_of_dvd hdvd,
        range_succ, map_append, map_singleton, checkpointAt, hwhole, take_left]
    · rw [checkpointsBefore, hcount, Nat.succ_div_of_not_dvd fun hdvd =>
        h ⟨n.succ_pos, Nat.mod_eq_zero_of_dvd hdvd⟩]
      rfl

/-- **The writer's loop**, from any point of the list on. -/
theorem codeLoop_append (s : σ) (done rest : List α) :
    codeLoop enc next every done.length (stateAfter next s done) rest (codeFrom enc next s done)
        (checkpointsBefore enc next every s (done ++ rest) done.length) =
      (codeFrom enc next s (done ++ rest),
        checkpointsBefore enc next every s (done ++ rest) (done ++ rest).length) := by
  induction rest generalizing done with
  | nil => rw [codeLoop, append_nil]
  | cons a rest ih =>
    have h := ih (done ++ [a])
    have hbody : codeFrom enc next s (done ++ [a]) =
        codeFrom enc next s done ++ enc (stateAfter next s done) a := by
      rw [codeFrom_append, codeFrom, codeFrom, append_nil]
    have hstate : stateAfter next s (done ++ [a]) = next (stateAfter next s done) a := by
      rw [stateAfter, foldl_append]
      rfl
    rw [append_assoc, singleton_append, hstate, hbody, length_append,
      length_singleton, checkpointsBefore_succ enc next] at h
    rw [codeLoop]
    exact h

/-- **What the writer makes of a list**: its bytes, and a checkpoint for each complete run. -/
theorem codeLoop_eq (s : σ) (l : List α) :
    codeLoop enc next every 0 s l [] [] =
      (codeFrom enc next s l, checkpointsBefore enc next every s l l.length) := by
  have hnone : checkpointsBefore enc next every s l 0 = [] := by
    rw [checkpointsBefore, checkpointCount, Nat.zero_sub, Nat.zero_div]
    rfl
  exact hnone ▸ codeLoop_append enc next s [] l

/-- The bytes in front of a checkpoint, and those behind it. -/
theorem codeFrom_drop (every : Nat) (s : σ) (l : List α) (k : Nat) :
    codeFrom enc next s l = codeFrom enc next s (l.take (k * every)) ++
      codeFrom enc next (checkpointAt enc next every s l k).1 (l.drop (k * every)) := by
  conv =>
    lhs
    rw [← take_append_drop (k * every) l, codeFrom_append]
  rfl

/-- The state a checkpoint has is that behind the last element in front of it. -/
theorem checkpointAt_last (hevery : 0 < every) {s : σ} {l : List α} {k : Nat} {a : α} (hk : 0 < k)
    (ha : l[k * every - 1]? = some a) : (checkpointAt enc next every s l k).1 =
      next (stateAfter next s (l.take (k * every - 1))) a := by
  obtain ⟨hi, rfl⟩ := List.getElem?_eq_some_iff.mp ha
  have htake := take_succ_eq_append_getElem hi
  rw [Nat.sub_add_cancel (Nat.mul_pos hk hevery)] at htake
  rw [checkpointAt, htake, stateAfter, foldl_append]
  rfl

theorem checkpointAt_le (every : Nat) (s : σ) (l : List α) (k : Nat) :
    (checkpointAt enc next every s l k).2 ≤ (codeFrom enc next s l).length := by
  rw [codeFrom_drop enc next every s l k, length_append]
  exact Nat.le_add_right ..

end Lucivy.Foundation
