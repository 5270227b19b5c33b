import Mathlib.Algebra.GroupWithZero.Nat
import Mathlib.Data.List.Infix
import Mathlib.Data.String.Basic

/-! # Texts measured in bytes

A text is a list of characters; lengths and offsets are counted in UTF-8 bytes
(`String.utf8Len`), and a text is only ever cut between two characters.

* `cutAfter n t` — cut at the first character boundary at or after `n` bytes.
* `cutBefore n t` — cut at the last character boundary at or before `n` bytes.
* `offsets base t` — every character with its byte offset. -/

namespace Lucivy.Foundation

open List Nat

/-- A text, as its characters. -/
abbrev Text := List Char

open String (utf8Len utf8Len_nil utf8Len_cons utf8Len_append utf8Len_eq_zero)

theorem utf8Len_flatten (ts : List Text) : utf8Len ts.flatten = (ts.map utf8Len).sum := by
  induction ts with
  | nil => rfl
  | cons t ts ih => simp [ih]

theorem utf8Len_replicate_a (n : Nat) : utf8Len (replicate n 'a') = n := by
  induction n with
  | zero => rfl
  | succ n ih =>
    rw [replicate_succ, utf8Len_cons, ih]
    rfl

/-- A text has bytes. -/
theorem utf8Len_pos {t : Text} (h : t ≠ []) : 0 < utf8Len t :=
  pos_of_ne_zero fun h0 => h (utf8Len_eq_zero.mp h0)

/-- Of two beginnings of one text the shorter begins the longer. -/
theorem exists_append_of_utf8Len_le {t t' u u' : Text} (h : t ++ u = t' ++ u')
    (hlen : utf8Len t ≤ utf8Len t') : ∃ mid, t' = t ++ mid ∧ u = mid ++ u' := by
  rcases append_eq_append_iff.mp h with ⟨mid, ht', hu⟩ | ⟨mid, ht, hu'⟩
  · exact ⟨mid, ht', hu⟩
  · have hmid : mid = [] := by
      rw [ht, utf8Len_append] at hlen
      exact utf8Len_eq_zero.mp (by omega)
    subst hmid
    exact ⟨[], by rw [ht, append_nil, append_nil], by rw [hu', nil_append, nil_append]⟩

/-! ## Cutting -/

/-- Cut a text at the first character boundary at or after `n` bytes. -/
def cutAfter : Nat → Text → Text × Text
  | _, [] => ([], [])
  | 0, t => ([], t)
  | n + 1, c :: t =>
    let cut := cutAfter (n + 1 - c.utf8Size) t
    (c :: cut.1, cut.2)

/-- Cut a text at the last character boundary at or before `n` bytes. -/
def cutBefore : Nat → Text → Text × Text
  | _, [] => ([], [])
  | n, c :: t =>
    if c.utf8Size ≤ n then
      let cut := cutBefore (n - c.utf8Size) t
      (c :: cut.1, cut.2)
    else ([], c :: t)

@[simp] theorem cutAfter_zero (t : Text) : cutAfter 0 t = ([], t) := by
  cases t <;> rfl

/-- Nothing is lost. -/
@[simp] theorem cutAfter_append (n : Nat) (t : Text) :
    (cutAfter n t).1 ++ (cutAfter n t).2 = t := by
  induction t generalizing n with
  | nil => cases n <;> rfl
  | cons c t ih =>
    cases n with
    | zero => rfl
    | succ n => simp [cutAfter, ih]

/-- What `cutAfter` keeps is long enough, or everything. -/
theorem le_utf8Len_cutAfter (n : Nat) (t : Text) :
    n ≤ utf8Len (cutAfter n t).1 ∨ (cutAfter n t).2 = [] := by
  induction t generalizing n with
  | nil => exact .inr (by cases n <;> rfl)
  | cons c t ih =>
    cases n with
    | zero => exact .inl (zero_le _)
    | succ n =>
      rcases ih (n + 1 - c.utf8Size) with h | h
      · simp only [cutAfter, utf8Len_cons]
        omega
      · exact .inr h

/-- `cutAfter` goes past its mark by less than a character. -/
theorem utf8Len_cutAfter_le (n : Nat) (t : Text) : utf8Len (cutAfter n t).1 ≤ n + 3 := by
  induction t generalizing n with
  | nil => exact zero_le _
  | cons c t ih =>
    cases n with
    | zero => exact zero_le _
    | succ n =>
      have hc := c.utf8Size_le_four
      have hrest := ih (n + 1 - c.utf8Size)
      by_cases hle : c.utf8Size ≤ n + 1
      · simp only [cutAfter, utf8Len_cons]
        omega
      · have hzero : n + 1 - c.utf8Size = 0 := by omega
        simp only [cutAfter, utf8Len_cons, hzero, cutAfter_zero, utf8Len_nil]
        omega

/-- Something is cut. -/
theorem cutAfter_ne_nil {n : Nat} {t : Text} (hn : 0 < n) (ht : t ≠ []) :
    (cutAfter n t).1 ≠ [] := by
  cases t with
  | nil => exact absurd rfl ht
  | cons c t =>
    obtain ⟨n, rfl⟩ := exists_eq_succ_of_ne_zero hn.ne'
    exact cons_ne_nil c _

/-- Nothing is lost. -/
@[simp] theorem cutBefore_append (n : Nat) (t : Text) :
    (cutBefore n t).1 ++ (cutBefore n t).2 = t := by
  induction t generalizing n with
  | nil => rfl
  | cons c t ih =>
    rw [cutBefore]
    split
    · simp [ih]
    · rfl

/-- The cut fits. -/
theorem utf8Len_cutBefore_le (n : Nat) (t : Text) : utf8Len (cutBefore n t).1 ≤ n := by
  induction t generalizing n with
  | nil => exact zero_le n
  | cons c t ih =>
    rw [cutBefore]
    split
    · have := ih (n - c.utf8Size)
      simp only [utf8Len_cons]
      omega
    · exact zero_le n

/-- A cut at a character boundary is exact. -/
theorem cutBefore_utf8Len (t u : Text) : cutBefore (utf8Len t) (t ++ u) = (t, u) := by
  induction t with
  | nil =>
    cases u with
    | nil => rfl
    | cons c u =>
      have hc := c.utf8Size_pos
      rw [nil_append, cutBefore, utf8Len_nil, if_neg (by omega)]
  | cons c t ih =>
    rw [cons_append, cutBefore, utf8Len_cons, if_pos (le_add_left ..), Nat.add_sub_cancel, ih]

/-! ## Offsets -/

/-- Every character of a text with its byte offset, the text starting at `base`. -/
def offsets : Nat → Text → List (Nat × Char)
  | _, [] => []
  | base, c :: t => (base, c) :: offsets (base + c.utf8Size) t

theorem offsets_append (base : Nat) (t u : Text) :
    offsets base (t ++ u) = offsets base t ++ offsets (base + utf8Len t) u := by
  induction t generalizing base with
  | nil => rfl
  | cons c t ih =>
    rw [cons_append, offsets, ih, offsets, utf8Len_cons, cons_append, add_assoc,
      add_comm c.utf8Size]

/-- Offsets are inside. -/
theorem lt_of_mem_offsets {base : Nat} {t : Text} {p : Nat × Char} (h : p ∈ offsets base t) :
    base ≤ p.1 ∧ p.1 < base + utf8Len t := by
  induction t generalizing base with
  | nil => cases h
  | cons c t ih =>
    have hc := c.utf8Size_pos
    rw [utf8Len_cons]
    rcases mem_cons.mp h with rfl | h
    · exact ⟨le_refl _, by omega⟩
    · have := ih h
      omega

end Lucivy.Foundation
