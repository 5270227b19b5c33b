import Mathlib.Algebra.GroupWithZero.Nat
import Mathlib.Data.List.Perm.Basic

/-! # Tables that grow

A list that is filled up when an index behind its end is written (`resize`, then an assignment),
and a table of such rows. What a table holds does not depend on the order of the writes, as long
as no slot is written with two values.

* `growModify` — one element, wherever it is.
* `writeSlot`, `writeSlots` — slots of a table, by row and column.
* `slotAt` — a slot, blank outside.
* `slotAt_writeSlots` — what a written slot holds.
* `length_writeSlots_le`, `length_row_writeSlots_le` — how far a table grows.
* `writes32` — writes at places of 32 bits. -/

namespace Lucivy.Foundation

open List

variable {α β : Type*}

/-- Fill up to index `i`, then change that element. -/
def growModify (fill : α) (i : Nat) (f : α → α) (l : List α) : List α :=
  (l ++ List.replicate (i + 1 - l.length) fill).modify i f

section

variable (fill : α) (i : Nat) (f : α → α) (l : List α)

/-- The table grows. -/
@[simp] theorem length_growModify :
    (growModify fill i f l).length = max l.length (i + 1) := by
  rw [growModify, length_modify, length_append, length_replicate]
  omega

/-- **A cell afterwards.** -/
theorem getElem?_growModify (j : Nat) :
    (growModify fill i f l)[j]? =
      if j < max l.length (i + 1) then
        some (if j = i then f (l[j]?.getD fill) else l[j]?.getD fill)
      else none := by
  have hpadded : (l ++ replicate (i + 1 - l.length) fill)[j]? =
      if j < max l.length (i + 1) then some (l[j]?.getD fill) else none := by
    by_cases hj : j < l.length
    · rw [getElem?_append_left hj, if_pos (by omega), getElem?_eq_getElem hj, Option.getD_some]
    · rw [getElem?_append_right (Nat.le_of_not_lt hj), getElem?_replicate,
        getElem?_eq_none (Nat.le_of_not_lt hj)]
      exact if_congr (by omega) rfl rfl
  rw [growModify, getElem?_modify, hpadded]
  by_cases hij : i = j
  · simp [hij]
  · simp [hij, Ne.symm hij]

/-- Read with the filling behind the end. -/
theorem getD_growModify (j : Nat) :
    (growModify fill i f l)[j]?.getD fill =
      if j = i then f (l[j]?.getD fill) else l[j]?.getD fill := by
  rw [getElem?_growModify]
  by_cases hlt : j < max l.length (i + 1)
  · rw [if_pos hlt, Option.getD_some]
  · have hij : j ≠ i := by omega
    rw [if_neg hlt, if_neg hij, getElem?_eq_none (by omega)]

end

/-- Two cells. -/
theorem growModify_comm (fill : α) {i j : Nat} (hij : i ≠ j) (f g : α → α) (l : List α) :
    growModify fill i f (growModify fill j g l) = growModify fill j g (growModify fill i f l) := by
  refine ext_getElem? fun k => ?_
  rw [getElem?_growModify fill i f (growModify fill j g l), length_growModify, getD_growModify,
    getElem?_growModify fill j g (growModify fill i f l), getD_growModify]
  have hlen : max (max l.length (j + 1)) (i + 1) = max (max l.length (i + 1)) (j + 1) := by omega
  rw [hlen]
  by_cases hki : k = i
  · simp [hki, hij]
  · simp [hki]

/-- One cell twice. -/
theorem growModify_growModify (fill : α) (i : Nat) (f g : α → α) (l : List α) :
    growModify fill i f (growModify fill i g l) = growModify fill i (fun x => f (g x)) l := by
  refine ext_getElem? fun k => ?_
  rw [getElem?_growModify fill i f (growModify fill i g l), length_growModify, getD_growModify,
    getElem?_growModify]
  by_cases hki : k = i
  · simp [hki]
  · simp [hki]

/-! ## Slots of a table -/

/-- Write one slot: the row, then the slot in it. -/
def writeSlot (blank : β) (row column : Nat) (x : β) (t : List (List β)) : List (List β) :=
  growModify [] row (growModify blank column fun _ => x) t

/-- Write some slots, in order: row, column and what is written. -/
def writeSlots (blank : β) (writes : List (Nat × Nat × β)) (t : List (List β)) : List (List β) :=
  writes.foldl (fun t w => writeSlot blank w.1 w.2.1 w.2.2 t) t

/-- What a slot holds; outside the table it is blank. -/
def slotAt (blank : β) (t : List (List β)) (row column : Nat) : β :=
  (t[row]?.getD [])[column]?.getD blank

@[simp] theorem slotAt_nil (blank : β) (row column : Nat) : slotAt blank [] row column = blank := by
  simp [slotAt]

/-- **A slot afterwards.** -/
theorem slotAt_writeSlot (blank : β) (row column : Nat) (x : β) (t : List (List β)) (r c : Nat) :
    slotAt blank (writeSlot blank row column x t) r c =
      if r = row ∧ c = column then x else slotAt blank t r c := by
  rw [slotAt, writeSlot, getD_growModify]
  by_cases hr : r = row
  · rw [if_pos hr, getD_growModify]
    by_cases hc : c = column
    · simp [hr, hc]
    · simp [hc, slotAt]
  · simp [hr, slotAt]

/-- A slot that is not blank lies in the table. -/
theorem exists_of_slotAt {blank x : β} {t : List (List β)} {r c : Nat}
    (h : slotAt blank t r c = x) (hx : x ≠ blank) : ∃ l, t[r]? = some l ∧ l[c]? = some x := by
  cases hr : t[r]? with
  | none => exact absurd h.symm (by simpa [slotAt, hr] using hx)
  | some l =>
    cases hc : l[c]? with
    | none => exact absurd h.symm (by simpa [slotAt, hr, hc] using hx)
    | some y => simpa [slotAt, hr, hc] using h

/-- Writes of different slots commute. -/
theorem writeSlot_comm (blank : β) {r₁ c₁ r₂ c₂ : Nat} (h : r₁ = r₂ → c₁ ≠ c₂) (x y : β)
    (t : List (List β)) :
    writeSlot blank r₁ c₁ x (writeSlot blank r₂ c₂ y t) =
      writeSlot blank r₂ c₂ y (writeSlot blank r₁ c₁ x t) := by
  by_cases hr : r₁ = r₂
  · subst hr
    rw [writeSlot, writeSlot, writeSlot, writeSlot, growModify_growModify, growModify_growModify]
    congr 1
    funext row
    exact growModify_comm blank (h rfl) _ _ row
  · exact growModify_comm [] hr _ _ t

/-- No slot is written with two values. -/
def Consistent (writes : List (Nat × Nat × β)) : Prop :=
  ∀ a ∈ writes, ∀ b ∈ writes, a.1 = b.1 → a.2.1 = b.2.1 → a = b

variable {writes : List (Nat × Nat × β)} {t : List (List β)}

/-- A slot that no write names stays. -/
theorem slotAt_writeSlots_of_forall (blank : β) {r c : Nat}
    (h : ∀ w ∈ writes, ¬ (w.1 = r ∧ w.2.1 = c)) (t : List (List β)) :
    slotAt blank (writeSlots blank writes t) r c = slotAt blank t r c := by
  refine foldlRecOn (motive := fun t' => slotAt blank t' r c = slotAt blank t r c) writes _ rfl
    fun t' ht w hw => ?_
  rw [slotAt_writeSlot, if_neg, ht]
  rintro ⟨rfl, rfl⟩
  exact h w hw ⟨rfl, rfl⟩

/-- **A written slot holds what was written.** -/
theorem slotAt_writeSlots (blank : β) (h : Consistent writes) {r c : Nat} {x : β}
    (hx : (r, c, x) ∈ writes) (t : List (List β)) :
    slotAt blank (writeSlots blank writes t) r c = x := by
  induction writes generalizing t with
  | nil => cases hx
  | cons w writes ih =>
    have hrest : Consistent writes := fun a ha b hb =>
      h a (mem_cons_of_mem _ ha) b (mem_cons_of_mem _ hb)
    rw [writeSlots, foldl_cons]
    by_cases hin : (r, c, x) ∈ writes
    · exact ih hrest hin _
    · obtain rfl : (r, c, x) = w := (mem_cons.mp hx).resolve_right hin
      refine (slotAt_writeSlots_of_forall blank (fun w' hw' hsame => hin ?_) _).trans ?_
      · have heq := h w' (mem_cons_of_mem _ hw') _ mem_cons_self hsame.1 hsame.2
        exact heq ▸ hw'
      · rw [slotAt_writeSlot, if_pos ⟨rfl, rfl⟩]

/-! ## How far a table grows -/

theorem length_writeSlots_le (blank : β) {n : Nat} (h : ∀ w ∈ writes, w.1 < n) (ht : t.length ≤ n) :
    (writeSlots blank writes t).length ≤ n := by
  refine foldlRecOn (motive := (length · ≤ n)) writes _ ht fun t ht w hw => ?_
  exact le_of_eq_of_le (length_growModify ..) (Nat.max_le.mpr ⟨ht, h w hw⟩)

theorem length_row_writeSlot_le (blank : β) {row column n : Nat} {x : β} (hcolumn : column < n)
    (ht : ∀ l ∈ t, l.length ≤ n) : ∀ l ∈ writeSlot blank row column x t, l.length ≤ n := by
  have hget : ∀ i : Nat, (t[i]?.getD []).length ≤ n := by
    intro i
    cases hi : t[i]? with
    | none => exact Nat.zero_le n
    | some l => exact ht l (mem_of_getElem? hi)
  intro l hl
  obtain ⟨i, hi⟩ := mem_iff_getElem?.mp hl
  rw [writeSlot, getElem?_growModify] at hi
  split at hi
  · cases hi
    have hrow := hget i
    split
    · rw [length_growModify]
      omega
    · exact hrow
  · cases hi

theorem length_row_writeSlots_le (blank : β) {n : Nat} (h : ∀ w ∈ writes, w.2.1 < n)
    (ht : ∀ l ∈ t, l.length ≤ n) : ∀ l ∈ writeSlots blank writes t, l.length ≤ n := by
  refine foldlRecOn (motive := (∀ l ∈ ·, length l ≤ n)) writes _ ht fun t ht w hw => ?_
  exact length_row_writeSlot_le blank (h w hw) ht

/-! ## Places of 32 bits -/

/-- Writes whose row and column are numbers of 32 bits. -/
def writes32 (entries : List (UInt32 × UInt32 × β)) : List (Nat × Nat × β) :=
  entries.map fun e => (e.1.toNat, e.2.1.toNat, e.2.2)

variable {blank : β} {entries : List (UInt32 × UInt32 × β)}

/-- A slot written. -/
theorem slotAt_writes32 (hone : ∀ a ∈ entries, ∀ b ∈ entries, a.1 = b.1 → a.2.1 = b.2.1 → a = b)
    {e : UInt32 × UInt32 × β} (he : e ∈ entries) :
    slotAt blank (writeSlots blank (writes32 entries) []) e.1.toNat e.2.1.toNat = e.2.2 := by
  refine slotAt_writeSlots blank (fun a ha b hb hrow hcol => ?_) (mem_map.mpr ⟨e, he, rfl⟩) []
  obtain ⟨x, hx, rfl⟩ := mem_map.mp ha
  obtain ⟨y, hy, rfl⟩ := mem_map.mp hb
  rw [hone x hx y hy (UInt32.toNat_inj.mp hrow) (UInt32.toNat_inj.mp hcol)]

/-- A slot not written. -/
theorem slotAt_writes32_of_forall {d p : Nat}
    (h : ∀ e ∈ entries, ¬ (e.1.toNat = d ∧ e.2.1.toNat = p)) :
    slotAt blank (writeSlots blank (writes32 entries) []) d p = blank := by
  rw [slotAt_writeSlots_of_forall blank fun a ha hsame => ?_, slotAt_nil]
  obtain ⟨x, hx, rfl⟩ := mem_map.mp ha
  exact h x hx hsame

/-- A number of 32 bits that is not the last one. -/
theorem toNat_lt_of_ne {n : UInt32} (hn : n ≠ 0xFFFFFFFF) : n.toNat < 2 ^ 32 - 1 := by
  have hlt := n.toNat_lt
  have hne : n.toNat ≠ 2 ^ 32 - 1 := fun hmax => hn (UInt32.toNat_inj.mp hmax)
  omega

/-- The rows fit 32 bits. -/
theorem length_writes32 (h : ∀ e ∈ entries, e.1 ≠ 0xFFFFFFFF) :
    (writeSlots blank (writes32 entries) []).length < 2 ^ 32 := by
  refine Nat.lt_of_le_of_lt (length_writeSlots_le (n := 2 ^ 32 - 1) blank (fun w hw => ?_)
    (Nat.zero_le _)) (by decide)
  obtain ⟨e, he, rfl⟩ := mem_map.mp hw
  exact toNat_lt_of_ne (h e he)

/-- So do the columns. -/
theorem length_row_writes32 (h : ∀ e ∈ entries, e.2.1 ≠ 0xFFFFFFFF) :
    ∀ l ∈ writeSlots blank (writes32 entries) [], l.length < 2 ^ 32 := by
  intro l hl
  refine Nat.lt_of_le_of_lt (length_row_writeSlots_le (n := 2 ^ 32 - 1) blank (fun w hw => ?_)
    (by simp) l hl) (by decide)
  obtain ⟨e, he, rfl⟩ := mem_map.mp hw
  exact toNat_lt_of_ne (h e he)

end Lucivy.Foundation
