import Mathlib.Data.List.Flatten
import Mathlib.Data.List.Infix
import Mathlib.Tactic.Ring

/-! # Bytes of a file

Files are lists of bytes, written by appending and read by position. A reader is shown right
by saying which bytes stand at the position it reads.

* `BytesAt data pos bs` — the bytes `bs` stand in `data` at `pos`; it splits along appends as
  the writer wrote them.
* `wrapping_add_sub` — a difference of 32 bits that wraps leads back.
* `leBytes`, `readLe` — fixed-width integers, the lowest byte first.
* `header_reads` — the first eight bytes of a file.
* `bytesAt_flatMap` — the pieces of a table of one width. -/

namespace Lucivy.Foundation

open List

/-- The bytes of a file or of a part of one. -/
abbrev Bytes := List UInt8

/-! ## Bytes at a position -/

/-- **`bs` stands in `data` at `pos`.** -/
def BytesAt (data : Bytes) (pos : Nat) (bs : Bytes) : Prop := bs <+: data.drop pos

namespace BytesAt

variable {data bs cs : Bytes} {pos : Nat} {b : UInt8}

/-- Bytes between others. -/
theorem intro (before bs after : Bytes) : BytesAt (before ++ (bs ++ after)) before.length bs := by
  rw [BytesAt, drop_left]
  exact prefix_append bs after

theorem nil (data : Bytes) (pos : Nat) : BytesAt data pos [] := nil_prefix

theorem refl (data : Bytes) : BytesAt data 0 data := prefix_rfl

/-- The first part. -/
theorem left (h : BytesAt data pos (bs ++ cs)) : BytesAt data pos bs :=
  (prefix_append bs cs).trans h

/-- The second part. -/
theorem right (h : BytesAt data pos (bs ++ cs)) : BytesAt data (pos + bs.length) cs := by
  obtain ⟨rest, hrest⟩ := h
  refine ⟨rest, ?_⟩
  rw [← drop_drop, ← hrest, append_assoc, drop_left]

/-- All but one byte. -/
theorem tail (h : BytesAt data pos (b :: bs)) : BytesAt data (pos + 1) bs :=
  (show BytesAt data pos ([b] ++ bs) from h).right

/-- The first byte. -/
theorem getElem? (h : BytesAt data pos (b :: bs)) : data[pos]? = some b := by
  obtain ⟨rest, hrest⟩ := h
  have hget : (data.drop pos)[0]? = some b := by rw [← hrest]; rfl
  rwa [getElem?_drop] at hget

/-- There is room for the bytes. -/
theorem le_length (h : BytesAt data pos bs) (hne : bs ≠ []) : pos + bs.length ≤ data.length := by
  have hle := h.length_le
  have hpos := length_pos_iff.mpr hne
  rw [length_drop] at hle
  omega

/-- The bytes, cut out. -/
theorem take_drop (h : BytesAt data pos bs) : (data.drop pos).take bs.length = bs := by
  obtain ⟨rest, hrest⟩ := h
  rw [← hrest, take_left]

/-- Bytes within bytes. -/
theorem trans {q : Nat} (h : BytesAt data pos bs) (hbs : BytesAt bs q cs) :
    BytesAt data (pos + q) cs := by
  obtain ⟨rest, hrest⟩ := h
  obtain ⟨rest', hrest'⟩ := hbs
  by_cases hq : q ≤ bs.length
  · refine ⟨rest' ++ rest, ?_⟩
    rw [← drop_drop, ← hrest, drop_append_of_le_length hq, ← hrest', append_assoc]
  · -- nothing stands behind the end
    rw [drop_eq_nil_of_le (Nat.le_of_not_le hq)] at hrest'
    obtain ⟨rfl, -⟩ := append_eq_nil_iff.mp hrest'
    exact nil ..

/-- A piece of a file written piece by piece. -/
theorem flatten {pieces : List Bytes} {i : Nat} (h : pieces[i]? = some bs) :
    BytesAt pieces.flatten (pieces.take i).flatten.length bs := by
  obtain ⟨hi, rfl⟩ := List.getElem?_eq_some_iff.mp h
  have hsplit := take_append_drop i pieces
  rw [drop_eq_getElem_cons hi] at hsplit
  conv =>
    arg 1
    rw [← hsplit, flatten_append, flatten_cons]
  exact intro ..

end BytesAt

/-! ## Differences that wrap -/

/-- `wrapping_add` undoes `wrapping_sub`. -/
theorem wrapping_add_sub (a b : UInt32) : a + (b - a) = b := by
  rw [UInt32.add_comm, UInt32.sub_add_cancel]

theorem wrapping_sub_eq_zero {a b : UInt32} : b - a = 0 ↔ b = a := by
  constructor
  · intro h
    rw [← UInt32.sub_add_cancel b a, h, UInt32.zero_add]
  · rintro rfl
    exact UInt32.sub_self b

/-! ## Fixed-width integers -/

/-- The `w` low bytes of a number, the lowest first (`to_le_bytes`). -/
def leBytes : Nat → Nat → Bytes
  | 0, _ => []
  | w + 1, v => UInt8.ofNat v :: leBytes w (v / 256)

/-- The number some bytes stand for (`from_le_bytes`). -/
def fromLe : Bytes → Nat
  | [] => 0
  | b :: bs => b.toNat + 256 * fromLe bs

/-- The number in the `w` bytes at `pos`; nothing past the end. -/
def readLe (w : Nat) (data : Bytes) (pos : Nat) : Option Nat :=
  if pos + w ≤ data.length then some (fromLe ((data.drop pos).take w)) else none

/-- The width. -/
@[simp] theorem length_leBytes (w v : Nat) : (leBytes w v).length = w := by
  induction w generalizing v with
  | zero => rfl
  | succ w ih => rw [leBytes, length_cons, ih]

/-- **A number is read back.** -/
theorem fromLe_leBytes (w v : Nat) : fromLe (leBytes w v) = v % 256 ^ w := by
  induction w generalizing v with
  | zero => rw [pow_zero, Nat.mod_one]; rfl
  | succ w ih => rw [leBytes, fromLe, ih, pow_succ, mul_comm _ 256, Nat.mod_mul, UInt8.toNat_ofNat']

/-- **Reading back**: a number that fits its width. -/
theorem readLe_leBytes {data : Bytes} {pos w v : Nat} (h : BytesAt data pos (leBytes w v))
    (hv : v < 256 ^ w) (hpos : pos ≤ data.length) : readLe w data pos = some v := by
  have hlen : pos + w ≤ data.length := by
    cases w with
    | zero => exact hpos
    | succ w => simpa using h.le_length (cons_ne_nil _ _)
  have htake := h.take_drop
  rw [length_leBytes] at htake
  rw [readLe, if_pos hlen, htake, fromLe_leBytes, Nat.mod_eq_of_lt hv]

/-- What is read fits. -/
theorem readLe_lt {data : Bytes} {pos w v : Nat} (h : readLe w data pos = some v) :
    v < 256 ^ w := by
  have hbound : ∀ bs : Bytes, fromLe bs < 256 ^ bs.length := by
    intro bs
    induction bs with
    | nil => exact Nat.one_pos
    | cons b bs ih =>
      have hb := b.toNat_lt
      rw [fromLe, length_cons, pow_succ]
      omega
  rw [readLe] at h
  split at h
  · have hv := hbound ((data.drop pos).take w)
    rw [length_take, length_drop, min_eq_left (by omega)] at hv
    exact Option.some.inj h ▸ hv
  · cases h

/-- **A header** of four bytes that name the layout and a count of 32 bits. -/
theorem header_reads {magic : Bytes} (hmagic : magic.length = 4) (n : Nat) (rest : Bytes) :
    (magic ++ (leBytes 4 n ++ rest)).take 4 = magic ∧
      readLe 4 (magic ++ (leBytes 4 n ++ rest)) 4 = some (n % 2 ^ 32) ∧
      (magic ++ (leBytes 4 n ++ rest)).drop 8 = rest ∧
      (magic ++ (leBytes 4 n ++ rest)).length = 8 + rest.length := by
  have hdrop : (magic ++ (leBytes 4 n ++ rest)).drop 4 = leBytes 4 n ++ rest := drop_left' hmagic
  have hlen : (magic ++ (leBytes 4 n ++ rest)).length = 8 + rest.length := by
    rw [length_append, length_append, hmagic, length_leBytes]
    omega
  refine ⟨take_left' hmagic, ?_, ?_, hlen⟩
  · rw [readLe, if_pos (by omega), hdrop, take_left' (length_leBytes 4 n), fromLe_leBytes]
    rfl
  · rw [show 8 = 4 + 4 from rfl, ← drop_drop, hdrop, drop_left' (length_leBytes 4 n)]

/-! ## Pieces -/

/-- A piece ends where the next one starts. -/
theorem length_flatten_take_succ {bs : List Bytes} {i : Nat} {b : Bytes} (hb : bs[i]? = some b) :
    (bs.take (i + 1)).flatten.length = (bs.take i).flatten.length + b.length ∧
      (bs.take i).flatten.length + b.length ≤ bs.flatten.length := by
  have hnext : (bs.take (i + 1)).flatten.length = (bs.take i).flatten.length + b.length := by
    rw [take_add_one, hb, Option.toList_some, flatten_append, length_append, flatten_singleton]
  exact ⟨hnext, hnext ▸ (take_sublist (i + 1) bs).flatten.length_le⟩

section Pieces

variable {α : Type} {f : α → Bytes} {w : Nat} {xs : List α}

/-- Records of one size. -/
theorem length_flatMap_const (hf : ∀ x ∈ xs, (f x).length = w) :
    (xs.flatMap f).length = xs.length * w := by
  induction xs with
  | nil => exact (zero_mul w).symm
  | cons x xs ih =>
    rw [flatMap_cons, length_append, hf x mem_cons_self,
      ih (forall_mem_cons.mp hf).2, length_cons, add_mul, one_mul,
      add_comm]

/-- The `i`-th of some pieces of one width. -/
theorem bytesAt_flatMap {i : Nat} {x : α} (hf : ∀ x ∈ xs, (f x).length = w) (h : xs[i]? = some x) :
    BytesAt (xs.flatMap f) (i * w) (f x) := by
  have hlen : ((xs.map f).take i).flatten.length = i * w := by
    have hi := (List.getElem?_eq_some_iff.mp h).1
    rw [← map_take, ← flatMap_def,
      length_flatMap_const fun x hx => hf x (mem_of_mem_take hx), length_take]
    congr 1
    omega
  rw [← hlen, flatMap_def]
  exact BytesAt.flatten (by rw [getElem?_map, h]; rfl)

end Pieces

/-- The `i`-th of some numbers of one width. -/
theorem bytesAt_flatMap_leBytes {w i v : Nat} {vs : List Nat} (h : vs[i]? = some v) :
    BytesAt (vs.flatMap (leBytes w)) (i * w) (leBytes w v) :=
  bytesAt_flatMap (fun x _ => length_leBytes w x) h

theorem length_flatMap_leBytes (w : Nat) (vs : List Nat) :
    (vs.flatMap (leBytes w)).length = vs.length * w :=
  length_flatMap_const fun x _ => length_leBytes w x

end Lucivy.Foundation
