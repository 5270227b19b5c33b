import Lucivy.Foundation.Bytes

/-! # Varints

`suffix_fst/varint.rs`: LEB128 numbers, seven bits to a byte, the lowest first, the top bit of
a byte saying that another one follows.

* `writeVarint`, `readVarint`, `readVarintU32` — the encoder and its readers.
* `readVarintU32_write` — a number of 32 bits is read back, with the position behind it.
* `decodeVint` — the unchecked decoder of the postings' inner loop; `decodeVint_toNat`. -/

namespace Lucivy.SuffixFst

open Lucivy.Foundation List

def writeVarint (v : Nat) : Bytes :=
  if v < 0x80 then [UInt8.ofNat v]
  else (UInt8.ofNat v ||| 0x80) :: writeVarint (v >>> 7)
termination_by v
decreasing_by
  rw [Nat.shiftRight_eq_div_pow]
  omega

/-- The loop of `read_varint` over the shifts that are left, on values of some bits. -/
def readVarintLoop (bits : Nat) (data : Bytes) : List Nat → Nat → Nat → Option (Nat × Nat)
  | [], _, _ => none
  | shift :: shifts, v, pos =>
    match data[pos]? with
    | none => none
    | some b =>
      let v' := v ||| ((b &&& 0x7f).toNat <<< shift) % 2 ^ bits
      if b &&& 0x80 = 0 then some (v', pos + 1)
      else readVarintLoop bits data shifts v' (pos + 1)

/-- The shifts of the bytes of a varint. -/
def varintShifts : List Nat := [0, 7, 14, 21, 28, 35, 42, 49, 56, 63]

/-- `read_varint`: the value and the position behind it; a value has 64 bits. -/
def readVarint (data : Bytes) (pos : Nat) : Option (Nat × Nat) :=
  readVarintLoop 64 data varintShifts 0 pos

/-- `read_varint_u32`: a wider value is refused. -/
def readVarintU32 (data : Bytes) (pos : Nat) : Option (UInt32 × Nat) :=
  match readVarint data pos with
  | none => none
  | some (v, pos') => if v < 2 ^ 32 then some (UInt32.ofNat v, pos') else none

/-- The loop of `decode_vint`, which takes what there is where the bytes end early. -/
def decodeVintLoop (data : Bytes) : List Nat → Nat → Nat → Nat × Nat
  | [], v, pos => (v, pos)
  | shift :: shifts, v, pos =>
    match data[pos]? with
    | none => (v, pos)
    | some b =>
      let v' := v ||| ((b &&& 0x7f).toNat <<< shift) % 2 ^ 32
      if b &&& 0x80 = 0 then (v', pos + 1)
      else decodeVintLoop data shifts v' (pos + 1)

/-- `decode_vint` (`sfxpost_v2.rs`): at most five bytes, the value and the position behind it. -/
def decodeVint (data : Bytes) (pos : Nat) : UInt32 × Nat :=
  let r := decodeVintLoop data [0, 7, 14, 21, 28] 0 pos
  (UInt32.ofNat r.1, r.2)

theorem writeVarint_of_lt {v : Nat} (h : v < 0x80) : writeVarint v = [UInt8.ofNat v] := by
  rw [writeVarint, if_pos h]

theorem writeVarint_of_le {v : Nat} (h : 0x80 ≤ v) :
    writeVarint v = (UInt8.ofNat v ||| 0x80) :: writeVarint (v / 128) := by
  rw [writeVarint, if_neg (not_lt.mpr h), Nat.shiftRight_eq_div_pow]

theorem writeVarint_ne_nil (v : Nat) : writeVarint v ≠ [] := by
  by_cases h : v < 0x80
  · rw [writeVarint_of_lt h]
    exact cons_ne_nil _ _
  · rw [writeVarint_of_le (Nat.le_of_not_lt h)]
    exact cons_ne_nil _ _

theorem writeVarint_pos (v : Nat) : 0 < (writeVarint v).length :=
  length_pos_iff.mpr (writeVarint_ne_nil v)

/-! ## The bits of one byte -/

/-- What a byte holds and whether another follows, for every byte. -/
theorem byte_bits (b : UInt8) :
    (b &&& 0x7f).toNat = b.toNat % 128 ∧ ((b &&& 0x80 = 0) ↔ b.toNat < 128) := by
  have htable : ∀ i : Fin 256, (UInt8.ofNat i.val &&& 0x7f).toNat = i.val % 128 ∧
      ((UInt8.ofNat i.val &&& 0x80 = 0) ↔ i.val < 128) := by decide +kernel
  have := htable ⟨b.toNat, b.toNat_lt⟩
  simpa using this

/-- A byte with the top bit set. -/
theorem toNat_or_top (b : UInt8) : (b ||| 0x80).toNat = b.toNat % 128 + 128 := by
  have htable : ∀ i : Fin 256, (UInt8.ofNat i.val ||| 0x80).toNat = i.val % 128 + 128 := by
    decide +kernel
  have := htable ⟨b.toNat, b.toNat_lt⟩
  simpa using this

/-- Bits put above a number are added to it. -/
theorem or_shift {v n k bits : Nat} (hv : v < 2 ^ k) (hn : n * 2 ^ k < 2 ^ bits) :
    v ||| (n <<< k) % 2 ^ bits = v + n * 2 ^ k := by
  rw [Nat.shiftLeft_eq, Nat.mod_eq_of_lt hn, Nat.or_comm, ← Nat.shiftLeft_eq,
    ← Nat.shiftLeft_add_eq_or_of_lt hv, add_comm]

/-! ## Reading back -/

variable {data : Bytes}

/-- **The loop reads what is written**: `k` bytes are read and make up `v`, the others make up
`w`, and the `m` shifts left are enough for them. -/
theorem readVarintLoop_write {bits m k : Nat} (hbits : bits ≤ 7 * (k + m)) (hm : 0 < m)
    {v w pos : Nat} (hv : v < 2 ^ (7 * k)) (hw : w * 2 ^ (7 * k) < 2 ^ bits)
    (h : BytesAt data pos (writeVarint w)) :
    readVarintLoop bits data ((List.range' k m).map (7 * ·)) v pos =
      some (v + w * 2 ^ (7 * k), pos + (writeVarint w).length) := by
  induction m generalizing k v w pos with
  | zero => exact absurd hm (lt_irrefl 0)
  | succ m ih =>
    have hpow : 2 ^ (7 * (k + 1)) = 128 * 2 ^ (7 * k) := by
      rw [show 7 * (k + 1) = 7 + 7 * k by ring, Nat.pow_add]
    rw [List.range'_succ, map_cons, readVarintLoop]
    by_cases hsmall : w < 0x80
    · rw [writeVarint_of_lt hsmall] at h ⊢
      have hnat : (UInt8.ofNat w).toNat = w := by
        rw [UInt8.toNat_ofNat']
        omega
      simp only [h.getElem?, (byte_bits _).1, (byte_bits _).2, hnat, Nat.mod_eq_of_lt hsmall]
      rw [if_pos hsmall, or_shift hv hw]
      rfl
    · have hbig := Nat.le_of_not_lt hsmall
      rw [writeVarint_of_le hbig] at h ⊢
      have hnat : (UInt8.ofNat w ||| 0x80).toNat = w % 128 + 128 := by
        rw [toNat_or_top, UInt8.toNat_ofNat']
        omega
      have hlow : w % 128 * 2 ^ (7 * k) < 2 ^ bits :=
        lt_of_le_of_lt (Nat.mul_le_mul_right _ (Nat.mod_le w 128)) hw
      have hsplit : w * 2 ^ (7 * k) = w % 128 * 2 ^ (7 * k) + w / 128 * 2 ^ (7 * (k + 1)) := by
        rw [hpow, ← mul_assoc, ← add_mul, mul_comm (w / 128) 128, Nat.mod_add_div]
      have hv' : v + w % 128 * 2 ^ (7 * k) < 2 ^ (7 * (k + 1)) := by
        have hmod : w % 128 + 1 ≤ 128 := Nat.mod_lt w (by decide)
        have := Nat.mul_le_mul_right (2 ^ (7 * k)) hmod
        rw [add_mul] at this
        omega
      have hroom : 0 < m := by
        -- the last byte has no room for a continuation
        by_contra hlast
        have hle : 2 ^ bits ≤ 2 ^ (7 * (k + 1)) := Nat.pow_le_pow_right (by decide) (by omega)
        have hmul : 128 * 2 ^ (7 * k) ≤ w * 2 ^ (7 * k) := Nat.mul_le_mul_right _ hbig
        omega
      simp only [h.getElem?, (byte_bits _).1, (byte_bits _).2, hnat]
      rw [if_neg (by omega), show (w % 128 + 128) % 128 = w % 128 by omega, or_shift hv hlow,
        ih (by omega) hroom hv' (by omega) h.tail, length_cons]
      simp only [Option.some.injEq, Prod.mk.injEq]
      omega

/-- **A varint of 64 bits is read back.** -/
theorem readVarint_write {pos v : Nat} (hv : v < 2 ^ 64) (h : BytesAt data pos (writeVarint v)) :
    readVarint data pos = some (v, pos + (writeVarint v).length) := by
  have hshifts : varintShifts = (List.range' 0 10).map (7 * ·) := rfl
  rw [readVarint, hshifts, readVarintLoop_write (by decide) (by decide) Nat.one_pos
    (by simpa using hv) h]
  simp

theorem readVarintU32_write {pos : Nat} {v : Nat} (hv : v < 2 ^ 32)
    (h : BytesAt data pos (writeVarint v)) :
    readVarintU32 data pos = some (UInt32.ofNat v, pos + (writeVarint v).length) := by
  rw [readVarintU32, readVarint_write (lt_trans hv (by decide)) h]
  exact if_pos hv

/-- A field of 32 bits, written as it is. -/
theorem readVarintU32_toNat {pos : Nat} {v : UInt32} (h : BytesAt data pos (writeVarint v.toNat)) :
    readVarintU32 data pos = some (v, pos + (writeVarint v.toNat).length) := by
  rw [readVarintU32_write v.toNat_lt h, UInt32.ofNat_toNat]

/-- The unchecked loop agrees where the checked one reads a value. -/
theorem decodeVintLoop_eq {shifts : List Nat} {v pos : Nat} {r : Nat × Nat}
    (h : readVarintLoop 32 data shifts v pos = some r) : decodeVintLoop data shifts v pos = r := by
  induction shifts generalizing v pos with
  | nil => cases h
  | cons shift shifts ih =>
    rw [readVarintLoop] at h
    rw [decodeVintLoop]
    cases hb : data[pos]? with
    | none =>
      rw [hb] at h
      cases h
    | some b =>
      rw [hb] at h
      dsimp only at h ⊢
      split at h
      next hend => rw [if_pos hend, Option.some.inj h]
      next hend => rw [if_neg hend, ih h]

/-- **`decode_vint` reads a field of 32 bits back.** -/
theorem decodeVint_toNat {pos : Nat} {v : UInt32} (h : BytesAt data pos (writeVarint v.toNat)) :
    decodeVint data pos = (v, pos + (writeVarint v.toNat).length) := by
  have hshifts : [0, 7, 14, 21, 28] = (List.range' 0 5).map (7 * ·) := rfl
  have hloop := readVarintLoop_write (show 32 ≤ 7 * (0 + 5) by decide) (by decide) Nat.one_pos
    (by simpa using v.toNat_lt) h
  rw [decodeVint, hshifts, decodeVintLoop_eq hloop]
  simp

end Lucivy.SuffixFst
