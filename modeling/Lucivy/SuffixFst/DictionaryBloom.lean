import Mathlib.Data.Nat.Bitwise

/-! # The dictionary's Bloom filter

`dictionary_bloom.rs`: a chain of Bloom filters, each twice the capacity of the one before. A key
goes into the last filter; a question asks every one. The two hashes of a key are inputs: the
first is a library's, the second a mix of it.

* `Bloom` — one filter: words of 64 bits, seven probes for each key.
* `ScalableBloom` — the chain.
* `maybeContains_insert_self`, `maybeContains_insert`, `inserted_never_denied` — a key that was
  inserted is never denied, however the chain grows. -/

namespace Lucivy.SuffixFst

open List

def bitsPerKey : Nat := 10

def hashes : Nat := 7

def firstCapacity : Nat := 2 ^ 18

/-- The two hashes of a key. -/
structure KeyHashes where
  /-- The hash of its bytes. -/
  h1 : UInt64
  /-- The hash that spreads the probes. -/
  h2 : UInt64
deriving DecidableEq, Repr

/-- The second hash from the first: the finalizer of `ScalableBloom::hashes`. -/
def KeyHashes.ofFirst (h1 : UInt64) : KeyHashes :=
  let x := h1 ^^^ 0x9E3779B97F4A7C15
  let x := (x ^^^ (x >>> 33)) * 0xff51afd7ed558ccd
  let x := (x ^^^ (x >>> 33)) * 0xc4ceb9fe1a85ec53
  ⟨h1, (x ^^^ (x >>> 33)) ||| 1⟩

/-- **`Bloom`.** A word is a number below `2 ^ 64`; words not written are zero. -/
structure Bloom where
  /-- The words. -/
  bits : Nat → Nat
  nbits : Nat
  /-- How many keys it takes. -/
  capacity : Nat
  /-- How many it has taken. -/
  inserted : Nat

namespace Bloom

/-- `Bloom::with_capacity`. -/
def withCapacity (capacity : Nat) : Bloom :=
  ⟨fun _ => 0, max (capacity * bitsPerKey) 64, capacity, 0⟩

/-- The bit of a probe. -/
def probe (b : Bloom) (k : KeyHashes) (i : Nat) : Nat :=
  (k.h1 + UInt64.ofNat i * k.h2).toNat % b.nbits

/-- One bit is set. -/
def hasBit (b : Bloom) (bit : Nat) : Bool := b.bits (bit / 64) &&& 2 ^ (bit % 64) != 0

def setBit (b : Bloom) (bit : Nat) : Bloom :=
  { b with bits := Function.update b.bits (bit / 64) (b.bits (bit / 64) ||| 2 ^ (bit % 64)) }

/-- `Bloom::maybe_contains`. -/
def maybeContains (b : Bloom) (k : KeyHashes) : Bool :=
  (List.range hashes).all fun i => b.hasBit (b.probe k i)

/-- `Bloom::insert`. -/
def insert (b : Bloom) (k : KeyHashes) : Bloom :=
  { ((List.range hashes).map (b.probe k)).foldl setBit b with inserted := b.inserted + 1 }

/-- `Bloom::full`. -/
def full (b : Bloom) : Bool := b.capacity ≤ b.inserted

theorem hasBit_iff (b : Bloom) (bit : Nat) :
    b.hasBit bit = true ↔ (b.bits (bit / 64)).testBit (bit % 64) = true := by
  rw [hasBit, Nat.and_two_pow]
  cases (b.bits (bit / 64)).testBit (bit % 64) <;> simp

/-- The bits set after one more is set. -/
theorem hasBit_setBit (b : Bloom) (bit other : Nat) :
    (b.setBit bit).hasBit other = true ↔ other = bit ∨ b.hasBit other = true := by
  rw [hasBit_iff, hasBit_iff, setBit]
  by_cases hword : other / 64 = bit / 64
  · simp only [hword, Function.update_self, Nat.testBit_or, Bool.or_eq_true, Nat.testBit_two_pow,
      decide_eq_true_eq]
    have hbit : bit % 64 = other % 64 ↔ other = bit := by
      constructor
      · intro h
        rw [← Nat.div_add_mod other 64, ← Nat.div_add_mod bit 64, hword, h]
      · rintro rfl
        rfl
    rw [hbit, or_comm]
  · have hne : other ≠ bit := fun h => hword (by rw [h])
    simp [Function.update_of_ne hword, hne]

/-- The bits set after several are set. -/
theorem hasBit_foldl_setBit (b : Bloom) (bits : List Nat) (other : Nat) :
    (bits.foldl setBit b).hasBit other = true ↔ other ∈ bits ∨ b.hasBit other = true := by
  induction bits generalizing b with
  | nil => simp
  | cons bit bits ih =>
    rw [foldl_cons, ih, hasBit_setBit, mem_cons]
    tauto

theorem nbits_foldl_setBit (b : Bloom) (bits : List Nat) :
    (bits.foldl setBit b).nbits = b.nbits := by
  induction bits generalizing b with
  | nil => rfl
  | cons bit bits ih => rw [foldl_cons, ih, setBit]

/-- Inserting a key leaves the probes where they are. -/
theorem probe_insert (b : Bloom) (k k' : KeyHashes) (i : Nat) :
    (b.insert k).probe k' i = b.probe k' i := by
  rw [probe, probe, insert]
  simp only [nbits_foldl_setBit]

theorem hasBit_insert (b : Bloom) (k : KeyHashes) (bit : Nat) :
    (b.insert k).hasBit bit = true ↔
      bit ∈ (List.range hashes).map (b.probe k) ∨ b.hasBit bit = true :=
  hasBit_foldl_setBit b ((List.range hashes).map (b.probe k)) bit

/-- A key that was just inserted is found. -/
theorem maybeContains_insert_self (b : Bloom) (k : KeyHashes) :
    (b.insert k).maybeContains k = true := by
  rw [maybeContains, all_eq_true]
  intro i hi
  rw [probe_insert, hasBit_insert]
  exact .inl (mem_map_of_mem hi)

/-- A key that is found is found after any insertion. -/
theorem maybeContains_insert (b : Bloom) (k : KeyHashes) {k' : KeyHashes}
    (h : b.maybeContains k' = true) : (b.insert k).maybeContains k' = true := by
  rw [maybeContains, all_eq_true] at h ⊢
  intro i hi
  rw [probe_insert, hasBit_insert]
  exact .inr (h i hi)

end Bloom

/-- **`ScalableBloom`**: the filters before the last one, and the last one. -/
structure ScalableBloom where
  /-- The filters that are full. -/
  earlier : List Bloom
  /-- The filter that is filled. -/
  last : Bloom

namespace ScalableBloom

/-- `ScalableBloom::with_capacity`. -/
def withCapacity (capacity : Nat) : ScalableBloom :=
  ⟨[], .withCapacity (max capacity firstCapacity)⟩

/-- `ScalableBloom::maybe_contains`. -/
def maybeContains (f : ScalableBloom) (k : KeyHashes) : Bool :=
  (f.earlier ++ [f.last]).any (·.maybeContains k)

/-- `ScalableBloom::insert`: a full filter is followed by one of twice its capacity. -/
def insert (f : ScalableBloom) (k : KeyHashes) : ScalableBloom :=
  if f.last.full then
    ⟨f.earlier ++ [f.last], (Bloom.withCapacity (f.last.capacity * 2)).insert k⟩
  else ⟨f.earlier, f.last.insert k⟩

/-- A key that was just inserted is found. -/
theorem maybeContains_insert_self (f : ScalableBloom) (k : KeyHashes) :
    (f.insert k).maybeContains k = true := by
  have hlast : (f.insert k).last.maybeContains k = true := by
    unfold insert
    split
    · exact Bloom.maybeContains_insert_self _ k
    · exact Bloom.maybeContains_insert_self _ k
  rw [maybeContains, any_append, any_cons, hlast]
  simp

/-- A key that is found is found after any insertion, in a filter that grew or in one that was
left behind. -/
theorem maybeContains_insert (f : ScalableBloom) (k : KeyHashes) {k' : KeyHashes}
    (h : f.maybeContains k' = true) : (f.insert k).maybeContains k' = true := by
  rw [maybeContains, any_eq_true] at h ⊢
  obtain ⟨b, hb, hk⟩ := h
  unfold insert
  split
  · exact ⟨b, mem_append_left _ hb, hk⟩
  · rcases mem_append.mp hb with hb | hb
    · exact ⟨b, mem_append_left _ hb, hk⟩
    · obtain rfl := mem_singleton.mp hb
      exact ⟨_, mem_append_right _ mem_cons_self, Bloom.maybeContains_insert _ k hk⟩

/-- Every key of a list that was inserted is found, and every key found before. -/
theorem maybeContains_foldl_insert (f : ScalableBloom) (ks : List KeyHashes) {k : KeyHashes}
    (h : k ∈ ks ∨ f.maybeContains k = true) : (ks.foldl insert f).maybeContains k = true := by
  induction ks generalizing f with
  | nil => exact h.resolve_left not_mem_nil
  | cons k' ks ih =>
    refine ih _ ?_
    rcases h with h | h
    · rcases mem_cons.mp h with rfl | h
      · exact .inr (maybeContains_insert_self f k)
      · exact .inl h
    · exact .inr (maybeContains_insert f k' h)

/-- **No key that was inserted is denied**, however its bytes are hashed. -/
theorem inserted_never_denied (hash : List UInt8 → UInt64) (capacity : Nat)
    (keys : List (List UInt8)) :
    keys.all fun key => ((keys.map (KeyHashes.ofFirst ∘ hash)).foldl insert
      (withCapacity capacity)).maybeContains (.ofFirst (hash key)) := by
  rw [all_eq_true]
  intro key hkey
  exact maybeContains_foldl_insert _ _ (.inl (mem_map_of_mem hkey))

end ScalableBloom

end Lucivy.SuffixFst
