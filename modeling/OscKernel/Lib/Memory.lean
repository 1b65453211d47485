import Mathlib.Tactic.Ring
import Mathlib.Data.List.Basic

/-! # Byte-addressed memory with 64-bit and 32-bit loads and stores

Memory is a function from 64-bit addresses to bytes. `load` and `store` are the little-endian
doubleword accesses, `load32` and `store32` those of a word; an access at the end of the address space
wraps around.

* `load_store_same`: a load reads back what was stored at the same address.
* `load_store_of_disjoint`: a store leaves every doubleword at distance at least `8` alone.
* `load32_store32_same`, `store32_of_le`: the same for words.
* `load_stores`: a list of stores at offsets `8 * k` from a base reads back slot by slot.
* `Placed`: a list of bytes at an address. -/

namespace OscKernel.Lib.Memory

/-- A 64-bit machine word. -/
abbrev Word := BitVec 64

/-- A byte. -/
abbrev Byte := BitVec 8

/-- Byte-addressed memory. -/
abbrev Mem := Word → Byte

/-- Byte `i` of a word, the least significant first. -/
def byteOf (v : Word) (i : ℕ) : Byte := BitVec.ofNat 8 (v.toNat / 256 ^ i)

/-- The word with the bytes `f 0, …, f 7`. -/
def ofBytes (f : ℕ → Byte) : Word :=
  BitVec.ofNat 64 ((f 0).toNat + 256 * ((f 1).toNat + 256 * ((f 2).toNat + 256 * ((f 3).toNat +
    256 * ((f 4).toNat + 256 * ((f 5).toNat + 256 * ((f 6).toNat + 256 * (f 7).toNat)))))))

/-- The doubleword at address `a`. -/
def load (m : Mem) (a : Word) : Word := ofBytes fun i => m (a + BitVec.ofNat 64 i)

/-- The memory after storing `v` at address `a`. -/
def store (m : Mem) (a v : Word) : Mem :=
  fun b => if (b - a).toNat < 8 then byteOf v (b - a).toNat else m b

theorem ofBytes_byteOf (v : Word) : ofBytes (byteOf v) = v := by
  apply BitVec.eq_of_toNat_eq
  have hv := v.isLt
  simp only [ofBytes, byteOf, BitVec.toNat_ofNat]
  omega

theorem ofBytes_congr {f g : ℕ → Byte} (h : ∀ i < 8, f i = g i) : ofBytes f = ofBytes g := by
  unfold ofBytes
  rw [h 0 (by omega), h 1 (by omega), h 2 (by omega), h 3 (by omega), h 4 (by omega),
    h 5 (by omega), h 6 (by omega), h 7 (by omega)]

theorem add_ofNat_sub (a : Word) {i : ℕ} (hi : i < 8) :
    (a + BitVec.ofNat 64 i - a).toNat = i := by
  bv_omega

@[simp] theorem load_store_same (m : Mem) (a v : Word) : load (store m a v) a = v := by
  rw [load, ← ofBytes_byteOf v]
  refine ofBytes_congr fun i hi => ?_
  simp only [store, add_ofNat_sub a hi, if_pos hi, ofBytes_byteOf]

/-- **A store leaves the doublewords away from it alone.** -/
theorem load_store_of_disjoint (m : Mem) {a b : Word} (v : Word) (h1 : 8 ≤ (b - a).toNat)
    (h2 : 8 ≤ (a - b).toNat) : load (store m a v) b = load m b := by
  refine ofBytes_congr fun i hi => ?_
  have hne : ¬ (b + BitVec.ofNat 64 i - a).toNat < 8 := by bv_omega
  simp only [store, if_neg hne]

theorem load_congr {m m' : Mem} {a : Word} (h : ∀ i < 8, m (a + BitVec.ofNat 64 i) =
    m' (a + BitVec.ofNat 64 i)) : load m a = load m' a :=
  ofBytes_congr h

/-! ### Words of 32 bits -/

/-- The word at address `a`. -/
def load32 (m : Mem) (a : Word) : BitVec 32 :=
  BitVec.ofNat 32 ((m a).toNat + 256 * ((m (a + 1)).toNat + 256 * ((m (a + 2)).toNat +
    256 * (m (a + 3)).toNat)))

/-- The memory after storing the word `v` at address `a`. -/
def store32 (m : Mem) (a : Word) (v : BitVec 32) : Mem :=
  fun b => if (b - a).toNat < 4 then byteOf (v.setWidth 64) (b - a).toNat else m b

theorem load32_congr {m m' : Mem} {a : Word}
    (h : ∀ i < 4, m (a + BitVec.ofNat 64 i) = m' (a + BitVec.ofNat 64 i)) :
    load32 m a = load32 m' a := by
  have h0 : m a = m' a := by simpa using h 0 (by omega)
  have h1 : m (a + 1) = m' (a + 1) := h 1 (by omega)
  have h2 : m (a + 2) = m' (a + 2) := h 2 (by omega)
  have h3 : m (a + 3) = m' (a + 3) := h 3 (by omega)
  unfold load32
  rw [h0, h1, h2, h3]

/-- A store of a word leaves the bytes that are not in it alone. -/
theorem store32_of_le (m : Mem) {a b : Word} (v : BitVec 32) (h : 4 ≤ (b - a).toNat) :
    store32 m a v b = m b :=
  if_neg (not_lt.2 h)

@[simp] theorem load32_store32_same (m : Mem) (a : Word) (v : BitVec 32) :
    load32 (store32 m a v) a = v := by
  have hv := v.isLt
  have hb : ∀ i < 4, store32 m a v (a + BitVec.ofNat 64 i) = byteOf (v.setWidth 64) i := by
    intro i hi
    have hsub : (a + BitVec.ofNat 64 i - a).toNat = i := add_ofNat_sub a (by omega)
    rw [store32, hsub, if_pos hi]
  have h0 : store32 m a v a = byteOf (v.setWidth 64) 0 := by simpa using hb 0 (by omega)
  have h1 : store32 m a v (a + 1) = byteOf (v.setWidth 64) 1 := hb 1 (by omega)
  have h2 : store32 m a v (a + 2) = byteOf (v.setWidth 64) 2 := hb 2 (by omega)
  have h3 : store32 m a v (a + 3) = byteOf (v.setWidth 64) 3 := hb 3 (by omega)
  apply BitVec.eq_of_toNat_eq
  rw [load32, h0, h1, h2, h3]
  simp only [byteOf, BitVec.toNat_ofNat, BitVec.toNat_setWidth]
  omega

/-! ### Slots of a frame -/

/-- The address of slot `k` of a frame of doublewords at `base`. -/
def slot (base : Word) (k : ℕ) : Word := base + BitVec.ofNat 64 (8 * k)

/-- Slots of a frame of fewer than `2 ^ 60` doublewords do not overlap. -/
theorem slot_disjoint (base : Word) {j k : ℕ} (hj : j < 2 ^ 60) (hk : k < 2 ^ 60) (h : j ≠ k) :
    8 ≤ (slot base j - slot base k).toNat := by
  unfold slot
  rcases Nat.lt_or_gt_of_ne h with h | h <;> bv_omega

/-- The stores of a list of slots and values, the first one first. -/
def stores (m : Mem) (base : Word) : List (ℕ × Word) → Mem
  | [] => m
  | (k, v) :: l => stores (store m (slot base k) v) base l

/-- The value a list of stores leaves in slot `k`, if it stores there. -/
def lastStore (k : ℕ) : List (ℕ × Word) → Option Word
  | [] => none
  | (j, v) :: l => (lastStore k l).or (if j = k then some v else none)

/-- **Reading a slot back after a list of stores.** -/
theorem load_stores (base : Word) {k : ℕ} (hk : k < 2 ^ 60) :
    ∀ (l : List (ℕ × Word)) (m : Mem), (∀ p ∈ l, p.1 < 2 ^ 60) →
      load (stores m base l) (slot base k) = (lastStore k l).getD (load m (slot base k))
  | [], m, _ => rfl
  | (j, v) :: l, m, h => by
    have hj : j < 2 ^ 60 := h (j, v) (by simp)
    rw [stores, load_stores base hk l _ (fun p hp => h p (by simp [hp]))]
    simp only [lastStore]
    cases lastStore k l with
    | some w => simp
    | none =>
      by_cases hjk : j = k
      · subst hjk; simp
      · rw [load_store_of_disjoint _ _ (slot_disjoint base hk hj (Ne.symm hjk))
          (slot_disjoint base hj hk hjk)]
        simp [hjk]

/-! ### Lists of bytes -/

/-- What a pointer to bytes reads. -/
def bytesAt (m : Mem) (p : Word) (i : ℕ) : Byte := m (p + BitVec.ofNat 64 i)

theorem bytesAt_add (m : Mem) (p : Word) (j i : ℕ) :
    bytesAt m (p + BitVec.ofNat 64 j) i = bytesAt m p (j + i) := by
  rw [bytesAt, bytesAt, BitVec.add_assoc, ← BitVec.ofNat_add]

/-- The bytes stand at the address. -/
def Placed (m : Mem) (p : Word) (l : List Byte) : Prop :=
  ∀ i (h : i < l.length), bytesAt m p i = l[i]

theorem placed_append {m : Mem} {p : Word} {l l' : List Byte} :
    Placed m p (l ++ l') ↔ Placed m p l ∧ Placed m (p + BitVec.ofNat 64 l.length) l' := by
  constructor
  · intro h
    refine ⟨fun i hi => ?_, fun i hi => ?_⟩
    · rw [h i (by simp; omega), List.getElem_append_left hi]
    · rw [bytesAt_add, h _ (by simp; omega), List.getElem_append_right (by omega)]
      simp
  · rintro ⟨h, h'⟩ i hi
    by_cases hl : i < l.length
    · rw [h i hl, List.getElem_append_left hl]
    · obtain ⟨j, rfl⟩ := Nat.exists_eq_add_of_le (not_lt.1 hl)
      rw [← bytesAt_add, h' j (by simp at hi; omega), List.getElem_append_right (by omega)]
      simp

end OscKernel.Lib.Memory
