import Mathlib.Data.List.Basic
import Mathlib.Tactic.SplitIfs

/-! # Ring buffers

An array of `n` cells with a read and a write index, empty when the indices agree. One cell always
stays free, so the buffer holds at most `n - 1` elements and `w + 1 = r` means full.

* `contents_push`, `contents_pop`: the buffer is a first-in first-out queue.
* `full_iff`: it is full exactly when it holds `n - 1` elements. -/

namespace OscKernel.Lib.RingBuffer

/-- The cells and the two indices. -/
structure RingBuf (α : Type*) where
  buf : ℕ → α
  r : ℕ
  w : ℕ

/-- The index after `i`, in a circle of `n`. -/
def nextIdx (n i : ℕ) : ℕ := (i + 1) % n

theorem nextIdx_eq {n i : ℕ} (h : i < n) : nextIdx n i = if i + 1 = n then 0 else i + 1 := by
  unfold nextIdx
  split_ifs with hi
  · rw [hi, Nat.mod_self]
  · exact Nat.mod_eq_of_lt (by omega)

theorem nextIdx_lt {n i : ℕ} (h : i < n) : nextIdx n i < n := Nat.mod_lt _ (by omega)

theorem add_mod_eq {n a b : ℕ} (ha : a < n) (hb : b ≤ n) :
    (a + b) % n = if a + b < n then a + b else a + b - n := by
  split_ifs with h
  · exact Nat.mod_eq_of_lt h
  · rw [Nat.mod_eq_sub_mod (by omega), Nat.mod_eq_of_lt (by omega)]

namespace RingBuf
variable {α : Type*} {n : ℕ} {q : RingBuf α}

/-- Both indices lie in the array. -/
structure WF (n : ℕ) (q : RingBuf α) : Prop where
  r_lt : q.r < n
  w_lt : q.w < n

/-- Writing `c` and moving the write index on. -/
def push (n : ℕ) (q : RingBuf α) (c : α) : RingBuf α :=
  { q with buf := fun i => if i = q.w then c else q.buf i, w := nextIdx n q.w }

/-- Moving the read index on. -/
def pop (n : ℕ) (q : RingBuf α) : RingBuf α := { q with r := nextIdx n q.r }

/-- The oldest element. -/
def head (q : RingBuf α) : α := q.buf q.r

/-- The number of elements. -/
def size (n : ℕ) (q : RingBuf α) : ℕ := (q.w + n - q.r) % n

/-- The elements, the oldest first. -/
def contents (n : ℕ) (q : RingBuf α) : List α :=
  (List.range (size n q)).map fun i => q.buf ((q.r + i) % n)

theorem WF.push (h : WF n q) (c : α) : WF n (q.push n c) := ⟨h.r_lt, nextIdx_lt h.w_lt⟩

theorem WF.pop (h : WF n q) : WF n (q.pop n) := ⟨nextIdx_lt h.r_lt, h.w_lt⟩

theorem size_eq (h : WF n q) : size n q = if q.r ≤ q.w then q.w - q.r else q.w + n - q.r := by
  have hr := h.r_lt
  have hw := h.w_lt
  unfold size
  split_ifs with hrw
  · rw [Nat.mod_eq_sub_mod (by omega), Nat.mod_eq_of_lt (by omega)]
    omega
  · exact Nat.mod_eq_of_lt (by omega)

theorem size_lt (h : WF n q) : size n q < n := Nat.mod_lt _ (by have := h.r_lt; omega)

@[simp] theorem length_contents : (contents n q).length = size n q := by simp [contents]

theorem size_eq_zero_iff (h : WF n q) : size n q = 0 ↔ q.r = q.w := by
  have hr := h.r_lt
  have hw := h.w_lt
  rw [size_eq h]
  split_ifs <;> omega

theorem contents_eq_nil_iff (h : WF n q) : contents n q = [] ↔ q.r = q.w := by
  rw [← List.length_eq_zero_iff, length_contents, size_eq_zero_iff h]

/-- **Full** means all cells but one are taken. -/
theorem full_iff (h : WF n q) : nextIdx n q.w = q.r ↔ size n q = n - 1 := by
  have hr := h.r_lt
  have hw := h.w_lt
  rw [size_eq h, nextIdx_eq hw]
  split_ifs <;> omega

theorem size_push (h : WF n q) (hf : nextIdx n q.w ≠ q.r) (c : α) :
    size n (q.push n c) = size n q + 1 := by
  have hr := h.r_lt
  have hw := h.w_lt
  rw [size_eq h, size_eq (h.push c)]
  simp only [push, nextIdx_eq hw] at hf ⊢
  split_ifs at hf ⊢ <;> omega

theorem size_pop (h : WF n q) (he : q.r ≠ q.w) : size n q = size n (q.pop n) + 1 := by
  have hr := h.r_lt
  have hw := h.w_lt
  rw [size_eq h, size_eq h.pop]
  simp only [pop, nextIdx_eq hr]
  split_ifs <;> omega

/-- **Pushing** appends at the end. -/
theorem contents_push (h : WF n q) (hf : nextIdx n q.w ≠ q.r) (c : α) :
    contents n (q.push n c) = contents n q ++ [c] := by
  have hr := h.r_lt
  have hw := h.w_lt
  have hs := size_lt (h.push c)
  rw [size_push h hf] at hs
  rw [contents, size_push h hf, List.range_succ, List.map_append, contents]
  congr 1
  · refine List.map_congr_left fun i hi => ?_
    have hi := List.mem_range.1 hi
    have hne : (q.r + i) % n ≠ q.w := by
      rw [add_mod_eq hr (by omega)]
      rw [size_eq h] at hi
      split_ifs at hi ⊢ <;> omega
    simp only [push, if_neg hne]
  · have heq : (q.r + size n q) % n = q.w := by
      rw [add_mod_eq hr (by omega), size_eq h]
      split_ifs <;> omega
    simp [push, heq]

/-- **Popping** removes the oldest element. -/
theorem contents_pop (h : WF n q) (he : q.r ≠ q.w) :
    contents n q = q.head :: contents n (q.pop n) := by
  have hr := h.r_lt
  rw [contents, size_pop h he, List.range_succ_eq_map, List.map_cons, List.map_map, contents]
  congr 1
  · simp only [head, Nat.add_zero, Nat.mod_eq_of_lt hr]
  · refine List.map_congr_left fun i _ => ?_
    have hidx : (q.r + (i + 1)) % n = ((q.r + 1) % n + i) % n := by
      rw [Nat.mod_add_mod]
      congr 1
      omega
    simp only [Function.comp, pop, nextIdx, Nat.succ_eq_add_one, hidx]

end RingBuf

end OscKernel.Lib.RingBuffer
