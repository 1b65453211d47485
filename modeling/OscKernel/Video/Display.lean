import OscKernel.Lib.Align
import OscKernel.Lib.Memory
import Mathlib.Data.List.Flatten

/-! # `video_display` of lab5

An image is copied to the middle of the framebuffer row by row, and every row is flushed from the data
cache as soon as it is written. What the code does in memory is kept as a trace: the words it reads and
writes, the cache blocks it flushes, and its fences.

* `videoDisplay`: the source.
* `Copied`, `Rows`: the invariants of its loops.
* `Flushed`: whatever is written is flushed later on.
* `display_draws`: the call draws the image and nothing else. -/

namespace OscKernel.Video.Display

open OscKernel.Lib.Memory OscKernel.Lib.Align

/-! ### The source -/

/-- `FB_BASE`. -/
def fbBase : Word := 0x7f700000

/-- `FB_WIDTH`. -/
def fbWidth : BitVec 32 := 1920

/-- `FB_HEIGHT`. -/
def fbHeight : BitVec 32 := 1080

/-- `CACHE_BLOCK_SIZE`. -/
def cacheBlockSize : Word := 64

/-- `align_down`. -/
def alignDown (x align : Word) : Word := x &&& ~~~(align - 1)

/-- `align_up`. -/
def alignUp (x align : Word) : Word := (x + align - 1) &&& ~~~(align - 1)

/-- An access to memory. -/
inductive Access
  /-- a word is read -/
  | read (addr : Word)
  /-- a word is written -/
  | write (addr : Word)
  /-- the cache block of an address is flushed -/
  | flush (addr : Word)
  | fence
  deriving DecidableEq

/-- The memory, and the accesses so far. -/
structure Machine where
  mem : Mem
  trace : List Access

/-- `dst[i] = src[i]`. -/
def Machine.copyWord (s : Machine) (dst src : Word) : Machine :=
  ⟨store32 s.mem dst (load32 s.mem src), s.trace ++ [.read src, .write dst]⟩

/-- `cbo_flush_one`. -/
def cboFlushOne (s : Machine) (addr : Word) : Machine := { s with trace := s.trace ++ [.flush addr] }

/-- The loop of `flush_dcache`. -/
def flushFrom (stop : Word) : ℕ → Word → Machine → Option Machine
  | 0, _, _ => none
  | n + 1, p, s =>
    if p < stop then flushFrom stop n (p + cacheBlockSize) (cboFlushOne s p) else some s

/-- `flush_dcache`. -/
def flushDcache (s : Machine) (addr len : Word) : Option Machine :=
  (flushFrom (alignUp (addr + len) cacheBlockSize) (2 ^ 64) (alignDown addr cacheBlockSize) s).map
    fun s => { s with trace := s.trace ++ [.fence] }

/-- The loop of `copy_words`. -/
def copyWordsFrom (dst src count : Word) : ℕ → Word → Machine → Option Machine
  | 0, _, _ => none
  | n + 1, i, s =>
    if i < count then copyWordsFrom dst src count n (i + 1) (s.copyWord (dst + 4 * i) (src + 4 * i))
    else some s

/-- `copy_words`. -/
def copyWords (s : Machine) (dst src count : Word) : Option Machine :=
  copyWordsFrom dst src count (2 ^ 64) 0 s

/-- The loop of `video_display`. -/
def rowsFrom (bmpImage : Word) (width height startX startY : BitVec 32) :
    ℕ → BitVec 32 → Machine → Option Machine
  | 0, _, _ => none
  | n + 1, y, s =>
    if y < height then
      let dst := fbBase + 4 * ((startY + y) * fbWidth).setWidth 64 + 4 * startX.setWidth 64
      let src := bmpImage + 4 * (y * width).setWidth 64
      ((copyWords s dst src (width.setWidth 64)).bind fun s =>
        flushDcache s dst (width.setWidth 64 * 4)).bind fun s =>
          rowsFrom bmpImage width height startX startY n (y + 1) s
    else some s

/-- `video_display`. -/
def videoDisplay (s : Machine) (bmpImage : Word) (width height : BitVec 32) :
    Option (ℤ × Machine) :=
  if bmpImage = 0 then some (-1, s)
  else if width = 0 ∨ height = 0 then some (-1, s)
  else if width > fbWidth ∨ height > fbHeight then some (-1, s)
  else
    let startX := (fbWidth - width) / 2
    let startY := (fbHeight - height) / 2
    (rowsFrom bmpImage width height startX startY (2 ^ 32) 0 s).map fun s => (0, s)

/-! ### Copying a row -/

/-- The address of the word `i` of an array. -/
def wordAddr (a : Word) (i : ℕ) : Word := a + BitVec.ofNat 64 (4 * i)

/-- What `copy_words` does to the trace in `n` rounds. -/
def copies (dst src : Word) (n : ℕ) : List Access :=
  (List.range n).flatMap fun i => [.read (wordAddr src i), .write (wordAddr dst i)]

/-- **The invariant of `copy_words`** after `k` words. -/
structure Copied (s : Machine) (dst src : Word) (k : ℕ) (t : Machine) : Prop where
  words : ∀ i < k, load32 t.mem (wordAddr dst i) = load32 s.mem (wordAddr src i)
  frame : ∀ b, 4 * k ≤ (b - dst).toNat → t.mem b = s.mem b
  trace : t.trace = s.trace ++ copies dst src k

section Copy
variable {s t : Machine} {dst src : Word} {k n : ℕ}

theorem four_mul_ofNat (k : ℕ) : (4 : Word) * BitVec.ofNat 64 k = BitVec.ofNat 64 (4 * k) := by
  rw [BitVec.ofNat_mul]
  rfl

theorem copied_zero (s : Machine) (dst src : Word) : Copied s dst src 0 s :=
  ⟨by simp, fun _ _ => rfl, by simp [copies]⟩

/-- One more word is copied: it is not one of those that have been written. -/
theorem Copied.step (h : Copied s dst src k t) (hk : 4 * (k + 1) < 2 ^ 64)
    (hsrc : ∀ j < 4, 4 * k ≤ (wordAddr src k + BitVec.ofNat 64 j - dst).toNat) :
    Copied s dst src (k + 1) (t.copyWord (wordAddr dst k) (wordAddr src k)) := by
  have hv : load32 t.mem (wordAddr src k) = load32 s.mem (wordAddr src k) :=
    load32_congr fun j hj => h.frame _ (hsrc j hj)
  refine ⟨fun i hi => ?_, fun b hb => ?_, ?_⟩
  · show load32 (store32 t.mem (wordAddr dst k) (load32 t.mem (wordAddr src k))) _ = _
    rcases Nat.lt_succ_iff_lt_or_eq.mp hi with hlt | rfl
    · rw [← h.words i hlt]
      refine load32_congr fun j hj => store32_of_le _ _ ?_
      unfold wordAddr
      bv_omega
    · rw [load32_store32_same, hv]
  · show store32 t.mem (wordAddr dst k) (load32 t.mem (wordAddr src k)) b = _
    rw [← h.frame b (by omega)]
    refine store32_of_le _ _ ?_
    unfold wordAddr
    bv_omega
  · show t.trace ++ _ = _
    rw [h.trace, copies, copies, List.range_succ, List.flatMap_append, List.append_assoc]
    rfl

theorem copyWordsFrom_spec (hn : 4 * n < 2 ^ 64)
    (hsrc : ∀ i < n, ∀ j < 4, 4 * n ≤ (wordAddr src i + BitVec.ofNat 64 j - dst).toNat) :
    ∀ {d k fuel : ℕ} {t : Machine}, k + d = n → d < fuel → Copied s dst src k t →
      ∃ u, copyWordsFrom dst src (BitVec.ofNat 64 n) fuel (BitVec.ofNat 64 k) t = some u ∧
        Copied s dst src n u
  | 0, k, fuel + 1, t, hd, _, h => by
    obtain rfl : k = n := by omega
    exact ⟨t, if_neg (BitVec.lt_irrefl _), h⟩
  | d + 1, k, fuel + 1, t, hd, hf, h => by
    have hlt : BitVec.ofNat 64 k < BitVec.ofNat 64 n := by
      rw [BitVec.lt_def, BitVec.toNat_ofNat, BitVec.toNat_ofNat]
      omega
    have hnext : BitVec.ofNat 64 k + 1 = BitVec.ofNat 64 (k + 1) := (BitVec.ofNat_add ..).symm
    rw [copyWordsFrom, if_pos hlt, hnext, four_mul_ofNat]
    refine copyWordsFrom_spec hn hsrc (d := d) (by omega) (by omega)
      (h.step (by omega) fun j hj => ?_)
    have := hsrc k (by omega) j hj
    omega

/-- `copy_words` copies, unless it writes over what it has still to read. -/
theorem copyWords_spec (hn : 4 * n < 2 ^ 64)
    (hsrc : ∀ i < n, ∀ j < 4, 4 * n ≤ (wordAddr src i + BitVec.ofNat 64 j - dst).toNat) :
    ∃ t, copyWords s dst src (BitVec.ofNat 64 n) = some t ∧ Copied s dst src n t :=
  copyWordsFrom_spec hn hsrc (d := n) (Nat.zero_add n) (by omega) (copied_zero s dst src)

end Copy

/-- A byte of a word, where the addresses do not wrap. -/
theorem byte_toNat {a : Word} {i j : ℕ} (hj : j < 4) (h : a.toNat + 4 * (i + 1) < 2 ^ 64) :
    (wordAddr a i + BitVec.ofNat 64 j).toNat = a.toNat + 4 * i + j := by
  unfold wordAddr
  bv_omega

/-! ### Flushing a row -/

/-- The cache block that an address lies in. -/
def block (a : Word) : ℕ := a.toNat / 64

/-- Flushes of the blocks from `q` on. -/
def flushes (q n : ℕ) : List Access :=
  (List.range' q n).map fun i => .flush (BitVec.ofNat 64 (64 * i))

section Flush

/-- The loop of `flush_dcache` from the block `q` on. -/
theorem flushFrom_spec {r : ℕ} (hr : 64 * r < 2 ^ 64) : ∀ {d q fuel : ℕ} {s : Machine}, q + d = r →
    d < fuel → flushFrom (BitVec.ofNat 64 (64 * r)) fuel (BitVec.ofNat 64 (64 * q)) s =
      some { s with trace := s.trace ++ flushes q d }
  | 0, q, fuel + 1, s, hd, _ => by
    obtain rfl : q = r := by omega
    rw [flushFrom, if_neg (BitVec.lt_irrefl _), flushes, List.range'_zero, List.map_nil,
      List.append_nil]
  | d + 1, q, fuel + 1, s, hd, hf => by
    have hlt : BitVec.ofNat 64 (64 * q) < BitVec.ofNat 64 (64 * r) := by
      rw [BitVec.lt_def, BitVec.toNat_ofNat, BitVec.toNat_ofNat]
      omega
    have hnext : BitVec.ofNat 64 (64 * q) + cacheBlockSize = BitVec.ofNat 64 (64 * (q + 1)) :=
      (BitVec.ofNat_add ..).symm
    rw [flushFrom, if_pos hlt, hnext, flushFrom_spec hr (d := d) (by omega) (by omega), cboFlushOne,
      flushes, flushes, List.range'_succ, List.map_cons, List.append_assoc, List.singleton_append]

/-- `flush_dcache` flushes the blocks from that of the first byte to that of the last one. -/
theorem flushDcache_spec {s : Machine} (addr len : Word) (h : addr.toNat + len.toNat + 64 < 2 ^ 64) :
    flushDcache s addr len = some { s with
      trace := s.trace ++
        flushes (block addr) ((addr.toNat + len.toNat + 63) / 64 - block addr) ++ [.fence] } := by
  have h64 : cacheBlockSize.toNat = 2 ^ 6 := rfl
  have hsum : (addr + len).toNat = addr.toNat + len.toNat := by bv_omega
  have hdown : alignDown addr cacheBlockSize = BitVec.ofNat 64 (64 * block addr) := by
    apply BitVec.eq_of_toNat_eq
    rw [alignDown, and_not_toNat h64, BitVec.toNat_ofNat, block]
    omega
  have hup : alignUp (addr + len) cacheBlockSize =
      BitVec.ofNat 64 (64 * ((addr.toNat + len.toNat + 63) / 64)) := by
    apply BitVec.eq_of_toNat_eq
    rw [alignUp, add_and_not_toNat h64 (by rw [hsum, h64]; omega), hsum, BitVec.toNat_ofNat]
    omega
  rw [flushDcache, hdown, hup, flushFrom_spec (by omega)
    (d := (addr.toNat + len.toNat + 63) / 64 - block addr) (by unfold block; omega)
    (by unfold block; omega), Option.map_some]

end Flush

/-! ### What is flushed -/

/-- Whatever is written is flushed later on: every byte of it lies in a block that is. -/
def Flushed (t : List Access) : Prop :=
  ∀ l a r, t = l ++ .write a :: r → ∀ i < 4, ∃ p, .flush p ∈ r ∧ block p = block (a + BitVec.ofNat 64 i)

/-- The words that are read. -/
def Access.source : Access → Option Word
  | .read a => some a
  | _ => none

section Trace
variable {t u : List Access}

theorem flushed_nil : Flushed [] := fun l a r h => by simp at h

theorem Flushed.append (ht : Flushed t) (hu : Flushed u) : Flushed (t ++ u) := by
  intro l a r he i hi
  rcases List.append_eq_append_iff.mp he with ⟨l', rfl, h⟩ | ⟨r', rfl, h⟩
  · exact hu l' a r h i hi
  · cases r' with
    | nil => exact hu [] a r h.symm i hi
    | cons x r' =>
      obtain ⟨rfl, rfl⟩ := List.cons.inj h
      obtain ⟨p, hp, hb⟩ := ht l a r' rfl i hi
      exact ⟨p, List.mem_append_left _ hp, hb⟩

theorem flushed_of_cover (hu : ∀ a, .write a ∉ u) (hc : ∀ a, .write a ∈ t → ∀ i < 4, ∃ p,
    .flush p ∈ u ∧ block p = block (a + BitVec.ofNat 64 i)) : Flushed (t ++ u) := by
  intro l a r he i hi
  rcases List.append_eq_append_iff.mp he with ⟨l', rfl, rfl⟩ | ⟨r', rfl, h⟩
  · exact absurd (by simp) (hu a)
  · cases r' with
    | nil =>
      have hm : .write a ∈ [] ++ u := h ▸ List.mem_cons_self ..
      exact absurd hm (hu a)
    | cons x r' =>
      obtain ⟨rfl, rfl⟩ := List.cons.inj h
      obtain ⟨p, hp, hb⟩ := hc a (by simp) i hi
      exact ⟨p, List.mem_append_right _ hp, hb⟩

theorem write_mem_copies {dst src a : Word} {n : ℕ} (h : .write a ∈ copies dst src n) :
    ∃ i < n, a = wordAddr dst i := by
  simpa [copies] using h

theorem source_copies (dst src : Word) (n : ℕ) :
    (copies dst src n).filterMap Access.source = (List.range n).map (wordAddr src) := by
  induction n with
  | zero => rfl
  | succ n ih =>
    rw [copies, List.range_succ, List.flatMap_append, List.filterMap_append, List.map_append]
    exact congrArg₂ (· ++ ·) ih rfl

theorem source_flushes (q n : ℕ) : (flushes q n).filterMap Access.source = [] := by
  simp [flushes, Access.source]

theorem flushed_row {dst src : Word} {n : ℕ} (h : dst.toNat + 4 * n + 64 < 2 ^ 64) :
    Flushed (copies dst src n ++
      (flushes (block dst) ((dst.toNat + 4 * n + 63) / 64 - block dst) ++ [.fence])) := by
  refine flushed_of_cover (by simp [flushes]) fun a ha j hj => ?_
  obtain ⟨i, hi, rfl⟩ := write_mem_copies ha
  have haddr := byte_toNat (a := dst) (i := i) hj (by omega)
  refine ⟨BitVec.ofNat 64 (64 * block (wordAddr dst i + BitVec.ofNat 64 j)), ?_, ?_⟩
  · refine List.mem_append_left _ (List.mem_map_of_mem ?_)
    rw [List.mem_range'_1, block, block, haddr]
    omega
  · rw [block, block, haddr, BitVec.toNat_ofNat]
    omega

end Trace

/-! ### Row by row -/

/-- The first column of the image in the framebuffer. -/
def left (width : ℕ) : ℕ := (1920 - width) / 2

/-- The first row of the image in the framebuffer. -/
def top (height : ℕ) : ℕ := (1080 - height) / 2

/-- The address of a pixel of the framebuffer. -/
def pixelAddr (x y : ℕ) : Word := wordAddr fbBase (y * 1920 + x)

/-- Where the row `y` of the image goes. -/
def rowAddr (width height y : ℕ) : Word := pixelAddr (left width) (top height + y)

/-- The bytes of the framebuffer. -/
def InFb (b : Word) : Prop := 0x7f700000 ≤ b.toNat ∧ b.toNat < 0x7f700000 + 4 * (1920 * 1080)

instance (b : Word) : Decidable (InFb b) := inferInstanceAs (Decidable (_ ∧ _))

/-- An image of `n` words outside the framebuffer. -/
def Outside (bmpImage : Word) (n : ℕ) : Prop := ∀ k < 4 * n, ¬InFb (bmpImage + BitVec.ofNat 64 k)

/-- **The invariant of `video_display`** after `y` rows. -/
structure Rows (s : Machine) (bmpImage : Word) (width height y : ℕ) (t : Machine) : Prop where
  pixels : ∀ y' < y, ∀ x < width, load32 t.mem (wordAddr (rowAddr width height y') x) =
    load32 s.mem (wordAddr bmpImage (y' * width + x))
  frame : ∀ b, (∀ y' < y, 4 * width ≤ (b - rowAddr width height y').toNat) → t.mem b = s.mem b
  trace : ∃ u, t.trace = s.trace ++ u ∧
    u.filterMap Access.source = (List.range (y * width)).map (wordAddr bmpImage) ∧ Flushed u

section Rows
variable {s t : Machine} {img : Word} {w h y : ℕ}

theorem wordAddr_add (a : Word) (i j : ℕ) : wordAddr (wordAddr a i) j = wordAddr a (i + j) := by
  unfold wordAddr
  rw [BitVec.add_assoc, ← BitVec.ofNat_add, Nat.mul_add]

theorem wordAddr_rowAddr (w h y x : ℕ) :
    wordAddr (rowAddr w h y) x = pixelAddr (left w + x) (top h + y) := by
  rw [rowAddr, pixelAddr, pixelAddr, wordAddr_add, Nat.add_assoc]

theorem rowAddr_toNat (hw : w ≤ 1920) (hh : h ≤ 1080) (hy : y < h) :
    (rowAddr w h y).toNat = 0x7f700000 + 4 * ((top h + y) * 1920 + left w) := by
  have hb : fbBase.toNat = 0x7f700000 := rfl
  unfold rowAddr pixelAddr wordAddr left top
  rw [BitVec.toNat_add, hb, BitVec.toNat_ofNat]
  omega

theorem le_of_not_inFb (hw : w ≤ 1920) (hh : h ≤ 1080) (hy : y < h) {b : Word} (hb : ¬InFb b) :
    4 * w ≤ (b - rowAddr w h y).toNat := by
  have hrow := rowAddr_toNat hw hh hy
  unfold left top at hrow
  unfold InFb at hb
  bv_omega

theorem toNat_sub_of_lt {a b : Word} (hab : a.toNat < b.toNat) :
    (a - b).toNat = 2 ^ 64 - (b.toNat - a.toNat) := by
  bv_omega

/-- A pixel beside a row has no byte in common with it. -/
theorem le_of_pixel (hw : w ≤ 1920) (hh : h ≤ 1080) (hy : y < h) {px py j : ℕ} (hpx : px < 1920)
    (hpy : py < 1080) (hj : j < 4) (hne : py = top h + y → ¬(left w ≤ px ∧ px < left w + w)) :
    4 * w ≤ (pixelAddr px py + BitVec.ofNat 64 j - rowAddr w h y).toNat := by
  have hrow := rowAddr_toNat hw hh hy
  have hfb : fbBase.toNat = 0x7f700000 := rfl
  have hbyte : (pixelAddr px py + BitVec.ofNat 64 j).toNat =
      0x7f700000 + 4 * (py * 1920 + px) + j := by
    rw [pixelAddr, byte_toNat hj (by omega), hfb]
  have hleft : left w + w ≤ 1920 := by
    unfold left
    omega
  rcases Nat.lt_or_ge (pixelAddr px py + BitVec.ofNat 64 j).toNat (rowAddr w h y).toNat with hlt | hge
  · -- below the row the difference wraps
    have htop : top h + y < 1080 := by
      unfold top
      omega
    have hwrap := toNat_sub_of_lt hlt
    omega
  · rw [BitVec.toNat_sub_of_le (BitVec.le_def.mpr hge), hbyte, hrow]
    by_contra hin
    have hpy : py = top h + y := by omega
    exact hne hpy ⟨by omega, by omega⟩

theorem le_of_row (hw : w ≤ 1920) (hh : h ≤ 1080) (hy : y < h) {y' x j : ℕ} (hy' : y' < y)
    (hx : x < w) (hj : j < 4) :
    4 * w ≤ (wordAddr (rowAddr w h y') x + BitVec.ofNat 64 j - rowAddr w h y).toNat := by
  rw [wordAddr_rowAddr]
  refine le_of_pixel hw hh hy ?_ ?_ hj fun he => absurd he (by omega)
  · unfold left
    omega
  · unfold top
    omega

theorem rows_zero (s : Machine) (img : Word) (w h : ℕ) : Rows s img w h 0 s :=
  ⟨by simp, fun _ _ => rfl, [], by simp, by simp, flushed_nil⟩

theorem Rows.image (hr : Rows s img w h y t) (hw : w ≤ 1920) (hh : h ≤ 1080) (hy : y ≤ h)
    (hout : Outside img (w * h)) {i : ℕ} (hi : i < w * h) :
    load32 t.mem (wordAddr img i) = load32 s.mem (wordAddr img i) := by
  refine load32_congr fun j hj => hr.frame _ fun y' hy' => ?_
  have hb := hout (4 * i + j) (by omega)
  rw [BitVec.ofNat_add, ← BitVec.add_assoc] at hb
  exact le_of_not_inFb hw hh (hy'.trans_le hy) hb

theorem Rows.step (hr : Rows s img w h y t) (hw : w ≤ 1920) (hh : h ≤ 1080) (hy : y < h)
    (hout : Outside img (w * h)) : ∃ u v,
      copyWords t (rowAddr w h y) (wordAddr img (y * w)) (BitVec.ofNat 64 w) = some u ∧
      flushDcache u (rowAddr w h y) (BitVec.ofNat 64 (4 * w)) = some v ∧
      Rows s img w h (y + 1) v := by
  have hrow := rowAddr_toNat hw hh hy
  unfold left top at hrow
  have hmul : (y + 1) * w ≤ w * h := by
    rw [Nat.mul_comm w h]
    exact Nat.mul_le_mul_right w hy
  rw [Nat.succ_mul] at hmul
  have hsrc : ∀ i < w, ∀ j < 4, 4 * w ≤
      (wordAddr (wordAddr img (y * w)) i + BitVec.ofNat 64 j - rowAddr w h y).toNat := by
    intro i hi j hj
    have hb := hout (4 * (y * w + i) + j) (by omega)
    rw [BitVec.ofNat_add, ← BitVec.add_assoc] at hb
    rw [wordAddr_add]
    exact le_of_not_inFb hw hh hy hb
  obtain ⟨u, hu, hcopied⟩ := copyWords_spec (s := t) (by omega) hsrc
  have hlen : (BitVec.ofNat 64 (4 * w)).toNat = 4 * w := by
    rw [BitVec.toNat_ofNat]
    omega
  have hflush := flushDcache_spec (s := u) (rowAddr w h y) (BitVec.ofNat 64 (4 * w))
    (by rw [hlen]; omega)
  rw [hlen] at hflush
  refine ⟨u, _, hu, hflush, ?_, ?_, ?_⟩
  · intro y' hy' x hx
    show load32 u.mem _ = _
    rcases Nat.lt_succ_iff_lt_or_eq.mp hy' with hlt | rfl
    · rw [← hr.pixels y' hlt x hx]
      exact load32_congr fun j hj => hcopied.frame _ (le_of_row hw hh hy hlt hx hj)
    · rw [hcopied.words x hx, wordAddr_add]
      exact hr.image hw hh hy.le hout (by omega)
  · intro b hb
    show u.mem b = _
    rw [hcopied.frame b (hb y (Nat.lt_succ_self y))]
    exact hr.frame b fun y' hy' => hb y' (Nat.lt_succ_of_lt hy')
  · obtain ⟨a, ha, hsource, hflushed⟩ := hr.trace
    refine ⟨a ++ (copies (rowAddr w h y) (wordAddr img (y * w)) w ++ (flushes (block (rowAddr w h y))
      (((rowAddr w h y).toNat + 4 * w + 63) / 64 - block (rowAddr w h y)) ++ [.fence])), ?_, ?_, ?_⟩
    · show u.trace ++ _ ++ _ = _
      rw [hcopied.trace, ha]
      simp only [List.append_assoc]
    · rw [List.filterMap_append, List.filterMap_append, List.filterMap_append, hsource, source_copies,
        source_flushes, Nat.succ_mul, List.range_add, List.map_append, List.map_map]
      have hrange : (List.range w).map (wordAddr (wordAddr img (y * w))) =
          (List.range w).map (wordAddr img ∘ (y * w + ·)) :=
        List.map_congr_left fun x _ => wordAddr_add ..
      rw [hrange]
      simp [Access.source]
    · exact hflushed.append (flushed_row (by omega))

end Rows

/-! ### The indices -/

/-- The sums, differences and products of `video_display` in 32 bits are those of the numbers. -/
structure NoOverflow (width height : BitVec 32) : Prop where
  margins : (fbWidth - width).toNat = 1920 - width.toNat ∧
    (fbHeight - height).toNat = 1080 - height.toNat
  next : ∀ y < height.toNat, (BitVec.ofNat 32 y + 1).toNat = y + 1
  row : ∀ y < height.toNat,
    ((fbHeight - height) / 2 + BitVec.ofNat 32 y).toNat = top height.toNat + y
  dst : ∀ y < height.toNat, (((fbHeight - height) / 2 + BitVec.ofNat 32 y) * fbWidth).toNat =
    (top height.toNat + y) * 1920
  src : ∀ y < height.toNat, (BitVec.ofNat 32 y * width).toNat = y * width.toNat

section Indices
variable {width height : BitVec 32}

theorem noOverflow (hw : width ≤ fbWidth) (hh : height ≤ fbHeight) : NoOverflow width height := by
  have hw' : width.toNat ≤ 1920 := BitVec.le_def.mp hw
  have hh' : height.toNat ≤ 1080 := BitVec.le_def.mp hh
  have hheight : (fbHeight - height).toNat = 1080 - height.toNat := BitVec.toNat_sub_of_le hh
  have hrow : ∀ y < height.toNat,
      ((fbHeight - height) / 2 + BitVec.ofNat 32 y).toNat = top height.toNat + y := by
    intro y hy
    have h2 : (2 : BitVec 32).toNat = 2 := rfl
    rw [BitVec.toNat_add, BitVec.toNat_udiv, hheight, h2, BitVec.toNat_ofNat, top]
    omega
  refine ⟨⟨BitVec.toNat_sub_of_le hw, hheight⟩, fun y hy => by bv_omega, hrow, fun y hy => ?_,
    fun y hy => ?_⟩
  · have hf : fbWidth.toNat = 1920 := rfl
    rw [BitVec.toNat_mul, hrow y hy, hf, top]
    omega
  · have hmul : y * width.toNat ≤ 1080 * 1920 := Nat.mul_le_mul (by omega) hw'
    rw [BitVec.toNat_mul, BitVec.toNat_ofNat, Nat.mod_eq_of_lt (a := y) (by omega),
      Nat.mod_eq_of_lt (by omega)]

theorem setWidth_eq {v : BitVec 32} {n : ℕ} (h : v.toNat = n) :
    (v.setWidth 64 : Word) = BitVec.ofNat 64 n := by
  rw [← h, BitVec.ofNat_toNat]

theorem row_pointers (hn : NoOverflow width height) (img : Word) {y : ℕ} (hy : y < height.toNat) :
    fbBase + 4 * (((fbHeight - height) / 2 + BitVec.ofNat 32 y) * fbWidth).setWidth 64 +
        4 * ((fbWidth - width) / 2).setWidth 64 = rowAddr width.toNat height.toNat y ∧
      img + 4 * (BitVec.ofNat 32 y * width).setWidth 64 = wordAddr img (y * width.toNat) := by
  have hx : ((fbWidth - width) / 2).toNat = left width.toNat := by
    rw [BitVec.toNat_udiv, hn.margins.1]
    rfl
  rw [setWidth_eq (hn.dst y hy), setWidth_eq hx, setWidth_eq (hn.src y hy), four_mul_ofNat,
    four_mul_ofNat, four_mul_ofNat]
  refine ⟨?_, rfl⟩
  rw [rowAddr, pixelAddr, wordAddr, BitVec.add_assoc, ← BitVec.ofNat_add, ← Nat.mul_add]

end Indices

/-! ### The image -/

/-- What a call that returns 0 has done. -/
structure Drawn (s : Machine) (bmpImage : Word) (width height : ℕ) (t : Machine) : Prop where
  pixels : ∀ x < width, ∀ y < height, load32 t.mem (pixelAddr (left width + x) (top height + y)) =
    load32 s.mem (wordAddr bmpImage (y * width + x))
  others : ∀ x < 1920, ∀ y < 1080,
    ¬(left width ≤ x ∧ x < left width + width ∧ top height ≤ y ∧ y < top height + height) →
      load32 t.mem (pixelAddr x y) = load32 s.mem (pixelAddr x y)
  outside : ∀ b, ¬InFb b → t.mem b = s.mem b
  trace : ∃ u, t.trace = s.trace ++ u ∧
    u.filterMap Access.source = (List.range (height * width)).map (wordAddr bmpImage) ∧ Flushed u

section Image
variable {s t : Machine} {img : Word} {width height : BitVec 32}

/-- The loop of `video_display` from the row `y` on. -/
theorem rowsFrom_spec (hw : width ≤ fbWidth) (hh : height ≤ fbHeight)
    (hout : Outside img (width.toNat * height.toNat)) : ∀ {d y fuel : ℕ} {t : Machine},
    y + d = height.toNat → d < fuel → Rows s img width.toNat height.toNat y t →
      ∃ u, rowsFrom img width height ((fbWidth - width) / 2) ((fbHeight - height) / 2) fuel
        (BitVec.ofNat 32 y) t = some u ∧ Rows s img width.toNat height.toNat height.toNat u
  | 0, y, fuel + 1, t, hd, _, hr => by
    obtain rfl : y = height.toNat := by omega
    have hnot : ¬BitVec.ofNat 32 height.toNat < height := by
      rw [BitVec.ofNat_toNat, BitVec.setWidth_eq]
      exact BitVec.lt_irrefl _
    exact ⟨t, if_neg hnot, hr⟩
  | d + 1, y, fuel + 1, t, hd, hf, hr => by
    have hy : y < height.toNat := by omega
    have hn := noOverflow hw hh
    have hlt : BitVec.ofNat 32 y < height := by
      rw [BitVec.lt_def, BitVec.toNat_ofNat]
      exact (Nat.mod_le _ _).trans_lt hy
    have hnext : BitVec.ofNat 32 y + 1 = BitVec.ofNat 32 (y + 1) := (BitVec.ofNat_add ..).symm
    have hlen : (width.setWidth 64 * 4 : Word) = BitVec.ofNat 64 (4 * width.toNat) := by
      rw [setWidth_eq rfl, BitVec.mul_comm, four_mul_ofNat]
    obtain ⟨hdst, hsrc⟩ := row_pointers hn img hy
    obtain ⟨u, v, hu, hv, hr'⟩ := hr.step (BitVec.le_def.mp hw) (BitVec.le_def.mp hh) hy hout
    rw [rowsFrom, if_pos hlt]
    dsimp only
    rw [hdst, hsrc, hlen, setWidth_eq rfl, hu, Option.bind_some, hv, Option.bind_some, hnext]
    exact rowsFrom_spec hw hh hout (d := d) (by omega) (by omega) hr'

theorem Rows.drawn {w h : ℕ} (hr : Rows s img w h h t) (hw : w ≤ 1920) (hh : h ≤ 1080) :
    Drawn s img w h t := by
  refine ⟨fun x hx y hy => ?_, fun x hx y hy hne => ?_, fun b hb => ?_, hr.trace⟩
  · rw [← wordAddr_rowAddr]
    exact hr.pixels y hy x hx
  · refine load32_congr fun j hj => hr.frame _ fun y' hy' => ?_
    exact le_of_pixel hw hh hy' hx hy hj fun he hl => hne ⟨hl.1, hl.2, by omega, by omega⟩
  · exact hr.frame b fun y' hy' => le_of_not_inFb hw hh hy' hb

/-- **`video_display` draws the image and nothing else**, and flushes what it has written, or refuses
the image and does nothing. -/
theorem display_draws (s : Machine) (img : Word) (width height : BitVec 32)
    (hout : width ≤ fbWidth → height ≤ fbHeight → Outside img (width.toNat * height.toNat)) :
    ∃ ret t, videoDisplay s img width height = some (ret, t) ∧
      (ret = -1 ∧ t = s ∨
        ret = 0 ∧ NoOverflow width height ∧ Drawn s img width.toNat height.toNat t) := by
  unfold videoDisplay
  by_cases hnull : img = 0
  · exact ⟨-1, s, if_pos hnull, .inl ⟨rfl, rfl⟩⟩
  rw [if_neg hnull]
  by_cases hzero : width = 0 ∨ height = 0
  · exact ⟨-1, s, if_pos hzero, .inl ⟨rfl, rfl⟩⟩
  rw [if_neg hzero]
  by_cases hlarge : width > fbWidth ∨ height > fbHeight
  · exact ⟨-1, s, if_pos hlarge, .inl ⟨rfl, rfl⟩⟩
  rw [if_neg hlarge]
  rw [not_or, gt_iff_lt, gt_iff_lt, BitVec.not_lt, BitVec.not_lt] at hlarge
  obtain ⟨hw, hh⟩ := hlarge
  have hw' : width.toNat ≤ 1920 := BitVec.le_def.mp hw
  have hh' : height.toNat ≤ 1080 := BitVec.le_def.mp hh
  have hfuel : height.toNat < 2 ^ 32 := height.isLt
  obtain ⟨t, ht, hr⟩ := rowsFrom_spec hw hh (hout hw hh) (y := 0) (Nat.zero_add _) hfuel
    (rows_zero s img width.toNat height.toNat)
  refine ⟨0, t, ?_, .inr ⟨rfl, noOverflow hw hh, hr.drawn hw' hh'⟩⟩
  dsimp only
  exact Option.map_eq_some_iff.mpr ⟨t, ht, rfl⟩

end Image

/-- Two pixels at the address 4096. -/
def twoPixels : Machine :=
  ⟨fun a => if 4096 ≤ a ∧ a < 4104 then a.setWidth 8 else 0, []⟩

theorem display_twoPixels : ∃ t, videoDisplay twoPixels 4096 2 1 = some (0, t) ∧
    Drawn twoPixels 4096 2 1 t := by
  have hout : Outside 4096 2 := by
    intro k hk
    unfold InFb
    bv_omega
  obtain ⟨ret, t, hcall, h⟩ := display_draws twoPixels 4096 2 1 fun _ _ => hout
  have hret : (videoDisplay twoPixels 4096 2 1).map Prod.fst = some 0 := by decide +kernel
  rw [hcall, Option.map_some, Option.some.injEq] at hret
  obtain rfl : ret = 0 := hret
  rcases h with ⟨h, -⟩ | ⟨-, -, h⟩
  · cases h
  · exact ⟨t, hcall, h⟩

end OscKernel.Video.Display
