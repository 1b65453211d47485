import Mathlib.Tactic.IntervalCases
import OscKernel.Uart.Rx

/-! # The boot loader and its sender

`send_kernel.py` writes a header of two little-endian words, the magic number and the length of the
image, and then the image. `load_image_and_boot` reads the header and the image through `uart_getc`
and jumps to the image.

A program that reads bytes is a `Reader`: it has returned, or it goes on with the next byte.
`consume_loadImageAndBoot` says where the loader stands after any number of bytes behind a valid
header. -/

namespace OscKernel.Uart.Loader

open OscKernel.Lib.Memory OscKernel.Uart.Rx

/-- A program that reads bytes. -/
inductive Reader (α : Type)
  | done (a : α)
  | getc (k : Byte → Reader α)

namespace Reader
variable {α β : Type}

/-- Sequential composition. -/
def bind : Reader α → (α → Reader β) → Reader β
  | .done a, f => f a
  | .getc k, f => .getc fun c => (k c).bind f

/-- The program after reading the bytes `l`; `none` if it returns before it has read them all. -/
def consume : Reader α → List Byte → Option (Reader α)
  | p, [] => some p
  | .done _, _ :: _ => none
  | .getc k, c :: l => (k c).consume l

@[simp] theorem consume_nil (p : Reader α) : p.consume [] = some p := by cases p <;> rfl

@[simp] theorem consume_done_cons (a : α) (c : Byte) (l : List Byte) :
    (Reader.done a).consume (c :: l) = none := rfl

@[simp] theorem consume_getc_cons (k : Byte → Reader α) (c : Byte) (l : List Byte) :
    (Reader.getc k).consume (c :: l) = (k c).consume l := rfl

theorem consume_append : ∀ (l l' : List Byte) (p : Reader α),
    p.consume (l ++ l') = (p.consume l).bind fun q => q.consume l'
  | [], l', p => by simp
  | c :: l, l', .done a => rfl
  | c :: l, l', .getc k => consume_append l l' (k c)

end Reader

/-- `LOAD_ADDR`. -/
def loadAddr : Word := 0x20000000

/-- `BOOT_MAGIC`. -/
def bootMagic : BitVec 32 := 0x544F4F42

/-- `b0 | (b1 << 8) | (b2 << 16) | (b3 << 24)`. -/
def u32OfBytes (b0 b1 b2 b3 : Byte) : BitVec 32 :=
  b0.zeroExtend 32 ||| (b1.zeroExtend 32 <<< 8) ||| (b2.zeroExtend 32 <<< 16) |||
    (b3.zeroExtend 32 <<< 24)

/-- `uart_get_u32_le`. -/
def uartGetU32Le : Reader (BitVec 32) :=
  .getc fun b0 => .getc fun b1 => .getc fun b2 => .getc fun b3 => .done (u32OfBytes b0 b1 b2 b3)

/-- The loop `dst[i] = (unsigned char)uart_getc()` with `n` rounds to go, at index `i`. -/
def readImage : ℕ → ℕ → Mem → Reader Mem
  | 0, _, m => .done m
  | n + 1, i, m =>
    .getc fun c => readImage n (i + 1) (Function.update m (loadAddr + BitVec.ofNat 64 i) c)

/-- How `load_image_and_boot` ends: it returns because of the magic number, or it jumps to `pc`
with `a1` and the memory as given. -/
inductive Loaded
  | badMagic (magic : BitVec 32)
  | jump (pc a1 : Word) (mem : Mem)

/-- `load_image_and_boot`. -/
def loadImageAndBoot (fdtAddr : Word) (m : Mem) : Reader Loaded :=
  uartGetU32Le.bind fun magic => uartGetU32Le.bind fun size =>
    if magic ≠ bootMagic then .done (.badMagic magic)
    else (readImage size.toNat 0 m).bind fun m => .done (.jump loadAddr fdtAddr m)

/-- `struct.pack("<I", n)`. -/
def packLe (n : ℕ) : List Byte :=
  [BitVec.ofNat 8 n, BitVec.ofNat 8 (n / 256), BitVec.ofNat 8 (n / 65536),
    BitVec.ofNat 8 (n / 16777216)]

/-- What `send_kernel.py` writes to the line. -/
def sendKernel (image : List Byte) : List Byte :=
  packLe 0x544F4F42 ++ packLe image.length ++ image

/-! ### The loader on a stream of bytes -/

theorem or_shiftLeft {a b i : ℕ} (h : b < 2 ^ i) : b ||| a <<< i = b + 2 ^ i * a := by
  rw [Nat.or_comm, ← Nat.shiftLeft_add_eq_or_of_lt h, Nat.shiftLeft_eq]
  ring

theorem toNat_u32OfBytes (b0 b1 b2 b3 : Byte) : (u32OfBytes b0 b1 b2 b3).toNat =
    b0.toNat + 256 * b1.toNat + 65536 * b2.toNat + 16777216 * b3.toNat := by
  have h0 := b0.isLt
  have h1 := b1.isLt
  have h2 := b2.isLt
  have h3 := b3.isLt
  have hz : ∀ b : Byte, (b.zeroExtend 32).toNat = b.toNat := fun b => by
    rw [BitVec.zeroExtend, BitVec.toNat_setWidth]
    have := b.isLt
    omega
  have hs : ∀ (b : Byte) (i : ℕ), i ≤ 24 → (b.zeroExtend 32 <<< i).toNat = b.toNat <<< i := by
    intro b i hi
    have hp : 2 ^ i ≤ 2 ^ 24 := Nat.pow_le_pow_right (by omega) hi
    rw [BitVec.toNat_shiftLeft, hz, Nat.shiftLeft_eq, Nat.mod_eq_of_lt]
    calc b.toNat * 2 ^ i < 256 * 2 ^ i := Nat.mul_lt_mul_of_pos_right b.isLt (Nat.two_pow_pos i)
      _ ≤ 256 * 2 ^ 24 := Nat.mul_le_mul_left _ hp
  rw [u32OfBytes, BitVec.toNat_or, BitVec.toNat_or, BitVec.toNat_or, hz, hs _ _ (by omega),
    hs _ _ (by omega), hs _ _ (by omega), or_shiftLeft (b := b0.toNat) (i := 8) (by omega),
    or_shiftLeft (i := 16) (by omega), or_shiftLeft (i := 24) (by omega)]
  omega

/-- The memory with the bytes `l` written from `loadAddr + i` on. -/
def writeImage : ℕ → Mem → List Byte → Mem
  | _, m, [] => m
  | i, m, c :: l => writeImage (i + 1) (Function.update m (loadAddr + BitVec.ofNat 64 i) c) l

theorem consume_readImage {β : Type} (f : Mem → Reader β) : ∀ (l : List Byte) (n i : ℕ) (m : Mem),
    l.length ≤ n → ((readImage n i m).bind f).consume l =
      some ((readImage (n - l.length) (i + l.length) (writeImage i m l)).bind f)
  | [], n, i, m, _ => by simp [writeImage]
  | c :: l, 0, i, m, h => by simp at h
  | c :: l, n + 1, i, m, h => by
    have h' : l.length ≤ n := by simpa using h
    have hi : i + 1 + l.length = i + (l.length + 1) := by omega
    rw [readImage, Reader.bind, Reader.consume_getc_cons, consume_readImage f l n (i + 1) _ h']
    simp only [List.length_cons, Nat.add_sub_add_right, writeImage, hi]

theorem consume_readImage_done {a : Mem → Loaded} (l : List Byte) (n i : ℕ) (m : Mem)
    (h : n < l.length) : ((readImage n i m).bind fun m => .done (a m)).consume l = none := by
  have hlen : (l.take n).length = n := by rw [List.length_take]; omega
  rw [← List.take_append_drop n l, Reader.consume_append, consume_readImage _ _ _ _ _ (by omega),
    hlen, Nat.sub_self, readImage, Reader.bind, Option.bind_some]
  cases hd : l.drop n with
  | nil =>
    have := congrArg List.length hd
    simp at this
    omega
  | cons c t => rfl

theorem readImage_bind_done_iff {a : Mem → Loaded} (n i : ℕ) (m : Mem) :
    (∃ o, (readImage n i m).bind (fun m => .done (a m)) = .done o) ↔ n = 0 := by
  cases n with
  | zero => simp [readImage, Reader.bind]
  | succ n => simp [readImage, Reader.bind]

/-! ### The loader on the bytes of the sender -/

/-- The size that the loader reads in the header of an image of length `n`. -/
def readSize (n : ℕ) : ℕ :=
  (u32OfBytes (crToLf (BitVec.ofNat 8 n)) (crToLf (BitVec.ofNat 8 (n / 256)))
    (crToLf (BitVec.ofNat 8 (n / 65536))) (crToLf (BitVec.ofNat 8 (n / 16777216)))).toNat

theorem toNat_crToLf_le (c : Byte) : (crToLf c).toNat ≤ c.toNat := by
  unfold crToLf
  split_ifs with h
  · rw [h]; decide
  · exact Nat.le_refl _

theorem crToLf_eq_self_iff (c : Byte) : crToLf c = c ↔ c ≠ 0x0D := by
  unfold crToLf
  split_ifs with h
  · rw [h]; decide
  · exact ⟨fun _ => h, fun _ => rfl⟩

theorem toNat_crToLf_eq_iff (c : Byte) : (crToLf c).toNat = c.toNat ↔ c ≠ 0x0D := by
  rw [← crToLf_eq_self_iff, BitVec.toNat_inj]

/-- The loader never reads a greater size than the sender wrote. -/
theorem readSize_le {n : ℕ} (hn : n < 2 ^ 32) : readSize n ≤ n := by
  have h0 := toNat_crToLf_le (BitVec.ofNat 8 n)
  have h1 := toNat_crToLf_le (BitVec.ofNat 8 (n / 256))
  have h2 := toNat_crToLf_le (BitVec.ofNat 8 (n / 65536))
  have h3 := toNat_crToLf_le (BitVec.ofNat 8 (n / 16777216))
  simp only [BitVec.toNat_ofNat] at h0 h1 h2 h3
  rw [readSize, toNat_u32OfBytes]
  omega

/-- The loader reads the size that the sender wrote exactly when no byte of it is a `'\r'`. -/
theorem readSize_eq_iff {n : ℕ} (hn : n < 2 ^ 32) : readSize n = n ↔ ∀ b ∈ packLe n, b ≠ 0x0D := by
  have h0 := toNat_crToLf_le (BitVec.ofNat 8 n)
  have h1 := toNat_crToLf_le (BitVec.ofNat 8 (n / 256))
  have h2 := toNat_crToLf_le (BitVec.ofNat 8 (n / 65536))
  have h3 := toNat_crToLf_le (BitVec.ofNat 8 (n / 16777216))
  simp only [packLe, List.forall_mem_cons, List.not_mem_nil, false_imp_iff, implies_true, and_true,
    ← toNat_crToLf_eq_iff]
  rw [readSize, toNat_u32OfBytes]
  simp only [BitVec.toNat_ofNat] at h0 h1 h2 h3 ⊢
  omega

/-- The bytes of the header as the loader reads them. -/
def headerRead (n : ℕ) : List Byte := (packLe 0x544F4F42 ++ packLe n).map crToLf

theorem map_sendKernel (image : List Byte) :
    (sendKernel image).map crToLf = headerRead image.length ++ image.map crToLf := by
  simp [sendKernel, headerRead]

theorem consume_header (fdtAddr : Word) (m : Mem) (b0 b1 b2 b3 z0 z1 z2 z3 : Byte) (l : List Byte)
    (hm : u32OfBytes b0 b1 b2 b3 = bootMagic) :
    (loadImageAndBoot fdtAddr m).consume (b0 :: b1 :: b2 :: b3 :: z0 :: z1 :: z2 :: z3 :: l) =
      ((readImage (u32OfBytes z0 z1 z2 z3).toNat 0 m).bind
        fun m => .done (.jump loadAddr fdtAddr m)).consume l := by
  simp only [loadImageAndBoot, uartGetU32Le, Reader.bind, Reader.consume_getc_cons, hm, ne_eq,
    not_true, if_false]

/-- In the header, the loader has not returned. -/
theorem consume_take_header (fdtAddr : Word) (m : Mem) (b0 b1 b2 b3 z0 z1 z2 z3 : Byte) {k : ℕ}
    (hk : k < 8) : ∃ f, (loadImageAndBoot fdtAddr m).consume
      ([b0, b1, b2, b3, z0, z1, z2, z3].take k) = some (.getc f) := by
  unfold loadImageAndBoot uartGetU32Le
  interval_cases k <;> exact ⟨_, rfl⟩

theorem headerRead_eq (n : ℕ) : headerRead n = [0x42, 0x4F, 0x4F, 0x54,
    crToLf (BitVec.ofNat 8 n), crToLf (BitVec.ofNat 8 (n / 256)),
    crToLf (BitVec.ofNat 8 (n / 65536)), crToLf (BitVec.ofNat 8 (n / 16777216))] := by
  have hmagic : packLe 0x544F4F42 = [0x42, 0x4F, 0x4F, 0x54] := by decide
  have hmap : [0x42, 0x4F, 0x4F, 0x54].map crToLf = [0x42, 0x4F, 0x4F, 0x54] := by decide
  rw [headerRead, hmagic, List.map_append, hmap]
  rfl

@[simp] theorem length_headerRead (n : ℕ) : (headerRead n).length = 8 := by
  rw [headerRead_eq]
  rfl

/-- **Where the loader stands** when it has read the bytes `r` of the line: it has returned exactly
when it has read as many bytes as the header says, and then it jumps to what it has read. -/
theorem consume_loadImageAndBoot {fdtAddr : Word} {m : Mem} {image r : List Byte}
    {q : Reader Loaded} (hr : r <+: (sendKernel image).map crToLf)
    (hq : (loadImageAndBoot fdtAddr m).consume r = some q) :
    r.length ≤ 8 + readSize image.length ∧
    ((∃ o, q = .done o) ↔ r.length = 8 + readSize image.length) ∧
    (r.length = 8 + readSize image.length →
      q = .done (.jump loadAddr fdtAddr (writeImage 0 m (r.drop 8)))) := by
  have hlen := length_headerRead image.length
  rw [map_sendKernel] at hr
  rcases Nat.lt_or_ge r.length 8 with h8 | h8
  · have htake := List.prefix_iff_eq_take.1 hr
    rw [List.take_append_of_le_length (by omega)] at htake
    rw [htake, headerRead_eq] at hq
    obtain ⟨f, hf⟩ := consume_take_header fdtAddr m 0x42 0x4F 0x4F 0x54 (crToLf (BitVec.ofNat 8
      image.length)) (crToLf (BitVec.ofNat 8 (image.length / 256))) (crToLf (BitVec.ofNat 8
      (image.length / 65536))) (crToLf (BitVec.ofNat 8 (image.length / 16777216))) h8
    rw [hq, Option.some.injEq] at hf
    refine ⟨by omega, ⟨fun ⟨o, ho⟩ => ?_, fun h => by omega⟩, fun h => by omega⟩
    rw [hf] at ho
    cases ho
  · obtain ⟨t, rfl⟩ : ∃ t, r = headerRead image.length ++ t := by
      obtain ⟨t, ht⟩ := List.prefix_of_prefix_length_le (List.prefix_append _ _) hr
        (by rw [hlen]; exact h8)
      exact ⟨t, ht.symm⟩
    rw [headerRead_eq] at hq
    simp only [List.cons_append, List.nil_append] at hq
    rw [consume_header _ _ _ _ _ _ _ _ _ _ _ (by decide)] at hq
    change ((readImage (readSize image.length) 0 m).bind _).consume t = _ at hq
    rcases Nat.lt_or_ge (readSize image.length) t.length with ht | ht
    · rw [consume_readImage_done _ _ _ _ ht] at hq
      cases hq
    · rw [consume_readImage _ _ _ _ _ ht, Option.some.injEq] at hq
      subst hq
      rw [readImage_bind_done_iff, List.length_append, hlen]
      refine ⟨by omega, by omega, fun h => ?_⟩
      have h0 : readSize image.length - t.length = 0 := by omega
      rw [h0, ← hlen, List.drop_left, readImage, Reader.bind]

theorem writeImage_below : ∀ (l : List Byte) {i j : ℕ} (m : Mem), j < i → i + l.length ≤ 2 ^ 64 →
    writeImage i m l (loadAddr + BitVec.ofNat 64 j) = m (loadAddr + BitVec.ofNat 64 j)
  | [], _, _, _, _, _ => rfl
  | c :: l, i, j, m, hj, h => by
    have hlen : i + 1 + l.length ≤ 2 ^ 64 := by simp only [List.length_cons] at h; omega
    have hne : loadAddr + BitVec.ofNat 64 j ≠ loadAddr + BitVec.ofNat 64 i := by bv_omega
    rw [writeImage, writeImage_below l _ (by omega) hlen, Function.update_of_ne hne]

/-- The image is in memory, byte for byte. -/
theorem writeImage_apply : ∀ (l : List Byte) {i j : ℕ} (m : Mem) (hj : j < l.length),
    i + l.length ≤ 2 ^ 64 → writeImage i m l (loadAddr + BitVec.ofNat 64 (i + j)) = l[j]
  | c :: l, i, 0, m, _, h => by
    have hlen : i + 1 + l.length ≤ 2 ^ 64 := by simp only [List.length_cons] at h; omega
    rw [writeImage, writeImage_below l _ (by omega) hlen, Nat.add_zero, Function.update_self]
    rfl
  | c :: l, i, j + 1, m, hj, h => by
    have hlen : i + 1 + l.length ≤ 2 ^ 64 := by simp only [List.length_cons] at h; omega
    have hij : i + (j + 1) = i + 1 + j := by omega
    rw [writeImage, hij, writeImage_apply l _ (by simpa using hj) hlen]
    rfl

end OscKernel.Uart.Loader
