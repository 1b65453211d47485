import OscKernel.Initrd.Lookup
import OscKernel.UserMode.Space

/-! # A program for user mode

`exec` of `ex62` looks for a program in the archive, copies it to a page, maps it at address `0` and a
stack below `0x4000000000`, and drops to user mode.

* `exec`: the source.
* `Shows`: what the code reads of a record; its digits are in upper case.
* `spaceOf`, `userView`: the tables that `exec` makes, and what addresses mean under them.
* `exec_named`, `exec_none`: the program is found, or there is none. -/

namespace OscKernel.UserMode.Program

open OscKernel.Lib.Memory OscKernel.Lib.Align OscKernel.Lib.Riscv OscKernel.Lib.Sv39
open OscKernel.Vm.Tables OscKernel.User.Process OscKernel.Initrd.KString
open OscKernel.Initrd.Cpio (Entry Fields archive hex8 roundUp trailer)
open OscKernel.Initrd.Lookup (le_roundUp length_record archive_cons length_hex8 placed_number)
open OscKernel.Proc.Images (Within)
open OscKernel.UserMode.Pagewalk OscKernel.UserMode.Space

/-! ### The source -/

/-- What `hextoi` adds for a character; a `char` is unsigned. -/
def digitOf (c : Byte) : BitVec 32 :=
  if 65 ≤ c then c.setWidth 32 - 65 + 10 else c.setWidth 32 - 48

/-- The loop of `hextoi`, with `n` characters to go. -/
def hextoiFrom (s : ℕ → Byte) : ℕ → ℕ → BitVec 32 → BitVec 32
  | 0, _, r => r
  | n + 1, i, r => hextoiFrom s n (i + 1) ((r <<< 4) + digitOf (s i))

/-- `hextoi`. -/
def hextoi (s : ℕ → Byte) (n : ℕ) : BitVec 32 := hextoiFrom s n 0 0

/-- `align`. -/
def align (n byte : BitVec 32) : BitVec 32 := (n + byte - 1) &&& ~~~(byte - 1)

/-- The loop of `memcmp`, with `n` bytes to go. -/
def memcmpFrom (a b : ℕ → Byte) : ℕ → ℕ → ℤ
  | 0, _ => 0
  | n + 1, i => if a i ≠ b i then (a i).toNat - (b i).toNat else memcmpFrom a b n (i + 1)

/-- `memcmp`. -/
def memcmp (a b : ℕ → Byte) (n : BitVec 32) : ℤ := memcmpFrom a b n.toInt.toNat 0

/-- `INITRD_BASE`. -/
def initrdBase : Word := physToVirtAddr 0x88200000

/-- What `exec` does with the file that it has found, up to the change of the registers. The loop of
`memcpy` counts down to zero. -/
def mapProgram (pgd src : Word) (filesize : BitVec 32) (k : Kernel) : Option Kernel :=
  let (program, k) := allocPage k
  let k := ⟨memCopy k.mem program src filesize.toNat, k.curr⟩
  (mapPages pgd 0 (filesize.signExtend 64) (virtToPhysAddr program) protUserRx k).bind fun k =>
    let (stack, k) := allocPage k
    mapPages pgd 0x3ffffff000 0x1000 (virtToPhysAddr stack) protUserRw k

/-- The loop of `exec`, from the record at `p` on. -/
def execLoop (pgd : Word) (filename : ℕ → Byte) (k : Kernel) : ℕ → Word → Option (Option Kernel)
  | 0, _ => none
  | n + 1, p =>
    if memcmp (bytesAt k.mem (p + 110)) (literal "TRAILER!!!") 10 ≠ 0 then
      let namesize := hextoi (bytesAt k.mem (p + 94)) 8
      let filesize := hextoi (bytesAt k.mem (p + 54)) 8
      let headsize := align (110 + namesize) 4
      let datasize := align filesize 4
      if memcmp (bytesAt k.mem (p + 110)) filename namesize = 0 then
        (mapProgram pgd (p + headsize.signExtend 64) filesize k).map some
      else execLoop pgd filename k n (p + (headsize + datasize).signExtend 64)
    else some none

/-- The end of `exec`: the registers, and `sret`. -/
def toUser (c : Cpu) : Cpu :=
  let c := c.setCsr .sepc 0
  let c := c.setCsr .sscratch (c.get .sp)
  let c := c.set .sp 0x4000000000
  let c := c.set .t0 (1 <<< 8)
  let c := c.setCsr .sstatus (c.csr .sstatus &&& ~~~(c.get .t0))
  c.sret

/-- `exec`: the processor in user mode, or the return value -1. -/
def exec (pgd curr : Word) (filename : ℕ → Byte) (c : Cpu) : Option (Option Cpu) :=
  (execLoop pgd filename ⟨c.mem, curr⟩ (2 ^ 64) initrdBase).map fun r => r.map fun k =>
    toUser { c with mem := k.mem }

/-! ### Strings and numbers -/

section Strings
variable {a b : ℕ → Byte} {l l' : List Byte} {m : Mem} {p : Word}

theorem memcmpFrom_eq_zero : ∀ {n i : ℕ}, memcmpFrom a b n i = 0 ↔ ∀ j < n, a (i + j) = b (i + j)
  | 0, _ => by simp [memcmpFrom]
  | n + 1, i => by
    rw [memcmpFrom]
    split_ifs with h
    · have hne : (a i).toNat ≠ (b i).toNat := fun he => h (BitVec.eq_of_toNat_eq he)
      constructor
      · intro h0
        omega
      · intro hall
        exact absurd (hall 0 (by omega)) h
    · rw [memcmpFrom_eq_zero]
      constructor
      · intro hall j hj
        cases j with
        | zero => simpa using h
        | succ j => simpa [Nat.add_assoc, Nat.add_comm 1] using hall j (by omega)
      · intro hall j hj
        simpa [Nat.add_assoc, Nat.add_comm 1] using hall (j + 1) (by omega)

theorem memcmp_eq_zero {n : ℕ} (hn : n < 2 ^ 31) :
    memcmp a b (BitVec.ofNat 32 n) = 0 ↔ ∀ j < n, a j = b j := by
  have hint : (BitVec.ofNat 32 n).toInt.toNat = n := by
    rw [BitVec.toInt_eq_toNat_of_lt] <;> rw [BitVec.toNat_ofNat, Nat.mod_eq_of_lt (by omega)] <;> omega
  rw [memcmp, hint, memcmpFrom_eq_zero]
  simp only [Nat.zero_add]

theorem eq_of_reads (ha : Reads a l) (hb : Reads b l') :
    (∀ j < l.length + 1, a j = b j) ↔ l = l' := by
  constructor
  · intro h
    have h1 : ¬ l.length < l'.length := fun hlt => by
      have h0 := h l.length (by omega)
      rw [ha.null, hb.chars _ hlt] at h0
      exact hb.nonzero (h0 ▸ List.getElem_mem hlt)
    have h2 : ¬ l'.length < l.length := fun hlt => by
      have h0 := h l'.length (by omega)
      rw [hb.null, ha.chars _ hlt] at h0
      exact ha.nonzero (h0 ▸ List.getElem_mem hlt)
    have hlen : l.length = l'.length := by omega
    refine List.ext_getElem hlen fun i hi hi' => ?_
    rw [← ha.chars i hi, ← hb.chars i hi', h i (by omega)]
  · rintro rfl j hj
    rcases Nat.lt_succ_iff_lt_or_eq.1 hj with hj | rfl
    · rw [ha.chars j hj, hb.chars j hj]
    · rw [ha.null, hb.null]

theorem prefix_of_reads (ha : Reads a l) (hb : Reads b l') :
    (∀ j < l'.length, a j = b j) ↔ l' <+: l := by
  constructor
  · intro h
    have hlen : l'.length ≤ l.length := by
      by_contra hlt
      have h0 := h l.length (by omega)
      rw [ha.null, hb.chars _ (by omega)] at h0
      exact hb.nonzero (h0 ▸ List.getElem_mem (by omega))
    rw [List.prefix_iff_getElem]
    refine ⟨hlen, fun i hi => ?_⟩
    rw [← hb.chars i hi, ← ha.chars i (by omega), h i hi]
  · intro h j hj
    rw [List.prefix_iff_getElem] at h
    obtain ⟨hlen, hget⟩ := h
    rw [hb.chars j hj, ha.chars j (by omega), hget j hj]

theorem digitOf_hexDigit : ∀ {d : ℕ}, d < 16 → digitOf (hexDigit true d) = BitVec.ofNat 32 d := by
  decide

theorem hextoiFrom_spec {s : ℕ → Byte} {v : ℕ} (hv : v < 2 ^ 32) :
    ∀ {n i : ℕ} {r : BitVec 32}, r.toNat = v / 16 ^ n →
      (∀ j < n, s (i + j) = hexDigit true (v / 16 ^ (n - 1 - j) % 16)) →
      (hextoiFrom s n i r).toNat = v
  | 0, _, r, hr, _ => by simpa [hextoiFrom] using hr
  | n + 1, i, r, hr, hs => by
    have h0 : s i = hexDigit true (v / 16 ^ n % 16) := by simpa using hs 0 (by omega)
    rw [hextoiFrom]
    refine hextoiFrom_spec hv ?_ fun j hj => ?_
    · have hle : v / 16 ^ n ≤ v := Nat.div_le_self ..
      rw [h0, digitOf_hexDigit (Nat.mod_lt _ (by omega)), BitVec.toNat_add, BitVec.toNat_shiftLeft,
        hr, pow_succ, ← Nat.div_div_eq_div_mul, Nat.shiftLeft_eq, BitVec.toNat_ofNat]
      omega
    · have := hs (j + 1) (by omega)
      rw [show i + 1 + j = i + (j + 1) by omega, this]
      congr 4
      omega

theorem hextoi_hex8 {v : ℕ} (hv : v < 2 ^ 32) (h : Placed m p (hex8 true v)) :
    hextoi (bytesAt m p) 8 = BitVec.ofNat 32 v := by
  apply BitVec.eq_of_toNat_eq
  rw [BitVec.toNat_ofNat, Nat.mod_eq_of_lt hv, hextoi]
  refine hextoiFrom_spec hv ?_ fun j hj => ?_
  · rw [Nat.div_eq_of_lt (by omega)]
    rfl
  · rw [Nat.zero_add, h j (by simpa using hj)]
    simp [hex8]

theorem align_ofNat {n : ℕ} (hn : n + 4 ≤ 2 ^ 32) :
    align (BitVec.ofNat 32 n) 4 = BitVec.ofNat 32 (roundUp n) := by
  have hn' : (BitVec.ofNat 32 n).toNat = n := by
    rw [BitVec.toNat_ofNat, Nat.mod_eq_of_lt (by omega)]
  apply BitVec.eq_of_toNat_eq
  rw [align, add_and_not_toNat (k := 2) rfl (by rw [hn']; exact hn), hn', BitVec.toNat_ofNat,
    Nat.mod_eq_of_lt (by unfold roundUp; omega)]
  rfl

theorem signExtend_ofNat {n : ℕ} (hn : n < 2 ^ 31) :
    (BitVec.ofNat 32 n).signExtend 64 = BitVec.ofNat 64 n := by
  apply BitVec.eq_of_toInt_eq
  rw [BitVec.toInt_signExtend_of_le (by omega)]
  rw [BitVec.toInt_eq_toNat_of_lt, BitVec.toInt_eq_toNat_of_lt] <;>
    rw [BitVec.toNat_ofNat, Nat.mod_eq_of_lt (by omega)] <;>
    first | omega | rw [BitVec.toNat_ofNat, Nat.mod_eq_of_lt (by omega)]

end Strings

/-! ### The program and its tables -/

/-- The frames that `exec` writes to. -/
def footprint (root g : ℕ) : Set ℕ := {f | f = root ∨ g ≤ f ∧ f < g + 6}

section Tables
variable {k : Kernel} {root g : ℕ} {src : Word} {data : List Byte}

theorem within_page {i : ℕ} (hi : i < 4096) (g : ℕ) :
    Within (page g) 4096 (page g + BitVec.ofNat 64 i) :=
  Proc.Images.within_add hi (by omega)

/-- **The program is mapped**: its bytes are in the page of the frame `g`, with the tables for them and
for a stack in the next pages. -/
theorem mapProgram_spec (hroot : root < g) (hg : g + 6 ≤ linearFrames) (hcurr : Next k.curr g)
    (hboot : ∀ i, framesOf k.mem root i = bootEntry i) (hpos : 0 < data.length)
    (hlen : data.length ≤ 4096) (hdata : Placed k.mem src data)
    (hsrc : ∀ i < data.length, ¬ Within (page g) 4096 (src + BitVec.ofNat 64 i)) :
    ∃ k', mapProgram (page root) src (BitVec.ofNat 32 data.length) k = some k' ∧
      UserSpace (framesOf k'.mem) root g ∧ Placed k'.mem (page g) data ∧
      Keeps (footprint root g) k.mem k'.mem := by
  have hnat : (BitVec.ofNat 32 data.length).toNat = data.length := by
    rw [BitVec.toNat_ofNat, Nat.mod_eq_of_lt (by omega)]
  have hsize : ((BitVec.ofNat 32 data.length).signExtend 64).toNat = data.length := by
    rw [signExtend_ofNat (by omega), BitVec.toNat_ofNat, Nat.mod_eq_of_lt (by omega)]
  have hne : vpn 2 userStack ≠ vpn 2 0 := by decide
  -- the copy
  set m1 := memCopy k.mem (page g) src data.length with hm1
  have hk1 : Keeps {g} k.mem m1 := fun a ha =>
    Proc.Copy.memCopy_outside (by omega) fun hw => ha g rfl (lt_of_lt_of_le hw hlen)
  have hframes : ∀ f ≠ g, framesOf m1 f = framesOf k.mem f := fun f hf =>
    hk1.framesOf_eq (by rintro x rfl; omega) hf
  -- the tables of the program
  obtain ⟨m2, h2, hf2, hk2⟩ := pagewalk_new (k := ⟨m1, page (g + 1)⟩) 0 (framePa g) protUserRx
    (show root < g + 1 by omega) (by omega) (next_page (by omega))
    (by rw [hframes root hroot.ne, hboot]; decide)
  -- the tables of the stack
  obtain ⟨m3, h3, hf3, hk3⟩ := pagewalk_new (k := ⟨m2, page (g + 4)⟩) userStack
    (framePa (g + 3)) protUserRw (show root < g + 4 by omega) (by omega)
    (next_page (by omega))
    (by rw [hf2, withPath_root (by omega), if_neg hne, hframes root hroot.ne, hboot]; decide)
  have hkeep : Keeps (footprint root g) m1 m3 := by
    refine (hk2.mono ?_).trans (hk3.mono ?_) <;>
    · intro x hx
      simp only [Set.mem_insert_iff, Set.mem_singleton_iff] at hx
      change x = root ∨ g ≤ x ∧ x < g + 6
      omega
  refine ⟨⟨m3, page (g + 6)⟩, ?_, ?_, ?_, ?_⟩
  · rw [mapProgram, allocPage_eq hcurr]
    dsimp only
    rw [hnat, mapPages_page (by rw [hsize]; exact hpos) (by rw [hsize]; exact hlen),
      virtToPhys_page, h2, Option.bind_some,
      allocPage_eq (k := ⟨m2, page (g + 3)⟩) (next_page (by omega))]
    dsimp only
    rw [mapPages_page (by decide) (by decide), virtToPhys_page, ← userStack, h3]
  · constructor <;> intro i
    · rw [hf3, withPath_root (by omega), hf2, withPath_root (by omega), hframes root hroot.ne, hboot]
    · rw [hf3, withPath_other (by omega) (by omega) (by omega), hf2, withPath_pmd (by omega)]
    · rw [hf3, withPath_other (by omega) (by omega) (by omega), hf2, withPath_pte]
      rfl
    · rw [hf3, withPath_pmd (by omega)]
    · rw [hf3, withPath_pte]
      rfl
  · intro i hi
    have hat : m1 (page g + BitVec.ofNat 64 i) = data[i] := by
      rw [hm1, Proc.Copy.memCopy_inside (by omega)
        (fun j hj hw => hsrc j hj (lt_of_lt_of_le hw hlen)) hi]
      exact hdata i hi
    have hpage := within_page (show i < 4096 by omega) g
    rw [bytesAt, ← hat]
    refine (hk3 _ ?_).trans (hk2 _ ?_) <;>
    · intro f hf hw
      simp only [Set.mem_insert_iff, Set.mem_singleton_iff] at hf
      have := page_unique (show f < linearFrames by omega) (by omega) hw hpage
      omega
  · refine (hk1.mono ?_).trans hkeep
    rintro x rfl
    exact .inr ⟨by omega, by omega⟩

end Tables

/-! ### The archive -/

/-- The code can read the record: its digits are in upper case, its size fits an `int`, and its name
does not start like that of the last one. -/
structure Packed (e : Entry) : Prop where
  upper : e.fields.upper = true
  size : e.size < 2 ^ 31
  nonzero : (0 : Byte) ∉ e.name
  notTrailer : ¬ ascii "TRAILER!!!" <+: e.name

/-- What the code reads of the entry `e` in the record at `p`. -/
structure Shows (m : Mem) (p : Word) (e : Entry) : Prop where
  namesize : hextoi (bytesAt m (p + 94)) 8 = BitVec.ofNat 32 (e.name.length + 1)
  filesize : hextoi (bytesAt m (p + 54)) 8 = BitVec.ofNat 32 e.data.length
  name : Reads (bytesAt m (p + 110)) e.name
  data : Placed m (p + BitVec.ofNat 64 e.dataOff) e.data

section Walk
variable {m : Mem} {p pgd : Word} {e : Entry} {es pre post : List Entry} {f : Fields} {k : Kernel}
  {filename : ℕ → Byte} {l : List Byte} {n : ℕ}

theorem Packed.lengths (h : Packed e) : 110 + (e.name.length + 1) ≤ e.dataOff ∧
    e.dataOff + roundUp e.data.length = e.size ∧ e.data.length ≤ roundUp e.data.length ∧
    e.size < 2 ^ 31 := by
  have hoff : e.dataOff = roundUp (110 + (e.name.length + 1)) := rfl
  refine ⟨le_roundUp _, ?_, le_roundUp _, h.size⟩
  rw [Entry.size, hoff]
  unfold roundUp
  omega

theorem shows_of_placed (h : Placed m p e.record) (he : Packed e) : Shows m p e := by
  obtain ⟨h1, h2, h3, h4⟩ := he.lengths
  have hs := Initrd.Lookup.shows_of_placed h (by omega) (by omega) he.nonzero
  obtain ⟨h, -⟩ := placed_append.1 h
  obtain ⟨h, -⟩ := placed_append.1 h
  obtain ⟨h, -⟩ := placed_append.1 h
  obtain ⟨hh, -⟩ := placed_append.1 h
  obtain ⟨-, hnum⟩ := placed_append.1 hh
  have hlen : (ascii "070701").length = 6 := rfl
  rw [he.upper] at hnum
  have hat : ∀ j (hj : j < e.numbers.length), Placed m (p + BitVec.ofNat 64 (6 + 8 * j))
      (hex8 true e.numbers[j]) := fun j hj => by
    have := placed_number hnum j hj
    rwa [hlen, BitVec.add_assoc, ← BitVec.ofNat_add] at this
  exact ⟨hextoi_hex8 (by omega) (hat 11 (by simp [Entry.numbers])),
    hextoi_hex8 (by omega) (hat 6 (by simp [Entry.numbers])), hs.name, hs.data⟩

theorem Shows.offsets (h : Shows m p e) (he : Packed e) :
    (align (110 + hextoi (bytesAt m (p + 94)) 8) 4).signExtend 64 = BitVec.ofNat 64 e.dataOff ∧
      (align (110 + hextoi (bytesAt m (p + 94)) 8) 4 +
        align (hextoi (bytesAt m (p + 54)) 8) 4).signExtend 64 = BitVec.ofNat 64 e.size := by
  obtain ⟨h1, h2, h3, h4⟩ := he.lengths
  have hhead : align (110 + hextoi (bytesAt m (p + 94)) 8) 4 = BitVec.ofNat 32 e.dataOff := by
    rw [h.namesize, show (110 : BitVec 32) = BitVec.ofNat 32 110 from rfl, ← BitVec.ofNat_add,
      align_ofNat (by omega)]
    rfl
  rw [hhead, h.filesize, align_ofNat (by omega), ← BitVec.ofNat_add, h2]
  exact ⟨signExtend_ofNat (by omega), signExtend_ofNat h4⟩

/-- A round at a record that is not the last one. -/
theorem execLoop_step (h : Shows k.mem p e) (he : Packed e) (hl : Reads filename l) :
    execLoop pgd filename k (n + 1) p =
      if e.name = l then
        (mapProgram pgd (p + BitVec.ofNat 64 e.dataOff) (BitVec.ofNat 32 e.data.length) k).map some
      else execLoop pgd filename k n (p + BitVec.ofNat 64 e.size) := by
  obtain ⟨h1, h2, h3, h4⟩ := he.lengths
  obtain ⟨hoff, hsize⟩ := h.offsets he
  have htrail : memcmp (bytesAt k.mem (p + 110)) (literal "TRAILER!!!") 10 ≠ 0 := by
    rw [show (10 : BitVec 32) = BitVec.ofNat 32 10 from rfl, ne_eq, memcmp_eq_zero (by decide)]
    exact fun hall => he.notTrailer
      ((prefix_of_reads h.name (reads_literal (s := "TRAILER!!!") (by decide))).1 hall)
  have hname : memcmp (bytesAt k.mem (p + 110)) filename (hextoi (bytesAt k.mem (p + 94)) 8) = 0 ↔
      e.name = l := by
    rw [h.namesize, memcmp_eq_zero (by omega), eq_of_reads h.name hl]
  rw [execLoop, if_pos htrail]
  simp only [hname, hoff, hsize]
  rw [h.filesize]

theorem execLoop_trailer (h : Placed k.mem p (trailer f).record) :
    execLoop pgd filename k (n + 1) p = some none := by
  have hf := Initrd.Lookup.fits_trailer f
  have hs := Initrd.Lookup.shows_of_placed h hf.name hf.data (by change (0 : Byte) ∉ ascii _; decide)
  have hname : Reads (bytesAt k.mem (p + 110)) (ascii "TRAILER!!!") := hs.name
  have htrail : memcmp (bytesAt k.mem (p + 110)) (literal "TRAILER!!!") 10 = 0 := by
    rw [show (10 : BitVec 32) = BitVec.ofNat 32 10 from rfl, memcmp_eq_zero (by decide)]
    exact (prefix_of_reads hname (reads_literal (s := "TRAILER!!!") (by decide))).2 (List.prefix_refl _)
  rw [execLoop, if_neg (not_not.2 htrail)]

/-- **The first entry of the name.** -/
theorem execLoop_first (pgd : Word) (hl : Reads filename l) (hok : ∀ x ∈ pre ++ e :: post, Packed x)
    (hpre : ∀ x ∈ pre, x.name ≠ l) (he : e.name = l)
    (hp : Placed k.mem p (archive (pre ++ e :: post) f)) (hn : pre.length < n) :
    ∃ off, off + e.data.length ≤ (archive (pre ++ e :: post) f).length ∧
      Placed k.mem (p + BitVec.ofNat 64 off) e.data ∧
      execLoop pgd filename k n p =
        (mapProgram pgd (p + BitVec.ofNat 64 off) (BitVec.ofNat 32 e.data.length) k).map some := by
  induction pre generalizing p n with
  | nil =>
    obtain ⟨n, rfl⟩ : ∃ n', n = n' + 1 := ⟨n - 1, by simp at hn; omega⟩
    rw [List.nil_append] at hp hok ⊢
    rw [archive_cons] at hp ⊢
    have hpack := hok e (by simp)
    have hs := shows_of_placed (placed_append.1 hp).1 hpack
    obtain ⟨h1, h2, h3, h4⟩ := hpack.lengths
    refine ⟨e.dataOff, ?_, hs.data, ?_⟩
    · rw [List.length_append, length_record]
      omega
    · rw [execLoop_step hs hpack hl, if_pos he]
  | cons x pre ih =>
    obtain ⟨n, rfl⟩ : ∃ n', n = n' + 1 := ⟨n - 1, by simp at hn; omega⟩
    rw [List.cons_append] at hp hok ⊢
    rw [archive_cons] at hp ⊢
    obtain ⟨hx, hrest⟩ := placed_append.1 hp
    rw [length_record] at hrest
    have hpack := hok x (by simp)
    obtain ⟨off, hoff, hd, hloop⟩ := ih (p := p + BitVec.ofNat 64 x.size) (n := n)
      (fun y hy => hok y (List.mem_cons_of_mem _ hy)) (fun y hy => hpre y (by simp [hy])) hrest
      (by simpa using hn)
    rw [BitVec.add_assoc, ← BitVec.ofNat_add] at hd hloop
    refine ⟨x.size + off, ?_, hd, ?_⟩
    · rw [List.length_append, length_record]
      omega
    · rw [execLoop_step (shows_of_placed hx hpack) hpack hl, if_neg (hpre x (by simp)), hloop]

/-- **No entry has the name.** -/
theorem execLoop_none (hl : Reads filename l) (hok : ∀ x ∈ es, Packed x)
    (hne : ∀ x ∈ es, x.name ≠ l) (hp : Placed k.mem p (archive es f)) (hn : es.length < n) :
    execLoop pgd filename k n p = some none := by
  induction es generalizing p n with
  | nil =>
    obtain ⟨n, rfl⟩ : ∃ n', n = n' + 1 := ⟨n - 1, by simp at hn; omega⟩
    exact execLoop_trailer hp
  | cons x es ih =>
    obtain ⟨n, rfl⟩ : ∃ n', n = n' + 1 := ⟨n - 1, by simp at hn; omega⟩
    rw [archive_cons] at hp
    obtain ⟨hx, hrest⟩ := placed_append.1 hp
    rw [length_record] at hrest
    have hpack := hok x (by simp)
    rw [execLoop_step (shows_of_placed hx hpack) hpack hl, if_neg (hne x (by simp))]
    exact ih (fun y hy => hok y (List.mem_cons_of_mem _ hy)) (fun y hy => hne y (by simp [hy])) hrest
      (by simpa using hn)

end Walk

/-! ### `exec` -/

/-- Where the image of the kernel ends, and the frame of `pgd` in it. The kernel stack is the end of
the image, and the archive lies behind the pages that `exec` takes. -/
structure Layout where
  pgd : ℕ
  stop : ℕ
  pgd_le : (pgd + 1) * 4096 + 0x4000 ≤ stop
  stop_le : stop + 7 * 4096 ≤ 0x88200000

/-- The first frame behind the image. -/
def Layout.first (L : Layout) : ℕ := (L.stop + 4095) / 4096

/-- `_end`. -/
def Layout.image (L : Layout) : Word := physToVirtAddr (BitVec.ofNat 64 L.stop)

section Exec
variable {L : Layout} {c : Cpu} {es : List Entry} {e : Entry} {f : Fields} {filename : ℕ → Byte}
  {l : List Byte}

theorem physToVirt_toNat {x : ℕ} (hx : x < 2 ^ 38) :
    (physToVirtAddr (BitVec.ofNat 64 x)).toNat = 2 ^ 64 - 2 ^ 38 + x := by
  have hk : kernelVaOffset.toNat = 2 ^ 64 - 2 ^ 38 := by decide
  rw [physToVirtAddr, BitVec.toNat_add, hk, BitVec.toNat_ofNat, Nat.mod_eq_of_lt (by omega),
    Nat.mod_eq_of_lt (by omega)]
  omega

theorem Layout.bounds (L : Layout) : L.pgd < L.first ∧ L.stop ≤ L.first * 4096 ∧
    (L.first + 6) * 4096 ≤ 0x88200000 ∧ L.first + 6 ≤ linearFrames := by
  have h1 := L.pgd_le
  have h2 := L.stop_le
  unfold Layout.first linearFrames
  omega

theorem Layout.next_first (L : Layout) : Next L.image L.first := by
  have h2 := L.stop_le
  obtain ⟨-, -, -, hg⟩ := L.bounds
  have hstop := physToVirt_toNat (x := L.stop) (by omega)
  apply BitVec.eq_of_toNat_eq
  rw [add_and_not_toNat (k := 12) rfl, Layout.image, hstop, page_toNat (by omega), Layout.first]
  · omega
  · rw [Layout.image, hstop, show (0x1000 : Word).toNat = 4096 from rfl]
    omega

/-- **`exec`** of a program in the archive. -/
theorem exec_named (hboot : ∀ i, framesOf c.mem L.pgd i = bootEntry i)
    (hp : Placed c.mem initrdBase (archive es f))
    (hfit : 0x88200000 + (archive es f).length ≤ 2 ^ 38) (hok : ∀ x ∈ es, Packed x)
    (hl : Reads filename l) (he : es.find? (·.name = l) = some e) (hpos : 0 < e.data.length)
    (hlen : e.data.length ≤ 4096) :
    ∃ m, exec (page L.pgd) L.image filename c = some (some (toUser { c with mem := m })) ∧
      UserSpace (framesOf m) L.pgd L.first ∧ Placed m (page L.first) e.data ∧
      Keeps (footprint L.pgd L.first) c.mem m := by
  obtain ⟨h1, h2, h3, h4⟩ := L.bounds
  obtain ⟨hname, pre, post, rfl, hpre⟩ := List.find?_eq_some_iff_append.1 he
  have hlen' := Initrd.Lookup.length_le_archive (pre ++ e :: post) f
  obtain ⟨off, hoff, hd, hloop⟩ := execLoop_first (k := ⟨c.mem, L.image⟩) (n := 2 ^ 64)
    (page L.pgd) hl hok (fun x hx => by simpa using hpre x hx) (of_decide_eq_true hname) hp
    (by rw [List.length_append] at hlen'; omega)
  have hfar : ∀ i < e.data.length, ¬ Within (page L.first) 4096
      (initrdBase + BitVec.ofNat 64 off + BitVec.ofNat 64 i) := fun i hi hw => by
    have hbase : initrdBase.toNat = 2 ^ 64 - 2 ^ 38 + 0x88200000 := by decide
    have hpage := page_toNat (f := L.first) (by omega)
    rw [Proc.Images.within_iff (by omega), hpage, BitVec.add_assoc, ← BitVec.ofNat_add,
      BitVec.toNat_add, hbase, BitVec.toNat_ofNat] at hw
    omega
  obtain ⟨k', hk, hspace, hdata, hkeep⟩ := mapProgram_spec (k := ⟨c.mem, L.image⟩) h1 h4 L.next_first
    hboot hpos hlen hd hfar
  refine ⟨k'.mem, ?_, hspace, hdata, hkeep⟩
  rw [exec, hloop, hk]
  rfl

/-- **`exec`** of a program that is not there. -/
theorem exec_none {pgd curr : Word} (hp : Placed c.mem initrdBase (archive es f))
    (hfit : 0x88200000 + (archive es f).length ≤ 2 ^ 38) (hok : ∀ x ∈ es, Packed x)
    (hl : Reads filename l) (he : es.find? (·.name = l) = none) :
    exec pgd curr filename c = some none := by
  have hlen := Initrd.Lookup.length_le_archive es f
  rw [exec, execLoop_none (k := ⟨c.mem, curr⟩) hl hok
    (fun x hx => by simpa using List.find?_eq_none.1 he x hx) hp (by omega)]
  rfl

end Exec

end OscKernel.UserMode.Program
