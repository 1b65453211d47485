import OscKernel.Lib.Riscv
import OscKernel.Vm.Setup
import Mathlib.Tactic.IntervalCases

/-! # The way into the upper half

`_start` of lab6 runs where the firmware has loaded it, clears the bss, lets `setup_vm` turn on the
translation, jumps to the address that it is linked at, and drops the identity map before it leaves for
`start_kernel`. Every instruction is fetched through the translation of that moment, and every store
goes through it.

* `start`, `Step`: the source.
* `Started`: what `start_kernel` is entered with.
* `setupVm_of_ne`, `dropStores_eq`: what the two functions of `vm.c` do to memory. -/

namespace OscKernel.Boot.Entry

open OscKernel.Lib.Memory OscKernel.Lib.Sv39 OscKernel.Vm.Tables OscKernel.Vm.Setup
open OscKernel.Lib.Riscv (Reg)

/-! ### The image -/

/-- `__kernel_start`, as the kernel is loaded. -/
def kernelStart : ℕ := 0x200000

/-- The physical address of the first window of devices. -/
def imageLimit : ℕ := 0xd4000000

/-- Where the parts of the image lie in physical memory; each is linked at `KERNEL_VA_OFFSET` from
there. The tables and `early_pte_used` are in the bss. -/
structure Image where
  tables : Layout
  line : ℕ → ℕ
  setupVmRet : ℕ
  dropRet : ℕ
  handleException : ℕ
  startKernel : ℕ
  textStop : ℕ
  bssStart : ℕ
  bssStop : ℕ
  earlyPteUsed : ℕ
  stackBottom : ℕ
  kernelEnd : ℕ
  line_mono : StrictMono line
  line_zero : line 0 = kernelStart
  line_lt : line 20 ≤ textStop
  ret_lt : setupVmRet < textStop ∧ dropRet < textStop ∧ startKernel < textStop
  ret_ne : setupVmRet ≠ dropRet ∧ ∀ i < 20, line i ≠ setupVmRet ∧ line i ≠ dropRet
  textStop_le : textStop ≤ bssStart
  bss_le : bssStart ≤ bssStop
  bssStop_le : bssStop ≤ stackBottom
  stack_le : stackBottom + 0x4000 ≤ kernelEnd
  kernelEnd_le : kernelEnd ≤ imageLimit
  tables_bss : ∀ f, (f = tables.pgd ∨ (tables.pmd ≤ f ∧ f < tables.pmd + earlyMapGib) ∨
    (tables.pte ≤ f ∧ f < tables.pte + earlyPteTables)) →
      bssStart ≤ f * 4096 ∧ (f + 1) * 4096 ≤ bssStop ∧
        (earlyPteUsed + 8 ≤ f * 4096 ∨ (f + 1) * 4096 ≤ earlyPteUsed)
  used_bss : bssStart ≤ earlyPteUsed ∧ earlyPteUsed + 8 ≤ bssStop

/-- `__stack_top`. -/
def Image.stackTop (I : Image) : ℕ := I.stackBottom + 0x4000

/-- What compiled code writes besides the tables: its stack and `early_pte_used`. -/
def Image.Scratch (I : Image) (x : ℕ) : Prop :=
  (I.earlyPteUsed ≤ x ∧ x < I.earlyPteUsed + 8) ∨ (I.stackBottom ≤ x ∧ x < I.stackTop)

/-- The frames of the tables. -/
def Image.Table (I : Image) (f : ℕ) : Prop :=
  f = I.tables.pgd ∨ (I.tables.pmd ≤ f ∧ f < I.tables.pmd + earlyMapGib) ∨
    (I.tables.pte ≤ f ∧ f < I.tables.pte + earlyPteTables)

/-! ### The hart -/

/-- The byte at a physical address. -/
def byteAt (m : Frames) (x : ℕ) : Byte := byteOf (m (x / 4096) (Fin.ofNat 512 (x / 8))) (x % 8)

/-- Writing the byte at a physical address. -/
def setByte (m : Frames) (x : ℕ) (b : Byte) : Frames :=
  set m (x / 4096) (Fin.ofNat 512 (x / 8))
    (ofBytes (Function.update (byteOf (m (x / 4096) (Fin.ofNat 512 (x / 8)))) (x % 8) b))

/-- The registers, the CSRs that the code writes, and physical memory. -/
structure Hart where
  pc : Word
  reg : Reg → Word
  satp : Word
  stvec : Word
  mem : Frames

/-- The translation that `satp` selects: none, or that of Sv39. -/
def translateUnder (satp : Word) (m : Frames) (va : Word) : Option Leaf :=
  if satp >>> 60 = 0 then some ⟨va.toNat, 0xf⟩
  else if satp >>> 60 = 8 then translateAddr m (satp.toNat % 2 ^ 44) va
  else none

namespace Hart

def set (h : Hart) (rd : Reg) (v : Word) : Hart := { h with reg := Function.update h.reg rd v }

def goto (h : Hart) (pc : Word) : Hart := { h with pc := pc }

/-- The address of what lies at `x`, from the instruction at `here`. -/
def rel (h : Hart) (here x : ℕ) : Word := h.pc + (BitVec.ofNat 64 x - BitVec.ofNat 64 here)

/-- What memory holds at the addresses that the hart uses. -/
def view (h : Hart) : Mem := fun va =>
  match translateUnder h.satp h.mem va with
  | some l => byteAt h.mem l.pa
  | none => 0

end Hart

/-! ### The source -/

/-- The instructions of `_start`; a symbol is given by its physical address, a label by its line. -/
inductive Instr
  | la (rd : Reg) (x : ℕ)
  | bgeu (a b : Reg) (target : ℕ)
  | sbZero (a : Reg)
  | addi (rd a : Reg) (v : Word)
  | j (target : ℕ)
  | mv (rd a : Reg)
  | callSetupVm
  | li (rd : Reg) (v : Word)
  | add (rd a b : Reg)
  | jr (a : Reg)
  | csrwStvec (a : Reg)
  | callDropIdentityMap
  | tail (x : ℕ)

/-- `_start`. -/
def start (I : Image) : List Instr :=
  [.la .t0 I.bssStart,
    .la .t1 I.bssStop,
    -- bss_clear
    .bgeu .t0 .t1 6,
    .sbZero .t0,
    .addi .t0 .t0 1,
    .j 2,
    -- bss_done
    .la .sp I.stackTop,
    .mv .s0 .a1,
    .callSetupVm,
    .la .t0 (I.line 13),
    .li .t1 kernelVaOffset,
    .add .t0 .t0 .t1,
    .jr .t0,
    -- 1
    .la .sp I.stackTop,
    .la .t0 I.handleException,
    .csrwStvec .t0,
    .callDropIdentityMap,
    .li .t0 kernelVaOffset,
    .add .a0 .s0 .t0,
    .tail I.startKernel]

/-- Where the hart may fetch from: a line of `_start`, or the return of one of the functions. -/
inductive Place
  | line (i : ℕ)
  | ret
deriving DecidableEq

/-- What lies at a physical address. -/
def place (I : Image) (x : ℕ) : Option Place :=
  if x = I.setupVmRet ∨ x = I.dropRet then some .ret
  else ((List.range 20).find? fun i => I.line i = x).map .line

/-- A byte is stored. -/
def storeByte (h : Hart) (va : Word) (b : Byte) : Option Hart :=
  match translateUnder h.satp h.mem va with
  | some l => if l.flags.testBit 2 then some { h with mem := setByte h.mem l.pa b } else none
  | none => none

/-- A doubleword is stored. -/
def storeWord (satp : Word) (m : Frames) (va v : Word) : Option Frames :=
  match translateUnder satp m va with
  | some l =>
    if l.flags.testBit 2 then some (set m (l.pa / 4096) (Fin.ofNat 512 (l.pa / 8)) v) else none
  | none => none

/-- The instructions that are no calls. -/
def exec (I : Image) (i : ℕ) (h : Hart) : Instr → Option Hart
  | .la rd x => some ((h.set rd (h.rel (I.line i) x)).goto (h.rel (I.line i) (I.line (i + 1))))
  | .bgeu a b target =>
    if h.reg b ≤ h.reg a then some (h.goto (h.rel (I.line i) (I.line target)))
    else some (h.goto (h.rel (I.line i) (I.line (i + 1))))
  | .sbZero a => (storeByte h (h.reg a) 0).map fun t => t.goto (h.rel (I.line i) (I.line (i + 1)))
  | .addi rd a v => some ((h.set rd (h.reg a + v)).goto (h.rel (I.line i) (I.line (i + 1))))
  | .j target => some (h.goto (h.rel (I.line i) (I.line target)))
  | .mv rd a => some ((h.set rd (h.reg a)).goto (h.rel (I.line i) (I.line (i + 1))))
  | .li rd v => some ((h.set rd v).goto (h.rel (I.line i) (I.line (i + 1))))
  | .add rd a b => some ((h.set rd (h.reg a + h.reg b)).goto (h.rel (I.line i) (I.line (i + 1))))
  | .jr a => some (h.goto (h.reg a))
  | .csrwStvec a => some ({ h with stvec := h.reg a }.goto (h.rel (I.line i) (I.line (i + 1))))
  | .tail x => some (h.goto (h.rel (I.line i) x))
  | .callSetupVm | .callDropIdentityMap => none

/-- The stack is there. -/
def MapsStack (I : Image) (h : Hart) : Prop :=
  ∀ d < 0x4000, ∃ l,
    translateUnder h.satp h.mem (h.reg .sp - 0x4000 + BitVec.ofNat 64 d) = some l ∧
      l.Readable ∧ l.Writable ∧ l.pa = I.stackBottom + d

/-- `drop_identity_map`: the stores through the translation, which they change. -/
def dropStores (I : Image) (h : Hart) (i : ℕ) : Option Frames :=
  (List.range earlyMapGib).foldlM (fun m k =>
    storeWord h.satp m (h.rel (I.line i) (I.tables.pgd * 4096 + 8 * k)) 0) h.mem

/-- What compiled code leaves: the registers that a function keeps, and memory apart from its stack and
`early_pte_used`. -/
structure Returns (I : Image) (i ret : ℕ) (h : Hart) (satp : Word) (m : Frames) (t : Hart) : Prop where
  pc : t.pc = h.rel (I.line i) ret
  ra : t.reg .ra = h.rel (I.line i) (I.line (i + 1))
  sp : t.reg .sp = h.reg .sp
  s0 : t.reg .s0 = h.reg .s0
  satp : t.satp = satp
  stvec : t.stvec = h.stvec
  mem : ∀ x, ¬ I.Scratch x → byteAt t.mem x = byteAt m x

/-- What the instruction at the line `i` does. `setup_vm` runs without translation, where its tables
lie. A function has its stack when it is called and when it returns. -/
def Does (I : Image) (i : ℕ) (h t : Hart) : Instr → Prop
  | .callSetupVm => MapsStack I h ∧ MapsStack I t ∧ h.satp >>> 60 = 0 ∧
      h.rel (I.line i) (I.tables.pgd * 4096) = framePa I.tables.pgd ∧
      Returns I i I.setupVmRet h (setupVm I.tables ⟨h.mem, 0, h.satp⟩).satp
        (setupVm I.tables ⟨h.mem, 0, h.satp⟩).mem t
  | .callDropIdentityMap => MapsStack I h ∧ MapsStack I t ∧ ∃ m, dropStores I h i = some m ∧
      Returns I i I.dropRet h h.satp m t
  | ins => exec I i h ins = some t

/-- One instruction, or the call of a function up to its return. -/
inductive Step (I : Image) (h t : Hart) : Prop
  | line {l : Leaf} {i : ℕ} {ins : Instr} (hf : translateUnder h.satp h.mem h.pc = some l)
      (hx : l.Executable) (hp : place I l.pa = some (.line i)) (hi : (start I)[i]? = some ins)
      (hd : Does I i h t ins)
  | ret {l : Leaf} (hf : translateUnder h.satp h.mem h.pc = some l) (hx : l.Executable)
      (hp : place I l.pa = some .ret) (ht : t = h.goto (h.reg .ra))

/-! ### What `start_kernel` is entered with -/

/-- The hart at the entry of `start_kernel`, when it came to `_start` as `h`. -/
structure Started (I : Image) (h t : Hart) : Prop where
  pc : t.pc = kernelVaOffset + BitVec.ofNat 64 I.startKernel
  a0 : t.reg .a0 = physToVirtAddr (h.reg .a1)
  sp : t.reg .sp = kernelVaOffset + BitVec.ofNat 64 I.stackTop
  stvec : t.stvec = kernelVaOffset + BitVec.ofNat 64 I.handleException
  linear : ∀ x < linearSize,
    LinearTo (translateUnder t.satp t.mem (kernelVaOffset + BitVec.ofNat 64 x)) x
  low : ∀ va : Word, va.toNat < 2 ^ 63 → translateUnder t.satp t.mem va = none
  cleared : ∀ x, I.bssStart ≤ x → x < I.bssStop → ¬ I.Scratch x → ¬ I.Table (x / 4096) →
    t.view (physToVirtAddr (BitVec.ofNat 64 x)) = 0
  kept : ∀ x < linearSize, x < I.bssStart ∨ I.stackTop ≤ x →
    t.view (physToVirtAddr (BitVec.ofNat 64 x)) = byteAt h.mem x

/-! ### Memory -/

section Memory
variable {m m' : Frames} {x y : ℕ} {b : Byte} {w : Word} {I : Image}

theorem byteOf_ofBytes (f : ℕ → Byte) {i : ℕ} (hi : i < 8) : byteOf (ofBytes f) i = f i := by
  apply BitVec.eq_of_toNat_eq
  have h0 := (f 0).isLt
  have h1 := (f 1).isLt
  have h2 := (f 2).isLt
  have h3 := (f 3).isLt
  have h4 := (f 4).isLt
  have h5 := (f 5).isLt
  have h6 := (f 6).isLt
  have h7 := (f 7).isLt
  simp only [byteOf, ofBytes, BitVec.toNat_ofNat]
  interval_cases i <;> omega

theorem byteAt_setByte : byteAt (setByte m x b) y = if y = x then b else byteAt m y := by
  have h8 : x % 8 < 8 := Nat.mod_lt _ (by omega)
  have h8' : y % 8 < 8 := Nat.mod_lt _ (by omega)
  rw [byteAt, setByte, set_apply]
  by_cases hw : y / 4096 = x / 4096 ∧ Fin.ofNat 512 (y / 8) = Fin.ofNat 512 (x / 8)
  · have hi : y / 8 % 512 = x / 8 % 512 := congrArg Fin.val hw.2
    rw [if_pos hw, byteOf_ofBytes _ h8', byteAt, hw.1, hw.2]
    by_cases he : y % 8 = x % 8
    · rw [he, Function.update_self, if_pos (by omega)]
    · rw [Function.update_of_ne he, if_neg (fun h => he (by rw [h]))]
  · rw [if_neg hw, if_neg]
    · rfl
    · rintro rfl
      exact hw ⟨rfl, rfl⟩

/-- The bytes of a frame determine its doublewords. -/
theorem word_eq {f : ℕ} (h : ∀ x, x / 4096 = f → byteAt m' x = byteAt m x) (i : Fin 512) :
    m' f i = m f i := by
  rw [← ofBytes_byteOf (m' f i), ← ofBytes_byteOf (m f i)]
  refine ofBytes_congr fun j hj => ?_
  have hi := i.isLt
  have hx : (f * 4096 + i * 8 + j) / 4096 = f := by omega
  have hidx : Fin.ofNat 512 ((f * 4096 + i * 8 + j) / 8) = i := by
    apply Fin.ext
    change (f * 4096 + i * 8 + j) / 8 % 512 = i
    omega
  have := h (f * 4096 + i * 8 + j) hx
  rw [byteAt, byteAt, hx, hidx, show (f * 4096 + i.val * 8 + j) % 8 = j by omega] at this
  exact this

/-- A frame that does not change keeps its bytes. -/
theorem byteAt_of_frame (h : m' (x / 4096) = m (x / 4096)) : byteAt m' x = byteAt m x := by
  rw [byteAt, byteAt, h]

theorem table_eq (h : ∀ x, ¬ I.Scratch x → byteAt m' x = byteAt m x) {f : ℕ} (hf : I.Table f) :
    m' f = m f := by
  obtain ⟨h1, h2, h3⟩ := I.tables_bss f hf
  have h4 := I.bssStop_le
  refine funext fun i => word_eq (fun x hx => h x ?_) i
  rintro (hs | hs)
  · omega
  · omega

end Memory

/-! ### The translation -/

/-- The image is mapped from the address `base` on. -/
def Maps (satp : Word) (m : Frames) (base : Word) : Prop :=
  ∀ x < imageLimit, ∃ l, translateUnder satp m (base + BitVec.ofNat 64 x) = some l ∧ l.pa = x ∧
    l.Readable ∧ l.Writable ∧ l.Executable

section Translation
variable {m m' : Frames} {I : Image} {satp va : Word} {x : ℕ}

theorem maps_bare (h : satp >>> 60 = 0) : Maps satp m 0 := by
  intro x hx
  unfold imageLimit at hx
  refine ⟨⟨(0#64 + BitVec.ofNat 64 x).toNat, 0xf⟩, ?_, ?_, ?_, ?_, ?_⟩
  · rw [translateUnder, if_pos h]
    rfl
  · change (0#64 + BitVec.ofNat 64 x).toNat = x
    rw [BitVec.zero_add, BitVec.toNat_ofNat, Nat.mod_eq_of_lt (by omega)]
  · change Nat.testBit 0xf 1 = true
    decide
  · change Nat.testBit 0xf 2 = true
    decide
  · change Nat.testBit 0xf 3 = true
    decide

theorem translate_makeSatp {f : ℕ} (hf : f < 2 ^ 44) :
    translateUnder (makeSatp (framePa f)) m va = translateAddr m f va := by
  have hmode : makeSatp (framePa f) >>> 60 = 8 := by
    apply BitVec.eq_of_toNat_eq
    rw [BitVec.toNat_ushiftRight, makeSatp_toNat hf, Nat.shiftRight_eq_div_pow]
    change _ = 8
    omega
  have hroot : (makeSatp (framePa f)).toNat % 2 ^ 44 = f := by
    rw [makeSatp_toNat hf]
    omega
  rw [translateUnder, hmode, if_neg (by decide), if_pos rfl, hroot]

/-- The image lies below the windows of devices. -/
theorem not_inWindow (hx : x < imageLimit) : ¬ InWindow x := by
  unfold imageLimit at hx
  simp only [InWindow, windowPage]
  omega

theorem maps_of_linear {base : Word} (h : ∀ x < linearSize,
    LinearTo (translateUnder satp m (base + BitVec.ofNat 64 x)) x) : Maps satp m base := by
  intro x hx
  have hlt : x < linearSize := by
    unfold imageLimit at hx
    unfold linearSize earlyMapGib
    omega
  obtain ⟨l, h1, h2, h3, h4, h5⟩ := h x hlt
  exact ⟨l, h1, h2, h3, h4, h5.2 (not_inWindow hx)⟩

/-- The tables of `setup_vm`, with the identity map or without. -/
structure Linear (I : Image) (m : Frames) : Prop where
  shared : Shared I.tables m
  kernel : KernelHalf I.tables m I.tables.pgd

theorem Linear.congr (h : Linear I m) (hm : ∀ f, I.Table f → m' f = m f) : Linear I m' := by
  refine ⟨⟨fun g hg i => ?_, fun k hk i => ?_⟩, fun i hi => ?_⟩
  · rw [hm _ (.inr (.inl ⟨by omega, by omega⟩)), h.shared.pmd g hg]
  · rw [hm _ (.inr (.inr ⟨by omega, by unfold earlyPteTables; omega⟩)), h.shared.pte k hk]
  · rw [hm _ (.inl rfl), h.kernel i hi]

theorem Linear.translate_eq (h : Linear I m) (hx : x < linearSize) :
    translateUnder (makeSatp (framePa I.tables.pgd)) m (kernelVaOffset + BitVec.ofNat 64 x) =
      some ⟨x, linearFlags x⟩ := by
  rw [translate_makeSatp I.tables.pgd_lt, translate_kernel h.shared h.kernel.part hx]

theorem Linear.maps (h : Linear I m) :
    Maps (makeSatp (framePa I.tables.pgd)) m kernelVaOffset :=
  maps_of_linear fun x hx => by
    rw [h.translate_eq hx]
    exact linearTo_flags x

/-- The identity map of the moment between. -/
theorem Linear.maps_low (h : Linear I m) (hl : LowHalf I.tables m) :
    Maps (makeSatp (framePa I.tables.pgd)) m 0 :=
  maps_of_linear fun x hx => by
    rw [show (0 : Word) + BitVec.ofNat 64 x = BitVec.ofNat 64 x from BitVec.zero_add _,
      translate_makeSatp I.tables.pgd_lt, translate_low h.shared hl hx]
    exact linearTo_flags x

theorem translate_empty (h : ∀ i : Fin 512, i.val < 256 → m I.tables.pgd i = 0)
    (hva : va.toNat < 2 ^ 63) : translateUnder (makeSatp (framePa I.tables.pgd)) m va = none := by
  rw [translate_makeSatp I.tables.pgd_lt]
  by_cases hc : Canonical va
  · have hlow : va.toNat < 2 ^ 38 := hc.resolve_right (by omega)
    have hv := vpn_val 2 va
    exact translate_of_zero (h _ (by omega))
  · rw [translateAddr, if_neg hc]

end Translation

/-! ### The functions -/

section Functions
variable {m : Frames} {I : Image} {h : Hart} {satp : Word} {f i : ℕ}

theorem mapMmio2mWindow_of_ne {L : Layout} {b : Boot} {pa : Word}
    (h1 : ∀ g < earlyMapGib, f ≠ L.pmd + g) (h2 : ∀ k < earlyPteTables, f ≠ L.pte + k) :
    (mapMmio2mWindow L b pa).mem f = b.mem f := by
  rw [mapMmio2mWindow]
  dsimp only
  split_ifs with h3 h4
  · rfl
  · rfl
  · dsimp only
    rw [set_of_ne (h1 _ (by omega)), fill_of_ne (h2 _ (by omega)), clearTable,
      fill_of_ne (h2 _ (by omega))]

theorem setupVm_of_ne {b : Boot} (hf : ¬ I.Table f) : (setupVm I.tables b).mem f = b.mem f := by
  have h0 : f ≠ I.tables.pgd := fun he => hf (.inl he)
  have h1 : ∀ g < earlyMapGib, f ≠ I.tables.pmd + g :=
    fun g hg he => hf (.inr (.inl ⟨by omega, by omega⟩))
  have h2 : ∀ k < earlyPteTables, f ≠ I.tables.pte + k :=
    fun k hk he => hf (.inr (.inr ⟨by omega, by omega⟩))
  have hgib : ∀ n ≤ earlyMapGib, ∀ m : Frames,
      (List.range n).foldl (mapGib I.tables) m f = m f := by
    intro n hn m
    induction n with
    | zero => rfl
    | succ n ih =>
      rw [List.range_succ, List.foldl_append, List.foldl_cons, List.foldl_nil,
        mapGib_of_ne _ h0 (h1 n (by omega)), ih (by omega)]
  rw [setupVm]
  dsimp only
  rw [mapMmio2mWindow_of_ne h1 h2, mapMmio2mWindow_of_ne h1 h2, mapMmio2mWindow_of_ne h1 h2]
  dsimp only
  rw [hgib _ le_rfl, foldl_clearTable _ _ fun g hg => h1 g (List.mem_range.1 hg), clearTable,
    fill_of_ne h0]

/-- From the line `i` the address of what lies at `x` is found where the hart runs. -/
theorem rel_eq {base : Word} {x : ℕ} (hpc : h.pc = base + BitVec.ofNat 64 (I.line i)) :
    h.rel (I.line i) x = base + BitVec.ofNat 64 x := by
  rw [Hart.rel, hpc, BitVec.add_assoc, BitVec.add_comm (BitVec.ofNat 64 (I.line i)),
    BitVec.sub_add_cancel]

theorem table_lt (I : Image) {f : ℕ} (hf : I.Table f) : (f + 1) * 4096 ≤ linearSize := by
  have h1 := (I.tables_bss f hf).2.1
  have h2 := I.bssStop_le
  have h3 := I.stack_le
  have h4 := I.kernelEnd_le
  unfold imageLimit at h4
  unfold linearSize earlyMapGib
  omega

theorem pgd_apart (I : Image) : (∀ g < earlyMapGib, I.tables.pmd + g ≠ I.tables.pgd) ∧
    ∀ k < earlyPteTables, I.tables.pte + k ≠ I.tables.pgd := by
  have h1 := I.tables.pgd_pmd
  have h2 := I.tables.pgd_pte
  exact ⟨fun g hg => by omega, fun k hk => by omega⟩

theorem Linear.set_low (hl : Linear I m) {n : ℕ} (hn : n < earlyMapGib) :
    Linear I (set m I.tables.pgd (Fin.ofNat 512 n) 0) := by
  obtain ⟨h1, h2⟩ := pgd_apart I
  refine ⟨⟨fun g hg j => ?_, fun k hk j => ?_⟩, fun j hj => ?_⟩
  · rw [set_of_ne (h1 g hg), hl.shared.pmd g hg]
  · rw [set_of_ne (h2 k (by unfold earlyPteTables; omega)), hl.shared.pte k hk]
  · unfold earlyMapGib at hn
    have hne : j ≠ Fin.ofNat 512 n := fun he => by
      have := congrArg Fin.val he
      rw [fin_ofNat_val (by omega)] at this
      omega
    rw [set_of_index_ne hne, hl.kernel j hj]

theorem storeWord_eq {l : Leaf} {va v : Word} (ht : translateUnder satp m va = some l)
    (hw : l.Writable) :
    storeWord satp m va v = some (set m (l.pa / 4096) (Fin.ofNat 512 (l.pa / 8)) v) := by
  unfold Leaf.Writable at hw
  rw [storeWord, ht]
  simp only [hw, if_true]

theorem storeWord_root (hl : Linear I m) {n : ℕ} (hn : n < earlyMapGib) (v : Word) :
    storeWord (makeSatp (framePa I.tables.pgd)) m
      (kernelVaOffset + BitVec.ofNat 64 (I.tables.pgd * 4096 + 8 * n)) v =
        some (set m I.tables.pgd (Fin.ofNat 512 n) v) := by
  have hlt := table_lt I (.inl rfl)
  unfold earlyMapGib at hn
  have hframe : (I.tables.pgd * 4096 + 8 * n) / 4096 = I.tables.pgd := by omega
  have hindex : Fin.ofNat 512 ((I.tables.pgd * 4096 + 8 * n) / 8) = Fin.ofNat 512 n := by
    apply Fin.ext
    change (I.tables.pgd * 4096 + 8 * n) / 8 % 512 = n % 512
    omega
  obtain ⟨l, he, hpa, -, hw, -⟩ := linearTo_flags (I.tables.pgd * 4096 + 8 * n)
  rw [storeWord_eq ((hl.translate_eq (by omega)).trans he) hw, hpa, hframe, hindex]

/-- The stores of `drop_identity_map` reach the root table, and the table keeps mapping them. -/
theorem dropStores_eq (hl : Linear I h.mem) (hs : h.satp = makeSatp (framePa I.tables.pgd))
    (hpc : h.pc = kernelVaOffset + BitVec.ofNat 64 (I.line i)) :
    dropStores I h i = some (dropIdentityMap I.tables h.mem) := by
  have hrun : ∀ n ≤ earlyMapGib, ∃ m, (List.range n).foldlM (fun m k =>
      storeWord h.satp m (h.rel (I.line i) (I.tables.pgd * 4096 + 8 * k)) 0) h.mem = some m ∧
        m = (List.range n).foldl (fun m k => set m I.tables.pgd (Fin.ofNat 512 k) 0) h.mem ∧
        Linear I m := by
    intro n hn
    induction n with
    | zero => exact ⟨h.mem, rfl, rfl, hl⟩
    | succ n ih =>
      obtain ⟨m, h1, h2, h3⟩ := ih (by omega)
      refine ⟨set m I.tables.pgd (Fin.ofNat 512 n) 0, ?_, ?_, h3.set_low (by omega)⟩
      · rw [List.range_succ, List.foldlM_append, h1, Option.bind_eq_bind, Option.bind_some,
          List.foldlM_cons, rel_eq hpc, hs, storeWord_root h3 (by omega)]
        rfl
      · rw [List.range_succ, List.foldl_append, ← h2]
        rfl
  obtain ⟨m, h1, h2, -⟩ := hrun earlyMapGib le_rfl
  rw [dropStores, h1, h2]
  rfl

end Functions

end OscKernel.Boot.Entry
