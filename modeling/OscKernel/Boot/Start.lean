import OscKernel.Fdt.Props
import OscKernel.Mm.InUse

/-! # The start of the kernel of lab6

`start_kernel` finds the UART, the memory and the initramfs in the device tree, and starts the
allocator. The archive that the boot loader put into memory is what the file system is made of for as
long as the kernel runs.

* `startKernel`: the source, up to `mm_init`.
* `Finds`: the files of an archive are found.
* `files_of_run`: they are found after every run of the allocator. -/

namespace OscKernel.Boot.Start

open OscKernel.Lib.Memory OscKernel.Lib.Transition OscKernel.Vm.Tables
open OscKernel.Initrd.KString OscKernel.Initrd.Cpio OscKernel.Initrd.Lookup
open OscKernel.Fdt.Format OscKernel.Fdt.Path OscKernel.Fdt.Property OscKernel.Fdt.Region
  OscKernel.Fdt.Props
open OscKernel.Mm.Frames OscKernel.Mm.Reserve OscKernel.Mm.Pages OscKernel.Mm.Init
  OscKernel.Mm.Callers OscKernel.Mm.Complete OscKernel.Mm.InUse

/-! ### The source -/

/-- What `start_kernel` gets: the device tree, the kernel image, and memory. -/
structure Handover where
  fdt : Word
  kernelStart : Word
  kernelEnd : Word
  mem : Mem

/-- What `mm_init` finds. -/
def Handover.boot (h : Handover) (rdStart rdEnd : Word) (region : Word × Word) : Boot where
  dtbMemBase := region.1
  dtbMemSize := region.2
  fdt := h.fdt
  fdtTotalsize := fdtTotalsize h.mem h.fdt
  kernelStart := h.kernelStart
  kernelEnd := h.kernelEnd
  initrdStart := rdStart
  initrdEnd := rdEnd
  mem := h.mem

/-- What is set up when `mm_init` returns. -/
structure Kernel where
  uartBase : Word
  initrdStart : Word
  initrdEnd : Word
  mm : MmState

/-- `start_kernel`, up to `mm_init`. It hangs when the tree has no UART or no memory. -/
def startKernel (h : Handover) : Option Kernel :=
  (getUartBaseFromDtb h.mem h.fdt).bind fun uartPa =>
    if uartPa = 0 then none
    else
      (dtbGetU64Prop h.mem h.fdt (ascii "/chosen") (ascii "linux,initrd-start")).bind fun rdStart =>
      (dtbGetU64Prop h.mem h.fdt (ascii "/chosen") (ascii "linux,initrd-end")).bind fun rdEnd =>
      (dtbGetMemoryRegion h.mem h.fdt).bind fun region => region.bind fun region =>
      (mmInit (h.boot rdStart rdEnd region)).map fun mm =>
        ⟨physToVirtAddr uartPa, physToVirtAddr rdStart, physToVirtAddr rdEnd, mm⟩

/-! ### Files -/

/-- The files of the archive are found by name, each the first of its name, and listed in order. -/
structure Finds (m : Mem) (initrdStart initrdEnd : Word) (es : List Entry) : Prop where
  found : ∀ path l, Reads (bytesAt m path) l → ∀ e, es.find? (·.Named l) = some e →
    ∃ q, initrdFindFile m initrdStart initrdEnd path =
      some (.ok (q, BitVec.ofNat 64 e.data.length)) ∧ Placed m q e.data
  missing : ∀ path l, Reads (bytesAt m path) l → es.find? (·.Named l) = none →
    initrdFindFile m initrdStart initrdEnd path = some (.error .notFound)
  listed : initrdList m initrdStart initrdEnd = some (es.flatMap Entry.listing)

section Files
variable {m m' : Mem} {initrdStart initrdEnd : Word} {es : List Entry} {f : Fields}

theorem finds_of_placed (hok : ∀ e ∈ es, e.Ok) (hstart : initrdStart ≠ 0)
    (hp : Placed m initrdStart (archive es f))
    (hend : initrdEnd.toNat = initrdStart.toNat + (archive es f).length) :
    Finds m initrdStart initrdEnd es := by
  have hlen := length_le_archive es f
  have hlt := initrdEnd.isLt
  have hav : initrdAvailable initrdStart initrdEnd = true := by
    simp only [initrdAvailable, Bool.and_eq_true, decide_eq_true_eq]
    refine ⟨⟨hstart, fun h => ?_⟩, ?_⟩
    · simp [h] at hend
      omega
    · bv_omega
  have hw : Within m initrdEnd initrdStart es f := ⟨hp, hok, hend.ge⟩
  refine ⟨fun path l hl e he => ?_, fun path l hl hn => ?_, ?_⟩
  · obtain ⟨hnamed, pre, post, rfl, hpre⟩ := List.find?_eq_some_iff_append.1 he
    rw [initrdFindFile, hav, if_pos rfl]
    rw [List.length_append] at hlen
    obtain ⟨q, hq, -, hd⟩ := findLoop_first (n := 2 ^ 64) hl (of_decide_eq_true hnamed) hw (by omega)
      fun x hx => by simpa using hpre x hx
    exact ⟨q, hq, hd⟩
  · rw [initrdFindFile, hav, if_pos rfl]
    exact findLoop_none hl hw (by omega) fun x hx => by simpa using List.find?_eq_none.1 hn x hx
  · rw [initrdList, hav, if_pos rfl]
    exact listLoop_all hw (by omega)

end Files

/-! ### The result -/

/-- The device tree says that the initramfs lies between `lo` and `hi`, and memory in the region `r`
and maybe in others. -/
structure Names (h : Handover) (d : DeviceTree) (lo hi : ℕ) (r : MemoryRegion) : Prop where
  encodes : Encodes h.mem h.fdt d
  propsFirst : PropsFirst d.body
  chosen : ∃ x, (d.nodes.find? fun x => Resolves [ascii "chosen"] x.chain) = some x ∧
    x.off < 2 ^ 31 ∧ ownValue (ascii "linux,initrd-start") x.body = some (Cells.two.bytes lo) ∧
    ownValue (ascii "linux,initrd-end") x.body = some (Cells.two.bytes hi)
  memory : ∃ x rs, d.nodes.find? (IsMemory ·) = some x ∧ x.off < 2 ^ 31 ∧
    ownValue (ascii "reg") x.body = some (regValue .two (r :: rs)) ∧
    (regValue .two (r :: rs)).length < 2 ^ 31 ∧ r.Fits .two

theorem physToVirtAddr_add (a i : ℕ) : physToVirtAddr (BitVec.ofNat 64 a) + BitVec.ofNat 64 i =
    physToVirtAddr (BitVec.ofNat 64 (a + i)) := by
  rw [physToVirtAddr, physToVirtAddr, BitVec.ofNat_add, BitVec.add_assoc, BitVec.add_assoc,
    BitVec.add_comm kernelVaOffset]

section Result
variable {h : Handover} {d : DeviceTree} {lo hi : ℕ} {r : MemoryRegion} {k : Kernel} {es : List Entry}
  {f : Fields} {cs : List Call} {s : Sys}

theorem memory_eq (hd : Names h d lo hi r) : dtbGetMemoryRegion h.mem h.fdt =
    some (some (BitVec.ofNat 64 r.base, BitVec.ofNat 64 r.size)) := by
  obtain ⟨x, rs, hx, hoff, hv, hlen, hf⟩ := hd.memory
  obtain ⟨q, hplaced, heq⟩ := region_eq hd.encodes hd.propsFirst hx hv
  have hle := length_regValue .two (r :: rs)
  rw [List.length_cons, Cells.regionSize] at hle
  rw [heq, if_pos ⟨hoff, hlen⟩, if_pos (by omega), (read_two hplaced hf).1, (read_two hplaced hf).2]

/-- **What `start_kernel` makes of the tree.** -/
theorem startKernel_finds (hd : Names h d lo hi r) (hlo : lo < 2 ^ 64) (hhi : hi < 2 ^ 64)
    (hk : startKernel h = some k) :
    k.initrdStart = physToVirtAddr (BitVec.ofNat 64 lo) ∧
      k.initrdEnd = physToVirtAddr (BitVec.ofNat 64 hi) ∧
      mmInit (h.boot (BitVec.ofNat 64 lo) (BitVec.ofNat 64 hi)
        (BitVec.ofNat 64 r.base, BitVec.ofNat 64 r.size)) = some k.mm := by
  obtain ⟨x, hx, hoff, hstart, hstop⟩ := hd.chosen
  have hpath : ascii "/chosen" = pathOf [ascii "chosen"] := by decide
  have hcs : ∀ c ∈ [ascii "chosen"], Component c := fun c hc => by
    rw [List.mem_singleton.1 hc]
    exact ⟨by decide, by decide, by decide⟩
  have hread : ∀ (name : List Byte) (n : ℕ), (0 : Byte) ∉ name → n < 2 ^ 64 →
      ownValue name x.body = some (Cells.two.bytes n) →
      dtbGetU64Prop h.mem h.fdt (ascii "/chosen") name = some (BitVec.ofNat 64 n) := by
    intro name n h0 hn hv
    rw [← List.append_nil (Cells.two.bytes n)] at hv
    rw [hpath]
    exact u64Prop_eq hd.encodes hd.propsFirst hcs (by decide) h0 hx hv hn hoff (by simp [Cells.bytes])
  obtain ⟨uart, -, hk⟩ := Option.bind_eq_some_iff.1 hk
  split_ifs at hk with h0
  rw [hread _ lo (by decide) hlo hstart, hread _ hi (by decide) hhi hstop, memory_eq hd,
    Option.bind_some, Option.bind_some, Option.bind_some, Option.bind_some] at hk
  obtain ⟨mm, hmm, rfl⟩ := Option.map_eq_some_iff.1 hk
  exact ⟨rfl, rfl, hmm⟩

/-- **The files stay.** The device tree names the range of an archive in the linear mapping, and
`start_kernel` comes to its end. Then, whatever callers take from the allocator, write and give back,
every file of the archive is found under its name with its contents, and the files are listed in order;
`frame_array` does not lie on the archive, and the device tree holds what it held. -/
theorem files_of_run (hd : Names h d lo hi r) (hlo : 0 < lo) (hhi : hi = lo + (archive es f).length)
    (hlt : hi < 2 ^ 38) (hok : ∀ e ∈ es, e.Ok)
    (ha : Placed h.mem (physToVirtAddr (BitVec.ofNat 64 lo)) (archive es f))
    (hsize : 4096 ≤ r.size) (hl : r.base + r.size ≤ 2 ^ 38) (hk : startKernel h = some k)
    (hr : Run (step .linear) (fun _ _ => True) ⟨k.mm, []⟩ cs s) :
    Finds s.mm.mem k.initrdStart k.initrdEnd es ∧
      (∀ x, lo ≤ x → x < hi → ¬ ((kernelPtrToPhys s.mm.framePtr).toNat ≤ x ∧
        x < (kernelPtrToPhys s.mm.framePtr).toNat + s.mm.frameCount * sizeofPage)) ∧
      ∀ a, h.fdt = physToVirtAddr (BitVec.ofNat 64 a) →
        a + (fdtTotalsize h.mem h.fdt).toNat ≤ 2 ^ 38 → ∀ i < (fdtTotalsize h.mem h.fdt).toNat,
          s.mm.mem (h.fdt + BitVec.ofNat 64 i) = h.mem (h.fdt + BitVec.ofNat 64 i) := by
  obtain ⟨h1, h2, hinit⟩ := startKernel_finds hd (by omega) (by omega) hk
  set b := h.boot (BitVec.ofNat 64 lo) (BitVec.ofNat 64 hi)
    (BitVec.ofNat 64 r.base, BitVec.ofNat 64 r.size) with hb
  have hnat : ∀ n < 2 ^ 64, (BitVec.ofNat 64 n).toNat = n := fun n hn => by
    rw [BitVec.toNat_ofNat, Nat.mod_eq_of_lt hn]
  have hbase : b.dtbMemBase.toNat = r.base := hnat _ (by omega)
  have hsz : b.dtbMemSize.toNat = r.size := hnat _ (by omega)
  have hin : b.initrdEnd.toNat ≤ 2 ^ 38 := (hnat hi (by omega)).trans_le (by omega)
  have hmanaged := Boot.managed_within (b := b) (by omega) (by omega)
  have hl' : b.managedBase.toNat + b.managedSize.toNat ≤ 2 ^ 38 := by omega
  have hrange : (lo, hi) ∈ b.regions := by
    have hne : BitVec.ofNat 64 lo ≠ 0 := fun h0 => by
      have := congrArg BitVec.toNat h0
      rw [hnat lo (by omega)] at this
      exact hlo.ne' this
    have hq : b.regions[2]? = some (lo, hi) := by
      change some (if BitVec.ofNat 64 lo = 0 then (0, 0) else
        ((BitVec.ofNat 64 lo).toNat, (BitVec.ofNat 64 hi).toNat)) = _
      rw [if_neg hne, hnat lo (by omega), hnat hi (by omega)]
    exact List.mem_of_getElem? hq
  refine ⟨?_, fun x hx hx' => ?_, fun a hfdt hle i hi => ?_⟩
  · rw [h1, h2]
    have hstart := physToVirtAddr_toNat (a := BitVec.ofNat 64 lo) (by rw [hnat lo (by omega)]; omega)
    have hend := physToVirtAddr_toNat (a := BitVec.ofNat 64 hi) (by rw [hnat hi (by omega)]; omega)
    rw [hnat lo (by omega)] at hstart
    rw [hnat hi (by omega)] at hend
    refine finds_of_placed hok (fun h0 => ?_) (f := f) (fun i hi => ?_) (by omega)
    · rw [h0] at hstart
      have hz : (0 : Word).toNat = 0 := rfl
      omega
    · have hbyte := ha i hi
      unfold bytesAt at hbyte ⊢
      rw [physToVirtAddr_add] at hbyte ⊢
      rw [mem_of_run hinit hl' hin hr (by omega)
        (.inl ⟨_, hrange, by dsimp only; omega, by dsimp only; omega⟩)]
      exact hbyte
  · obtain ⟨hinv, -, -⟩ := inv_of_run hinit hl' hr
    rw [hinv.place.framePtr, hinv.place.frameCount]
    exact frameArray_apart hinit hl' hin hrange hx hx'
  · have ha : (BitVec.ofNat 64 a).toNat = a := hnat a (by omega)
    have hphys : (kernelPtrToPhys b.fdt).toNat = a := by
      change (kernelPtrToPhys h.fdt).toNat = a
      rw [hfdt, kernelPtrToPhys_physToVirtAddr (by omega), ha]
    have hrange : (a, a + (fdtTotalsize h.mem h.fdt).toNat) ∈ b.regions := by
      rw [← hphys]
      exact List.mem_cons_self
    rw [hfdt, physToVirtAddr_add]
    exact mem_of_run hinit hl' hin hr (by omega)
      (.inl ⟨_, hrange, Nat.le_add_right a i, Nat.add_lt_add_left hi a⟩)

end Result

/-! ### A small machine -/

/-- The value of `reg` for memory of some 40 pages. -/
def smallReg : List Byte := regValue .two [⟨0x80000800, 0x28000⟩]

/-- A tree with the UART, memory, and an initramfs of `240` bytes. -/
def smallTree : DeviceTree :=
  ⟨0, [], .node (ascii "soc") (.node (ascii "serial@d4017000")
      (.prop (ascii "reg") 0 (regValue .two [⟨0xd4017000, 0x100⟩]) .nil) .nil)
    (.node (ascii "memory@80000000") (.prop (ascii "reg") 0 smallReg .nil)
      (.node (ascii "chosen") (.prop (ascii "linux,initrd-start") 4 (Cells.two.bytes 0x80010004)
        (.prop (ascii "linux,initrd-end") 23 (Cells.two.bytes 0x800100f4) .nil)) .nil)), 0⟩

/-- The tree behind its header, and the strings block. -/
def smallBlob : List Byte :=
  [0xd00dfeed, 268, 40, 228, 0, 17, 16, 0, 40, 188].flatMap be32 ++ smallTree.structBlock ++
    (ascii "reg" ++ [0] ++ (ascii "linux,initrd-start" ++ [0]) ++ (ascii "linux,initrd-end" ++ [0]))

/-- The tree and an archive of one file in memory. -/
def smallHandover : Handover where
  fdt := 0xffffffc080003010
  kernelStart := 0xffffffc080006000
  kernelEnd := 0xffffffc080007234
  mem a :=
    if a.toNat < 0xffffffc080010004 then smallBlob.getD (a.toNat - 0xffffffc080003010) 0
    else (archive [sampleEntry] sampleFields).getD (a.toNat - 0xffffffc080010004) 0

theorem encodes_smallTree : Encodes smallHandover.mem 0xffffffc080003010 smallTree := by
  have hblk : structBlk smallHandover.mem 0xffffffc080003010 = 0xffffffc080003038 := by
    decide +kernel
  have hstr : stringsBlk smallHandover.mem 0xffffffc080003010 = 0xffffffc0800030f4 := by
    decide +kernel
  refine ⟨by decide +kernel, by rw [hblk]; decide, ?_, by decide +kernel, ?_⟩
  · rw [hblk]
    unfold Placed
    decide +kernel
  · rw [hstr]
    have hreg : Reads (bytesAt smallHandover.mem 0xffffffc0800030f4) (ascii "reg") :=
      ⟨by decide +kernel, by decide +kernel, by decide⟩
    have hstart : Reads (bytesAt smallHandover.mem (0xffffffc0800030f4 + BitVec.ofNat 64 4))
        (ascii "linux,initrd-start") := ⟨by decide +kernel, by decide +kernel, by decide⟩
    have hend : Reads (bytesAt smallHandover.mem (0xffffffc0800030f4 + BitVec.ofNat 64 23))
        (ascii "linux,initrd-end") := ⟨by decide +kernel, by decide +kernel, by decide⟩
    have hreg' : Reads (bytesAt smallHandover.mem (0xffffffc0800030f4 + BitVec.ofNat 64 0))
        (ascii "reg") := by simpa using hreg
    refine ⟨by decide, ⟨by decide, ⟨by decide, ⟨⟨by decide, by decide, hreg'⟩, trivial⟩, trivial⟩,
      by decide, ⟨⟨by decide, by decide, hreg'⟩, trivial⟩, by decide, ⟨⟨by decide, by decide, hstart⟩,
        ⟨by decide, by decide, hend⟩, trivial⟩, trivial⟩, trivial⟩

theorem names_smallTree :
    Names smallHandover smallTree 0x80010004 0x800100f4 ⟨0x80000800, 0x28000⟩ := by
  refine ⟨encodes_smallTree, ⟨⟨trivial, trivial, trivial⟩, trivial, trivial, trivial, trivial, trivial,
    trivial⟩, ?_, ?_⟩
  · exact ⟨_, rfl, by decide, rfl, rfl⟩
  · exact ⟨_, [], rfl, by decide, rfl, by decide, by decide, by decide⟩

/-- `start_kernel` and calls of the allocator, evaluated. -/
theorem exists_kernel {β : Type*} (h : Handover) (cs : List Call) (view : Sys → β) (v : β)
    (he : (startKernel h).bind (fun k =>
      (exec (step .linear) (fun _ _ => true) ⟨k.mm, []⟩ cs).map view) = some v) :
    ∃ k s, startKernel h = some k ∧ Run (step .linear) (fun _ _ => True) ⟨k.mm, []⟩ cs s ∧
      view s = v := by
  obtain ⟨k, hk, he⟩ := Option.bind_eq_some_iff.1 he
  obtain ⟨s, hr, hv⟩ := Run.exists_of_exec (fun _ _ _ => trivial) he
  exact ⟨k, s, hk, hr, hv⟩

theorem files_of_run_small : ∃ k s, startKernel smallHandover = some k ∧
    Run (step .linear) (fun _ _ => True) ⟨k.mm, []⟩
      [.allocPages 0, .allocate 2000, .allocate 3000, .freePages 0xffffffc080002000] s ∧
    Finds s.mm.mem k.initrdStart k.initrdEnd [sampleEntry] ∧
      (∀ x, 0x80010004 ≤ x → x < 0x800100f4 → ¬ ((kernelPtrToPhys s.mm.framePtr).toNat ≤ x ∧
        x < (kernelPtrToPhys s.mm.framePtr).toNat + s.mm.frameCount * sizeofPage)) ∧
      ∀ a, smallHandover.fdt = physToVirtAddr (BitVec.ofNat 64 a) →
        a + (fdtTotalsize smallHandover.mem smallHandover.fdt).toNat ≤ 2 ^ 38 →
        ∀ i < (fdtTotalsize smallHandover.mem smallHandover.fdt).toNat,
          s.mm.mem (smallHandover.fdt + BitVec.ofNat 64 i) =
            smallHandover.mem (smallHandover.fdt + BitVec.ofNat 64 i) := by
  obtain ⟨k, s, h1, h2, -⟩ := exists_kernel smallHandover
    [.allocPages 0, .allocate 2000, .allocate 3000, .freePages 0xffffffc080002000]
    (fun s => s.live.length) 2 (by decide +kernel)
  have hlen : (archive [sampleEntry] sampleFields).length = 240 := by decide +kernel
  have hok : ∀ e ∈ [sampleEntry], e.Ok := fun e he => by
    rw [List.mem_singleton.1 he]
    exact ⟨by decide, by decide, by decide, by decide⟩
  have hp : Placed smallHandover.mem (physToVirtAddr (BitVec.ofNat 64 0x80010004))
      (archive [sampleEntry] sampleFields) := by
    unfold Placed
    decide +kernel
  exact ⟨k, s, h1, h2, files_of_run names_smallTree (by decide) (by rw [hlen]) (by decide) hok hp
    (by decide) (by decide) h1 h2⟩

end OscKernel.Boot.Start
