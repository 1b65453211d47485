import OscKernel.Fdt.Region

/-! # What the kernel looks up at boot

* `dtbGetU64Prop`, `dtbGetRegBase`, `getUartBaseFromDtb`, `fdtTotalsize`: the source.
* `u64Prop_eq`: a property of eight bytes or more gives the number in its first eight. -/

namespace OscKernel.Fdt.Props

open OscKernel.Lib.Memory OscKernel.Initrd.KString OscKernel.Initrd.Cpio OscKernel.Initrd.Lookup
open OscKernel.Fdt.Format OscKernel.Fdt.Path OscKernel.Fdt.Property OscKernel.Fdt.Region

/-! ### The source -/

/-- `dtb_get_u64_prop`. -/
def dtbGetU64Prop (m : Mem) (fdt : Word) (path propName : List Byte) : Option Word :=
  match fdtPathOffset m fdt path with
  | none => none
  | some off =>
    if off < 0 then some 0
    else
      match fdtGetprop m fdt (BitVec.ofInt 32 off) propName with
      | none => none
      | some none => some 0
      | some (some (prop, len)) => if len.toInt < 8 then some 0 else some (fdt64 m prop)

/-- `dtb_get_reg_base`. -/
def dtbGetRegBase (m : Mem) (fdt : Word) (path : List Byte) : Option Word :=
  match fdtPathOffset m fdt path with
  | none => none
  | some off =>
    if off < 0 then some 0
    else
      match fdtGetprop m fdt (BitVec.ofInt 32 off) (ascii "reg") with
      | none => none
      | some none => some 0
      | some (some (prop, len)) => if len.toInt ≥ 8 then some (fdt64 m prop) else some 0

/-- `get_uart_base_from_dtb`. -/
def getUartBaseFromDtb (m : Mem) (fdt : Word) : Option Word :=
  (dtbGetRegBase m fdt (ascii "/soc/serial")).bind fun base =>
    if base ≠ 0 then some base else dtbGetRegBase m fdt (ascii "/soc/uart")

/-- `fdt_totalsize`, whose value is one of `uint32_t`. -/
def fdtTotalsize (m : Mem) (fdt : Word) : BitVec 32 :=
  if fdt32 m fdt ≠ 0xd00dfeed then 0 else fdt32 m (fdt + 4)

/-! ### The results -/

section Results
variable {m : Mem} {fdt : Word} {d : DeviceTree} {x : Node} {cs : List (List Byte)} {name v rest : List Byte}
  {n : ℕ}

/-- **`dtb_get_u64_prop`** reads the number in the first eight bytes of the property of the first node
that the path names, if the offset of the node and the length of the property fit an `int`. -/
theorem u64Prop_eq (h : Encodes m fdt d) (hp : PropsFirst d.body) (hcs : ∀ c ∈ cs, Component c)
    (hpath : (pathOf cs).length < 2 ^ 31) (h0 : (0 : Byte) ∉ name)
    (hx : (d.nodes.find? fun x => Resolves cs x.chain) = some x)
    (hv : ownValue name x.body = some (Cells.two.bytes n ++ rest)) (hn : n < 2 ^ 64)
    (hoff : x.off < 2 ^ 31) (hlen : (Cells.two.bytes n ++ rest).length < 2 ^ 31) :
    dtbGetU64Prop m fdt (pathOf cs) name = some (BitVec.ofNat 64 n) := by
  have hmem := List.mem_of_find?_eq_some hx
  have hsize := (h.nodeAt hmem).2
  obtain ⟨hlen32, o, hany, hplaced⟩ := any_of_value h hp hmem hv
  have hoffInt := toInt_of_lt (k := x.off) (by omega)
  have hlenInt := toInt_of_lt hlen32
  have hle : 8 ≤ (Cells.two.bytes n ++ rest).length := by
    rw [List.length_append]
    exact Nat.le_add_right 8 _
  rw [if_pos hoff] at hoffInt
  rw [if_pos hlen] at hlenInt
  rw [dtbGetU64Prop, path_offset h hcs hpath, hx]
  dsimp only
  have hget := getprop_any h hmem hoff h0
  rw [asInt, if_neg (by omega), BitVec.ofInt_toInt, hget, hany, Option.map_some]
  dsimp only [found]
  rw [if_neg (by omega), fdt64_spec (placed_append.1 hplaced).1 (by omega) (by omega)]
  exact congrArg (fun k => some (BitVec.ofNat 64 k)) (by omega)

end Results

end OscKernel.Fdt.Props
