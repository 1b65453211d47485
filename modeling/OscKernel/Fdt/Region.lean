import OscKernel.Fdt.Property

/-! # `dtb_get_memory_region`

The cell counts of the tree are not read: from 16 bytes on the property is taken for one with two cells
each. Two regions of one cell each are 16 bytes too.

* `dtbGetMemoryRegion`: the source.
* `Cells`, `MemoryRegion`: a `reg` property in the two layouts.
* `own_of_value`: where the value of a property of a node stands.
* `region_iff`: when the first region is the one that is returned. -/

namespace OscKernel.Fdt.Region

open OscKernel.Lib.Memory OscKernel.Initrd.KString OscKernel.Initrd.Cpio OscKernel.Initrd.Lookup
open OscKernel.Fdt.Format OscKernel.Fdt.Path OscKernel.Fdt.Property

/-! ### The source -/

/-- `fdt64`. -/
def fdt64 (m : Mem) (p : Word) : Word :=
  ((m p).setWidth 64 <<< 56) ||| ((m (p + 1)).setWidth 64 <<< 48) |||
    ((m (p + 2)).setWidth 64 <<< 40) ||| ((m (p + 3)).setWidth 64 <<< 32) |||
    ((m (p + 4)).setWidth 64 <<< 24) ||| ((m (p + 5)).setWidth 64 <<< 16) |||
    ((m (p + 6)).setWidth 64 <<< 8) ||| (m (p + 7)).setWidth 64

/-- `dtb_get_memory_region`: `some none` stands for the return value 0, and otherwise it is 1, with
`*base` and `*size`. -/
def dtbGetMemoryRegion (m : Mem) (fdt : Word) : Option (Option (Word × Word)) :=
  match fdtPathOffset m fdt (ascii "/memory") with
  | none => none
  | some off =>
    if off < 0 then some none
    else
      match fdtGetprop m fdt (BitVec.ofInt 32 off) (ascii "reg") with
      | none => none
      | some none => some none
      | some (some (prop, len)) =>
        if len.toInt ≥ 16 then some (some (fdt64 m prop, fdt64 m (prop + 8)))
        else if len.toInt ≥ 8 then
          some (some ((fdt32 m prop).setWidth 64, (fdt32 m (prop + 4)).setWidth 64))
        else some none

/-! ### The layouts -/

/-- `#address-cells` and `#size-cells`, if they are the same. -/
inductive Cells
  | one
  | two
  deriving DecidableEq

/-- A number in that many cells. -/
def Cells.bytes : Cells → ℕ → List Byte
  | one, v => be32 v
  | two, v => be32 (v / 2 ^ 32) ++ be32 (v % 2 ^ 32)

/-- The numbers that fit. -/
def Cells.bound : Cells → ℕ
  | one => 2 ^ 32
  | two => 2 ^ 64

/-- A region of memory. -/
structure MemoryRegion where
  base : ℕ
  size : ℕ
  deriving DecidableEq

def MemoryRegion.bytes (c : Cells) (r : MemoryRegion) : List Byte := c.bytes r.base ++ c.bytes r.size

/-- The numbers of a region fit into their cells. -/
def MemoryRegion.Fits (c : Cells) (r : MemoryRegion) : Prop := r.base < c.bound ∧ r.size < c.bound

instance (c : Cells) (r : MemoryRegion) : Decidable (r.Fits c) := inferInstanceAs (Decidable (_ ∧ _))

/-- The length of a region. -/
def Cells.regionSize : Cells → ℕ
  | one => 8
  | two => 16

/-- The value of a `reg` property. -/
def regValue (c : Cells) (rs : List MemoryRegion) : List Byte := rs.flatMap (MemoryRegion.bytes c)

/-- The value of the first property called `name` of a node itself. -/
def ownValue (name : List Byte) : Items → Option (List Byte)
  | .nil => none
  | .nop rest => ownValue name rest
  | .prop x _ value rest => if x = name then some value else ownValue name rest
  | .node _ _ rest => ownValue name rest

/-! ### Numbers -/

section Numbers
variable {m : Mem} {p : Word} {v w : ℕ}

theorem setWidth_shift (b : Byte) {k : ℕ} (hk : k ≤ 24) :
    ((b.setWidth 32 <<< k).setWidth 64 : Word) = b.setWidth 64 <<< k := by
  have hb : b.toNat * 2 ^ k < 2 ^ 32 :=
    calc b.toNat * 2 ^ k ≤ 255 * 2 ^ 24 :=
          Nat.mul_le_mul (by omega) (Nat.pow_le_pow_right (by decide) hk)
      _ < 2 ^ 32 := by decide
  apply BitVec.eq_of_toNat_eq
  simp only [BitVec.toNat_setWidth, BitVec.toNat_shiftLeft, Nat.shiftLeft_eq]
  rw [Nat.mod_eq_of_lt (a := b.toNat) (by omega), Nat.mod_eq_of_lt (a := b.toNat) (by omega),
    Nat.mod_eq_of_lt hb]

theorem fdt64_eq (m : Mem) (p : Word) :
    fdt64 m p = (fdt32 m p).setWidth 64 <<< 32 ||| (fdt32 m (p + 4)).setWidth 64 := by
  have h0 : ∀ b : Byte, ((b.setWidth 32).setWidth 64 : Word) = b.setWidth 64 := fun b => by
    apply BitVec.eq_of_toNat_eq
    simp only [BitVec.toNat_setWidth]
    omega
  have h5 : p + 4 + 1 = p + 5 := by bv_omega
  have h6 : p + 4 + 2 = p + 6 := by bv_omega
  have h7 : p + 4 + 3 = p + 7 := by bv_omega
  unfold fdt64 fdt32
  simp only [BitVec.setWidth_or, BitVec.shiftLeft_or_distrib, setWidth_shift _ le_rfl,
    setWidth_shift _ (show 16 ≤ 24 by decide), setWidth_shift _ (show 8 ≤ 24 by decide), h0,
    ← BitVec.shiftLeft_add, h5, h6, h7, BitVec.or_assoc]

theorem fdt64_spec (h : Placed m p (be32 v ++ be32 w)) (hv : v < 2 ^ 32) (hw : w < 2 ^ 32) :
    fdt64 m p = BitVec.ofNat 64 (v * 2 ^ 32 + w) := by
  obtain ⟨h1, h2⟩ := placed_append.1 h
  have h4 : p + BitVec.ofNat 64 (be32 v).length = p + 4 := rfl
  rw [h4] at h2
  apply BitVec.eq_of_toNat_eq
  rw [fdt64_eq, fdt32_spec h1 hv, fdt32_spec h2 hw, BitVec.toNat_or, BitVec.toNat_shiftLeft]
  simp only [BitVec.toNat_setWidth, BitVec.toNat_ofNat]
  have hvm : v % 2 ^ 32 % 2 ^ 64 = v := by omega
  have hwm : w % 2 ^ 32 % 2 ^ 64 = w := by omega
  have hs : v <<< 32 % 2 ^ 64 = v <<< 32 := by
    rw [Nat.shiftLeft_eq]
    omega
  rw [hvm, hwm, hs, ← Nat.shiftLeft_add_eq_or_of_lt hw, Nat.shiftLeft_eq]
  omega

theorem fdt32_wide (h : Placed m p (be32 v)) (hv : v < 2 ^ 32) :
    (fdt32 m p).setWidth 64 = BitVec.ofNat 64 v := by
  rw [fdt32_spec h hv]
  bv_omega

end Numbers

/-! ### What the two branches read -/

section Regions
variable {m : Mem} {p : Word} {c : Cells} {r q : MemoryRegion} {rs : List MemoryRegion}

theorem length_bytes (c : Cells) (r : MemoryRegion) :
    (r.bytes c).length = c.regionSize := by
  cases c <;> rfl

theorem length_regValue (c : Cells) (rs : List MemoryRegion) :
    (regValue c rs).length = rs.length * c.regionSize := by
  induction rs with
  | nil => simp [regValue]
  | cons r rs ih =>
    rw [regValue, List.flatMap_cons, List.length_append, length_bytes, List.length_cons,
      Nat.succ_mul, Nat.add_comm]
    exact congrArg (· + c.regionSize) ih

theorem placed_region (h : Placed m p (regValue c (r :: rs))) :
    Placed m p (r.bytes c) ∧
      Placed m (p + BitVec.ofNat 64 (r.bytes c).length) (regValue c rs) := by
  rw [regValue, List.flatMap_cons] at h
  exact placed_append.1 h

theorem read_two (h : Placed m p (regValue .two (r :: rs))) (hf : r.Fits .two) :
    fdt64 m p = BitVec.ofNat 64 r.base ∧ fdt64 m (p + 8) = BitVec.ofNat 64 r.size := by
  have hfit : r.base < 2 ^ 64 ∧ r.size < 2 ^ 64 := hf
  obtain ⟨hb, hs⟩ := placed_append.1 (placed_region h).1
  have h8 : p + BitVec.ofNat 64 (Cells.two.bytes r.base).length = p + 8 := rfl
  rw [h8] at hs
  rw [fdt64_spec hb (by omega) (by omega), fdt64_spec hs (by omega) (by omega)]
  exact ⟨congrArg _ (by omega), congrArg _ (by omega)⟩

theorem read_one (h : Placed m p (regValue .one (r :: rs))) (hf : r.Fits .one) :
    (fdt32 m p).setWidth 64 = BitVec.ofNat 64 r.base ∧
      (fdt32 m (p + 4)).setWidth 64 = BitVec.ofNat 64 r.size := by
  obtain ⟨hb, hs⟩ := placed_append.1 (placed_region h).1
  have h4 : p + BitVec.ofNat 64 (Cells.one.bytes r.base).length = p + 4 := rfl
  rw [h4] at hs
  exact ⟨fdt32_wide hb hf.1, fdt32_wide hs hf.2⟩

theorem read_pair (h : Placed m p (regValue .one (r :: q :: rs))) (hr : r.Fits .one)
    (hq : q.Fits .one) : fdt64 m p = BitVec.ofNat 64 (r.base * 2 ^ 32 + r.size) ∧
      fdt64 m (p + 8) = BitVec.ofNat 64 (q.base * 2 ^ 32 + q.size) := by
  obtain ⟨h1, h2⟩ := placed_region h
  have h8 : p + BitVec.ofNat 64 (r.bytes .one).length = p + 8 := rfl
  rw [h8] at h2
  exact ⟨fdt64_spec h1 hr.1 hr.2, fdt64_spec (placed_region h2).1 hq.1 hq.2⟩

/-- The region that the code reads from a property of one cell each with more than one region is the
first one exactly if that one and the next are zero. -/
theorem pair_eq_iff (hr : r.Fits .one) (hq : q.Fits .one) :
    BitVec.ofNat 64 (r.base * 2 ^ 32 + r.size) = BitVec.ofNat 64 r.base ∧
        BitVec.ofNat 64 (q.base * 2 ^ 32 + q.size) = BitVec.ofNat 64 r.size ↔
      r = ⟨0, 0⟩ ∧ q = ⟨0, 0⟩ := by
  obtain ⟨rb, rz⟩ := r
  obtain ⟨qb, qz⟩ := q
  have hrf : rb < 2 ^ 32 ∧ rz < 2 ^ 32 := hr
  have hqf : qb < 2 ^ 32 ∧ qz < 2 ^ 32 := hq
  simp only [← BitVec.toNat_inj, BitVec.toNat_ofNat, MemoryRegion.mk.injEq]
  rw [Nat.mod_eq_of_lt (a := rb * 2 ^ 32 + rz) (by omega),
    Nat.mod_eq_of_lt (a := qb * 2 ^ 32 + qz) (by omega), Nat.mod_eq_of_lt (a := rb) (by omega),
    Nat.mod_eq_of_lt (a := rz) (by omega)]
  omega

end Regions

/-! ### The property of the node -/

section Own
variable {m : Mem} {blk strings : Word} {name v : List Byte}

/-- The value of a property of a node stands where the property says. -/
theorem own_of_value : ∀ {t : Items} {p : Word} {o : ℕ}, p.toNat % 4 = 0 → t.Ok m strings →
    t.size < 2 ^ 64 → Placed m p t.bytes → p = blk + BitVec.ofNat 64 o → ownValue name t = some v →
    v.length < 2 ^ 32 ∧ ∃ o', own name t o = some (o', v.length) ∧
      Placed m (blk + BitVec.ofNat 64 o') v
  | .nil, p, o, _, _, _, _, _, hv => by cases hv
  | .nop rest, p, o, hp, hok, hsize, h, hoff, hv => by
    exact own_of_value (t := rest) (aligned_add hp (k := 4) rfl) hok
      (by rw [Items.size] at hsize; omega) (atNop h).rest (offset_add hoff 4) hv
  | .prop x nameoff value rest, p, o, hp, hok, hsize, h, hoff, hv => by
    have hat := atProp hp hok.1.1 hok.1.2.1 h
    rw [ownValue] at hv
    rw [own_prop]
    split_ifs at hv ⊢ with hx
    · obtain rfl := Option.some.inj hv
      refine ⟨hok.1.2.1, o + 12, rfl, ?_⟩
      have hdata : p + 4 + 4 + 4 = blk + BitVec.ofNat 64 (o + 12) :=
        offset_add (offset_add (offset_add hoff 4) 4) 4
      exact hdata ▸ hat.data
    · exact own_of_value (t := rest) (aligned_add hp (Items.propSize_mod value)) hok.2
        (by rw [Items.size] at hsize; omega) hat.rest (offset_add hoff _) hv
  | .node x body rest, p, o, hp, hok, hsize, h, hoff, hv => by
    have hsize' : Items.headSize x + (body.size + (4 + rest.size)) < 2 ^ 64 := hsize
    have hat := atNode hp hok.1 (Items.length_name_lt (by omega)) h
    exact own_of_value (t := rest) (aligned_node hp x body).2 hok.2.2 (by omega) hat.rest
      (offset_node hoff _ _) hv

theorem propsFirst_of_mem {x : Node} : ∀ {t : Items} {o : ℕ} {chain : List (List Byte)},
    PropsFirst t → x ∈ t.nodes o chain → PropsFirst x.body
  | .nop rest, _, _, h, hx => propsFirst_of_mem (t := rest) h hx
  | .prop _ _ _ rest, _, _, h, hx => propsFirst_of_mem (t := rest) h hx
  | .node name body rest, _, _, h, hx => by
    rw [Items.nodes, List.mem_cons, List.mem_append] at hx
    rcases hx with rfl | hx | hx
    · exact h.1
    · exact propsFirst_of_mem h.1 hx
    · exact propsFirst_of_mem h.2.2 hx

end Own

/-! ### The result -/

section Result
variable {m : Mem} {fdt : Word} {d : DeviceTree} {x : Node} {c : Cells} {r : MemoryRegion}
  {rs : List MemoryRegion}
  {v : List Byte}

/-- The nodes that the path `/memory` names. -/
def IsMemory (x : Node) : Prop := Resolves [ascii "memory"] x.chain

instance (x : Node) : Decidable (IsMemory x) := inferInstanceAs (Decidable (Resolves _ _))

theorem memory_offset (h : Encodes m fdt d) (hx : d.nodes.find? (IsMemory ·) = some x) :
    fdtPathOffset m fdt (ascii "/memory") = some (asInt x.off) := by
  have hpath : ascii "/memory" = pathOf [ascii "memory"] := by decide
  have hcs : ∀ c ∈ [ascii "memory"], Component c := fun c hc => by
    rw [List.mem_singleton.1 hc]
    exact ⟨by decide, by decide, by decide⟩
  have hfind : (d.nodes.find? fun x => Resolves [ascii "memory"] x.chain) = some x := hx
  rw [hpath, path_offset h hcs (by decide), hfind]

/-- The node's own property is the first one that the search meets. -/
theorem any_of_value {name : List Byte} (h : Encodes m fdt d) (hp : PropsFirst d.body)
    (hx : x ∈ d.nodes) (hv : ownValue name x.body = some v) :
    v.length < 2 ^ 32 ∧ ∃ o, any name x.body (bodyOff x) = some (o, v.length) ∧
      Placed m (structBlk m fdt + BitVec.ofNat 64 o) v := by
  obtain ⟨⟨⟨rest, hat⟩, hal, hok⟩, hsize⟩ := h.nodeAt hx
  obtain ⟨hlen, o, hown, hplaced⟩ := own_of_value (o := bodyOff x) hal hok (by omega) hat.inner
    (by rw [bodyOff, BitVec.ofNat_add, BitVec.add_assoc]) hv
  have hfirst : PropsFirst x.body := by
    rw [DeviceTree.nodes, List.mem_cons] at hx
    rcases hx with rfl | hx
    · exact hp
    · exact propsFirst_of_mem hp hx
  have hns : ¬Shadowed name x.body := fun hs => by
    have hnone := ((shadowed_iff (o := bodyOff x) hfirst).1 hs).1
    rw [hown] at hnone
    cases hnone
  exact ⟨hlen, o, by rw [any_eq_own hns, hown], hplaced⟩

theorem toInt_of_lt {k : ℕ} (hk : k < 2 ^ 32) :
    (BitVec.ofNat 32 k).toInt = if k < 2 ^ 31 then (k : ℤ) else (k : ℤ) - 2 ^ 32 := by
  rw [BitVec.toInt_eq_toNat_cond, BitVec.toNat_ofNat, Nat.mod_eq_of_lt hk]
  split_ifs <;> omega

/-- What `dtb_get_memory_region` returns: the offset of the node and the length of the property are
`int`s, and the length alone decides how the property is read. -/
theorem region_eq (h : Encodes m fdt d) (hp : PropsFirst d.body)
    (hx : d.nodes.find? (IsMemory ·) = some x) (hv : ownValue (ascii "reg") x.body = some v) :
    ∃ q, Placed m q v ∧ dtbGetMemoryRegion m fdt =
      some (if x.off < 2 ^ 31 ∧ v.length < 2 ^ 31 then
        if 16 ≤ v.length then some (fdt64 m q, fdt64 m (q + 8))
        else if 8 ≤ v.length then some ((fdt32 m q).setWidth 64, (fdt32 m (q + 4)).setWidth 64)
        else none
      else none) := by
  have hmem := List.mem_of_find?_eq_some hx
  have hsize := (h.nodeAt hmem).2
  obtain ⟨hlen, o, hany, hplaced⟩ := any_of_value h hp hmem hv
  refine ⟨_, hplaced, ?_⟩
  have hoff32 := toInt_of_lt (k := x.off) (by omega)
  have hlen32 := toInt_of_lt hlen
  rw [dtbGetMemoryRegion, memory_offset h hx]
  dsimp only
  by_cases hoff : x.off < 2 ^ 31
  · rw [if_pos hoff] at hoff32
    have h0 : (0 : Byte) ∉ ascii "reg" := by decide
    have hget := getprop_any h hmem hoff h0
    rw [asInt, if_neg (by omega), BitVec.ofInt_toInt, hget, hany, Option.map_some]
    dsimp only [found]
    by_cases hl : v.length < 2 ^ 31
    · rw [if_pos hl] at hlen32
      have hfit : x.off < 2 ^ 31 ∧ v.length < 2 ^ 31 := ⟨hoff, hl⟩
      rw [hlen32, if_pos hfit]
      simp only [ge_iff_le, Nat.ofNat_le_cast]
      split_ifs <;> rfl
    · rw [if_neg hl] at hlen32
      rw [if_neg (by omega), if_neg (by omega), if_neg fun hc => hl hc.2]
  · rw [if_neg hoff] at hoff32
    rw [asInt, if_pos (by omega), if_neg fun hc => hoff hc.1]

/-- **When the first region is returned**: if the offset and the length fit an `int`, and the property
has two cells each, or one region only, or its first two regions are empty and at 0. -/
theorem region_iff (h : Encodes m fdt d) (hp : PropsFirst d.body)
    (hx : d.nodes.find? (IsMemory ·) = some x)
    (hv : ownValue (ascii "reg") x.body = some (regValue c (r :: rs)))
    (hf : ∀ q ∈ r :: rs, q.Fits c) :
    dtbGetMemoryRegion m fdt = some (some (BitVec.ofNat 64 r.base, BitVec.ofNat 64 r.size)) ↔
      x.off < 2 ^ 31 ∧ (regValue c (r :: rs)).length < 2 ^ 31 ∧
        (c = .two ∨ rs = [] ∨ ∃ q qs, rs = q :: qs ∧ r = ⟨0, 0⟩ ∧ q = ⟨0, 0⟩) := by
  obtain ⟨p, hplaced, heq⟩ := region_eq h hp hx hv
  have hr := hf r (List.mem_cons_self ..)
  rw [heq, Option.some.injEq, ← and_assoc]
  by_cases hfit : x.off < 2 ^ 31 ∧ (regValue c (r :: rs)).length < 2 ^ 31
  swap
  · rw [if_neg hfit]
    exact iff_of_false (by simp) fun hc => hfit hc.1
  rw [if_pos hfit, and_iff_right hfit]
  have hlen := length_regValue c (r :: rs)
  rw [List.length_cons] at hlen
  cases c with
  | two =>
    rw [Cells.regionSize] at hlen
    rw [if_pos (by omega), (read_two hplaced hr).1, (read_two hplaced hr).2]
    exact iff_of_true rfl (.inl rfl)
  | one =>
    cases rs with
    | nil =>
      rw [List.length_nil, Cells.regionSize] at hlen
      rw [if_neg (by omega), if_pos (by omega), (read_one hplaced hr).1, (read_one hplaced hr).2]
      exact iff_of_true rfl (.inr (.inl rfl))
    | cons q qs =>
      have hq := hf q (List.mem_cons_of_mem _ (List.mem_cons_self ..))
      rw [List.length_cons, Cells.regionSize] at hlen
      rw [if_pos (by omega), (read_pair hplaced hr hq).1, (read_pair hplaced hr hq).2,
        Option.some.injEq, Prod.mk.injEq, pair_eq_iff hr hq]
      constructor
      · exact fun hz => .inr (.inr ⟨q, qs, rfl, hz⟩)
      · rintro (hc | hc | ⟨q', qs', he, hz⟩)
        · cases hc
        · cases hc
        · obtain rfl := (List.cons.inj he).1
          exact hz

end Result

/-! ### Two trees -/

/-- A region of two cells each, or two regions of one cell each: 16 bytes either way. -/
def sampleRegions : Cells → List MemoryRegion
  | .two => [⟨0x80000000, 0x100000000⟩]
  | .one => [⟨0x80000000, 0x10000000⟩, ⟨0xa0000000, 0x8000000⟩]

/-- A tree with the node `/memory` alone. -/
def memoryTree (c : Cells) : DeviceTree :=
  ⟨0, [], .node (ascii "memory@80000000")
    (.prop (ascii "reg") 0 (regValue c (sampleRegions c)) .nil) .nil, 0⟩

/-- A memory with the tree at the address 4096. -/
def memoryMem (c : Cells) : Mem := (memoryTree c).mem (ascii "reg" ++ [0])

/-- The node `/memory`. -/
def memoryNode (c : Cells) : Node :=
  ⟨8, [ascii "memory@80000000"], ascii "memory@80000000",
    .prop (ascii "reg") 0 (regValue c (sampleRegions c)) .nil⟩

theorem encodes_memoryTree (c : Cells) : Encodes (memoryMem c) 4096 (memoryTree c) := by
  have hsize : 40 + (memoryTree c).structBlock.length + (ascii "reg" ++ [0]).length < 2 ^ 32 := by
    cases c <;> decide +kernel
  have hreads := DeviceTree.reads_mem [] (ascii "reg") [] hsize (by simp) (by decide)
  have h0 : (0 : Byte) ∉ ascii "memory@80000000" := by decide
  have hlen : (regValue c (sampleRegions c)).length < 2 ^ 32 := by cases c <;> decide
  exact DeviceTree.encodes_mem hsize ⟨List.not_mem_nil, ⟨h0, ⟨⟨by decide, hlen, hreads⟩, trivial⟩,
    trivial⟩, trivial⟩

theorem find_memoryNode (c : Cells) :
    (memoryTree c).nodes.find? (IsMemory ·) = some (memoryNode c) := by
  have hroot : ¬IsMemory (memoryTree c).root := by
    rintro ⟨⟩
  have hnode : IsMemory (memoryNode c) := by
    show Resolves [ascii "memory"] [ascii "memory@80000000"]
    decide
  have hnodes : (memoryTree c).nodes = [(memoryTree c).root, memoryNode c] := by
    simp [DeviceTree.nodes, memoryTree, memoryNode, Items.nodes, Items.headSize, roundUp]
  rw [hnodes, List.find?_cons_of_neg (by simpa using hroot),
    List.find?_cons_of_pos (by simpa using hnode)]

theorem region_sample : dtbGetMemoryRegion (memoryMem .two) 4096 =
    some (some (BitVec.ofNat 64 0x80000000, BitVec.ofNat 64 0x100000000)) :=
  (region_iff (encodes_memoryTree .two) ⟨trivial, trivial, trivial⟩ (find_memoryNode .two) rfl
    (by decide)).mpr ⟨by decide, by decide, .inl rfl⟩

/-- **Two regions of one cell each**: the first one is not what is returned. -/
theorem not_region_pair : Encodes (memoryMem .one) 4096 (memoryTree .one) ∧
    PropsFirst (memoryTree .one).body ∧
    (memoryTree .one).nodes.find? (IsMemory ·) = some (memoryNode .one) ∧
    ownValue (ascii "reg") (memoryNode .one).body = some (regValue .one (sampleRegions .one)) ∧
    (∀ q ∈ sampleRegions .one, q.Fits .one) ∧
    dtbGetMemoryRegion (memoryMem .one) 4096 = some (some (0x8000000010000000, 0xa000000008000000)) ∧
    dtbGetMemoryRegion (memoryMem .one) 4096 ≠
      some (some (BitVec.ofNat 64 0x80000000, BitVec.ofNat 64 0x10000000)) := by
  refine ⟨encodes_memoryTree .one, ⟨trivial, trivial, trivial⟩, find_memoryNode .one, rfl, by decide,
    ?_, ?_⟩
  · decide +kernel
  · decide +kernel

end OscKernel.Fdt.Region
