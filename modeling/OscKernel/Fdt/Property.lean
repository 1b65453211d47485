import OscKernel.Fdt.Path

/-! # `fdt_getprop`

The walk counts how deep it is below the node, but compares the names of all properties that it
meets.

* `fdtGetprop`: the source.
* `getprop_any`: it finds the first property of that name in the node or below it.
* `getprop_iff`: when that is the first one of the node itself. -/

namespace OscKernel.Fdt.Property

open OscKernel.Lib.Memory OscKernel.Initrd.KString OscKernel.Initrd.Cpio OscKernel.Fdt.Format
open OscKernel.Fdt.Path

/-! ### The source -/

/-- What `fdt_getprop` finds: the data pointer, and the length for `*lenp`. -/
abbrev Found := Word × BitVec 32

/-- The loop of `fdt_getprop`. -/
def getpropLoop (m : Mem) (stringsBlk : Word) (name : List Byte) :
    ℕ → Word → ℤ → Option (Option Found)
  | 0, _, _ => none
  | n + 1, p, depth =>
    if fdt32 m p = propToken then
      let len := fdt32 m (p + 4)
      let nameoff := fdt32 m (p + 4 + 4)
      let propData := p + 4 + 4 + 4
      match kstrcmp (bytesAt m (stringsBlk + nameoff.setWidth 64)) (cstr name) with
      | none => none
      | some r =>
        if r = 0 then some (some (propData, len))
        else getpropLoop m stringsBlk name n (alignUpVal (propData + len.setWidth 64) 4) depth
    else if fdt32 m p = beginNode then
      match kstrlen (bytesAt m (p + 4)) with
      | none => none
      | some len =>
        getpropLoop m stringsBlk name n (alignUpVal (p + 4 + BitVec.ofNat 64 len + 1) 4)
          (cInt (depth + 1))
    else if fdt32 m p = endNode then
      if depth = 0 then some none else getpropLoop m stringsBlk name n (p + 4) (cInt (depth - 1))
    else if fdt32 m p = nopToken then getpropLoop m stringsBlk name n (p + 4) depth
    else if fdt32 m p = endToken then some none
    else some none

/-- `fdt_getprop`; the inner `none` is the null pointer. -/
def fdtGetprop (m : Mem) (fdt : Word) (nodeoffset : BitVec 32) (name : List Byte) :
    Option (Option Found) :=
  if fdt32 m fdt ≠ 0xd00dfeed then some none
  else
    let p := structBlk m fdt + nodeoffset.signExtend 64
    if fdt32 m p ≠ beginNode then some none
    else
      match kstrlen (bytesAt m (p + 4)) with
      | none => none
      | some len =>
        getpropLoop m (stringsBlk m fdt) name (2 ^ 64)
          (alignUpVal (p + 4 + BitVec.ofNat 64 len + 1) 4) 0

/-! ### Properties of a node -/

/-- The first property called `name` among the items at the offset `off`: the offset of its data and
their length. The properties of the nodes below count if `deep` is set. -/
def first (deep : Bool) (name : List Byte) : Items → ℕ → Option (ℕ × ℕ)
  | .nil, _ => none
  | .nop rest, o => first deep name rest (o + 4)
  | .prop x _ value rest, o =>
    if x = name then some (o + 12, value.length)
    else first deep name rest (o + Items.propSize value)
  | .node x body rest, o =>
    (if deep then first deep name body (o + Items.headSize x) else none).or
      (first deep name rest (o + Items.headSize x + body.size + 4))

/-- The first property of the node itself. -/
abbrev own (name : List Byte) (t : Items) (o : ℕ) : Option (ℕ × ℕ) := first false name t o

/-- The first property of the node or of one below. -/
abbrev any (name : List Byte) (t : Items) (o : ℕ) : Option (ℕ × ℕ) := first true name t o

/-- Some property of the items or below them is called `name`. -/
def Occurs (name : List Byte) : Items → Prop
  | .nil => False
  | .nop rest => Occurs name rest
  | .prop x _ _ rest => x = name ∨ Occurs name rest
  | .node _ body rest => Occurs name body ∨ Occurs name rest

/-- A property called `name` of a node below stands before all those of the node itself. -/
def Shadowed (name : List Byte) : Items → Prop
  | .nil => False
  | .nop rest => Shadowed name rest
  | .prop x _ _ rest => x ≠ name ∧ Shadowed name rest
  | .node _ body rest => Occurs name body ∨ Shadowed name rest

section Items
variable {name x value : List Byte} {r : ℕ × ℕ} {deep : Bool} {body rest : Items} {o nameoff : ℕ}

theorem any_node : any name (.node x body rest) o =
    (any name body (o + Items.headSize x)).or
      (any name rest (o + Items.headSize x + body.size + 4)) := rfl

theorem own_node : own name (.node x body rest) o =
    own name rest (o + Items.headSize x + body.size + 4) := rfl

theorem any_prop : any name (.prop x nameoff value rest) o =
    if x = name then some (o + 12, value.length)
    else any name rest (o + Items.propSize value) := rfl

theorem own_prop : own name (.prop x nameoff value rest) o =
    if x = name then some (o + 12, value.length)
    else own name rest (o + Items.propSize value) := rfl

theorem first_bounds : ∀ {t : Items} {o : ℕ}, first deep name t o = some r →
    o + 12 ≤ r.1 ∧ r.1 ≤ o + t.size
  | .nil, o, h => by cases h
  | .nop rest, o, h => by
    have := first_bounds (t := rest) h
    rw [Items.size]
    omega
  | .prop x nameoff value rest, o, h => by
    rw [first] at h
    rw [Items.size, Items.propSize]
    split_ifs at h with hx
    · cases h
      exact ⟨le_rfl, by omega⟩
    · have := first_bounds (t := rest) h
      unfold Items.propSize at this
      omega
  | .node x body rest, o, h => by
    rw [first, Option.or_eq_some_iff] at h
    rw [Items.size]
    rcases h with h | ⟨-, h⟩
    · split_ifs at h
      have := first_bounds (t := body) h
      omega
    · have := first_bounds (t := rest) h
      omega

theorem occurs_iff : ∀ {t : Items} {o : ℕ}, Occurs name t ↔ ∃ r, any name t o = some r
  | .nil, o => by simp [Occurs, first]
  | .nop rest, o => occurs_iff (t := rest)
  | .prop x nameoff value rest, o => by
    rw [Occurs, any_prop]
    split_ifs with hx
    · simp [hx]
    · rw [or_iff_right hx]
      exact occurs_iff
  | .node x body rest, o => by
    rw [Occurs, any_node, occurs_iff (t := body) (o := o + Items.headSize x),
      occurs_iff (t := rest) (o := o + Items.headSize x + body.size + 4)]
    cases any name body (o + Items.headSize x) <;> simp

theorem any_eq_own : ∀ {t : Items} {o : ℕ}, ¬ Shadowed name t → any name t o = own name t o
  | .nil, o, _ => rfl
  | .nop rest, o, h => any_eq_own (t := rest) h
  | .prop x nameoff value rest, o, h => by
    rw [any_prop, own_prop]
    split_ifs with hx
    · rfl
    · exact any_eq_own fun hs => h ⟨hx, hs⟩
  | .node x body rest, o, h => by
    rw [Shadowed, not_or, occurs_iff (o := o + Items.headSize x)] at h
    have hnone : any name body (o + Items.headSize x) = none :=
      Option.eq_none_iff_forall_not_mem.2 fun r hr => h.1 ⟨r, hr⟩
    rw [any_node, own_node, hnone, Option.none_or]
    exact any_eq_own h.2

/-- A property of a node below that stands in front is another one than the node's own. -/
theorem any_of_shadowed : ∀ {t : Items} {o : ℕ}, Shadowed name t →
    ∃ r, any name t o = some r ∧ ∀ r', own name t o = some r' → r.1 < r'.1
  | .nop rest, o, h => any_of_shadowed (t := rest) h
  | .prop x nameoff value rest, o, h => by
    rw [any_prop, own_prop, if_neg h.1, if_neg h.1]
    exact any_of_shadowed h.2
  | .node x body rest, o, h => by
    rw [any_node, own_node]
    cases hb : any name body (o + Items.headSize x) with
    | some r =>
      refine ⟨r, rfl, fun r' hr' => ?_⟩
      have h1 := first_bounds hb
      have h2 := first_bounds hr'
      omega
    | none =>
      refine any_of_shadowed (h.resolve_left fun ho => ?_)
      obtain ⟨r, hr⟩ := (occurs_iff (o := o + Items.headSize x)).1 ho
      rw [hb] at hr
      cases hr

/-- No properties among the items. -/
def NoProps : Items → Prop
  | .nil => True
  | .nop rest => NoProps rest
  | .prop .. => False
  | .node _ _ rest => NoProps rest

/-- The properties of every node stand before the nodes below it. -/
def PropsFirst : Items → Prop
  | .nil => True
  | .nop rest => PropsFirst rest
  | .prop _ _ _ rest => PropsFirst rest
  | .node _ body rest => PropsFirst body ∧ NoProps rest ∧ PropsFirst rest

theorem own_noProps : ∀ {t : Items} {o : ℕ}, NoProps t → own name t o = none
  | .nil, _, _ => rfl
  | .nop rest, _, h => own_noProps (t := rest) h
  | .node _ _ rest, _, h => own_noProps (t := rest) h

/-- In a tree with the properties first, only a property that the node lacks is taken from below. -/
theorem shadowed_iff : ∀ {t : Items} {o : ℕ}, PropsFirst t →
    (Shadowed name t ↔ own name t o = none ∧ Occurs name t)
  | .nil, o, _ => by simp [Shadowed, Occurs]
  | .nop rest, o, h => shadowed_iff (t := rest) h
  | .prop x nameoff value rest, o, h => by
    rw [Shadowed, Occurs, own_prop,
      shadowed_iff (t := rest) (o := o + Items.propSize value) h]
    by_cases hx : x = name
    · simp [hx]
    · simp [hx]
  | .node x body rest, o, h => by
    rw [Shadowed, Occurs, own_node,
      shadowed_iff (t := rest) (o := o + Items.headSize x + body.size + 4) h.2.2,
      own_noProps h.2.1]
    simp

end Items

/-! ### The walk -/

section Walk
variable {m : Mem} {blk strings p : Word} {n nameoff : ℕ} {depth : ℤ} {name x value : List Byte}
  {body rest : Items}

theorem reads_cstr {l : List Byte} (h : (0 : Byte) ∉ l) : Reads (cstr l) l :=
  ⟨fun _ hi => List.getD_eq_getElem _ _ hi, List.getD_eq_default _ _ le_rfl, h⟩

theorem getpropLoop_nop (h : AtNop m p rest) :
    getpropLoop m strings name (n + 1) p depth = getpropLoop m strings name n (p + 4) depth := by
  rw [getpropLoop, h.token, if_neg (by decide), if_neg (by decide), if_neg (by decide), if_pos rfl]

theorem getpropLoop_prop (h : AtProp m p nameoff value rest) (hoff : nameoff < 2 ^ 32)
    (hx : Reads (bytesAt m (strings + BitVec.ofNat 64 nameoff)) x) (h0 : (0 : Byte) ∉ name) :
    getpropLoop m strings name (n + 1) p depth =
      if x = name then some (some (p + 4 + 4 + 4, BitVec.ofNat 32 value.length))
      else getpropLoop m strings name n (p + BitVec.ofNat 64 (Items.propSize value)) depth := by
  have hw : (BitVec.ofNat 32 nameoff).setWidth 64 = BitVec.ofNat 64 nameoff := by bv_omega
  obtain ⟨r, hr, hz⟩ := kstrcmpFrom_spec hx (reads_cstr h0) hx.length_lt
  rw [getpropLoop, h.token, if_pos rfl, h.off, h.len]
  dsimp only
  rw [hw, kstrcmp, hr, h.next]
  simp only [hz]

theorem getpropLoop_node (h : AtNode m p x body rest) :
    getpropLoop m strings name (n + 1) p depth =
      getpropLoop m strings name n (p + BitVec.ofNat 64 (Items.headSize x)) (cInt (depth + 1)) := by
  rw [getpropLoop, h.token, if_neg (by decide), if_pos rfl, h.len]
  dsimp only
  rw [h.next]

theorem getpropLoop_endNode (h : fdt32 m p = endNode) :
    getpropLoop m strings name (n + 1) p depth =
      if depth = 0 then some none else getpropLoop m strings name n (p + 4) (cInt (depth - 1)) := by
  rw [getpropLoop, h, if_neg (by decide), if_neg (by decide), if_pos rfl]

/-- What the code returns for the data at an offset. -/
def found (blk : Word) (r : ℕ × ℕ) : Found :=
  (blk + BitVec.ofNat 64 r.1, BitVec.ofNat 32 r.2)

/-- **The walk through a list of items** stops at the first property of that name, at any depth, or
goes on behind them as it came. -/
theorem getpropLoop_items (h0 : (0 : Byte) ∉ name) : ∀ (t : Items) {p : Word} {o n : ℕ} {depth : ℤ},
    p.toNat % 4 = 0 → t.Ok m strings → Placed m p t.bytes →
    p = blk + BitVec.ofNat 64 o → 0 ≤ depth ∧ 8 * depth + t.size < 2 ^ 32 →
    getpropLoop m strings name (n + t.count) p depth =
      match any name t o with
      | some r => some (some (found blk r))
      | none => getpropLoop m strings name n (p + BitVec.ofNat 64 t.size) depth
  | .nil, p, o, n, depth, _, _, _, _, _ => by
    simp [first, Items.count, Items.size]
  | .nop rest, p, o, n, depth, hp, hok, h, hoff, hd => by
    have hat := atNop h
    have hp' : (p + 4).toNat % 4 = 0 := aligned_add hp (k := 4) rfl
    rw [Items.count, ← Nat.add_assoc, getpropLoop_nop hat,
      getpropLoop_items h0 rest hp' hok hat.rest (offset_add hoff 4)
        (by rw [Items.size] at hd; omega), end_nop]
    rfl
  | .prop x nameoff value rest, p, o, n, depth, hp, hok, h, hoff, hd => by
    have hat := atProp hp hok.1.1 hok.1.2.1 h
    have hp' := aligned_add hp (Items.propSize_mod value)
    have hdata : p + 4 + 4 + 4 = blk + BitVec.ofNat 64 (o + 12) :=
      offset_add (offset_add (offset_add hoff 4) 4) 4
    rw [Items.count, ← Nat.add_assoc, getpropLoop_prop hat hok.1.1 hok.1.2.2 h0, any_prop]
    by_cases hx : x = name
    · rw [if_pos hx, if_pos hx, hdata]
      rfl
    · rw [if_neg hx, if_neg hx, getpropLoop_items h0 rest hp' hok.2 hat.rest
        (offset_add hoff _) (by rw [Items.size] at hd; omega), end_prop p x nameoff]
  | .node x body rest, p, o, n, depth, hp, hok, h, hoff, hd => by
    have hhead := Items.headSize_ge x
    rw [Items.size] at hd
    have hat := atNode hp hok.1 (Items.length_name_lt (by omega)) h
    obtain ⟨hp1, hp3⟩ := aligned_node hp x body
    have hround : n + (Items.node x body rest).count = n + rest.count + 1 + body.count + 1 := by
      rw [Items.count]
      omega
    have hdown : cInt (depth + 1) = depth + 1 := cInt_eq (by omega) (by omega)
    have hup : cInt (depth + 1 - 1) = depth := by
      rw [add_sub_cancel_right, cInt_eq (by omega) (by omega)]
    rw [hround, getpropLoop_node hat, hdown, getpropLoop_items h0 body hp1 hok.2.1 hat.inner
      (offset_add hoff _) (by omega), any_node]
    cases hfind : any name body (o + Items.headSize x) with
    | some r => rfl
    | none =>
      dsimp only
      rw [getpropLoop_endNode hat.ends, if_neg (by omega), hup,
        getpropLoop_items h0 rest hp3 hok.2.2 hat.rest (offset_node hoff _ _) (by omega), end_node,
        Option.none_or]

/-! ### The result -/

theorem signExtend_of_lt {o : ℕ} (h : o < 2 ^ 31) :
    (BitVec.ofNat 32 o).signExtend 64 = BitVec.ofNat 64 o := by
  have hmsb : (BitVec.ofNat 32 o).msb = false := by
    rw [BitVec.msb_eq_false_iff_two_mul_lt, BitVec.toNat_ofNat]
    omega
  rw [BitVec.signExtend_eq_setWidth_of_msb_false hmsb]
  bv_omega

variable {fdt : Word} {d : DeviceTree} {node : Node}

/-- Where the items of a node start. -/
def bodyOff (node : Node) : ℕ := node.off + Items.headSize node.name

/-- **`fdt_getprop` finds the first property of that name in the node or below it.** -/
theorem getprop_any (h : Encodes m fdt d) (hx : node ∈ d.nodes) (hoff : node.off < 2 ^ 31)
    (h0 : (0 : Byte) ∉ name) :
    fdtGetprop m fdt (BitVec.ofNat 32 node.off) name =
      some ((any name node.body (bodyOff node)).map (found (structBlk m fdt))) := by
  obtain ⟨⟨⟨rest, hat⟩, hal, hok⟩, hsize⟩ := h.nodeAt hx
  have hcount := node.body.count_le_size
  obtain ⟨n, hn⟩ : ∃ n, 2 ^ 64 = n + 1 + node.body.count := ⟨2 ^ 64 - (node.body.count + 1), by omega⟩
  have hmagic := h.magic
  rw [fdtGetprop, if_neg (not_not.2 hmagic)]
  dsimp only
  rw [signExtend_of_lt hoff, if_neg (not_not.2 hat.token), hat.len]
  dsimp only
  rw [hat.next, hn, getpropLoop_items h0 node.body hal hok hat.inner
    (o := bodyOff node) (by rw [bodyOff, BitVec.ofNat_add, BitVec.add_assoc]) ⟨le_rfl, by omega⟩]
  cases any name node.body (bodyOff node) with
  | some r => rfl
  | none =>
    dsimp only
    rw [getpropLoop_endNode hat.ends, if_pos rfl]
    rfl

/-- **When `fdt_getprop` reads the given node**: unless a property of that name of a node below
stands before all those of the node itself. -/
theorem getprop_iff (h : Encodes m fdt d) (hx : node ∈ d.nodes) (hoff : node.off < 2 ^ 31)
    (h0 : (0 : Byte) ∉ name) :
    fdtGetprop m fdt (BitVec.ofNat 32 node.off) name =
        some ((own name node.body (bodyOff node)).map (found (structBlk m fdt))) ↔
      ¬ Shadowed name node.body := by
  have hsize := (h.nodeAt hx).2
  rw [getprop_any h hx hoff h0, Option.some.injEq]
  refine ⟨fun heq hs => ?_, fun hs => by rw [any_eq_own hs]⟩
  obtain ⟨r, hr, hlt⟩ := any_of_shadowed (o := bodyOff node) hs
  rw [hr, Option.map_some, eq_comm, Option.map_eq_some_iff] at heq
  obtain ⟨r', hr', heq⟩ := heq
  have hlt := hlt r' hr'
  have hle := (first_bounds hr').2
  have hptr := congrArg Prod.fst heq
  unfold bodyOff at hle
  dsimp only [found] at hptr
  bv_omega

theorem getprop_iff_sample :
    fdtGetprop treeMem 4096 12 (ascii "reg") =
      some ((own (ascii "reg") (Items.nop (.prop (ascii "reg") 0 [1, 2, 3, 4, 5, 6, 7, 8] .nil)) 24).map
        (found (structBlk treeMem 4096))) := by
  have hmem : (⟨12, [ascii "soc@0"], ascii "soc@0",
      .nop (.prop (ascii "reg") 0 [1, 2, 3, 4, 5, 6, 7, 8] .nil)⟩ : Node) ∈ sampleTree.nodes := by
    simp [DeviceTree.nodes, sampleTree, Items.nodes, Items.headSize, roundUp]
  exact (getprop_iff encodes_sampleTree hmem (by decide) (by decide)).2 fun h => h.1 rfl

/-- **The root has no `reg`**, and gets that of the node below it. -/
theorem not_own_sample : Encodes treeMem 4096 sampleTree ∧ sampleTree.root ∈ sampleTree.nodes ∧
    fdtPathOffset treeMem 4096 (ascii "/") = some sampleTree.root.off ∧
    own (ascii "reg") sampleTree.root.body (bodyOff sampleTree.root) = none ∧
    fdtGetprop treeMem 4096 (BitVec.ofNat 32 sampleTree.root.off) (ascii "reg") ≠ some none := by
  refine ⟨encodes_sampleTree, List.mem_cons_self .., ?_, ?_, ?_⟩
  · decide +kernel
  · decide +kernel
  · decide +kernel

end Walk

end OscKernel.Fdt.Property
