import OscKernel.Initrd.Lookup

/-! # Flattened device trees

The structure block of a device tree is a sequence of tokens: a node begins with its name and ends
after its properties and the nodes below it, and a NOP may stand before every token.

* `Items.bytes`, `DeviceTree.structBlock`: the bytes of a tree.
* `Encodes`: a tree in memory.
* `fdt32_spec`, `Placed.nop`, `Placed.prop`, `Placed.node`: what the code reads at a token. -/

namespace OscKernel.Fdt.Format

open OscKernel.Lib.Memory OscKernel.Initrd.KString OscKernel.Initrd.Cpio OscKernel.Initrd.Lookup

/-! ### The format -/

/-- What stands between the beginning of a node and its end. The name of a property is that at the
offset `nameoff` of the strings block. -/
inductive Items
  | nil
  | nop (rest : Items)
  | prop (name : List Byte) (nameoff : ℕ) (value : List Byte) (rest : Items)
  | node (name : List Byte) (body rest : Items)

/-- A number in four bytes, the most significant first. -/
def be32 (v : ℕ) : List Byte :=
  [BitVec.ofNat 8 (v / 2 ^ 24), BitVec.ofNat 8 (v / 2 ^ 16), BitVec.ofNat 8 (v / 2 ^ 8),
    BitVec.ofNat 8 v]

/-- The bytes and the padding behind them. -/
def padded (l : List Byte) : List Byte := l ++ padding l.length

/-- `FDT_BEGIN_NODE`. -/
def beginNode : BitVec 32 := 1

/-- `FDT_END_NODE`. -/
def endNode : BitVec 32 := 2

/-- `FDT_PROP`. -/
def propToken : BitVec 32 := 3

/-- `FDT_NOP`. -/
def nopToken : BitVec 32 := 4

/-- `FDT_END`. -/
def endToken : BitVec 32 := 9

/-- A token in the structure block. -/
def token (t : BitVec 32) : List Byte := be32 t.toNat

namespace Items

/-- The tokens of a list of items. -/
def bytes : Items → List Byte
  | nil => []
  | nop rest => token nopToken ++ rest.bytes
  | prop _ nameoff value rest =>
    token propToken ++ (be32 value.length ++ (be32 nameoff ++ (padded value ++ rest.bytes)))
  | node name body rest =>
    token beginNode ++ (padded (name ++ [0]) ++ (body.bytes ++ (token endNode ++ rest.bytes)))

/-- The length of the head of a node: the token and the name. -/
def headSize (name : List Byte) : ℕ := 4 + roundUp (name.length + 1)

/-- The length of a property. -/
def propSize (value : List Byte) : ℕ := 12 + roundUp value.length

/-- The length of the tokens. -/
def size : Items → ℕ
  | nil => 0
  | nop rest => 4 + rest.size
  | prop _ _ value rest => propSize value + rest.size
  | node name body rest => headSize name + (body.size + (4 + rest.size))

/-- The number of tokens. -/
def count : Items → ℕ
  | nil => 0
  | nop rest => rest.count + 1
  | prop _ _ _ rest => rest.count + 1
  | node _ body rest => rest.count + 1 + body.count + 1

/-- The names have no null, and the numbers fit into their fields; the strings block at `strings` has
the names of the properties. -/
def Ok (m : Mem) (strings : Word) : Items → Prop
  | nil => True
  | nop rest => rest.Ok m strings
  | prop name nameoff value rest =>
    (nameoff < 2 ^ 32 ∧ value.length < 2 ^ 32 ∧
      Reads (bytesAt m (strings + BitVec.ofNat 64 nameoff)) name) ∧ rest.Ok m strings
  | node name body rest => (0 : Byte) ∉ name ∧ body.Ok m strings ∧ rest.Ok m strings

end Items

/-- A node of a tree: its offset in the structure block, the names on the way to it from below the
root, and what stands in it. -/
structure Node where
  off : ℕ
  chain : List (List Byte)
  name : List Byte
  body : Items

namespace Items

/-- The nodes in document order, for items at the offset `off` in the node that `chain` leads to. -/
def nodes : Items → ℕ → List (List Byte) → List Node
  | nil, _, _ => []
  | nop rest, off, chain => rest.nodes (off + 4) chain
  | prop _ _ value rest, off, chain => rest.nodes (off + propSize value) chain
  | node name body rest, off, chain =>
    ⟨off, chain ++ [name], name, body⟩ ::
      (body.nodes (off + headSize name) (chain ++ [name]) ++
        rest.nodes (off + headSize name + body.size + 4) chain)

/-- `k` NOPs before the items. -/
def nops : ℕ → Items → Items
  | 0, t => t
  | k + 1, t => nop (nops k t)

end Items

/-- A device tree: the root, with NOPs around it. -/
structure DeviceTree where
  before : ℕ
  name : List Byte
  body : Items
  after : ℕ

namespace DeviceTree

def items (d : DeviceTree) : Items := .nops d.before (.node d.name d.body (.nops d.after .nil))

/-- The root. -/
def root (d : DeviceTree) : Node := ⟨4 * d.before, [], d.name, d.body⟩

/-- The nodes in document order. -/
def nodes (d : DeviceTree) : List Node :=
  d.root :: d.body.nodes (4 * d.before + Items.headSize d.name) []

/-- The structure block. -/
def structBlock (d : DeviceTree) : List Byte := d.items.bytes ++ token endToken

end DeviceTree

/-! ### Reading -/

/-- `fdt32`. -/
def fdt32 (m : Mem) (p : Word) : BitVec 32 :=
  ((m p).setWidth 32 <<< 24) ||| ((m (p + 1)).setWidth 32 <<< 16) |||
    ((m (p + 2)).setWidth 32 <<< 8) ||| (m (p + 3)).setWidth 32

/-- `hdr->off_dt_struct`. -/
def offDtStruct (m : Mem) (fdt : Word) : BitVec 32 := fdt32 m (fdt + 8)

/-- `hdr->off_dt_strings`. -/
def offDtStrings (m : Mem) (fdt : Word) : BitVec 32 := fdt32 m (fdt + 12)

/-- Where the structure block starts. -/
def structBlk (m : Mem) (fdt : Word) : Word := fdt + (offDtStruct m fdt).setWidth 64

/-- Where the strings block starts. -/
def stringsBlk (m : Mem) (fdt : Word) : Word := fdt + (offDtStrings m fdt).setWidth 64

/-- The loop of `kstrlen`, from the position `i` on. -/
def kstrlenFrom (s : ℕ → Byte) : ℕ → ℕ → Option ℕ
  | 0, _ => none
  | n + 1, i => if s i ≠ 0 then kstrlenFrom s n (i + 1) else some i

/-- `kstrlen`. -/
def kstrlen (s : ℕ → Byte) : Option ℕ := kstrlenFrom s (2 ^ 64) 0

/-- The device tree `d` at the address `fdt`. -/
structure Encodes (m : Mem) (fdt : Word) (d : DeviceTree) : Prop where
  magic : fdt32 m fdt = 0xd00dfeed
  aligned : (structBlk m fdt).toNat % 4 = 0
  block : Placed m (structBlk m fdt) d.structBlock
  size : d.structBlock.length < 2 ^ 32
  ok : d.items.Ok m (stringsBlk m fdt)

section Tokens
variable {m : Mem} {p q strings : Word} {l name value : List Byte} {nameoff : ℕ}
  {body rest : Items}

@[simp] theorem length_be32 (v : ℕ) : (be32 v).length = 4 := rfl

@[simp] theorem length_token (t : BitVec 32) : (token t).length = 4 := rfl

@[simp] theorem length_padded (l : List Byte) : (padded l).length = roundUp l.length := by
  have := le_roundUp l.length
  rw [padded, List.length_append, length_padding]
  omega

theorem Items.length_bytes (t : Items) : t.bytes.length = t.size := by
  induction t with
  | nil => rfl
  | nop rest ih => simp only [bytes, size, List.length_append, length_token, ih]
  | prop name nameoff value rest ih =>
    simp only [bytes, size, propSize, List.length_append, length_be32, length_token, length_padded, ih]
    omega
  | node name body rest ihb ih =>
    simp only [bytes, size, headSize, List.length_append, length_token, length_padded, ihb, ih,
      List.length_singleton]
    omega

theorem Items.count_le_size (t : Items) : t.count ≤ t.size := by
  induction t with
  | nil => exact le_rfl
  | nop rest ih => unfold count size; omega
  | prop name nameoff value rest ih => unfold count size propSize; omega
  | node name body rest ihb ih => unfold count size headSize; omega

theorem Items.four_dvd_size (t : Items) : t.size % 4 = 0 := by
  induction t with
  | nil => rfl
  | nop rest ih => unfold size; omega
  | prop name nameoff value rest ih => unfold size propSize roundUp; omega
  | node name body rest ihb ih => unfold size headSize roundUp; omega

theorem or_bytes {a b c d : ℕ} (hb : b < 2 ^ 8) (hc : c < 2 ^ 8) (hd : d < 2 ^ 8) :
    a <<< 24 ||| (b <<< 16 ||| (c <<< 8 ||| d)) = a * 2 ^ 24 + (b * 2 ^ 16 + (c * 2 ^ 8 + d)) := by
  have h1 : c <<< 8 ||| d = c * 2 ^ 8 + d := by
    rw [← Nat.shiftLeft_add_eq_or_of_lt hd, Nat.shiftLeft_eq]
  have h2 : b <<< 16 ||| (c * 2 ^ 8 + d) = b * 2 ^ 16 + (c * 2 ^ 8 + d) := by
    rw [← Nat.shiftLeft_add_eq_or_of_lt (by omega), Nat.shiftLeft_eq]
  rw [h1, h2, ← Nat.shiftLeft_add_eq_or_of_lt (by omega), Nat.shiftLeft_eq]

theorem fdt32_spec {v : ℕ} (h : Placed m p (be32 v)) (hv : v < 2 ^ 32) :
    fdt32 m p = BitVec.ofNat 32 v := by
  have h0 : m p = BitVec.ofNat 8 (v / 2 ^ 24) :=
    (by simp [bytesAt] : m p = bytesAt m p 0).trans (h 0 (by simp))
  have h1 : m (p + 1) = BitVec.ofNat 8 (v / 2 ^ 16) := h 1 (by simp)
  have h2 : m (p + 2) = BitVec.ofNat 8 (v / 2 ^ 8) := h 2 (by simp)
  have h3 : m (p + 3) = BitVec.ofNat 8 v := h 3 (by simp)
  apply BitVec.eq_of_toNat_eq
  rw [fdt32, h0, h1, h2, h3]
  simp only [BitVec.toNat_or, BitVec.toNat_shiftLeft, BitVec.toNat_setWidth, BitVec.toNat_ofNat,
    Nat.or_assoc]
  have hm : ∀ a, a % 2 ^ 8 % 2 ^ 32 = a % 2 ^ 8 := fun a => by omega
  have h24 : ∀ a, (a % 2 ^ 8) <<< 24 % 2 ^ 32 = (a % 2 ^ 8) <<< 24 := fun a => by
    rw [Nat.shiftLeft_eq]
    omega
  have h16 : ∀ a, (a % 2 ^ 8) <<< 16 % 2 ^ 32 = (a % 2 ^ 8) <<< 16 := fun a => by
    rw [Nat.shiftLeft_eq]
    omega
  have h8 : ∀ a, (a % 2 ^ 8) <<< 8 % 2 ^ 32 = (a % 2 ^ 8) <<< 8 := fun a => by
    rw [Nat.shiftLeft_eq]
    omega
  rw [hm, hm, hm, hm, h24, h16, h8, or_bytes (by omega) (by omega) (by omega)]
  omega

/-- Rounding up an aligned pointer rounds up the offset. -/
theorem alignUpVal_add (hp : p.toNat % 4 = 0) (k : ℕ) :
    alignUpVal (p + BitVec.ofNat 64 k) 4 = p + BitVec.ofNat 64 (roundUp k) := by
  apply BitVec.eq_of_toNat_eq
  rw [alignUpVal, and_not_three]
  unfold roundUp
  bv_omega

theorem kstrlenFrom_spec : ∀ {n i : ℕ} {s : ℕ → Byte} {l : List Byte}, Reads (fun j => s (i + j)) l →
    l.length < n → kstrlenFrom s n i = some (i + l.length)
  | 0, _, _, _, _, hn => by omega
  | n + 1, i, s, [], h, _ => by
    have h0 : s i = 0 := h.null
    rw [kstrlenFrom, h0, if_neg (not_not.2 rfl)]
    rfl
  | n + 1, i, s, c :: l, h, hn => by
    have h0 : s i ≠ 0 := fun hz => h.head.2 (h.head.1.symm.trans hz)
    have ht : Reads (fun j => s (i + 1 + j)) l := by
      simpa only [Nat.add_comm, Nat.add_left_comm] using h.tail
    rw [kstrlenFrom, if_pos h0, kstrlenFrom_spec ht (by simpa using hn), List.length_cons]
    congr 1
    omega

theorem kstrlen_spec {s : ℕ → Byte} (h : Reads s l) (hl : l.length < 2 ^ 64) :
    kstrlen s = some l.length := by
  rw [kstrlen, kstrlenFrom_spec (by simpa only [Nat.zero_add] using h) hl, Nat.zero_add]

theorem fdt32_token {t : BitVec 32} (h : Placed m p (token t)) : fdt32 m p = t := by
  rw [fdt32_spec h t.isLt, BitVec.ofNat_toNat, BitVec.setWidth_eq]

theorem aligned_add (hp : p.toNat % 4 = 0) {k : ℕ} (hk : k % 4 = 0) :
    (p + BitVec.ofNat 64 k).toNat % 4 = 0 := by
  bv_omega

theorem Items.headSize_mod (name : List Byte) : headSize name % 4 = 0 := by
  unfold headSize roundUp
  omega

theorem Items.headSize_ge (name : List Byte) : 8 ≤ headSize name := by
  unfold headSize roundUp
  omega

theorem Items.propSize_mod (value : List Byte) : propSize value % 4 = 0 := by
  unfold propSize roundUp
  omega

theorem Items.length_name_lt (h : headSize name < 2 ^ 64) : name.length < 2 ^ 64 := by
  have := le_roundUp (name.length + 1)
  unfold headSize at h
  omega

/-- An offset from `blk` moves on with the pointer. -/
theorem offset_add {blk : Word} {o : ℕ} (hoff : p = blk + BitVec.ofNat 64 o) (k : ℕ) :
    p + BitVec.ofNat 64 k = blk + BitVec.ofNat 64 (o + k) := by
  rw [hoff, BitVec.ofNat_add, BitVec.add_assoc]

theorem offset_node {blk : Word} {o : ℕ} (hoff : p = blk + BitVec.ofNat 64 o) (j k : ℕ) :
    p + BitVec.ofNat 64 j + BitVec.ofNat 64 k + 4 = blk + BitVec.ofNat 64 (o + j + k + 4) :=
  offset_add (offset_add (offset_add hoff j) k) 4

/-- The items behind a node start at a multiple of four. -/
theorem aligned_node (hp : p.toNat % 4 = 0) (name : List Byte) (body : Items) :
    (p + BitVec.ofNat 64 (Items.headSize name)).toNat % 4 = 0 ∧
      (p + BitVec.ofNat 64 (Items.headSize name) + BitVec.ofNat 64 body.size + 4).toNat % 4 = 0 := by
  have hp1 := aligned_add hp (Items.headSize_mod name)
  exact ⟨hp1, aligned_add (aligned_add hp1 body.four_dvd_size) (k := 4) rfl⟩

/-- The items behind a NOP end where the whole ends. -/
theorem end_nop (p : Word) (rest : Items) :
    p + 4 + BitVec.ofNat 64 rest.size = p + BitVec.ofNat 64 (Items.nop rest).size := by
  rw [Items.size, BitVec.ofNat_add, ← BitVec.add_assoc]
  rfl

/-- The items behind a property end where the whole ends. -/
theorem end_prop (p : Word) (name : List Byte) (nameoff : ℕ) (value : List Byte) (rest : Items) :
    p + BitVec.ofNat 64 (Items.propSize value) + BitVec.ofNat 64 rest.size =
      p + BitVec.ofNat 64 (Items.prop name nameoff value rest).size := by
  rw [Items.size, BitVec.ofNat_add, BitVec.add_assoc]

/-- The items behind a node end where the whole ends. -/
theorem end_node (p : Word) (name : List Byte) (body rest : Items) :
    p + BitVec.ofNat 64 (Items.headSize name) + BitVec.ofNat 64 body.size + 4 +
      BitVec.ofNat 64 rest.size = p + BitVec.ofNat 64 (Items.node name body rest).size := by
  simp only [Items.size, BitVec.ofNat_add, BitVec.add_assoc]
  rfl

/-- What the code reads at a NOP. -/
structure AtNop (m : Mem) (p : Word) (rest : Items) : Prop where
  token : fdt32 m p = nopToken
  rest : Placed m (p + 4) rest.bytes

theorem atNop (h : Placed m p (Items.nop rest).bytes) : AtNop m p rest := by
  obtain ⟨ht, hr⟩ := placed_append.1 h
  exact ⟨fdt32_token ht, hr⟩

/-- What the code reads at a property. -/
structure AtProp (m : Mem) (p : Word) (nameoff : ℕ) (value : List Byte) (rest : Items) : Prop where
  token : fdt32 m p = propToken
  len : fdt32 m (p + 4) = BitVec.ofNat 32 value.length
  off : fdt32 m (p + 4 + 4) = BitVec.ofNat 32 nameoff
  data : Placed m (p + 4 + 4 + 4) value
  next : alignUpVal (p + 4 + 4 + 4 + (BitVec.ofNat 32 value.length).setWidth 64) 4 =
    p + BitVec.ofNat 64 (Items.propSize value)
  rest : Placed m (p + BitVec.ofNat 64 (Items.propSize value)) rest.bytes

theorem atProp (hp : p.toNat % 4 = 0) (hoff : nameoff < 2 ^ 32) (hlen : value.length < 2 ^ 32)
    (h : Placed m p (Items.prop name nameoff value rest).bytes) :
    AtProp m p nameoff value rest := by
  obtain ⟨ht, h⟩ := placed_append.1 h
  obtain ⟨hl, h⟩ := placed_append.1 h
  obtain ⟨ho, h⟩ := placed_append.1 h
  obtain ⟨hv, hr⟩ := placed_append.1 h
  obtain ⟨hv, -⟩ := placed_append.1 hv
  have hp' : (p + 4 + 4 + 4).toNat % 4 = 0 := by bv_omega
  have hsize : p + 4 + 4 + 4 + BitVec.ofNat 64 (roundUp value.length) =
      p + BitVec.ofNat 64 (Items.propSize value) := by
    unfold Items.propSize
    bv_omega
  refine ⟨fdt32_token ht, fdt32_spec hl hlen, fdt32_spec ho hoff, hv, ?_, ?_⟩
  · have hw : (BitVec.ofNat 32 value.length).setWidth 64 = BitVec.ofNat 64 value.length := by
      bv_omega
    rw [hw, alignUpVal_add hp', hsize]
  · rw [length_padded] at hr
    rwa [← hsize]

/-- What the code reads at the beginning of a node. -/
structure AtNode (m : Mem) (p : Word) (name : List Byte) (body rest : Items) : Prop where
  token : fdt32 m p = beginNode
  reads : Reads (bytesAt m (p + 4)) name
  len : kstrlen (bytesAt m (p + 4)) = some name.length
  next : alignUpVal (p + 4 + BitVec.ofNat 64 name.length + 1) 4 =
    p + BitVec.ofNat 64 (Items.headSize name)
  inner : Placed m (p + BitVec.ofNat 64 (Items.headSize name)) body.bytes
  ends : fdt32 m (p + BitVec.ofNat 64 (Items.headSize name) + BitVec.ofNat 64 body.size) = endNode
  rest : Placed m (p + BitVec.ofNat 64 (Items.headSize name) + BitVec.ofNat 64 body.size + 4) rest.bytes

theorem atNode (hp : p.toNat % 4 = 0) (h0 : (0 : Byte) ∉ name) (hlen : name.length < 2 ^ 64)
    (h : Placed m p (Items.node name body rest).bytes) : AtNode m p name body rest := by
  obtain ⟨ht, h⟩ := placed_append.1 h
  obtain ⟨hn, h⟩ := placed_append.1 h
  obtain ⟨hb, h⟩ := placed_append.1 h
  obtain ⟨he, hr⟩ := placed_append.1 h
  obtain ⟨hn, -⟩ := placed_append.1 hn
  have hname : Reads (bytesAt m (p + 4)) name := reads_of_placed hn h0
  have hp' : (p + 4).toNat % 4 = 0 := by bv_omega
  have hsize : p + BitVec.ofNat 64 4 + BitVec.ofNat 64 (roundUp (name.length + 1)) =
      p + BitVec.ofNat 64 (Items.headSize name) := by
    unfold Items.headSize
    bv_omega
  rw [length_padded, List.length_append, List.length_singleton, length_token, hsize] at hb he hr
  rw [Items.length_bytes] at he hr
  refine ⟨fdt32_token ht, hname, kstrlen_spec hname hlen, ?_, hb, fdt32_token he, hr⟩
  have hsum : p + 4 + BitVec.ofNat 64 name.length + 1 =
      p + 4 + BitVec.ofNat 64 (name.length + 1) := by bv_omega
  rw [hsum, alignUpVal_add hp', ← hsize]
  rfl

theorem placed_nops : ∀ {k : ℕ} {p : Word} {t : Items}, Placed m p (Items.nops k t).bytes →
    Placed m (p + BitVec.ofNat 64 (4 * k)) t.bytes
  | 0, p, t, h => by simpa [Items.nops] using h
  | k + 1, p, t, h => by
    have := placed_nops (atNop h).rest
    rwa [BitVec.add_assoc, show (4 : Word) = BitVec.ofNat 64 4 from rfl, ← BitVec.ofNat_add,
      show 4 + 4 * k = 4 * (k + 1) by omega] at this

theorem Items.size_nops (k : ℕ) (t : Items) : (nops k t).size = 4 * k + t.size := by
  induction k with
  | zero => simp [nops]
  | succ k ih =>
    rw [nops, size, ih]
    omega

theorem Items.ok_nops (k : ℕ) (t : Items) : (nops k t).Ok m strings ↔ t.Ok m strings := by
  induction k with
  | zero => rfl
  | succ k ih => exact ih

/-- What the code meets in the structure block. -/
structure AtTree (m : Mem) (blk strings : Word) (d : DeviceTree) : Prop where
  before : Placed m blk d.items.bytes
  root : AtNode m (blk + BitVec.ofNat 64 (4 * d.before)) d.name d.body (.nops d.after .nil)
  aligned : (blk + BitVec.ofNat 64 (4 * d.before) +
    BitVec.ofNat 64 (Items.headSize d.name)).toNat % 4 = 0
  ok : d.body.Ok m strings
  ends : fdt32 m (blk + BitVec.ofNat 64 (4 * d.before) + BitVec.ofNat 64 (Items.headSize d.name) +
    BitVec.ofNat 64 d.body.size + 4 + BitVec.ofNat 64 (4 * d.after)) = endToken
  size : 4 * d.before + Items.headSize d.name + d.body.size + 4 + 4 * d.after + 4 < 2 ^ 32

theorem Encodes.atTree {fdt : Word} {d : DeviceTree} (h : Encodes m fdt d) :
    AtTree m (structBlk m fdt) (stringsBlk m fdt) d := by
  obtain ⟨hi, he⟩ := placed_append.1 h.block
  have hok := h.ok
  have hsize := h.size
  rw [DeviceTree.items, Items.ok_nops] at hok
  rw [Items.length_bytes] at he
  rw [DeviceTree.structBlock, List.length_append, Items.length_bytes, length_token] at hsize
  have hs : d.items.size =
      4 * d.before + (Items.headSize d.name + (d.body.size + (4 + (4 * d.after + 0)))) := by
    rw [DeviceTree.items, Items.size_nops, Items.size, Items.size_nops, Items.size]
  have hp := aligned_add h.aligned (k := 4 * d.before) (by omega)
  have hname : d.name.length < 2 ^ 64 := by
    have := le_roundUp (d.name.length + 1)
    unfold Items.headSize at hs
    omega
  refine ⟨hi, atNode hp hok.1 hname (placed_nops hi), aligned_add hp ?_, hok.2.1, ?_, by omega⟩
  · unfold Items.headSize roundUp
    omega
  · rw [hs] at he
    simp only [BitVec.ofNat_add, BitVec.add_assoc, BitVec.add_zero] at he ⊢
    exact fdt32_token he

/-- What the code meets at a node of the tree. -/
structure NodeAt (m : Mem) (blk strings : Word) (x : Node) : Prop where
  node : ∃ rest, AtNode m (blk + BitVec.ofNat 64 x.off) x.name x.body rest
  aligned : (blk + BitVec.ofNat 64 x.off + BitVec.ofNat 64 (Items.headSize x.name)).toNat % 4 = 0
  ok : x.body.Ok m strings

theorem nodeAt_of_mem {blk : Word} {x : Node} : ∀ {t : Items} {p : Word} {off : ℕ}
    {chain : List (List Byte)}, p.toNat % 4 = 0 → t.Ok m strings → t.size < 2 ^ 64 →
    Placed m p t.bytes → p = blk + BitVec.ofNat 64 off → x ∈ t.nodes off chain →
    NodeAt m blk strings x ∧ x.off + Items.headSize x.name + x.body.size ≤ off + t.size
  | .nop rest, p, off, chain, hp, hok, hsize, h, hoff, hx => by
    obtain ⟨hn, hle⟩ := nodeAt_of_mem (t := rest) (aligned_add hp (k := 4) rfl) hok
      (by rw [Items.size] at hsize; omega) (atNop h).rest (offset_add hoff 4) hx
    exact ⟨hn, by rw [Items.size]; omega⟩
  | .prop name nameoff value rest, p, off, chain, hp, hok, hsize, h, hoff, hx => by
    obtain ⟨hn, hle⟩ := nodeAt_of_mem (t := rest) (aligned_add hp (Items.propSize_mod value)) hok.2
      (by rw [Items.size] at hsize; omega) (atProp hp hok.1.1 hok.1.2.1 h).rest (offset_add hoff _) hx
    exact ⟨hn, by rw [Items.size]; omega⟩
  | .node name body rest, p, off, chain, hp, hok, hsize, h, hoff, hx => by
    rw [Items.size] at hsize ⊢
    have hat := atNode hp hok.1 (Items.length_name_lt (by omega)) h
    obtain ⟨hp1, hp3⟩ := aligned_node hp name body
    rw [Items.nodes, List.mem_cons, List.mem_append] at hx
    rcases hx with rfl | hx | hx
    · exact ⟨⟨⟨rest, hoff ▸ hat⟩, hoff ▸ hp1, hok.2.1⟩, by dsimp only; omega⟩
    · obtain ⟨hn, hle⟩ := nodeAt_of_mem (t := body) hp1 hok.2.1 (by omega) hat.inner
        (offset_add hoff _) hx
      exact ⟨hn, by omega⟩
    · obtain ⟨hn, hle⟩ := nodeAt_of_mem (t := rest) hp3 hok.2.2 (by omega) hat.rest
        (offset_node hoff _ _) hx
      exact ⟨hn, by omega⟩

theorem Encodes.nodeAt {fdt : Word} {d : DeviceTree} {x : Node} (h : Encodes m fdt d) (hx : x ∈ d.nodes) :
    NodeAt m (structBlk m fdt) (stringsBlk m fdt) x ∧
      x.off + Items.headSize x.name + x.body.size < 2 ^ 32 := by
  have ht := h.atTree
  have hsize := ht.size
  rw [DeviceTree.nodes, List.mem_cons] at hx
  rcases hx with rfl | hx
  · refine ⟨⟨⟨_, ht.root⟩, ht.aligned, ht.ok⟩, ?_⟩
    unfold DeviceTree.root
    dsimp only
    omega
  · obtain ⟨hn, hle⟩ := nodeAt_of_mem ht.aligned ht.ok (by omega) ht.root.inner
      (by rw [BitVec.ofNat_add, BitVec.add_assoc]) hx
    exact ⟨hn, by omega⟩

end Tokens

/-! ### Trees in memory -/

/-- The tree behind its header, and the strings block. -/
def DeviceTree.blob (d : DeviceTree) (strings : List Byte) : List Byte :=
  [0xd00dfeed, 40 + d.structBlock.length + strings.length, 40, 40 + d.structBlock.length, 0, 17, 16, 0,
    strings.length, d.structBlock.length].flatMap be32 ++ d.structBlock ++ strings

/-- A memory with the tree at the address 4096. -/
def DeviceTree.mem (d : DeviceTree) (strings : List Byte) : Mem := fun a =>
  (d.blob strings).getD (a.toNat - 4096) 0

section Blob
variable {d : DeviceTree} {strings pre l post name rest : List Byte}

/-- What stands in the blob stands in the memory. -/
theorem DeviceTree.placed_mem (hb : d.blob strings = pre ++ l ++ post)
    (hsize : (d.blob strings).length ≤ 2 ^ 33) :
    Placed (d.mem strings) (4096 + BitVec.ofNat 64 pre.length) l := by
  intro i hi
  have hlen := congrArg List.length hb
  simp only [List.length_append] at hlen
  have haddr : (4096 + BitVec.ofNat 64 pre.length + BitVec.ofNat 64 i : Word).toNat - 4096 =
      pre.length + i := by
    bv_omega
  rw [bytesAt, DeviceTree.mem, haddr, hb, List.append_assoc, List.getD_append_right _ _ _ _ (by omega),
    Nat.add_sub_cancel_left, List.getD_append _ _ _ _ hi, List.getD_eq_getElem _ _ hi]

theorem DeviceTree.length_blob (d : DeviceTree) (strings : List Byte) :
    (d.blob strings).length = 40 + d.structBlock.length + strings.length := by
  rw [DeviceTree.blob, List.length_append, List.length_append]
  rfl

/-- The two blocks stand behind a header of forty bytes. -/
theorem DeviceTree.blob_eq (d : DeviceTree) (strings : List Byte) :
    ∃ header : List Byte, header.length = 40 ∧
      d.blob strings = header ++ d.structBlock ++ strings := ⟨_, rfl, rfl⟩

/-- What the header says of the two blocks. -/
theorem DeviceTree.header_mem (hsize : 40 + d.structBlock.length + strings.length < 2 ^ 32) :
    fdt32 (d.mem strings) 4096 = 0xd00dfeed ∧
      structBlk (d.mem strings) 4096 = 4096 + BitVec.ofNat 64 40 ∧
      stringsBlk (d.mem strings) 4096 = 4096 + BitVec.ofNat 64 (40 + d.structBlock.length) := by
  have hlen := d.length_blob strings
  have field : ∀ {v : ℕ} (pre : List Byte) {post : List Byte},
      d.blob strings = pre ++ be32 v ++ post → v < 2 ^ 32 →
      fdt32 (d.mem strings) (4096 + BitVec.ofNat 64 pre.length) = BitVec.ofNat 32 v :=
    fun _ _ hb hv => fdt32_spec (DeviceTree.placed_mem hb (by omega)) hv
  refine ⟨field [] rfl (by decide), ?_, ?_⟩
  · have hoff : offDtStruct (d.mem strings) 4096 = BitVec.ofNat 32 40 :=
      field (be32 _ ++ be32 _) rfl (by decide)
    rw [structBlk, hoff]
    rfl
  · have hoff : offDtStrings (d.mem strings) 4096 = BitVec.ofNat 32 (40 + d.structBlock.length) :=
      field (be32 _ ++ be32 _ ++ be32 _) rfl (by omega)
    have hw : (BitVec.ofNat 32 (40 + d.structBlock.length)).setWidth 64 =
        BitVec.ofNat 64 (40 + d.structBlock.length) := by
      bv_omega
    rw [stringsBlk, hoff, hw]

/-- **Every tree can stand in memory**, if its size fits the header. -/
theorem DeviceTree.encodes_mem (hsize : 40 + d.structBlock.length + strings.length < 2 ^ 32)
    (hok : d.items.Ok (d.mem strings) (4096 + BitVec.ofNat 64 (40 + d.structBlock.length))) :
    Encodes (d.mem strings) 4096 d := by
  have hlen := d.length_blob strings
  obtain ⟨hmagic, hstruct, hstrings⟩ := DeviceTree.header_mem hsize
  obtain ⟨header, hheader, hb⟩ := d.blob_eq strings
  refine ⟨hmagic, by rw [hstruct]; rfl, ?_, by omega, hstrings ▸ hok⟩
  rw [hstruct, ← hheader]
  exact DeviceTree.placed_mem hb (by omega)

theorem DeviceTree.reads_mem (pre name rest : List Byte)
    (hsize : 40 + d.structBlock.length + strings.length < 2 ^ 32)
    (hs : strings = pre ++ (name ++ [0]) ++ rest) (h0 : (0 : Byte) ∉ name) :
    Reads (bytesAt (d.mem strings) (4096 + BitVec.ofNat 64 (40 + d.structBlock.length) +
      BitVec.ofNat 64 pre.length)) name := by
  have hlen := d.length_blob strings
  obtain ⟨header, hheader, hb⟩ := d.blob_eq strings
  have hsplit : d.blob strings = (header ++ d.structBlock ++ pre) ++ (name ++ [0]) ++ rest := by
    rw [hb, hs]
    simp only [List.append_assoc]
  have hplaced : Placed (d.mem strings)
      (4096 + BitVec.ofNat 64 (header ++ d.structBlock ++ pre).length) (name ++ [0]) :=
    DeviceTree.placed_mem hsplit (by omega)
  have hoff : (header ++ d.structBlock ++ pre).length = 40 + d.structBlock.length + pre.length := by
    simp only [List.length_append, hheader]
  rw [hoff, BitVec.ofNat_add, ← BitVec.add_assoc] at hplaced
  exact reads_of_placed hplaced h0

end Blob

/-- A tree with a NOP in front, and one node below the root that has a property. -/
def sampleTree : DeviceTree :=
  ⟨1, [], .node (ascii "soc@0") (.nop (.prop (ascii "reg") 0 [1, 2, 3, 4, 5, 6, 7, 8] .nil)) .nil, 0⟩

/-- A memory with the tree. -/
def treeMem : Mem := sampleTree.mem (ascii "reg" ++ [0])

theorem encodes_sampleTree : Encodes treeMem 4096 sampleTree := by
  have hsize : 40 + sampleTree.structBlock.length + (ascii "reg" ++ [0]).length < 2 ^ 32 := by
    decide +kernel
  have hreads := DeviceTree.reads_mem [] (ascii "reg") [] hsize (by simp) (by decide)
  have h0 : (0 : Byte) ∉ ascii "soc@0" := by decide
  exact DeviceTree.encodes_mem hsize ⟨List.not_mem_nil, ⟨h0, ⟨⟨by decide, by decide, hreads⟩, trivial⟩,
    trivial⟩, trivial⟩

end OscKernel.Fdt.Format
