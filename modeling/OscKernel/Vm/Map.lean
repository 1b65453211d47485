import OscKernel.Lib.Transition
import OscKernel.Vm.Setup

/-! # Building user page tables in lab6

`vm_create_user_pgd`, `walk_create` and `map_pages_to` of `vm.c`. The pages that `alloc_pages(0)`
gives out are a list of pointers, which ends in null pointers.

* `step`: user page tables are created and extended in any order.
* `Fresh`: the pages given out are page frames that hold no page table. -/

namespace OscKernel.Vm.Map

open OscKernel.Lib.Memory OscKernel.Lib.Sv39 OscKernel.Vm.Tables OscKernel.Vm.Setup

/-! ### The code -/

/-- Memory, and what the next calls of `alloc_pages(0)` return. -/
structure Machine where
  mem : Frames
  pages : List Word

/-- `alloc_pages(0)`. -/
def allocPages (v : Machine) : Word × Machine := (v.pages.headD 0, { v with pages := v.pages.tail })

/-- The loop of `vm_create_user_pgd` that copies the upper half of `early_pgd`. -/
def copyKernelHalf (L : Layout) (m : Frames) (pgd : ℕ) : Frames :=
  (List.range 256).foldl
    (fun m i => set m pgd (Fin.ofNat 512 (256 + i)) (m L.pgd (Fin.ofNat 512 (256 + i)))) m

/-- `vm_create_user_pgd`. -/
def vmCreateUserPgd (L : Layout) (v : Machine) : Word × Machine :=
  let (pgd, v) := allocPages v
  if pgd = 0 then (0, v)
  else (pgd, { v with mem := copyKernelHalf L (clearTable v.mem (tableAt pgd)) (tableAt pgd) })

/-- Why `map_pages_to` returns -1. -/
inductive Failure
  /-- the page table is null or the size is zero -/
  | argument
  /-- `alloc_pages` returned null -/
  | memory
  /-- the walk meets an entry that maps a large page -/
  | leaf
  /-- the page is mapped -/
  | mapped
deriving DecidableEq

/-- A level of `walk_create`: the table that the entry `i` of a table points to, which is made if
there is none. -/
def nextTable (v : Machine) (table : Word) (i : Fin 512) : Except Failure Word × Machine :=
  if v.mem (tableAt table) i &&& pteV = 0 then
    let (next, v) := allocPages v
    if next = 0 then (.error .memory, v)
    else
      let m := clearTable v.mem (tableAt next)
      (.ok next, { v with mem := set m (tableAt table) i (paToPte (virtToPhysAddr next) ||| pteV) })
  else if v.mem (tableAt table) i &&& (pteR ||| pteW ||| pteX) ≠ 0 then (.error .leaf, v)
  else (.ok (physToVirtAddr (pteToPa (v.mem (tableAt table) i))), v)

/-- `walk_create`: the table and the index of the last level. -/
def walkCreate (v : Machine) (pgd va : Word) : Except Failure (Word × Fin 512) × Machine :=
  let vpn2 := Fin.ofNat 512 ((va >>> 30) &&& 0x1ff).toNat
  let vpn1 := Fin.ofNat 512 ((va >>> 21) &&& 0x1ff).toNat
  let vpn0 := Fin.ofNat 512 ((va >>> 12) &&& 0x1ff).toNat
  match nextTable v pgd vpn2 with
  | (.error e, v) => (.error e, v)
  | (.ok pmd, v) =>
    match nextTable v pmd vpn1 with
    | (.error e, v) => (.error e, v)
    | (.ok pte, v) => (.ok (pte, vpn0), v)

/-- A round of the loop of `map_pages_to`. -/
def mapPage (v : Machine) (pgd va pa prot : Word) : Except Failure Unit × Machine :=
  match walkCreate v pgd va with
  | (.error e, v) => (.error e, v)
  | (.ok (pte, i), v) =>
    if v.mem (tableAt pte) i &&& pteV ≠ 0 then (.error .mapped, v)
    else (.ok (), { v with mem := set v.mem (tableAt pte) i (paToPte pa ||| prot ||| pteV) })

/-- The loop of `map_pages_to`, with `n` pages to go from the page `i` on. -/
def mapLoop (pgd va pa prot : Word) : ℕ → ℕ → Machine → Except Failure Unit × Machine
  | 0, _, v => (.ok (), v)
  | n + 1, i, v =>
    match mapPage v pgd (va + BitVec.ofNat 64 i * 4096) (pa + BitVec.ofNat 64 i * 4096) prot with
    | (.error e, v) => (.error e, v)
    | (.ok _, v) => mapLoop pgd va pa prot n (i + 1) v

/-- `map_pages_to`: the return value 0, or the reason for the return value -1. -/
def mapPagesTo (v : Machine) (pgd va size pa prot : Word) : Except Failure Unit × Machine :=
  if pgd = 0 ∨ size = 0 then (.error .argument, v)
  else mapLoop pgd va pa prot ((size + 4096 - 1) / 4096 : Word).toNat 0 v

/-! ### The machine -/

/-- Memory, the user page tables, and the frames that hold page tables. -/
structure State where
  mem : Frames
  users : List Word
  tables : List ℕ

/-- The calls, with what `alloc_pages(0)` returns during each of them. -/
inductive Event
  | dropIdentity
  | create (pages : List Word)
  | map (pgd va size pa prot : Word) (pages : List Word)

/-- The frames of the pages given out. -/
def framesOf (pages : List Word) : List ℕ := (pages.filter (· ≠ 0)).map tableAt

/-- A step, with the result of `map_pages_to`. Only a user page table is mapped into. -/
def step (L : Layout) (s : State) : Event → Option (State × Option (Except Failure Unit))
  | .dropIdentity => some ({ s with mem := dropIdentityMap L s.mem }, none)
  | .create pages =>
    let (pgd, v) := vmCreateUserPgd L ⟨s.mem, pages⟩
    some (⟨v.mem, if pgd = 0 then s.users else pgd :: s.users, s.tables ++ framesOf pages⟩, none)
  | .map pgd va size pa prot pages =>
    if pgd ∈ s.users then
      let (r, v) := mapPagesTo ⟨s.mem, pages⟩ pgd va size pa prot
      some (⟨v.mem, s.users, s.tables ++ framesOf pages⟩, some r)
    else none

/-- The state after `setup_vm`. -/
def boot (L : Layout) (b : Boot) : State where
  mem := (setupVm L b).mem
  users := []
  tables := L.pgd :: (List.range' L.pmd earlyMapGib ++ List.range' L.pte earlyPteTables)

/-- The pages are page frames that hold no page table, all different. -/
structure FreshPages (tables : List ℕ) (pages : List Word) : Prop where
  frame : ∀ p ∈ pages, p ≠ 0 → ∃ f < 2 ^ 44, p = physToVirtAddr (framePa f) ∧ f ∉ tables
  distinct : pages.Pairwise fun p q => p = q → p = 0

/-- What `alloc_pages` returns in a step is fresh. -/
def Fresh (s : State) : Event → Prop
  | .dropIdentity => True
  | .create pages => FreshPages s.tables pages
  | .map _ _ _ _ _ pages => FreshPages s.tables pages

end OscKernel.Vm.Map
