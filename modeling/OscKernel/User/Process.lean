import OscKernel.User.Signal

/-! # User processes of lab5

The functions of `user.c` and the loader of user programs: creation, `fork` and `exec`. What
`initrd_find_file` finds under a path is an argument, and so is the value of the CSR `sstatus` that
`setup_user_sstatus` reads. -/

namespace OscKernel.User.Process

open OscKernel.Lib.Memory OscKernel.Lib.Riscv OscKernel.Thread.Task OscKernel.Thread.Sched
open OscKernel.User.Signal

/-- `mem_zero`. -/
def memZero (m : Mem) (dst : Word) : ℕ → Mem
  | 0 => m
  | n + 1 => Function.update (memZero m dst n) (dst + BitVec.ofNat 64 n) 0

/-- `mem_copy`: byte after byte, upwards. -/
def memCopy (m : Mem) (dst src : Word) : ℕ → Mem
  | 0 => m
  | n + 1 =>
    let m := memCopy m dst src n
    Function.update m (dst + BitVec.ofNat 64 n) (m (src + BitVec.ofNat 64 n))

/-- `mem_copy` of a file of the initial ramdisk. -/
def memWrite (m : Mem) (dst : Word) (file : List Byte) : Mem :=
  (file.zipIdx).foldl (fun m p => Function.update m (dst + BitVec.ofNat 64 p.2) p.1) m

/-- `USER_PROG_BASE`. -/
def userProgBase : Word := 0x03000000

/-- `USER_PROG_MAX_SIZE`. -/
def userProgMaxSize : ℕ := 0x00400000

/-- The memory of user code: the user stacks, the signal stacks and the region of the program. -/
def UserMem (L : Layout) (a : Word) : Prop :=
  (a - L.userStacks).toNat < 16 * stackSize ∨ (a - L.signalStacks).toNat < 16 * stackSize ∨
    (a - userProgBase).toNat < userProgMaxSize

instance (L : Layout) (a : Word) : Decidable (UserMem L a) :=
  inferInstanceAs (Decidable (_ ∨ _ ∨ _))

/-- The code of `signal_install_trampoline`, byte by byte. -/
def trampolineCode : List Byte :=
  [0x93, 0x08, 0xb0, 0x00, 0x73, 0x00, 0x00, 0x00, 0x6f, 0x00, 0x00, 0x00]

/-- `user_load_image_from_initrd` for the file that is found, if any: the memory, and the entry. -/
def userLoadImage (m : Mem) (file : Option (List Byte)) : Mem × Option Word :=
  match file with
  | none => (m, none)
  | some data =>
    if data.length = 0 ∨ userProgMaxSize < data.length then (m, none)
    else
      (memWrite (memWrite (memZero m userProgBase userProgMaxSize) userProgBase data)
        userSigtrampBase trampolineCode, some userProgBase)

/-- `setup_user_sstatus`: `SPP` cleared, `SPIE` set. -/
def setupUserSstatus (sstatus : Word) : Word :=
  (sstatus &&& ~~~ BitVec.twoPow 64 sppBit) ||| BitVec.twoPow 64 spieBit

/-- `setup_user_trapframe`. -/
def setupUserTrapframe (L : Layout) (task : Slot) (userStackTop entry sstatus : Word) : TrapFrame :=
  ((({ TrapFrame.zero with sepc := entry, sstatus := setupUserSstatus sstatus } :
    TrapFrame).setReg .sp userStackTop).setReg .tp (L.taskAddr task))

/-- What `user_process_create` writes to the slot of the new task. -/
def newProcess (L : Layout) (i : Slot) (parent : Option Slot) (entry sstatus : Word)
    (t : TaskStruct) : TaskStruct :=
  { t.signalTaskInit with
    isUser := true
    exitStatus := 0
    parent := parent
    userStackBase := L.userStackBase i
    userStackTop := L.userStackTop i
    kernelSp := t.context.sp
    trapframe := setupUserTrapframe L i (L.userStackTop i) entry sstatus }

/-- `user_process_create`. -/
def userProcessCreate (L : Layout) (entry sstatus : Word) (k : Kernel) :
    Option (Kernel × Option Slot) := do
  match ← threadCreate L L.userProcessEntry k with
  | (k, none) => some (k, none)
  | (k, some i) =>
    let k := k.modify i (newProcess L i k.tp entry sstatus)
    some ({ k with mem := memZero k.mem (L.userStackBase i) stackSize }, some i)

/-- `user_process_create_from_file`. -/
def userProcessCreateFromFile (L : Layout) (file : Option (List Byte)) (sstatus : Word)
    (k : Kernel) : Option (Kernel × Option Slot) :=
  match userLoadImage k.mem file with
  | (m, none) => some ({ k with mem := m }, none)
  | (m, some entry) => userProcessCreate L entry sstatus { k with mem := m }

/-- `translate_stack_ptr`. -/
def translateStackPtr (parent child : TaskStruct) (ptr : Word) : Word :=
  if parent.userStackBase ≤ ptr ∧ ptr ≤ parent.userStackTop then
    child.userStackBase + (ptr - parent.userStackBase)
  else ptr

/-- What `user_fork` writes to the slot of the child. -/
def forkChild (L : Layout) (i p : Slot) (parent : TaskStruct) (tf : TrapFrame) (t : TaskStruct) :
    TaskStruct :=
  let t := { t with
    isUser := true
    exitStatus := 0
    userStackBase := L.userStackBase i
    userStackTop := L.userStackTop i
    kernelSp := t.context.sp }
  let tf := ((tf.setReg .a0 0).setReg .tp (L.taskAddr i)).setReg .sp
    (translateStackPtr parent t (tf.reg .sp))
  let tf := tf.setReg .s0 (translateStackPtr parent t (tf.reg .s0))
  signalFork parent { t with trapframe := tf, parent := some p }

/-- `user_fork`. -/
def userFork (L : Layout) (tf : TrapFrame) (k : Kernel) : Option (Kernel × ℤ) :=
  match k.tp with
  | none => some (k, -1)
  | some p =>
    if (k.tasks p).isUser = false then some (k, -1)
    else do
      match ← threadCreate L L.userProcessEntry k with
      | (k, none) => some (k, -1)
      | (k, some i) =>
        let k := { k with
          mem := memCopy k.mem (L.userStackBase i) (k.tasks p).userStackBase stackSize }
        let k := k.modify i (forkChild L i p (k.tasks p) tf)
        some (k, (k.tasks i).pid)

section Cases
variable {L : Layout} {k k' : Kernel} {r : Option Slot}

/-- **`user_process_create`**: no slot is free, or the new thread is made a process. -/
theorem userProcessCreate_cases {entry sstatus : Word}
    (h : userProcessCreate L entry sstatus k = some (k', r)) :
    (r = none ∧ threadCreate L L.userProcessEntry k = some (k', none)) ∨
      ∃ i k1, r = some i ∧ threadCreate L L.userProcessEntry k = some (k1, some i) ∧
        k' = { k1.modify i (newProcess L i k1.tp entry sstatus) with
          mem := memZero k1.mem (L.userStackBase i) stackSize } := by
  unfold userProcessCreate at h
  rcases hc : threadCreate L L.userProcessEntry k with _ | ⟨k1, _ | i⟩ <;> rw [hc] at h <;>
    simp only [Option.bind_eq_bind, Option.bind_none, Option.bind_some, Option.some.injEq,
      Prod.mk.injEq, reduceCtorEq] at h
  · obtain ⟨rfl, rfl⟩ := h
    exact .inl ⟨rfl, rfl⟩
  · obtain ⟨rfl, rfl⟩ := h
    exact .inr ⟨i, k1, rfl, rfl, rfl⟩

/-- **`user_process_create_from_file`**: the file is not loaded, or a process is made for it. -/
theorem userProcessCreateFromFile_cases {file : Option (List Byte)} {sstatus : Word}
    (h : userProcessCreateFromFile L file sstatus k = some (k', r)) :
    (r = none ∧ ∃ m, userLoadImage k.mem file = (m, none) ∧ k' = { k with mem := m }) ∨
      ∃ m entry, userLoadImage k.mem file = (m, some entry) ∧
        userProcessCreate L entry sstatus { k with mem := m } = some (k', r) := by
  unfold userProcessCreateFromFile at h
  split at h
  · rename_i m hl
    rw [Option.some.injEq, Prod.mk.injEq] at h
    exact .inl ⟨h.2.symm, m, hl, h.1.symm⟩
  · rename_i m entry hl
    exact .inr ⟨m, entry, hl, h⟩

/-- **`user_fork`**: the caller is no user process, no slot is free, or the new thread is made the
child. -/
theorem userFork_cases {tf : TrapFrame} {v : ℤ} (h : userFork L tf k = some (k', v)) :
    (k' = k ∧ v = -1 ∧ ∀ p, k.tp = some p → (k.tasks p).isUser = false) ∨
      ∃ p, k.tp = some p ∧ (k.tasks p).isUser = true ∧
        ((v = -1 ∧ threadCreate L L.userProcessEntry k = some (k', none)) ∨
          ∃ i k1, threadCreate L L.userProcessEntry k = some (k1, some i) ∧
            v = (k'.tasks i).pid ∧
            k' = { k1.modify i (forkChild L i p (k1.tasks p) tf) with
              mem := memCopy k1.mem (L.userStackBase i) (k1.tasks p).userStackBase stackSize }) := by
  unfold userFork at h
  split at h
  · rename_i ht
    rw [Option.some.injEq, Prod.mk.injEq] at h
    exact .inl ⟨h.1.symm, h.2.symm, fun p hp => by rw [ht] at hp; cases hp⟩
  · rename_i p ht
    split_ifs at h with hu
    · rw [Option.some.injEq, Prod.mk.injEq] at h
      refine .inl ⟨h.1.symm, h.2.symm, fun q hq => ?_⟩
      obtain rfl := Option.some.inj (ht.symm.trans hq)
      exact hu
    · refine .inr ⟨p, ht, by simpa using hu, ?_⟩
      rcases hc : threadCreate L L.userProcessEntry k with _ | ⟨k1, _ | i⟩ <;> rw [hc] at h <;>
        simp only [Option.bind_eq_bind, Option.bind_none, Option.bind_some, Option.some.injEq,
          Prod.mk.injEq, reduceCtorEq] at h
      · exact .inl ⟨h.2.symm, by rw [h.1]⟩
      · obtain ⟨rfl, rfl⟩ := h
        exact .inr ⟨i, k1, rfl, rfl, rfl⟩

theorem userFork_of_created {tf : TrapFrame} {v : ℤ} {k1 : Kernel} {p i : Slot} (ht : k.tp = some p)
    (hu : (k.tasks p).isUser = true)
    (hc : threadCreate L L.userProcessEntry k = some (k1, some i))
    (h : userFork L tf k = some (k', v)) : v = (k'.tasks i).pid ∧
      k' = { k1.modify i (forkChild L i p (k1.tasks p) tf) with
        mem := memCopy k1.mem (L.userStackBase i) (k1.tasks p).userStackBase stackSize } := by
  rcases userFork_cases h with ⟨-, -, hn⟩ | ⟨q, hq, -, ⟨-, hn⟩ | ⟨j, k2, hc', hv, hk⟩⟩
  · rw [hn p ht] at hu
    cases hu
  · rw [hc] at hn
    simp at hn
  · obtain rfl := Option.some.inj (ht.symm.trans hq)
    rw [hc] at hc'
    simp only [Option.some.injEq, Prod.mk.injEq] at hc'
    obtain ⟨rfl, rfl⟩ := hc'
    exact ⟨hv, hk⟩

end Cases

/-- `user_exec_current`, with the frame it leaves. -/
def userExecCurrent (L : Layout) (file : Option (List Byte)) (sstatus : Word) (k : Kernel)
    (tf : TrapFrame) : Kernel × TrapFrame × ℤ :=
  match k.tp with
  | none => (k, tf, -1)
  | some i =>
    if (k.tasks i).isUser = false then (k, tf, -1)
    else
      match userLoadImage k.mem file with
      | (m, none) => ({ k with mem := m }, tf, -1)
      | (m, some entry) =>
        let k := { k with mem := memZero m (L.userStackBase i) stackSize }
        let k := k.modify i fun t => { t.signalTaskInit with
          userStackBase := L.userStackBase i
          userStackTop := L.userStackTop i }
        (k, setupUserTrapframe L i (L.userStackTop i) entry sstatus, 0)

end OscKernel.User.Process
