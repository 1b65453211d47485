import OscKernel.Proc.Homes

/-! # What the start of a program changes

All programs are loaded into the one region from `USER_PROG_BASE` on. A program is started by `exec`
of a user process, or by `user_process_create_from_file`.

* `Starts.task`, `Starts.mem`: a start leaves the other live tasks alone, and the memory outside the
  load region and the user stack of its process.
* `undisturbed_of_run`: what a start leaves to the other processes, in every run. -/

namespace OscKernel.Proc.Images

open OscKernel.Lib.Memory OscKernel.Lib.Riscv OscKernel.Lib.Transition
open OscKernel.Thread.Task OscKernel.Thread.RunQueue OscKernel.Thread.Sched
open OscKernel.Thread.Effect OscKernel.User.Signal OscKernel.User.Process
open OscKernel.Proc.Ops OscKernel.Proc.System OscKernel.Proc.Step OscKernel.Proc.Homes
open OscKernel.Proc.Delivery (step)

/-! ### Areas of memory -/

/-- The address `b` lies in the `n` bytes from `a` on. -/
def Within (a : Word) (n : ℕ) (b : Word) : Prop := (b - a).toNat < n

section Mem
variable {m : Mem} {a b : Word} {n : ℕ}

theorem within_iff (h : a.toNat + n ≤ 2 ^ 64) :
    Within a n b ↔ a.toNat ≤ b.toNat ∧ b.toNat < a.toNat + n := by
  have ha := a.isLt
  have hb := b.isLt
  rw [Within, BitVec.toNat_sub]
  omega

theorem within_add {i : ℕ} (hi : i < n) (hn : n ≤ 2 ^ 64) : Within a n (a + BitVec.ofNat 64 i) := by
  have ha := a.isLt
  rw [Within, BitVec.toNat_sub, BitVec.toNat_add, BitVec.toNat_ofNat]
  omega

theorem memZero_outside (hn : n ≤ 2 ^ 64) (h : ¬ Within a n b) : memZero m a n b = m b := by
  induction n with
  | zero => rfl
  | succ n ih =>
    have hne : b ≠ a + BitVec.ofNat 64 n := by
      rintro rfl
      exact h (within_add (by omega) hn)
    rw [memZero, Function.update_of_ne hne]
    exact ih (by omega) fun hb => h (by unfold Within at hb ⊢; omega)

theorem memZero_inside (hn : n ≤ 2 ^ 64) (h : Within a n b) : memZero m a n b = 0 := by
  induction n with
  | zero => exact absurd h (Nat.not_lt_zero _)
  | succ n ih =>
    rw [memZero]
    by_cases he : b = a + BitVec.ofNat 64 n
    · rw [he, Function.update_self]
    · rw [Function.update_of_ne he]
      refine ih (by omega) ?_
      unfold Within at h ⊢
      bv_omega

theorem memWrite_concat (m : Mem) (a : Word) (file : List Byte) (x : Byte) :
    memWrite m a (file ++ [x]) =
      Function.update (memWrite m a file) (a + BitVec.ofNat 64 file.length) x := by
  simp [memWrite, List.zipIdx_append]

theorem memWrite_outside {file : List Byte} (hn : file.length ≤ 2 ^ 64)
    (h : ¬ Within a file.length b) : memWrite m a file b = m b := by
  induction file using List.reverseRecOn with
  | nil => rfl
  | append_singleton file x ih =>
    rw [List.length_append, List.length_singleton] at hn h
    have hne : b ≠ a + BitVec.ofNat 64 file.length := by
      rintro rfl
      exact h (within_add (by omega) hn)
    rw [memWrite_concat, Function.update_of_ne hne]
    exact ih (by omega) fun hb => h (by unfold Within at hb ⊢; omega)

theorem memWrite_inside {file : List Byte} (hn : file.length ≤ 2 ^ 64) {i : ℕ}
    (hi : i < file.length) :
    memWrite m a file (a + BitVec.ofNat 64 i) = file[i] := by
  induction file using List.reverseRecOn with
  | nil => exact absurd hi (Nat.not_lt_zero _)
  | append_singleton file x ih =>
    rw [List.length_append, List.length_singleton] at hn hi
    rw [memWrite_concat]
    rcases Nat.lt_succ_iff_lt_or_eq.1 hi with hi | rfl
    · have hne : a + BitVec.ofNat 64 i ≠ a + BitVec.ofNat 64 file.length := by
        intro he
        have he' := congrArg BitVec.toNat ((BitVec.add_right_inj a).1 he)
        rw [BitVec.toNat_ofNat, BitVec.toNat_ofNat] at he'
        omega
      rw [Function.update_of_ne hne, ih (by omega) hi, List.getElem_append_left]
    · rw [Function.update_self]
      simp

/-! ### The load region -/

/-- The load region, at which all programs stand. -/
def InLoadRegion (b : Word) : Prop := Within userProgBase userProgMaxSize b

/-- The file is loaded: it is found, and it is neither empty nor too large. -/
def Loadable (file : Option (List Byte)) : Prop :=
  ∃ data, file = some data ∧ data.length ≠ 0 ∧ data.length ≤ userProgMaxSize

/-- **`user_load_image_from_initrd`** writes to the load region only, and only if it loads the
file. -/
theorem userLoadImage_cases (m : Mem) (file : Option (List Byte)) :
    (¬ Loadable file ∧ userLoadImage m file = (m, none)) ∨
      (Loadable file ∧ ∃ m', userLoadImage m file = (m', some userProgBase) ∧
        ∀ b, ¬ InLoadRegion b → m' b = m b) := by
  unfold userLoadImage
  rcases file with _ | data
  · refine .inl ⟨?_, rfl⟩
    rintro ⟨data, hd, -⟩
    cases hd
  · dsimp only
    split_ifs with hlen
    · refine .inl ⟨?_, rfl⟩
      rintro ⟨d, hd, h0, hle⟩
      obtain rfl := Option.some.inj hd
      omega
    · obtain ⟨h0, hle⟩ := not_or.1 hlen
      have hle := not_lt.1 hle
      refine .inr ⟨⟨data, rfl, h0, hle⟩, _, rfl, fun b hb => ?_⟩
      unfold InLoadRegion at hb
      have hbase : userProgBase.toNat = 0x03000000 := by decide
      have htramp : userSigtrampBase.toNat = 0x033FF000 := by decide
      have hmax : userProgMaxSize = 0x00400000 := rfl
      have h12 : trampolineCode.length = 12 := rfl
      rw [within_iff (by omega)] at hb
      rw [memWrite_outside (by omega), memWrite_outside (by omega), memZero_outside (by omega)]
      · rw [within_iff (by omega)]
        omega
      · rw [within_iff (by omega)]
        omega
      · rw [within_iff (by omega)]
        omega

theorem userLoadImage_first (m : Mem) (x : Byte) :
    (userLoadImage m (some [x])).1 userProgBase = x := by
  have hne : ¬ Within userSigtrampBase trampolineCode.length userProgBase := by
    unfold Within
    decide
  have hlen : ¬ ([x].length = 0 ∨ userProgMaxSize < [x].length) := by
    simp [userProgMaxSize]
  rw [userLoadImage, if_neg hlen]
  dsimp only
  rw [memWrite_outside (by decide) hne]
  have h0 : memWrite (memZero m userProgBase userProgMaxSize) userProgBase [x]
      (userProgBase + BitVec.ofNat 64 0) = x := memWrite_inside (by simp) (by simp)
  simpa using h0

end Mem

/-! ### What a start changes -/

/-- The thread of the slot `c` starts a program from a file: by `user_exec_current`, as a user process
that has left its task in `tp`, or by `user_process_create_from_file`. The last slot is that of the
process that runs the program, if there is one. -/
inductive Starts (L : Layout) (file : Option (List Byte)) (c : Slot) (k : Kernel) :
    Kernel → Option Slot → Prop
  | exec (hu : (k.tasks c).isUser = true) (sstatus : Word) (tf : TrapFrame) :
      Starts L file c k (userExecCurrent L file sstatus (k.setTp (some c)) tf).1 (some c)
  | create {sstatus : Word} {tp r : Option Slot} {k' : Kernel}
      (h : userProcessCreateFromFile L file sstatus (k.setTp tp) = some (k', r)) :
      Starts L file c k k' r

/-- A live user process. -/
def LiveUser (k : Kernel) (j : Slot) : Prop := (k.tasks j).isUser = true ∧ isRunnable k j

section Starts
variable {L : Layout} {k k' : Kernel} {file : Option (List Byte)} {r : Option Slot}
  {c j : Slot} {b : Word}

theorem taskReap_mem (k : Kernel) (task : Option Slot) : (taskReap k task).mem = k.mem := by
  unfold taskReap
  split
  · rfl
  · split_ifs <;> rfl

theorem killZombies_mem (k : Kernel) : (killZombies k).mem = k.mem := by
  unfold killZombies
  generalize (List.finRange 16).drop 1 = l
  induction l generalizing k with
  | nil => rfl
  | cons i l ih =>
    rw [List.foldl_cons, ih]
    unfold killZombie
    split_ifs
    · rfl
    · rfl
    · exact taskReap_mem k _

theorem killZombies_live (hj : isRunnable k j) : (killZombies k).tasks j = k.tasks j := by
  have hz : ∀ {k : Kernel} {i}, isRunnable k j → isRunnable (killZombie k i) j ∧
      (killZombie k i).tasks j = k.tasks j := by
    intro k i hr
    unfold killZombie taskReap
    dsimp only
    split_ifs with h1 h2 h3
    · exact ⟨hr, rfl⟩
    · exact ⟨hr, rfl⟩
    · exact ⟨hr, rfl⟩
    · have hne : j ≠ i := by
        rintro rfl
        exact (isRunnable_iff.1 hr).2 (not_not.1 h1)
      have hs : (k.modify i reaped).tasks j = k.tasks j := k.modify_of_ne i _ hne
      exact ⟨by rwa [isRunnable, Kernel.state, hs], hs⟩
  unfold killZombies
  generalize (List.finRange 16).drop 1 = l
  induction l generalizing k with
  | nil => rfl
  | cons i l ih =>
    rw [List.foldl_cons, ih (hz hj).1, (hz hj).2]

/-- **`thread_create`** takes a slot that is not alive, and changes of the live tasks their links
only. -/
theorem threadCreate_live {fn : Word} (hj : isRunnable k j)
    (hk : threadCreate L fn k = some (k', r)) :
    (k'.tasks j).core = (k.tasks j).core ∧ r ≠ some j := by
  have hz := killZombies_live hj
  rcases threadCreate_cases hk with ⟨rfl, rfl, -⟩ | ⟨i, rfl, hi, -, rfl⟩
  · rw [hz]
    exact ⟨rfl, by simp⟩
  · have hji : j ≠ i := by
      rintro rfl
      rw [Kernel.state, hz] at hi
      exact (isRunnable_iff.1 hj).1 hi
    refine ⟨?_, fun he => hji (Option.some.inj he).symm⟩
    rw [(runqAdd_queueOnly _ i).core]
    change (((killZombies k).modify i _).tasks j).core = _
    rw [Kernel.modify_of_ne _ i _ hji, hz]

/-- **`thread_create`** leaves the memory alone. -/
theorem threadCreate_mem {fn : Word} (hk : threadCreate L fn k = some (k', r)) : k'.mem = k.mem := by
  rcases threadCreate_cases hk with ⟨-, rfl, -⟩ | ⟨i, -, -, -, rfl⟩
  · exact killZombies_mem k
  · exact (runqAdd_queueOnly _ i).mem.trans (killZombies_mem k)

/-- **`user_process_create`** takes a slot that is not alive and clears its user stack. -/
theorem userProcessCreate_starts {entry sstatus : Word}
    (hk : userProcessCreate L entry sstatus k = some (k', r)) :
    (∀ j, isRunnable k j → (k'.tasks j).core = (k.tasks j).core ∧ r ≠ some j) ∧
      ∀ b, (∀ i, r = some i → ¬ Within (L.userStackBase i) stackSize b) → k'.mem b = k.mem b := by
  rcases userProcessCreate_cases hk with ⟨rfl, hc⟩ | ⟨i, k1, rfl, hc, rfl⟩
  · refine ⟨fun j hj => ?_, fun b _ => ?_⟩
    · exact ⟨(threadCreate_live hj hc).1, by simp⟩
    · rw [threadCreate_mem hc]
  · refine ⟨fun j hj => ?_, fun b hb => ?_⟩
    · obtain ⟨h1, hne⟩ := threadCreate_live hj hc
      refine ⟨?_, hne⟩
      have hji : j ≠ i := fun he => hne (congrArg some he.symm)
      change ((k1.modify i _).tasks j).core = _
      rw [k1.modify_of_ne i _ hji, h1]
    · change memZero k1.mem _ _ b = _
      rw [memZero_outside (by decide) (hb i rfl), threadCreate_mem hc]

/-- **`exec`** changes the task of its caller only. -/
theorem userExecCurrent_task {sstatus : Word} {tf : TrapFrame} (ht : k.tp = some c) (hj : j ≠ c) :
    (userExecCurrent L file sstatus k tf).1.tasks j = k.tasks j := by
  unfold userExecCurrent
  rw [ht]
  dsimp only
  split_ifs
  · rfl
  · split
    · rfl
    · dsimp only
      rw [Kernel.modify_of_ne _ c _ hj]

/-- **`exec`** changes the load region and the user stack of its caller, or nothing. -/
theorem userExecCurrent_memory (L : Layout) (file : Option (List Byte)) (sstatus : Word)
    (tf : TrapFrame) (ht : k.tp = some c) :
    (¬ Loadable file → (userExecCurrent L file sstatus k tf).1.mem = k.mem) ∧
      ∀ b, ¬ InLoadRegion b → ¬ Within (L.userStackBase c) stackSize b →
        (userExecCurrent L file sstatus k tf).1.mem b = k.mem b := by
  unfold userExecCurrent
  rw [ht]
  dsimp only
  split_ifs
  · exact ⟨fun _ => rfl, fun _ _ _ => rfl⟩
  · rcases userLoadImage_cases k.mem file with ⟨hl, he⟩ | ⟨hl, m', he, hm⟩
    · rw [he]
      exact ⟨fun _ => rfl, fun _ _ _ => rfl⟩
    · rw [he]
      refine ⟨fun hn => absurd hl hn, fun b hb hs => ?_⟩
      change memZero m' _ _ b = _
      rw [memZero_outside (by decide) hs, hm b hb]

/-- **The tasks**: a start leaves the other live tasks as they are, up to their links. -/
theorem Starts.task (h : Starts L file c k k' r) (hj : isRunnable k j) (hne : r ≠ some j) :
    (k'.tasks j).core = (k.tasks j).core := by
  rcases h with ⟨hu, sstatus, tf⟩ | ⟨h⟩
  · have hjc : j ≠ c := fun he => hne (congrArg some he.symm)
    rw [userExecCurrent_task (k := k.setTp (some c)) rfl hjc, Kernel.setTp_tasks]
  · rcases userProcessCreateFromFile_cases h with ⟨-, m, -, rfl⟩ | ⟨m, entry, -, h⟩
    · rfl
    · have h1 := ((userProcessCreate_starts h).1 j hj).1
      exact h1

/-- **The memory**: a start changes the load region and the user stack of its process; if the file is
not loaded, it changes nothing. -/
theorem Starts.mem (h : Starts L file c k k' r) :
    (¬ Loadable file → k'.mem = k.mem) ∧
      ∀ b, ¬ InLoadRegion b → (∀ i, r = some i → ¬ Within (L.userStackBase i) stackSize b) →
        k'.mem b = k.mem b := by
  rcases h with ⟨hu, sstatus, tf⟩ | @⟨sstatus, tp, r, k', h⟩
  · obtain ⟨hfail, hmem⟩ := userExecCurrent_memory (k := k.setTp (some c)) L file sstatus tf rfl
    exact ⟨hfail, fun b hb hs => hmem b hb (hs c rfl)⟩
  · unfold userProcessCreateFromFile at h
    rcases userLoadImage_cases (k.setTp tp).mem file with ⟨hl, he⟩ | ⟨hl, m', he, hm⟩
    · rw [he, Option.some.injEq, Prod.mk.injEq] at h
      rw [← h.1]
      exact ⟨fun _ => rfl, fun _ _ _ => rfl⟩
    · rw [he] at h
      refine ⟨fun hn => absurd hl hn, fun b hb hs => ?_⟩
      exact ((userProcessCreate_starts h).2 b hs).trans (hm b hb)

theorem userExecCurrent_mem {c : Slot} {sstatus : Word} {tf : TrapFrame} (ht : k.tp = some c)
    (hu : (k.tasks c).isUser = true) (hl : Loadable file)
    (hb : ¬ Within (L.userStackBase c) stackSize b) :
    (userExecCurrent L file sstatus k tf).1.mem b = (userLoadImage k.mem file).1 b := by
  unfold userExecCurrent
  rw [ht]
  dsimp only
  rw [if_neg (by simp [hu])]
  rcases userLoadImage_cases k.mem file with ⟨hn, -⟩ | ⟨-, m', he, -⟩
  · exact absurd hl hn
  · rw [he]
    change memZero m' _ _ b = m' b
    exact memZero_outside (by decide) hb

theorem userExecCurrent_clears {c : Slot} {sstatus : Word} {tf : TrapFrame} (ht : k.tp = some c)
    (hu : (k.tasks c).isUser = true) (hl : Loadable file)
    (hb : Within (L.userStackBase c) stackSize b) :
    (userExecCurrent L file sstatus k tf).1.mem b = 0 := by
  unfold userExecCurrent
  rw [ht]
  dsimp only
  rw [if_neg (by simp [hu])]
  rcases userLoadImage_cases k.mem file with ⟨hn, -⟩ | ⟨-, m', he, -⟩
  · exact absurd hl hn
  · rw [he]
    exact memZero_inside (by decide) hb

end Starts

/-! ### Every run -/

/-- The user stacks are part of the kernel image, and the load region does not overlap it. -/
structure UserStacksApart (L : Layout) : Prop where
  fit : L.userStacks.toNat + 16 * stackSize ≤ 2 ^ 64
  apart : L.userStacks.toNat + 16 * stackSize ≤ userProgBase.toNat ∨
    userProgBase.toNat + userProgMaxSize ≤ L.userStacks.toNat

/-- The process in the slot `j` keeps its task, with its trap frames and its signal state, and its
user stack. -/
structure KeepsState (k k' : Kernel) (j : Slot) : Prop where
  task : (k'.tasks j).core = (k.tasks j).core
  userStack : ∀ b, Within (k.tasks j).userStackBase stackSize b → k'.mem b = k.mem b

/-- The process also keeps the program that it was loaded with. -/
structure Undisturbed (k k' : Kernel) (j : Slot) : Prop extends KeepsState k k' j where
  image : ∀ b, InLoadRegion b → k'.mem b = k.mem b

section Run
variable {L : Layout} {m : Mem} {es : List Event} {s : Sys} {file : Option (List Byte)} {k' : Kernel}
  {r : Option Slot} {i j : Slot} {b : Word}

theorem toNat_element {arr : Word} (h : arr.toNat + 16 * stackSize ≤ 2 ^ 64) (i : Slot) :
    (arr + BitVec.ofNat 64 (stackSize * i.val)).toNat = arr.toNat + stackSize * i.val := by
  have hi := i.isLt
  unfold stackSize at h ⊢
  rw [BitVec.toNat_add, BitVec.toNat_ofNat]
  omega

theorem within_stack_iff (hf : L.userStacks.toNat + 16 * stackSize ≤ 2 ^ 64) :
    Within (L.userStackBase i) stackSize b ↔ L.userStacks.toNat + stackSize * i.val ≤ b.toNat ∧
      b.toNat < L.userStacks.toNat + stackSize * i.val + stackSize := by
  have hi := i.isLt
  have hb : (L.userStackBase i).toNat = _ := toNat_element hf i
  rw [Images.within_iff, hb]
  rw [hb]
  unfold stackSize at hf ⊢
  omega

theorem not_within_stack (hf : L.userStacks.toNat + 16 * stackSize ≤ 2 ^ 64) (hij : i ≠ j)
    (hb : Within (L.userStackBase j) stackSize b) : ¬ Within (L.userStackBase i) stackSize b := by
  have hne : i.val ≠ j.val := fun he => hij (Fin.ext he)
  rw [within_stack_iff hf] at hb ⊢
  unfold stackSize at hb ⊢
  omega

theorem UserStacksApart.not_inLoadRegion (h : UserStacksApart L)
    (hb : Within (L.userStackBase j) stackSize b) : ¬ InLoadRegion b := by
  have ha := h.apart
  have hj := j.isLt
  have hbase : userProgBase.toNat = 0x03000000 := by decide
  rw [within_stack_iff h.fit] at hb
  unfold InLoadRegion
  rw [Images.within_iff (by decide)]
  unfold stackSize at ha hb
  omega

/-- **The start of a program** leaves every other live process its trap frames, its signal state and
its user stack, in every run. Of the memory it changes the load region, at which all programs stand,
and the user stack of its own process; and if the file is not loaded, it changes no program. -/
theorem undisturbed_of_run (hL : UserStacksApart L)
    (h : Run (step L) (fun _ _ => True) (boot L m) es s)
    (hs : Starts L file s.me s.k k' r) :
    (∀ j, LiveUser s.k j → r ≠ some j →
      KeepsState s.k k' j ∧ (¬ Loadable file → Undisturbed s.k k' j)) ∧
    ∀ b, ¬ InLoadRegion b → (∀ i, r = some i → ¬ Within (L.userStackBase i) stackSize b) →
      k'.mem b = s.k.mem b := by
  obtain ⟨hfail, hmem⟩ := hs.mem
  refine ⟨fun j hj hne => ?_, hmem⟩
  have hbase := ((housed_of_run h j).stack hj.1).1
  have hkeep : KeepsState s.k k' j := by
    refine ⟨hs.task hj.2 hne, fun b hb => hmem b ?_ ?_⟩
    · rw [hbase] at hb
      exact hL.not_inLoadRegion hb
    · rw [hbase] at hb
      intro i hi
      refine not_within_stack hL.fit ?_ hb
      rintro rfl
      exact hne hi
  exact ⟨hkeep, fun hn => ⟨hkeep, fun b _ => congrFun (hfail hn) b⟩⟩

/-- A byte near the top of the user stack of the slot `1`. -/
def stackByte : Word := sampleLayout.userStackTop 1 - 8

/-- A process forks and stores a byte on its stack, and its child gets the processor. -/
def forkRun : List Event :=
  [.runUserFile (some [0x13]), .go true, .go true, .go true, callOf sampleLayout 1 4 0,
    .store stackByte 42, timerOf sampleLayout 1, .go true, .go true]

theorem forkRun_ends : ∃ s, Run (step sampleLayout) (TpKept sampleLayout)
    (boot sampleLayout fun _ => 0) forkRun s ∧ s.me = 2 ∧ LiveUser s.k 1 ∧ LiveUser s.k 2 ∧
      s.k.mem stackByte = 42 := by
  have hex : ((exec (step sampleLayout) (fun s e => decide (TpKept sampleLayout s e))
      (boot sampleLayout fun _ => 0) forkRun).map fun s =>
        (s.me, (s.k.tasks 1).isUser, s.k.state 1, (s.k.tasks 2).isUser, s.k.state 2,
          s.k.mem stackByte)) =
      some (2, true, .runnable, true, .running, 42) := by decide +kernel
  obtain ⟨s, hr, hv⟩ := Run.exists_of_exec (C := TpKept sampleLayout)
    (fun _ _ ho => of_decide_eq_true ho) hex
  simp only [Prod.mk.injEq] at hv
  obtain ⟨hme, hu1, hs1, hu2, hs2, hbyte⟩ := hv
  exact ⟨s, hr, hme, ⟨hu1, .inl hs1⟩, ⟨hu2, .inr hs2⟩, hbyte⟩

/-- The child calls `exec` with a file that is found: its parent keeps its task and its stack, with the
byte on it. -/
theorem undisturbed_of_run_fork : ∃ s k', Run (step sampleLayout) (fun _ _ => True)
    (boot sampleLayout fun _ => 0) forkRun s ∧
      Starts sampleLayout (some [0x14]) s.me s.k k' (some 2) ∧ Loadable (some [0x14]) ∧
      KeepsState s.k k' 1 ∧ k'.mem stackByte = 42 := by
  have hL : UserStacksApart sampleLayout := ⟨by decide, .inl (by decide)⟩
  obtain ⟨s, hr, hme, h1, h2, hbyte⟩ := forkRun_ends
  have hr : Run (step sampleLayout) (fun _ _ => True) _ forkRun s := hr.mono fun _ _ _ => trivial
  obtain ⟨k', hs⟩ : ∃ k', Starts sampleLayout (some [0x14]) s.me s.k k' (some 2) := by
    rw [hme]
    exact ⟨_, .exec h2.1 0 .zero⟩
  have hload : Loadable (some [0x14]) := ⟨_, rfl, by simp, by simp [userProgMaxSize]⟩
  obtain ⟨hstate, hmem⟩ := undisturbed_of_run hL hr hs
  have hout : ¬ InLoadRegion stackByte := by
    unfold InLoadRegion Within
    decide
  have hother : ∀ i, some (2 : Slot) = some i →
      ¬ Within (sampleLayout.userStackBase i) stackSize stackByte := by
    intro i hi
    obtain rfl := Option.some.inj hi
    unfold Within
    decide
  exact ⟨s, k', hr, hs, hload, (hstate 1 h1 (by decide)).1, (hmem _ hout hother).trans hbyte⟩

/-- **The other process loses its program, or its stack**: after a fork the child calls `exec`. The
first byte of its parent's program changes; and if the child has put its parent's task into `tp`, the
stack of the parent is cleared. -/
theorem not_undisturbed_exec : ∃ s file k', Run (step sampleLayout) (TpKept sampleLayout)
    (boot sampleLayout fun _ => 0) forkRun s ∧ Starts sampleLayout file s.me s.k k' (some 2) ∧
      LiveUser s.k 1 ∧ ¬ Undisturbed s.k k' 1 ∧
      ¬ KeepsState s.k (userExecCurrent sampleLayout file 0 (s.k.setTp (some 1)) .zero).1 1 := by
  obtain ⟨s, hr, hme, h1, h2, hbyte⟩ := forkRun_ends
  set x : Byte := s.k.mem userProgBase + 1 with hx
  have hs : Starts sampleLayout (some [x]) s.me s.k
      (userExecCurrent sampleLayout (some [x]) 0 (s.k.setTp (some 2)) .zero).1 (some 2) := by
    rw [hme]
    exact .exec h2.1 0 .zero
  have hl : Loadable (some [x]) := ⟨[x], rfl, by simp, by simp [userProgMaxSize]⟩
  refine ⟨s, some [x], _, hr, hs, h1, fun hu => ?_, fun hk => ?_⟩
  · have himg := hu.image userProgBase (by unfold InLoadRegion Within; decide)
    have hstack : ¬ Within (sampleLayout.userStackBase 2) stackSize userProgBase := by
      unfold Within
      decide
    rw [userExecCurrent_mem (k := s.k.setTp (some 2)) rfl h2.1 hl hstack,
      userLoadImage_first] at himg
    have hne : ∀ y : Byte, y + 1 ≠ y := by decide
    exact hne _ himg
  · have hbase : (s.k.tasks 1).userStackBase = sampleLayout.userStackBase 1 :=
      ((housed_of_run (hr.mono fun _ _ _ => trivial) 1).stack h1.1).1
    have hin : Within (sampleLayout.userStackBase 1) stackSize stackByte := by
      unfold Within
      decide
    have hsame := hk.userStack stackByte (by rwa [hbase])
    rw [userExecCurrent_clears (k := s.k.setTp (some 1)) rfl h1.1 hl hin, hbyte] at hsame
    exact absurd hsame (by decide)

end Run

end OscKernel.Proc.Images
