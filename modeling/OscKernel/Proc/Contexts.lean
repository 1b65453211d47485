import OscKernel.Proc.Step

/-! # What becomes of the contexts

`ContextFates P k k'`: between `k` and `k'` every task keeps its context and its entry, or its context
is cleared, or it is set up to start at an entry that `P` allows. Only `switch_to` saves a context. This
holds whatever task user code has put into `tp`.

* `KernelRel`: the changes that the functions of the kernel make, as a relation that holds over each of
  them (`syscallHandler_rel` and the lemmas before it).
* `step_turn`: a step stays with the thread on the processor, or it is one `switch_to`. -/

namespace OscKernel.Proc.Contexts

open OscKernel.Lib.Memory OscKernel.Lib.Riscv
open OscKernel.Thread.Task OscKernel.Thread.RunQueue OscKernel.Thread.Sched
open OscKernel.Thread.Effect OscKernel.User.Signal OscKernel.User.Process
open OscKernel.Proc.Ops OscKernel.Proc.System OscKernel.Proc.Step

/-- What becomes of the context and the entry of a task. -/
inductive ContextFate (P : Word → Prop) (t t' : TaskStruct) : Prop
  | kept (hc : t'.context = t.context) (he : t'.entry = t.entry)
  | cleared (hc : t'.context = .clear)
  | started (hc : ∃ ra sp, t'.context = .start ra sp) (he : P t'.entry)

/-- What becomes of the contexts and the entries of all tasks. -/
def ContextFates (P : Word → Prop) (k k' : Kernel) : Prop :=
  ∀ i, ContextFate P (k.tasks i) (k'.tasks i)

section Contexts
variable {P : Word → Prop} {k k1 k' : Kernel} {i : Slot}

theorem ContextFates.refl (P : Word → Prop) (k : Kernel) : ContextFates P k k := fun _ => .kept rfl rfl

theorem ContextFates.store (P : Word → Prop) (k : Kernel) (a : Word) (v : Byte) :
    ContextFates P k (k.store a v) := fun _ => .kept rfl rfl

theorem ContextFates.trans (h : ContextFates P k k1) (h' : ContextFates P k1 k') :
    ContextFates P k k' := by
  intro i
  rcases h' i with ⟨hc', he'⟩ | hc' | ⟨hc', he'⟩
  · rcases h i with ⟨hc, he⟩ | hc | ⟨hc, he⟩
    · exact .kept (hc'.trans hc) (he'.trans he)
    · exact .cleared (hc'.trans hc)
    · exact .started (by rwa [hc']) (by rwa [he'])
  · exact .cleared hc'
  · exact .started hc' he'

theorem ContextFates.modify {f : TaskStruct → TaskStruct} (hc : ∀ t, (f t).context = t.context)
    (he : ∀ t, (f t).entry = t.entry) : ContextFates P k (k.modify i f) := fun j =>
  .kept (k.modify_proj i f TaskStruct.context (hc _) j) (k.modify_proj i f TaskStruct.entry (he _) j)

theorem ContextFates.queueOnly (h : QueueOnly k k') : ContextFates P k k' := fun i =>
  .kept (h.proj TaskStruct.context (fun _ => rfl) i) (h.proj TaskStruct.entry (fun _ => rfl) i)

/-- No context is saved. -/
theorem ContextFates.saved (h : ContextFates P k k') {o : Slot} {a : Act}
    (hc : (k'.tasks i).context = .saved o a) : (k.tasks i).context = .saved o a := by
  rcases h i with ⟨hc', -⟩ | hc' | ⟨⟨ra, sp, hc'⟩, -⟩
  · exact hc' ▸ hc
  · rw [hc'] at hc
    cases hc
  · rw [hc'] at hc
    cases hc

/-- A task that has not run starts at an entry that it had before, or at one that `P` allows. -/
theorem ContextFates.start (h : ContextFates P k k') {ra sp : Word}
    (hc : (k'.tasks i).context = .start ra sp) :
    ((k.tasks i).context = .start ra sp ∧ (k'.tasks i).entry = (k.tasks i).entry) ∨
      P (k'.tasks i).entry := by
  rcases h i with ⟨hc', he⟩ | hc' | ⟨-, he⟩
  · exact .inl ⟨hc' ▸ hc, he⟩
  · rw [hc'] at hc
    cases hc
  · exact .inr he

end Contexts

/-! ### What the functions of the kernel keep -/

/-- A relation between two states of the kernel that holds over every change that a function of the
kernel makes, as long as threads are created at functions of `P` only. -/
structure KernelRel (L : Layout) (P : Word → Prop) (R : Kernel → Kernel → Prop) : Prop where
  refl : ∀ k, R k k
  trans : ∀ k k1 k', R k k1 → R k1 k' → R k k'
  queueOnly : ∀ k k', QueueOnly k k' → R k k'
  setMem : ∀ k m, R k { k with mem := m }
  edit : ∀ k i f, (∀ t, (f t).context = t.context) → (∀ t, (f t).entry = t.entry) →
    R k (k.modify i f)
  reap : ∀ k i, R k (k.modify i reaped)
  create : ∀ k i fn, P fn →
    R k { k.modify i (newThread L fn k.nextPid i) with nextPid := k.nextPid + 1 }

theorem contexts_rel (L : Layout) (P : Word → Prop) : KernelRel L P (ContextFates P) where
  refl := .refl P
  trans _ _ _ := .trans
  queueOnly _ _ := .queueOnly
  setMem k _ := .refl P k
  edit _ _ _ := .modify
  reap k i j := by
    rcases eq_or_ne j i with rfl | hj
    · rw [k.modify_same]
      exact .cleared rfl
    · rw [k.modify_of_ne i _ hj]
      exact .kept rfl rfl
  create k i fn hP j := by
    change ContextFate P _ ((k.modify i _).tasks j)
    rcases eq_or_ne j i with rfl | hj
    · rw [Kernel.modify_same]
      exact .started ⟨_, _, rfl⟩ hP
    · rw [Kernel.modify_of_ne _ i _ hj]
      exact .kept rfl rfl

section Rel
variable {L : Layout} {P : Word → Prop} {R : Kernel → Kernel → Prop} (hR : KernelRel L P R)
  {k k1 k' : Kernel} {flow : Flow}
include hR

/-! ### Threads -/

theorem taskReap_rel (k : Kernel) (r : Option Slot) : R k (taskReap k r) := by
  unfold taskReap
  split
  · exact hR.refl _
  · split_ifs
    · exact hR.refl _
    · exact hR.refl _
    · exact hR.reap _ _

theorem reap_rel (k : Kernel) (i : Slot) :
    R k (if k.state i = .zombie then taskReap k (some i) else k) := by
  split_ifs
  · exact taskReap_rel hR k _
  · exact hR.refl _

theorem killZombies_rel (k : Kernel) : R k (killZombies k) := by
  unfold killZombies
  generalize (List.finRange 16).drop 1 = l
  induction l generalizing k with
  | nil => exact hR.refl _
  | cons i l ih =>
    rw [List.foldl_cons]
    refine hR.trans _ _ _ ?_ (ih _)
    unfold killZombie
    split_ifs
    · exact hR.refl _
    · exact hR.refl _
    · exact taskReap_rel hR k _

/-- **`thread_create`** sets up a thread that starts at its argument. -/
theorem threadCreate_rel {fn : Word} {r : Option Slot} (hP : P fn)
    (h : threadCreate L fn k = some (k', r)) : R k k' := by
  have hz : R k (killZombies k) := killZombies_rel hR k
  rcases threadCreate_cases h with ⟨-, rfl, -⟩ | ⟨i, -, -, -, rfl⟩
  · exact hz
  · exact hR.trans _ _ _ (hR.trans _ _ _ hz (hR.create _ i fn hP))
      (hR.queueOnly _ _ (runqAdd_queueOnly _ i))

theorem setState_rel (k : Kernel) (i : Slot) (s : TaskState) : R k (k.setState i s) :=
  hR.edit _ _ _ (fun _ => rfl) fun _ => rfl

theorem setExitStatus_rel (k : Kernel) (i : Slot) (v : BitVec 32) : R k (k.setExitStatus i v) :=
  hR.edit _ _ _ (fun _ => rfl) fun _ => rfl

theorem schedule_rel (h : schedule k = some (k', flow)) : R k k' := by
  rcases schedule_cases h with ⟨rfl, -⟩ | ⟨c, n, -, -, rfl | rfl⟩
  · exact hR.refl _
  · exact setState_rel hR _ _ _
  · exact hR.trans _ _ _ (setState_rel hR _ _ _) (setState_rel hR _ _ _)

theorem threadExit_rel (h : threadExit k = some (k', flow)) : R k k' := by
  obtain ⟨c, n, k1, -, hq, -, rfl⟩ := threadExit_cases h
  have hz := hR.trans _ _ _ (hR.queueOnly _ _ hq) (setState_rel hR k1 c .zombie)
  exact hR.trans _ _ _ hz (setState_rel hR _ _ _)

theorem taskKill_rel {pid r : ℤ} {status : BitVec 32}
    (h : taskKill k pid status = some (k', flow, r)) : R k k' := by
  rcases taskKill_cases h with ⟨rfl, -⟩ | ⟨c, -, -, he⟩ | ⟨j, k1, -, hq, -, -, -, rfl⟩
  · exact hR.refl _
  · exact hR.trans _ _ _ (setExitStatus_rel hR _ _ _) (threadExit_rel hR he)
  · have hs := hR.trans _ _ _ (hR.queueOnly _ _ hq) (setExitStatus_rel hR k1 j status)
    exact hR.trans _ _ _ hs (setState_rel hR _ _ _)

/-! ### User processes -/

section Process
variable (hP : P L.userProcessEntry)
include hP

theorem userProcessCreate_rel {entry sstatus : Word} {r : Option Slot}
    (h : userProcessCreate L entry sstatus k = some (k', r)) : R k k' := by
  rcases userProcessCreate_cases h with ⟨-, hc⟩ | ⟨i, k1, -, hc, rfl⟩
  · exact threadCreate_rel hR hP hc
  · have h1 : R k1 (k1.modify i (newProcess L i k1.tp entry sstatus)) :=
      hR.edit _ _ _ (fun _ => rfl) fun _ => rfl
    have h2 := hR.trans _ _ _ (threadCreate_rel hR hP hc) h1
    exact hR.trans _ _ _ h2 (hR.setMem _ _)

theorem userProcessCreateFromFile_rel {file : Option (List Byte)} {sstatus : Word}
    {r : Option Slot} (h : userProcessCreateFromFile L file sstatus k = some (k', r)) : R k k' := by
  rcases userProcessCreateFromFile_cases h with ⟨-, m, -, rfl⟩ | ⟨m, entry, -, h⟩
  · exact hR.setMem _ _
  · exact hR.trans _ _ _ (hR.setMem _ _) (userProcessCreate_rel hR hP h)

theorem userFork_rel {tf : TrapFrame} {v : ℤ} (h : userFork L tf k = some (k', v)) : R k k' := by
  rcases userFork_cases h with ⟨rfl, -⟩ | ⟨p, -, -, ⟨-, hc⟩ | ⟨i, k1, hc, -, rfl⟩⟩
  · exact hR.refl _
  · exact threadCreate_rel hR hP hc
  · have h1 : R k1 (k1.modify i (forkChild L i p (k1.tasks p) tf)) :=
      hR.edit _ _ _ (fun _ => rfl) fun _ => rfl
    have h2 := hR.trans _ _ _ (threadCreate_rel hR hP hc) h1
    exact hR.trans _ _ _ h2 (hR.setMem _ _)

end Process

/-! ### `exec` and signals -/

theorem userExecCurrent_rel {file : Option (List Byte)} {sstatus : Word} {tf : TrapFrame} :
    R k (userExecCurrent L file sstatus k tf).1 := by
  unfold userExecCurrent
  split
  · exact hR.refl _
  · rename_i i _
    split_ifs
    · exact hR.refl _
    · split
      · exact hR.setMem _ _
      · rename_i m _ _
        refine hR.trans _ _ _ (hR.setMem k (memZero m (L.userStackBase i) stackSize)) ?_
        dsimp only
        exact hR.edit _ _ _ (fun _ => rfl) fun _ => rfl

theorem sysSignal_rel {signum : ℤ} {handler : Word} : R k (sysSignal k signum handler).1 := by
  unfold sysSignal
  split
  · exact hR.refl _
  · split_ifs
    · exact hR.refl _
    · dsimp only
      exact hR.edit _ _ _ (fun _ => rfl) fun _ => rfl
    · exact hR.refl _

theorem sysSigreturn_rel {tf : TrapFrame} : R k (sysSigreturn k tf).1 := by
  unfold sysSigreturn
  split
  · exact hR.refl _
  · split_ifs
    · exact hR.refl _
    · exact hR.refl _
    · dsimp only
      exact hR.edit _ _ _ (fun _ => rfl) fun _ => rfl

theorem sysKill_rel {pid signum r : ℤ} (h : sysKill k pid signum = some (k', flow, r)) : R k k' := by
  rcases sysKill_outcome h with ⟨rfl, -⟩ | ⟨i, -, -, -, -, ⟨-, hk⟩ | ⟨-, -, -, rfl⟩⟩
  · exact hR.refl _
  · exact taskKill_rel hR hk
  · exact hR.edit _ _ _ (fun _ => rfl) fun _ => rfl

theorem signalTryDeliver_rel {tf tf' : TrapFrame}
    (h : signalTryDeliver L k tf = some (k', flow, tf')) : R k k' := by
  rcases signalTryDeliver_outcome h with
    ⟨rfl, -⟩ | ⟨i, signum, -, -, -, -, ⟨-, -, v, hk⟩ | ⟨-, -, rfl, -⟩⟩
  · exact hR.refl _
  · exact taskKill_rel hR hk
  · exact hR.edit _ _ _ (fun _ => rfl) fun _ => rfl

omit hR in
theorem ofFlow_rel {tf : TrapFrame} {r : Kernel × Flow × ℤ} {out : Outcome}
    (hr : R k r.1) (h : Outcome.ofFlow tf r = (k', out)) : R k k' := by
  obtain ⟨k1, _ | _, v⟩ := r <;>
    · rw [Outcome.ofFlow, Prod.mk.injEq] at h
      exact h.1 ▸ hr

theorem sysExit_rel {tf : TrapFrame} {status : BitVec 32} {out : Outcome}
    (h : sysExit k tf status = some (k', out)) : R k k' := by
  obtain ⟨i, -, ho⟩ := sysExit_outcome h
  have h1 : R k (k.setExitStatus i status) := setExitStatus_rel hR _ _ _
  rcases ho with ⟨-, rfl, -⟩ | ⟨-, k1, flow, he, hf⟩
  · exact h1
  · exact ofFlow_rel (hR.trans _ _ _ h1 (threadExit_rel hR he)) hf

/-- **`syscall_handler`**. -/
theorem syscallHandler_rel {file : Option (List Byte)} {sstatus : Word} {tf : TrapFrame}
    {out : Outcome} (hP : P L.userProcessEntry)
    (h : syscallHandler L file sstatus k tf = some (k', out)) : R k k' := by
  have hstay : ∀ {k1 : Kernel} {o}, R k k1 → some (k1, o) = some (k', out) → R k k' := by
    intro k1 o h1 he
    rw [Option.some.injEq, Prod.mk.injEq] at he
    exact he.1 ▸ h1
  have hrefl : R k k := hR.refl _
  unfold syscallHandler at h
  dsimp only at h
  split at h
  · exact hstay hrefl h
  · obtain ⟨i, -, h2⟩ := Option.map_eq_some_iff.1 h
    exact hstay hrefl (congrArg some h2)
  · split_ifs at h <;> exact hstay hrefl h
  · split_ifs at h <;> exact hstay hrefl h
  · exact hstay (userExecCurrent_rel hR) h
  · obtain ⟨⟨k1, v⟩, h1, h2⟩ := Option.map_eq_some_iff.1 h
    exact hstay (userFork_rel hR hP h1) (congrArg some h2)
  · split at h <;> exact hstay hrefl h
  · exact sysExit_rel hR h
  · obtain ⟨r, h1, h2⟩ := Option.map_eq_some_iff.1 h
    exact ofFlow_rel (taskKill_rel hR h1) h2
  · exact hstay hrefl h
  · split_ifs at h <;> exact hstay hrefl h
  · exact hstay (sysSignal_rel hR) h
  · exact hstay (sysSigreturn_rel hR) h
  · obtain ⟨r, h1, h2⟩ := Option.map_eq_some_iff.1 h
    exact ofFlow_rel (sysKill_rel hR h1) h2

end Rel

/-! ### Steps -/

/-- The call of `switch_to` in a step. -/
def switchOf (os : List Obs) : Option (Slot × Slot) :=
  os.findSome? fun
    | .switched prev next => some (prev, next)
    | .sysRet _ _ | .handler _ _ => none

theorem switchOf_handlerStarts (k k' : Kernel) (tf : TrapFrame) (os : List Obs) :
    switchOf (handlerStarts k k' tf ++ os) = switchOf os := by
  unfold switchOf handlerStarts
  rw [List.findSome?_append, List.findSome?_eq_none_iff.2, Option.none_or]
  intro o ho
  obtain ⟨i, -, rfl⟩ := List.mem_map.1 ho
  rfl

/-- The hart is in user code, or in a trap from user mode. -/
def Place.trapped : Place → Bool
  | .kernel act | .calls act => act.inTrap
  | .user _ => true

/-- `sstatus.SIE` while the kernel has the hart: a trap from user mode clears it. -/
def kernelSie (s : Sys) : Bool :=
  match s.place with
  | .user _ => false
  | _ => s.sie

/-- The entries of the threads that a step may create. -/
def entries (L : Layout) (e : Event) (w : Word) : Prop :=
  w = L.userProcessEntry ∨ e = .threadCreate w

/-- A step stays with the thread on the processor, or it is one `switch_to`, called at `act` or by a
thread that has died. -/
inductive Turn (L : Layout) (e : Event) (s t : Sys) (os : List Obs) : Prop
  | stays (hk : ContextFates (entries L e) s.k t.k) (hm : t.me = s.me) (ho : switchOf os = none)
      (hp : (∃ tf, t.place = .user tf) ∨
        (Place.trapped t.place = Place.trapped s.place ∧ t.sie = kernelSie s))
  | switches (k : Kernel) (prev next : Slot) (act a : Act) (hk : ContextFates (entries L e) s.k k)
      (hs : switchTo L k prev next s.me act = some (t.k, t.me, a))
      (ho : switchOf os = some (prev, next))
      (hp : t.place = .kernel a) (hsie : t.sie = kernelSie s) (ha : act = .dead ∨ s.place = .calls act)

section Turn
variable {L : Layout} {e : Event} {s t : Sys} {os : List Obs} {k : Kernel}

theorem kernelSie_of_kernel {act : Act} (hp : s.place = .kernel act) : s.sie = kernelSie s := by
  rw [kernelSie, hp]

theorem goto_turn {place : Place} (h : ContextFates (entries L e) s.k k) (hsie : s.sie = kernelSie s)
    (hs : s.goto k place = some (t, os)) (hp : Place.trapped place = Place.trapped s.place) :
    Turn L e s t os := by
  rw [Sys.goto, Option.some.injEq, Prod.mk.injEq] at hs
  obtain ⟨rfl, rfl⟩ := hs
  exact .stays h rfl rfl (.inr ⟨hp, hsie⟩)

theorem switch_turn {prev next : Slot} {act : Act} (h : ContextFates (entries L e) s.k k)
    (hsie : s.sie = kernelSie s) (ha : act = .dead ∨ s.place = .calls act)
    (hs : s.switch L k prev next act = some (t, os)) : Turn L e s t os := by
  obtain ⟨⟨k', me, a⟩, h1, h2⟩ := Option.map_eq_some_iff.1 hs
  rw [Prod.mk.injEq] at h2
  obtain ⟨rfl, rfl⟩ := h2
  exact .switches k prev next act a h h1 rfl rfl hsie ha

theorem returnToUser_turn {tf : TrapFrame} (h : ContextFates (entries L e) s.k k)
    (hs : s.returnToUser k tf = some (t, os)) {os' : List Obs} (ho : switchOf os' = switchOf os) :
    Turn L e s t os' := by
  unfold Sys.returnToUser at hs
  split_ifs at hs
  rw [Option.some.injEq, Prod.mk.injEq] at hs
  obtain ⟨rfl, rfl⟩ := hs
  exact .stays h rfl ho (.inl ⟨tf, rfl⟩)

theorem exitThread_turn (hsie : s.sie = kernelSie s) (hp : Place.trapped s.place = false)
    (hs : s.exitThread L = some (t, os)) : Turn L e s t os := by
  obtain ⟨-, hs⟩ | ⟨-, k', prev, next, hx, hs⟩ := Sys.exitThread_outcome hs
  · exact goto_turn (.refl _ _) hsie hs hp.symm
  · exact switch_turn (threadExit_rel (contexts_rel L _) hx) hsie (.inl rfl) hs

theorem leaveTrap_turn {tf : TrapFrame} (h : ContextFates (entries L e) s.k k)
    (hsie : s.sie = kernelSie s) (hs : s.leaveTrap L k tf = some (t, os)) : Turn L e s t os := by
  obtain ⟨k', tf', os1, hd, h1, rfl⟩ | ⟨k', prev, next, tf', hd, hs⟩ := Sys.leaveTrap_outcome hs
  · exact returnToUser_turn (h.trans (signalTryDeliver_rel (contexts_rel L _) hd)) h1
      (switchOf_handlerStarts ..)
  · exact switch_turn (h.trans (signalTryDeliver_rel (contexts_rel L _) hd)) hsie (.inl rfl) hs

theorem afterSyscall_turn {call tf : TrapFrame} {v : Word} (h : ContextFates (entries L e) s.k k)
    (hsie : s.sie = kernelSie s) (hs : s.afterSyscall L k call tf v = some (t, os)) :
    Turn L e s t os := by
  obtain ⟨⟨t1, os1⟩, h1, h2⟩ := Option.map_eq_some_iff.1 hs
  rw [Prod.mk.injEq] at h2
  obtain ⟨rfl, rfl⟩ := h2
  rcases leaveTrap_turn h hsie h1 with ⟨hk, hm, ho, hp⟩ |
    ⟨k', prev, next, act, a, hk, hsw, ho, hp, hi, ha⟩
  · exact .stays hk hm ho hp
  · exact .switches k' prev next act a hk hsw ho hp hi ha

theorem doTrap_turn {file : Option (List Byte)} {tf tf0 : TrapFrame} (hp : s.place = .user tf0)
    (hsie : s.sie = false) (hs : s.doTrap L file tf = some (t, os)) : Turn L e s t os := by
  have hsie : s.sie = kernelSie s := by rw [hsie, kernelSie, hp]
  have htr : Place.trapped s.place = true := by rw [hp, Place.trapped]
  unfold Sys.doTrap at hs
  split_ifs at hs
  · exact goto_turn (.refl _ _) hsie hs htr.symm
  · exact leaveTrap_turn (.refl _ _) hsie hs
  · obtain ⟨k', tf', v, hc, hs⟩ | ⟨k', act, hc, hs⟩ | ⟨k', prev, next, hc, hs⟩ :=
      Sys.ecall_outcome hs
    · exact afterSyscall_turn (syscallHandler_rel (contexts_rel L _) (.inl rfl) hc) hsie hs
    · have ha : act.inTrap = true := by
        rcases syscallHandler_loop hc with ⟨pid, j, rfl, -⟩ | ⟨rfl, -⟩ | ⟨rfl, -⟩ | rfl <;> rfl
      exact goto_turn (syscallHandler_rel (contexts_rel L _) (.inl rfl) hc) hsie hs (ha.trans htr.symm)
    · exact switch_turn (syscallHandler_rel (contexts_rel L _) (.inl rfl) hc) hsie (.inl rfl) hs

theorem trap_turn {reg : Reg → Word} {sepc scause stval : Word} {file : Option (List Byte)}
    {tf0 : TrapFrame} (hp : s.place = .user tf0)
    (hs : s.trap L reg sepc scause stval file = some (t, os)) : Turn L e s t os := by
  unfold Sys.trap at hs
  split at hs
  · cases hs
  · rename_i tp _
    set s1 : Sys := { s with k := s.k.setTp tp, sstatus := trapStatus s.sstatus .user } with hs1
    have hsie : s1.sie = false := trapStatus_sie _ _
    have he : kernelSie s1 = kernelSie s := by
      rw [kernelSie, kernelSie, hs1, hp]
    rcases doTrap_turn (e := e) (show s1.place = _ from hp) hsie hs with
      ⟨hk, hm, ho, hpl⟩ | ⟨k', prev, next, act, a, hk, hsw, ho, hpl, hi, ha⟩
    · exact .stays hk hm ho (he ▸ hpl)
    · exact .switches k' prev next act a hk hsw ho hpl (he ▸ hi) ha

theorem waitForNew_turn {r : Option (Kernel × Option Slot)} (hp : s.place = .kernel .code)
    (h : ∀ k r', r = some (k, r') → ContextFates (entries L e) s.k k)
    (hs : s.waitForNew r = some (t, os)) : Turn L e s t os := by
  have hsie := kernelSie_of_kernel hp
  have htr : Place.trapped s.place = false := by rw [hp]; rfl
  unfold Sys.waitForNew at hs
  split at hs
  · cases hs
  · exact goto_turn (h _ _ rfl) hsie hs htr.symm
  · exact goto_turn (h _ _ rfl) hsie hs htr.symm

theorem startThread_turn (hp : s.place = .kernel .fresh) (hs : s.startThread L = some (t, os)) :
    Turn L e s t os := by
  have hsie := kernelSie_of_kernel hp
  have htr : Place.trapped s.place = false := by rw [hp]; rfl
  unfold Sys.startThread at hs
  split at hs
  · cases hs
  · split_ifs at hs
    · exact returnToUser_turn (.refl _ _) hs rfl
    · exact exitThread_turn hsie htr hs
    · exact goto_turn (.refl _ _) hsie hs htr.symm

theorem kernelStep_turn {act : Act} (hp : s.place = .kernel act)
    (hs : s.kernelStep L act e = some (t, os)) : Turn L e s t os := by
  have hsie := kernelSie_of_kernel hp
  have htr : Place.trapped s.place = act.inTrap := by rw [hp, Place.trapped]
  cases Sys.kernelStep_outcome hs with
  | start next => exact startThread_turn hp next
  | create call next =>
    exact goto_turn (threadCreate_rel (contexts_rel L _) (.inr rfl) call) hsie next htr.symm
  | createUser next =>
    exact waitForNew_turn hp (fun k r hc => userProcessCreate_rel (contexts_rel L _) (.inl rfl) hc)
      next
  | runUserFile next =>
    exact waitForNew_turn hp
      (fun k r hc => userProcessCreateFromFile_rel (contexts_rel L _) (.inl rfl) hc) next
  | sweep next => exact goto_turn (killZombies_rel (contexts_rel L _) _) hsie next htr.symm
  | exits next => exact exitThread_turn hsie htr next
  | doneOver _ next => exact goto_turn (reap_rel (contexts_rel L _) _ _) hsie next htr.symm
  | timer next => exact leaveTrap_turn (.refl _ _) hsie next
  | waitpidOver _ next => exact afterSyscall_turn (reap_rel (contexts_rel L _) _ _) hsie next
  | readNext _ next => exact goto_turn (.store _ _ _ _) hsie next htr.symm
  | readOver _ _ next => exact afterSyscall_turn (.store _ _ _ _) hsie next
  | sleepOver next => exact afterSyscall_turn (.refl _ _) hsie next
  | yields next | doneOn next | exitLoop next | waitpidOn next | readOn next | sleepOn next =>
    exact goto_turn (.refl _ _) hsie next htr.symm

/-- **What a step does to the contexts**, whatever task user code has put into `tp`. -/
theorem step_turn (hs : s.step L e = some (t, os)) : Turn L e s t os := by
  unfold Sys.step at hs
  split at hs
  · rename_i hp
    exact kernelStep_turn hp hs
  · rename_i act _ hp
    have hsie : s.sie = kernelSie s := by rw [kernelSie, hp]
    obtain ⟨k', hc, hs⟩ | ⟨k', prev, next, hc, hs⟩ := Sys.callSchedule_outcome hs
    · exact goto_turn (schedule_rel (contexts_rel L _) hc) hsie hs
        (by rw [hp, Place.trapped, Place.trapped])
    · exact switch_turn (schedule_rel (contexts_rel L _) hc) hsie (.inr hp) hs
  · rename_i hp
    have hgo := (Sys.userStore_outcome hs).2
    rw [Sys.goto, Option.some.injEq, Prod.mk.injEq] at hgo
    obtain ⟨rfl, rfl⟩ := hgo
    exact .stays (.store _ _ _ _) rfl rfl (.inl ⟨_, hp⟩)
  · rename_i hp
    exact trap_turn hp hs
  · cases hs

end Turn

end OscKernel.Proc.Contexts
