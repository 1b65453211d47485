import OscKernel.Shell.SetTimeout
import OscKernel.Lib.Transition

/-! # The message slots of `setTimeout`

A slot passes from the shell to a timer, from there to a task or to a callback, and the callback
releases it.

* `pointers`: the pointers to slots that somebody still has to do something with.
* `Owned`: they are the addresses of the used slots, each of them once, and what a slot says is what
  the command said that the pointer comes from.
* `accounted_of_run`: so it is in every state of every run. -/

namespace OscKernel.Shell.Slots

open OscKernel.Lib.Memory OscKernel.Lib.NodePool OscKernel.Lib.Transition OscKernel.Initrd.KString
open OscKernel.Deferred.Task OscKernel.Deferred.Timer
open OscKernel.Deferred.Machine hiding step init
open OscKernel.Shell.SetTimeout

variable {y : Symbols}

/-! ### The slots in use -/

theorem slotAddr_injective (y : Symbols) : Function.Injective y.slotAddr := by
  intro i j h
  unfold Symbols.slotAddr at h
  omega

theorem slotAt_eq_some {arg : ℕ} {i : Fin 16} (h : y.slotAt arg = some i) : y.slotAddr i = arg := by
  simpa using List.find?_some h

theorem slotAt_slotAddr (y : Symbols) (i : Fin 16) : y.slotAt (y.slotAddr i) = some i := by
  unfold Symbols.slotAt
  cases h : (List.finRange 16).find? fun j => y.slotAddr j == y.slotAddr i with
  | none => simpa using List.find?_eq_none.1 h i (List.mem_finRange i)
  | some j => rw [slotAddr_injective y (slotAt_eq_some h)]

variable {m m' : Slots} {i : Fin 16} {v : Slot}

/-- The addresses of the used slots. -/
def usedAddrs (y : Symbols) (m : Slots) : List ℕ :=
  ((List.finRange 16).filter fun i => (m i).used).map y.slotAddr

theorem mem_usedAddrs {a : ℕ} : a ∈ usedAddrs y m ↔ ∃ i, (m i).used = true ∧ y.slotAddr i = a := by
  simp [usedAddrs]

theorem nodup_usedAddrs (y : Symbols) (m : Slots) : (usedAddrs y m).Nodup :=
  ((List.nodup_finRange 16).filter _).map (slotAddr_injective y)

theorem count_usedAddrs (y : Symbols) (m : Slots) (i : Fin 16) :
    (usedAddrs y m).count (y.slotAddr i) = if (m i).used then 1 else 0 := by
  rw [(nodup_usedAddrs y m).count]
  refine if_congr ?_ rfl rfl
  rw [mem_usedAddrs]
  constructor
  · rintro ⟨j, hj, he⟩
    exact slotAddr_injective y he ▸ hj
  · exact fun h => ⟨i, h, rfl⟩

theorem usedAddrs_congr (h : ∀ j, (m' j).used = (m j).used) : usedAddrs y m' = usedAddrs y m := by
  unfold usedAddrs
  simp only [h]

theorem usedAddrs_update (hi : (m i).used = false) (hv : v.used = true) :
    (usedAddrs y (Function.update m i v)).Perm (y.slotAddr i :: usedAddrs y m) := by
  have hn : y.slotAddr i ∉ usedAddrs y m := by
    rw [mem_usedAddrs]
    rintro ⟨j, hj, he⟩
    rw [slotAddr_injective y he, hi] at hj
    cases hj
  refine (List.perm_ext_iff_of_nodup (nodup_usedAddrs y _)
    (List.nodup_cons.2 ⟨hn, nodup_usedAddrs y m⟩)).2 fun a => ?_
  rw [List.mem_cons, mem_usedAddrs, mem_usedAddrs]
  constructor
  · rintro ⟨j, hj, rfl⟩
    by_cases hji : j = i
    · exact .inl (hji ▸ rfl)
    · rw [Function.update_of_ne hji] at hj
      exact .inr ⟨j, hj, rfl⟩
  · rintro (rfl | ⟨j, hj, rfl⟩)
    · exact ⟨i, by rw [Function.update_self, hv], rfl⟩
    · refine ⟨j, ?_, rfl⟩
      rwa [Function.update_of_ne fun hji => by rw [hji, hi] at hj; cases hj]

theorem timeoutMsgAlloc_spec (h : timeoutMsgAlloc m = some (i, m')) :
    (m i).used = false ∧ m' = Function.update m i { m i with used := true } := by
  obtain ⟨j, hj, he⟩ := Option.map_eq_some_iff.1 h
  obtain ⟨rfl, rfl⟩ := Prod.mk.inj he
  exact ⟨by simpa using List.find?_some hj, rfl⟩

theorem usedAddrs_free (hi : (m i).used = true) :
    (usedAddrs y m).Perm (y.slotAddr i :: usedAddrs y (timeoutMsgFree m i)) := by
  have h := usedAddrs_update (y := y) (m := timeoutMsgFree m i) (i := i) (v := m i)
    (by rw [timeoutMsgFree, Function.update_self]) hi
  rwa [timeoutMsgFree, Function.update_idem, Function.update_eq_self] at h

/-! ### What a slot says -/

/-- The slot at the pointer says what the command said. -/
def Stored (y : Symbols) (m : Slots) (h : ℕ × Command) : Prop :=
  ∀ i, h.1 = y.slotAddr i → (m i).createdAt = h.2.createdAt ∧ Reads (m i).msg h.2.text

theorem Stored.update {h : ℕ × Command} (hs : Stored y m h) (hne : h.1 ≠ y.slotAddr i) :
    Stored y (Function.update m i v) h := by
  intro j hj
  have hji : j ≠ i := by
    rintro rfl
    exact hne hj
  rw [Function.update_of_ne hji]
  exact hs j hj

theorem Stored.used {h : ℕ × Command} (hs : Stored y m h) (b : Bool) :
    Stored y (Function.update m i { m i with used := b }) h := by
  intro j hj
  by_cases hji : j = i
  · subst hji
    rw [Function.update_self]
    exact hs j hj
  · rw [Function.update_of_ne hji]
    exact hs j hj

/-- The next character of a message of which `t` has been read. -/
theorem reads_next {f : ℕ → Byte} {l t : List Byte} (hr : Reads f l) (ht : t <+: l) :
    (f t.length = 0 → t = l) ∧ (f t.length ≠ 0 → t ++ [f t.length] <+: l) := by
  obtain ⟨k, rfl⟩ := ht
  cases k with
  | nil =>
    rw [List.append_nil] at hr ⊢
    exact ⟨fun _ => rfl, fun h => absurd hr.null h⟩
  | cons b k =>
    have hb : f t.length = b := by simpa using hr.chars t.length (by simp)
    have hne : b ≠ 0 := fun h => hr.nonzero (by simp [h])
    rw [hb]
    exact ⟨fun h => absurd h hne, fun _ => ⟨k, by simp⟩⟩

/-! ### Who has a pointer -/

/-- What an event with this callback and argument stands for. -/
def pointerOf (y : Symbols) (callback arg : ℕ) (c : Command) : List (ℕ × Command) :=
  if callback = y.setTimeoutCallback then [(arg, c)] else []

/-- The pointers of the nodes of a queue. -/
def queued {ι : Type*} (y : Symbols) (l : List ι) (event : ι → ℕ × ℕ) (cmd : ι → Command) :
    List (ℕ × Command) :=
  l.flatMap fun n => pointerOf y (event n).1 (event n).2 (cmd n)

section Queued
variable {ι : Type*} {l l' : List ι} {event event' : ι → ℕ × ℕ} {cmd cmd' : ι → Command} {n : ι}

theorem queued_cons : queued y (n :: l) event cmd =
    pointerOf y (event n).1 (event n).2 (cmd n) ++ queued y l event cmd := List.flatMap_cons

theorem queued_perm (h : l.Perm l') : (queued y l event cmd).Perm (queued y l' event cmd) :=
  h.flatMap_right _

theorem queued_congr (h : ∀ n ∈ l, event' n = event n ∧ cmd' n = cmd n) :
    queued y l event' cmd' = queued y l event cmd :=
  List.flatMap_congr fun n hn => by rw [(h n hn).1, (h n hn).2]

end Queued

def timerCall (e : TimerEvent) : ℕ × ℕ := (e.callback, e.arg)

def taskCall (e : TaskEvent) : ℕ × ℕ := (e.callback, e.arg)

/-- The pointers of the callbacks that have not released their slots. -/
def running (l : List Call) : List (ℕ × Command) :=
  l.flatMap fun c => if c.phase = .returned then [] else [(c.arg, c.cmd)]

/-- The pointers to slots, each with its command, that are in the queues `tl` and `kl` and in the
running callbacks. -/
def handed (y : Symbols) (s : System) (tl : List (Fin 32)) (kl : List (Fin 64)) :
    List (ℕ × Command) :=
  queued y tl (fun n => timerCall (s.kernel.timers.pool.node n)) s.timerCmd ++
    queued y kl (fun n => taskCall (s.kernel.tasks.pool.node n)) s.taskCmd ++ running s.calls

/-- The slot that the shell has. -/
def slotOf : ShellState → Option (Fin 16)
  | .idle => none
  | .created i _ _ | .copying i _ _ _ | .adding i _ _ | .failed i => some i

/-- All pointers to slots. -/
def pointers (y : Symbols) (s : System) (tl : List (Fin 32)) (kl : List (Fin 64)) : List ℕ :=
  (handed y s tl kl).map Prod.fst ++ ((slotOf s.shell).map y.slotAddr).toList

/-- How far the shell has filled its slot. -/
def Filled (m : Slots) : ShellState → Prop
  | .idle | .failed _ => True
  | .created _ text _ => (0 : Byte) ∉ text ∧ text.length < 128
  | .copying i k c _ => (0 : Byte) ∉ c.text ∧ c.text.length < 128 ∧
    (m i).createdAt = c.createdAt ∧ k ≤ c.text.length ∧ ∀ j (h : j < c.text.length), j < k →
      (m i).msg j = c.text[j]
  | .adding i c _ => (m i).createdAt = c.createdAt ∧ Reads (m i).msg c.text

/-- What a callback has read of its slot so far. -/
def ReadsOn (printed : List Print) (c : Call) : Prop :=
  match c.phase with
  | .start => True
  | .message t text => t = c.cmd.createdAt ∧ text <+: c.cmd.text
  | .release | .returned => ⟨c.cmd, c.cmd.createdAt, c.cmd.text⟩ ∈ printed

/-- **The invariant**: the pointers are the addresses of the used slots, each of them once. -/
structure Owned (y : Symbols) (s : System) (tl : List (Fin 32)) (kl : List (Fin 64)) : Prop where
  timers : ∃ fl, Holds s.kernel.timers.pool [] fl tl
  tasks : ∃ fl, Holds s.kernel.tasks.pool [] fl kl
  calls : s.calls.map Call.arg =
    (s.kernel.calls.filter fun c => c.1 = y.setTimeoutCallback).map Prod.snd
  once : (pointers y s tl kl).Perm (usedAddrs y s.slots)
  stored : ∀ h ∈ handed y s tl kl, Stored y s.slots h
  filled : Filled s.slots s.shell
  reads : ∀ c ∈ s.calls, ReadsOn s.printed c
  printed : ∀ x ∈ s.printed, x.createdAt = x.cmd.createdAt ∧ x.text = x.cmd.text

theorem owned_boot (y : Symbols) (t : State) (now : ℕ) : Owned y (boot t now) [] [] where
  timers := ⟨_, timerInit_holds t.timers now⟩
  tasks := ⟨_, taskInit_holds t.tasks⟩
  calls := rfl
  once := by
    have h : usedAddrs y (boot t now).slots = [] := by simp [usedAddrs, boot]
    rw [h]
    rfl
  stored := by simp [handed, queued, running, boot]
  filled := trivial
  reads := by simp [boot]
  printed := by simp [boot]

/-! ### From hand to hand -/

section Queues
variable {t t' : TimerQueue} {q q' : TaskQueue} {fl tl : List (Fin 32)} {gl kl : List (Fin 64)}
  {callback arg now : ℕ} {n : Fin 32} {k : Fin 64}

theorem queued_addTimer (hp : Holds t.pool [] fl tl) {sec : ℤ}
    (h : addTimer t now callback arg sec = some (some n, t')) (cmd : Fin 32 → Command)
    (c : Command) : ∃ fl' tl', Holds t'.pool [] fl' tl' ∧
      (queued y tl' (fun n => timerCall (t'.pool.node n)) (Function.update cmd n c)).Perm
        (pointerOf y callback arg c ++ queued y tl (fun n => timerCall (t.pool.node n)) cmd) := by
  obtain ⟨fl', tl', -, -, hn, hnode, hperm, hp'⟩ := addTimer_holds hp h
  refine ⟨fl', tl', hp', (queued_perm hperm).trans (.of_eq ?_)⟩
  rw [queued_cons, hnode, Function.update_self, Function.update_self]
  refine congrArg _ (queued_congr fun j hj => ?_)
  have hjn : j ≠ n := ne_of_mem_of_not_mem hj hn
  rw [Function.update_of_ne hjn, Function.update_of_ne hjn]
  exact ⟨rfl, rfl⟩

/-- A timer that the handler takes is one pointer less. -/
theorem queued_handlerRound (hp : Holds t.pool [] fl tl) {e : TimerEvent}
    (h : handlerRound t now = some (some (n, e), t')) (cmd : Fin 32 → Command) :
    ∃ fl' tl', Holds t'.pool [] fl' tl' ∧
      queued y tl (fun n => timerCall (t.pool.node n)) cmd = pointerOf y e.callback e.arg (cmd n) ++
        queued y tl' (fun n => timerCall (t'.pool.node n)) cmd := by
  obtain ⟨tl', rfl, rfl, hnode, hp'⟩ := handlerRound_holds hp h
  exact ⟨_, tl', hp', by rw [queued_cons, hnode]; rfl⟩

theorem queued_addTask (hp : Holds q.pool [] gl kl) {priority : ℤ}
    (h : addTask q callback arg priority = some (some k, q')) (cmd : Fin 64 → Command)
    (c : Command) : ∃ gl' kl', Holds q'.pool [] gl' kl' ∧
      (queued y kl' (fun n => taskCall (q'.pool.node n)) (Function.update cmd k c)).Perm
        (pointerOf y callback arg c ++ queued y kl (fun n => taskCall (q.pool.node n)) cmd) := by
  rcases addTask_spec hp callback arg priority with
    ⟨hr, -⟩ | ⟨m, gl', u, hr, -, -, hm, -, hnode, hu⟩
  · simp [hr] at h
  rw [hr] at h
  cases h
  refine ⟨gl', _, hu, (queued_perm (List.perm_orderedInsert _ k kl)).trans (.of_eq ?_)⟩
  rw [queued_cons, hnode, Function.update_self, Function.update_self]
  refine congrArg _ (queued_congr fun j hj => ?_)
  have hjk : j ≠ k := ne_of_mem_of_not_mem hj hm
  rw [Function.update_of_ne hjk, Function.update_of_ne hjk]
  exact ⟨rfl, rfl⟩

theorem queued_pendingRound (hp : Holds q.pool [] gl kl) {e : TaskEvent} {prev : ℤ}
    (h : pendingRound q = some (⟨k, e, prev⟩, q')) (cmd : Fin 64 → Command) :
    ∃ gl' kl', Holds q'.pool [] gl' kl' ∧
      queued y kl (fun n => taskCall (q.pool.node n)) cmd = pointerOf y e.callback e.arg (cmd k) ++
        queued y kl' (fun n => taskCall (q'.pool.node n)) cmd := by
  rcases pendingRound_spec hp with ⟨hr, -⟩ | ⟨m, kl', u, rfl, -, hr, -, hnode, hu⟩
  · simp [hr] at h
  rw [hr] at h
  cases h
  exact ⟨_, kl', hu, by rw [queued_cons, hnode]; rfl⟩

end Queues

theorem pointerOf_self (y : Symbols) (arg : ℕ) (c : Command) :
    pointerOf y y.setTimeoutCallback arg c = [(arg, c)] := if_pos rfl

theorem pointerOf_ne {callback : ℕ} (h : callback ≠ y.setTimeoutCallback) (arg : ℕ) (c : Command) :
    pointerOf y callback arg c = [] := if_neg h

theorem running_cons (c : Call) (l : List Call) : running (c :: l) =
    (if c.phase = .returned then [] else [(c.arg, c.cmd)]) ++ running l := List.flatMap_cons

variable {s s' : System} {tl tl' : List (Fin 32)} {kl kl' : List (Fin 64)}

/-- The pointers change hands, and nothing else happens. -/
theorem Owned.moved (hi : Owned y s tl kl) (hm : s'.slots = s.slots) (hsh : s'.shell = s.shell)
    (hpr : s'.printed = s.printed) (ht : ∃ fl, Holds s'.kernel.timers.pool [] fl tl')
    (hk : ∃ fl, Holds s'.kernel.tasks.pool [] fl kl')
    (hc : s'.calls.map Call.arg =
      (s'.kernel.calls.filter fun c => c.1 = y.setTimeoutCallback).map Prod.snd)
    (hr : ∀ c ∈ s'.calls, ReadsOn s.printed c)
    (hp : (handed y s' tl' kl').Perm (handed y s tl kl)) : Owned y s' tl' kl' where
  timers := ht
  tasks := hk
  calls := hc
  once := by
    rw [hm]
    refine .trans ?_ hi.once
    unfold pointers
    rw [hsh]
    exact (hp.map _).append_right _
  stored h hh := hm ▸ hi.stored h (hp.mem_iff.1 hh)
  filled := by rw [hm, hsh]; exact hi.filled
  reads := by rw [hpr]; exact hr
  printed := by rw [hpr]; exact hi.printed

/-- A call of `set_timeout_callback` comes on top of the others. -/
theorem enter_spec {l : List Call} {calls : List (ℕ × ℕ)} (callback arg : ℕ) (c : Command)
    (hc : l.map Call.arg = (calls.filter fun c => c.1 = y.setTimeoutCallback).map Prod.snd) :
    (enter y callback arg c l).map Call.arg =
      (((callback, arg) :: calls).filter fun c => c.1 = y.setTimeoutCallback).map Prod.snd ∧
    running (enter y callback arg c l) = pointerOf y callback arg c ++ running l := by
  unfold enter
  by_cases h : callback = y.setTimeoutCallback
  · subst h
    rw [if_pos rfl, pointerOf_self, List.filter_cons_of_pos (by simp), running_cons]
    exact ⟨congrArg _ hc, rfl⟩
  · rw [if_neg h, pointerOf_ne h, List.filter_cons_of_neg (by simpa using h)]
    exact ⟨hc, rfl⟩

theorem reads_enter {printed : List Print} {l : List Call} (callback arg : ℕ) (c : Command)
    (h : ∀ c ∈ l, ReadsOn printed c) : ∀ d ∈ enter y callback arg c l, ReadsOn printed d := by
  unfold enter
  split_ifs
  · exact List.forall_mem_cons.2 ⟨trivial, h⟩
  · exact h

/-- A step of the kernel that leaves the queues and the calls as they are. -/
theorem Owned.still {t : State} (hi : Owned y s tl kl)
    (ht : t.timers.pool = s.kernel.timers.pool) (hk : t.tasks.pool = s.kernel.tasks.pool)
    (hc : t.calls = s.kernel.calls) : Owned y { s with kernel := t } tl kl := by
  refine hi.moved rfl rfl rfl (ht ▸ hi.timers) (hk ▸ hi.tasks) ?_ hi.reads (.of_eq ?_)
  · show _ = (t.calls.filter _).map _
    rw [hc]
    exact hi.calls
  · unfold handed
    rw [ht, hk]

theorem Owned.handOver {t : State} {o : Output} {e : Event} (hi : Owned y s tl kl)
    (hs : Deferred.Machine.step s.kernel e = some (t, o)) (he : e ≠ .done)
    (hr : registers e ≠ some y.setTimeoutCallback) :
    ∃ tl' kl', Owned y (handOver y s t o) tl' kl' := by
  obtain ⟨fl, htl⟩ := hi.timers
  obtain ⟨gl, hkl⟩ := hi.tasks
  have hte := step_timerEffect hs
  have hke := step_taskEffect hs
  have hce := step_callEffect hs he
  cases o with
  | quiet | handled | entered | finished | returned => exact ⟨tl, kl, hi.still hte hke hce⟩
  | taskAdded n callback arg priority =>
    obtain rfl := eq_of_accepts hs rfl
    have hne : callback ≠ y.setTimeoutCallback := fun h => hr (congrArg some h)
    have hpool : t.timers.pool = s.kernel.timers.pool := hte
    obtain ⟨gl', kl', hk', hp⟩ := queued_addTask (y := y) hkl hke s.taskCmd (s.taskCmd n)
    rw [Function.update_eq_self, pointerOf_ne hne, List.nil_append] at hp
    refine ⟨tl, kl', hi.moved rfl rfl rfl ⟨fl, hpool ▸ htl⟩ ⟨gl', hk'⟩ ?_ hi.reads ?_⟩
    · exact (show t.calls = s.kernel.calls from hce) ▸ hi.calls
    · show (queued y tl (fun n => timerCall (t.timers.pool.node n)) _ ++ _ ++ _).Perm _
      rw [hpool]
      exact (hp.append_left _).append_right _
  | timerAdded n callback arg sec =>
    obtain rfl := eq_of_accepts hs rfl
    have hne : callback ≠ y.setTimeoutCallback := fun h => hr (congrArg some h)
    have hpool : t.tasks.pool = s.kernel.tasks.pool := hke
    obtain ⟨fl', tl', ht', hp⟩ := queued_addTimer (y := y) htl hte s.timerCmd (s.timerCmd n)
    rw [Function.update_eq_self, pointerOf_ne hne, List.nil_append] at hp
    refine ⟨tl', kl, hi.moved rfl rfl rfl ⟨fl', ht'⟩ ⟨gl, hpool ▸ hkl⟩ ?_ hi.reads ?_⟩
    · exact (show t.calls = s.kernel.calls from hce) ▸ hi.calls
    · show (_ ++ queued y kl (fun n => taskCall (t.tasks.pool.node n)) _ ++ _).Perm _
      rw [hpool]
      exact (hp.append_right _).append_right _
  | dropped =>
    obtain ⟨n, ev, hz, hte⟩ := hte
    have hne : ev.callback ≠ y.setTimeoutCallback := hz ▸ y.nonnull.symm
    have hpool : t.tasks.pool = s.kernel.tasks.pool := hke
    obtain ⟨fl', tl', ht', hp⟩ := queued_handlerRound (y := y) htl hte s.timerCmd
    rw [pointerOf_ne hne, List.nil_append] at hp
    refine ⟨tl', kl, hi.moved rfl rfl rfl ⟨fl', ht'⟩ ⟨gl, hpool ▸ hkl⟩ ?_ hi.reads (.of_eq ?_)⟩
    · exact (show t.calls = s.kernel.calls from hce) ▸ hi.calls
    · show _ ++ queued y kl (fun n => taskCall (t.tasks.pool.node n)) _ ++ _ = _
      rw [hpool, handed, hp]
      rfl
  | started n ev =>
    obtain ⟨prev, hke⟩ := hke
    have hpool : t.timers.pool = s.kernel.timers.pool := hte
    obtain ⟨gl', kl', hk', hp⟩ := queued_pendingRound (y := y) hkl hke s.taskCmd
    obtain ⟨hcalls, hrun⟩ := enter_spec ev.callback ev.arg (s.taskCmd n) hi.calls
    refine ⟨tl, kl', hi.moved rfl rfl rfl ⟨fl, hpool ▸ htl⟩ ⟨gl', hk'⟩ ?_
      (reads_enter _ _ _ hi.reads) ?_⟩
    · exact (show t.calls = _ from hce) ▸ hcalls
    · show (queued y tl (fun n => timerCall (t.timers.pool.node n)) _ ++ _ ++ running (enter ..)).Perm _
      rw [hpool, hrun, handed, hp]
      refine List.perm_iff_count.2 fun a => ?_
      simp only [SetTimeout.handOver, List.count_append]
      omega
  | dispatched n callback arg task =>
    obtain ⟨expiresAt, hte⟩ := hte
    obtain ⟨fl', tl', ht', hp⟩ := queued_handlerRound (y := y) htl hte s.timerCmd
    cases task with
    | none =>
      have hpool : t.tasks.pool = s.kernel.tasks.pool := hke
      obtain ⟨hcalls, hrun⟩ := enter_spec callback arg (s.timerCmd n) hi.calls
      refine ⟨tl', kl, hi.moved rfl rfl rfl ⟨fl', ht'⟩ ⟨gl, hpool ▸ hkl⟩ ?_
        (reads_enter _ _ _ hi.reads) ?_⟩
      · exact (show t.calls = _ from hce) ▸ hcalls
      · show (_ ++ queued y kl (fun n => taskCall (t.tasks.pool.node n)) _ ++
          running (enter ..)).Perm _
        rw [hpool, hrun, handed, hp]
        refine List.perm_iff_count.2 fun a => ?_
        simp only [SetTimeout.handOver, List.count_append]
        omega
    | some m =>
      obtain ⟨gl', kl', hk', hp'⟩ :=
        queued_addTask (y := y) hkl hke s.taskCmd (s.timerCmd n)
      refine ⟨tl', kl', hi.moved rfl rfl rfl ⟨fl', ht'⟩ ⟨gl', hk'⟩ ?_ hi.reads ?_⟩
      · exact (show t.calls = s.kernel.calls from hce) ▸ hi.calls
      · rw [handed, handed, hp]
        refine List.perm_iff_count.2 fun a => ?_
        have hc := hp'.count_eq a
        simp only [SetTimeout.handOver, List.count_append] at hc ⊢
        omega

theorem Owned.return (hi : Owned y s tl kl) (h : returnStep y s = some s') : Owned y s' tl kl := by
  unfold returnStep at h
  split_ifs at h with hin
  · split at h
    · rename_i arg cmd cs hcs
      obtain ⟨⟨t, o⟩, hs, rfl⟩ := Option.map_eq_some_iff.1 h
      obtain ⟨c, hc, hcalls, hk, ht⟩ := done_calls hs
      have hcb : c.1 = y.setTimeoutCallback := by
        rw [innermost, hc] at hin
        exact Option.some.inj hin
      refine hi.moved rfl rfl rfl (ht ▸ hi.timers) (hk ▸ hi.tasks) ?_
        (fun d hd => hi.reads d (by rw [hcs]; exact List.mem_cons_of_mem _ hd)) (.of_eq ?_)
      · have ha := hi.calls
        rw [hcs, hcalls, List.filter_cons_of_pos (by simpa using hcb)] at ha
        exact (List.cons.inj ha).2
      · unfold handed
        rw [hcs, ht, hk]
        rfl
    · cases h
  · obtain ⟨⟨t, o⟩, hs, rfl⟩ := Option.map_eq_some_iff.1 h
    obtain ⟨c, hc, hcalls, hk, ht⟩ := done_calls hs
    have hcb : c.1 ≠ y.setTimeoutCallback := fun h => hin (by rw [innermost, hc]; exact congrArg some h)
    refine hi.moved rfl rfl rfl (ht ▸ hi.timers) (hk ▸ hi.tasks) ?_ hi.reads (.of_eq ?_)
    · have ha := hi.calls
      rw [hcalls, List.filter_cons_of_neg (by simpa using hcb)] at ha
      exact ha
    · unfold handed
      rw [ht, hk]

/-! ### Releasing a slot -/

/-- Whether a slot is used does not matter to what has been filled in. -/
theorem Filled.used {sh : ShellState} (h : Filled m sh) (b : Bool) :
    Filled (Function.update m i { m i with used := b }) sh := by
  have hc : ∀ j, (Function.update m i { m i with used := b } j).createdAt = (m j).createdAt ∧
      (Function.update m i { m i with used := b } j).msg = (m j).msg := by
    intro j
    by_cases hji : j = i
    · subst hji
      rw [Function.update_self]
      exact ⟨rfl, rfl⟩
    · rw [Function.update_of_ne hji]
      exact ⟨rfl, rfl⟩
  cases sh with
  | idle | failed => trivial
  | created => exact h
  | copying j k c sec =>
    simpa only [Filled, (hc j).1, (hc j).2] using h
  | adding j c sec =>
    simpa only [Filled, (hc j).1, (hc j).2] using h

/-- The pointers to a slot that is released are gone. -/
theorem once_free {l l' : List ℕ} (h : l.Perm (usedAddrs y m)) (hl : l.Perm (y.slotAddr i :: l')) :
    l'.Perm (usedAddrs y (timeoutMsgFree m i)) := by
  have hu : (m i).used = true := by
    obtain ⟨j, hj, he⟩ := mem_usedAddrs.1 (h.mem_iff.1 (hl.mem_iff.2 (List.mem_cons_self ..)))
    exact slotAddr_injective y he ▸ hj
  exact ((hl.symm.trans h).trans (usedAddrs_free hu)).cons_inv

theorem mem_handed_call {c : Call} {cs : List Call} (hcs : s.calls = c :: cs)
    (hc : c.phase ≠ .returned) : (c.arg, c.cmd) ∈ handed y s tl kl := by
  unfold handed
  rw [hcs, running_cons, if_neg hc]
  simp

theorem Owned.reading {c : Call} {cs : List Call} (hi : Owned y s tl kl) (c' : Call)
    (l : List Print) (hcs : s.calls = c :: cs) (hc : c.phase ≠ .returned) (hc' : c'.phase ≠ .returned)
    (ha : c'.arg = c.arg) (hcmd : c'.cmd = c.cmd)
    (hr : ReadsOn (s.printed ++ l) c')
    (hp : ∀ x ∈ l, x.createdAt = x.cmd.createdAt ∧ x.text = x.cmd.text) :
    Owned y { s with calls := c' :: cs, printed := s.printed ++ l } tl kl := by
  have hh : handed y { s with calls := c' :: cs, printed := s.printed ++ l } tl kl =
      handed y s tl kl := by
    unfold handed
    rw [hcs, running_cons, running_cons, if_neg hc, if_neg hc', ha, hcmd]
  refine ⟨hi.timers, hi.tasks, ?_, ?_, ?_, hi.filled, ?_, ?_⟩
  · have halign := hi.calls
    rw [hcs, List.map_cons] at halign
    rw [List.map_cons, ha]
    exact halign
  · unfold pointers
    rw [hh]
    exact hi.once
  · rw [hh]
    exact hi.stored
  · refine List.forall_mem_cons.2 ⟨hr, fun d hd => ?_⟩
    have hd' := hi.reads d (by rw [hcs]; exact List.mem_cons_of_mem _ hd)
    unfold ReadsOn at hd' ⊢
    split at hd'
    · trivial
    · exact hd'
    · exact List.mem_append_left _ hd'
    · exact List.mem_append_left _ hd'
  · intro x hx
    exact (List.mem_append.1 hx).elim (hi.printed x) (hp x)

theorem Owned.callback (hi : Owned y s tl kl) (h : callbackStep y s = some s') :
    Owned y s' tl kl := by
  unfold callbackStep at h
  split at h
  · cases h
  rename_i c cs hcs
  split_ifs at h
  have hreads := hi.reads c (by rw [hcs]; exact List.mem_cons_self ..)
  unfold Call.next at h
  cases hph : c.phase with
  | returned => rw [hph] at h; cases h
  | start =>
    have hne : c.phase ≠ .returned := by simp [hph]
    rw [hph] at h
    obtain ⟨i, hslot, rfl⟩ := Option.map_eq_some_iff.1 h
    obtain ⟨hcreated, -⟩ := hi.stored _ (mem_handed_call hcs hne) i (slotAt_eq_some hslot).symm
    have ho := hi.reading { c with phase := .message (s.slots i).createdAt [] } [] hcs hne
      (by simp) rfl rfl ⟨hcreated, List.nil_prefix⟩ (by simp)
    rwa [List.append_nil] at ho
  | message t text =>
    have hne : c.phase ≠ .returned := by simp [hph]
    rw [hph] at h
    obtain ⟨i, hslot, rfl⟩ := Option.map_eq_some_iff.1 h
    obtain ⟨-, hmsg⟩ := hi.stored _ (mem_handed_call hcs hne) i (slotAt_eq_some hslot).symm
    rw [ReadsOn, hph] at hreads
    obtain ⟨rfl, hpre⟩ := hreads
    obtain ⟨hend, hgo⟩ := reads_next hmsg hpre
    split_ifs with hnull
    · obtain rfl := hend hnull
      exact hi.reading { c with phase := .release } _ hcs hne (by simp) rfl rfl
        (List.mem_append_right _ (by simp)) (by simp)
    · have ho := hi.reading
        { c with phase := .message c.cmd.createdAt (text ++ [(s.slots i).msg text.length]) } [] hcs
        hne (by simp) rfl rfl ⟨rfl, hgo hnull⟩ (by simp)
      rwa [List.append_nil] at ho
  | release =>
    have hne : c.phase ≠ .returned := by simp [hph]
    rw [hph] at h
    obtain ⟨i, hslot, rfl⟩ := Option.map_eq_some_iff.1 h
    have hhanded : (handed y s tl kl).Perm ((c.arg, c.cmd) :: handed y
        { s with calls := { c with phase := .returned } :: cs, slots := timeoutMsgFree s.slots i }
        tl kl) := by
      unfold handed
      rw [hcs, running_cons, running_cons, if_neg hne, if_pos rfl, List.nil_append]
      exact List.perm_middle
    refine ⟨hi.timers, hi.tasks, ?_, once_free hi.once ?_, fun x hx => ?_, hi.filled.used false, ?_,
      hi.printed⟩
    · have halign := hi.calls
      rw [hcs, List.map_cons] at halign
      exact halign
    · have hp := (hhanded.map Prod.fst).append_right ((slotOf s.shell).map y.slotAddr).toList
      rwa [List.map_cons, List.cons_append, ← slotAt_eq_some hslot] at hp
    · exact (hi.stored x (hhanded.mem_iff.2 (List.mem_cons_of_mem _ hx))).used false
    · refine List.forall_mem_cons.2
        ⟨?_, fun d hd => hi.reads d (by rw [hcs]; exact List.mem_cons_of_mem _ hd)⟩
      rw [ReadsOn, hph] at hreads
      exact hreads

/-! ### The shell -/

/-- Nobody else has a pointer to the slot of the shell. -/
theorem Owned.alone (hi : Owned y s tl kl) (hsh : slotOf s.shell = some i) :
    ∀ x ∈ handed y s tl kl, x.1 ≠ y.slotAddr i := by
  intro x hx he
  have hd := hi.once.nodup_iff.2 (nodup_usedAddrs y s.slots)
  rw [pointers, hsh] at hd
  exact (List.nodup_append.1 hd).2.2 x.1 (List.mem_map_of_mem hx) (y.slotAddr i) (by simp) he

theorem pointers_eq (h : slotOf s.shell = some i) :
    pointers y s tl kl = (handed y s tl kl).map Prod.fst ++ [y.slotAddr i] := by
  rw [pointers, h]
  rfl

theorem Owned.write (hi : Owned y s tl kl) (hsh : slotOf s.shell = some i) {sh : ShellState}
    (hsh' : slotOf sh = some i) (hu : v.used = (s.slots i).used)
    (hf : Filled (Function.update s.slots i v) sh) :
    Owned y { s with slots := Function.update s.slots i v, shell := sh } tl kl where
  timers := hi.timers
  tasks := hi.tasks
  calls := hi.calls
  once := by
    have hused : usedAddrs y (Function.update s.slots i v) = usedAddrs y s.slots := by
      refine usedAddrs_congr fun j => ?_
      by_cases hji : j = i
      · rw [hji, Function.update_self, hu]
      · rw [Function.update_of_ne hji]
    rw [hused]
    refine .trans (.of_eq ?_) hi.once
    unfold pointers
    rw [hsh, hsh']
    rfl
  stored x hx := (hi.stored x hx).update (hi.alone hsh x hx)
  filled := hf
  reads := hi.reads
  printed := hi.printed

/-- A round of `copy_str_limit` on a message that fits. -/
theorem copyStrLimit_spec {f : ℕ → Byte} {l : List Byte} {k : ℕ} (h0 : (0 : Byte) ∉ l)
    (hl : l.length < timeoutMsgLen) (hk : k ≤ l.length)
    (hf : ∀ j (h : j < l.length), j < k → f j = l[j]) :
    ((copyStrLimit f l timeoutMsgLen k).2 = true ∧ k < l.length ∧
      ∀ j (h : j < l.length), j < k + 1 → (copyStrLimit f l timeoutMsgLen k).1 j = l[j]) ∨
    ((copyStrLimit f l timeoutMsgLen k).2 = false ∧ Reads (copyStrLimit f l timeoutMsgLen k).1 l) := by
  rcases hk.lt_or_eq with hlt | rfl
  · have hlim : k < timeoutMsgLen - 1 := by omega
    refine .inl ?_
    rw [copyStrLimit, List.getElem?_eq_getElem hlt]
    dsimp only
    rw [if_pos hlim]
    refine ⟨rfl, hlt, fun j hj hjk => ?_⟩
    by_cases h : j = k
    · subst h
      exact Function.update_self ..
    · exact (Function.update_of_ne h ..).trans (hf j hj (by omega))
  · refine .inr ?_
    rw [copyStrLimit, List.getElem?_eq_none le_rfl]
    refine ⟨rfl, fun j hj => ?_, Function.update_self .., h0⟩
    exact (Function.update_of_ne (by omega) ..).trans (hf j hj hj)

/-- The shell takes a step in a `setTimeout` command. -/
theorem Owned.shell (hi : Owned y s tl kl) (h : shellStep y s = some s') :
    ∃ tl', Owned y s' tl' kl := by
  have hf := hi.filled
  unfold shellStep at h
  split at h
  · cases h
  · rename_i i text sec hsh
    cases h
    rw [hsh] at hf
    refine ⟨tl, hi.write (i := i) (by rw [hsh]; rfl) rfl rfl ⟨hf.1, hf.2, ?_, Nat.zero_le _, ?_⟩⟩
    · rw [Function.update_self]
    · intro j _ hj
      omega
  · rename_i i k c sec hsh
    obtain rfl := Option.some.inj h
    rw [hsh] at hf
    obtain ⟨h0, hlen, hcreated, hk, hmsg⟩ := hf
    refine ⟨tl, hi.write (i := i) (by rw [hsh]; rfl) ?_ rfl ?_⟩
    · split_ifs <;> rfl
    · rcases copyStrLimit_spec h0 hlen hk hmsg with ⟨hgo, hlt, hmsg'⟩ | ⟨hend, hmsg'⟩
      · rw [if_pos hgo]
        refine ⟨h0, hlen, ?_, hlt, ?_⟩
        · rw [Function.update_self]
          exact hcreated
        · rw [Function.update_self]
          exact hmsg'
      · rw [if_neg (by simp [hend])]
        refine ⟨?_, ?_⟩
        · rw [Function.update_self]
          exact hcreated
        · rw [Function.update_self]
          exact hmsg'
  · rename_i i c sec hsh
    rw [hsh] at hf
    obtain ⟨⟨t, o⟩, hs, rfl⟩ := Option.map_eq_some_iff.1 h
    obtain ⟨⟨r, q⟩, ha, hr⟩ := Option.map_eq_some_iff.1 hs
    obtain ⟨fl, htl⟩ := hi.timers
    cases r with
    | none =>
      cases hr
      refine ⟨tl, ⟨⟨fl, addTimer_refused ha ▸ htl⟩, hi.tasks, hi.calls, ?_, ?_, trivial, hi.reads,
        hi.printed⟩⟩
      · refine .trans (.of_eq ?_) hi.once
        unfold pointers handed
        rw [hsh, addTimer_refused ha]
        rfl
      · rw [addTimer_refused ha]
        exact hi.stored
    | some n =>
      cases hr
      obtain ⟨fl', tl', htl', hp⟩ := queued_addTimer (y := y) htl ha s.timerCmd c
      rw [pointerOf_self] at hp
      have hp' : (handed y { s with
          kernel := { s.kernel with timers := q }
          shell := .idle
          timerCmd := Function.update s.timerCmd n c } tl' kl).Perm
            ((y.slotAddr i, c) :: handed y s tl kl) := by
        refine List.perm_iff_count.2 fun a => ?_
        have hc := hp.count_eq a
        simp only [handed, List.count_append, List.count_cons, List.count_nil] at hc ⊢
        omega
      refine ⟨tl', ⟨⟨fl', htl'⟩, hi.tasks, hi.calls, .trans ?_ hi.once, fun x hx => ?_, trivial,
        hi.reads, hi.printed⟩⟩
      · rw [pointers_eq (s := s) (i := i) (by rw [hsh]; rfl)]
        refine .trans ?_ (List.perm_append_singleton (y.slotAddr i) _).symm
        unfold pointers
        exact (List.append_nil _).symm ▸ hp'.map Prod.fst
      · rcases List.mem_cons.1 (hp'.mem_iff.1 hx) with rfl | hx
        · intro j hj
          obtain rfl := slotAddr_injective y hj
          exact hf
        · exact hi.stored x hx
  · rename_i i hsh
    cases h
    refine ⟨tl, ⟨hi.timers, hi.tasks, hi.calls, once_free hi.once ?_, fun x hx => ?_, trivial,
      hi.reads, hi.printed⟩⟩
    · rw [pointers_eq (i := i) (by rw [hsh]; rfl)]
      refine (List.perm_append_singleton (y.slotAddr i) _).trans (.of_eq (congrArg _ ?_))
      exact (List.append_nil _).symm
    · exact (hi.stored x hx).used false

theorem setTimeoutArgs_suffix {buf text : List Byte} {sec : ℤ}
    (h : setTimeoutArgs buf = some (sec, text)) : text <:+ buf := by
  unfold setTimeoutArgs at h
  split_ifs at h
  split at h
  · cases h
  · rename_i sec' p hp
    split_ifs at h
    obtain ⟨rfl, rfl⟩ := Prod.mk.inj (Option.some.inj h)
    unfold parseUint at hp
    split_ifs at hp
    obtain ⟨-, rfl⟩ := Prod.mk.inj (Option.some.inj hp)
    exact (List.dropWhile_suffix _).trans ((List.dropWhile_suffix _).trans
      ((List.dropWhile_suffix _).trans (List.drop_suffix ..)))

theorem Owned.command {buf : List Byte} (hi : Owned y s tl kl) (h : commandStep s buf = some s') :
    Owned y s' tl kl := by
  unfold commandStep at h
  split at h
  · rename_i hsh
    split_ifs at h with hbuf
    split at h
    · cases h
      exact hi
    · rename_i sec text hargs
      split at h
      · cases h
        exact hi
      · rename_i i m halloc
        cases h
        obtain ⟨hunused, rfl⟩ := timeoutMsgAlloc_spec halloc
        have hsuf := setTimeoutArgs_suffix hargs
        refine ⟨hi.timers, hi.tasks, hi.calls, ?_, fun x hx => (hi.stored x hx).used true, ?_,
          hi.reads, hi.printed⟩
        · have honce := hi.once
          unfold pointers at honce
          rw [hsh, slotOf, Option.map_none, Option.toList_none, List.append_nil] at honce
          rw [pointers_eq (i := i) rfl]
          refine (List.perm_append_singleton (y.slotAddr i) _).trans ?_
          exact (honce.cons _).trans (usedAddrs_update hunused rfl).symm
        · exact ⟨fun h0 => hbuf.2 (hsuf.subset h0), hsuf.length_le.trans_lt hbuf.1⟩
  · cases h

theorem Owned.step {e : Turn} (hi : Owned y s tl kl) (h : step y s e = some s') :
    ∃ tl' kl', Owned y s' tl' kl' := by
  cases e with
  | command buf => exact ⟨tl, kl, hi.command h⟩
  | shell =>
    obtain ⟨tl', ho⟩ := hi.shell h
    exact ⟨tl', kl, ho⟩
  | callback => exact ⟨tl, kl, hi.callback h⟩
  | kernel e =>
    rw [SetTimeout.step, kernelStep] at h
    split_ifs at h with hr he
    · exact ⟨tl, kl, hi.return h⟩
    · obtain ⟨⟨t, o⟩, hs, rfl⟩ := Option.map_eq_some_iff.1 h
      exact hi.handOver hs he hr

theorem owned_of_run {t : State} {now : ℕ} {es : List Turn}
    (h : Run (step y) (fun _ _ => True) (boot t now) es s) : ∃ tl kl, Owned y s tl kl :=
  h.invariant (I := fun s => ∃ tl kl, Owned y s tl kl)
    (fun _ _ _ ⟨_, _, hi⟩ _ he => hi.step he) ⟨_, _, owned_boot y t now⟩

/-! ### Every run -/

/-- The timers in `tl`, the tasks in `kl`, the callbacks that run and the shell share out the slots: a
slot is used exactly if one of them has a pointer to it, and then just one has; they have no other
pointers. A slot whose timer is refused is released. What a callback has printed is the creation time
and the message of the command that registered it. -/
structure Accounted (y : Symbols) (s : System) (tl : List (Fin 32)) (kl : List (Fin 64)) : Prop where
  timers : ∃ fl, Holds s.kernel.timers.pool [] fl tl
  tasks : ∃ fl, Holds s.kernel.tasks.pool [] fl kl
  calls : s.calls.map Call.arg =
    (s.kernel.calls.filter fun c => c.1 = y.setTimeoutCallback).map Prod.snd
  used : ∀ i, (pointers y s tl kl).count (y.slotAddr i) = if (s.slots i).used then 1 else 0
  valid : ∀ a ∈ pointers y s tl kl, ∃ i, a = y.slotAddr i
  refused : ∀ i c sec t, s.shell = .adding i c sec →
    addTimer s.kernel.timers s.kernel.clock y.setTimeoutCallback (y.slotAddr i) sec =
      some (none, t) → ∃ s', step y s .shell = some s' ∧ s'.shell = .failed i
  released : ∀ i, s.shell = .failed i → ∃ s', step y s .shell = some s' ∧ s'.shell = .idle ∧
    (s'.slots i).used = false ∧ y.slotAddr i ∉ pointers y s' tl kl
  goesOn : ∀ c cs, s.calls = c :: cs → innermost y s → c.phase ≠ .returned →
    ∃ s', step y s .callback = some s'
  printed : ∀ x ∈ s.printed, x.createdAt = x.cmd.createdAt ∧ x.text = x.cmd.text

/-- A callback with a pointer to a slot is never stuck. -/
theorem callback_exists {c : Call} (s : System) (cs : List Call) (hc : c.phase ≠ .returned)
    (ha : c.arg = y.slotAddr i) : ∃ s', c.next y s cs = some s' := by
  unfold Call.next
  rw [ha, slotAt_slotAddr]
  cases hp : c.phase with
  | returned => exact absurd hp hc
  | start | message | release => exact ⟨_, rfl⟩

/-- **The slots of `setTimeout`**: in every run every state has them accounted for. -/
theorem accounted_of_run {t : State} {now : ℕ} {es : List Turn}
    (h : Run (step y) (fun _ _ => True) (boot t now) es s) : ∃ tl kl, Accounted y s tl kl := by
  obtain ⟨tl, kl, hi⟩ := owned_of_run h
  have hvalid : ∀ a ∈ pointers y s tl kl, ∃ i, a = y.slotAddr i := fun a ha => by
    obtain ⟨i, -, rfl⟩ := mem_usedAddrs.1 (hi.once.mem_iff.1 ha)
    exact ⟨i, rfl⟩
  refine ⟨tl, kl, hi.timers, hi.tasks, hi.calls, fun i => ?_, hvalid, ?_, fun i hsh => ?_, ?_,
    hi.printed⟩
  · rw [hi.once.count_eq, count_usedAddrs]
  · intro i c sec t hsh ha
    refine ⟨{ s with kernel := { s.kernel with timers := t }, shell := .failed i }, ?_, rfl⟩
    simp only [step, shellStep, hsh, Deferred.Machine.step, ha, Option.map_some]
  · have hs : step y s .shell =
        some { s with slots := timeoutMsgFree s.slots i, shell := .idle } := by
      simp only [step, shellStep, hsh]
    refine ⟨_, hs, rfl, ?_, ?_⟩
    · show (timeoutMsgFree s.slots i i).used = false
      rw [timeoutMsgFree, Function.update_self]
    · intro hm
      have halone := hi.alone (i := i) (by rw [hsh]; rfl)
      unfold pointers at hm
      rw [slotOf, Option.map_none, Option.toList_none, List.append_nil] at hm
      obtain ⟨x, hx, he⟩ := List.mem_map.1 hm
      exact halone x hx he
  · intro c cs hcs hin hc
    obtain ⟨i, ha⟩ := hvalid c.arg
      (List.mem_append_left _ (List.mem_map_of_mem (mem_handed_call hcs hc)))
    obtain ⟨s', hs⟩ := callback_exists s cs hc ha
    exact ⟨s', by rw [step, callbackStep, hcs]; simpa only [if_pos hin] using hs⟩

/-- A message that is entered, registered and printed. -/
def oneMessage : List Turn :=
  [.command (ascii "setTimeout 0 hi"), .shell, .shell, .shell, .shell, .shell, .kernel .timerInterrupt,
    .kernel .round, .kernel .round, .kernel .runPending, .kernel .round, .callback, .callback,
    .callback, .callback, .callback, .kernel .done]

theorem oneMessage_printed :
    (exec (step ⟨100, 1000, by decide⟩) (fun _ _ => true) (boot zeroed 0) oneMessage).map
      (fun s => s.printed) = some [⟨⟨0, ascii "hi"⟩, 0, ascii "hi"⟩] := by
  decide +kernel

theorem accounted_oneMessage : ∃ (s : System) (tl : List (Fin 32)) (kl : List (Fin 64)),
    s.printed = [⟨⟨0, ascii "hi"⟩, 0, ascii "hi"⟩] ∧ Accounted ⟨100, 1000, by decide⟩ s tl kl := by
  obtain ⟨s, hr, hp⟩ := Run.exists_of_exec (C := fun _ _ => True) (fun _ _ _ => trivial)
    oneMessage_printed
  obtain ⟨tl, kl, ha⟩ := accounted_of_run hr
  exact ⟨s, tl, kl, hp, ha⟩

end OscKernel.Shell.Slots
