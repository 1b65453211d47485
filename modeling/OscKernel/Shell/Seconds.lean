import OscKernel.Shell.Slots
import Mathlib.Data.Nat.Digits.Defs

/-! # The seconds of `setTimeout`

`parse_uint` adds up the digits in an `int`, so that what the timer gets is the number typed only as
long as it fits. A command is followed from the line to its end, with any turns of the kernel and of
the callbacks in between.

* `parseUint_digits`: what is read of a string of digits is its number, wrapped at 32 bits.
* `Carries`: what holds while the command has its slot and its seconds.
* `exists_call`: a command that takes a slot comes to its call of `add_timer`, and to one only.
* `honoured_iff`: when the command does what was typed. -/

namespace OscKernel.Shell.Seconds

open OscKernel.Lib.Memory OscKernel.Lib.NodePool OscKernel.Lib.Transition OscKernel.Initrd.KString
open OscKernel.Deferred.Timer
open OscKernel.Deferred.Machine hiding step init
open OscKernel.Shell.SetTimeout OscKernel.Shell.Slots

/-! ### The line -/

/-- A line `setTimeout <digits> <msg>` that fits the buffer of the shell; its gaps are one space longer
than `gap` and `gap'`. -/
structure Line where
  gap : ℕ
  digits : List Byte
  gap' : ℕ
  msg : List Byte
  typed : digits ≠ []
  isDigits : ∀ c ∈ digits, isDigit c = true
  noGap : msg.head?.any (· ≠ 32) = true
  noNull : (0 : Byte) ∉ msg
  fits : 10 + (gap + 1 + (digits.length + (gap' + 1 + msg.length))) < 128

/-- The characters of a line. -/
def Line.text (l : Line) : List Byte :=
  ascii "setTimeout" ++
    (List.replicate (l.gap + 1) 32 ++ (l.digits ++ (List.replicate (l.gap' + 1) 32 ++ l.msg)))

/-- The value of a digit. -/
def digitVal (c : Byte) : ℕ := c.toNat - 48

/-- The number that a string of digits denotes. -/
def number (ds : List Byte) : ℕ := Nat.ofDigits 10 (ds.reverse.map digitVal)

/-- The seconds typed. -/
def Line.sec (l : Line) : ℕ := number l.digits

theorem number_snoc (ds : List Byte) (c : Byte) : number (ds ++ [c]) = number ds * 10 + digitVal c := by
  unfold number
  rw [List.reverse_append, List.reverse_singleton, List.singleton_append, List.map_cons,
    Nat.ofDigits_cons]
  omega

theorem digit_toNat {c : Byte} (hc : isDigit c = true) :
    ((c - 48).setWidth 32 : BitVec 32) = BitVec.ofNat 32 (digitVal c) := by
  obtain ⟨h1, -⟩ := of_decide_eq_true hc
  apply BitVec.eq_of_toNat_eq
  rw [BitVec.toNat_setWidth, BitVec.toNat_sub_of_le h1, BitVec.toNat_ofNat]
  rfl

/-- The loop of `parse_uint` adds up the number, as far as an `int` can hold it. -/
theorem foldl_digits {ds : List Byte} (hd : ∀ c ∈ ds, isDigit c = true) :
    ds.foldl (fun value c => value * 10 + (c - 48).setWidth 32) (0 : BitVec 32) =
      BitVec.ofNat 32 (number ds) := by
  induction ds using List.reverseRecOn with
  | nil => rfl
  | append_singleton ds c ih =>
    rw [List.foldl_append, List.foldl_cons, List.foldl_nil,
      ih fun x hx => hd x (List.mem_append_left _ hx), digit_toNat (hd c (by simp)), number_snoc,
      BitVec.ofNat_add, BitVec.ofNat_mul]
    rfl

theorem parseUint_digits {ds rest : List Byte} (hne : ds ≠ [])
    (hd : ∀ c ∈ ds, isDigit c = true) :
    parseUint (ds ++ 32 :: rest) = some ((BitVec.ofNat 32 (number ds)).toInt, 32 :: rest) := by
  have h32 : ¬isDigit 32 = true := by decide
  have hhead : (ds ++ 32 :: rest).head?.any isDigit = true := by
    obtain ⟨c, ds, rfl⟩ := List.exists_cons_of_ne_nil hne
    exact hd c (List.mem_cons_self ..)
  unfold parseUint
  rw [if_pos hhead, List.takeWhile_append_of_pos hd, List.dropWhile_append_of_pos hd,
    List.takeWhile_cons_of_neg h32, List.append_nil, foldl_digits hd,
    List.dropWhile_cons_of_neg h32]

theorem skipSpaces_gap (k : ℕ) {s : List Byte} (hs : s.head?.any (· ≠ 32) = true) :
    skipSpaces (List.replicate k 32 ++ s) = s := by
  unfold skipSpaces
  rw [List.dropWhile_append_of_pos (by simp)]
  obtain ⟨c, s, rfl⟩ : ∃ c t, s = c :: t := List.exists_cons_of_ne_nil (by rintro rfl; cases hs)
  exact List.dropWhile_cons_of_neg (by simpa using hs)

/-- The shell reads the message, and the number of the digits in an `int`. -/
theorem setTimeoutArgs_text (l : Line) :
    setTimeoutArgs l.text = some ((BitVec.ofNat 32 l.sec).toInt, l.msg) := by
  have hdigits : (l.digits ++ (List.replicate (l.gap' + 1) 32 ++ l.msg)).head?.any (· ≠ 32) = true := by
    obtain ⟨c, ds, hds⟩ := List.exists_cons_of_ne_nil l.typed
    have hc := l.isDigits c (by rw [hds]; exact List.mem_cons_self ..)
    rw [hds, List.cons_append, List.head?_cons, Option.any_some]
    refine decide_eq_true ?_
    rintro rfl
    exact absurd hc (by decide)
  have hmsg : l.msg ≠ [] := by
    intro h
    have hn := l.noGap
    rw [h] at hn
    cases hn
  have hlen : (ascii "setTimeout").length = 10 := by decide
  have hdrop : l.text.drop 10 = List.replicate (l.gap + 1) 32 ++
      (l.digits ++ (List.replicate (l.gap' + 1) 32 ++ l.msg)) := List.drop_left' hlen
  have hsep : ∀ c ∈ l.text[10]?, c = 32 ∨ c = 9 := by
    intro c hc
    rw [← List.head?_drop, hdrop, List.replicate_succ, List.cons_append, List.head?_cons,
      Option.mem_some_iff] at hc
    exact .inl hc.symm
  unfold setTimeoutArgs
  rw [if_pos ⟨List.prefix_append _ _, hsep⟩, hdrop, skipSpaces_gap _ hdigits, List.replicate_succ,
    List.cons_append, parseUint_digits l.typed l.isDigits]
  dsimp only
  rw [← List.cons_append, ← List.replicate_succ, skipSpaces_gap _ l.noGap, if_neg hmsg]
  rfl

theorem length_text (l : Line) : l.text.length < 128 := by
  have hlen : (ascii "setTimeout").length = 10 := by decide
  have hf := l.fits
  unfold Line.text
  simp only [List.length_append, List.length_replicate, hlen]
  exact hf

theorem zero_notMem_text (l : Line) : (0 : Byte) ∉ l.text := by
  have hs : (0 : Byte) ∉ ascii "setTimeout" := by decide
  have hd : (0 : Byte) ∉ l.digits := fun h => absurd (l.isDigits 0 h) (by decide)
  unfold Line.text
  simp only [List.mem_append, List.mem_replicate, not_or]
  exact ⟨hs, by simp, hd, by simp, l.noNull⟩

/-! ### What a command adds -/

/-- An event of `set_timeout_callback` that waits in the timer queue. -/
def Waiting (y : Symbols) (k : State) (e : TimerEvent) : Prop :=
  e.callback = y.setTimeoutCallback ∧
    ∃ fl tl n, Holds k.timers.pool [] fl tl ∧ n ∈ tl ∧ k.timers.pool.node n = e

/-- In `s'` there is no timer of `setTimeout` and no used slot beyond those of `s`. -/
structure NothingNew (y : Symbols) (s s' : System) : Prop where
  timers : ∀ e, Waiting y s'.kernel e → Waiting y s.kernel e
  slots : ∀ j, (s'.slots j).used = true → (s.slots j).used = true

/-- In `s'` there is one timer more than in `s`, with a slot that was free: it expires `sec` seconds
from now. -/
def Registered (y : Symbols) (s s' : System) (sec : ℕ) : Prop :=
  ∃ i, ∃ e : TimerEvent,
    e = ⟨s'.kernel.clock + sec * timerFreq, y.setTimeoutCallback, y.slotAddr i⟩ ∧
    Waiting y s'.kernel e ∧ (∀ e', Waiting y s'.kernel e' → e' = e ∨ Waiting y s.kernel e') ∧
    (s.slots i).used = false ∧ (s'.slots i).used = true ∧
    ∀ j, (s'.slots j).used = true → j = i ∨ (s.slots j).used = true

/-- The shell is in a `setTimeout` command. -/
def Busy (s : System) : Prop := slotOf s.shell ≠ none

variable {y : Symbols} {s s₁ s' a b x x' : System} {i : Fin 16} {sec : ℤ}

theorem waiting_iff {k : State} {e : TimerEvent} {fl tl : List (Fin 32)}
    (hp : Holds k.timers.pool [] fl tl) :
    Waiting y k e ↔ e.callback = y.setTimeoutCallback ∧ ∃ n ∈ tl, k.timers.pool.node n = e := by
  constructor
  · rintro ⟨hc, fl', tl', n, hp', hn, he⟩
    exact ⟨hc, n, hp.queue_unique hp' ▸ hn, he⟩
  · rintro ⟨hc, n, hn, he⟩
    exact ⟨hc, fl, tl, n, hp, hn, he⟩

theorem waiting_of_step {k k' : State} {e : Event} {o : Output} {fl tl : List (Fin 32)}
    (hp : Holds k.timers.pool [] fl tl) (hs : Deferred.Machine.step k e = some (k', o))
    (hr : registers e ≠ some y.setTimeoutCallback) {ev : TimerEvent} (hw : Waiting y k' ev) :
    Waiting y k ev := by
  have hte := step_timerEffect hs
  have hsame : k'.timers.pool = k.timers.pool → Waiting y k ev := by
    intro h
    rwa [Waiting, h] at hw
  cases o with
  | quiet | taskAdded | handled | entered | started | finished | returned => exact hsame hte
  | timerAdded n callback arg sec =>
    obtain rfl := eq_of_accepts hs rfl
    obtain ⟨fl', tl', -, -, hn, hnode, hperm, hp'⟩ := addTimer_holds hp hte
    obtain ⟨hc, m, hm, rfl⟩ := (waiting_iff hp').mp hw
    rw [hnode] at hc ⊢
    rcases List.mem_cons.mp (hperm.mem_iff.mp hm) with rfl | hm
    · rw [Function.update_self] at hc
      exact absurd (congrArg some hc) hr
    · rw [Function.update_of_ne (ne_of_mem_of_not_mem hm hn)] at hc ⊢
      exact (waiting_iff hp).mpr ⟨hc, m, hm, rfl⟩
  | dispatched n callback arg task =>
    obtain ⟨expiresAt, hte⟩ := hte
    obtain ⟨tl', rfl, -, hnode, hp'⟩ := handlerRound_holds hp hte
    obtain ⟨hc, m, hm, rfl⟩ := (waiting_iff hp').mp hw
    rw [hnode] at hc ⊢
    exact (waiting_iff hp).mpr ⟨hc, m, List.mem_cons_of_mem _ hm, rfl⟩
  | dropped =>
    obtain ⟨n, e', -, hte⟩ := hte
    obtain ⟨tl', rfl, -, hnode, hp'⟩ := handlerRound_holds hp hte
    obtain ⟨hc, m, hm, rfl⟩ := (waiting_iff hp').mp hw
    rw [hnode] at hc ⊢
    exact (waiting_iff hp).mpr ⟨hc, m, List.mem_cons_of_mem _ hm, rfl⟩

/-! ### A turn of the others -/

theorem NothingNew.refl (y : Symbols) (s : System) : NothingNew y s s := ⟨fun _ h => h, fun _ h => h⟩

theorem NothingNew.of_eq (hk : x'.kernel = x.kernel)
    (hu : ∀ j, (x'.slots j).used = true → (x.slots j).used = true) : NothingNew y x x' :=
  ⟨fun _ he => hk ▸ he, hu⟩

theorem handOver_frame (y : Symbols) (s : System) (t : State) (o : Output) :
    (handOver y s t o).kernel = t ∧ (handOver y s t o).slots = s.slots ∧
      (handOver y s t o).shell = s.shell := by
  cases o with
  | dispatched _ _ _ task => cases task <;> exact ⟨rfl, rfl, rfl⟩
  | _ => exact ⟨rfl, rfl, rfl⟩

theorem kernel_nothingNew {e : Event} {t : State} {o : Output} {tl : List (Fin 32)}
    {kl : List (Fin 64)} (hi : Owned y x tl kl)
    (hs : Deferred.Machine.step x.kernel e = some (t, o))
    (hr : registers e ≠ some y.setTimeoutCallback) (hk : x'.kernel = t) (hsl : x'.slots = x.slots) :
    NothingNew y x x' := by
  obtain ⟨fl, hp⟩ := hi.timers
  exact ⟨fun ev hw => waiting_of_step hp hs hr (hk ▸ hw), fun j hj => hsl ▸ hj⟩

theorem used_of_free {m : Slots} {i j : Fin 16} (h : (timeoutMsgFree m i j).used = true) :
    j ≠ i ∧ (m j).used = true := by
  unfold timeoutMsgFree at h
  by_cases hji : j = i
  · rw [hji, Function.update_self] at h
    cases h
  · rw [Function.update_of_ne hji] at h
    exact ⟨hji, h⟩

theorem callback_frame {c : Call} {cs : List Call} (h : c.next y x cs = some x') :
    x'.shell = x.shell ∧ NothingNew y x x' := by
  unfold Call.next at h
  split at h
  · obtain ⟨j, -, rfl⟩ := Option.map_eq_some_iff.mp h
    exact ⟨rfl, .of_eq rfl fun _ h => h⟩
  · obtain ⟨j, -, rfl⟩ := Option.map_eq_some_iff.mp h
    split_ifs <;> exact ⟨rfl, .of_eq rfl fun _ h => h⟩
  · obtain ⟨j, -, rfl⟩ := Option.map_eq_some_iff.mp h
    exact ⟨rfl, .of_eq rfl fun _ h => (used_of_free h).2⟩
  · cases h

theorem return_frame {tl : List (Fin 32)} {kl : List (Fin 64)} (hi : Owned y x tl kl)
    (h : returnStep y x = some x') : x'.shell = x.shell ∧ NothingNew y x x' := by
  have hr : registers .done ≠ some y.setTimeoutCallback := fun h => by cases h
  unfold returnStep at h
  split_ifs at h
  · split at h
    · obtain ⟨⟨t, o⟩, hs, rfl⟩ := Option.map_eq_some_iff.mp h
      exact ⟨rfl, kernel_nothingNew hi hs hr rfl rfl⟩
    · cases h
  · obtain ⟨⟨t, o⟩, hs, rfl⟩ := Option.map_eq_some_iff.mp h
    exact ⟨rfl, kernel_nothingNew hi hs hr rfl rfl⟩

/-- While the shell is busy, a turn of the others leaves the command alone, and starts nothing. -/
theorem other_step {e : Turn} {tl : List (Fin 32)} {kl : List (Fin 64)} (hi : Owned y x tl kl)
    (hb : Busy x) (he : e ≠ .shell) (h : step y x e = some x') :
    x'.shell = x.shell ∧ NothingNew y x x' := by
  cases e with
  | shell => exact absurd rfl he
  | command buf =>
    rw [step, commandStep] at h
    split at h
    · rename_i hsh
      rw [Busy, hsh] at hb
      exact absurd rfl hb
    · cases h
  | callback =>
    rw [step, callbackStep] at h
    split at h
    · cases h
    · split_ifs at h
      exact callback_frame h
  | kernel e =>
    rw [step, kernelStep] at h
    split_ifs at h with hr he
    · exact return_frame hi h
    · obtain ⟨⟨t, o⟩, hs, rfl⟩ := Option.map_eq_some_iff.mp h
      obtain ⟨hk, hsl, hsh⟩ := handOver_frame y x t o
      exact ⟨hsh, kernel_nothingNew hi hs hr hk hsl⟩

/-! ### The command goes on -/

/-- The shell has the slot `i` and the seconds `sec`, and has not called `add_timer`. -/
def Carries (i : Fin 16) (sec : ℤ) : ShellState → Prop
  | .created j _ n | .copying j _ _ n | .adding j _ n => j = i ∧ n = sec
  | .idle | .failed _ => False

/-- The shell is about to call `add_timer`. -/
def Calls (s : System) : Prop := ∃ i c sec, s.shell = .adding i c sec

theorem Calls.busy (h : Calls x) : Busy x := by
  obtain ⟨i, c, sec, hsh⟩ := h
  simp [Busy, hsh, slotOf]

/-- Up to the call of `add_timer` the shell only writes to its slot. -/
theorem carries_shell (hc : Carries i sec x.shell) (hn : ¬Calls x)
    (h : step y x .shell = some x') : Carries i sec x'.shell ∧ NothingNew y x x' := by
  have hused : ∀ {j k : Fin 16} {v : Slot}, (Function.update x.slots j v k).used = true →
      v.used = (x.slots j).used → (x.slots k).used = true := by
    intro j k v hk hv
    by_cases hkj : k = j
    · rw [hkj, Function.update_self, hv] at hk
      exact hkj ▸ hk
    · rwa [Function.update_of_ne hkj] at hk
  rw [step, shellStep] at h
  split at h
  · cases h
  · rename_i j text n hsh
    cases h
    rw [hsh] at hc
    exact ⟨hc, .of_eq rfl fun k hk => hused hk rfl⟩
  · rename_i j k c n hsh
    cases h
    rw [hsh] at hc
    refine ⟨?_, .of_eq rfl fun k hk => hused hk rfl⟩
    dsimp only
    split_ifs <;> exact hc
  · rename_i j c n hsh
    exact absurd ⟨j, c, n, hsh⟩ hn
  · rename_i j hsh
    rw [hsh] at hc
    exact hc.elim

/-- **The invariant of a command**: it has the slot `i`, which was free, and nothing else is new. -/
structure Holding (y : Symbols) (s : System) (i : Fin 16) (x : System) : Prop where
  owned : ∃ tl kl, Owned y x tl kl
  free : (s.slots i).used = false
  timers : ∀ e, Waiting y x.kernel e → Waiting y s.kernel e
  slots : ∀ j, (x.slots j).used = true → j = i ∨ (s.slots j).used = true

variable {es es' : List Turn} {e : Turn}

theorem Holding.step (h : Holding y s i x) (hn : NothingNew y x x') (hs : step y x e = some x') :
    Holding y s i x' := by
  obtain ⟨tl, kl, ho⟩ := h.owned
  exact ⟨ho.step hs, h.free, fun ev hw => h.timers ev (hn.timers ev hw),
    fun j hj => h.slots j (hn.slots j hj)⟩

theorem Holding.release (h : Holding y s i x) (hk : x'.kernel = x.kernel)
    (hsl : x'.slots = timeoutMsgFree x.slots i) : NothingNew y s x' := by
  refine ⟨fun e he => h.timers e (hk ▸ he), fun j hj => ?_⟩
  rw [hsl] at hj
  obtain ⟨hji, hu⟩ := used_of_free hj
  exact (h.slots j hu).resolve_left hji

/-- A command that has its slot comes to its call of `add_timer` before it ends. -/
theorem exists_call (hr : Run (step y) (fun s _ => Busy s) x es s') :
    Holding y s i x → Carries i sec x.shell → s'.shell = .idle →
      ∃ before after a b, es = before ++ .shell :: after ∧
        Run (step y) (fun s _ => Busy s) x before a ∧ Calls a ∧ Holding y s i a ∧
        Carries i sec a.shell ∧ step y a .shell = some b ∧
        Run (step y) (fun s _ => Busy s) b after s' := by
  induction hr with
  | nil x =>
    intro _ hc hidle
    rw [hidle] at hc
    exact hc.elim
  | @cons x x' s' e es hb hs hr ih =>
    intro hh hc hidle
    have hgo : Carries i sec x'.shell → NothingNew y x x' → ∃ before after a b,
        e :: es = before ++ .shell :: after ∧ Run (step y) (fun s _ => Busy s) x before a ∧ Calls a ∧
        Holding y s i a ∧ Carries i sec a.shell ∧ step y a .shell = some b ∧
        Run (step y) (fun s _ => Busy s) b after s' := by
      intro hc' hn
      obtain ⟨before, after, a, b, rfl, hra, ha⟩ := ih (hh.step hn hs) hc' hidle
      exact ⟨e :: before, after, a, b, rfl, .cons hb hs hra, ha⟩
    by_cases he : e = .shell
    · subst he
      by_cases hcall : Calls x
      · exact ⟨[], es, x, x', rfl, .nil x, hcall, hh, hc, hs, hr⟩
      · obtain ⟨hc', hn⟩ := carries_shell hc hcall hs
        exact hgo hc' hn
    · obtain ⟨tl, kl, ho⟩ := hh.owned
      obtain ⟨hsh, hn⟩ := other_step ho hb he hs
      exact hgo (hsh ▸ hc) hn

/-! ### The call of `add_timer` -/

/-- What the call does: the slot is released later on, or the command has ended. -/
theorem call_outcome (hh : Holding y s i a) (hc : Carries i sec a.shell) (hcall : Calls a)
    (hs : step y a .shell = some b) :
    (b.shell = .failed i ∧ Holding y s i b ∧ (sec < 0 ∨ a.kernel.timers.pool.free = none)) ∨
    (b.shell = .idle ∧ 0 ≤ sec ∧ a.kernel.timers.pool.free ≠ none ∧ ∃ e : TimerEvent,
      e = ⟨(a.kernel.clock + sec.toNat * timerFreq % 2 ^ 64) % 2 ^ 64, y.setTimeoutCallback,
        y.slotAddr i⟩ ∧ b.kernel.clock = a.kernel.clock ∧ Waiting y b.kernel e ∧
      (∀ e', Waiting y b.kernel e' → e' = e ∨ Waiting y s.kernel e') ∧ (b.slots i).used = true ∧
      ∀ j, (b.slots j).used = true → j = i ∨ (s.slots j).used = true) := by
  obtain ⟨j, c, n, hsh⟩ := hcall
  rw [hsh] at hc
  obtain ⟨rfl, rfl⟩ := hc
  obtain ⟨tl, kl, ho⟩ := hh.owned
  obtain ⟨fl, hp⟩ := ho.timers
  have hstep := hs
  rw [step, shellStep, hsh] at hs
  obtain ⟨⟨t, o⟩, hm, rfl⟩ := Option.map_eq_some_iff.mp hs
  obtain ⟨⟨r, q⟩, hadd, hr⟩ := Option.map_eq_some_iff.mp hm
  cases r with
  | none =>
    cases hr
    have hq := addTimer_refused hadd
    refine .inl ⟨rfl, hh.step (.of_eq ?_ fun _ h => h) hstep, ?_⟩
    · rw [hq]
    · exact (reason_of_refused hadd).resolve_left y.nonnull
  | some m =>
    cases hr
    obtain ⟨fl', tl', hsec, rfl, hm, hnode, hperm, hp'⟩ := addTimer_holds hp hadd
    have hfree : a.kernel.timers.pool.free ≠ none := by
      rw [hp.free.1]
      exact Option.some_ne_none m
    have hused : (a.slots j).used = true := by
      have hmem := ho.once.mem_iff (a := y.slotAddr j)
      rw [pointers_eq (i := j) (by rw [hsh]; rfl), mem_usedAddrs] at hmem
      obtain ⟨k, hk, he⟩ := hmem.mp (by simp)
      exact slotAddr_injective y he ▸ hk
    refine .inr ⟨rfl, hsec, hfree, _, rfl, rfl, (waiting_iff hp').mpr ⟨rfl, m, ?_, ?_⟩, ?_, hused,
      hh.slots⟩
    · exact hperm.mem_iff.mpr (List.mem_cons_self ..)
    · show q.pool.node m = _
      rw [hnode, Function.update_self]
    · intro e' hw
      obtain ⟨hcb, k, hk, rfl⟩ := (waiting_iff hp').mp hw
      show q.pool.node k = _ ∨ Waiting y s.kernel (q.pool.node k)
      rw [hnode] at hcb ⊢
      rcases List.mem_cons.mp (hperm.mem_iff.mp hk) with rfl | hk
      · exact .inl (Function.update_self ..)
      · have hkm : k ≠ m := ne_of_mem_of_not_mem hk hm
        rw [Function.update_of_ne hkm] at hcb ⊢
        exact .inr (hh.timers _ ((waiting_iff hp).mpr ⟨hcb, k, hk, rfl⟩))

/-- The call of `add_timer` is over. -/
structure Settled (y : Symbols) (x : System) : Prop where
  owned : ∃ tl kl, Owned y x tl kl
  shell : x.shell = .idle ∨ ∃ i, x.shell = .failed i

theorem Settled.not_calls (h : Settled y x) : ¬Calls x := by
  rintro ⟨i, c, sec, hsh⟩
  rcases h.shell with h | ⟨j, h⟩ <;> rw [hsh] at h <;> cases h

theorem Settled.step (h : Settled y x) (hb : Busy x) (hs : step y x e = some x') : Settled y x' := by
  obtain ⟨tl, kl, ho⟩ := h.owned
  refine ⟨ho.step hs, ?_⟩
  by_cases he : e = .shell
  · subst he
    rcases h.shell with hsh | ⟨i, hsh⟩
    · rw [Busy, hsh] at hb
      exact absurd rfl hb
    · rw [SetTimeout.step, shellStep, hsh] at hs
      cases hs
      exact .inl rfl
  · rw [(other_step ho hb he hs).1]
    exact h.shell

theorem settled_of_call (ho : ∃ tl kl, Owned y a tl kl) (hcall : Calls a)
    (hs : step y a .shell = some b) : Settled y b := by
  obtain ⟨i, c, sec, hsh⟩ := hcall
  obtain ⟨tl, kl, ho⟩ := ho
  refine ⟨ho.step hs, ?_⟩
  rw [SetTimeout.step, shellStep, hsh] at hs
  obtain ⟨⟨t, o⟩, -, rfl⟩ := Option.map_eq_some_iff.mp hs
  cases o with
  | timerAdded => exact .inl rfl
  | _ => exact .inr ⟨i, rfl⟩

theorem Settled.run (h : Settled y b) (hr : Run (SetTimeout.step y) (fun s _ => Busy s) b es x) :
    Settled y x :=
  hr.invariant (I := Settled y) (fun _ _ _ h hb hs => h.step hb hs) h

/-- A run while the shell is busy does not go on once the shell is idle. -/
theorem eq_of_idle (hr : Run (step y) (fun s _ => Busy s) b es x) (hb : b.shell = .idle) :
    es = [] ∧ x = b := by
  cases hr with
  | nil => exact ⟨rfl, rfl⟩
  | cons hbusy _ _ =>
    rw [Busy, hb] at hbusy
    exact absurd rfl hbusy

/-- After a refusal the slot is released, whatever the others do meanwhile. -/
theorem nothingNew_of_failed (hr : Run (step y) (fun s _ => Busy s) b es s') :
    b.shell = .failed i → Holding y s i b → s'.shell = .idle → NothingNew y s s' := by
  induction hr with
  | nil b =>
    intro hf _ hidle
    rw [hf] at hidle
    cases hidle
  | @cons b x s' e es hb hs hr ih =>
    intro hf hh hidle
    by_cases he : e = .shell
    · subst he
      rw [step, shellStep, hf] at hs
      cases hs
      obtain ⟨-, rfl⟩ := eq_of_idle hr rfl
      exact hh.release rfl rfl
    · obtain ⟨tl, kl, ho⟩ := hh.owned
      obtain ⟨hsh, hn⟩ := other_step ho hb he hs
      exact ih (hsh.trans hf) (hh.step hn hs) hidle

/-! ### Every command -/

/-- `a` is the state of the run in which the shell calls `add_timer`. -/
def CallsAddTimer (y : Symbols) (x : System) (es : List Turn) (a : System) : Prop :=
  ∃ before after, es = before ++ .shell :: after ∧
    Run (step y) (fun s _ => Busy s) x before a ∧ Calls a

theorem call_eq {a' : System} {before l after after' : List Turn}
    (ho : ∃ tl kl, Owned y a tl kl) (hr : Run (step y) (fun s _ => Busy s) x before a)
    (hc : Calls a) (hr' : Run (step y) (fun s _ => Busy s) x (before ++ l) a') (hc' : Calls a')
    (hl : Turn.shell :: after = l ++ .shell :: after') : a = a' := by
  cases l with
  | nil =>
    rw [List.append_nil] at hr'
    exact hr.unique hr'
  | cons e l =>
    obtain rfl : Turn.shell = e := (List.cons.inj hl).1
    obtain ⟨t, h1, h2⟩ := hr'.of_append
    obtain rfl := hr.unique h1
    cases h2 with
    | cons _ hs hr => exact absurd hc' ((settled_of_call ho hc hs).run hr).not_calls

theorem callsAddTimer_unique {a' : System} (ho : ∃ tl kl, Owned y x tl kl)
    (h : CallsAddTimer y x es a) (h' : CallsAddTimer y x es a') : a = a' := by
  obtain ⟨before, after, rfl, hr, hc⟩ := h
  obtain ⟨before', after', hes, hr', hc'⟩ := h'
  have howned : ∀ {es : List Turn} {t : System}, Run (step y) (fun s _ => Busy s) x es t →
      ∃ tl kl, Owned y t tl kl := fun hr =>
    hr.invariant (I := fun t => ∃ tl kl, Owned y t tl kl)
      (fun _ _ _ hi _ hs => by obtain ⟨_, _, hi⟩ := hi; exact hi.step hs) ho
  rcases List.append_eq_append_iff.mp hes with ⟨l, rfl, hl⟩ | ⟨l, rfl, hl⟩
  · exact call_eq (howned hr) hr hc hr' hc' hl
  · exact (call_eq (howned hr') hr' hc' hr hc hl).symm

/-- At its call of `add_timer` the command is refused, or the number typed fits: no free node is left,
or the `int` is negative, or the number is not above its range and the deadline does not wrap. -/
def InTime (a : System) (n : ℕ) : Prop :=
  a.kernel.timers.pool.free = none ∨ 2 ^ 31 ≤ n % 2 ^ 32 ∨
    (n < 2 ^ 31 ∧ a.kernel.clock + n * timerFreq < 2 ^ 64)

theorem used_of_waiting {tl : List (Fin 32)} {kl : List (Fin 64)} (ho : Owned y s tl kl)
    {ev : TimerEvent} (hw : Waiting y s.kernel ev) (ha : ev.arg = y.slotAddr i) :
    (s.slots i).used = true := by
  obtain ⟨fl, hp⟩ := ho.timers
  obtain ⟨hc, n, hn, rfl⟩ := (waiting_iff hp).mp hw
  have hq : (y.slotAddr i, s.timerCmd n) ∈
      queued y tl (fun n => timerCall (s.kernel.timers.pool.node n)) s.timerCmd := by
    refine List.mem_flatMap.mpr ⟨n, hn, ?_⟩
    show _ ∈ pointerOf y (s.kernel.timers.pool.node n).callback (s.kernel.timers.pool.node n).arg _
    rw [hc, pointerOf_self, ha]
    exact List.mem_singleton_self _
  have hm : y.slotAddr i ∈ pointers y s tl kl :=
    List.mem_append_left _ (List.mem_map_of_mem (f := Prod.fst)
      (List.mem_append_left _ (List.mem_append_left _ hq)))
  obtain ⟨j, hj, he⟩ := mem_usedAddrs.mp (ho.once.mem_iff.mp hm)
  exact slotAddr_injective y he ▸ hj

theorem toInt_sec (n : ℕ) : ((BitVec.ofNat 32 n).toInt < 0 ↔ 2 ^ 31 ≤ n % 2 ^ 32) ∧
    (0 ≤ (BitVec.ofNat 32 n).toInt → (BitVec.ofNat 32 n).toInt.toNat = n % 2 ^ 32) := by
  have h : (BitVec.ofNat 32 n).toInt = if 2 * (n % 2 ^ 32) < 2 ^ 32 then ((n % 2 ^ 32 : ℕ) : ℤ)
      else ((n % 2 ^ 32 : ℕ) : ℤ) - (2 ^ 32 : ℕ) := by
    rw [BitVec.toInt_eq_toNat_cond, BitVec.toNat_ofNat]
  rw [h]
  split_ifs <;> omega

/-- The deadline is the one typed exactly if neither the number nor the sum wraps. -/
theorem deadline_eq_iff (clock n : ℕ) (hn : n % 2 ^ 32 < 2 ^ 31) :
    (clock + n % 2 ^ 32 * timerFreq % 2 ^ 64) % 2 ^ 64 = clock + n * timerFreq ↔
      n < 2 ^ 31 ∧ clock + n * timerFreq < 2 ^ 64 := by
  have hmul : n % 2 ^ 32 * timerFreq % 2 ^ 64 = n % 2 ^ 32 * timerFreq := by
    refine Nat.mod_eq_of_lt ?_
    unfold timerFreq
    omega
  rw [hmul]
  constructor
  · intro h
    have hlt := Nat.mod_lt (clock + n % 2 ^ 32 * timerFreq) (Nat.two_pow_pos 64)
    have hle := Nat.mod_le (clock + n % 2 ^ 32 * timerFreq) (2 ^ 64)
    rw [h] at hlt hle
    have hn' : n ≤ n % 2 ^ 32 :=
      Nat.le_of_mul_le_mul_right (Nat.le_of_add_le_add_left hle) (by decide)
    exact ⟨hn'.trans_lt hn, hlt⟩
  · rintro ⟨hlt, hsum⟩
    rw [Nat.mod_eq_of_lt (hlt.trans (by decide)), Nat.mod_eq_of_lt hsum]

theorem command_outcome (l : Line) (ho : ∃ tl kl, Owned y s tl kl)
    (h : step y s (.command l.text) = some x) : (s.shell = .idle ∧ x = s) ∨
      ∃ i, Holding y s i x ∧ Carries i (BitVec.ofNat 32 l.sec).toInt x.shell := by
  obtain ⟨tl, kl, ho⟩ := ho
  have hox := ho.step h
  rw [step, commandStep] at h
  split at h
  swap
  · cases h
  rename_i hsh
  rw [if_pos ⟨length_text l, zero_notMem_text l⟩, setTimeoutArgs_text] at h
  dsimp only at h
  split at h
  · exact .inl ⟨hsh, (Option.some.inj h).symm⟩
  · rename_i i m halloc
    obtain ⟨hfree, rfl⟩ := timeoutMsgAlloc_spec halloc
    obtain rfl := Option.some.inj h
    refine .inr ⟨i, ⟨hox, hfree, fun _ h => h, fun j hj => ?_⟩, rfl, rfl⟩
    by_cases hji : j = i
    · exact .inl hji
    · exact .inr ((Function.update_of_ne hji ..).subst (motive := fun v : Slot => v.used = true) hj)

/-- **What was typed is honoured**, in every run and whatever the others do meanwhile, exactly if the
number fits at the call of `add_timer`, should there be one. -/
theorem honoured_iff {t : State} {now : ℕ} (l : Line)
    (h0 : Run (step y) (fun _ _ => True) (boot t now) es s)
    (hcmd : step y s (.command l.text) = some s₁)
    (hrun : Run (step y) (fun s _ => Busy s) s₁ es' s') (hend : s'.shell = .idle) :
    NothingNew y s s' ∨ Registered y s s' l.sec ↔
      ∀ a, CallsAddTimer y s₁ es' a → InTime a l.sec := by
  have howned := owned_of_run h0
  rcases command_outcome l howned hcmd with ⟨hsh, rfl⟩ | ⟨i, hh, hc⟩
  · -- no slot is free
    obtain ⟨rfl, rfl⟩ := eq_of_idle hrun hsh
    refine iff_of_true (.inl (.refl ..)) ?_
    rintro a ⟨before, after, he, -⟩
    simp at he
  have hown := hh.owned
  obtain ⟨before, after, a, b, rfl, hra, hcall, hh, hc, hs, hrb⟩ := exists_call hrun hh hc hend
  have hone : (∀ a', CallsAddTimer y s₁ (before ++ .shell :: after) a' → InTime a' l.sec) ↔
      InTime a l.sec := by
    have hmine : CallsAddTimer y s₁ (before ++ .shell :: after) a := ⟨before, after, rfl, hra, hcall⟩
    exact ⟨fun h => h a hmine, fun h a' ha' => callsAddTimer_unique hown hmine ha' ▸ h⟩
  obtain ⟨hneg, hnat⟩ := toInt_sec l.sec
  rw [hone]
  rcases call_outcome hh hc hcall hs with
    ⟨hb, hhb, hreason⟩ | ⟨hb, hsec, hnode, e, rfl, hclock, hw, hall, hused, hsl⟩
  · refine iff_of_true (.inl (nothingNew_of_failed hrb hb hhb hend)) ?_
    exact hreason.elim (fun h => .inr (.inl (hneg.mp h))) .inl
  obtain ⟨-, rfl⟩ := eq_of_idle hrb hb
  have hlt : l.sec % 2 ^ 32 < 2 ^ 31 := not_le.mp fun h => not_lt.mpr hsec (hneg.mpr h)
  rw [hnat hsec] at hw hall
  have hin : InTime a l.sec ↔ l.sec < 2 ^ 31 ∧ a.kernel.clock + l.sec * timerFreq < 2 ^ 64 :=
    ⟨fun h => (h.resolve_left hnode).resolve_left (not_le.mpr hlt), fun h => .inr (.inr h)⟩
  rw [hin, ← deadline_eq_iff _ _ hlt]
  constructor
  · rintro (hnew | ⟨j, e, rfl, hw', -, hj, -, -⟩)
    · -- the slot of the new timer was free
      exact absurd (hnew.slots i hused) (by simp [hh.free])
    · rcases hall _ hw' with he | hold
      · rw [TimerEvent.mk.injEq, hclock] at he
        exact he.1.symm
      · obtain ⟨tl, kl, ho⟩ := howned
        exact absurd (used_of_waiting ho hold rfl) (by simp [hj])
  · intro hd
    rw [hd] at hw hall
    exact .inr ⟨i, _, by rw [hclock], hw, hall, hh.free, hused, hsl⟩

/-! ### Two lines -/

theorem exists_busy_run {β : Type*} {view : System → β} {v : β}
    (h : (step y s e).bind (fun x =>
      (exec (step y) (fun s _ => (slotOf s.shell).isSome) x es).map view) = some v) :
    ∃ x x', step y s e = some x ∧ Run (step y) (fun s _ => Busy s) x es x' ∧ view x' = v := by
  obtain ⟨x, hx, h⟩ := Option.bind_eq_some_iff.mp h
  obtain ⟨x', hr, hv⟩ := Run.exists_of_exec (C := fun s _ => Busy s)
    (fun s _ hs => Option.isSome_iff_ne_none.mp hs) h
  exact ⟨x, x', hx, hr, hv⟩

/-- The line `setTimeout 5 hi`. -/
def fiveHi : Line :=
  ⟨0, ascii "5", 0, ascii "hi", by decide, by decide, by decide, by decide, by decide⟩

example : fiveHi.text = ascii "setTimeout 5 hi" ∧ fiveHi.sec = 5 := by decide

/-- The slot and the seconds that the shell is about to give to `add_timer`. -/
def adding : ShellState → Option (Fin 16 × ℤ)
  | .adding i _ sec => some (i, sec)
  | _ => none

theorem calls_of_adding {p : Fin 16 × ℤ} (h : adding s.shell = some p) : Calls s := by
  cases hsh : s.shell with
  | adding i c sec => exact ⟨i, c, sec, hsh⟩
  | idle | created | copying | failed => rw [hsh] at h; cases h

theorem idle_of_slotOf (h : slotOf s.shell = none) : s.shell = .idle := by
  cases hsh : s.shell with
  | idle => rfl
  | created | copying | adding | failed => rw [hsh] at h; cases h

/-- The time and the shell before the call of `add_timer`, and the shell after it. -/
theorem fiveHi_call : (step ⟨100, 1000, by decide⟩ (boot zeroed 0) (.command fiveHi.text)).bind
    (fun x => (exec (step ⟨100, 1000, by decide⟩) (fun s _ => (slotOf s.shell).isSome) x
      (.replicate 4 .shell)).map fun a => (a.kernel.clock, adding a.shell,
        (step ⟨100, 1000, by decide⟩ a .shell).map fun s => slotOf s.shell)) =
      some (0, some (0, 5), some none) := by
  decide +kernel

theorem honoured_fiveHi : ∃ (s₁ s' : System) (es' : List Turn),
    step ⟨100, 1000, by decide⟩ (boot zeroed 0) (.command fiveHi.text) = some s₁ ∧
      Run (step ⟨100, 1000, by decide⟩) (fun s _ => Busy s) s₁ es' s' ∧ s'.shell = .idle ∧
      (NothingNew ⟨100, 1000, by decide⟩ (boot zeroed 0) s' ∨
        Registered ⟨100, 1000, by decide⟩ (boot zeroed 0) s' 5) := by
  obtain ⟨s₁, a, hcmd, hr, hv⟩ := exists_busy_run fiveHi_call
  simp only [Prod.mk.injEq] at hv
  obtain ⟨hclock, hadd, hend⟩ := hv
  obtain ⟨s', hs, hidle⟩ := Option.map_eq_some_iff.mp hend
  have hcall := calls_of_adding hadd
  have hbusy := hcall.busy
  have h0 : Run (step ⟨100, 1000, by decide⟩) (fun _ _ => True) (boot zeroed 0) [] (boot zeroed 0) :=
    .nil _
  have hown : ∃ tl kl, Owned ⟨100, 1000, by decide⟩ s₁ tl kl :=
    owned_of_run (h0.snoc trivial hcmd)
  refine ⟨s₁, s', _, hcmd, hr.snoc hbusy hs, idle_of_slotOf hidle,
    (honoured_iff fiveHi h0 hcmd (hr.snoc hbusy hs) (idle_of_slotOf hidle)).mpr fun a' ha' => ?_⟩
  obtain rfl := callsAddTimer_unique hown ⟨_, [], rfl, hr, hcall⟩ ha'
  refine .inr (.inr ⟨by decide, ?_⟩)
  rw [hclock]
  decide

/-- The line `setTimeout 4294967297 x`. -/
def wrapped : Line :=
  ⟨0, ascii "4294967297", 0, ascii "x", by decide, by decide, by decide, by decide, by decide⟩

/-- What a command has left: the queue, its first event, and the first slot. -/
structure Left where
  head : Option (Fin 32)
  next : Option (Fin 32)
  event : TimerEvent
  used : Bool
  shell : Option (Fin 16)
  deriving DecidableEq

def left (s : System) : Left :=
  ⟨s.kernel.timers.pool.head, s.kernel.timers.pool.next ⟨0, by decide⟩,
    s.kernel.timers.pool.node ⟨0, by decide⟩, (s.slots ⟨0, by decide⟩).used, slotOf s.shell⟩

theorem wrapped_left : (step ⟨100, 1000, by decide⟩ (boot zeroed 0) (.command wrapped.text)).bind
    (fun x => (exec (step ⟨100, 1000, by decide⟩) (fun s _ => (slotOf s.shell).isSome) x
      (.replicate 4 .shell)).map left) = some ⟨some 0, none, ⟨24000000, 100, 1000⟩, true, none⟩ := by
  decide +kernel

/-- Not every line is honoured: with the number of `wrapped` the timer expires after a second. -/
theorem not_honoured_wrapped :
    ¬∀ (y : Symbols) (t : State) (now : ℕ) (l : Line) (es es' : List Turn) (s s₁ s' : System),
      Run (step y) (fun _ _ => True) (boot t now) es s → step y s (.command l.text) = some s₁ →
        Run (step y) (fun s _ => Busy s) s₁ es' s' → s'.shell = .idle →
          NothingNew y s s' ∨ Registered y s s' l.sec := by
  intro h
  obtain ⟨s₁, s', hcmd, hr, hv⟩ := exists_busy_run wrapped_left
  rw [left, Left.mk.injEq] at hv
  obtain ⟨hhead, hnext, hevent, hused, hsh⟩ := hv
  rcases h _ _ _ wrapped _ _ _ _ _ (.nil _) hcmd hr (idle_of_slotOf hsh) with
    hnew | ⟨i, e, rfl, ⟨-, fl, tl, n, hp, hn, he⟩, -⟩
  · cases hnew.slots 0 hused
  · -- the queue is the node 0 alone
    have htl : tl = [0] := hp.queue.unique ⟨hhead, hnext⟩
    have hnode : s'.kernel.timers.pool.node 0 = ⟨24000000, 100, 1000⟩ := hevent
    rw [htl, List.mem_singleton] at hn
    rw [hn, hnode, TimerEvent.mk.injEq] at he
    have hsec : wrapped.sec = 4294967297 := by decide
    have htime := he.1
    rw [hsec, timerFreq] at htime
    omega

end OscKernel.Shell.Seconds
