import OscKernel.Deferred.Timer
import OscKernel.Lib.Memory

/-! # `sys_usleep` of lab5

The loop of `sys_usleep` reads the time counter, calls `schedule` and reads it again. What the other
tasks do in between shows in the later readings only, so a run is the reading at the call and the list
of the later readings. The counter runs at 24 ticks a microsecond; `timer_get_time_us` is modelled at
the 64 bits of its `unsigned long`.

* `timerGetTimeUs_toNat`, `productsFit`: the split into seconds and remainder is exact, and none of its
  products wraps.
* `usleepLoop_eq_some`: the reading at which the loop ends, and those at which it goes on.
* `slept_iff`: both ends of the sleep are rounded down, so that a sleep can end up to 23 ticks early
  (`lt_of_slept`), and it does so exactly if a reading falls there. -/

namespace OscKernel.User.Sleep

open OscKernel.Lib.Memory OscKernel.Deferred.Timer

/-- `TIMER_FREQ`, an `unsigned long`. -/
def timerFreqUl : Word := BitVec.ofNat 64 timerFreq

/-- `timer_get_time_us` at the reading `now` of the time counter. -/
def timerGetTimeUs (bootTimeBase now : Word) : Word :=
  let ticks := now - bootTimeBase
  let sec := ticks / timerFreqUl
  let rem := ticks % timerFreqUl
  sec * 1000000 + rem * 1000000 / timerFreqUl

/-- The loop of `sys_usleep` on the readings it makes: the one at which it ends, if it does. -/
def usleepLoop (bootTimeBase start : Word) (usec : BitVec 32) : List Word → Option Word
  | [] => none
  | now :: later =>
    if timerGetTimeUs bootTimeBase now - start < usec.setWidth 64 then
      usleepLoop bootTimeBase start usec later
    else some now

/-- `sys_usleep`, called at the reading `now`: its result, and the reading at which it returns. -/
def sysUsleep (bootTimeBase : Word) (usec : BitVec 32) (now : Word) (later : List Word) :
    Option (Word × Word) :=
  (usleepLoop bootTimeBase (timerGetTimeUs bootTimeBase now) usec later).map fun r => (0, r)

/-! ### The conversion -/

/-- The ticks from boot to a reading. -/
def ticks (bootTimeBase reading : Word) : ℕ := (reading - bootTimeBase).toNat

/-- The products and the sum of `timer_get_time_us`, taken without a bound, fit 64 bits. -/
def ProductsFit (ticks : ℕ) : Prop :=
  ticks / timerFreq * 1000000 < 2 ^ 64 ∧ ticks % timerFreq * 1000000 < 2 ^ 64 ∧
    ticks / timerFreq * 1000000 + ticks % timerFreq * 1000000 / timerFreq < 2 ^ 64

variable {boot now : Word} {usec : BitVec 32} {later : List Word}

theorem ticks_lt (boot now : Word) : ticks boot now < 2 ^ 64 := (now - boot).isLt

theorem productsFit {n : ℕ} (hn : n < 2 ^ 64) : ProductsFit n := by
  unfold ProductsFit timerFreq
  refine ⟨?_, ?_, ?_⟩ <;> omega

/-- The seconds and the remainder together are the count in microseconds, rounded down. -/
theorem sec_add_rem (n : ℕ) :
    n / timerFreq * 1000000 + n % timerFreq * 1000000 / timerFreq = n / 24 := by
  unfold timerFreq
  omega

theorem timerGetTimeUs_toNat (boot now : Word) :
    (timerGetTimeUs boot now).toNat = ticks boot now / 24 := by
  obtain ⟨hsec, hrem, hsum⟩ := productsFit (ticks_lt boot now)
  have hf : timerFreqUl.toNat = timerFreq := rfl
  have hm : (1000000 : Word).toNat = 1000000 := rfl
  have hq : ((now - boot) / timerFreqUl * 1000000).toNat = ticks boot now / timerFreq * 1000000 := by
    rw [BitVec.toNat_mul, BitVec.toNat_udiv, hf, hm]
    exact Nat.mod_eq_of_lt hsec
  have hr : ((now - boot) % timerFreqUl * 1000000 / timerFreqUl).toNat =
      ticks boot now % timerFreq * 1000000 / timerFreq := by
    rw [BitVec.toNat_udiv, BitVec.toNat_mul, BitVec.toNat_umod, hf, hm]
    exact congrArg (· / timerFreq) (Nat.mod_eq_of_lt hrem)
  rw [← sec_add_rem]
  unfold timerGetTimeUs
  rw [BitVec.toNat_add, hq, hr]
  exact Nat.mod_eq_of_lt hsum

/-! ### The loop -/

/-- The readings of a run, which never go back. -/
def Ordered (boot now : Word) (later : List Word) : Prop :=
  (now :: later).Pairwise fun a b => ticks boot a ≤ ticks boot b

instance (boot now : Word) (later : List Word) : Decidable (Ordered boot now later) :=
  inferInstanceAs (Decidable (List.Pairwise _ _))

/-- The first microsecond count at which the loop ends, in ticks. -/
def wake (boot now : Word) (usec : BitVec 32) : ℕ := 24 * (ticks boot now / 24 + usec.toNat)

/-- The difference of the two conversions does not wrap, and the test compares it with `wake`. -/
theorem goes_on_iff {r : Word} (hr : ticks boot now ≤ ticks boot r) :
    timerGetTimeUs boot r - timerGetTimeUs boot now < usec.setWidth 64 ↔
      ticks boot r < wake boot now usec := by
  have hle : timerGetTimeUs boot now ≤ timerGetTimeUs boot r := by
    rw [BitVec.le_def, timerGetTimeUs_toNat, timerGetTimeUs_toNat]
    exact Nat.div_le_div_right hr
  rw [BitVec.lt_def, BitVec.toNat_sub_of_le hle, timerGetTimeUs_toNat, timerGetTimeUs_toNat,
    BitVec.toNat_setWidth_of_le (by decide)]
  unfold wake
  omega

theorem usleepLoop_eq_find (hmono : ∀ t ∈ later, ticks boot now ≤ ticks boot t) :
    usleepLoop boot (timerGetTimeUs boot now) usec later =
      later.find? fun t => decide (wake boot now usec ≤ ticks boot t) := by
  induction later with
  | nil => rfl
  | cons t later ih =>
    have hstep : timerGetTimeUs boot t - timerGetTimeUs boot now < usec.setWidth 64 ↔
        ticks boot t < wake boot now usec := goes_on_iff (hmono t (List.mem_cons_self ..))
    unfold usleepLoop
    by_cases hlt : ticks boot t < wake boot now usec
    · rw [if_pos (hstep.mpr hlt), List.find?_cons_of_neg (by simpa using hlt)]
      exact ih fun x hx => hmono x (List.mem_cons_of_mem _ hx)
    · rw [if_neg fun h => hlt (hstep.mp h), List.find?_cons_of_pos (by simpa using hlt)]

theorem Ordered.le (h : Ordered boot now later) : ∀ t ∈ later, ticks boot now ≤ ticks boot t :=
  (List.pairwise_cons.mp h).1

theorem sysUsleep_eq_some (h : Ordered boot now later) {ret r : Word} :
    sysUsleep boot usec now later = some (ret, r) ↔
      ret = 0 ∧ wake boot now usec ≤ ticks boot r ∧ ∃ before after, later = before ++ r :: after ∧
        ∀ t ∈ before, ticks boot t < wake boot now usec := by
  unfold sysUsleep
  rw [usleepLoop_eq_find h.le, Option.map_eq_some_iff]
  simp only [List.find?_eq_some_iff_append, decide_eq_true_eq, Bool.not_eq_true',
    decide_eq_false_iff_not, not_le, Prod.mk.injEq]
  constructor
  · rintro ⟨x, hx, rfl, rfl⟩
    exact ⟨rfl, hx⟩
  · rintro ⟨rfl, hr⟩
    exact ⟨r, hr, rfl, rfl⟩

/-- A sleep returns once a reading has reached `wake`, and not after the first such reading. -/
theorem exists_sysUsleep (h : Ordered boot now later) {t : Word} (ht : t ∈ later)
    (hw : wake boot now usec ≤ ticks boot t) :
    ∃ r, sysUsleep boot usec now later = some (0, r) ∧ ticks boot r ≤ ticks boot t := by
  have hsome : (later.find? fun t => decide (wake boot now usec ≤ ticks boot t)).isSome :=
    List.find?_isSome.mpr ⟨t, ht, decide_eq_true hw⟩
  obtain ⟨r, hr⟩ := Option.isSome_iff_exists.mp hsome
  have hret : sysUsleep boot usec now later = some (0, r) := by
    unfold sysUsleep
    rw [usleepLoop_eq_find h.le, hr, Option.map_some]
  refine ⟨r, hret, ?_⟩
  obtain ⟨-, -, before, after, rfl, hb⟩ := (sysUsleep_eq_some h).mp hret
  rcases List.mem_append.mp ht with ht | ht
  · exact absurd hw (not_le.mpr (hb t ht))
  · rcases List.mem_cons.mp ht with rfl | ht
    · exact le_rfl
    · have hsuf := (List.pairwise_append.mp (List.pairwise_cons.mp h).2).2.1
      exact (List.pairwise_cons.mp hsuf).1 t ht

theorem lt_of_slept (h : Ordered boot now later) {ret r : Word}
    (hret : sysUsleep boot usec now later = some (ret, r)) :
    ticks boot now + 24 * usec.toNat < ticks boot r + 24 := by
  have hw := ((sysUsleep_eq_some h).mp hret).2.1
  unfold wake at hw
  omega

theorem slept_of_dvd (h : Ordered boot now later) (hd : 24 ∣ ticks boot now) {ret r : Word}
    (hret : sysUsleep boot usec now later = some (ret, r)) :
    ticks boot now + 24 * usec.toNat ≤ ticks boot r := by
  have hw := ((sysUsleep_eq_some h).mp hret).2.1
  unfold wake at hw
  omega

/-- A reading at which the loop ends, although less than `usec` microseconds have gone by. -/
def Early (boot now : Word) (usec : BitVec 32) (r : Word) : Prop :=
  wake boot now usec ≤ ticks boot r ∧ ticks boot r < ticks boot now + 24 * usec.toNat

instance (boot now : Word) (usec : BitVec 32) (r : Word) : Decidable (Early boot now usec r) :=
  inferInstanceAs (Decidable (_ ∧ _))

/-- No product of `timer_get_time_us` wraps at any reading, and the sleep is long enough exactly if
no reading falls between the two conversions' floor and the time asked for. -/
theorem slept_iff (boot : Word) (usec : BitVec 32) (now : Word) (later : List Word)
    (h : Ordered boot now later) :
    ((∀ t ∈ now :: later, ProductsFit (ticks boot t)) ∧
        ∀ ret r, sysUsleep boot usec now later = some (ret, r) →
          ticks boot now + 24 * usec.toNat ≤ ticks boot r) ↔
      ∀ t ∈ later, ¬Early boot now usec t := by
  constructor
  · rintro ⟨-, hlong⟩ t ht ⟨hw, hlt⟩
    obtain ⟨r, hret, hle⟩ := exists_sysUsleep h ht hw
    exact absurd (hlong 0 r hret) (by omega)
  · intro hno
    refine ⟨fun t _ => productsFit (ticks_lt boot t), fun ret r hret => ?_⟩
    obtain ⟨-, hw, before, after, rfl, -⟩ := (sysUsleep_eq_some h).mp hret
    by_contra hlt
    exact hno r (by simp) ⟨hw, not_le.mp hlt⟩

/-- A sleep of one microsecond, called at tick 25: at tick 47 it goes on, at tick 49 it returns. -/
theorem slept_one :
    sysUsleep 0 1 25 [47, 49] = some (0, 49) ∧
      ((∀ t ∈ [25, 47, 49], ProductsFit (ticks 0 t)) ∧
        ∀ ret r, sysUsleep 0 1 25 [47, 49] = some (ret, r) → 25 + 24 * 1 ≤ ticks 0 r) :=
  ⟨by decide, (slept_iff 0 1 25 [47, 49] (by decide)).mpr (by simp [Early, wake, ticks])⟩

/-- A sleep of one microsecond, called at tick 23, returns one tick later. -/
theorem not_slept_tick :
    ¬∀ (boot : Word) (usec : BitVec 32) (now : Word) (later : List Word), Ordered boot now later →
      (∀ t ∈ now :: later, ProductsFit (ticks boot t)) ∧
        ∀ ret r, sysUsleep boot usec now later = some (ret, r) →
          ticks boot now + 24 * usec.toNat ≤ ticks boot r := by
  intro h
  have hr := (h 0 1 23 [24] (by decide)).2 0 24 (by decide)
  exact absurd hr (by decide)

end OscKernel.User.Sleep
