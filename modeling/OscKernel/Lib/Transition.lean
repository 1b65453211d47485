import Mathlib.Data.List.Induction

/-! # Runs of a labelled machine

A machine is a partial step function on states and events. `Run step C s es s'` is a run from `s` to
`s'` over the events `es` in which every step meets the condition `C`; `fun _ _ => True` is the
condition of all runs.

* `Run.invariant`: what every step preserves holds at the end of a run.
* `Run.append`, `Run.snoc`, `Run.mono`: how runs compose.
* `exec`: the run over a list of events, as a function.
* `Since`: some step of a run was a `P`, and no step after it a `Q`.
* `withHistory`: a machine with a history variable.
* `Trace`, `Run.simulate`: a run is one of an abstract machine.
* `Eventually`: whatever way the machine takes, it gets to a state of a set. -/

namespace OscKernel.Lib.Transition

variable {σ ε : Type*}

/-- A run whose steps all meet the condition `C`. -/
inductive Run (step : σ → ε → Option σ) (C : σ → ε → Prop) : σ → List ε → σ → Prop
  | nil (s : σ) : Run step C s [] s
  | cons {s s' t : σ} {e : ε} {es : List ε} (hc : C s e) (hs : step s e = some s')
      (hr : Run step C s' es t) : Run step C s (e :: es) t

variable {step : σ → ε → Option σ} {C D : σ → ε → Prop} {s t u : σ} {es fs : List ε}

theorem Run.single {e : ε} (hc : C s e) (hs : step s e = some t) : Run step C s [e] t :=
  .cons hc hs (.nil t)

theorem Run.append (h : Run step C s es t) (h' : Run step C t fs u) :
    Run step C s (es ++ fs) u := by
  induction h with
  | nil => exact h'
  | cons hc hs _ ih => exact .cons hc hs (ih h')

theorem Run.snoc {e : ε} (h : Run step C s es t) (hc : C t e) (hs : step t e = some u) :
    Run step C s (es ++ [e]) u :=
  h.append (.single hc hs)

theorem Run.mono (hCD : ∀ s e, C s e → D s e) (h : Run step C s es t) : Run step D s es t := by
  induction h with
  | nil => exact .nil _
  | cons hc hs _ ih => exact .cons (hCD _ _ hc) hs ih

/-- **The invariant rule**: what holds at the start and is preserved by every step that meets the
condition holds at the end. -/
theorem Run.invariant {I : σ → Prop} (hstep : ∀ s e s', I s → C s e → step s e = some s' → I s')
    (h : Run step C s es t) (hs : I s) : I t := by
  induction h with
  | nil => exact hs
  | cons hc he _ ih => exact ih (hstep _ _ _ hs hc he)

theorem Run.unique (h : Run step C s es t) (h' : Run step C s es u) : t = u := by
  induction h with
  | nil => cases h'; rfl
  | cons _ hs _ ih =>
    cases h' with
    | cons _ hs' hr =>
      rw [hs, Option.some.injEq] at hs'
      subst hs'
      exact ih hr

/-- The state after a list of events, as long as every step passes the check `ok`. -/
def exec (step : σ → ε → Option σ) (ok : σ → ε → Bool) : σ → List ε → Option σ
  | s, [] => some s
  | s, e :: es =>
    if ok s e then
      match step s e with
      | none => none
      | some t => exec step ok t es
    else none

theorem Run.of_exec {ok : σ → ε → Bool} (hC : ∀ s e, ok s e = true → C s e) :
    ∀ {es : List ε} {s t : σ}, exec step ok s es = some t → Run step C s es t
  | [], s, t, h => by
    rw [exec, Option.some.injEq] at h
    exact h ▸ .nil s
  | e :: es, s, t, h => by
    rw [exec] at h
    split_ifs at h with hok
    split at h
    · cases h
    · rename_i u hu
      exact .cons (hC s e hok) hu (Run.of_exec hC h)

theorem Run.exists_of_exec {β : Type*} {ok : σ → ε → Bool} (hC : ∀ s e, ok s e = true → C s e)
    {es : List ε} {s : σ} {view : σ → β} {v : β} (h : (exec step ok s es).map view = some v) :
    ∃ t, Run step C s es t ∧ view t = v := by
  obtain ⟨t, ht, hv⟩ := Option.map_eq_some_iff.1 h
  exact ⟨t, .of_exec hC ht, hv⟩

/-! ### What has happened since -/

theorem Run.of_append (h : Run step C s (es ++ fs) u) :
    ∃ t, Run step C s es t ∧ Run step C t fs u := by
  induction es generalizing s with
  | nil => exact ⟨s, .nil s, h⟩
  | cons e es ih =>
    cases h with
    | cons hc hs hr =>
      obtain ⟨t, h1, h2⟩ := ih hr
      exact ⟨t, .cons hc hs h1, h2⟩

theorem Run.of_snoc {e : ε} (h : Run step C s (es ++ [e]) u) :
    ∃ t, Run step C s es t ∧ C t e ∧ step t e = some u := by
  obtain ⟨t, h1, h2⟩ := h.of_append
  cases h2 with
  | cons hc hs hr =>
    cases hr
    exact ⟨t, h1, hc, hs⟩

/-- **Induction from the end** of a run. -/
theorem Run.snoc_induction {motive : List ε → σ → Prop} (hnil : motive [] s)
    (hsnoc : ∀ es t e u, Run step C s es t → motive es t → C t e → step t e = some u →
      motive (es ++ [e]) u) (h : Run step C s es t) : motive es t := by
  induction es using List.reverseRecOn generalizing t with
  | nil =>
    cases h
    exact hnil
  | append_singleton es e ih =>
    obtain ⟨u, h1, hc, hs⟩ := h.of_snoc
    exact hsnoc es u e t h1 (ih h1) hc hs

/-- Some step of the run over `es` from `s` to `t` was a `P`, and no step after it was a `Q`. -/
def Since (step : σ → ε → Option σ) (P Q : σ → ε → Prop) (s : σ) (es : List ε) (t : σ) : Prop :=
  ∃ before e after a b, es = before ++ e :: after ∧ Run step (fun _ _ => True) s before a ∧ P a e ∧
    step a e = some b ∧ Run step (fun c e => ¬ Q c e) b after t

theorem not_since_nil {P Q : σ → ε → Prop} : ¬ Since step P Q s [] t := by
  rintro ⟨before, e, after, a, b, h, -⟩
  exact List.cons_ne_nil e after (List.append_eq_nil_iff.1 h.symm).2

/-- **What one more step does**: it is a `P` itself, or it is no `Q`. -/
theorem since_snoc {P Q : σ → ε → Prop} {e : ε} (h : Run step C s es t) (hs : step t e = some u) :
    Since step P Q s (es ++ [e]) u ↔ P t e ∨ (Since step P Q s es t ∧ ¬ Q t e) := by
  have hany : ∀ {D : σ → ε → Prop} {s t : σ} {es : List ε}, Run step D s es t →
      Run step (fun _ _ => True) s es t := fun hr => hr.mono fun _ _ _ => trivial
  constructor
  · rintro ⟨before, e', after, a, b, hes, hr, hp, hab, hq⟩
    rcases List.eq_nil_or_concat after with rfl | ⟨after', e'', rfl⟩
    · obtain ⟨rfl, he⟩ := List.append_inj' hes rfl
      rw [List.singleton_inj] at he
      obtain rfl := hr.unique (hany h)
      exact .inl (he ▸ hp)
    · rw [List.concat_eq_append, ← List.cons_append, ← List.append_assoc] at hes
      obtain ⟨rfl, he⟩ := List.append_inj' hes rfl
      rw [List.singleton_inj] at he
      subst he
      rw [List.concat_eq_append] at hq
      obtain ⟨c, hc, hqc, -⟩ := hq.of_snoc
      have hct : Run step (fun _ _ => True) s (before ++ e' :: after') c :=
        hr.append (.cons trivial hab (hany hc))
      obtain rfl := hct.unique (hany h)
      exact .inr ⟨⟨before, e', after', a, b, rfl, hr, hp, hab, hc⟩, hqc⟩
  · rintro (hp | ⟨⟨before, e', after, a, b, rfl, hr, hp, hab, hq⟩, hn⟩)
    · exact ⟨es, e, [], t, u, rfl, hany h, hp, hs, .nil u⟩
    · refine ⟨before, e', after ++ [e], a, b, ?_, hr, hp, hab, hq.snoc hn hs⟩
      rw [List.append_assoc, List.cons_append]

/-! ### History variables -/

/-- The machine whose steps yield an output, together with a history that is updated from the state
before a step, its output and the state after it. -/
def withHistory {ω η : Type*} (step : σ → ε → Option (σ × ω)) (upd : η → σ → ω → σ → η) :
    σ × η → ε → Option (σ × η)
  | (s, h), e => (step s e).map fun (t, o) => (t, upd h s o t)

theorem withHistory_eq_some {ω η : Type*} {step : σ → ε → Option (σ × ω)} {upd : η → σ → ω → σ → η}
    {p q : σ × η} {e : ε} (h : withHistory step upd p e = some q) :
    ∃ o, step p.1 e = some (q.1, o) ∧ q.2 = upd p.2 p.1 o q.1 := by
  obtain ⟨⟨t, o⟩, ht, rfl⟩ := Option.map_eq_some_iff.1 h
  exact ⟨o, ht, rfl⟩

/-! ### Simulation -/

/-- A run of a machine that is given by a relation. -/
inductive Trace {τ : Type*} (R : τ → ε → τ → Prop) : τ → List ε → τ → Prop
  | nil (a : τ) : Trace R a [] a
  | cons {a b c : τ} {e : ε} {es : List ε} (h : R a e b) (hr : Trace R b es c) : Trace R a (e :: es) c

theorem Trace.invariant {τ : Type*} {R : τ → ε → τ → Prop} {I : τ → Prop} {a b : τ}
    (hstep : ∀ a e b, I a → R a e b → I b) (h : Trace R a es b) (ha : I a) : I b := by
  induction h with
  | nil => exact ha
  | cons hr _ ih => exact ih (hstep _ _ _ ha hr)

/-- **The simulation rule**: if every step is one of the abstract machine, from states with the
invariant `I`, then every run is a trace of it, with the same events. -/
theorem Run.simulate {τ : Type*} {R : τ → ε → τ → Prop} (I : σ → Prop) (view : σ → τ)
    (hstep : ∀ s e s', I s → C s e → step s e = some s' → I s' ∧ R (view s) e (view s'))
    (h : Run step C s es t) (hs : I s) : I t ∧ Trace R (view s) es (view t) := by
  induction h with
  | nil => exact ⟨hs, .nil _⟩
  | cons hc he _ ih =>
    obtain ⟨hi, hr⟩ := hstep _ _ _ hs hc he
    obtain ⟨hi', hr'⟩ := ih hi
    exact ⟨hi', .cons hr hr'⟩

/-! ### What happens in the end -/

/-- On every way from the state a `P` is reached, and there is always a step until then. -/
inductive Eventually (R : σ → σ → Prop) (P : σ → Prop) : σ → Prop
  | here {s : σ} (h : P s) : Eventually R P s
  | next {s : σ} (he : ∃ t, R s t) (hn : ∀ t, R s t → Eventually R P t) : Eventually R P s

theorem Eventually.bind {R : σ → σ → Prop} {P Q : σ → Prop} (h : Eventually R P s)
    (hq : ∀ t, P t → Eventually R Q t) : Eventually R Q s := by
  induction h with
  | here h => exact hq _ h
  | next he _ ih => exact .next he ih

/-- **The rule for loops**: what holds before a round holds after it, with a smaller measure, or the
loop is over. -/
theorem Eventually.loop {R : σ → σ → Prop} {P : σ → Prop} (I : ℕ → σ → Prop)
    (hstep : ∀ n s, I n s → Eventually R (fun t => P t ∨ ∃ m < n, I m t) s) :
    ∀ n s, I n s → Eventually R P s := by
  intro n
  induction n using Nat.strongRecOn with
  | ind n ih =>
    intro s hs
    refine (hstep n s hs).bind fun t ht => ?_
    rcases ht with ht | ⟨m, hm, ht⟩
    · exact .here ht
    · exact ih m hm t ht

end OscKernel.Lib.Transition
