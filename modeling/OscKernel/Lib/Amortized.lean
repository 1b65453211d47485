import OscKernel.Lib.Transition

/-! # Amortized bounds on runs

`total step f s es` adds the quantity `f` up over the steps of the run from `s` over `es`.
`Run.amortized` is the potential method: if every step pays for what it gains and for the rise of the
potential `p`, then so does the whole run. -/

namespace OscKernel.Lib.Transition

variable {σ ε : Type*} {step : σ → ε → Option σ} {C : σ → ε → Prop} {s t u : σ} {es fs : List ε}

/-- The sum of a quantity over the steps of a run. -/
def total (step : σ → ε → Option σ) (f : σ → ε → σ → ℕ) : σ → List ε → ℕ
  | _, [] => 0
  | s, e :: es =>
    match step s e with
    | none => 0
    | some t => f s e t + total step f t es

theorem total_cons {f : σ → ε → σ → ℕ} {e : ε} (hs : step s e = some t) :
    total step f s (e :: es) = f s e t + total step f t es := by
  rw [total, hs]

theorem Run.total_append {f : σ → ε → σ → ℕ} (h : Run step C s es t) :
    total step f s (es ++ fs) = total step f s es + total step f t fs := by
  induction h with
  | nil => simp [total]
  | cons _ hs _ ih => rw [List.cons_append, total_cons hs, total_cons hs, ih, Nat.add_assoc]

theorem total_add (f g : σ → ε → σ → ℕ) (s : σ) (es : List ε) :
    total step (fun s e t => f s e t + g s e t) s es = total step f s es + total step g s es := by
  induction es generalizing s with
  | nil => rfl
  | cons e es ih =>
    unfold total
    split
    · rfl
    · rw [ih]
      omega

theorem total_zero (s : σ) (es : List ε) : total step (fun _ _ _ => 0) s es = 0 := by
  induction es generalizing s with
  | nil => rfl
  | cons e es ih =>
    unfold total
    split
    · rfl
    · rw [ih]

theorem total_mul (a : ℕ) (f : σ → ε → σ → ℕ) (s : σ) (es : List ε) :
    total step (fun s e t => a * f s e t) s es = a * total step f s es := by
  induction es generalizing s with
  | nil => rfl
  | cons e es ih =>
    unfold total
    split
    · rfl
    · rw [ih, Nat.mul_add]

/-- **The potential method.** -/
theorem Run.amortized {I : σ → Prop} {gain cost : σ → ε → σ → ℕ} {p : σ → ℕ}
    (hstep : ∀ s e t, I s → C s e → step s e = some t →
      I t ∧ gain s e t + p t ≤ p s + cost s e t)
    (h : Run step C s es t) (hs : I s) :
    total step gain s es + p t ≤ p s + total step cost s es := by
  induction h with
  | nil => simp [total]
  | cons hc he _ ih =>
    obtain ⟨hi, hle⟩ := hstep _ _ _ hs hc he
    have := ih hi
    rw [total_cons he, total_cons he]
    omega

end OscKernel.Lib.Transition
