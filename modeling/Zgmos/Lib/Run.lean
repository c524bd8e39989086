import Mathlib

-- The finite runs of a labelled step relation.
inductive Run (step : σ → ι → σ → Prop) : σ → List ι → σ → Prop
  | nil  : Run step s [] s
  | cons : step s i s' → Run step s' is s'' → Run step s (i :: is) s''

namespace Run

variable {step : σ → ι → σ → Prop} {s s₁ s₂ s₃ : σ} {is is₁ is₂ : List ι}

theorem append (r₁ : Run step s₁ is₁ s₂) (r₂ : Run step s₂ is₂ s₃) :
    Run step s₁ (is₁ ++ is₂) s₃ := by
  induction r₁
  case nil          => exact r₂
  case cons h _ hi  => exact .cons h (hi r₂)

theorem split (r : Run step s₁ (is₁ ++ is₂) s₃) :
    ∃ s₂, Run step s₁ is₁ s₂ ∧ Run step s₂ is₂ s₃ := by
  induction is₁ generalizing s₁
  case nil => exact ⟨s₁, .nil, r⟩
  case cons hi =>
    cases r
    case cons h r =>
      have ⟨s₂, r₁, r₂⟩ := hi r
      exact ⟨s₂, .cons h r₁, r₂⟩

theorem single (h : step s₁ i s₂) : Run step s₁ [i] s₂ :=
  .cons h .nil

-- What every step preserves holds at the end of every run.
theorem invariant {p : σ → Prop} (h : ∀ s i s', p s → step s i s' → p s')
    (r : Run step s₁ is s₂) (hs : p s₁) : p s₂ := by
  induction r
  case nil         => exact hs
  case cons e _ hi => exact hi (h _ _ _ hs e)

-- The steps may be restricted to those of the run.
theorem invariant_mem {p : σ → Prop} (h : ∀ s, ∀ i ∈ is, ∀ s', p s → step s i s' → p s')
    (r : Run step s₁ is s₂) (hs : p s₁) : p s₂ := by
  induction r
  case nil         => exact hs
  case cons e _ hi => exact hi (fun s i hm => h s i <| .tail _ hm) <| h _ _ (.head _) _ hs e

theorem unique (h : ∀ s i s₁ s₂, step s i s₁ → step s i s₂ → s₁ = s₂)
    (r₁ : Run step s is s₁) (r₂ : Run step s is s₂) : s₁ = s₂ := by
  induction r₁
  case nil =>
    cases r₂
    rfl
  case cons e₁ _ hi =>
    cases r₂
    case cons e₂ r₂ => exact hi <| h _ _ _ _ e₁ e₂ ▸ r₂

-- The steps of a run can be computed.
theorem of_foldlM {exec : σ → ι → Option σ} (h : ∀ s i s', exec s i = some s' → step s i s')
    (he : is.foldlM exec s₁ = some s₂) : Run step s₁ is s₂ := by
  induction is generalizing s₁
  case nil =>
    cases he
    exact .nil
  case cons i is hi =>
    have ⟨s, hs, he⟩ := Option.bind_eq_some_iff.mp he
    exact .cons (h _ _ _ hs) (hi he)

end Run
