import Mathlib

-- What is known when a computation which can fail has a result.

namespace Except

variable {x : Except ε α} {f : α → Except ε β} {b : β}

theorem bind_eq_ok : (x >>= f) = .ok b ↔ ∃ a, x = .ok a ∧ f a = .ok b := by
  cases x <;> simp [bind, Except.bind]

-- A composed computation fails with an error only if one of its parts does.
theorem bind_eq_error {e : ε} : (x >>= f) = .error e ↔ x = .error e ∨ ∃ a, x = .ok a ∧ f a = .error e := by
  cases x <;> simp [bind, Except.bind]

theorem of_bind_ok {g : α → β} {e : ε} (h : (x >>= fun a => .ok (g a)) = .error e) : x = .error e := by
  cases x
  case error => exact congrArg _ <| Except.error.inj h
  case ok    => nomatch h

theorem mapM_eq_ok {l : List α} {bs : List β} (h : l.mapM f = .ok bs) :
    bs.length = l.length ∧ (∀ a ∈ l, ∃ b, f a = .ok b) ∧ ∀ b ∈ bs, ∃ a ∈ l, f a = .ok b := by
  induction l generalizing bs
  case nil =>
    cases h
    simp
  case cons a l hi =>
    rw [List.mapM_cons] at h
    have ⟨b, hb, h⟩ := bind_eq_ok.mp h
    have ⟨bs', hbs, h⟩ := bind_eq_ok.mp h
    have ⟨hl, hf, hm⟩ := hi hbs
    cases h
    refine ⟨by simp [hl], ?_, ?_⟩
    case refine_1 =>
      intro a' ha
      cases ha
      case head    => exact ⟨b, hb⟩
      case tail ha => exact hf a' ha
    case refine_2 =>
      intro b' hb'
      cases hb'
      case head => exact ⟨a, .head _, hb⟩
      case tail hb' =>
        have ⟨a', ha, he⟩ := hm b' hb'
        exact ⟨a', .tail _ ha, he⟩

-- The error of a mapping is that of an element.
theorem mapM_error {e : ε} {l : List α} (h : l.mapM f = .error e) : ∃ a ∈ l, f a = .error e := by
  induction l
  case nil => nomatch h
  case cons a l hi =>
    rw [List.mapM_cons] at h
    cases bind_eq_error.mp h
    case inl h => exact ⟨a, .head _, h⟩
    case inr h =>
      have ⟨_, _, h⟩ := h
      have ⟨a', hm, ha⟩ := hi <| of_bind_ok h
      exact ⟨a', .tail _ hm, ha⟩

-- An invariant of the steps of a fold.
theorem foldlM_induction {step : β → α → Except ε β} {l : List α} {motive : β → Prop}
    (h : ∀ b a b', motive b → step b a = .ok b' → motive b') {b b' : β} (hb : motive b)
    (he : l.foldlM step b = .ok b') : motive b' := by
  induction l generalizing b
  case nil =>
    cases he
    exact hb
  case cons a l hi =>
    rw [List.foldlM_cons] at he
    have ⟨b₁, h₁, h₂⟩ := bind_eq_ok.mp he
    exact hi (h _ _ _ hb h₁) h₂

end Except
