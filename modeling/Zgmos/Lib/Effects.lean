import Mathlib

-- Computations which change a state and which can fail.

namespace ExceptT

variable {x : ExceptT ε (StateM σ) α} {f : α → ExceptT ε (StateM σ) β} {s s' s'' : σ} {a : α} {b : β}

theorem run_bind_ok (h : x.run s = (.ok a, s')) : (x >>= f).run s = (f a).run s' := by
  rw [ExceptT.run_bind]
  apply (StateT.run_bind x.run _ s).trans
  simp only [StateT.run, h]
  rfl

theorem run_bind_error {e : ε} (h : x.run s = (.error e, s')) : (x >>= f).run s = (.error e, s') := by
  rw [ExceptT.run_bind]
  apply (StateT.run_bind x.run _ s).trans
  simp only [StateT.run, h]
  rfl

-- Both parts of a composed computation with a result have a result.
theorem run_bind_eq_ok : (x >>= f).run s = (.ok b, s'') ↔
    ∃ a s', x.run s = (.ok a, s') ∧ (f a).run s' = (.ok b, s'') := by
  constructor
  case mp =>
    intro h
    cases hx : x.run s
    case mk r s' =>
      cases r
      case error e =>
        rw [run_bind_error hx] at h
        cases h
      case ok a =>
        rw [run_bind_ok hx] at h
        exact ⟨a, s', rfl, h⟩
  case mpr =>
    intro ⟨a, s', hx, hf⟩
    rw [run_bind_ok hx, hf]

theorem run_forM_cons {f : α → ExceptT ε (StateM σ) PUnit} {l : List α} (h : (f a).run s = (.ok ⟨⟩, s')) :
    ((a :: l).forM f).run s = (l.forM f).run s' :=
  run_bind_ok h

end ExceptT
