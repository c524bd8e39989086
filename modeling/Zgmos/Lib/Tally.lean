import Mathlib

-- The number of slots that hold a value.
def tally [DecidableEq ν] (s : Finset κ) (f : κ → Option ν) (v : ν) : Nat :=
  (s.filter fun k => f k = some v).card

section

variable [DecidableEq κ] [DecidableEq ν] {s : Finset κ} {f : κ → Option ν} {k : κ} {v : ν} {x : Option ν}

-- What a sum loses and gains when one of its terms is replaced.
theorem sum_update_add {g : κ → Nat} {b : Nat} (hk : k ∈ s) :
    ∑ j ∈ s, Function.update g k b j + g k = ∑ j ∈ s, g j + b := by
  rw [Finset.sum_update_of_mem hk, Finset.sum_eq_add_sum_sdiff_singleton_of_mem hk g]
  omega

theorem tally_update (hk : k ∈ s) : tally s (Function.update f k x) v + (if f k = some v then 1 else 0) =
    tally s f v + if x = some v then 1 else 0 := by
  have h : (fun j => if Function.update f k x j = some v then 1 else 0) =
      Function.update (fun j => if f j = some v then 1 else 0) k (if x = some v then 1 else 0) :=
    Function.comp_update (fun y : Option ν => if y = some v then 1 else 0) f k x
  simp only [tally, Finset.card_filter, h]
  exact sum_update_add hk

omit [DecidableEq κ]

@[simp]
theorem tally_none : tally s (fun _ => none) v = 0 := by
  simp [tally]

theorem tally_le : tally s f v ≤ s.card :=
  Finset.card_filter_le ..

theorem tally_eq_zero : tally s f v = 0 ↔ ∀ k ∈ s, f k ≠ some v := by
  rw [tally, Finset.card_eq_zero, Finset.filter_eq_empty_iff]

theorem tally_range {f : Nat → Option ν} {n : Nat} :
    tally (Finset.range n) f v = ((List.range n).map f).count (some v) := by
  simp only [tally, Finset.card_filter]
  induction n
  case zero => rfl
  case succ n hi =>
    rw [Finset.sum_range_succ, List.range_succ, List.map_append, List.count_append, ← hi]
    simp [List.count_singleton]

-- Large sets are not to be computed.
attribute [irreducible] tally

end
