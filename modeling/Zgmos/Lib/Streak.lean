import Mathlib

-- Consecutive values of a list which all have a property.

namespace List

variable {α : Type*}

-- The `n` values from position `p` on have the property.
def Streak (q : α → Bool) (n : Nat) (xs : List α) (p : Nat) : Prop :=
  ∀ k < n, ∃ x ∈ xs[p + k]?, q x

-- The last `m` values have the property, and the value before them has not. There is no streak of
-- `n` values yet.
structure Trailing (q : α → Bool) (n m : Nat) (xs : List α) : Prop where
  le     : m ≤ xs.length
  lt     : m < n
  tail   : ∀ k < xs.length, xs.length ≤ k + m → ∃ x ∈ xs[k]?, q x
  before : ∀ k, k + m + 1 = xs.length → ∃ x ∈ xs[k]?, ¬q x
  none   : ∀ p, ¬Streak q n xs p

variable {q : α → Bool} {n m p k : Nat} {xs ys : List α} {x : α}

theorem getElem?_concat_of_lt (h : k < xs.length) : (xs ++ [x])[k]? = xs[k]? :=
  getElem?_append_left h

namespace Streak

theorem le (h : Streak q n xs p) (hn : 0 < n) : p + n ≤ xs.length := by
  have ⟨_, hx, _⟩ := h (n - 1) (by omega)
  have := (getElem?_eq_some_iff.mp hx).1
  omega

theorem append (h : Streak q n xs p) (ys : List α) : Streak q n (xs ++ ys) p := by
  intro k hk
  have ⟨x, hx, hq⟩ := h k hk
  exact ⟨x, by rwa [getElem?_append_left (getElem?_eq_some_iff.mp hx).1], hq⟩

theorem of_append (h : Streak q n (xs ++ ys) p) (hp : p + n ≤ xs.length) : Streak q n xs p := by
  intro k hk
  have ⟨x, hx, hq⟩ := h k hk
  exact ⟨x, by rwa [getElem?_append_left <| by omega] at hx, hq⟩

theorem of_forall (h : ∀ x ∈ xs, q x) (hp : p + n ≤ xs.length) : Streak q n xs p := by
  intro k hk
  have hl : p + k < xs.length := by omega
  exact ⟨xs[p + k], getElem?_eq_getElem hl, h _ <| getElem_mem hl⟩

end Streak

-- The first streak is known as soon as it is complete.
theorem isLeast_streak_append (hn : 0 < n) (h : IsLeast { p | Streak q n xs p } p) (ys : List α) :
    IsLeast { p | Streak q n (xs ++ ys) p } p := by
  apply And.intro
  case left => exact Streak.append h.1 ys
  case right =>
    intro p' hp
    have hle := Streak.le h.1 hn
    cases Nat.lt_or_ge p' p
    case inl hlt => exact h.2 <| Streak.of_append hp <| by omega
    case inr hge => exact hge

namespace Trailing

theorem nil (hn : 0 < n) : Trailing q n 0 ([] : List α) where
  le     := le_rfl
  lt     := hn
  tail   := nofun
  before := nofun
  none p h := by
    have := Streak.le h hn
    rw [length_nil] at this
    omega

theorem concat_neg (h : Trailing q n m xs) (hx : ¬q x) : Trailing q n 0 (xs ++ [x]) where
  le     := Nat.zero_le _
  lt     := Nat.zero_lt_of_lt h.lt
  tail k hk hl := absurd hl <| by simpa using hk
  before k hk := ⟨x, by simp_all, hx⟩
  none p hp := by
    have hn := Nat.zero_lt_of_lt h.lt
    have hle := Streak.le hp hn
    rw [length_append, length_singleton] at hle
    cases Nat.lt_or_ge xs.length (p + n)
    case inr hlt => exact h.none p <| hp.of_append hlt
    case inl hlt =>
      have ⟨y, hy, hq⟩ := hp (xs.length - p) (by omega)
      rw [show p + (xs.length - p) = xs.length by omega, getElem?_concat_length] at hy
      exact hx <| Option.some.inj hy ▸ hq

-- One more value with the property lengthens the tail.
theorem tail_concat (h : Trailing q n m xs) (hx : q x) (hk : k < xs.length + 1) (hl : xs.length ≤ k + m) :
    ∃ y ∈ (xs ++ [x])[k]?, q y := by
  cases Nat.lt_or_ge k xs.length
  case inl hlt =>
    rw [getElem?_concat_of_lt hlt]
    exact h.tail k hlt hl
  case inr hge =>
    have he : k = xs.length := by omega
    exact ⟨x, by rw [he, getElem?_concat_length]; rfl, hx⟩

theorem concat_pos (h : Trailing q n m xs) (hx : q x) (hn : m + 1 < n) : Trailing q n (m + 1) (xs ++ [x]) where
  le := by simpa using h.le
  lt := hn
  tail k hk hl := by
    rw [length_append, length_singleton] at hk hl
    exact h.tail_concat hx hk <| by omega
  before k hk := by
    rw [length_append, length_singleton] at hk
    rw [getElem?_concat_of_lt <| by omega]
    exact h.before k <| by omega
  none p hp := by
    have hle := Streak.le hp <| Nat.zero_lt_of_lt h.lt
    rw [length_append, length_singleton] at hle
    cases Nat.lt_or_ge xs.length (p + n)
    case inr hlt => exact h.none p <| hp.of_append hlt
    case inl hlt =>
      -- The streak would contain the value before the tail.
      have ⟨y, hy, hn⟩ := h.before (xs.length - m - 1) (by omega)
      have ⟨z, hz, hq⟩ := hp (xs.length - m - 1 - p) (by omega)
      rw [show p + (xs.length - m - 1 - p) = xs.length - m - 1 by omega, getElem?_concat_of_lt <| by omega] at hz
      cases hy.symm.trans hz
      exact hn hq

-- The tail becomes the first streak.
theorem isLeast (h : Trailing q n m xs) (hx : q x) (hn : m + 1 = n) :
    IsLeast { p | Streak q n (xs ++ [x]) p } (xs.length - m) := by
  have hle := h.le
  apply And.intro
  case left => exact fun k hk => h.tail_concat hx (by omega) (by omega)
  case right =>
    intro p hp
    cases Nat.lt_or_ge p (xs.length - m)
    case inl hlt => exact absurd (Streak.of_append hp <| by omega) (h.none p)
    case inr hge => exact hge

end Trailing
end List
