import Mathlib

-- A pool of blocks of a power of two units. A block of order `p` that starts at `i` consists of the
-- units from `i` up to `i + 2 ^ p`. The free blocks are kept in one list for each order, the other
-- blocks are held by someone.
structure Pool where
  free : Nat → List Nat
  held : Multiset (Nat × Nat)

namespace Pool

-- A quantity of a block, given by its order and start, that the two halves of the block share.
def Additive (c : Nat → Nat → Nat) : Prop :=
  ∀ p i, c (p + 1) i = c p i + c p (i + 2 ^ p)

def size (p _i : Nat) : Nat :=
  2 ^ p

def covers (x p i : Nat) : Nat :=
  if i ≤ x ∧ x < i + 2 ^ p then 1 else 0

theorem size_additive : Additive size := by
  intro p i
  simp [size]
  omega

theorem covers_additive : Additive (covers x) := by
  intro p i
  have : 2 ^ (p + 1) = 2 ^ p + 2 ^ p := by omega
  have : 0 < 2 ^ p := by positivity
  unfold covers
  by_cases x < i + 2 ^ p <;> split_ifs <;> omega

theorem covers_eq_one : covers x p i = 1 ↔ i ≤ x ∧ x < i + 2 ^ p := by
  simp [covers]

@[simp]
theorem covers_self : covers i p i = 1 := by
  simp [covers]

def hold (P : Pool) (p i : Nat) : Pool :=
  { P with held := (p, i) ::ₘ P.held }

def setFree (P : Pool) (p : Nat) (l : List Nat) : Pool :=
  { P with free := Function.update P.free p l }

-- The quantity of the free blocks of an order below `n`.
def freeWeight (n : Nat) (P : Pool) (c : Nat → Nat → Nat) : Nat :=
  ∑ p ∈ Finset.range n, ((P.free p).map <| c p).sum

def heldWeight (P : Pool) (c : Nat → Nat → Nat) : Nat :=
  (P.held.map fun b => c b.1 b.2).sum

def weight (n : Nat) (P : Pool) (c : Nat → Nat → Nat) : Nat :=
  P.freeWeight n c + P.heldWeight c

-- The blocks of the pool.
def Mem (n : Nat) (P : Pool) (p i : Nat) : Prop :=
  p < n ∧ i ∈ P.free p ∨ (p, i) ∈ P.held

-- No unit belongs to two blocks.
def Exclusive (n : Nat) (P : Pool) : Prop :=
  ∀ x, P.weight n (covers x) ≤ 1

-- The blocks of both pools consist of the same units.
def Equiv (n : Nat) (P P' : Pool) : Prop :=
  ∀ c, Additive c → P.weight n c = P'.weight n c

variable {P P' P'' : Pool} {n p q i j x : Nat} {c : Nat → Nat → Nat} {l s t : List Nat}

@[simp] theorem hold_free : (P.hold p i).free = P.free := rfl
@[simp] theorem hold_held : (P.hold p i).held = (p, i) ::ₘ P.held := rfl
@[simp] theorem setFree_free : (P.setFree p l).free = Function.update P.free p l := rfl
@[simp] theorem setFree_held : (P.setFree p l).held = P.held := rfl

@[simp]
theorem weight_hold : (P.hold p i).weight n c = c p i + P.weight n c := by
  simp [weight, freeWeight, heldWeight]
  omega

theorem weight_setFree (hp : p < n) :
    (P.setFree p l).weight n c + ((P.free p).map <| c p).sum =
      P.weight n c + (l.map <| c p).sum := by
  have hf : ∀ f : Nat → List Nat, ∑ q ∈ Finset.range n, ((f q).map <| c q).sum =
      ((f p).map <| c p).sum + ∑ q ∈ (Finset.range n).erase p, ((f q).map <| c q).sum :=
    fun f => (Finset.add_sum_erase _ _ <| Finset.mem_range.mpr hp).symm
  have he : ∑ q ∈ (Finset.range n).erase p, ((Function.update P.free p l q).map <| c q).sum =
      ∑ q ∈ (Finset.range n).erase p, ((P.free q).map <| c q).sum := by
    refine Finset.sum_congr rfl fun q hq => ?_
    rw [Function.update_of_ne (Finset.ne_of_mem_erase hq)]
  simp only [weight, freeWeight, heldWeight, setFree_held, setFree_free]
  rw [hf, hf P.free, he, Function.update_self]
  omega

theorem weight_take (hp : p < n) (h : P.free p = s ++ i :: t) :
    ((P.setFree p <| s ++ t).hold p i).weight n c = P.weight n c := by
  have := weight_setFree (P := P) (l := s ++ t) (c := c) hp
  simp only [h, List.map_append, List.map_cons, List.sum_append, List.sum_cons] at this
  rw [weight_hold]
  omega

theorem weight_forget (hp : p < n) : (P.setFree p []).weight n c ≤ P.weight n c := by
  have := weight_setFree (P := P) (l := []) (c := c) hp
  simp at this
  omega

@[simp]
theorem setFree_setFree : (P.setFree p l).setFree p s = P.setFree p s := by
  simp [setFree]

@[simp]
theorem setFree_self (h : P.free p = l) : P.setFree p l = P := by
  simp [setFree, ← h]

theorem setFree_hold : (P.setFree p l).hold q i = (P.hold q i).setFree p l :=
  rfl

theorem hold_comm : (P.hold p i).hold q j = (P.hold q j).hold p i := by
  simp [hold, Multiset.cons_swap]

@[simp]
theorem mem_hold : (P.hold p i).Mem n q j ↔ q = p ∧ j = i ∨ P.Mem n q j := by
  simp [Mem]
  tauto

theorem mem_take (hp : p < n) (h : P.free p = s ++ i :: t) :
    ((P.setFree p <| s ++ t).hold p i).Mem n q j ↔ P.Mem n q j := by
  by_cases hq : q = p
  case neg => simp [Mem, hq]
  case pos =>
    subst hq
    simp [Mem, h, hp]
    tauto

theorem mem_put (hp : p < n) (h : P.free p = s ++ t) :
    (P.setFree p <| s ++ i :: t).Mem n q j ↔ (P.hold p i).Mem n q j := by
  by_cases hq : q = p
  case neg => simp [Mem, hq]
  case pos =>
    subst hq
    simp [Mem, h, hp]
    tauto

theorem le_weight (h : P.Mem n p i) : c p i ≤ P.weight n c := by
  cases h
  case inl h =>
    have ⟨hp, hi⟩ := h
    have ⟨s, t, h⟩ := List.append_of_mem hi
    rw [← weight_take hp h, weight_hold]
    exact Nat.le_add_right ..
  case inr h =>
    have ⟨held, h⟩ := Multiset.exists_cons_of_mem h
    simp [weight, heldWeight, h]
    omega

-- A unit that counts belongs to a block.
theorem exists_of_weight_covers (h : P.weight n (covers x) ≠ 0) :
    ∃ p i, P.Mem n p i ∧ i ≤ x ∧ x < i + 2 ^ p := by
  by_contra hc
  push Not at hc
  have h₀ : ∀ p i, P.Mem n p i → covers x p i = 0 := by
    intro p i hm
    have := hc p i hm
    simp only [covers, ite_eq_right_iff]
    omega
  apply h
  have hf : P.freeWeight n (covers x) = 0 := by
    refine Finset.sum_eq_zero fun p hp => List.sum_eq_zero fun k hk => ?_
    have ⟨i, hi, hk⟩ := List.mem_map.mp hk
    exact hk ▸ h₀ p i (.inl ⟨Finset.mem_range.mp hp, hi⟩)
  have hh : P.heldWeight (covers x) = 0 := by
    refine Multiset.sum_eq_zero fun k hk => ?_
    have ⟨b, hb, hk⟩ := Multiset.mem_map.mp hk
    exact hk ▸ h₀ b.1 b.2 (.inr hb)
  rw [weight, hf, hh]

theorem freeWeight_size : P.freeWeight n size = ∑ p ∈ Finset.range n, (P.free p).length * 2 ^ p := by
  refine Finset.sum_congr rfl fun p _ => ?_
  have : size p = fun _ => 2 ^ p := rfl
  simp [this]

namespace Equiv

theorem refl (P : Pool) : Equiv n P P :=
  fun _ _ => rfl

theorem symm (h : Equiv n P P') : Equiv n P' P :=
  fun c hw => (h c hw).symm

theorem trans (h₁ : Equiv n P P') (h₂ : Equiv n P' P'') : Equiv n P P'' :=
  fun c hw => (h₁ c hw).trans (h₂ c hw)

theorem hold (h : Equiv n P P') : Equiv n (P.hold p i) (P'.hold p i) := by
  intro c hw
  simp [h c hw]

theorem take (hp : p < n) (h : P.free p = s ++ i :: t) :
    Equiv n P ((P.setFree p <| s ++ t).hold p i) :=
  fun _ _ => (weight_take hp h).symm

theorem put (hp : p < n) (h : P.free p = s ++ t) :
    Equiv n (P.hold p i) (P.setFree p <| s ++ i :: t) := by
  intro c hw
  have := weight_setFree (P := P) (l := s ++ i :: t) (c := c) hp
  simp only [h, List.map_append, List.map_cons, List.sum_append, List.sum_cons] at this
  rw [weight_hold]
  omega

theorem split : Equiv n (P.hold (p + 1) i) ((P.hold p i).hold p (i + 2 ^ p)) := by
  intro c hw
  simp [hw p i]
  omega

end Equiv

namespace Exclusive

theorem congr (h : Exclusive n P) (he : Equiv n P P') : Exclusive n P' := by
  intro x
  rw [← he _ covers_additive]
  exact h x

theorem of_hold (h : Exclusive n <| P.hold p i) : Exclusive n P := by
  intro x
  have := h x
  rw [weight_hold] at this
  omega

theorem forget (h : Exclusive n P) (hp : p < n) : Exclusive n (P.setFree p []) :=
  fun x => (weight_forget hp).trans (h x)

-- The units of a held block belong to no other block.
theorem disjoint (h : Exclusive n <| P.hold p i) (hm : P.Mem n q j) (hx : i ≤ x ∧ x < i + 2 ^ p) :
    ¬(j ≤ x ∧ x < j + 2 ^ q) := by
  intro hj
  have := h x
  have hc := le_weight (c := covers x) hm
  rw [weight_hold, covers_eq_one.mpr hx] at this
  rw [covers_eq_one.mpr hj] at hc
  omega

theorem not_mem (h : Exclusive n <| P.hold p i) (hx : i ≤ x ∧ x < i + 2 ^ p) : ¬P.Mem n q x :=
  fun hm => h.disjoint hm hx (by simp)

theorem not_mem_free (h : Exclusive n <| P.hold p i) (hq : q < n) : i ∉ P.free q :=
  fun hi => h.not_mem (by simp) <| .inl ⟨hq, hi⟩

theorem free_disjoint (h : Exclusive n P) (hp : p < n) (hq : q < n) (hn : p ≠ q)
    (hi : i ∈ P.free p) : i ∉ P.free q := by
  have ⟨s, t, hf⟩ := List.append_of_mem hi
  have := (h.congr <| .take hp hf).not_mem_free hq
  simpa [hn.symm] using this

-- Two free blocks share no unit.
theorem free_apart (h : Exclusive n P) (hp : p < n) (hq : q < n) (hi : i ∈ P.free p) (hj : j ∈ P.free q)
    (hn : (q, j) ≠ (p, i)) (hx : i ≤ x ∧ x < i + 2 ^ p) : ¬(j ≤ x ∧ x < j + 2 ^ q) := by
  have ⟨s, t, hf⟩ := List.append_of_mem hi
  refine (h.congr <| .take hp hf).disjoint (.inl ⟨hq, ?_⟩) hx
  by_cases he : q = p
  case neg => simpa [he] using hj
  case pos =>
    subst he
    have hn : j ≠ i := fun he => hn <| by rw [he]
    rw [hf] at hj
    simpa [hn] using hj

end Exclusive

end Pool
