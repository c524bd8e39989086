import Zgmos.Buddy.Canonical

namespace Zgmos.Buddy

-- What is wanted of the initialisation of a region.
structure BuddySystem.Carves (bs : BuddySystem) (paStart paEnd : Nat) : Prop where
  -- The entries of the pages lie before the pages.
  entries  : i < bs.totalPages → paStart + (i + 1) * sizeofBuddyBlock ≤ bs.managedStart
  aligned  : pageSize ∣ bs.managedStart
  le       : bs.managedStart ≤ paEnd
  total    : bs.totalPages = (paEnd - bs.managedStart) / pageSize
  free     : bs.freePages = bs.totalPages
  block    : p < maxBlockPow → Linked bs.next (bs.indices p) i → 2 ^ p ∣ i ∧ i + 2 ^ p ≤ bs.totalPages
  disjoint : p < maxBlockPow → q < maxBlockPow → Linked bs.next (bs.indices p) i →
    Linked bs.next (bs.indices q) j → (q, j) ≠ (p, i) → i ≤ x ∧ x < i + 2 ^ p → ¬(j ≤ x ∧ x < j + 2 ^ q)
  pages    : x < bs.totalPages → ∃ p i, p < maxBlockPow ∧ Linked bs.next (bs.indices p) i ∧ i ≤ x ∧ x < i + 2 ^ p

variable {paStart paEnd x : Nat} {buddies : Nat → BuddyBlock} {bs : BuddySystem} {P : Pool}

-- The blocks have exactly the pages before the last multiple of the largest power.
theorem Carved.linked_iff (h : Carved bs P <| bs.totalPages % 2 ^ maxBlockPow) :
    (∃ p i, p < maxBlockPow ∧ Linked bs.next (bs.indices p) i ∧ i ≤ x ∧ x < i + 2 ^ p) ↔
      x < bs.totalPages % 2 ^ maxBlockPow := by
  have hc := h.covers x
  constructor
  case mp =>
    intro ⟨p, i, hp, hi, hx⟩
    have := Pool.le_weight (c := Pool.covers x) <| .inl ⟨hp, (h.layout.chain hp).linked_iff.mp hi⟩
    rw [hc, Pool.covers_eq_one.mpr hx] at this
    by_contra hn
    rw [if_neg hn] at this
    contradiction
  case mpr =>
    intro hx
    rw [if_pos hx] at hc
    have ⟨p, i, hm, hx⟩ := Pool.exists_of_weight_covers <| hc ▸ one_ne_zero
    cases hm
    case inl hm => exact ⟨p, i, hm.1, (h.layout.chain hm.1).linked_iff.mpr hm.2, hx⟩
    case inr hm => simp [h.held] at hm

-- The number of pages that are left behind the array `buddies`.
theorem buddyInit_carves (buddies : Nat → BuddyBlock) (hl : paStart ≤ paEnd) (hu : paEnd < u64)
    (hs : pageSize ∣ paStart) (he : pageSize ∣ paEnd) :
    ∃ bs, buddyInit.run (buddyAuxDataInit paStart paEnd buddies) = .ok ((), bs) ∧
      bs.totalPages = (paEnd - paStart) / pageSize -
        ((paEnd - paStart) / pageSize * sizeofBuddyBlock + (pageSize - 1)) / pageSize ∧
      (bs.Carves paStart paEnd ↔ bs.totalPages < 2 ^ maxBlockPow) := by
  have w : (buddyAuxDataInit paStart paEnd buddies).WellFormed := buddyAuxDataInit_of_aligned hl hu hs he
  obtain ⟨bs, P, hr, hreg, hf, hc, _⟩ := buddyInit_spec w
  obtain ⟨y, h₁, h₂, h₃, _, hy⟩ := buddyAuxDataInit_start buddies hl hu
  have hle : y ≤ paEnd := by
    simp only [pageSize, sizeofBuddyBlock] at *
    omega
  obtain ⟨hm, ht⟩ := hy hle
  rw [← congrArg Region.managedStart hreg] at hm
  rw [← congrArg Region.totalPages hreg] at ht
  refine ⟨bs, hr, ?_, ?_, ?_⟩
  case refine_1 =>
    rw [ht]
    simp only [pageSize, sizeofBuddyBlock] at *
    omega
  case refine_2 =>
    intro h
    by_contra hlt
    -- The page at the remainder is in no block.
    have := hc.linked_iff.mp <| h.pages <| (Nat.mod_lt bs.totalPages (by decide)).trans_le <| Nat.not_lt.mp hlt
    exact this.false
  case refine_3 =>
    intro hlt
    constructor
    case entries =>
      intro i hi
      rw [hm]
      rw [ht] at hi
      simp only [pageSize, sizeofBuddyBlock] at *
      omega
    case aligned => exact hm ▸ h₃
    case le      => exact hm ▸ hle
    case total   => rw [ht, hm]
    case free    => exact hf
    case block   =>
      intro p i hp hi
      have hb := hc.layout.block <| .inl ⟨hp, (hc.layout.chain hp).linked_iff.mp hi⟩
      exact ⟨hb.dvd, hb.le_totalPages⟩
    case disjoint =>
      intro p q i j x hp hq hi hj
      rw [(hc.layout.chain hp).linked_iff] at hi
      rw [(hc.layout.chain hq).linked_iff] at hj
      exact hc.layout.excl.free_apart hp hq hi hj
    case pages =>
      intro x hx
      apply hc.linked_iff.mpr
      rwa [Nat.mod_eq_of_lt hlt]

-- The pages that are left have to be fewer than the largest power, since the loop does not look at the other
-- bits of their number.
theorem buddyInit_carves_iff (buddies : Nat → BuddyBlock) (hl : paStart ≤ paEnd) (hu : paEnd < u64)
    (hs : pageSize ∣ paStart) (he : pageSize ∣ paEnd) :
    (∃ bs, buddyInit.run (buddyAuxDataInit paStart paEnd buddies) = .ok ((), bs) ∧ bs.Carves paStart paEnd) ↔
      let pages := (paEnd - paStart) / pageSize
      pages - (pages * sizeofBuddyBlock + (pageSize - 1)) / pageSize < 2 ^ maxBlockPow := by
  have ⟨bs, hr, ht, h⟩ := buddyInit_carves buddies hl hu hs he
  simp only [← ht, ← h]
  constructor
  case mpr => exact fun h => ⟨bs, hr, h⟩
  case mp  =>
    intro ⟨bs', hr', h⟩
    cases hr.symm.trans hr'
    exact h

theorem fourPages_carves : ∃ bs, buddyInit.run (buddyAuxDataInit 0x80000000 0x80005000 fun _ => noBlock) = .ok ((), bs) ∧
    bs.Carves 0x80000000 0x80005000 := by
  apply (buddyInit_carves_iff _ (by decide) (by decide +kernel) (by decide +kernel) (by decide +kernel)).mpr
  decide +kernel

-- A region of 8192 pages.
theorem largeRegion_not_carves :
    ¬∃ bs, buddyInit.run (buddyAuxDataInit 0x80000000 0x82000000 fun _ => noBlock) = .ok ((), bs) ∧
      bs.Carves 0x80000000 0x82000000 := by
  intro ⟨bs', hr', hc⟩
  have ⟨bs, hr, ht, h⟩ := buddyInit_carves (fun _ => noBlock) (show 0x80000000 ≤ 0x82000000 by decide)
    (by decide +kernel) (by decide +kernel) (by decide +kernel)
  cases hr.symm.trans hr'
  exact absurd (h.mp hc) <| ht ▸ by decide +kernel

end Zgmos.Buddy
