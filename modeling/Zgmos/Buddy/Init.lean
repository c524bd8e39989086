import Zgmos.Buddy.Layout

namespace Zgmos.Buddy

-- The managed pages lie inside of the region and their blocks fit into the array `buddies`.
structure Region.WellFormed (r : Region) : Prop where
  fits  : r.totalPages ≤ r.entries
  start : 0 < r.totalPages → 0 < r.managedStart
  bound : r.managedStart + r.totalPages * pageSize < u64

namespace Region.WellFormed

variable {r : Region} {i : Nat}

theorem addr2index_index2addr (h : r.WellFormed) (hi : i < r.totalPages) :
    r.buddyAuxAddr2index (r.buddyAuxIndex2addr i) = i := by
  have := h.bound
  simp only [buddyAuxAddr2index, buddyAuxIndex2addr, pageSize, u64] at *
  omega

theorem index2addr_pos (h : r.WellFormed) (hi : i < r.totalPages) : 0 < r.buddyAuxIndex2addr i := by
  have := h.bound
  have := h.start (by omega)
  simp only [buddyAuxIndex2addr, pageSize, u64] at *
  omega

end Region.WellFormed

variable {paStart paEnd : Nat} {buddies : Nat → BuddyBlock}

theorem alignTo_pageSize {x : Nat} (hx : x < u64) :
    ∃ y, x ≤ y ∧ y < x + pageSize ∧ pageSize ∣ y ∧ alignTo x pageSize = y % u64 := by
  simp only [alignTo, pageSize, u64] at *
  by_cases h : x % 4096 = 0
  case pos => exact ⟨x, by omega, by omega, by omega, by simp [h]; omega⟩
  case neg => exact ⟨x + 4096 - x % 4096, by omega, by omega, by omega, by simp [h]⟩

-- The managed pages start at the first page behind the array `buddies`, unless it lies behind the region.
theorem buddyAuxDataInit_start (buddies : Nat → BuddyBlock) (hl : paStart ≤ paEnd) (hu : paEnd < u64) :
    ∃ y, paStart + (paEnd - paStart) / pageSize * sizeofBuddyBlock ≤ y ∧
      y < paStart + (paEnd - paStart) / pageSize * sizeofBuddyBlock + pageSize ∧ pageSize ∣ y ∧
      (buddyAuxDataInit paStart paEnd buddies).managedStart = y % u64 ∧
      (y ≤ paEnd → (buddyAuxDataInit paStart paEnd buddies).managedStart = y ∧
        (buddyAuxDataInit paStart paEnd buddies).totalPages = (paEnd - y) / pageSize) := by
  have hp : (paEnd + u64 - paStart) % u64 = paEnd - paStart := by
    simp only [u64] at *
    omega
  have hx : paStart + (paEnd - paStart) / pageSize * sizeofBuddyBlock < u64 := by
    simp only [u64, pageSize, sizeofBuddyBlock] at *
    omega
  have ⟨y, h₁, h₂, h₃, h₄⟩ := alignTo_pageSize hx
  have hm : (buddyAuxDataInit paStart paEnd buddies).managedStart = y % u64 := by
    simp only [buddyAuxDataInit, buddyGetSelfMemreq, hp, Nat.mod_eq_of_lt hx, h₄]
  refine ⟨y, h₁, h₂, h₃, hm, fun hy => ?_⟩
  rw [Nat.mod_eq_of_lt (by omega)] at hm
  refine ⟨hm, ?_⟩
  have ht : (buddyAuxDataInit paStart paEnd buddies).totalPages =
      (paEnd + u64 - (buddyAuxDataInit paStart paEnd buddies).managedStart) % u64 / pageSize := rfl
  rw [ht, hm]
  simp only [u64] at *
  congr 1
  omega

-- It suffices that the aligned start of the managed pages does not lie behind their end.
theorem buddyAuxDataInit_wellFormed (hl : paStart ≤ paEnd) (hu : paEnd < u64)
    (h : ∀ y, paStart + (paEnd - paStart) / pageSize * sizeofBuddyBlock ≤ y →
      y < paStart + (paEnd - paStart) / pageSize * sizeofBuddyBlock + pageSize → pageSize ∣ y →
        (buddyAuxDataInit paStart paEnd buddies).managedStart = y % u64 → y ≤ paEnd) :
    (buddyAuxDataInit paStart paEnd buddies).WellFormed := by
  have ⟨y, h₁, h₂, h₃, hm, hs⟩ := buddyAuxDataInit_start buddies hl hu
  have hy := h y h₁ h₂ h₃ hm
  have ⟨hm, ht⟩ := hs hy
  have hp : (paEnd + u64 - paStart) % u64 = paEnd - paStart := by
    simp only [u64] at *
    omega
  have he : (buddyAuxDataInit paStart paEnd buddies).entries = (paEnd - paStart) / pageSize := by
    simp [buddyAuxDataInit, Region.entries, hp]
  constructor
  case fits  => rw [ht, he]; exact Nat.div_le_div_right (by omega)
  case start =>
    intro h₀
    rw [ht] at h₀
    rw [hm]
    simp only [pageSize, sizeofBuddyBlock] at *
    omega
  case bound =>
    rw [ht, hm]
    simp only [pageSize] at *
    omega

-- A region with page-aligned bounds.
theorem buddyAuxDataInit_of_aligned (hl : paStart ≤ paEnd) (hu : paEnd < u64)
    (hs : pageSize ∣ paStart) (he : pageSize ∣ paEnd) :
    (buddyAuxDataInit paStart paEnd buddies).WellFormed := by
  apply buddyAuxDataInit_wellFormed hl hu
  intro y h₁ h₂ h₃ _
  simp only [pageSize, sizeofBuddyBlock] at *
  omega

-- A region with arbitrary bounds whose number of pages has not overflowed.
theorem buddyAuxDataInit_of_lt (hl : paStart ≤ paEnd) (hu : paEnd < u64)
    (ht : (buddyAuxDataInit paStart paEnd buddies).totalPages < 2 ^ maxBlockPow) :
    (buddyAuxDataInit paStart paEnd buddies).WellFormed := by
  apply buddyAuxDataInit_wellFormed hl hu
  intro y h₁ h₂ h₃ hm
  have : (buddyAuxDataInit paStart paEnd buddies).totalPages =
      (paEnd + u64 - (buddyAuxDataInit paStart paEnd buddies).managedStart) % u64 / pageSize := rfl
  rw [this, hm] at ht
  simp only [pageSize, sizeofBuddyBlock, u64, maxBlockPow] at *
  omega

section Carve

variable {bs : BuddySystem} {P : Pool} {i cur : Nat}

-- The pool consists of the pages below `cur`, all of which are free.
structure Carved (bs : BuddySystem) (P : Pool) (cur : Nat) : Prop where
  layout : Layout bs P
  held   : P.held = 0
  covers : ∀ x, P.weight maxBlockPow (Pool.covers x) = if x < cur then 1 else 0
  size   : P.weight maxBlockPow Pool.size = cur

-- The position after the orders from `i` on.
def carvedTo (total i : Nat) : Nat :=
  total % 2 ^ maxBlockPow / 2 ^ i * 2 ^ i

theorem carvedTo_succ (total : Nat) (hi : i < maxBlockPow) :
    carvedTo total i = carvedTo total (i + 1) + if total.testBit i then 2 ^ i else 0 := by
  have hb : total.testBit i = (total % 2 ^ maxBlockPow).testBit i := by
    simp [Nat.testBit_mod_two_pow, hi]
  have hd : total % 2 ^ maxBlockPow / 2 ^ (i + 1) = total % 2 ^ maxBlockPow / 2 ^ i / 2 := by
    rw [Nat.div_div_eq_div_mul, Nat.pow_succ]
  simp only [carvedTo, hb, hd, Nat.testBit_eq_decide_div_mod_eq]
  generalize total % 2 ^ maxBlockPow / 2 ^ i = m
  obtain ⟨k, rfl | rfl⟩ : ∃ k, m = 2 * k ∨ m = 2 * k + 1 := ⟨m / 2, by omega⟩
  case inl => simp [Nat.pow_succ]; ring
  case inr =>
    have : (2 * k + 1) / 2 = k := by omega
    simp [this, Nat.pow_succ]
    ring

theorem carvedTo_le (total : Nat) : carvedTo total i ≤ total % 2 ^ maxBlockPow :=
  Nat.div_mul_le_self ..

theorem carvedTo_dvd {total : Nat} : 2 ^ i ∣ carvedTo total (i + 1) :=
  (Nat.pow_dvd_pow 2 i.le_succ).trans <| Nat.dvd_mul_left ..

-- The next pages become a free block, the only one of its order.
theorem Carved.succ (h : Carved bs P cur) (hi : i < maxBlockPow) (hd : 2 ^ i ∣ cur)
    (hl : cur + 2 ^ i ≤ bs.totalPages % 2 ^ maxBlockPow) (hn : P.free i = []) :
    Carved (bs.setPow cur i |>.setNext cur none |>.setIndex i (some cur)) (P.setFree i [cur])
      (cur + 2 ^ i) := by
  have w := h.layout.fresh (fun x hx _ => by simp [h.covers x, Nat.not_lt.mpr hx]) hd hl
  have hq : bs.indices i = none := by simp [h.layout.indices_eq hi, hn]
  have hw := fun wt => Pool.weight_setFree (P := P) (c := wt) (l := [cur]) hi
  simp only [hn, List.map_nil, List.sum_nil, List.map_cons, List.sum_cons, Nat.add_zero] at hw
  constructor
  case layout => simpa [hq, hn] using w.put_head hi
  case held   => exact h.held
  case size   => rw [hw, h.size, Pool.size]
  case covers =>
    intro x
    rw [hw, h.covers, Pool.covers]
    split_ifs <;> omega

theorem carve_spec (h : Carved bs P (carvedTo bs.totalPages i)) (hi : i ≤ maxBlockPow)
    (hn : ∀ q < i, P.free q = []) :
    ∃ bs' P', (carve i <| carvedTo bs.totalPages i).run bs = .ok ((), bs') ∧ Frame bs bs' ∧
      Carved bs' P' (bs.totalPages % 2 ^ maxBlockPow) ∧ (P.Merged maxBlockPow → P'.Merged maxBlockPow) := by
  induction i generalizing bs P
  case zero => exact ⟨bs, P, rfl, .refl _, by simpa [carvedTo] using h, id⟩
  case succ i ih =>
    have hc := carvedTo_succ bs.totalPages (i := i) (by omega)
    by_cases hb : bs.totalPages.testBit i
    case neg =>
      simp only [hb, Bool.false_eq_true, if_false, Nat.add_zero] at hc
      rw [← hc] at h
      have ⟨bs', P', hr, f, h', hm⟩ := ih h (by omega) fun q hq => hn q (by omega)
      exact ⟨bs', P', by simpa [carve, hb, ← hc] using hr, f, h', hm⟩
    case pos =>
      simp only [hb, if_true] at hc
      have hl := carvedTo_le bs.totalPages (i := i)
      have h₁ := h.succ (by omega) carvedTo_dvd (hc ▸ hl) (hn i (by omega))
      rw [← hc] at h₁
      have ⟨bs', P', hr, f, h', hm⟩ := ih h₁ (by omega) fun q hq => by
        have : q ≠ i := by omega
        simp [this, hn q (by omega)]
      have hi : i < maxBlockPow := by omega
      have hcur : carvedTo bs.totalPages (i + 1) < bs.entries := by
        have := h.layout.fits
        have := Nat.mod_le bs.totalPages (2 ^ maxBlockPow)
        have : 0 < 2 ^ i := by positivity
        omega
      refine ⟨bs', P', ?_, (Frame.refl _).setPow.setNext.setIndex.trans f, h', hm ∘ Pool.Merged.singleton⟩
      simpa [carve, hb, hcur, hi, ← hc] using hr

-- All pages of a number below `2 ^ maxBlockPow` become free blocks.
theorem buddyInit_spec (hr : (buddyAuxDataInit paStart paEnd buddies).WellFormed) :
    ∃ bs P, buddyInit.run (buddyAuxDataInit paStart paEnd buddies) = .ok ((), bs) ∧
      bs.toRegion = (buddyAuxDataInit paStart paEnd buddies).toRegion ∧
      bs.freePages = bs.totalPages ∧ Carved bs P (bs.totalPages % 2 ^ maxBlockPow) ∧ P.Merged maxBlockPow ∧
      ∀ x < bs.totalPages, bs.used x = false := by
  let bs₀ := buddyAuxDataInit paStart paEnd buddies
  let P₀ : Pool := ⟨fun _ => [], 0⟩
  have hw : ∀ wt, P₀.weight maxBlockPow wt = 0 := fun wt => by
    simp [P₀, Pool.weight, Pool.freeWeight, Pool.heldWeight]
  have hc : carvedTo bs₀.totalPages maxBlockPow = 0 := by
    simp [carvedTo]
  have h₀ : Carved bs₀ P₀ 0 := by
    constructor
    case layout =>
      constructor
      case fits  => exact hr.fits
      case chain => exact fun _ => rfl
      case block => exact fun b => absurd b (by simp [Pool.Mem, P₀])
      case excl  => exact fun x => by simp [hw]
    case held   => rfl
    case covers => simp [hw]
    case size   => exact hw _
  rw [← hc] at h₀
  obtain ⟨bs, P, hrun, f, h, hm⟩ := carve_spec h₀ le_rfl fun _ _ => rfl
  rw [hc] at hrun
  have hu := forM_putUsed_run bs 0 bs.totalPages false fun i hi => by
    have := h.layout.fits
    omega
  simp only [Nat.zero_add] at hu
  have hm := hm { sorted := fun _ => List.Pairwise.nil, apart := fun _ hi => by cases hi }
  refine ⟨bs.putUsed 0 bs.totalPages false, P, ?_, ?_, ?_, ?_, hm, fun x hx => ?_⟩
  case refine_1 => simp [buddyInit, bs₀, hrun, hu]
  case refine_2 => simp [f.region, bs₀]
  case refine_3 => exact f.freePages.trans (congrArg Region.totalPages f.region).symm
  case refine_4 =>
    rw [← congrArg Region.totalPages f.region] at h
    exact { layout := h.layout.putUsed, held := h.held, covers := h.covers, size := h.size }
  case refine_5 => rw [BuddySystem.putUsed_used, if_pos ⟨x.zero_le, by simpa using hx⟩]

end Carve

end Zgmos.Buddy
