import Zgmos.Pte.Allocs
import Zgmos.Lib.Effects

namespace Zgmos.Pte

-- The offset of a page in a range.
def pageOffset (i : Nat) : Word :=
  .ofNat 64 (i * 0x1000)

-- The number of pages of a range.
def rangePages (length : Word) : Nat :=
  (length.toNat + 0xfff) / 0x1000

section Loop

variable {body : Word → TableM Unit} {length : Word} {P : Nat → TableState → Prop} {s : TableState} {i fuel : Nat}

theorem pageOffset_zero : pageOffset 0 = 0 :=
  rfl

theorem toNat_pageOffset (h : i < 2 ^ 40) : (pageOffset i).toNat = i * 0x1000 := by
  rw [pageOffset, BitVec.toNat_ofNat]
  omega

theorem pageOffset_succ (i : Nat) : pageOffset (i + 1) = pageOffset i + 0x1000 := by
  rw [pageOffset, pageOffset, Nat.succ_mul, BitVec.ofNat_add]
  rfl

theorem pageOffset_le_iff (hl : length.toNat ≤ 2 ^ 39) (hi : i ≤ length.toNat / 0x1000) :
    pageOffset i + 0x1000 ≤ length ↔ i < length.toNat / 0x1000 := by
  rw [← pageOffset_succ, BitVec.le_def, toNat_pageOffset (by omega)]
  omega

section

variable (hl : length.toNat ≤ 2 ^ 39)
  (h : ∀ i < rangePages length, ∀ s, P i s → ∃ s', (body (pageOffset i)).run s = (.ok (), s') ∧ P (i + 1) s')

include hl h

-- The loop executes its body for all but a last page that is not complete.
theorem forPages_ok (hi : i ≤ length.toNat / 0x1000) (hf : length.toNat / 0x1000 < i + fuel) (hp : P i s) :
    ∃ s', (forPages body length fuel (pageOffset i)).run s = (.ok (pageOffset (length.toNat / 0x1000)), s') ∧
      P (length.toNat / 0x1000) s' := by
  induction fuel generalizing i s
  case zero => omega
  case succ fuel hr =>
    have hc := pageOffset_le_iff hl hi
    by_cases hlt : i < length.toNat / 0x1000
    case pos =>
      have ⟨s', he, hp'⟩ := h i (by rw [rangePages]; omega) s hp
      have ⟨s'', he', hp''⟩ := hr (i := i + 1) hlt (by omega) hp'
      refine ⟨s'', ?_, hp''⟩
      rw [pageOffset_succ] at he'
      rw [forPages, if_pos (hc.mpr hlt), ExceptT.run_bind_ok he, he']
    case neg =>
      have he : i = length.toNat / 0x1000 := by omega
      refine ⟨s, ?_, he ▸ hp⟩
      rw [forPages, if_neg (hc.not.mpr hlt), ← he]
      rfl

theorem overRange_ok (hf : length.toNat / 0x1000 < fuel) (hp : P 0 s) :
    ∃ s', (overRange body fuel length).run s = (.ok (), s') ∧ P (rangePages length) s' := by
  have ⟨s', he, hp'⟩ := forPages_ok hl h (Nat.zero_le _) (show length.toNat / 0x1000 < 0 + fuel by omega) hp
  rw [pageOffset_zero] at he
  have ho := toNat_pageOffset (show length.toNat / 0x1000 < 2 ^ 40 by omega)
  by_cases hlt : pageOffset (length.toNat / 0x1000) < length
  case pos =>
    rw [BitVec.lt_def, ho] at hlt
    have ⟨s'', he', hp''⟩ := h _ (by rw [rangePages]; omega) s' hp'
    have hn : rangePages length = length.toNat / 0x1000 + 1 := by rw [rangePages]; omega
    refine ⟨s'', ?_, hn ▸ hp''⟩
    rw [overRange, ExceptT.run_bind_ok he, if_pos (by rwa [BitVec.lt_def, ho]), he']
  case neg =>
    have hn : rangePages length = length.toNat / 0x1000 := by
      rw [BitVec.lt_def, ho] at hlt
      rw [rangePages]
      omega
    refine ⟨s', ?_, hn ▸ hp'⟩
    rw [overRange, ExceptT.run_bind_ok he, if_neg hlt]
    rfl

end

end Loop

-- What `pte_walk` tells about an address: the physical address and the flags, unless these are zero.
def translation (mem : Mem) (p va : Word) : Option (Word × Word) :=
  let w := pteWalk mem p va
  if w.flags = 0 then none else some (w.addr + (va &&& allOneMask w.pageSize.bits), w.flags)

-- The pages `i`, …, `n - 1` of a range are mapped.
def Space.range (A : Space) (va pa flags : Word) (i n : Nat) : Space := fun a =>
  if va.toNat / 0x1000 + i ≤ a.toNat / 0x1000 ∧ a.toNat / 0x1000 < va.toNat / 0x1000 + n then
    some { pa := pa + pageOffset (a.toNat / 0x1000 - va.toNat / 0x1000), flags, size := .page4K }
  else
    A a

variable {mem mem' : Mem} {p va pa flags length : Word} {A : Space} {pmem : Nat → Word} {i n fuel : Nat}
  {s s' : TableState} {a : BitVec 39} {k : Nat}

theorem samePage_page4K {a b : BitVec 39} : SamePage .page4K a b ↔ a.toNat / 0x1000 = b.toNat / 0x1000 := by
  rw [SamePage, ← BitVec.toNat_inj, BitVec.toNat_ushiftRight, BitVec.toNat_ushiftRight, PageSize.bits,
    Nat.shiftRight_eq_div_pow, Nat.shiftRight_eq_div_pow]

theorem toNat_page (h : va.toNat + i * 0x1000 < 2 ^ 39) :
    ((va + pageOffset i).setWidth 39).toNat = va.toNat + i * 0x1000 := by
  rw [BitVec.toNat_setWidth, BitVec.toNat_add, toNat_pageOffset (by omega)]
  omega

namespace Space

theorem range_self : A.range va pa flags i i = A := by
  funext a
  exact if_neg fun h => by omega

theorem range_map (h : va.toNat + i * 0x1000 < 2 ^ 39) :
    (A.range va pa flags 0 i).map ((va + pageOffset i).setWidth 39) ⟨pa + pageOffset i, flags, .page4K⟩ =
      A.range va pa flags 0 (i + 1) := by
  funext a
  have hs : SamePage .page4K ((va + pageOffset i).setWidth 39) a ↔ va.toNat / 0x1000 + i = a.toNat / 0x1000 := by
    rw [samePage_page4K, toNat_page h]
    omega
  by_cases ha : va.toNat / 0x1000 + i = a.toNat / 0x1000
  case pos => simp [Space.map, Space.range, hs, ← ha]
  case neg =>
    have hc : va.toNat / 0x1000 + 0 ≤ a.toNat / 0x1000 ∧ a.toNat / 0x1000 < va.toNat / 0x1000 + (i + 1) ↔
        va.toNat / 0x1000 + 0 ≤ a.toNat / 0x1000 ∧ a.toNat / 0x1000 < va.toNat / 0x1000 + i := by omega
    simp only [Space.map, Space.range, hs, ha, hc, if_false]

theorem range_unmap (h : va.toNat + i * 0x1000 < 2 ^ 39) (hi : i < n)
    (hm : ∀ a : BitVec 39, a.toNat / 0x1000 = va.toNat / 0x1000 + i → A a = none) :
    (A.range va pa flags i n).unmap ((va + pageOffset i).setWidth 39) = A.range va pa flags (i + 1) n := by
  have ht := toNat_page h
  have hp : ((va + pageOffset i).setWidth 39).toNat / 0x1000 = va.toNat / 0x1000 + i := by rw [ht]; omega
  have he : A.range va pa flags i n ((va + pageOffset i).setWidth 39) =
      some ⟨pa + pageOffset i, flags, .page4K⟩ := by
    rw [Space.range, hp, if_pos (by omega), Nat.add_sub_cancel_left]
  funext a
  rw [Space.unmap, he]
  have hs : SamePage .page4K ((va + pageOffset i).setWidth 39) a ↔ va.toNat / 0x1000 + i = a.toNat / 0x1000 := by
    rw [samePage_page4K, hp]
  by_cases ha : va.toNat / 0x1000 + i = a.toNat / 0x1000
  case pos => simp [Space.range, hs, ← ha, hm a ha.symm]
  case neg =>
    have hc : va.toNat / 0x1000 + (i + 1) ≤ a.toNat / 0x1000 ∧ a.toNat / 0x1000 < va.toNat / 0x1000 + n ↔
        va.toNat / 0x1000 + i ≤ a.toNat / 0x1000 ∧ a.toNat / 0x1000 < va.toNat / 0x1000 + n := by omega
    simp only [Space.range, hs, ha, hc, if_false]

end Space

theorem toNat_and_mask (a : Word) : (a &&& allOneMask 12).toNat = a.toNat % 0x1000 :=
  Nat.and_two_pow_sub_one_eq_mod _ 12

theorem aligned_iff {a : Word} : Aligned a ↔ a.toNat % 0x1000 = 0 := by
  rw [← toNat_and_mask, show (0 : Nat) = (0 : Word).toNat from rfl, BitVec.toNat_inj]
  constructor
  case mp =>
    intro h
    rw [← h, align4K, BitVec.and_assoc, BitVec.not_and_self]
    exact BitVec.and_zero
  case mpr =>
    intro h
    apply BitVec.eq_of_getLsbD_eq
    intro i hi
    have hb := congrArg (·.getLsbD i) h
    simp only [BitVec.getLsbD_and, getLsbD_allOneMask (n := 12) (by decide) hi] at hb
    rw [getLsbD_align4K]
    by_cases hl : i < 12
    case pos => simp_all
    case neg => simp [Nat.le_of_not_lt hl]

theorem Maps.translation_eq (v : Maps mem p A) : translation mem p (a.setWidth 64) =
    (A a).map fun m => (align4K m.pa + (a.setWidth 64 &&& allOneMask m.size.bits), m.flags) := by
  have hz : (pteWalk mem p (a.setWidth 64)).flags ≠ 0 ↔ A a ≠ none := v.walk_flags_ne_zero_iff
  cases hm : A a
  case none   => simp [translation, not_not.mp <| hz.not.mpr (not_not.mpr hm)]
  case some m => simp_all [translation, v.walk_some hm]

theorem Maps.translation_eq_none (v : Maps mem p A) : translation mem p (a.setWidth 64) = none ↔ A a = none := by
  rw [v.translation_eq, Option.map_eq_none_iff]

theorem setWidth_setWidth (h : va.toNat < 2 ^ 39) : (va.setWidth 39).setWidth 64 = va := by
  rw [← BitVec.toNat_inj, BitVec.toNat_setWidth, BitVec.toNat_setWidth]
  omega

theorem slot_bits_ge {va : Word} : PageSize.bits .page4K ≤ (slot mem p va).size.bits := by
  cases (slot mem p va).size <;> decide

-- A range that is mapped is translated byte by byte.
theorem Maps.translation_range (v : Maps mem p (A.range va pa flags 0 n)) (ha : Aligned va) (hb : Aligned pa)
    (hl : va.toNat + n * 0x1000 ≤ 2 ^ 39) (hk : k < n * 0x1000) :
    translation mem p (va + .ofNat 64 k) = some (pa + .ofNat 64 k, flags) := by
  rw [aligned_iff] at ha hb
  have ht : (va + BitVec.ofNat 64 k).toNat = va.toNat + k := by
    rw [BitVec.toNat_add, BitVec.toNat_ofNat]
    omega
  have hs : ((va + BitVec.ofNat 64 k).setWidth 39).toNat = va.toNat + k := by
    rw [BitVec.toNat_setWidth, ht]
    omega
  have ho := toNat_pageOffset (show k / 0x1000 < 2 ^ 40 by omega)
  have hp : Aligned (pa + pageOffset (k / 0x1000)) := by
    rw [aligned_iff, BitVec.toNat_add, ho]
    omega
  rw [← setWidth_setWidth (show (va + BitVec.ofNat 64 k).toNat < 2 ^ 39 by omega), v.translation_eq, Space.range, hs,
    if_pos (by omega), Option.map_some, setWidth_setWidth (by omega),
    show (va.toNat + k) / 0x1000 - va.toNat / 0x1000 = k / 0x1000 by omega, hp, PageSize.bits]
  congr 2
  rw [← BitVec.toNat_inj, BitVec.toNat_add, BitVec.toNat_add, toNat_and_mask, ho, ht, BitVec.toNat_add,
    BitVec.toNat_ofNat]
  omega

section

variable (hl : va.toNat + length.toNat ≤ 2 ^ 39) (hf : length.toNat / 0x1000 < fuel)
  (hm : ∀ a : BitVec 39, va.toNat / 0x1000 ≤ a.toNat / 0x1000 →
    a.toNat / 0x1000 < va.toNat / 0x1000 + rangePages length → A a = none)

include hl hf hm

theorem pteRangeMap_ok (v : Maps s.mem p A) (pa : Word) (hv : ValidFlags flags)
    (hu : Supplies s.mem p (fun n => pmem (s.obtained.length + n)) (2 * rangePages length)) :
    ∃ s', (pteRangeMap pmem fuel p va pa flags length).run s = (.ok (), s') ∧
      Maps s'.mem p (A.range va pa flags 0 (rangePages length)) := by
  let body (offset : Word) := mapPage pmem p (va + offset) (pa + offset) flags .page4K
  let P (i : Nat) (s : TableState) := Maps s.mem p (A.range va pa flags 0 i) ∧
    Supplies s.mem p (fun n => pmem (s.obtained.length + n)) (2 * (rangePages length - i))
  have h : ∀ i < rangePages length, ∀ s, P i s → ∃ s', (body (pageOffset i)).run s = (.ok (), s') ∧ P (i + 1) s' := by
    intro i hi s ⟨v, hu⟩
    have hlt : va.toNat + i * 0x1000 < 2 ^ 39 := by rw [rangePages] at hi; omega
    have ht := toNat_page hlt
    have hfree : A.range va pa flags 0 i ((va + pageOffset i).setWidth 39) = none := by
      rw [Space.range, ht, if_neg (by omega)]
      exact hm _ (by rw [ht]; omega) (by rw [ht]; omega)
    have hle : pteMapAllocs s.mem p (((va + pageOffset i).setWidth 39).setWidth 64) .page4K ≤ 2 := pteMapAllocs_le
    have ⟨s', (he : (mapPage _ _ _ (pa + pageOffset i) _ _).run _ = _), v', o⟩ :=
      mapPage_ok v hv (hu.mono (by omega)) hfree slot_bits_ge
    refine ⟨s', ?_, Space.range_map hlt ▸ v', o.supplies <| hu.mono (by omega)⟩
    simp only [body, mapPage_setWidth (va + pageOffset i), he]
  have hp : P 0 s := ⟨by rwa [Space.range_self], hu⟩
  have ⟨s', he, hp'⟩ := overRange_ok (by omega) h hf hp
  exact ⟨s', he, hp'.1⟩

theorem pteRangeUnmap_ok (pmem : Nat → Word) (v : Maps s.mem p (A.range va pa flags 0 (rangePages length))) :
    ∃ s', (pteRangeUnmap pmem fuel p va length).run s = (.ok (), s') ∧ Maps s'.mem p A := by
  let body (offset : Word) := unmapPage pmem p (va + offset)
  let P (i : Nat) (s : TableState) := Maps s.mem p (A.range va pa flags i (rangePages length))
  have h : ∀ i < rangePages length, ∀ s, P i s → ∃ s', (body (pageOffset i)).run s = (.ok (), s') ∧ P (i + 1) s' := by
    intro i hi s v
    have hlt : va.toNat + i * 0x1000 < 2 ^ 39 := by rw [rangePages] at hi; omega
    have ht := toNat_page hlt
    have hmapped : A.range va pa flags i (rangePages length) ((va + pageOffset i).setWidth 39) ≠ none := by
      rw [Space.range, ht, if_pos (by omega)]
      exact Option.some_ne_none _
    have ⟨s', (he : (unmapPage pmem _ _).run _ = _), v', _⟩ := unmapPage_ok v hmapped
    refine ⟨s', ?_, ?_⟩
    case refine_1 => simp only [body, unmapPage_setWidth (va + pageOffset i), he]
    case refine_2 =>
      rw [Space.range_unmap hlt hi fun a ha => hm a (by omega) (by omega)] at v'
      exact v'
  have ⟨s', he, hp⟩ := overRange_ok (by omega) h hf v
  exact ⟨s', he, by simpa only [P, Space.range_self] using hp⟩

end

-- The address of the first byte of a page.
def pageAddr (n : BitVec 27) : Word :=
  .ofNat 64 (n.toNat * 0x1000)

theorem Maps.ncard_range (v : Maps mem p A) (v' : Maps mem' p (A.range va pa flags 0 n))
    (hl : va.toNat + n * 0x1000 ≤ 2 ^ 39) (ha : va.toNat % 0x1000 = 0)
    (hm : ∀ a : BitVec 39, va.toNat / 0x1000 ≤ a.toNat / 0x1000 →
      a.toNat / 0x1000 < va.toNat / 0x1000 + n → A a = none) :
    { i : BitVec 27 | translation mem p (pageAddr i) = none ∧ translation mem' p (pageAddr i) ≠ none }.ncard = n := by
  have ht (i : BitVec 27) : (pageAddr i).toNat = i.toNat * 0x1000 := by
    rw [pageAddr, BitVec.toNat_ofNat]
    omega
  have hs (i : BitVec 27) : ((pageAddr i).setWidth 39).toNat = i.toNat * 0x1000 := by
    rw [BitVec.toNat_setWidth, ht]
    omega
  have hw (i : BitVec 27) : ((pageAddr i).setWidth 39).setWidth 64 = pageAddr i :=
    setWidth_setWidth (by rw [ht]; omega)
  rw [← Set.ncard_image_of_injective _ BitVec.toNat_injective]
  have he : BitVec.toNat '' { i : BitVec 27 | translation mem p (pageAddr i) = none ∧
      translation mem' p (pageAddr i) ≠ none } = Set.Ico (va.toNat / 0x1000) (va.toNat / 0x1000 + n) := by
    ext k
    constructor
    case mp =>
      intro ⟨i, ⟨hn, hi⟩, hk⟩
      rw [← hw, v.translation_eq_none] at hn
      rw [← hw, ne_eq, v'.translation_eq_none, Space.range, hs, hn] at hi
      by_contra hc
      apply hi
      rw [if_neg]
      rw [Set.mem_Ico] at hc
      omega
    case mpr =>
      intro ⟨h₁, h₂⟩
      have hk : (BitVec.ofNat 27 k).toNat = k := by rw [BitVec.toNat_ofNat]; omega
      refine ⟨.ofNat 27 k, ⟨?_, ?_⟩, hk⟩
      case refine_1 =>
        rw [← hw, v.translation_eq_none]
        exact hm _ (by rw [hs, hk]; omega) (by rw [hs, hk]; omega)
      case refine_2 =>
        rw [← hw, ne_eq, v'.translation_eq_none, Space.range, hs, hk, if_pos (by omega)]
        exact Option.some_ne_none _
  rw [he, ← Finset.coe_Ico, Set.ncard_coe_finset, Nat.card_Ico]
  omega

-- All bytes of the pages of a range are mapped, also those of the last page behind the end of the range. All
-- other addresses are translated as before, and the same holds for all addresses if the range is unmapped again.
theorem pteRange_maps (v : Maps s.mem p A)
    (hu : Supplies s.mem p (fun n => pmem (s.obtained.length + n)) (2 * rangePages length)) (hv : ValidFlags flags)
    (ha : Aligned va) (hb : Aligned pa) (hl : va.toNat + length.toNat ≤ 2 ^ 39)
    (hm : ∀ k < length.toNat, translation s.mem p (va + .ofNat 64 k) = none) (hf : length.toNat / 0x1000 < fuel) :
    ∃ s' s'', (pteRangeMap pmem fuel p va pa flags length).run s = (.ok (), s') ∧
      (pteRangeUnmap pmem fuel p va length).run s' = (.ok (), s'') ∧
      (∀ k < rangePages length * 0x1000,
        translation s'.mem p (va + .ofNat 64 k) = some (pa + .ofNat 64 k, flags)) ∧
      (∀ a : BitVec 39, ¬(va.toNat ≤ a.toNat ∧ a.toNat < va.toNat + rangePages length * 0x1000) →
        translation s'.mem p (a.setWidth 64) = translation s.mem p (a.setWidth 64)) ∧
      { i : BitVec 27 | translation s.mem p (pageAddr i) = none ∧
        translation s'.mem p (pageAddr i) ≠ none }.ncard = rangePages length ∧
      ∀ a : BitVec 39, translation s''.mem p (a.setWidth 64) = translation s.mem p (a.setWidth 64) := by
  have ha' := aligned_iff.mp ha
  have hle : va.toNat + rangePages length * 0x1000 ≤ 2 ^ 39 := by rw [rangePages]; omega
  -- The first byte of each page lies in the range.
  have hfree (a : BitVec 39) (h₁ : va.toNat / 0x1000 ≤ a.toNat / 0x1000)
      (h₂ : a.toNat / 0x1000 < va.toNat / 0x1000 + rangePages length) : A a = none := by
    let k := (a.toNat / 0x1000 - va.toNat / 0x1000) * 0x1000
    have hk : k < length.toNat := by simp only [k, rangePages] at h₂ ⊢; omega
    have ht : (va + BitVec.ofNat 64 k).toNat = va.toNat + k := by
      rw [BitVec.toNat_add, BitVec.toNat_ofNat]
      omega
    have hw := setWidth_setWidth (show (va + BitVec.ofNat 64 k).toNat < 2 ^ 39 by omega)
    have hn := hm k hk
    rw [← hw, v.translation_eq_none] at hn
    have hs : SamePage .page4K ((va + BitVec.ofNat 64 k).setWidth 39) a := by
      rw [samePage_page4K, BitVec.toNat_setWidth, ht]
      simp only [k] at hk ⊢
      omega
    exact (v.samePage <| hs.mono slot_bits_ge).mpr hn
  have ⟨s', he, v'⟩ := pteRangeMap_ok hl hf hfree v pa hv hu
  have ⟨s'', he', v''⟩ := pteRangeUnmap_ok hl hf hfree pmem v'
  refine ⟨s', s'', he, he', fun k => v'.translation_range ha hb hle, ?_, v.ncard_range v' hle ha' hfree, ?_⟩
  case refine_1 =>
    intro a h
    rw [v'.translation_eq, v.translation_eq, Space.range, if_neg]
    intro h'
    rw [rangePages] at h h'
    omega
  case refine_2 =>
    intro a
    rw [v''.translation_eq, v.translation_eq]

theorem emptyTable_range_maps :
    ∃ s' s'', (pteRangeMap page 2 0x1000 0 0x80000000 0xf 0x1001).run { mem := empty, obtained := [] } = (.ok (), s') ∧
      (pteRangeUnmap page 2 0x1000 0 0x1001).run s' = (.ok (), s'') ∧
      translation s'.mem 0x1000 0x1fff = some (0x80001fff, 0xf) ∧ translation s''.mem 0x1000 0x1fff = none := by
  have v : Maps empty 0x1000 fun _ => none := maps_clear _ _
  have hu : Supplies empty 0x1000 (fun n => page (0 + n)) (2 * rangePages 0x1001) := {
    fresh n hn := by
      have hd : ∀ n < 4, Aligned (page (0 + n)) ∧ (0x1000 : Word) ≠ page (0 + n) := by decide
      have ⟨ha, hp⟩ := hd n hn
      exact fresh_clear ha hp
    distinct n m hn hm := by
      have hd : ∀ m < 4, ∀ n < m, page (0 + n) ≠ page (0 + m) := by decide
      exact hd m hm n hn
  }
  have hn (k : Nat) (hk : k < (0x1001 : Word).toNat) : translation empty 0x1000 (0 + .ofNat 64 k) = none := by
    have hk' : k < 0x1001 := hk
    have ht : (0 + BitVec.ofNat 64 k : Word).toNat < 2 ^ 39 := by
      have hz : (0 : Word).toNat = 0 := rfl
      rw [BitVec.toNat_add, BitVec.toNat_ofNat, hz]
      omega
    rw [← setWidth_setWidth ht, v.translation_eq]
    rfl
  have ⟨s', s'', he, he', ht, _, _, hr⟩ := pteRange_maps (s := { mem := empty, obtained := [] }) v hu
    (show ValidFlags 0xf by decide) (show Aligned 0 by decide) (show Aligned 0x80000000 by decide) (by decide) hn
    (show (0x1001 : Word).toNat / 0x1000 < 2 by decide)
  exact ⟨s', s'', he, he', ht 0x1fff (by decide), hr 0x1fff⟩

-- The bytes behind the end of the range are mapped, and a range which is mapped without flags is not unmapped.
theorem emptyTable_range_not_maps :
    let s : TableState := { mem := empty, obtained := [] }
    let r  := (pteRangeMap page 1 0x1000 0 0x80000000 0xf 1).run s
    let r₀ := (pteRangeMap page 1 0x1000 0 0x80000000 0 1).run s
    r.1 = .ok () ∧ translation s.mem 0x1000 1 = none ∧ translation r.2.mem 0x1000 1 = some (0x80000001, 0xf) ∧
      r₀.1 = .ok () ∧ ((pteRangeUnmap page 1 0x1000 0 1).run r₀.2).1 = .error .panic := by
  decide +kernel

end Zgmos.Pte
