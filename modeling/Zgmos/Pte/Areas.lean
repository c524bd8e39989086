import Zgmos.Pte.Ranges

-- The mapping of several ranges.

namespace Zgmos.Pte

variable {mem : Mem} {p va pa flags length : Word} {A : Space} {pmem : Nat → Word} {fuel f i m n : Nat}
  {s : TableState}

-- The tables for the pages of a range, two for each region of 2M which it meets.
def rangeTables (length : Word) : Nat :=
  2 * ((rangePages length + 510) / 512 + 1)

-- The number of regions in which the pages `f + i`, …, `f + n - 1` lie, without that of the page before these.
def regions (f n i : Nat) : Nat :=
  (f + n - 1) / 512 - (f + (i - 1)) / 512 + if i = 0 then 1 else 0

theorem regions_le : 2 * regions f n 0 ≤ 2 * ((n + 510) / 512 + 1) := by
  unfold regions
  rw [if_pos rfl]
  omega

theorem regions_succ (h : i < n) : regions f n (i + 1) + 1 ≤ regions f n i ∨
    ∃ j, i = j + 1 ∧ (f + i) / 512 = (f + j) / 512 ∧ regions f n (i + 1) = regions f n i := by
  unfold regions
  cases i
  case zero =>
    rw [if_pos rfl, if_neg (by omega)]
    omega
  case succ j =>
    rw [if_neg (by omega), if_neg (by omega)]
    by_cases hd : (f + (j + 1)) / 512 = (f + j) / 512
    case pos => exact .inr ⟨j, rfl, hd, by simp [hd]⟩
    case neg => exact .inl (by simp only [Nat.add_sub_cancel]; omega)

theorem div_region {a j : Nat} (h : (a / 0x1000 + j) / 512 = (a / 0x1000 + i) / 512) :
    (a + j * 0x1000) / 0x200000 = (a + i * 0x1000) / 0x200000 := by
  omega

-- All addresses of a region of 2M are looked up in one table of the last level, if there is one.
theorem slot_of_samePage2M {va va' : BitVec 39} (h : SamePage .page2M va va') :
    slot mem p (va.setWidth 64) = slot mem p (va'.setWidth 64) := by
  have ⟨hp, hi⟩ := samePage_iff.mp h
  simp only [place, index, Pos.mid.injEq] at hp hi
  simp only [slot, place, hp, hi]

theorem samePage2M {a b : BitVec 39} : SamePage .page2M a b ↔ a.toNat / 0x200000 = b.toNat / 0x200000 := by
  rw [SamePage, ← BitVec.toNat_inj, BitVec.toNat_ushiftRight, BitVec.toNat_ushiftRight, PageSize.bits,
    Nat.shiftRight_eq_div_pow, Nat.shiftRight_eq_div_pow]

-- The mapping of a range allocates at most `rangeTables` of the pages at hand.
theorem pteRangeMap_supplies (hl : va.toNat + length.toNat ≤ 2 ^ 39) (hf : length.toNat / 0x1000 < fuel)
    (hm : ∀ a : BitVec 39, va.toNat / 0x1000 ≤ a.toNat / 0x1000 →
      a.toNat / 0x1000 < va.toNat / 0x1000 + rangePages length → A a = none)
    (v : Maps s.mem p A) (pa : Word) (hv : ValidFlags flags)
    (hu : Supplies s.mem p (fun n => pmem (s.obtained.length + n)) (rangeTables length + m)) :
    ∃ s', (pteRangeMap pmem fuel p va pa flags length).run s = (.ok (), s') ∧
      Maps s'.mem p (A.range va pa flags 0 (rangePages length)) ∧
      Supplies s'.mem p (fun n => pmem (s'.obtained.length + n)) m := by
  let r (i : Nat) := regions (va.toNat / 0x1000) (rangePages length) i
  let body (offset : Word) := mapPage pmem p (va + offset) (pa + offset) flags .page4K
  let P (i : Nat) (s : TableState) := Maps s.mem p (A.range va pa flags 0 i) ∧
    Supplies s.mem p (fun n => pmem (s.obtained.length + n)) (2 * r i + m) ∧
    ∀ j, i = j + 1 → (slot s.mem p (((va + pageOffset j).setWidth 39).setWidth 64)).size = .page4K
  have h : ∀ i < rangePages length, ∀ s, P i s → ∃ s', (body (pageOffset i)).run s = (.ok (), s') ∧ P (i + 1) s' := by
    rintro i hi s ⟨v, hu, hs⟩
    have hlt : va.toNat + i * 0x1000 < 2 ^ 39 := by rw [rangePages] at hi; omega
    have ht := toNat_page hlt
    have hfree : A.range va pa flags 0 i ((va + pageOffset i).setWidth 39) = none := by
      rw [Space.range, ht, if_neg (by omega)]
      exact hm _ (by rw [ht]; omega) (by rw [ht]; omega)
    -- Only the first page in a region of 2M needs tables.
    have hk : pteMapAllocs s.mem p (((va + pageOffset i).setWidth 39).setWidth 64) .page4K + 2 * r (i + 1) ≤ 2 * r i := by
      obtain hr | ⟨j, hj, hd, hr⟩ := regions_succ (f := va.toNat / 0x1000) hi
      case inl =>
        have hle : pteMapAllocs s.mem p (((va + pageOffset i).setWidth 39).setWidth 64) .page4K ≤ 2 := pteMapAllocs_le
        simp only [r]
        omega
      case inr =>
        subst hj
        have hsame : SamePage .page2M ((va + pageOffset j).setWidth 39) ((va + pageOffset (j + 1)).setWidth 39) := by
          have hj := toNat_page <| (Nat.add_le_add_left (Nat.mul_le_mul_right _ j.le_succ) _).trans_lt hlt
          rw [samePage2M, ht, hj]
          exact div_region hd.symm
        have hz := hs j rfl
        rw [slot_of_samePage2M hsame] at hz
        rw [pteMapAllocs_eq hz]
        simp only [r]
        omega
    obtain ⟨s', (he : (mapPage _ _ _ (pa + pageOffset i) _ _).run _ = _), v', o⟩ :=
      mapPage_ok v hv (hu.mono (by omega)) hfree slot_bits_ge
    refine ⟨s', ?_, Space.range_map hlt ▸ v', o.supplies <| hu.mono (by omega), fun j hj => ?_⟩
    case refine_1 => simp only [body, mapPage_setWidth (va + pageOffset i), he]
    case refine_2 =>
      have hi' : (A.range va pa flags 0 i).map ((va + pageOffset i).setWidth 39) ⟨pa + pageOffset i, flags, .page4K⟩
          ((va + pageOffset i).setWidth 39) = some ⟨pa + pageOffset i, flags, .page4K⟩ := if_pos (.refl _ _)
      cases Nat.succ.inj hj
      exact (v'.mapped hi').2.1
  have hp : P 0 s := by
    have hr : 2 * r 0 ≤ rangeTables length := by
      rw [rangeTables]
      exact regions_le
    exact ⟨by rwa [Space.range_self], hu.mono (by omega), fun j hj => by cases hj⟩
  obtain ⟨s', he, hp'⟩ := overRange_ok (by omega) h hf hp
  exact ⟨s', he, hp'.1, hp'.2.1.mono (by omega)⟩

-- A range of addresses with the physical addresses and the flags to which they are mapped.
structure Area where
  va     : Word
  pa     : Word
  flags  : Word
  length : Word

namespace Area

def Covers (r : Area) (a : Nat) : Prop :=
  r.va.toNat ≤ a ∧ a < r.va.toNat + r.length.toNat

instance (r : Area) (a : Nat) : Decidable (r.Covers a) :=
  inferInstanceAs <| Decidable (_ ∧ _)

-- The range consists of whole pages below 2 ^ 39.
structure Sound (r : Area) : Prop where
  flags  : ValidFlags r.flags
  va     : Aligned r.va
  pa     : Aligned r.pa
  length : Aligned r.length
  le     : r.va.toNat + r.length.toNat ≤ 2 ^ 39

def Apart (r r' : Area) : Prop :=
  r.va.toNat + r.length.toNat ≤ r'.va.toNat ∨ r'.va.toNat + r'.length.toNat ≤ r.va.toNat

def map (pmem : Nat → Word) (fuel : Nat) (p : Word) (r : Area) : TableM Unit :=
  pteRangeMap pmem fuel p r.va r.pa r.flags r.length

-- The addresses from `lo` on that are less than `hi`, mapped to themselves.
def identity (lo hi flags : Word) : Area where
  va     := lo
  pa     := lo
  flags  := flags
  length := hi - lo

-- What the addresses in the areas stand for.
def view (rs : List Area) (a : Nat) : Option (Word × Word) :=
  (rs.find? (·.Covers a)).map fun r => (r.pa + .ofNat 64 (a - r.va.toNat), r.flags)

def tables (rs : List Area) : Nat :=
  (rs.map fun r => rangeTables r.length).sum

variable {r r' : Area} {rs : List Area} {a : Nat}

theorem view_singleton :
    view [r] a = if r.Covers a then some (r.pa + .ofNat 64 (a - r.va.toNat), r.flags) else none := by
  by_cases hc : r.Covers a
  case pos => simp [view, hc]
  case neg => simp [view, hc]

theorem Apart.not_covers (h : r.Apart r') (hr : r.Covers a) : ¬r'.Covers a := by
  intro hr'
  unfold Covers at hr hr'
  unfold Apart at h
  omega

theorem Sound.rangePages (w : r.Sound) : rangePages r.length * 0x1000 = r.length.toNat := by
  have := aligned_iff.mp w.length
  rw [Pte.rangePages]
  omega

theorem Sound.covers_iff (w : r.Sound) : r.Covers a ↔
    r.va.toNat / 0x1000 ≤ a / 0x1000 ∧ a / 0x1000 < r.va.toNat / 0x1000 + Pte.rangePages r.length := by
  have := aligned_iff.mp w.va
  have := w.rangePages
  unfold Covers
  omega

-- One area is mapped.
theorem Sound.map_ok (w : r.Sound) (hf : r.length.toNat / 0x1000 < fuel) (v : Maps s.mem p A)
    (hn : ∀ a : BitVec 39, r.Covers a.toNat → translation s.mem p (a.setWidth 64) = none)
    (hu : Supplies s.mem p (fun n => pmem (s.obtained.length + n)) (rangeTables r.length + m)) :
    ∃ s' A', (r.map pmem fuel p).run s = (.ok (), s') ∧ Maps s'.mem p A' ∧
      Supplies s'.mem p (fun n => pmem (s'.obtained.length + n)) m ∧
      ∀ a : BitVec 39, translation s'.mem p (a.setWidth 64) =
        (view [r] a.toNat).or (translation s.mem p (a.setWidth 64)) := by
  have hm (a : BitVec 39) (h₁ : r.va.toNat / 0x1000 ≤ a.toNat / 0x1000)
      (h₂ : a.toNat / 0x1000 < r.va.toNat / 0x1000 + Pte.rangePages r.length) : A a = none :=
    v.translation_eq_none.mp <| hn a <| w.covers_iff.mpr ⟨h₁, h₂⟩
  have ⟨s', he, v', hu'⟩ := pteRangeMap_supplies w.le hf hm v r.pa w.flags hu
  refine ⟨s', _, he, v', hu', fun a => ?_⟩
  by_cases hc : r.Covers a.toNat
  case pos =>
    have hle : r.va.toNat + Pte.rangePages r.length * 0x1000 ≤ 2 ^ 39 := by rw [w.rangePages]; exact w.le
    have hk : a.toNat - r.va.toNat < Pte.rangePages r.length * 0x1000 := by
      rw [w.rangePages]
      unfold Covers at hc
      omega
    have ha : r.va + .ofNat 64 (a.toNat - r.va.toNat) = a.setWidth 64 := by
      unfold Covers at hc
      rw [← BitVec.toNat_inj, BitVec.toNat_add, BitVec.toNat_ofNat, BitVec.toNat_setWidth]
      omega
    have ht := v'.translation_range w.va w.pa hle hk
    rw [ha] at ht
    rw [ht, view_singleton, if_pos hc, Option.some_or]
  case neg =>
    have hc' := w.covers_iff.not.mp hc
    rw [v'.translation_eq, v.translation_eq, Space.range, if_neg (by simpa using hc'), view_singleton, if_neg hc,
      Option.none_or]

theorem view_eq_none (h : ∀ r ∈ rs, ¬r.Covers a) : view rs a = none := by
  simpa [view] using h

theorem Covers.add_sub {a : Word} (h : r.Covers a.toNat) : r.va + .ofNat 64 (a.toNat - r.va.toNat) = a := by
  unfold Covers at h
  rw [← BitVec.toNat_inj, BitVec.toNat_add, BitVec.toNat_ofNat]
  omega

-- All areas are mapped to themselves with the same flags.
theorem view_eq_of_identity (h : ∀ r ∈ rs, r.pa = r.va ∧ r.flags = flags) (a : Word) :
    view rs a.toNat = if ∃ r ∈ rs, r.Covers a.toNat then some (a, flags) else none := by
  by_cases he : ∃ r ∈ rs, r.Covers a.toNat
  case neg => rw [if_neg he, view_eq_none fun r hr hc => he ⟨r, hr, hc⟩]
  case pos =>
    have hs : (rs.find? fun r => r.Covers a.toNat).isSome := by simpa using he
    have ⟨r, hr⟩ := Option.isSome_iff_exists.mp hs
    have ⟨hp, hf⟩ := h r <| List.mem_of_find?_eq_some hr
    have hc : r.Covers a.toNat := by simpa using List.find?_some hr
    rw [if_pos he, view, hr, Option.map_some, hp, hf, hc.add_sub]

section Identity

variable {lo hi : Word} (h : lo ≤ hi)

include h

theorem identity_length : (identity lo hi flags).length.toNat = hi.toNat - lo.toNat :=
  BitVec.toNat_sub_of_le h

theorem identity_covers : (identity lo hi flags).Covers a ↔ lo.toNat ≤ a ∧ a < hi.toNat := by
  have hl : (hi - lo).toNat = hi.toNat - lo.toNat := BitVec.toNat_sub_of_le h
  rw [BitVec.le_def] at h
  simp only [Covers, identity, hl]
  omega

theorem identity_sound (hv : ValidFlags flags) (hl : Aligned lo) (hh : Aligned hi) (hm : hi.toNat ≤ 2 ^ 39) :
    (identity lo hi flags).Sound where
  flags  := hv
  va     := hl
  pa     := hl
  length := by
    rw [aligned_iff] at hl hh ⊢
    rw [identity_length h]
    omega
  le     := by
    rw [identity_length h]
    rw [BitVec.le_def] at h
    simp only [identity]
    omega

theorem view_identity (a : Word) : view [identity lo hi flags] a.toNat =
    if lo ≤ a ∧ a < hi then some (a, flags) else none := by
  have hc : (identity lo hi flags).Covers a.toNat ↔ lo ≤ a ∧ a < hi := identity_covers h
  have hr : ∀ r ∈ [identity lo hi flags], r.pa = r.va ∧ r.flags = flags := by simp [identity]
  rw [view_eq_of_identity hr]
  simp only [List.mem_singleton, exists_eq_left, hc]

end Identity

theorem view_cons : view (r :: rs) a = (view [r] a).or (view rs a) := by
  by_cases hc : r.Covers a
  case pos => simp [view, hc]
  case neg => simp [view, hc]

theorem view_append {rs' : List Area} : view (rs ++ rs') a = (view rs a).or (view rs' a) := by
  simp [view, List.find?_append, Option.map_or]

-- Areas which have no address in common are mapped one after the other.
theorem forM_map_ok (hs : ∀ r ∈ rs, r.Sound) (hf : ∀ r ∈ rs, r.length.toNat / 0x1000 < fuel)
    (ha : rs.Pairwise Apart) (v : Maps s.mem p A)
    (hn : ∀ r ∈ rs, ∀ a : BitVec 39, r.Covers a.toNat → translation s.mem p (a.setWidth 64) = none)
    (hu : Supplies s.mem p (fun n => pmem (s.obtained.length + n)) (tables rs)) :
    ∃ s', (rs.forM (map pmem fuel p)).run s = (.ok (), s') ∧ ∀ a : BitVec 39,
      translation s'.mem p (a.setWidth 64) = (view rs a.toNat).or (translation s.mem p (a.setWidth 64)) := by
  induction rs generalizing s A
  case nil => exact ⟨s, rfl, fun a => rfl⟩
  case cons r rs hi =>
    have ⟨hr, hs⟩ := List.forall_mem_cons.mp hs
    have ⟨hfr, hf⟩ := List.forall_mem_cons.mp hf
    have ⟨hnr, hn⟩ := List.forall_mem_cons.mp hn
    have ⟨har, ha⟩ := List.pairwise_cons.mp ha
    have ⟨s₁, A₁, he₁, v₁, hu₁, ht₁⟩ := hr.map_ok hfr v hnr hu
    have hn₁ (r') (hr' : r' ∈ rs) (a : BitVec 39) (hc : r'.Covers a.toNat) :
        translation s₁.mem p (a.setWidth 64) = none := by
      have hc' : ¬r.Covers a.toNat := fun h => (har r' hr').not_covers h hc
      rw [ht₁, hn r' hr' a hc, view_eq_none (by simpa using hc'), Option.none_or]
    have ⟨s₂, he₂, ht₂⟩ := hi hs hf ha v₁ hn₁ hu₁
    refine ⟨s₂, ?_, fun a => ?_⟩
    case refine_1 => exact (ExceptT.run_bind_ok he₁).trans he₂
    case refine_2 =>
      have hd : (view rs a.toNat).or (view [r] a.toNat) = (view [r] a.toNat).or (view rs a.toNat) := by
        by_cases hc : r.Covers a.toNat
        case pos => rw [view_eq_none fun r' hr' => (har r' hr').not_covers hc, Option.none_or, Option.or_none]
        case neg =>
          have hv : view [r] a.toNat = none := view_eq_none (by simpa using hc)
          rw [hv, Option.none_or, Option.or_none]
      have hc : view (r :: rs) a.toNat = (view [r] a.toNat).or (view rs a.toNat) := view_cons
      rw [ht₂, ht₁, hc, ← Option.or_assoc, hd]

end Area

end Zgmos.Pte
