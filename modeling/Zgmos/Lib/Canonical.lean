import Zgmos.Lib.Pool

namespace Pool

-- A unit of a free block.
def Covered (n : Nat) (P : Pool) (x : Nat) : Prop :=
  ∃ p i, p < n ∧ i ∈ P.free p ∧ i ≤ x ∧ x < i + 2 ^ p

-- The free blocks start at multiples of their sizes.
def Aligned (n : Nat) (P : Pool) : Prop :=
  ∀ p < n, ∀ i ∈ P.free p, 2 ^ p ∣ i

-- The lists ascend and have no two halves of one block.
structure Merged (n : Nat) (P : Pool) : Prop where
  sorted : p < n → (P.free p).Pairwise (· < ·)
  apart  : p < n → i ∈ P.free p → 2 ^ (p + 1) ∣ i → i + 2 ^ p ∉ P.free p

variable {P P' : Pool} {n p q i j x : Nat} {l s t : List Nat}

theorem covered_iff : P.Covered n x ↔ P.freeWeight n (covers x) ≠ 0 := by
  let Q : Pool := ⟨P.free, 0⟩
  have hw : P.freeWeight n (covers x) = Q.weight n (covers x) := by simp [Q, weight, freeWeight, heldWeight]
  rw [hw]
  constructor
  case mp =>
    rintro ⟨p, i, hp, hi, hx⟩
    have := le_weight (P := Q) (c := covers x) (.inl ⟨hp, hi⟩)
    rw [covers_eq_one.mpr hx] at this
    omega
  case mpr =>
    intro h
    obtain ⟨p, i, hm, hx⟩ := exists_of_weight_covers h
    cases hm
    case inl hm => exact ⟨p, i, hm.1, hm.2, hx⟩
    case inr hm => simp [Q] at hm

-- A block that shares a unit with a block of at least its order is a part of that block.
theorem block_le_of_mem (hp : p ≤ q) (hi : 2 ^ p ∣ i) (hj : 2 ^ q ∣ j) (hx : i ≤ x ∧ x < i + 2 ^ p)
    (hy : j ≤ x ∧ x < j + 2 ^ q) : j ≤ i ∧ i + 2 ^ p ≤ j + 2 ^ q := by
  have ⟨m, hm⟩ := Nat.pow_dvd_pow 2 hp
  have ⟨a, ha⟩ := hi
  have ⟨b, hb⟩ := (Nat.pow_dvd_pow 2 hp).trans hj
  have h₀ : 0 < 2 ^ p := by positivity
  have h₁ : b < a + 1 := Nat.lt_of_mul_lt_mul_left (a := 2 ^ p) <| by rw [Nat.mul_succ]; omega
  have h₂ : a < b + m := Nat.lt_of_mul_lt_mul_left (a := 2 ^ p) <| by rw [Nat.mul_add]; omega
  have h₃ : 2 ^ p * b ≤ 2 ^ p * a := Nat.mul_le_mul_left _ <| Nat.le_of_lt_succ h₁
  have h₄ : 2 ^ p * (a + 1) ≤ 2 ^ p * (b + m) := Nat.mul_le_mul_left _ h₂
  rw [Nat.mul_succ, Nat.mul_add] at h₄
  omega

-- The next block of an order starts at least one size behind a block.
theorem add_le_of_dvd (hi : 2 ^ p ∣ i) (hj : 2 ^ p ∣ j) (hl : i < j) : i + 2 ^ p ≤ j := by
  have := Nat.le_of_dvd (by omega) <| Nat.dvd_sub hj hi
  omega

theorem exists_head_of_mem (h : l.Pairwise (· < ·)) (hj : j ∈ l) : ∃ k ∈ l.head?, k ≤ j := by
  cases l
  case nil => cases hj
  case cons k l =>
    refine ⟨k, rfl, ?_⟩
    cases hj
    case head    => exact le_rfl
    case tail hj => exact (List.rel_of_pairwise_cons h hj).le

theorem exists_getLast_of_mem (h : l.Pairwise (· < ·)) (hj : j ∈ l) : ∃ k ∈ l.getLast?, j ≤ k := by
  have hr : l.reverse.Pairwise (· > ·) := List.pairwise_reverse.mpr h
  cases hl : l.reverse
  case nil => simp [List.reverse_eq_nil_iff.mp hl] at hj
  case cons k t =>
    refine ⟨k, by rw [← List.head?_reverse, hl]; rfl, ?_⟩
    rw [hl] at hr
    cases hl ▸ List.mem_reverse.mpr hj
    case head    => exact le_rfl
    case tail hj => exact (List.rel_of_pairwise_cons hr hj).le

namespace Merged

theorem congr (h : P.Merged n) (he : P'.free = P.free) : P'.Merged n where
  sorted := by rw [he]; exact h.sorted
  apart  := by rw [he]; exact h.apart

theorem of_hold (h : (P.hold p i).Merged n) : P.Merged n :=
  h.congr rfl

theorem hold (h : P.Merged n) : (P.hold p i).Merged n :=
  h.congr rfl

theorem setFree (h : P.Merged n) (hs : p < n → l.Pairwise (· < ·))
    (ha : p < n → ∀ i ∈ l, 2 ^ (p + 1) ∣ i → i + 2 ^ p ∉ l) : (P.setFree p l).Merged n where
  sorted {q} hq := by
    by_cases he : q = p
    case neg => simpa [he] using h.sorted hq
    case pos => simpa [he] using hs (he ▸ hq)
  apart {q i} hq := by
    by_cases he : q = p
    case neg => simpa [he] using h.apart (i := i) hq
    case pos => simpa [he] using ha (he ▸ hq) i

-- Some blocks of a list are removed.
theorem sublist (h : P.Merged n) (hl : l.Sublist (P.free p)) : (P.setFree p l).Merged n :=
  h.setFree (fun hp => (h.sorted hp).sublist hl) fun hp _ hi hd hj =>
    h.apart hp (hl.subset hi) hd <| hl.subset hj

theorem singleton (h : P.Merged n) : (P.setFree p [i]).Merged n :=
  h.setFree (fun _ => List.pairwise_singleton ..) fun _ j hj _ hk => by
    have : 0 < 2 ^ p := by positivity
    rw [List.mem_singleton] at hj hk
    omega

-- A block is put between the blocks before and behind it, with none of which it makes up a block.
theorem insert (h : P.Merged n) (hf : P.free p = s ++ t) (ha : ∀ j ∈ P.free p, 2 ^ p ∣ j) (hi : 2 ^ p ∣ i)
    (hs : ∀ j ∈ s.getLast?, j < i ∧ ¬(2 ^ (p + 1) ∣ j ∧ i = j + 2 ^ p))
    (ht : ∀ j ∈ t.head?, i < j ∧ ¬(2 ^ (p + 1) ∣ i ∧ j = i + 2 ^ p)) : (P.setFree p <| s ++ i :: t).Merged n := by
  by_cases hp : p < n
  case neg => exact h.setFree (fun hp' => absurd hp' hp) fun hp' => absurd hp' hp
  have ⟨hss, htt, hst⟩ := List.pairwise_append.mp <| hf ▸ h.sorted hp
  -- The neighbours bound all the other blocks.
  have hls : ∀ j ∈ s, j < i := fun j hj => by
    have ⟨k, hk, hjk⟩ := exists_getLast_of_mem hss hj
    exact hjk.trans_lt (hs k hk).1
  have hlt : ∀ j ∈ t, i < j := fun j hj => by
    have ⟨k, hk, hkj⟩ := exists_head_of_mem htt hj
    exact (ht k hk).1.trans_le hkj
  have h₀ : 0 < 2 ^ p := by positivity
  apply h.setFree
  case hs =>
    intro _
    refine List.pairwise_append.mpr ⟨hss, List.pairwise_cons.mpr ⟨hlt, htt⟩, ?_⟩
    intro j hj k hk
    cases hk
    case head    => exact hls j hj
    case tail hk => exact hst j hj k hk
  case ha =>
    intro _ j hj hd hk
    have hm : ∀ k, k ∈ s ++ i :: t ↔ k = i ∨ k ∈ s ++ t := fun k => by simp [or_left_comm]
    cases (hm _).mp hj
    case inl he =>
      subst he
      -- The second half lies behind the block, so no block of the list is in between.
      have hk : j + 2 ^ p ∈ t := by
        have hn : j + 2 ^ p ∉ s := fun hs => absurd (hls _ hs) (by omega)
        simpa [hn, h₀.ne'] using hk
      have ⟨k, hkt, hkj⟩ := exists_head_of_mem htt hk
      have ⟨hjk, hn⟩ := ht k hkt
      have := add_le_of_dvd hi (ha k <| by simp [hf, List.mem_of_head? hkt]) hjk
      exact hn ⟨hd, by omega⟩
    case inr hj =>
      cases (hm _).mp hk
      case inr hk => exact h.apart hp (hf ▸ hj) hd (hf ▸ hk)
      case inl hk =>
        -- The first half lies before the block.
        have hj : j ∈ s := by
          have hn : j ∉ t := fun ht => absurd (hlt _ ht) (by omega)
          simpa [hn] using hj
        have ⟨k, hks, hjk⟩ := exists_getLast_of_mem hss hj
        have ⟨hki, hn⟩ := hs k hks
        have := add_le_of_dvd (ha k <| by simp [hf, List.mem_of_getLast? hks]) hi hki
        have he : j = k := by omega
        exact hn ⟨he ▸ hd, by omega⟩

-- A block whose units are all free is a part of a free block.
theorem exists_of_covered (h : P.Merged n) (ha : P.Aligned n) (hj : 2 ^ q ∣ j)
    (hc : ∀ x, j ≤ x → x < j + 2 ^ q → P.Covered n x) :
    ∃ p i, q ≤ p ∧ p < n ∧ i ∈ P.free p ∧ i ≤ j ∧ j + 2 ^ q ≤ i + 2 ^ p := by
  induction q generalizing j
  case zero =>
    have ⟨p, i, hp, hi, h₁, h₂⟩ := hc j le_rfl (by simp)
    exact ⟨p, i, p.zero_le, hp, hi, h₁, h₂⟩
  case succ q hi =>
    have h₀ : 0 < 2 ^ q := by positivity
    have h₁ : 2 ^ (q + 1) = 2 ^ q + 2 ^ q := by omega
    have hd : 2 ^ q ∣ j := (Nat.pow_dvd_pow 2 q.le_succ).trans hj
    have ⟨p₁, i₁, hq₁, hp₁, hm₁, hl₁, hu₁⟩ := hi hd fun x hx hx' => hc x hx (by omega)
    have ⟨p₂, i₂, hq₂, hp₂, hm₂, hl₂, hu₂⟩ := hi (Nat.dvd_add_self_right.mpr hd) fun x hx hx' =>
      hc x (by omega) (by omega)
    -- A block of a larger order that has one half has the other one too.
    cases Nat.eq_or_lt_of_le hq₁
    case inr hq =>
      have := block_le_of_mem hq hj (ha p₁ hp₁ i₁ hm₁) (x := j) (by omega) (by omega)
      exact ⟨p₁, i₁, hq, hp₁, hm₁, this⟩
    case inl hq =>
      subst hq
      cases Nat.eq_or_lt_of_le hq₂
      case inr hq =>
        have := block_le_of_mem hq hj (ha p₂ hp₂ i₂ hm₂) (x := j + 2 ^ q) (by omega) (by omega)
        exact ⟨p₂, i₂, hq, hp₂, hm₂, this⟩
      case inl hq =>
        subst hq
        obtain rfl : i₁ = j := by omega
        obtain rfl : i₂ = i₁ + 2 ^ q := by omega
        exact absurd hm₂ <| h.apart hp₁ hm₁ hj

theorem mem_of_mem (h : P.Merged n) (h' : P'.Merged n) (ha : P.Aligned n) (ha' : P'.Aligned n)
    (e : P.Exclusive n) (hc : ∀ x, P.Covered n x ↔ P'.Covered n x) (hp : p < n) (hi : i ∈ P.free p) :
    i ∈ P'.free p := by
  have h₀ : 0 < 2 ^ p := by positivity
  -- The block is a part of a block of the other pool, which in turn is a part of a block of this one.
  have ⟨q, j, hpq, hq, hj, hl, hu⟩ := h'.exists_of_covered ha' (ha p hp i hi) fun x hx hx' =>
    (hc x).mp ⟨p, i, hp, hi, hx, hx'⟩
  have ⟨r, k, hqr, hr, hk, hl', hu'⟩ := h.exists_of_covered ha (ha' q hq j hj) fun x hx hx' =>
    (hc x).mpr ⟨q, j, hq, hj, hx, hx'⟩
  -- Both blocks of this pool have the unit `i`.
  obtain rfl : p = r := by
    by_contra hn
    exact e.free_apart hp hr hi hk (by simp [Ne.symm hn]) (x := i) (by omega) (by omega)
  obtain rfl : p = q := Nat.le_antisymm hpq hqr
  obtain rfl : j = i := by omega
  exact hj

-- The free units determine the lists.
theorem free_eq (h : P.Merged n) (h' : P'.Merged n) (ha : P.Aligned n) (ha' : P'.Aligned n)
    (e : P.Exclusive n) (e' : P'.Exclusive n) (hc : ∀ x, P.Covered n x ↔ P'.Covered n x) (hp : p < n) :
    P.free p = P'.free p :=
  (h.sorted hp).eq_of_mem_iff (h'.sorted hp) fun _ =>
    ⟨h.mem_of_mem h' ha ha' e hc hp, h'.mem_of_mem h ha' ha e' (fun x => (hc x).symm) hp⟩

end Merged

end Pool
