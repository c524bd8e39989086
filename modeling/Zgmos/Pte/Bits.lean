import Zgmos.Pte.Basic

namespace Zgmos.Pte

variable {a flags pte : Word} {n i : Nat}

theorem allOneMask_eq : ∀ n ≤ 64, allOneMask n = BitVec.ofNat 64 (2 ^ n - 1) := by
  decide +kernel

theorem getLsbD_allOneMask (hn : n ≤ 64) (hi : i < 64) :
    (allOneMask n).getLsbD i = decide (i < n) := by
  rw [allOneMask_eq n hn, BitVec.getLsbD_ofNat, Nat.testBit_two_pow_sub_one]
  simp [hi]

-- Addresses that are a multiple of 4096.
def Aligned (a : Word) : Prop :=
  align4K a = a

instance : Decidable (Aligned a) :=
  inferInstanceAs <| Decidable (_ = _)

theorem getLsbD_of_lt (h : flags.toNat < 2 ^ n) (hi : n ≤ i) : flags.getLsbD i = false :=
  Nat.testBit_lt_two_pow <| h.trans_le <| Nat.pow_le_pow_right (by decide) hi

theorem getLsbD_align4K : (align4K a).getLsbD i = (decide (12 ≤ i) && a.getLsbD i) := by
  by_cases hi : i < 64
  case pos =>
    have hm := getLsbD_allOneMask (n := 12) (by decide) hi
    simp only [align4K, BitVec.getLsbD_and, BitVec.getLsbD_not, hm, hi]
    grind
  case neg => simp [BitVec.getLsbD_of_ge _ _ (Nat.le_of_not_lt hi)]

theorem getLsbD_naddr : (pteNaddr a).getLsbD i = (decide (10 ≤ i) && a.getLsbD (2 + i)) := by
  simp only [pteNaddr, BitVec.getLsbD_ushiftRight, getLsbD_align4K]
  grind

theorem extractNaddr_naddr (h : flags.toNat < 2 ^ 10) :
    pteExtractNaddr (pteNaddr a ||| flags) = align4K a := by
  apply BitVec.eq_of_getLsbD_eq
  intro i hi
  have hf : 10 ≤ i - 2 → flags.getLsbD (i - 2) = false := getLsbD_of_lt h
  have hm := getLsbD_allOneMask (n := 12) (by decide) hi
  simp only [pteExtractNaddr, BitVec.getLsbD_and, BitVec.getLsbD_not, BitVec.getLsbD_shiftLeft,
    BitVec.getLsbD_or, getLsbD_naddr, getLsbD_align4K, hm, hi]
  grind

theorem extractFlags_naddr (h : flags.toNat < 2 ^ 10) :
    pteExtractFlags (pteNaddr a ||| flags) = flags := by
  apply BitVec.eq_of_getLsbD_eq
  intro i hi
  have hf : 10 ≤ i → flags.getLsbD i = false := getLsbD_of_lt h
  have hm := getLsbD_allOneMask (n := 10) (by decide) hi
  simp only [pteExtractFlags, BitVec.getLsbD_and, BitVec.getLsbD_or, getLsbD_naddr, hm]
  grind

theorem extractXwrv_naddr : pteExtractXwrv (pteNaddr a ||| flags) = pteExtractXwrv flags := by
  apply BitVec.eq_of_getLsbD_eq
  intro i hi
  have hm := getLsbD_allOneMask (n := 4) (by decide) hi
  simp only [pteExtractXwrv, BitVec.getLsbD_and, BitVec.getLsbD_or, getLsbD_naddr, hm]
  grind

end Zgmos.Pte
