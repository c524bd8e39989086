import Zgmos.Kernel.Fault
import Zgmos.Kernel.Utils

namespace Zgmos.Pid

-- The array `map` with its `length`. An address of the machine has 56 bits.
structure Bitmap where
  map  : List (BitVec 8)
  fits : map.length ≤ 2 ^ 56

def toInt64 (n : Nat) : Int :=
  (n : Int).bmod (2 ^ 64)

-- The inner loop of `bitmap_alloc_bit`, which breaks at the first bit that is set.
def firstBit (byte : BitVec 8) : Option Nat :=
  (List.range 8).find? fun j => byte &&& 1#8 <<< j ≠ 0

def bitmapAllocBit (bm : Bitmap) : Int :=
  bm.map.zipIdx.foldl (fun ret (byte, i) =>
    match firstBit byte with
    | some j => toInt64 (i * 8 + j)
    | none   => ret) (-1)

def bitmapFreeBit (bm : Bitmap) (pos : Int) : Except Fault Bitmap :=
  if 0 ≤ pos ∧ pos.toNat / 8 < bm.map.length then
    .ok {
      map  := bm.map.modify (pos.toNat / 8) (· ||| 1#8 <<< (pos.toNat % 8))
      fits := by simpa using bm.fits
    }
  else
    .error .outOfBounds

-- The identifiers of processes are the positions of a bitmap that fills a page.
def pidAlloc (bm : Bitmap) : BitVec 32 :=
  .ofInt 32 (bitmapAllocBit bm)

def pidFree (bm : Bitmap) (pid : BitVec 32) : Except Fault Bitmap :=
  bitmapFreeBit bm pid.toInt

namespace Bitmap

variable {bm bm' : Bitmap} {bs : List (BitVec 8)} {byte : BitVec 8} {i j k p q : Nat} {r : Int}

def bits (bm : Bitmap) : Nat :=
  8 * bm.map.length

-- A set bit marks a free position.
def IsSet (map : List (BitVec 8)) (p : Nat) : Prop :=
  (map[p / 8]?.getD 0).getLsbD (p % 8)

instance : Decidable (IsSet bs p) :=
  inferInstanceAs <| Decidable (_ = true)

-- The search of `bitmap_alloc_bit` prefers later bytes and in a byte lower bits.
def Before (p q : Nat) : Prop :=
  p / 8 < q / 8 ∨ p / 8 = q / 8 ∧ q % 8 < p % 8

instance : Decidable (Before p q) :=
  inferInstanceAs <| Decidable (_ ∨ _)

theorem Before.asymm (h : Before p q) : ¬Before q p := by
  simp only [Before] at *
  omega

theorem IsSet.lt (h : IsSet bs p) : p < 8 * bs.length := by
  by_contra hc
  simp [IsSet, List.getElem?_eq_none (show bs.length ≤ p / 8 by omega)] at h

theorem isSet_append (hp : p < 8 * bs.length) : IsSet (bs ++ [byte]) p ↔ IsSet bs p := by
  simp [IsSet, List.getElem?_append_left (show p / 8 < bs.length by omega)]

theorem isSet_append_last (hp : p / 8 = bs.length) : IsSet (bs ++ [byte]) p ↔ byte.getLsbD (p % 8) := by
  simp [IsSet, hp]

theorem and_bit_ne_zero : ∀ (byte : BitVec 8), ∀ j < 8,
    (byte &&& 1#8 <<< j ≠ 0) ↔ byte.getLsbD j := by
  decide +kernel

theorem firstBit_eq_some (h : firstBit byte = some j) :
    j < 8 ∧ byte.getLsbD j ∧ ∀ k < j, ¬byte.getLsbD k := by
  have ⟨hj, hl, hk⟩ := List.find?_range_eq_some.mp h
  have hl := List.mem_range.mp hl
  refine ⟨hl, ?_, fun k hkj => ?_⟩
  case refine_1 => exact (and_bit_ne_zero byte j hl).mp <| by simpa using hj
  case refine_2 =>
    rw [← and_bit_ne_zero byte k (by omega)]
    simpa using hk k hkj

theorem firstBit_eq_none (h : firstBit byte = none) (hj : j < 8) : ¬byte.getLsbD j := by
  rw [← and_bit_ne_zero byte j hj]
  simpa using List.find?_eq_none.mp h j (List.mem_range.mpr hj)

-- What the search of `bitmap_alloc_bit` finds.
inductive Finds (bs : List (BitVec 8)) : Int → Prop
  | none (h : ∀ p, ¬IsSet bs p) : Finds bs (-1)
  | some (p : Nat) (hp : IsSet bs p) (h : ∀ q, IsSet bs q → q = p ∨ Before q p) : Finds bs (toInt64 p)

theorem Finds.append_of_none (w : Finds bs r) (h : firstBit byte = Option.none) :
    Finds (bs ++ [byte]) r := by
  -- The bits of the new byte are all clear.
  have he q : IsSet (bs ++ [byte]) q ↔ IsSet bs q := by
    constructor
    case mpr => exact fun hq => (isSet_append hq.lt).mpr hq
    case mp =>
      intro hq
      by_cases hl : q < 8 * bs.length
      case pos => exact (isSet_append hl).mp hq
      case neg =>
        have hq' := hq.lt
        simp only [List.length_append, List.length_singleton] at hq'
        rw [isSet_append_last (by omega)] at hq
        exact absurd hq <| firstBit_eq_none h (by omega)
  cases w
  case none h      => exact .none fun p => (he p).not.mpr (h p)
  case some p hp h => exact .some p ((he p).mpr hp) fun q hq => h q ((he q).mp hq)

theorem Finds.append_of_some (h : firstBit byte = Option.some j) :
    Finds (bs ++ [byte]) (toInt64 (bs.length * 8 + j)) := by
  have ⟨hj, hb, hk⟩ := firstBit_eq_some h
  apply Finds.some
  case hp =>
    rw [isSet_append_last (by omega)]
    rwa [show (bs.length * 8 + j) % 8 = j by omega]
  case h =>
    intro q hq
    have hq' := hq.lt
    simp only [List.length_append, List.length_singleton] at hq'
    by_cases hl : q < 8 * bs.length
    case pos => exact .inr <| .inl (by omega)
    case neg =>
      rw [isSet_append_last (by omega)] at hq
      have : ¬q % 8 < j := fun hc => hk _ hc hq
      simp only [Before]
      omega

theorem bitmapAllocBit_finds (bm : Bitmap) : Finds bm.map (bitmapAllocBit bm) := by
  rw [bitmapAllocBit]
  induction bm.map using List.reverseRecOn
  case nil => exact .none fun p => by simp [IsSet]
  case append_singleton bs byte w =>
    simp only [List.zipIdx_append, List.foldl_append, List.zipIdx_singleton, List.foldl_cons,
      List.foldl_nil, Nat.zero_add]
    cases h : firstBit byte
    case none => exact w.append_of_none h
    case some => exact Finds.append_of_some h

theorem toInt64_eq (h : p < 2 ^ 63) : toInt64 p = p := by
  have : (p : Int) < 2 ^ 63 := by exact_mod_cast h
  unfold toInt64
  rw [Int.bmod_eq_of_le]
  case hn' => norm_num
  case hn  => norm_num; omega

-- The position that `bitmap_alloc_bit` returns.
theorem bitmapAllocBit_cases (bm : Bitmap) :
    bitmapAllocBit bm = -1 ∧ (∀ p, ¬IsSet bm.map p) ∨
      ∃ p : Nat, bitmapAllocBit bm = p ∧ IsSet bm.map p ∧ ∀ q, IsSet bm.map q → q = p ∨ Before q p := by
  have w := bitmapAllocBit_finds bm
  generalize bitmapAllocBit bm = r at w
  cases w
  case none h => exact .inl ⟨rfl, h⟩
  case some p hp h =>
    have := hp.lt
    have := bm.fits
    exact .inr ⟨p, toInt64_eq (by omega), hp, h⟩

theorem getLsbD_or_bit (byte : BitVec 8) (i : Nat) (hj : j < 8) :
    (byte ||| 1#8 <<< i).getLsbD j ↔ byte.getLsbD j ∨ j = i := by
  simp only [BitVec.getLsbD_or, BitVec.getLsbD_shiftLeft, BitVec.getLsbD_one, hj, Bool.or_eq_true,
    decide_true, Bool.true_and, Bool.and_eq_true, Bool.not_eq_true', decide_eq_true_eq,
    decide_eq_false_iff_not]
  grind

-- A position is freed by setting its bit and no other one.
theorem bitmapFreeBit_isSet (h : bitmapFreeBit bm p = .ok bm') :
    bm'.map.length = bm.map.length ∧ ∀ q, IsSet bm'.map q ↔ IsSet bm.map q ∨ q = p := by
  unfold bitmapFreeBit at h
  split at h
  case isFalse => nomatch h
  case isTrue hp =>
    cases h
    refine ⟨by simp, fun q => ?_⟩
    simp only [Int.toNat_natCast] at hp ⊢
    have hp := hp.2
    have hb := getLsbD_or_bit bm.map[p / 8] (p % 8) (show q % 8 < 8 by omega)
    by_cases hq : p / 8 = q / 8
    case pos =>
      have he : q % 8 = p % 8 ↔ q = p := by omega
      simpa [IsSet, List.getElem?_modify, ← hq, he, hp] using hb
    case neg =>
      have : q ≠ p := by
        rintro rfl
        exact hq rfl
      simp [IsSet, hq, this]

end Bitmap
end Zgmos.Pid
