import Mathlib

-- The copying of bytes.

namespace Zgmos.Kustd

abbrev Word := BitVec 64

abbrev Bytes := Word → BitVec 8

-- The first iterations of the loop of `memcpy`.
def copyBytes (mem : Bytes) (dest src : Word) : Nat → Bytes
  | 0     => mem
  | i + 1 =>
    let mem := copyBytes mem dest src i
    Function.update mem (dest + .ofNat 64 i) <| mem (src + .ofNat 64 i)

def memcpy (mem : Bytes) (dest src num : Word) : Bytes :=
  copyBytes mem dest src num.toNat

def memmove (mem : Bytes) (dest src num : Word) : Bytes :=
  memcpy mem dest src num

-- What is wanted of `memmove`.
structure Moved (mem : Bytes) (dest src num : Word) (mem' : Bytes) : Prop where
  moved : ∀ i < num.toNat, mem' (dest + .ofNat 64 i) = mem (src + .ofNat 64 i)
  frame : ∀ a, num ≤ a - dest → mem' a = mem a

-- How far `dest` is behind `src`.
def distance (dest src : Word) : Nat :=
  (dest - src).toNat

variable {mem : Bytes} {dest src num a : Word} {i j k n : Nat}

theorem ofNat_inj (hi : i < 2 ^ 64) (hj : j < 2 ^ 64) (h : BitVec.ofNat 64 i = .ofNat 64 j) : i = j := by
  have := congrArg BitVec.toNat h
  rwa [BitVec.toNat_ofNat, BitVec.toNat_ofNat, Nat.mod_eq_of_lt hi, Nat.mod_eq_of_lt hj] at this

theorem ofNat_distance : BitVec.ofNat 64 (distance dest src) = dest - src := by
  rw [distance, BitVec.ofNat_toNat, BitVec.setWidth_eq]

-- The byte at the end of the distance is that of `dest`.
theorem add_distance (h : distance dest src ≤ i) :
    src + .ofNat 64 i = dest + .ofNat 64 (i - distance dest src) := by
  have hi : BitVec.ofNat 64 i = .ofNat 64 (i - distance dest src) + (dest - src) := by
    rw [← ofNat_distance, ← BitVec.ofNat_add, Nat.sub_add_cancel h]
  rw [hi]
  ring

-- The bytes before the distance are in front of `dest`.
theorem ne_of_lt_distance (h : i < distance dest src) (hj : j ≤ i) : src + .ofNat 64 i ≠ dest + .ofNat 64 j := by
  intro he
  have hlt : distance dest src < 2 ^ 64 := (dest - src).isLt
  have hd : BitVec.ofNat 64 (i - j) = .ofNat 64 (distance dest src) := by
    have hi : BitVec.ofNat 64 i = .ofNat 64 (i - j) + .ofNat 64 j := by
      rw [← BitVec.ofNat_add, Nat.sub_add_cancel hj]
    rw [hi, ← BitVec.add_assoc, BitVec.add_left_inj] at he
    rw [ofNat_distance, ← he, BitVec.add_comm src, BitVec.add_sub_cancel]
  have := ofNat_inj (by omega) hlt hd
  omega

theorem copyBytes_of_forall_ne (h : ∀ i < n, a ≠ dest + .ofNat 64 i) : copyBytes mem dest src n a = mem a := by
  induction n
  case zero => rfl
  case succ n hi =>
    rw [copyBytes, Function.update_of_ne <| h n n.lt_succ_self]
    exact hi fun i hlt => h i <| Nat.lt_succ_of_lt hlt

-- A byte which has been copied is not written again.
theorem copyBytes_dest (hk : k < n) (hn : n ≤ 2 ^ 64) :
    copyBytes mem dest src n (dest + .ofNat 64 k) = copyBytes mem dest src k (src + .ofNat 64 k) := by
  induction n
  case zero => exact absurd hk k.not_lt_zero
  case succ n hi =>
    rw [copyBytes]
    cases Nat.lt_succ_iff_lt_or_eq.mp hk
    case inl hlt =>
      have hne : dest + .ofNat 64 k ≠ dest + .ofNat 64 n := by
        intro he
        exact hlt.ne <| ofNat_inj (by omega) (by omega) <| (BitVec.add_right_inj _).mp he
      rw [Function.update_of_ne hne]
      exact hi hlt <| by omega
    case inr he => rw [he, Function.update_self]

-- From the distance on the loop reads what it has written.
theorem copyBytes_spec (hk : k < n) (hn : n ≤ 2 ^ 64) : copyBytes mem dest src n (dest + .ofNat 64 k) =
    if 0 < distance dest src ∧ distance dest src ≤ k then
      copyBytes mem dest src n (dest + .ofNat 64 (k - distance dest src))
    else
      mem (src + .ofNat 64 k) := by
  rw [copyBytes_dest hk hn]
  split_ifs
  case pos h =>
    have hlt : k - distance dest src < k := by omega
    rw [add_distance h.2, copyBytes_dest hlt (by omega), copyBytes_dest (hlt.trans hk) hn]
  case neg h =>
    apply copyBytes_of_forall_ne
    intro j hj he
    by_cases hd : k < distance dest src
    case pos => exact ne_of_lt_distance hd hj.le he
    case neg =>
      have hz : distance dest src = 0 := by omega
      rw [add_distance <| Nat.not_lt.mp hd, hz, Nat.sub_zero, BitVec.add_right_inj] at he
      exact hj.ne' <| ofNat_inj (by omega) (by omega) he

theorem memcpy_frame (h : num ≤ a - dest) : memcpy mem dest src num a = mem a := by
  apply copyBytes_of_forall_ne
  intro i hi he
  have h : num.toNat ≤ (a - dest).toNat := BitVec.le_def.mp h
  have hn := num.isLt
  rw [he, BitVec.add_comm, BitVec.add_sub_cancel, BitVec.toNat_ofNat, Nat.mod_eq_of_lt (by omega)] at h
  omega

-- The bytes of another part of the memory are copied as they are.
theorem memcpy_of_disjoint (h : ∀ i < num.toNat, ∀ j < num.toNat, src + .ofNat 64 i ≠ dest + .ofNat 64 j)
    (hk : k < num.toNat) : memcpy mem dest src num (dest + .ofNat 64 k) = mem (src + .ofNat 64 k) :=
  (copyBytes_dest hk num.isLt.le).trans <| copyBytes_of_forall_ne fun i hi => h k hk i <| hi.trans hk

-- The bytes are moved iff those which are overwritten before they are read are replaced by equal ones.
theorem memmove_iff : Moved mem dest src num (memmove mem dest src num) ↔
    ∀ i < num.toNat, distance dest src ≤ i →
      mem (src + .ofNat 64 i) = mem (src + .ofNat 64 (i - distance dest src)) := by
  have hn : num.toNat ≤ 2 ^ 64 := num.isLt.le
  constructor
  case mp =>
    intro h i hi hd
    by_cases hz : 0 < distance dest src
    case neg => rw [Nat.eq_zero_of_not_pos hz, Nat.sub_zero]
    case pos =>
      have hs : memmove mem dest src num (dest + .ofNat 64 i) = _ := copyBytes_spec hi hn
      rw [if_pos ⟨hz, hd⟩, h.moved i hi] at hs
      exact hs.trans <| h.moved _ <| (Nat.sub_le ..).trans_lt hi
  case mpr =>
    intro h
    constructor
    case frame => exact fun _ => memcpy_frame
    case moved =>
      intro i hi
      induction i using Nat.strong_induction_on
      case h i ih =>
        have hs : memmove mem dest src num (dest + .ofNat 64 i) = _ := copyBytes_spec hi hn
        rw [hs]
        split_ifs
        case neg => rfl
        case pos hd =>
          have hlt : i - distance dest src < i := by omega
          exact (ih _ hlt <| hlt.trans hi).trans (h i hi hd.2).symm

-- The low byte of each address.
def lowBytes : Bytes :=
  fun a => a.setWidth 8

-- Two bytes which are moved by one.
theorem lowBytes_not_moved : ¬Moved lowBytes 1 0 2 (memmove lowBytes 1 0 2) := by
  intro h
  exact absurd (h.moved 1 (by decide)) (by decide)

end Zgmos.Kustd
