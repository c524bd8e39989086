import Zgmos.Buddy.Basic
import Zgmos.Fat32.Bio

-- `fat32_init` and what it accepts.

namespace Zgmos.Fat32

-- The number of bytes of a disk operation.
def diskBytes : Nat :=
  512

abbrev BootSector := Block diskBytes Byte

namespace BootSector

-- The number in `n` bytes at an offset, the first of which is the lowest one.
def field (bpb : BootSector) (offset : Nat) : (n : Nat) → Nat
  | 0     => 0
  | n + 1 => (if h : offset < diskBytes then (bpb ⟨offset, h⟩).toNat else 0) + 256 * bpb.field (offset + 1) n

variable (bpb : BootSector)

-- The members of `struct fat32_bpb` which are read.

def bytePerSec : Nat := bpb.field 11 2
def secPerClus : Nat := bpb.field 13 1
def rsvdSecCnt : Nat := bpb.field 14 2
def numFATs    : Nat := bpb.field 16 1
def hiddSec    : Nat := bpb.field 28 4
def toSec32    : Nat := bpb.field 32 4
def fatSz32    : Nat := bpb.field 36 4
def rootClus   : Nat := bpb.field 44 4

end BootSector

-- The members of `struct fat32_fs` with the size of the volume.
structure Fat32Geometry extends Fat32Fs where
  totalSector : Sidx
  secPerTable : BitVec 32
  tableNum    : Nat
  tableSidx   : Sidx
  clusterNum  : BitVec 32

def bufNum (bytePerSector order : Nat) : Nat :=
  2 ^ order * pageSize / bytePerSector % 2 ^ 32

theorem bufNum_mul_le (bytePerSector order : Nat) :
    bytePerSector * bufNum bytePerSector order ≤ 2 ^ order * pageSize :=
  (Nat.mul_le_mul_left _ <| Nat.mod_le ..).trans <| Nat.mul_div_le ..

theorem pages_lt {order : Nat} (h : ¬Buddy.maxBlockPow ≤ order) : 2 ^ order * pageSize < 2 ^ 32 := by
  have : 2 ^ order ≤ 2 ^ 11 := Nat.pow_le_pow_right (by decide) <| Nat.le_of_lt_succ <| Nat.lt_of_not_le h
  simp only [pageSize]
  omega

-- `answers` tells which allocations would succeed. The first one is that of `struct fat32_fs`. What the
-- boot sector says about the position and the size of the volume is preferred to the arguments.
def fat32Init (answers : Nat → Bool) (bpb : BootSector) (bufOrder : BitVec 8) :
    Except Fault (Option Fat32Geometry) :=
  if !answers 0 then
    return none
  else if h : Buddy.maxBlockPow ≤ bufOrder.toNat then
    throw .outOfBounds
  else if !answers 1 then
    return none
  else if bpb.bytePerSec = 0 then
    throw .divByZero
  else
    let bufNum := bufNum bpb.bytePerSec bufOrder.toNat
    let kmalloc k size := answers k && size ≤ kmallocMax
    if !kmalloc 2 (4 * bufNum) || !kmalloc 3 bufNum || !kmalloc 4 (16 * bufNum) then
      return none
    else
      return some {
        dsidx            := .ofNat 32 bpb.hiddSec
        bytePerSector    := bpb.bytePerSec
        secPerCluster    := bpb.secPerClus
        reservedSecCnt   := bpb.rsvdSecCnt
        rootCidx         := .ofNat 32 bpb.rootClus
        firstClusterSidx := .ofNat 32 <| bpb.fatSz32 * bpb.numFATs + bpb.rsvdSecCnt
        bufNum           := bufNum
        fits             := (bufNum_mul_le ..).trans_lt <| pages_lt h
        totalSector      := .ofNat 32 bpb.toSec32
        secPerTable      := .ofNat 32 bpb.fatSz32
        tableNum         := bpb.numFATs
        tableSidx        := .ofNat 32 bpb.rsvdSecCnt
        clusterNum       := .ofNat 32 <| bpb.bytePerSec * bpb.fatSz32 % 2 ^ 32 / 4 + u64 - 2
      }

-- The divisors are not zero. The buffers of different sectors are disjoint for transfers of the disk,
-- which stay inside of the pages.
structure Usable (fs : Fat32Fs) (order : Nat) : Prop where
  bytePerSector  : diskBytes ≤ fs.bytePerSector
  secPerCluster  : 1 ≤ fs.secPerCluster
  chainPerSector : 1 ≤ fs.chainPerSector
  bufNum         : 1 ≤ fs.bufNum
  disjoint       : ∀ (b : Bio fs) i j, i < fs.bufNum → j < fs.bufNum → i ≠ j →
    b.bidx2addr i + diskBytes ≤ b.bidx2addr j ∨ b.bidx2addr j + diskBytes ≤ b.bidx2addr i
  inside         : ∀ (b : Bio fs) i, i < fs.bufNum → b.bidx2addr i + diskBytes ≤ 2 ^ order * pageSize

-- The boot sectors that `fat32_init` should accept.
structure BootSector.Valid (bpb : BootSector) (order : Nat) : Prop where
  bytePerSec : diskBytes ≤ bpb.bytePerSec
  secPerClus : 1 ≤ bpb.secPerClus
  fits       : bpb.bytePerSec ≤ 2 ^ order * pageSize

variable {answers : Nat → Bool} {bpb : BootSector} {bufOrder : BitVec 8} {fs : Fat32Geometry}

theorem fat32Init_eq_some (h : fat32Init answers bpb bufOrder = .ok (some fs)) :
    fs.bytePerSector = bpb.bytePerSec ∧ fs.secPerCluster = bpb.secPerClus ∧
      fs.bufNum = bufNum bpb.bytePerSec bufOrder.toNat ∧ bufOrder.toNat < Buddy.maxBlockPow := by
  simp only [fat32Init] at h
  split_ifs at h
  all_goals simp only [pure, Except.pure, Except.ok.injEq, Option.some.injEq, reduceCtorEq] at h
  subst h
  exact ⟨rfl, rfl, rfl, by omega⟩

theorem fat32Init_sectors (h : fat32Init answers bpb bufOrder = .ok (some fs)) :
    fs.totalSector = .ofNat 32 bpb.toSec32 ∧
      fs.firstClusterSidx = .ofNat 32 (bpb.fatSz32 * bpb.numFATs + bpb.rsvdSecCnt) := by
  simp only [fat32Init] at h
  split_ifs at h
  all_goals simp only [pure, Except.pure, Except.ok.injEq, Option.some.injEq, reduceCtorEq] at h
  subst h
  exact ⟨rfl, rfl⟩

theorem fat32Init_accepts (ha : ∀ k, answers k) (ho : bufOrder.toNat < Buddy.maxBlockPow)
    (hb : bpb.bytePerSec ≠ 0) (hn : 16 * bufNum bpb.bytePerSec bufOrder.toNat ≤ kmallocMax) :
    ∃ fs, fat32Init answers bpb bufOrder = .ok (some fs) := by
  have h₁ : bufNum bpb.bytePerSec bufOrder.toNat ≤ kmallocMax := by omega
  have h₄ : 4 * bufNum bpb.bytePerSec bufOrder.toNat ≤ kmallocMax := by omega
  simp only [fat32Init, ha, Nat.not_le.mpr ho, hb, h₁, h₄, hn]
  exact ⟨_, rfl⟩

section Buffers

variable {fs : Fat32Fs} {b : Bio fs} {i j : Nat}

theorem bidx2addr_eq (h : i < fs.bufNum) : b.bidx2addr i = fs.bytePerSector * i :=
  Nat.mod_eq_of_lt <| (Nat.mul_le_mul_left _ h.le).trans_lt fs.fits

theorem bidx2addr_add_le (hb : diskBytes ≤ fs.bytePerSector) (hi : i < fs.bufNum) (h : i < j) :
    b.bidx2addr i + diskBytes ≤ fs.bytePerSector * j := by
  rw [bidx2addr_eq hi]
  calc
    fs.bytePerSector * i + diskBytes ≤ fs.bytePerSector * (i + 1) := Nat.add_le_add_left hb _
    _ ≤ fs.bytePerSector * j                                      := Nat.mul_le_mul_left _ h

end Buffers

-- The accepted geometry can be used just if the boot sector is valid.
theorem usable_iff_valid (h : fat32Init answers bpb bufOrder = .ok (some fs)) :
    Usable fs.toFat32Fs bufOrder.toNat ↔ bpb.Valid bufOrder.toNat := by
  have ⟨hb, hs, hn, ho⟩ := fat32Init_eq_some h
  have hp : 2 ^ bufOrder.toNat * pageSize < 2 ^ 32 := pages_lt <| Nat.not_le.mpr ho
  have hl : fs.bytePerSector * fs.bufNum ≤ 2 ^ bufOrder.toNat * pageSize := by
    rw [hb, hn]
    exact bufNum_mul_le ..
  constructor
  case mp =>
    intro u
    refine ⟨hb ▸ u.bytePerSector, hs ▸ u.secPerCluster, ?_⟩
    exact (Nat.le_mul_of_pos_right _ u.bufNum).trans <| hb ▸ hl
  case mpr =>
    intro w
    have hd : diskBytes ≤ fs.bytePerSector := hb ▸ w.bytePerSec
    have hpos : 0 < bpb.bytePerSec := Nat.lt_of_lt_of_le (by decide) w.bytePerSec
    refine ⟨hd, hs ▸ w.secPerClus, ?_, ?_, fun b i j hi hj hne => ?_, fun b i hi => ?_⟩
    case refine_1 => exact Nat.div_pos (le_trans (by decide) hd) (by decide)
    case refine_2 =>
      have hm : 2 ^ bufOrder.toNat * pageSize / bpb.bytePerSec < 2 ^ 32 := (Nat.div_le_self ..).trans_lt hp
      rw [hn, bufNum, Nat.mod_eq_of_lt hm]
      exact Nat.div_pos w.fits hpos
    case refine_3 =>
      cases Nat.lt_or_gt_of_ne hne
      case inl h => exact .inl <| bidx2addr_eq (b := b) hj ▸ bidx2addr_add_le hd hi h
      case inr h => exact .inr <| bidx2addr_eq (b := b) hi ▸ bidx2addr_add_le hd hj h
    case refine_4 => exact (bidx2addr_add_le hd hi hi).trans hl

-- A boot sector with the given bytes, all others are zero.
def bootSector (bytes : List (Nat × Byte)) : BootSector :=
  fun k => (bytes.lookup k.val).getD 0

-- 512 bytes in a sector and eight sectors in a cluster.
theorem eightSectors_usable : ∃ fs, fat32Init (fun _ => true) (bootSector [(12, 2), (13, 8)]) 1 = .ok (some fs) ∧
    Usable fs.toFat32Fs 1 := by
  have ⟨fs, h⟩ : ∃ fs, fat32Init (fun _ => true) (bootSector [(12, 2), (13, 8)]) 1 = .ok (some fs) :=
    fat32Init_accepts (fun _ => rfl) (by decide) (by decide) (by decide)
  exact ⟨fs, h, (usable_iff_valid h).mpr ⟨by decide, by decide, by decide⟩⟩

-- A boot sector without the number of sectors in a cluster is accepted, and so is one whose sectors are
-- larger than the buffers.
theorem invalid_accepted :
    (∃ fs, fat32Init (fun _ => true) (bootSector [(12, 2)]) 1 = .ok (some fs) ∧ ¬Usable fs.toFat32Fs 1) ∧
    ∃ fs, fat32Init (fun _ => true) (bootSector [(12, 255), (13, 8)]) 1 = .ok (some fs) ∧
      ¬Usable fs.toFat32Fs 1 := by
  constructor
  case left =>
    have ⟨fs, h⟩ : ∃ fs, fat32Init (fun _ => true) (bootSector [(12, 2)]) 1 = .ok (some fs) :=
      fat32Init_accepts (fun _ => rfl) (by decide) (by decide) (by decide)
    exact ⟨fs, h, fun u => absurd ((usable_iff_valid h).mp u).secPerClus <| by decide⟩
  case right =>
    have ⟨fs, h⟩ : ∃ fs, fat32Init (fun _ => true) (bootSector [(12, 255), (13, 8)]) 1 = .ok (some fs) :=
      fat32Init_accepts (fun _ => rfl) (by decide) (by decide) (by decide)
    exact ⟨fs, h, fun u => absurd ((usable_iff_valid h).mp u).fits <| by decide⟩

end Zgmos.Fat32
