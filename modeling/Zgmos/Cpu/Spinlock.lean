import Zgmos.Kernel.Fault

namespace Zgmos.Cpu

-- A lock is identified with the address of its `struct spinlock`.
abbrev Lock := Nat

structure Spinlock where
  locked : Nat
  cpuId  : BitVec 32

def hartNum : Nat :=
  2

-- A hart with its entry of `cpus` and the locks in the memory.
structure Hart where
  hartid    : Fin hartNum
  sstatus   : BitVec 64
  intDepth  : Int
  intEnable : BitVec 64
  locks     : Lock → Spinlock

namespace Hart

def sstatusSie : BitVec 64 :=
  1 <<< 1

def intrOff (h : Hart) : Hart :=
  { h with sstatus := h.sstatus &&& ~~~sstatusSie }

def intrOn (h : Hart) : Hart :=
  { h with sstatus := h.sstatus ||| sstatusSie }

def intrGet (h : Hart) : BitVec 64 :=
  h.sstatus &&& sstatusSie

def cpuIntPush (h : Hart) : Hart :=
  let old := h.intrGet
  let h := h.intrOff
  let h := if h.intDepth = 0 then { h with intEnable := old } else h
  { h with intDepth := h.intDepth + 1 }

def cpuIntPop (h : Hart) : Hart :=
  let h := { h with intDepth := h.intDepth - 1 }
  if h.intDepth = 0 ∧ h.intrGet ≠ 0 then h.intrOn else h

def setLock (h : Hart) (lk : Lock) (locked : Nat) (cpuId : BitVec 32) : Hart :=
  { h with locks := Function.update h.locks lk { locked, cpuId } }

def spinlockInit (h : Hart) (lk : Lock) : Hart :=
  h.setLock lk 0 (-1)

def spinlockHolding (h : Hart) (lk : Lock) : Bool :=
  (h.locks lk).locked ≠ 0 ∧ (h.locks lk).cpuId.signExtend 64 = BitVec.ofNat 64 h.hartid

-- The loop of `spinlock_acquire` does not end while the lock is held. Only this hart is running.
def spinlockAcquire (h : Hart) (lk : Lock) : Except Fault Hart :=
  let h := h.cpuIntPush
  if h.spinlockHolding lk then
    .error .panic
  else if (h.locks lk).locked ≠ 0 then
    .error .panic
  else
    .ok <| h.setLock lk 1 (.ofNat 32 h.hartid)

def spinlockRelease (h : Hart) (lk : Lock) : Except Fault Hart :=
  if ¬h.spinlockHolding lk then
    .error .panic
  else
    .ok (h.setLock lk 0 (-1)).cpuIntPop

variable {h : Hart} {l : Lock}

-- The bit SIE of the status register: interrupts are enabled.
def sie (h : Hart) : Prop :=
  h.intrGet ≠ 0

instance : Decidable h.sie :=
  inferInstanceAs <| Decidable (_ ≠ _)

theorem intrOff_not_sie (h : Hart) : ¬h.intrOff.sie := by
  simp [sie, intrGet, intrOff, BitVec.and_assoc]

theorem cpuIntPush_eq (h : Hart) : ∃ e,
    h.cpuIntPush = { h.intrOff with intEnable := e, intDepth := h.intDepth + 1 } := by
  unfold cpuIntPush
  by_cases hd : h.intDepth = 0
  case pos => exact ⟨_, by simp [hd, intrOff]; rfl⟩
  case neg => exact ⟨h.intEnable, by simp [hd, intrOff]⟩

-- Interrupts are only enabled if they are enabled already.
theorem cpuIntPop_eq (hs : ¬h.sie) : h.cpuIntPop = { h with intDepth := h.intDepth - 1 } := by
  simp only [sie, ne_eq, not_not, intrGet] at hs
  simp [cpuIntPop, intrGet, hs]

theorem hartid_signExtend (i : Fin hartNum) :
    (BitVec.ofNat 32 i).signExtend 64 = BitVec.ofNat 64 i := by
  revert i
  decide

theorem spinlockAcquire_ok (hl : (h.locks l).locked = 0) : ∃ e, h.spinlockAcquire l =
    .ok (setLock { h.intrOff with intEnable := e, intDepth := h.intDepth + 1 } l 1
      (.ofNat 32 h.hartid)) := by
  have ⟨e, he⟩ := h.cpuIntPush_eq
  exists e
  simp [spinlockAcquire, he, spinlockHolding, intrOff, hl]

theorem spinlockRelease_ok (hl : h.spinlockHolding l) (hs : ¬h.sie) : h.spinlockRelease l =
    .ok { h.setLock l 0 (-1) with intDepth := h.intDepth - 1 } := by
  have hs : ¬(h.setLock l 0 (-1)).sie := hs
  rw [spinlockRelease, if_neg (by simp [hl]), cpuIntPop_eq hs]
  rfl

end Hart
end Zgmos.Cpu
