import Zgmos.Trap.Tasks
import Zgmos.Lib.Run

namespace Zgmos.Trap

open Riscv Reg Csr
open Process (procVaTrapframe)

section Asm

variable {m : Machine} {a : Word}

theorem saved_offset : ∀ p ∈ saved, p.2 = (Field.reg p.1).offset := by
  decide

-- `uvec_enter_asm` writes to the places of the registers only.
theorem uvecEnterAsm_mem_of_ne (h : ∀ r, a ≠ address (m.csrs sscratch) (.reg r)) :
    (m.run uvecEnterAsm).mem a = m.mem a := by
  have hs : ∀ p ∈ saved, a ≠ offset ((m.exec <| .csrrw a0 sscratch a0).regs a0) p.2 := by
    intro p hp
    rw [saved_offset p hp]
    simpa [Machine.exec, address] using h p.1
  rw [uvecEnterAsm_mem_eq, Function.update_of_ne (h a0), run_stores_of_ne hs]
  rfl

theorem uvecRetAsm_mem : (m.run uvecRetAsm).mem = m.mem := by
  rw [uvecRetAsm_eq]
  simp [Machine.exec]

theorem uvecRetAsm_pc : (m.run uvecRetAsm).pc = m.csrs sepc := by
  rw [uvecRetAsm_eq]
  simp [Machine.exec]

end Asm

-- Of what concerns the tasks, at most that of one task is changed.
structure Frame {ι : Type} (ts : Tasks ι) (t : ι) (s s' : System ι) : Prop where
  field      : t' ≠ t → ts.field s'.mem t' f = ts.field s.mem t' f
  resume     : t' ≠ t → s'.resume t' = s.resume t'
  zombie     : t' ≠ t → s'.zombie t' = s.zombie t'
  exitStatus : t' ≠ t → s'.exitStatus t' = s.exitStatus t'

-- The members of the trapframe of a task in the kernel.
structure InKernel {ι : Type} (ts : Tasks ι) (s : System ι) (t : ι) (u : User) : Prop where
  regs       : ts.field s.mem t (.reg r) = u.regs r
  epc        : ts.field s.mem t .epc = u.epc
  zombie     : s.zombie t = u.zombie
  exitStatus : s.exitStatus t = u.exitStatus

variable {ι : Type} {ts : Tasks ι} {s s' s'' : System ι} {t t' : ι} {u : User} {mem : Word → Word} {f f' : Field}
  {w : Word} {r : Reg} {kernel : Reg → Word} {op : Op ι} {ops : List (Op ι)}

namespace Tasks

theorem field_offset (f : Field) : (f.offset.signExtend 64).toNat = f.slot * 8 := by
  cases f
  case reg r => cases r <;> decide
  all_goals decide

-- The members of the trapframes of two tasks do not overlap.
theorem address_ne (ts : Tasks ι) (h : t ≠ t') (f f' : Field) : address (ts.tfp t) f ≠ address (ts.tfp t') f' := by
  intro he
  have hl := ts.apart t t' h
  have hl' := ts.apart t' t h.symm
  have ho := field_offset f
  have ho' := field_offset f'
  have hs := f.slot_lt
  have hs' := f'.slot_lt
  have hz : trapframeSize = 288 := rfl
  simp only [address, offset] at he
  generalize f.offset.signExtend 64 = x at he ho
  generalize f'.offset.signExtend 64 = y at he ho'
  bv_omega

theorem view_address : ts.view t mem (address procVaTrapframe f) = ts.field mem t f := by
  have ha (p q x : Word) : p + x - p + q = q + x := by ring
  rw [view, field, address, address, offset, offset, ha]

theorem unview_address : ts.field (ts.unview t mem) t f = mem (address procVaTrapframe f) := by
  have ha (p q x : Word) : p + x - p + q = q + x := by ring
  rw [field, unview, address, address, offset, offset, ha]

theorem unview_view : ts.unview t (ts.view t mem) = mem := by
  have ha (a p q : Word) : a - p + q - q + p = a := by ring
  funext a
  simp only [unview, view, ha]

theorem field_setField : ts.field (ts.setField mem t f w) t f' = if f' = f then w else ts.field mem t f' := by
  by_cases hf : f' = f
  case pos => rw [if_pos hf, hf, field, setField, Function.update_self]
  case neg =>
    have hne : address (ts.tfp t) f' ≠ address (ts.tfp t) f := by rwa [ne_eq, address_inj]
    rw [if_neg hf, field, setField, Function.update_of_ne hne, field]

end Tasks

namespace Frame

theorem refl (ts : Tasks ι) (t : ι) (s : System ι) : Frame ts t s s :=
  ⟨fun _ => rfl, fun _ => rfl, fun _ => rfl, fun _ => rfl⟩

theorem trans (h : Frame ts t s s') (h' : Frame ts t s' s'') : Frame ts t s s'' where
  field hn      := (h'.field hn).trans <| h.field hn
  resume hn     := (h'.resume hn).trans <| h.resume hn
  zombie hn     := (h'.zombie hn).trans <| h.zombie hn
  exitStatus hn := (h'.exitStatus hn).trans <| h.exitStatus hn

end Frame

variable [DecidableEq ι]

section Enter

omit [DecidableEq ι]

theorem enter_mem : (s.enter ts t).mem = ts.unview t ((s.atEnter ts t).run uvecEnterAsm).mem := by
  simp only [System.enter]

theorem atEnter_sscratch : (s.atEnter ts t).csrs sscratch = s.csrs sscratch := by
  simp [System.atEnter]

variable (hs : s.csrs sscratch = procVaTrapframe)

include hs

theorem enter_regs : ts.field (s.enter ts t).mem t (.reg r) = s.regs r := by
  have h := @uvecEnterAsm_mem (s.atEnter ts t) r
  rw [atEnter_sscratch, hs] at h
  rw [enter_mem, Tasks.unview_address, h, System.atEnter]

-- All other members of the trapframes remain as they are.
theorem enter_field_of_ne (hn : ∀ r, address (ts.tfp t') f ≠ address (ts.tfp t) (.reg r)) :
    ts.field (s.enter ts t).mem t' f = ts.field s.mem t' f := by
  have ha (r : Reg) : address (ts.tfp t') f - ts.tfp t + procVaTrapframe ≠
      address ((s.atEnter ts t).csrs sscratch) (.reg r) := by
    intro he
    apply hn r
    have hx (a p q x : Word) (h : a - p + q = q + x) : a = p + x := by
      linear_combination h
    rw [atEnter_sscratch, hs] at he
    exact hx _ _ _ _ he
  have hm := uvecEnterAsm_mem_of_ne ha
  have hv : ts.unview t (ts.view t s.mem) = s.mem := Tasks.unview_view
  rw [enter_mem]
  exact hm.trans <| congrFun hv _

end Enter

section Ret

omit [DecidableEq ι] in
theorem atRet_a0 : (s.atRet ts t kernel).regs a0 = procVaTrapframe := by
  simp [System.atRet]

theorem utrapRet_mem : (s.utrapRet ts t kernel).mem = s.mem := by
  simp only [System.utrapRet, uvecRetAsm_mem]
  simp only [System.atRet, Tasks.unview_view]

theorem utrapRet_pc : (s.utrapRet ts t kernel).pc = ts.field s.mem t .epc := by
  simp only [System.utrapRet, uvecRetAsm_pc]
  simp [System.atRet]

theorem utrapRet_sscratch : (s.utrapRet ts t kernel).csrs sscratch = procVaTrapframe := by
  simp only [System.utrapRet, uvecRetAsm_sscratch, atRet_a0]

theorem utrapRet_regs : (s.utrapRet ts t kernel).regs r = ts.field s.mem t (source r) := by
  have hv (f : Field) : (s.atRet ts t kernel).mem (address procVaTrapframe f) = ts.field s.mem t f := by
    simp only [System.atRet, Tasks.view_address]
  simp only [System.utrapRet]
  by_cases hr : r = a0
  case pos => rw [hr, uvecRetAsm_a0, atRet_a0, hv, source_eq (by decide)]
  case neg => rw [uvecRetAsm_regs hr, atRet_a0, hv]

end Ret

theorem setA0_regs : (u.setA0 w).regs = Function.update u.regs a0 w :=
  rfl

theorem source_cases (r : Reg) : (∃ r', source r = .reg r') ∨ source r = .epc := by
  cases r <;> simp [source]

namespace InKernel

variable (k : InKernel ts s t u)

include k

omit [DecidableEq ι] in
theorem put_epc (w : Word) : InKernel ts (s.put ts t .epc w) t { u with epc := w } where
  regs       := Tasks.field_setField.trans k.regs
  epc        := Tasks.field_setField.trans <| if_pos rfl
  zombie     := k.zombie
  exitStatus := k.exitStatus

omit [DecidableEq ι] in
theorem put_a0 (w : Word) : InKernel ts (s.put ts t (.reg a0) w) t (u.setA0 w) where
  regs {r}   := by
    have h : ts.field (ts.setField s.mem t (.reg a0) w) t (.reg r) =
        if .reg r = Field.reg a0 then w else ts.field s.mem t (.reg r) := Tasks.field_setField
    by_cases hr : r = a0
    case pos => rw [System.put, h, if_pos (by rw [hr]), setA0_regs, hr, Function.update_self]
    case neg => rw [System.put, h, if_neg (by simpa using hr), setA0_regs, Function.update_of_ne hr, k.regs]
  epc        := Tasks.field_setField.trans k.epc
  zombie     := k.zombie
  exitStatus := k.exitStatus

theorem suspend (hu : s.user = none) (c : Resume) : (s.suspend t c).Sees ts t { u with wait := some c } where
  epc        := k.epc
  resume     := Function.update_self ..
  zombie     := k.zombie
  exitStatus := k.exitStatus
  running h  := nomatch hu.symm.trans h
  waiting _  := ⟨Option.some_ne_none _, fun _ => k.regs⟩

theorem back (kernel : Reg → Word) : (s.utrapRet ts t kernel).Sees ts t u.back where
  epc        := by rw [utrapRet_mem]; exact k.epc
  resume     := Function.update_self ..
  zombie     := k.zombie
  exitStatus := k.exitStatus
  running _  := by
    refine ⟨rfl, ?_, ?_, utrapRet_sscratch⟩
    case refine_1 =>
      funext r
      rw [utrapRet_regs]
      obtain ⟨r', h⟩ | h := source_cases r
      case inl => simp only [User.back, h, k.regs]
      case inr => simp only [User.back, h, k.epc]
    case refine_2 => rw [utrapRet_pc]; exact k.epc
  waiting h  := absurd rfl h

theorem finish (hu : s.user = none) (kernel : Reg → Word) : (s.utrapEnd ts t kernel).Sees ts t u.finish := by
  unfold System.utrapEnd User.finish
  rw [k.zombie]
  split
  case isTrue  => exact k.suspend hu .zombie
  case isFalse => exact k.back kernel

theorem exit : InKernel ts (s.syscallExit ts t) t { u with exitStatus := (u.regs a0).setWidth 32, zombie := true } where
  regs       := k.regs
  epc        := k.epc
  zombie     := Function.update_self ..
  exitStatus := by rw [← k.regs (r := a0)]; exact Function.update_self ..

-- A trap is handled in the kernel as for the task on its own.
theorem entry (hu : s.user = none) (hp : s.csrs sepc = u.pc) (scause : UserCause) (file : BitVec 32)
    (kernel : Reg → Word) :
    (s.utrapEntry ts t scause file kernel).Sees ts t (u.trap (ts.pid t) (ts.ppid t) scause file) := by
  cases scause
  case supvTimer => exact k.suspend hu .timer
  case other     => exact k.finish hu kernel
  case ecallUser =>
    have k := k.put_epc (s.csrs sepc + 4)
    unfold System.utrapEntry User.trap
    simp only
    rw [k.regs, hp]
    rw [hp] at k
    generalize syscall _ _ _ file = c
    cases c
    case ret r => exact (k.put_a0 _).finish hu kernel
    case yield => exact k.suspend hu .schedYield
    case exit  => exact (k.exit.put_a0 0).finish hu kernel

theorem wake (hu : s.user = none) {c : Resume} (hc : u.wait = some c) (hz : c ≠ .zombie) (kernel : Reg → Word) :
    (s.wake ts t kernel c).Sees ts t u.wake := by
  unfold System.wake User.wake
  rw [hc]
  cases c
  case create     => exact k.back kernel
  case timer      => exact k.finish hu kernel
  case schedYield => exact (k.put_a0 0).finish hu kernel
  case zombie     => exact absurd rfl hz

end InKernel

namespace System.Sees

variable (v : s.Sees ts t u)

include v

omit [DecidableEq ι]

theorem sscratch (h : s.user = some t) : s.csrs .sscratch = procVaTrapframe :=
  (v.running h).2.2.2

-- A trap saves the registers of the program.
theorem enter (h : s.user = some t) : InKernel ts (s.enter ts t) t u where
  regs {r}   := by rw [enter_regs <| v.sscratch h, (v.running h).2.1]
  epc        := by
    have hn (r : Reg) : address (ts.tfp t) .epc ≠ address (ts.tfp t) (.reg r) := by simp [address_inj]
    rw [enter_field_of_ne (v.sscratch h) hn, v.epc]
  zombie     := v.zombie
  exitStatus := v.exitStatus

end System.Sees

-- Two tasks with trapframes in different pages.
def twoTasks : Tasks Bool where
  tfp t   := if t then 0x80400000 else 0x80401000
  satp _  := 0
  pid t   := if t then 1 else 2
  ppid _  := 0
  apart   := by decide

end Zgmos.Trap
