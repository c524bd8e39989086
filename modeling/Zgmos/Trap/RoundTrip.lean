import Zgmos.Trap.Asm

namespace Zgmos.Trap

open Riscv Reg Csr Instr

-- The registers which `uvec_enter_asm` saves before `a0` with the places where it saves them.
def saved : List (Reg × BitVec 12) := [
  (ra, 0 * 8), (sp, 1 * 8), (gp, 2 * 8), (tp, 3 * 8), (t0, 4 * 8), (t1, 5 * 8), (t2, 6 * 8),
  (s0, 7 * 8), (s1, 8 * 8), (a1, 10 * 8), (a2, 11 * 8), (a3, 12 * 8), (a4, 13 * 8), (a5, 14 * 8),
  (a6, 15 * 8), (a7, 16 * 8), (s2, 17 * 8), (s3, 18 * 8), (s4, 19 * 8), (s5, 20 * 8),
  (s6, 21 * 8), (s7, 22 * 8), (s8, 23 * 8), (s9, 24 * 8), (s10, 25 * 8), (s11, 26 * 8),
  (t3, 27 * 8), (t4, 28 * 8), (t5, 29 * 8), (t6, 30 * 8)]

-- The registers which `uvec_ret_asm` restores with the places from which it restores them.
def restored : List (Reg × BitVec 12) := [
  (ra, 0 * 8), (sp, 1 * 8), (gp, 2 * 8), (tp, 3 * 8), (t0, 4 * 8), (t1, 5 * 8), (t2, 6 * 8),
  (s0, 7 * 8), (s1, 8 * 8), (a1, 10 * 8), (a2, 11 * 8), (a3, 12 * 8), (a4, 13 * 8), (a5, 14 * 8),
  (a6, 15 * 8), (a7, 16 * 8), (s2, 17 * 8), (s3, 18 * 8), (s4, 19 * 8), (s5, 20 * 8),
  (s6, 21 * 8), (s7, 22 * 8), (s8, 23 * 8), (s9, 24 * 8), (s10, 25 * 8), (s11, 26 * 8),
  (t3, 28 * 8), (t4, 29 * 8), (t5, 30 * 8), (t6, 31 * 8)]

theorem uvecEnterAsm_eq : uvecEnterAsm = csrrw a0 sscratch a0 :: stores a0 saved ++
    [csrr t0 sscratch, sd t0 (9 * 8) a0, ld sp (33 * 8) a0, ld tp (34 * 8) a0, ld t0 (32 * 8) a0,
      ld t1 (35 * 8) a0, csrw satp t0, sfenceVma, jr t1] :=
  rfl

theorem uvecRetAsm_eq : uvecRetAsm =
    [csrw satp a1, sfenceVma, ld t0 (9 * 8) a0, csrw sscratch t0] ++ loads a0 restored ++
      [csrrw a0 sscratch a0, sret] :=
  rfl

theorem saved_mem (h : r ≠ a0) : (r, (Field.reg r).offset) ∈ saved := by
  cases r <;> first | exact absurd rfl h | decide

theorem saved_nodup : (saved.map Prod.snd).Nodup := by
  decide

theorem restored_nodup : (restored.map Prod.fst).Nodup := by
  decide

-- The member from which `uvec_ret_asm` restores a register: from `t3` on the next one.
def source : Reg → Field
  | t3 => .reg t4
  | t4 => .reg t5
  | t5 => .reg t6
  | t6 => .epc
  | r  => .reg r

theorem restored_mem (h : r ≠ a0) : (r, (source r).offset) ∈ restored := by
  cases r <;> first | exact absurd rfl h | decide

variable {m m' : Machine} {r r' : Reg} {f f' : Field} {w : Word}

theorem Field.slot_lt (f : Field) : f.slot < 36 := by
  cases f
  case reg r => exact r.ctorIdx_lt.trans (by decide)
  all_goals decide

theorem Field.slot_inj (h : f.slot = f'.slot) : f = f' := by
  cases f <;> cases f'
  case reg.reg r r' => rw [Reg.ctorIdx_inj h]
  all_goals grind [slot, Reg.ctorIdx_lt]

theorem address_inj {tf : Word} : address tf f = address tf f' ↔ f = f' := by
  constructor
  case mpr => exact congrArg _
  case mp =>
    intro h
    have h := congrArg BitVec.toNat <| Riscv.offset_inj.mp h
    have := f.slot_lt
    have := f'.slot_lt
    simp only [Field.offset, BitVec.toNat_ofNat] at h
    exact Field.slot_inj (by omega)

-- What follows the block of stores changes the memory in the place of `a0` only.
theorem uvecEnterAsm_mem_eq : (m.run uvecEnterAsm).mem =
    Function.update ((m.exec <| csrrw a0 sscratch a0).run <| stores a0 saved).mem
      (address (m.csrs sscratch) (.reg a0)) (m.regs a0) := by
  have ha : address (m.csrs sscratch) (.reg a0) = Riscv.offset (m.csrs sscratch) (9 * 8) := rfl
  rw [uvecEnterAsm_eq, ha]
  simp [Machine.exec]

-- All general registers are saved, `a0` included.
theorem uvecEnterAsm_mem :
    (m.run uvecEnterAsm).mem (address (m.csrs sscratch) (.reg r)) = m.regs r := by
  rw [uvecEnterAsm_mem_eq]
  by_cases h : r = a0
  case pos => simp [h]
  case neg =>
    have hs : ((m.exec <| csrrw a0 sscratch a0).run <| stores a0 saved).mem
        (offset ((m.exec <| csrrw a0 sscratch a0).regs a0) (Field.reg r).offset) =
          (m.exec <| csrrw a0 sscratch a0).regs r :=
      run_stores_mem saved_nodup (saved_mem h)
    have hn : address (m.csrs sscratch) (.reg r) ≠ address (m.csrs sscratch) (.reg a0) := by
      simpa [address_inj] using h
    rw [Function.update_of_ne hn]
    simpa [Machine.exec, h, address] using hs

theorem uvecRetAsm_regs (h : r ≠ a0) :
    (m.run uvecRetAsm).regs r = m.mem (address (m.regs a0) (source r)) := by
  let m₁ := m.run [csrw satp a1, sfenceVma, ld t0 (9 * 8) a0, csrw sscratch t0]
  have hl : (m₁.run <| loads a0 restored).regs r = m₁.mem (offset (m₁.regs a0) (source r).offset) :=
    run_loads_regs (by decide) restored_nodup (restored_mem h)
  rw [uvecRetAsm_eq]
  simpa [Machine.exec, h, m₁, address] using hl

theorem uvecRetAsm_a0 : (m.run uvecRetAsm).regs a0 = m.mem (address (m.regs a0) (.reg a0)) := by
  rw [uvecRetAsm_eq]
  simp [Machine.exec, address]
  rfl

theorem uvecRetAsm_sscratch : (m.run uvecRetAsm).csrs sscratch = m.regs a0 := by
  have hl : a0 ∉ restored.map Prod.fst := by decide
  rw [uvecRetAsm_eq]
  simp [Machine.exec, run_loads_of_not_mem hl]

theorem source_eq (h : r ∉ [t3, t4, t5, t6]) : source r = .reg r := by
  cases r <;> first | rfl | exact absurd (by decide) h

namespace Handled

theorem restores (h : Handled m m') (hr : r ≠ a0) (hs : source r = .reg r') (hr' : r' ≠ a0) :
    (m'.run uvecRetAsm).regs r = m.regs r' := by
  rw [uvecRetAsm_regs hr, h.trapframe, hs, h.fields (by simpa using hr') (by simp), uvecEnterAsm_mem]

theorem restores_self (h : Handled m m') (hr : r ∉ [a0, t3, t4, t5, t6]) :
    (m'.run uvecRetAsm).regs r = m.regs r :=
  have ⟨ha, ht⟩ := not_or.mp <| List.mem_cons.not.mp hr
  h.restores ha (source_eq ht) ha

theorem a0_eq (h : Handled m m') :
    (m'.run uvecRetAsm).regs a0 = m'.mem (address (m.csrs sscratch) (.reg a0)) := by
  rw [uvecRetAsm_a0, h.trapframe]

theorem sscratch_eq (h : Handled m m') : (m'.run uvecRetAsm).csrs sscratch = m.csrs sscratch := by
  rw [uvecRetAsm_sscratch, h.trapframe]

theorem t6_eq_epc (h : Handled m m') :
    (m'.run uvecRetAsm).regs t6 = m'.mem (address (m.csrs sscratch) .epc) := by
  rw [uvecRetAsm_regs (by decide), h.trapframe, source]

-- The registers of a user program survive a trap only by chance.
theorem restores_all_iff (h : Handled m m') :
    (∀ r, r ≠ a0 → (m'.run uvecRetAsm).regs r = m.regs r) ↔
      m.regs t4 = m.regs t3 ∧ m.regs t5 = m.regs t4 ∧ m.regs t6 = m.regs t5 ∧
        m'.mem (address (m.csrs sscratch) .epc) = m.regs t6 := by
  have h₃ : (m'.run uvecRetAsm).regs t3 = m.regs t4 := h.restores (by decide) rfl (by decide)
  have h₄ : (m'.run uvecRetAsm).regs t4 = m.regs t5 := h.restores (by decide) rfl (by decide)
  have h₅ : (m'.run uvecRetAsm).regs t5 = m.regs t6 := h.restores (by decide) rfl (by decide)
  constructor
  case mp =>
    intro hr
    have hr₃ := hr t3 (by decide)
    have hr₄ := hr t4 (by decide)
    have hr₅ := hr t5 (by decide)
    have hr₆ := hr t6 (by decide)
    exact ⟨h₃ ▸ hr₃, h₄ ▸ hr₄, h₅ ▸ hr₅, h.t6_eq_epc ▸ hr₆⟩
  case mpr =>
    intro ⟨hr₃, hr₄, hr₅, hr₆⟩ r hr
    by_cases ht : r ∈ [t3, t4, t5, t6]
    case neg => exact h.restores_self (by simpa [hr] using ht)
    case pos =>
      simp only [List.mem_cons, List.not_mem_nil, or_false] at ht
      obtain rfl | rfl | rfl | rfl := ht
      case inl             => exact h₃.trans hr₃
      case inr.inl         => exact h₄.trans hr₄
      case inr.inr.inl     => exact h₅.trans hr₅
      case inr.inr.inr     => exact h.t6_eq_epc.trans hr₆

end Handled

-- The hart at the entry of `uvec_ret_asm` if the kernel has left it as it was at the end of
-- `uvec_enter_asm`, except for the two members of the trapframe.
def resume (m : Machine) (newA0 newEpc : Word) : Machine :=
  let tf := m.csrs sscratch
  let m₁ := m.run uvecEnterAsm
  { m₁ with
    regs := Function.update m₁.regs a0 tf
    mem  := Function.update (Function.update m₁.mem (address tf <| .reg a0) newA0) (address tf .epc) newEpc }

theorem resume_handled {newA0 newEpc : Word} : Handled m (resume m newA0 newEpc) where
  trapframe      := by simp [resume]
  fields ha he   := by simp [resume, address_inj, ha, he]

-- The last of the registers which are restored receives the word of `epc`.
theorem not_roundTrip (h : Handled m m') : ¬RoundTrip m m' := by
  intro hr
  let w := m'.mem (address (m.csrs sscratch) .epc) + 1
  have hp : Handled m (poke m' .epc w) := {
    trapframe     := h.trapframe
    fields ha he  := by simpa [poke, h.trapframe, address_inj, he] using h.fields ha he
  }
  have he := hr.hidden (f := .epc) (w := w) (r := t6) trivial
  rw [hp.t6_eq_epc, h.t6_eq_epc] at he
  simp [poke, h.trapframe, w] at he

-- A user program whose registers hold their own numbers.
def sample : Machine where
  regs r := r.ctorIdx + 1
  csrs _ := 0xffff9000
  mem _  := 0
  pc     := 0

theorem sample_not_roundTrip : ¬RoundTrip sample (resume sample 7 0x10000) :=
  not_roundTrip resume_handled

theorem sample_t6 : Handled sample (resume sample 7 0x10000) ∧ sample.regs t6 = 31 ∧
    ((resume sample 7 0x10000).run uvecRetAsm).regs t6 = 0x10000 ∧
      ¬RoundTrip sample (resume sample 7 0x10000) := by
  have h : ((resume sample 7 0x10000).run uvecRetAsm).regs t6 = 0x10000 := by
    rw [resume_handled.t6_eq_epc]
    simp [resume]
  refine ⟨resume_handled, rfl, h, fun hr => ?_⟩
  have := hr.regs (r := t6) (by decide)
  rw [h] at this
  exact absurd this (by decide)

end Zgmos.Trap
