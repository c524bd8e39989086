import Zgmos.Kernel.Fault
import Zgmos.Lib.Interrupt

-- The interrupts of the kernel itself.

namespace Zgmos.Trap

open Riscv Reg Csr Instr

-- The causes that `kvec` tells apart.
inductive Cause
  | supvTimer
  | ecallUser
  | other

-- The function `kvec` up to its last two statements. `spp` tells whether the interrupt comes from the kernel.
def kvec (spp : Bool) (scause : Cause) : Except Fault Unit := do
  if !spp then
    throw .panic
  match scause with
  | .supvTimer => return ()
  | .ecallUser => throw .panic
  | .other     => throw .panic

-- The two halves of `kvec_asm`, of which the first one ends with the call of `kvec`.

def kvecSave : List Instr := [
  addi sp sp (-(8 * 64)),
  sd ra (1 * 8) sp,
  sd sp (2 * 8) sp,
  sd gp (3 * 8) sp,
  sd tp (4 * 8) sp,
  sd t0 (5 * 8) sp,
  sd t1 (6 * 8) sp,
  sd t2 (7 * 8) sp,
  sd s0 (8 * 8) sp,
  sd s1 (9 * 8) sp,
  sd a0 (10 * 8) sp,
  sd a1 (11 * 8) sp,
  sd a2 (12 * 8) sp,
  sd a3 (13 * 8) sp,
  sd a4 (14 * 8) sp,
  sd a5 (15 * 8) sp,
  sd a6 (16 * 8) sp,
  sd a7 (17 * 8) sp,
  sd s2 (18 * 8) sp,
  sd s3 (19 * 8) sp,
  sd s4 (20 * 8) sp,
  sd s5 (21 * 8) sp,
  sd s6 (22 * 8) sp,
  sd s7 (23 * 8) sp,
  sd s8 (24 * 8) sp,
  sd s9 (25 * 8) sp,
  sd s10 (26 * 8) sp,
  sd s11 (27 * 8) sp,
  sd t3 (28 * 8) sp,
  sd t4 (29 * 8) sp,
  sd t5 (30 * 8) sp,
  sd t6 (31 * 8) sp]

def kvecRestore : List Instr := [
  ld ra (1 * 8) sp,
  ld sp (2 * 8) sp,
  ld gp (3 * 8) sp,
  ld tp (4 * 8) sp,
  ld t0 (5 * 8) sp,
  ld t1 (6 * 8) sp,
  ld t2 (7 * 8) sp,
  ld s0 (8 * 8) sp,
  ld s1 (9 * 8) sp,
  ld a0 (10 * 8) sp,
  ld a1 (11 * 8) sp,
  ld a2 (12 * 8) sp,
  ld a3 (13 * 8) sp,
  ld a4 (14 * 8) sp,
  ld a5 (15 * 8) sp,
  ld a6 (16 * 8) sp,
  ld a7 (17 * 8) sp,
  ld s2 (18 * 8) sp,
  ld s3 (19 * 8) sp,
  ld s4 (20 * 8) sp,
  ld s5 (21 * 8) sp,
  ld s6 (22 * 8) sp,
  ld s7 (23 * 8) sp,
  ld s8 (24 * 8) sp,
  ld s9 (25 * 8) sp,
  ld s10 (26 * 8) sp,
  ld s11 (27 * 8) sp,
  ld t3 (28 * 8) sp,
  ld t4 (29 * 8) sp,
  ld t5 (30 * 8) sp,
  ld t6 (31 * 8) sp,
  addi sp sp (8 * 64),
  sret]

-- The hart puts the address of the interrupted instruction into `sepc`.
def kvecEnter (m : Machine) : Machine :=
  { m with csrs := Function.update m.csrs sepc m.pc }.run kvecSave

def kvecLeave (m : Machine) : Machine :=
  m.run kvecRestore

-- The `size` bytes below a stack pointer.
def below (size : Nat) (top : Word) : Set Word :=
  { a | ∃ d, 0 < d ∧ d ≤ size ∧ a = top - .ofNat 64 d }

-- The words that an interrupt may overwrite: `scratch` are the variables of `kvec` and of what it calls, and `size` is
-- the size of their frames.
def garbage (size : Nat) (scratch : Set Word) (regs : Reg → Word) : Set Word :=
  scratch ∪ below (512 + size) (regs sp)

-- A compiled function keeps its stack pointer and the frame of its caller. The last two statements of `kvec` write back
-- `sepc` and `sstatus`.
structure Called (size : Nat) (scratch : Set Word) (m m' : Machine) : Prop where
  stack : m'.regs sp = m.regs sp
  frame : .sd r i sp ∈ kvecSave → m'.mem (offset (m.regs sp) i) = m.mem (offset (m.regs sp) i)
  mem   : a ∉ scratch → a ∉ below size (m.regs sp) → m'.mem a = m.mem a
  csrs  : m'.csrs = m.csrs

-- An interrupt from which the hart returns.
inductive Interrupt (size : Nat) (scratch : Set Word) : Machine → Machine → Prop
  | intro (hk : kvec true scause = .ok ()) (hc : Called size scratch (kvecEnter m) m₁) :
    Interrupt size scratch m (kvecLeave m₁)

-- The registers with their places.
def kvecPlaces : List (Reg × BitVec 12) :=
  (List.range 31).map fun n => (Reg.ofNat n, .ofNat 12 ((n + 1) * 8))

variable {m m₁ m' : Machine} {r : Reg} {i : BitVec 12} {size n : Nat} {scratch D : Set Word} {code : Word → Op}

-- The state in which the registers are saved.
def framed (m : Machine) : Machine :=
  { m with csrs := Function.update m.csrs sepc m.pc }.exec <| addi sp sp (-(8 * 64))

theorem kvecSave_eq : kvecSave = addi sp sp (-(8 * 64)) :: stores sp kvecPlaces :=
  rfl

theorem kvecRestore_eq : kvecRestore = loads sp kvecPlaces ++ [addi sp sp (8 * 64), sret] :=
  rfl

theorem kvecEnter_eq : kvecEnter m = (framed m).run (stores sp kvecPlaces) := by
  rw [kvecEnter, kvecSave_eq, Machine.run_cons, framed]

theorem kvecLeave_eq : kvecLeave m = ((m.run <| loads sp kvecPlaces).exec <| addi sp sp (8 * 64)).exec sret := by
  rw [kvecLeave, kvecRestore_eq, Machine.run_append, Machine.run_cons, Machine.run_cons, Machine.run_nil]

theorem kvecPlaces_nodup : (kvecPlaces.map Prod.fst).Nodup ∧ (kvecPlaces.map Prod.snd).Nodup := by
  decide

theorem exists_place (r : Reg) : ∃ i, (r, i) ∈ kvecPlaces :=
  ⟨.ofNat 12 ((r.ctorIdx + 1) * 8), by cases r <;> decide⟩

theorem sd_mem_kvecSave : .sd r i sp ∈ kvecSave ↔ (r, i) ∈ kvecPlaces := by
  simp [kvecSave_eq, stores]

-- All places lie in the frame.
theorem place_below (h : (r, i) ∈ kvecPlaces) (top : Word) : offset (offset top (-(8 * 64))) i ∈ below 512 top := by
  have ⟨n, hn, he⟩ := List.mem_map.mp h
  have hn := List.mem_range.mp hn
  cases he
  have hs : ∀ n < 31, (-(8 * 64) : BitVec 12).signExtend 64 + (BitVec.ofNat 12 ((n + 1) * 8)).signExtend 64 =
      -.ofNat 64 (504 - n * 8) := by decide
  refine ⟨504 - n * 8, by omega, by omega, ?_⟩
  rw [offset, offset, BitVec.add_assoc, hs n hn, BitVec.sub_eq_add_neg]

theorem offset_frame (top : Word) : offset (offset top (-(8 * 64))) (8 * 64) = top := by
  have hs : (-(8 * 64) : BitVec 12).signExtend 64 + (8 * 64 : BitVec 12).signExtend 64 = 0 := by decide
  rw [offset, offset, BitVec.add_assoc, hs, add_zero]

theorem below_frame (top : Word) : below size (offset top (-(8 * 64))) ⊆ below (512 + size) top := by
  intro a ⟨d, hd, hl, he⟩
  have hs : (-(8 * 64) : BitVec 12).signExtend 64 = -.ofNat 64 512 := by decide
  refine ⟨512 + d, by omega, by omega, ?_⟩
  rw [he, offset, hs, BitVec.ofNat_add, ← BitVec.sub_eq_add_neg, BitVec.sub_sub]

theorem below_mono {size' : Nat} (h : size ≤ size') (top : Word) : below size top ⊆ below size' top :=
  fun _ ⟨d, hd, hl, he⟩ => ⟨d, hd, hl.trans h, he⟩

theorem framed_regs : (framed m).regs = Function.update m.regs sp (offset (m.regs sp) (-(8 * 64))) :=
  rfl

theorem kvecEnter_sp : (kvecEnter m).regs sp = offset (m.regs sp) (-(8 * 64)) := by
  rw [kvecEnter_eq, run_stores_regs, framed_regs, Function.update_self]

theorem kvecEnter_csrs : (kvecEnter m).csrs = Function.update m.csrs sepc m.pc := by
  rw [kvecEnter_eq, run_stores_csrs]
  rfl

theorem kvecEnter_mem (h : (r, i) ∈ kvecPlaces) :
    (kvecEnter m).mem (offset ((framed m).regs sp) i) = (framed m).regs r := by
  rw [kvecEnter_eq]
  exact run_stores_mem kvecPlaces_nodup.2 h

theorem kvecEnter_mem_of_not_below {a : Word} (h : a ∉ below 512 (m.regs sp)) : (kvecEnter m).mem a = m.mem a := by
  rw [kvecEnter_eq]
  apply run_stores_of_ne
  intro p hp he
  apply h
  rw [he]
  have := place_below (r := p.1) (i := p.2) hp (m.regs sp)
  simpa [framed_regs] using this

theorem kvecLeave_regs (hs : ∀ i, (sp, i) ∈ kvecPlaces → m.mem (offset (m.regs sp) i) = m.regs sp)
    (h : (r, i) ∈ kvecPlaces) : (kvecLeave m).regs r =
      if r = sp then offset (m.regs sp) (8 * 64) else m.mem (offset (m.regs sp) i) := by
  have hl (r : Reg) (i : BitVec 12) (h : (r, i) ∈ kvecPlaces) :
      (m.run <| loads sp kvecPlaces).regs r = m.mem (offset (m.regs sp) i) :=
    run_loads_regs_of_self hs kvecPlaces_nodup.1 h
  have he : (kvecLeave m).regs r = Function.update (m.run <| loads sp kvecPlaces).regs sp
      (offset ((m.run <| loads sp kvecPlaces).regs sp) (8 * 64)) r := by rw [kvecLeave_eq, Machine.exec, Machine.exec]
  rw [he]
  by_cases hr : r = sp
  case pos =>
    rw [if_pos hr, hr, Function.update_self, hl sp i (hr ▸ h), hs i (hr ▸ h)]
  case neg => rw [if_neg hr, Function.update_of_ne hr, hl r i h]

-- An interrupt overwrites nothing but what lies below the stack pointer and the variables of `kvec`.
theorem Interrupt.agree (h : Interrupt size scratch m m') : Agree (garbage size scratch m.regs) m m' := by
  cases h
  case intro scause m₁ hk hc =>
    have he : (kvecEnter m).regs sp = (framed m).regs sp := by rw [kvecEnter_sp, framed_regs, Function.update_self]
    have hsp : m₁.regs sp = (framed m).regs sp := hc.stack.trans he
    have hm (r : Reg) (i : BitVec 12) (h : (r, i) ∈ kvecPlaces) :
        m₁.mem (offset (m₁.regs sp) i) = (framed m).regs r := by
      have hf := hc.frame (sd_mem_kvecSave.mpr h)
      rw [he, kvecEnter_mem h] at hf
      rw [hsp, hf]
    have hs (i : BitVec 12) (h : (sp, i) ∈ kvecPlaces) : m₁.mem (offset (m₁.regs sp) i) = m₁.regs sp := by
      rw [hm sp i h, hsp]
    exact {
      core := {
        regs := by
          funext r
          have ⟨i, hi⟩ := exists_place r
          have hr : (kvecLeave m₁).regs r = m.regs r := by
            rw [kvecLeave_regs hs hi, hm r i hi, hsp, framed_regs, Function.update_self, offset_frame]
            by_cases hr : r = sp
            case pos => rw [if_pos hr, hr]
            case neg => rw [if_neg hr, Function.update_of_ne hr]
          exact hr
        pc   := by
          have hp : (kvecLeave m₁).pc = m₁.csrs sepc := by
            rw [kvecLeave_eq]
            simp [Machine.exec]
          rw [hc.csrs, kvecEnter_csrs, Function.update_self] at hp
          exact hp
        csrs {c} hn := by
          have hcs : (kvecLeave m₁).csrs = m₁.csrs := by
            rw [kvecLeave_eq]
            simp [Machine.exec]
          rw [hc.csrs, kvecEnter_csrs] at hcs
          exact (congrFun hcs c).trans <| Function.update_of_ne hn ..
      }
      mem {a} ha := by
        have hme : (kvecLeave m₁).mem = m₁.mem := by
          rw [kvecLeave_eq]
          simp [Machine.exec]
        have ha' := not_or.mp ha
        have hb : a ∉ below size ((kvecEnter m).regs sp) := fun h => ha'.2 <| below_frame _ <| kvecEnter_sp ▸ h
        rw [hme, hc.mem ha'.1 hb]
        exact kvecEnter_mem_of_not_below fun h => ha'.2 <| below_mono (by omega) _ h
    }

-- The kernel computes the same, no matter when and how often it is interrupted.
theorem kvec_transparent (hc : Clean code (garbage size scratch) n D m)
    (e : Interrupted code (Interrupt size scratch) n m m') :
    Agree (deadAfter code (garbage size scratch) n D m) (m.steps code n) m' :=
  Riscv.interrupted_steps (fun _ _ => Interrupt.agree) hc e

-- A loop which adds the numbers from `a1` down to 1. It has a function that stores the number and loads it again.
def sumCode : List Op := [
  .jal ra 12,
  .arith (· + ·) a3 a3 a2,
  .branch (· != ·) a1 a4 (-8),
  .ofInstr (sd a1 0 a0),
  .ofInstr (addi a1 a1 (-1)),
  .ofInstr (ld a2 0 a0),
  .ofInstr (jr ra)]

def kernelCode (a : Word) : Op :=
  sumCode.getD ((a - 0x80200000).toNat / 4) <| .ofInstr sfenceVma

-- A hart in the kernel, with the function in the middle of the stack.
def kernelHart : Machine where
  regs r := if r = sp then 0x80230000 else if r = a0 then 0x80300000 else if r = a1 then 2 else 0
  csrs _ := 0
  mem _  := 0
  pc     := 0x80200000

theorem kernelCode_ignoresSepc (a : Word) : (kernelCode a).IgnoresSepc := by
  have hs : ∀ op ∈ sumCode, op.IgnoresSepc := by
    intro op hm
    simp only [sumCode, List.mem_cons, List.not_mem_nil, or_false] at hm
    obtain rfl | rfl | rfl | rfl | rfl | rfl | rfl := hm
    case inl => exact Op.jal_ignoresSepc
    case inr.inl => exact Op.arith_ignoresSepc
    case inr.inr.inl => exact Op.branch_ignoresSepc
    all_goals exact Op.ofInstr_ignoresSepc id
  rw [kernelCode, List.getD_eq_getElem?_getD]
  cases he : sumCode[(a - 0x80200000).toNat / 4]?
  case none => exact Op.ofInstr_ignoresSepc id
  case some => exact hs _ <| List.mem_of_getElem? he

theorem kernelCode_clean : Clean kernelCode (garbage 64 ∅) 14 ∅ kernelHart := by
  have hk : ∀ k < 14, (kernelHart.steps kernelCode k).regs sp = 0x80230000 ∧
    ((kernelCode (kernelHart.steps kernelCode k).pc).load (kernelHart.steps kernelCode k).core).all (· = 0x80300000) := by
    decide +kernel
  refine Clean.of_subset (G := below 576 0x80230000) (Set.empty_subset _) fun k hlt => ?_
  obtain ⟨hsp, hl⟩ := hk k hlt
  refine ⟨?_, kernelCode_ignoresSepc _, fun a ha => ?_⟩
  case refine_1 =>
    rw [garbage, hsp, Set.empty_union]
  case refine_2 =>
    rw [Option.mem_def.mp ha, Option.all_some, decide_eq_true_iff] at hl
    rintro ⟨d, hd, hle, he⟩
    have he := congrArg BitVec.toNat <| hl.symm.trans he
    rw [BitVec.toNat_sub, BitVec.toNat_ofNat, show (0x80300000 : Word).toNat = 0x80300000 from rfl,
      show (0x80230000 : Word).toNat = 0x80230000 from rfl] at he
    omega

-- There is an interrupt between the store and the load. The function `kvec` overwrites the other registers.
theorem kernelHart_interrupted : ∃ m', Interrupted kernelCode (Interrupt 64 ∅) 14 kernelHart m' ∧ m'.regs a3 = 3 := by
  have hk (m : Machine) : Called 64 ∅ m { m with regs := Function.update (fun _ => 0) sp (m.regs sp) } := {
    stack   := by simp only [Function.update_self]
    frame _ := rfl
    mem _ _ := rfl
    csrs    := rfl
  }
  have hi (m : Machine) : Interrupt 64 ∅ m _ := .intro (show kvec true .supvTimer = .ok () from rfl) (hk _)
  have e : Interrupted kernelCode (Interrupt 64 ∅) 14 kernelHart _ := .instr <| .instr <| .trap (hi _) .steps
  have h := kvec_transparent kernelCode_clean e
  have hr : (kernelHart.steps kernelCode 14).regs a3 = 3 := by decide +kernel
  exact ⟨_, e, (congrFun h.regs a3).trans hr⟩

end Zgmos.Trap
