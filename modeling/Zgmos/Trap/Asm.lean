import Zgmos.Lib.Riscv

namespace Zgmos.Trap

open Riscv

-- The members of `struct trapframe` in the order of their declaration.
inductive Field
  | reg (r : Reg)
  | epc
  | kernelSatp
  | kernelSp
  | hartid
  | utrapEntry
  deriving DecidableEq

namespace Field

-- The general registers come first, in the order of their numbers.
def slot : Field → Nat
  | reg r      => r.ctorIdx
  | epc        => 31
  | kernelSatp => 32
  | kernelSp   => 33
  | hartid     => 34
  | utrapEntry => 35

def offset (f : Field) : BitVec 12 :=
  .ofNat 12 (f.slot * 8)

-- The members which are of no concern to the user program.
def KernelOnly : Field → Prop
  | reg _ => False
  | _     => True

end Field

-- The address of a member of the trapframe at the address `tf`.
def address (tf : Word) (f : Field) : Word :=
  Riscv.offset tf f.offset

open Reg Csr Instr

def uvecEnterAsm : List Instr := [
  csrrw a0 sscratch a0,

  sd ra (0 * 8) a0,
  sd sp (1 * 8) a0,
  sd gp (2 * 8) a0,
  sd tp (3 * 8) a0,

  sd t0 (4 * 8) a0,
  sd t1 (5 * 8) a0,
  sd t2 (6 * 8) a0,

  sd s0 (7 * 8) a0,
  sd s1 (8 * 8) a0,

  sd a1 (10 * 8) a0,
  sd a2 (11 * 8) a0,
  sd a3 (12 * 8) a0,
  sd a4 (13 * 8) a0,
  sd a5 (14 * 8) a0,
  sd a6 (15 * 8) a0,
  sd a7 (16 * 8) a0,

  sd s2 (17 * 8) a0,
  sd s3 (18 * 8) a0,
  sd s4 (19 * 8) a0,
  sd s5 (20 * 8) a0,
  sd s6 (21 * 8) a0,
  sd s7 (22 * 8) a0,
  sd s8 (23 * 8) a0,
  sd s9 (24 * 8) a0,
  sd s10 (25 * 8) a0,
  sd s11 (26 * 8) a0,

  sd t3 (27 * 8) a0,
  sd t4 (28 * 8) a0,
  sd t5 (29 * 8) a0,
  sd t6 (30 * 8) a0,

  csrr t0 sscratch,
  sd t0 (9 * 8) a0,

  ld sp (33 * 8) a0,
  ld tp (34 * 8) a0,
  ld t0 (32 * 8) a0,
  ld t1 (35 * 8) a0,
  csrw satp t0,
  sfenceVma,
  jr t1]

def uvecRetAsm : List Instr := [
  csrw satp a1,
  sfenceVma,

  ld t0 (9 * 8) a0,
  csrw sscratch t0,

  ld ra (0 * 8) a0,
  ld sp (1 * 8) a0,
  ld gp (2 * 8) a0,
  ld tp (3 * 8) a0,

  ld t0 (4 * 8) a0,
  ld t1 (5 * 8) a0,
  ld t2 (6 * 8) a0,

  ld s0 (7 * 8) a0,
  ld s1 (8 * 8) a0,

  ld a1 (10 * 8) a0,
  ld a2 (11 * 8) a0,
  ld a3 (12 * 8) a0,
  ld a4 (13 * 8) a0,
  ld a5 (14 * 8) a0,
  ld a6 (15 * 8) a0,
  ld a7 (16 * 8) a0,

  ld s2 (17 * 8) a0,
  ld s3 (18 * 8) a0,
  ld s4 (19 * 8) a0,
  ld s5 (20 * 8) a0,
  ld s6 (21 * 8) a0,
  ld s7 (22 * 8) a0,
  ld s8 (23 * 8) a0,
  ld s9 (24 * 8) a0,
  ld s10 (25 * 8) a0,
  ld s11 (26 * 8) a0,

  ld t3 (28 * 8) a0,
  ld t4 (29 * 8) a0,
  ld t5 (30 * 8) a0,
  ld t6 (31 * 8) a0,

  csrrw a0 sscratch a0,
  sret]

-- `m` is the hart at the trap and `m'` the hart at the entry of `uvec_ret_asm`. Of the trapframe
-- the kernel has changed at most `a0` and `epc`.
structure Handled (m m' : Machine) : Prop where
  trapframe : m'.regs a0 = m.csrs sscratch
  fields    : f ≠ .reg a0 → f ≠ .epc →
    m'.mem (address (m.csrs sscratch) f) = (m.run uvecEnterAsm).mem (address (m.csrs sscratch) f)

-- The hart with another word in a member of the trapframe.
def poke (m : Machine) (f : Field) (w : Word) : Machine :=
  { m with mem := Function.update m.mem (address (m.regs a0) f) w }

structure RoundTrip (m m' : Machine) : Prop where
  regs     : r ≠ a0 → (m'.run uvecRetAsm).regs r = m.regs r
  a0       : (m'.run uvecRetAsm).regs .a0 = m'.mem (address (m.csrs sscratch) (.reg .a0))
  sscratch : (m'.run uvecRetAsm).csrs .sscratch = m.csrs .sscratch
  -- No register depends on a member which is of no concern to the user program.
  hidden   : f.KernelOnly → ((poke m' f w).run uvecRetAsm).regs r = (m'.run uvecRetAsm).regs r

end Zgmos.Trap
