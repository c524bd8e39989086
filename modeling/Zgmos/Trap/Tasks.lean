import Zgmos.Trap.RoundTrip
import Zgmos.Process.Basic

-- The tasks between their traps.

namespace Zgmos.Trap

open Riscv Reg Csr
open Process (procVaTrapframe)

-- The system calls of `syscall.h` which `syscall` knows.

def sysChdir      : Word := 49
def sysOpenat     : Word := 56
def sysRead       : Word := 63
def sysWrite      : Word := 64
def sysExit       : Word := 93
def sysSchedYield : Word := 124
def sysGetpid     : Word := 172
def sysGetppid    : Word := 173

-- The causes of a trap that `utrap_entry` tells apart.
inductive UserCause
  | ecallUser
  | supvTimer
  | other

-- Where a task goes on when the scheduler switches to it.
inductive Resume
  | create     -- at `task_create_ret`
  | timer      -- behind `yield` in the branch for the timer
  | schedYield -- behind `yield` in `syscall_sched_yield`
  | zombie     -- behind the last `yield` of `utrap_entry`
  deriving DecidableEq

-- What becomes of a system call.
inductive Outcome
  | ret (r : BitVec 32)
  | yield
  | exit

-- `file` is the result of the system calls for files.
def syscall (num : Word) (pid ppid file : BitVec 32) : Outcome :=
  if num = sysGetpid then
    .ret pid
  else if num = sysGetppid then
    .ret ppid
  else if num = sysSchedYield then
    .yield
  else if num = sysExit then
    .exit
  else if num = sysRead ∨ num = sysWrite ∨ num = sysOpenat ∨ num = sysChdir then
    .ret file
  else
    .ret (-1)

def trapframeSize : Nat :=
  36 * 8

-- The tasks: the addresses of their trapframes, which do not overlap, and what the system calls return about them.
structure Tasks (ι : Type) where
  tfp   : ι → Word
  satp  : ι → Word
  pid   : ι → BitVec 32
  ppid  : ι → BitVec 32
  apart : ∀ t t', t ≠ t' → trapframeSize ≤ (tfp t' - tfp t).toNat

-- The hart with the physical memory. The registers are those of a user program if `user` names its task.
structure System (ι : Type) where
  regs       : Reg → Word
  csrs       : Csr → Word
  pc         : Word
  mem        : Word → Word
  user       : Option ι
  resume     : ι → Option Resume
  zombie     : ι → Bool
  exitStatus : ι → BitVec 32

variable {ι : Type}

namespace Tasks

variable (ts : Tasks ι)

-- The memory at `PROC_VA_TRAPFRAME` in the address space of a task.
def view (t : ι) (mem : Word → Word) : Word → Word :=
  fun va => mem (va - procVaTrapframe + ts.tfp t)

def unview (t : ι) (mem : Word → Word) : Word → Word :=
  fun pa => mem (pa - ts.tfp t + procVaTrapframe)

def field (mem : Word → Word) (t : ι) (f : Field) : Word :=
  mem (address (ts.tfp t) f)

def setField (mem : Word → Word) (t : ι) (f : Field) (w : Word) : Word → Word :=
  Function.update mem (address (ts.tfp t) f) w

end Tasks

namespace System

variable [DecidableEq ι] (ts : Tasks ι) (s : System ι) (t : ι)

-- The hart at the entry of `uvec_enter_asm`, in the address space of the task.
def atEnter : Machine where
  regs := s.regs
  csrs := Function.update s.csrs sepc s.pc
  mem  := ts.view t s.mem
  pc   := s.pc

def enter : System ι :=
  let m := (s.atEnter ts t).run uvecEnterAsm
  { s with regs := m.regs, csrs := m.csrs, pc := m.pc, mem := ts.unview t m.mem, user := none }

def put (f : Field) (w : Word) : System ι :=
  { s with mem := ts.setField s.mem t f w }

def suspend (r : Resume) : System ι :=
  { s with resume := Function.update s.resume t <| some r }

-- The hart at the entry of `uvec_ret_asm`. `kernel` are its registers apart from those for the two arguments.
def atRet (kernel : Reg → Word) : Machine where
  regs := Function.update (Function.update kernel a0 procVaTrapframe) a1 <| ts.satp t
  csrs := Function.update s.csrs sepc <| ts.field s.mem t .epc
  mem  := ts.view t s.mem
  pc   := s.pc

def utrapRet (kernel : Reg → Word) : System ι :=
  let m := (s.atRet ts t kernel).run uvecRetAsm
  { s with
    regs   := m.regs
    csrs   := m.csrs
    pc     := m.pc
    mem    := ts.unview t m.mem
    user   := some t
    resume := Function.update s.resume t none }

-- The last statement of `utrap_entry`.
def utrapEnd (kernel : Reg → Word) : System ι :=
  if s.zombie t then s.suspend t .zombie else s.utrapRet ts t kernel

-- A task is a zombie before `syscall_exit` returns zero.
def syscallExit : System ι :=
  { s with
    exitStatus := Function.update s.exitStatus t <| (ts.field s.mem t <| .reg a0).setWidth 32
    zombie     := Function.update s.zombie t true }

def utrapEntry (scause : UserCause) (file : BitVec 32) (kernel : Reg → Word) : System ι :=
  match scause with
  | .ecallUser =>
    let s := s.put ts t .epc (s.csrs sepc + 4)
    match syscall (ts.field s.mem t <| .reg a7) (ts.pid t) (ts.ppid t) file with
    | .ret r => s.put ts t (.reg a0) (r.signExtend 64) |>.utrapEnd ts t kernel
    | .yield => s.suspend t .schedYield
    | .exit  => s.syscallExit ts t |>.put ts t (.reg a0) 0 |>.utrapEnd ts t kernel
  | .supvTimer => s.suspend t .timer
  | .other     => s.utrapEnd ts t kernel

-- The scheduler switches to the task. A zombie returns from `utrap_entry`, but not to a caller: `ra` is that of its program.
def wake (kernel : Reg → Word) : Resume → System ι
  | .create     => s.utrapRet ts t kernel
  | .timer      => s.utrapEnd ts t kernel
  | .schedYield => s.put ts t (.reg a0) 0 |>.utrapEnd ts t kernel
  | .zombie     => { s with pc := ts.field s.mem t <| .reg ra, resume := Function.update s.resume t none }

end System

-- What happens on the hart. The memory outside of the trapframes is written at any time.
inductive Op (ι : Type)
  | exec (t : ι) (regs : Reg → Word) (pc : Word)
  | trap (t : ι) (scause : UserCause) (file : BitVec 32) (kernel : Reg → Word)
  | wake (t : ι) (kernel : Reg → Word)
  | write (mem : Word → Word)

def Op.task : Op ι → Option ι
  | exec t _ _ | trap t _ _ _ | wake t _ => some t
  | write _                              => none

section Step

variable [DecidableEq ι] (ts : Tasks ι)

inductive Step : System ι → Op ι → System ι → Prop
  | exec (h : s.user = some t) : Step s (.exec t regs pc) { s with regs, pc }
  | trap (h : s.user = some t) : Step s (.trap t scause file kernel) ((s.enter ts t).utrapEntry ts t scause file kernel)
  | wake (h : s.user = none) (hr : s.resume t = some r) : Step s (.wake t kernel) (s.wake ts t kernel r)
  | write (h : ∀ t f, ts.field mem t f = ts.field s.mem t f) : Step s (.write mem) { s with mem }

-- The scheduler switches to no zombie. The kernel does not check this.
def Meets (s : System ι) : Op ι → Prop
  | .wake t _ => s.resume t ≠ some .zombie
  | _         => True

end Step

-- A task on its own: its registers when it runs or when it was last trapped, and where it goes on.
structure User where
  regs       : Reg → Word
  pc         : Word
  epc        : Word
  wait       : Option Resume
  zombie     : Bool
  exitStatus : BitVec 32

namespace User

-- The program goes on behind its last system call, where each of the last registers has the word of the next one.
def back (u : User) : User :=
  { u with
    regs := fun r =>
      match source r with
      | .reg r' => u.regs r'
      | _       => u.epc
    pc   := u.epc
    wait := none }

def setA0 (u : User) (w : Word) : User :=
  { u with regs := Function.update u.regs a0 w }

def finish (u : User) : User :=
  if u.zombie then { u with wait := some .zombie } else u.back

def trap (u : User) (pid ppid : BitVec 32) (scause : UserCause) (file : BitVec 32) : User :=
  match scause with
  | .ecallUser =>
    let u := { u with epc := u.pc + 4 }
    match syscall (u.regs a7) pid ppid file with
    | .ret r => (u.setA0 <| r.signExtend 64).finish
    | .yield => { u with wait := some .schedYield }
    | .exit  => ({ u with exitStatus := (u.regs a0).setWidth 32, zombie := true }.setA0 0).finish
  | .supvTimer => { u with wait := some .timer }
  | .other     => u.finish

def wake (u : User) : User :=
  match u.wait with
  | some .create     => u.back
  | some .timer      => u.finish
  | some .schedYield => (u.setA0 0).finish
  | _                => u

def step (pid ppid : BitVec 32) (u : User) : Op ι → User
  | .exec _ regs pc         => { u with regs, pc }
  | .trap _ scause file _ => u.trap pid ppid scause file
  | .wake _ _             => u.wake
  | .write _              => u

end User

namespace System

-- The scheduler has not run yet.
structure Start (s : System ι) : Prop where
  user   : s.user = none
  resume : ∀ t, s.resume t = some .create
  zombie : ∀ t, s.zombie t = false

-- A task as `task_create` leaves it.
def created (ts : Tasks ι) (s : System ι) (t : ι) : User where
  regs r     := ts.field s.mem t (.reg r)
  pc         := ts.field s.mem t .epc
  epc        := ts.field s.mem t .epc
  wait       := some .create
  zombie     := false
  exitStatus := s.exitStatus t

end System

-- The system stands for the task on its own: the registers are those of the hart while the program runs, else they are in
-- the trapframe.
structure System.Sees (ts : Tasks ι) (s : System ι) (t : ι) (u : User) : Prop where
  epc        : ts.field s.mem t .epc = u.epc
  resume     : s.resume t = u.wait
  zombie     : s.zombie t = u.zombie
  exitStatus : s.exitStatus t = u.exitStatus
  running    : s.user = some t → u.wait = none ∧ s.regs = u.regs ∧ s.pc = u.pc ∧ s.csrs sscratch = procVaTrapframe
  waiting    : s.user ≠ some t → u.wait ≠ none ∧ ∀ r, ts.field s.mem t (.reg r) = u.regs r

end Zgmos.Trap
