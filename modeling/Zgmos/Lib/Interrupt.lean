import Zgmos.Lib.Riscv

-- Interrupts that return. They leave the registers as they are and overwrite only words on which nothing depends.

namespace Riscv

structure Core where
  regs : Reg → Word
  csrs : Csr → Word
  pc   : Word

-- An instruction. It loads at most one word, and stores at most one. What it loads determines its results together with
-- the registers.
structure Op where
  load  : Core → Option Word
  exec  : Core → (loaded : Word) → Core
  store : Core → (loaded : Word) → Option (Word × Word)

namespace Core

def withMem (c : Core) (mem : Word → Word) : Machine :=
  { regs := c.regs, csrs := c.csrs, pc := c.pc, mem }

def next (c : Core) : Core :=
  { c with pc := c.pc + 4 }

-- An interrupt overwrites the register `sepc`.
structure Same (c c' : Core) : Prop where
  regs : c'.regs = c.regs
  pc   : c'.pc = c.pc
  csrs : csr ≠ .sepc → c'.csrs csr = c.csrs csr

end Core

namespace Instr

def load (regs : Reg → Word) : Instr → Option Word
  | ld _ imm base => some (offset (regs base) imm)
  | _             => none

def store (regs : Reg → Word) : Instr → Option (Word × Word)
  | sd rs imm base => some (offset (regs base) imm, regs rs)
  | _              => none

def jumps : Instr → Bool
  | jr _ | sret => true
  | _           => false

def ReadsSepc : Instr → Prop
  | csrrw _ .sepc _ | csrr _ .sepc | sret => True
  | _                                     => False

end Instr

namespace Machine

def core (m : Machine) : Core :=
  { regs := m.regs, csrs := m.csrs, pc := m.pc }

def loaded (m : Machine) (op : Op) : Word :=
  (op.load m.core).elim 0 m.mem

def written (m : Machine) (op : Op) : Option (Word × Word) :=
  op.store m.core (m.loaded op)

def perform (m : Machine) (op : Op) : Machine :=
  (op.exec m.core <| m.loaded op).withMem <| (m.written op).elim m.mem fun p => Function.update m.mem p.1 p.2

-- The code is not in the memory that is written.
def steps (code : Word → Op) : Nat → Machine → Machine
  | 0,     m => m
  | n + 1, m => steps code n <| m.perform <| code m.pc

end Machine

namespace Op

-- What the instruction does does not depend on `sepc`.
structure IgnoresSepc (op : Op) : Prop where
  load  : ∀ c c', c.Same c' → op.load c' = op.load c
  exec  : ∀ c c' w, c.Same c' → (op.exec c w).Same (op.exec c' w)
  store : ∀ c c' w, c.Same c' → op.store c' w = op.store c w

def ofInstr (i : Instr) : Op where
  load c    := i.load c.regs
  exec c w  :=
    let m := (c.withMem fun _ => w).exec i
    if i.jumps then m.core else m.core.next
  store c _ := i.store c.regs

-- An instruction of the ALU. An immediate operand is a part of `f`.
def arith (f : Word → Word → Word) (rd rs₁ rs₂ : Reg) : Op where
  load _    := none
  exec c _  := { c with regs := Function.update c.regs rd <| f (c.regs rs₁) (c.regs rs₂) }.next
  store _ _ := none

def branch (p : Word → Word → Bool) (rs₁ rs₂ : Reg) (imm : BitVec 13) : Op where
  load _    := none
  exec c _  := if p (c.regs rs₁) (c.regs rs₂) then { c with pc := c.pc + imm.signExtend 64 } else c.next
  store _ _ := none

def jal (rd : Reg) (imm : BitVec 21) : Op where
  load _    := none
  exec c _  := { c with regs := Function.update c.regs rd (c.pc + 4), pc := c.pc + imm.signExtend 64 }
  store _ _ := none

end Op

section Instructions

variable {c c' : Core} {m : Machine} {i : Instr} {f : Word → Word → Word} {p : Word → Word → Bool} {rd rs₁ rs₂ : Reg}

theorem Core.Same.next (s : c.Same c') : c.next.Same c'.next where
  regs := s.regs
  pc   := congrArg (· + 4) s.pc
  csrs := s.csrs

theorem Core.Same.instr (s : c.Same c') (h : ¬i.ReadsSepc) (mem : Word → Word) :
    ((c.withMem mem).exec i).core.Same ((c'.withMem mem).exec i).core := by
  have hr := s.regs
  cases i
  case csrrw rd csr rs =>
    have hn : csr ≠ .sepc := fun hc => h <| hc ▸ trivial
    exact {
      regs    := by simp only [Machine.exec, Machine.core, Core.withMem, hr, s.csrs hn]
      pc      := s.pc
      csrs hc := by simp only [Machine.exec, Machine.core, Core.withMem, Function.update_apply, hr, s.csrs hc]
    }
  case csrr rd csr =>
    have hn : csr ≠ .sepc := fun hc => h <| hc ▸ trivial
    exact {
      regs    := by simp only [Machine.exec, Machine.core, Core.withMem, hr, s.csrs hn]
      pc      := s.pc
      csrs hc := s.csrs hc
    }
  case csrw csr rs =>
    exact {
      regs    := hr
      pc      := s.pc
      csrs hc := by simp only [Machine.exec, Machine.core, Core.withMem, Function.update_apply, hr, s.csrs hc]
    }
  case sd => exact ⟨hr, s.pc, s.csrs⟩
  case ld rd imm base =>
    exact {
      regs    := by simp only [Machine.exec, Machine.core, Core.withMem, hr]
      pc      := s.pc
      csrs hc := s.csrs hc
    }
  case addi rd rs imm =>
    exact {
      regs    := by simp only [Machine.exec, Machine.core, Core.withMem, hr]
      pc      := s.pc
      csrs hc := s.csrs hc
    }
  case sfenceVma => exact ⟨hr, s.pc, s.csrs⟩
  case jr rs =>
    exact {
      regs    := hr
      pc      := by simp only [Machine.exec, Machine.core, Core.withMem, hr]
      csrs hc := s.csrs hc
    }
  case sret => exact absurd trivial h

namespace Op

-- The instructions of the straight-line code as parts of a program.
theorem perform_ofInstr :
    m.perform (ofInstr i) = { m.exec i with pc := if i.jumps then (m.exec i).pc else m.pc + 4 } := by
  cases i <;> rfl

theorem ofInstr_ignoresSepc (h : ¬i.ReadsSepc) : (ofInstr i).IgnoresSepc where
  load _ _ s  := by simp only [ofInstr, s.regs]
  exec _ _ w s := by
    have s' := s.instr h fun _ => w
    simp only [ofInstr]
    split_ifs
    case pos => exact s'
    case neg => exact s'.next
  store _ _ _ s := by simp only [ofInstr, s.regs]

theorem arith_ignoresSepc : (arith f rd rs₁ rs₂).IgnoresSepc where
  load _ _ _    := rfl
  exec _ _ _ s  := by
    refine Core.Same.next ⟨?_, s.pc, s.csrs⟩
    simp only [s.regs]
  store _ _ _ _ := rfl

theorem branch_ignoresSepc {imm : BitVec 13} : (branch p rs₁ rs₂ imm).IgnoresSepc where
  load _ _ _    := rfl
  exec _ _ _ s  := by
    simp only [branch]
    rw [s.regs]
    split_ifs
    case pos => exact ⟨rfl, congrArg (· + _) s.pc, s.csrs⟩
    case neg => exact s.next
  store _ _ _ _ := rfl

theorem jal_ignoresSepc {imm : BitVec 21} : (jal rd imm).IgnoresSepc where
  load _ _ _    := rfl
  exec _ _ _ s  := ⟨by simp only [jal, s.regs, s.pc], congrArg (· + _) s.pc, s.csrs⟩
  store _ _ _ _ := rfl

end Op

end Instructions

-- The two harts differ at most in `sepc` and in the words of `D`.
structure Agree (D : Set Word) (m m' : Machine) : Prop where
  core : m.core.Same m'.core
  mem  : a ∉ D → m'.mem a = m.mem a

namespace Agree

variable {D D' : Set Word} {m m' m'' : Machine} {op : Op}

theorem refl (D : Set Word) (m : Machine) : Agree D m m where
  core  := ⟨rfl, rfl, fun _ => rfl⟩
  mem _ := rfl

theorem mono (h : Agree D m m') (hd : D ⊆ D') : Agree D' m m' where
  core   := h.core
  mem ha := h.mem fun hm => ha <| hd hm

theorem trans (h : Agree D m m') (h' : Agree D' m' m'') : Agree (D ∪ D') m m'' where
  core   := {
    regs    := h'.core.regs.trans h.core.regs
    pc      := h'.core.pc.trans h.core.pc
    csrs hc := (h'.core.csrs hc).trans <| h.core.csrs hc
  }
  mem ha := (h'.mem fun hm => ha <| .inr hm).trans <| h.mem fun hm => ha <| .inl hm

theorem regs (h : Agree D m m') : m'.regs = m.regs :=
  h.core.regs

theorem pc (h : Agree D m m') : m'.pc = m.pc :=
  h.core.pc

-- An instruction that loads no word of `D` loads and stores the same in both.

theorem loaded (h : Agree D m m') (hs : op.IgnoresSepc) (hl : ∀ a ∈ op.load m.core, a ∉ D) : m'.loaded op = m.loaded op := by
  have he := hs.load _ _ h.core
  cases hc : op.load m.core
  case none => simp only [Machine.loaded, he, hc, Option.elim_none]
  case some a =>
    simp only [Machine.loaded, he, hc, Option.elim_some]
    exact h.mem <| hl a hc

theorem written (h : Agree D m m') (hs : op.IgnoresSepc) (hl : ∀ a ∈ op.load m.core, a ∉ D) : m'.written op = m.written op := by
  rw [Machine.written, h.loaded hs hl, hs.store _ _ _ h.core, Machine.written]

theorem perform (h : Agree D m m') (hs : op.IgnoresSepc) (hl : ∀ a ∈ op.load m.core, a ∉ D) :
    Agree (D \ { a | ∃ v, m.written op = some (a, v) }) (m.perform op) (m'.perform op) where
  core  := by
    have hw := h.loaded hs hl
    have he := hs.exec _ _ (m.loaded op) h.core
    rw [Machine.perform, Machine.perform, hw]
    exact he
  mem {a} ha := by
    simp only [Machine.perform, Core.withMem, h.written hs hl]
    cases hw : m.written op
    case none => exact h.mem fun hm => ha ⟨hm, fun hv => by simp [hw] at hv⟩
    case some p =>
      by_cases he : a = p.1
      case pos => simp only [Option.elim_some, he, Function.update_self]
      case neg =>
        simp only [Option.elim_some, Function.update_of_ne he]
        refine h.mem fun hm => ha ⟨hm, ?_⟩
        rintro ⟨v, hv⟩
        rw [hw] at hv
        cases hv
        exact he rfl

end Agree

section Programs

variable (code : Word → Op) (garbage : (Reg → Word) → Set Word) (interrupt : Machine → Machine → Prop)

-- The words on which nothing may depend: those of `D` and those which an interrupt may overwrite now.
def dead (D : Set Word) (m : Machine) : Set Word :=
  D ∪ garbage m.regs

-- The words on which nothing may depend after the next instruction.
def deadNext (D : Set Word) (m : Machine) : Set Word :=
  dead garbage D m \ { a | ∃ v, m.written (code m.pc) = some (a, v) }

-- The next `n` instructions load no word that an interrupt may have overwritten since it was stored.
def Clean : Nat → Set Word → Machine → Prop
  | 0,     _, _ => True
  | n + 1, D, m => (code m.pc).IgnoresSepc ∧ (∀ a ∈ (code m.pc).load m.core, a ∉ dead garbage D m) ∧
    Clean n (deadNext code garbage D m) (m.perform <| code m.pc)

-- The words on which nothing may depend after the next `n` instructions.
def deadAfter : Nat → Set Word → Machine → Set Word
  | 0,     D, m => dead garbage D m
  | n + 1, D, m => deadAfter n (deadNext code garbage D m) (m.perform <| code m.pc)

-- The next `n` instructions are executed, with interrupts before, between and after them.
inductive Interrupted : Nat → Machine → Machine → Prop
  | nil {m}          : Interrupted 0 m m
  | instr {n m m'}   : Interrupted n (m.perform <| code m.pc) m' → Interrupted (n + 1) m m'
  | trap {n m m₁ m'} : interrupt m m₁ → Interrupted n m₁ m' → Interrupted n m m'

variable {code garbage interrupt} {D : Set Word} {m m₁ m' : Machine} {n : Nat}

theorem Interrupted.agree (hi : ∀ m m', interrupt m m' → Agree (garbage m.regs) m m')
    (e : Interrupted code interrupt n m₁ m') (hc : Clean code garbage n D m) (h : Agree (dead garbage D m) m m₁) :
    Agree (deadAfter code garbage n D m) (m.steps code n) m' := by
  induction e generalizing m D
  case nil => exact h
  case instr n m₁ m' e hr =>
    obtain ⟨hs, hl, hc⟩ := hc
    refine hr hc <| Agree.mono ?_ Set.subset_union_left
    rw [h.pc]
    exact h.perform hs hl
  case trap n m₁ m₂ m' ht e hr =>
    apply hr hc
    have ha := h.trans (hi _ _ ht)
    rw [h.regs] at ha
    exact ha.mono (by rw [dead, Set.union_assoc, Set.union_self])

-- The code may be executed without any interrupt.
theorem Interrupted.steps : Interrupted code interrupt n m (m.steps code n) := by
  induction n generalizing m
  case zero      => exact .nil
  case succ n hi => exact .instr hi

-- Code is clean if it never loads a word of a set in which all that interrupts may overwrite lies.
theorem Clean.of_subset {G : Set Word} (hd : D ⊆ G)
    (h : ∀ k < n, let s := m.steps code k
      garbage s.regs ⊆ G ∧ (code s.pc).IgnoresSepc ∧ ∀ a ∈ (code s.pc).load s.core, a ∉ G) : Clean code garbage n D m := by
  induction n generalizing m D
  case zero => trivial
  case succ n hi =>
    obtain ⟨hg, hs, hl⟩ := h 0 n.succ_pos
    have hdead : dead garbage D m ⊆ G := Set.union_subset hd hg
    refine ⟨hs, fun a ha hm => hl a ha <| hdead hm, hi ?_ fun k hk => h (k + 1) <| Nat.succ_lt_succ hk⟩
    exact Set.sdiff_subset.trans hdead

-- Interrupts do not change what clean code computes.
theorem interrupted_steps (hi : ∀ m m', interrupt m m' → Agree (garbage m.regs) m m') (hc : Clean code garbage n D m)
    (e : Interrupted code interrupt n m m') : Agree (deadAfter code garbage n D m) (m.steps code n) m' :=
  e.agree hi hc (.refl _ m)

end Programs

end Riscv
