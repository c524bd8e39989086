import Mathlib

-- Straight-line code of a RISC-V hart. The memory is seen through naturally aligned double words.

namespace Riscv

abbrev Word := BitVec 64

-- The general registers `x1` to `x31`.
inductive Reg
  | ra | sp | gp | tp
  | t0 | t1 | t2
  | s0 | s1
  | a0 | a1 | a2 | a3 | a4 | a5 | a6 | a7
  | s2 | s3 | s4 | s5 | s6 | s7 | s8 | s9 | s10 | s11
  | t3 | t4 | t5 | t6
  deriving DecidableEq, Repr

theorem Reg.ctorIdx_inj {r r' : Reg} (h : r.ctorIdx = r'.ctorIdx) : r = r' := by
  rw [← Reg.ofNat_ctorIdx r, h, Reg.ofNat_ctorIdx]

theorem Reg.ctorIdx_lt (r : Reg) : r.ctorIdx < 31 := by
  cases r <;> decide

inductive Csr
  | sscratch | satp | sepc
  deriving DecidableEq, Repr

inductive Instr
  | csrrw (rd : Reg) (csr : Csr) (rs : Reg)
  | csrr  (rd : Reg) (csr : Csr)
  | csrw  (csr : Csr) (rs : Reg)
  | sd    (rs : Reg) (imm : BitVec 12) (base : Reg)
  | ld    (rd : Reg) (imm : BitVec 12) (base : Reg)
  | addi  (rd rs : Reg) (imm : BitVec 12)
  | sfenceVma
  | jr    (rs : Reg)
  | sret

structure Machine where
  regs : Reg → Word
  csrs : Csr → Word
  mem  : Word → Word
  pc   : Word

-- The address of an access with an immediate offset.
def offset (base : Word) (imm : BitVec 12) : Word :=
  base + imm.signExtend 64

theorem offset_inj {base : Word} {i j : BitVec 12} : offset base i = offset base j ↔ i = j := by
  constructor
  case mpr => exact congrArg _
  case mp =>
    intro h
    have h : i.signExtend 64 = j.signExtend 64 := by simpa [offset] using h
    apply BitVec.eq_of_toInt_eq
    have := congrArg BitVec.toInt h
    simpa [BitVec.toInt_signExtend_of_le] using this

namespace Machine

def exec (m : Machine) : Instr → Machine
  | .csrrw rd csr rs => { m with
      regs := Function.update m.regs rd (m.csrs csr)
      csrs := Function.update m.csrs csr (m.regs rs) }
  | .csrr rd csr     => { m with regs := Function.update m.regs rd (m.csrs csr) }
  | .csrw csr rs     => { m with csrs := Function.update m.csrs csr (m.regs rs) }
  | .sd rs imm base  => { m with mem := Function.update m.mem (offset (m.regs base) imm) (m.regs rs) }
  | .ld rd imm base  => { m with regs := Function.update m.regs rd (m.mem <| offset (m.regs base) imm) }
  | .addi rd rs imm  => { m with regs := Function.update m.regs rd <| offset (m.regs rs) imm }
  | .sfenceVma       => m
  | .jr rs           => { m with pc := m.regs rs }
  | .sret            => { m with pc := m.csrs .sepc }

def run (m : Machine) (is : List Instr) : Machine :=
  is.foldl exec m

variable {m : Machine} {is₁ is₂ : List Instr} {i : Instr}

@[simp]
theorem run_nil : m.run [] = m :=
  rfl

@[simp]
theorem run_cons : m.run (i :: is₁) = (m.exec i).run is₁ :=
  rfl

@[simp]
theorem run_append : m.run (is₁ ++ is₂) = (m.run is₁).run is₂ :=
  List.foldl_append

end Machine

-- The saving and the restoring of a block of registers.

def stores (base : Reg) (ps : List (Reg × BitVec 12)) : List Instr :=
  ps.map fun (r, i) => .sd r i base

def loads (base : Reg) (ps : List (Reg × BitVec 12)) : List Instr :=
  ps.map fun (r, i) => .ld r i base

section Blocks

variable {m : Machine} {base r : Reg} {i : BitVec 12} {ps : List (Reg × BitVec 12)} {a : Word}

@[simp]
theorem stores_cons {p : Reg × BitVec 12} :
    stores base (p :: ps) = .sd p.1 p.2 base :: stores base ps :=
  rfl

@[simp]
theorem loads_cons {p : Reg × BitVec 12} :
    loads base (p :: ps) = .ld p.1 p.2 base :: loads base ps :=
  rfl

@[simp]
theorem run_stores_regs : (m.run (stores base ps)).regs = m.regs := by
  induction ps generalizing m
  case nil        => rfl
  case cons p _ h => exact h (m := m.exec <| .sd p.1 p.2 base)

@[simp]
theorem run_stores_csrs : (m.run (stores base ps)).csrs = m.csrs := by
  induction ps generalizing m
  case nil        => rfl
  case cons p _ h => exact h (m := m.exec <| .sd p.1 p.2 base)

theorem run_stores_of_ne (h : ∀ p ∈ ps, a ≠ offset (m.regs base) p.2) :
    (m.run (stores base ps)).mem a = m.mem a := by
  induction ps generalizing m
  case nil => rfl
  case cons p ps hi =>
    have := hi (m := m.exec <| .sd p.1 p.2 base) fun q hq => h q (by simp [hq])
    simpa [Machine.exec, h p] using this

-- Every register of a block is found where it was stored.
theorem run_stores_mem (hn : (ps.map Prod.snd).Nodup) (h : (r, i) ∈ ps) :
    (m.run (stores base ps)).mem (offset (m.regs base) i) = m.regs r := by
  induction ps generalizing m
  case nil => nomatch h
  case cons p ps hi =>
    have ⟨hp, hn⟩ := List.nodup_cons.mp hn
    cases h
    case tail h => exact hi (m := m.exec <| .sd p.1 p.2 base) hn h
    case head =>
      have hd : ∀ q ∈ ps, offset (m.regs base) i ≠ offset (m.regs base) q.2 := by
        intro q hq he
        exact hp <| List.mem_map.mpr ⟨q, hq, (offset_inj.mp he).symm⟩
      have := run_stores_of_ne (m := m.exec <| .sd r i base) hd
      simpa [Machine.exec] using this

@[simp]
theorem run_loads_mem : (m.run (loads base ps)).mem = m.mem := by
  induction ps generalizing m
  case nil        => rfl
  case cons p _ h => exact h (m := m.exec <| .ld p.1 p.2 base)

@[simp]
theorem run_loads_csrs : (m.run (loads base ps)).csrs = m.csrs := by
  induction ps generalizing m
  case nil        => rfl
  case cons p _ h => exact h (m := m.exec <| .ld p.1 p.2 base)

theorem run_loads_of_not_mem (h : r ∉ ps.map Prod.fst) :
    (m.run (loads base ps)).regs r = m.regs r := by
  induction ps generalizing m
  case nil => rfl
  case cons p ps hi =>
    have ⟨hp, h⟩ := not_or.mp <| List.mem_cons.not.mp h
    have := hi (m := m.exec <| .ld p.1 p.2 base) h
    simpa [Machine.exec, hp] using this

-- Every register of a block gets the word from which it is loaded.
theorem run_loads_regs (hb : base ∉ ps.map Prod.fst) (hn : (ps.map Prod.fst).Nodup)
    (h : (r, i) ∈ ps) : (m.run (loads base ps)).regs r = m.mem (offset (m.regs base) i) := by
  induction ps generalizing m
  case nil => nomatch h
  case cons p ps hi =>
    have ⟨hp, hn⟩ := List.nodup_cons.mp hn
    have ⟨hbp, hb⟩ := not_or.mp <| List.mem_cons.not.mp hb
    cases h
    case tail h =>
      have := hi (m := m.exec <| .ld p.1 p.2 base) hb hn h
      simpa [Machine.exec, hbp] using this
    case head =>
      have hr : ((m.exec <| .ld r i base).run (loads base ps)).regs r = (m.exec <| .ld r i base).regs r :=
        run_loads_of_not_mem hp
      simpa [Machine.exec] using hr

-- The base may be among the registers if its word is the base itself.
theorem run_loads_regs_of_self (hb : ∀ j, (base, j) ∈ ps → m.mem (offset (m.regs base) j) = m.regs base)
    (hn : (ps.map Prod.fst).Nodup) (h : (r, i) ∈ ps) :
    (m.run (loads base ps)).regs r = m.mem (offset (m.regs base) i) := by
  induction ps generalizing m
  case nil => nomatch h
  case cons p ps hi =>
    have ⟨hp, hn⟩ := List.nodup_cons.mp hn
    have hs : (m.exec <| .ld p.1 p.2 base).regs base = m.regs base := by
      by_cases hpb : p.1 = base
      case pos =>
        have := hb p.2 <| by rw [← hpb]; exact .head _
        simpa [Machine.exec, hpb] using this
      case neg => simp [Machine.exec, Ne.symm hpb]
    cases h
    case head =>
      have hr : ((m.exec <| .ld r i base).run (loads base ps)).regs r = (m.exec <| .ld r i base).regs r :=
        run_loads_of_not_mem hp
      simpa [Machine.exec] using hr
    case tail h =>
      have hm : (m.exec <| .ld p.1 p.2 base).mem = m.mem := rfl
      have := hi (m := m.exec <| .ld p.1 p.2 base) (fun j hj => by rw [hs, hm]; exact hb j (.tail _ hj)) hn h
      rwa [hs, hm] at this

end Blocks

end Riscv
