import Zgmos.Lib.Riscv

-- The switching between contexts.

namespace Zgmos.Scheduler

open Riscv Reg Instr

-- The members of `struct context` in the order of their declaration.
def contextFields : List Reg := [
  sp, gp, tp,
  s0, s1, s2, s3, s4, s5, s6, s7, s8, s9, s10, s11,
  ra]

def swtchAsm : List Instr := [
  sd sp (0 * 8) a0,
  sd s0 (3 * 8) a0,
  sd s1 (4 * 8) a0,
  sd s2 (5 * 8) a0,
  sd s3 (6 * 8) a0,
  sd s4 (7 * 8) a0,
  sd s5 (8 * 8) a0,
  sd s6 (9 * 8) a0,
  sd s7 (10 * 8) a0,
  sd s8 (11 * 8) a0,
  sd s9 (12 * 8) a0,
  sd s10 (13 * 8) a0,
  sd s11 (14 * 8) a0,
  sd ra (15 * 8) a0,

  ld sp (0 * 8) a1,
  ld s0 (3 * 8) a1,
  ld s1 (4 * 8) a1,
  ld s2 (5 * 8) a1,
  ld s3 (6 * 8) a1,
  ld s4 (7 * 8) a1,
  ld s5 (8 * 8) a1,
  ld s6 (9 * 8) a1,
  ld s7 (10 * 8) a1,
  ld s8 (11 * 8) a1,
  ld s9 (12 * 8) a1,
  ld s10 (13 * 8) a1,
  ld s11 (14 * 8) a1,
  ld ra (15 * 8) a1,

  jr ra]

-- The registers that are kept.
def kept : List Reg :=
  [sp, s0, s1, s2, s3, s4, s5, s6, s7, s8, s9, s10, s11, ra]

def fieldOffset (r : Reg) : BitVec 12 :=
  .ofNat 12 (contextFields.idxOf r * 8)

def contextSize : Nat :=
  contextFields.length * 8

-- The addresses of the contexts. Their memory does not overlap.
structure Contexts (ι : Type) where
  base  : ι → Word
  apart : ∀ c c', c ≠ c' → contextSize ≤ (base c' - base c).toNat

-- What is done on the hart. `code` stands for all instructions which are executed before the next call of
-- `swtch`, and leads to an arbitrary state. A context is `fresh` after it has been initialized.
inductive Event (ι : Type)
  | code (m : Machine)
  | fresh (c : ι)
  | swtch (old new : ι)

variable {ι : Type}

namespace Contexts

variable (cs : Contexts ι)

def address (c : ι) (r : Reg) : Word :=
  offset (cs.base c) (fieldOffset r)

-- A call with the addresses of two contexts as arguments.
def swtch (m : Machine) (old new : ι) : Machine :=
  { m with regs := Function.update (Function.update m.regs a0 <| cs.base old) a1 <| cs.base new }.run swtchAsm

-- What is saved in a context.
def load (m : Machine) (c : ι) : Reg → Word :=
  fun r => m.mem <| cs.address c r

def Same (m m' : Machine) (c : ι) : Prop :=
  ∀ r ∈ contextFields, cs.load m' c r = cs.load m c r

instance (m m' : Machine) (c : ι) : Decidable (cs.Same m m' c) :=
  inferInstanceAs <| Decidable (∀ r ∈ contextFields, _)

end Contexts

-- The hart, and the registers with which the contexts are to be resumed: those of their last call of `swtch`, or
-- those of their initialization. A context which has been written since then is not resumed.
structure Switching (ι : Type) where
  hart  : Machine
  saved : ι → Option (Reg → Word)

namespace Switching

variable [DecidableEq ι] (cs : Contexts ι) (s : Switching ι)

def suspend (old : ι) : Switching ι :=
  { s with saved := Function.update s.saved old <| some s.hart.regs }

def step : Event ι → Switching ι
  | .code m        => { hart := m, saved := fun c => if cs.Same s.hart m c then s.saved c else none }
  | .fresh c       => { s with saved := Function.update s.saved c <| some <| cs.load s.hart c }
  | .swtch old new => { s.suspend old with hart := cs.swtch s.hart old new }

def run (es : List (Event ι)) : Switching ι :=
  es.foldl (step cs) s

-- No context has been suspended.
def start (m : Machine) : Switching ι where
  hart    := m
  saved _ := none

-- What is wanted of the switch from `old` to `new`.
structure Isolated (old new : ι) : Prop where
  resumed : ∀ v ∈ (s.suspend old).saved new, ∀ r ∈ kept, (cs.swtch s.hart old new).regs r = v r
  pc      : ∀ v ∈ (s.suspend old).saved new, (cs.swtch s.hart old new).pc = v ra
  others  : ∀ c ≠ old, cs.Same s.hart (cs.swtch s.hart old new) c

end Switching

-- The registers with their places in the contexts.
def places : List (Reg × BitVec 12) := [
  (sp, 0 * 8), (s0, 3 * 8), (s1, 4 * 8), (s2, 5 * 8), (s3, 6 * 8), (s4, 7 * 8), (s5, 8 * 8), (s6, 9 * 8),
  (s7, 10 * 8), (s8, 11 * 8), (s9, 12 * 8), (s10, 13 * 8), (s11, 14 * 8), (ra, 15 * 8)]

variable {cs : Contexts ι} {s : Switching ι} {m m' : Machine} {c c' old new : ι} {r r' : Reg} {es : List (Event ι)}

theorem swtchAsm_eq : swtchAsm = stores a0 places ++ loads a1 places ++ [jr ra] :=
  rfl

-- The places are those of the members.
theorem mem_places : ∀ r ∈ kept, (r, fieldOffset r) ∈ places := by
  decide

theorem kept_of_mem_places : ∀ p ∈ places, p.1 ∈ kept ∧ p.2 = fieldOffset p.1 := by
  decide

theorem kept_subset : ∀ r ∈ kept, r ∈ contextFields := by
  decide

theorem places_nodup : (places.map Prod.snd).Nodup ∧ (places.map Prod.fst).Nodup := by
  decide

theorem fieldOffset_toNat (r : Reg) : ((fieldOffset r).signExtend 64).toNat = contextFields.idxOf r * 8 := by
  cases r <;> decide

namespace Contexts

theorem slot_le (h : r ∈ contextFields) : contextFields.idxOf r * 8 + 8 ≤ contextSize := by
  have := List.idxOf_lt_length_of_mem h
  unfold contextSize
  omega

theorem address_ne (cs : Contexts ι) (h : c ≠ c') (hr : r ∈ contextFields) (hr' : r' ∈ contextFields) :
    cs.address c r ≠ cs.address c' r' := by
  intro he
  have hl := cs.apart c c' h
  have hl' := cs.apart c' c h.symm
  have hs := slot_le hr
  have hs' := slot_le hr'
  have ho := fieldOffset_toNat r
  have ho' := fieldOffset_toNat r'
  have hsize : contextSize = 128 := rfl
  simp only [address, offset] at he
  generalize (fieldOffset r).signExtend 64 = x at he ho
  generalize (fieldOffset r').signExtend 64 = y at he ho'
  bv_omega

variable (cs) in
-- The hart after the registers have been saved.
def stored (m : Machine) (old new : ι) : Machine :=
  { m with regs := Function.update (Function.update m.regs a0 <| cs.base old) a1 <| cs.base new }.run <|
    stores a0 places

theorem swtch_eq : cs.swtch m old new = (cs.stored m old new).run (loads a1 places ++ [jr ra]) := by
  rw [swtch, swtchAsm_eq, List.append_assoc, Machine.run_append]
  rfl

theorem swtch_mem : (cs.swtch m old new).mem = (cs.stored m old new).mem := by
  rw [swtch_eq, Machine.run_append]
  exact run_loads_mem

theorem stored_a1 : (cs.stored m old new).regs a1 = cs.base new := by
  rw [stored, run_stores_regs]
  simp

-- The registers are in the members of the old context.
theorem load_stored (hr : r ∈ kept) : cs.load (cs.stored m old new) old r = m.regs r := by
  have hne : r ≠ a0 ∧ r ≠ a1 := by
    constructor <;> (intro he; rw [he] at hr; revert hr; decide)
  have hs := @run_stores_mem
    { m with regs := Function.update (Function.update m.regs a0 <| cs.base old) a1 <| cs.base new }
    a0 _ _ _ places_nodup.1 (mem_places r hr)
  simpa [hne, stored, load, address] using hs

-- The other contexts remain as they are.
theorem same_swtch (cs : Contexts ι) (m : Machine) (new : ι) (h : c ≠ old) : cs.Same m (cs.swtch m old new) c := by
  intro r hr
  rw [load, swtch_mem, stored]
  apply run_stores_of_ne
  intro p hp
  have ⟨hk, he⟩ := kept_of_mem_places p hp
  rw [he]
  have := cs.address_ne h hr (kept_subset _ hk)
  simpa [address] using this

-- The registers are those of the new context.
theorem swtch_regs (hr : r ∈ kept) : (cs.swtch m old new).regs r = cs.load (cs.stored m old new) new r := by
  have hl := @run_loads_regs (cs.stored m old new) a1 _ _ _ (by decide) places_nodup.2 (mem_places r hr)
  rw [stored_a1] at hl
  rw [swtch_eq, Machine.run_append]
  exact hl

theorem swtch_pc : (cs.swtch m old new).pc = (cs.swtch m old new).regs ra := by
  rw [swtch_eq, Machine.run_append]
  rfl

end Contexts

namespace Switching

variable (cs s) in
-- The registers with which a context is to be resumed are in its members.
def Sound : Prop :=
  ∀ c, ∀ v ∈ s.saved c, ∀ r ∈ kept, cs.load s.hart c r = v r

theorem Sound.start (cs : Contexts ι) (m : Machine) : (start m : Switching ι).Sound cs := by
  intro c v hv
  cases hv

variable [DecidableEq ι]

-- After the registers have been saved, this also holds for the old context.
theorem Sound.stored (w : s.Sound cs) (new : ι) : ∀ c, ∀ v ∈ (s.suspend old).saved c, ∀ r ∈ kept,
    cs.load (cs.stored s.hart old new) c r = v r := by
  intro c v hv r hr
  by_cases hc : c = old
  case pos =>
    simp only [hc, suspend, Function.update_self] at hv
    cases hv
    rw [hc]
    exact Contexts.load_stored hr
  case neg =>
    simp only [suspend, Function.update_of_ne hc] at hv
    have hs := cs.same_swtch s.hart new hc r (kept_subset r hr)
    rw [Contexts.load, Contexts.swtch_mem] at hs
    exact hs.trans <| w c v hv r hr

theorem Sound.step (w : s.Sound cs) (e : Event ι) : (s.step cs e).Sound cs := by
  cases e
  case code m =>
    intro c v hv r hr
    simp only [Switching.step] at hv
    split_ifs at hv
    case pos hs => exact (hs r <| kept_subset r hr).trans <| w c v hv r hr
    case neg    => cases hv
  case fresh c' =>
    intro c v hv r hr
    by_cases hc : c = c'
    case pos =>
      simp only [Switching.step, hc, Function.update_self] at hv
      cases hv
      rw [hc]
      rfl
    case neg =>
      simp only [Switching.step, Function.update_of_ne hc] at hv
      exact w c v hv r hr
  case swtch old new =>
    intro c v hv r hr
    have := w.stored new c v hv r hr
    rwa [Contexts.load, ← Contexts.swtch_mem] at this

theorem Sound.run (w : s.Sound cs) (es : List (Event ι)) : (s.run cs es).Sound cs := by
  induction es generalizing s
  case nil          => exact w
  case cons e es hi => exact hi <| w.step e

-- Each context is resumed with the registers with which it was suspended.
theorem run_isolated (cs : Contexts ι) (m : Machine) (es : List (Event ι)) (old new : ι) :
    ((start m).run cs es).Isolated cs old new := by
  have w := Sound.start cs m |>.run es
  have hr : ∀ v ∈ (((start m).run cs es).suspend old).saved new, ∀ r ∈ kept,
      (cs.swtch ((start m).run cs es).hart old new).regs r = v r := by
    intro v hv r hr
    rw [Contexts.swtch_regs hr]
    exact w.stored new new v hv r hr
  constructor
  case resumed => exact hr
  case pc      => exact fun v hv => Contexts.swtch_pc.trans <| hr v hv ra <| by decide
  case others  => exact fun c hc => cs.same_swtch _ _ hc

-- The contexts of the scheduler and of a task. The one of the task is initialized in the memory of the hart.

def twoContexts : Contexts Bool where
  base c := if c then 0x80400080 else 0x80400000
  apart  := by decide

def schedulerHart : Machine where
  regs r := r.ctorIdx
  csrs _ := 0
  mem a  := if a = 0x804000f8 then 0x80201000 else 0
  pc     := 0x80200000

-- The task has changed all registers when it calls `swtch`.
def taskHart : Machine :=
  { twoContexts.swtch schedulerHart false true with regs r := 100 + r.ctorIdx }

-- The scheduler is suspended and resumed, and so is the task.
theorem twoContexts_isolated :
    ((twoContexts.swtch taskHart true false).regs s1 = 8 ∧ (twoContexts.swtch taskHart true false).pc = 0) ∧
    (twoContexts.swtch (twoContexts.swtch taskHart true false) false true).regs s1 = 108 := by
  -- The task has not written the context of the scheduler.
  have hsame : twoContexts.Same (twoContexts.swtch schedulerHart false true) taskHart false := fun _ _ => rfl
  have h₁ := run_isolated twoContexts schedulerHart [.fresh true, .swtch false true, .code taskHart] true false
  have h₂ := run_isolated twoContexts schedulerHart
    [.fresh true, .swtch false true, .code taskHart, .swtch true false] false true
  have hs₁ : (((start schedulerHart).run twoContexts [.fresh true, .swtch false true, .code taskHart]).suspend true).saved
      false = some schedulerHart.regs := by
    have he : (if twoContexts.Same (twoContexts.swtch schedulerHart false true) taskHart false then
      some schedulerHart.regs else none) = some schedulerHart.regs := if_pos hsame
    exact he
  have hs₂ : (((start schedulerHart).run twoContexts
      [.fresh true, .swtch false true, .code taskHart, .swtch true false]).suspend false).saved true =
      some taskHart.regs := rfl
  exact ⟨⟨h₁.resumed _ hs₁ s1 (by decide), h₁.pc _ hs₁⟩, h₂.resumed _ hs₂ s1 (by decide)⟩

end Switching

end Zgmos.Scheduler
