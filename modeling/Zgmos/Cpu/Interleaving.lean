import Zgmos.Cpu.Nesting
import Zgmos.Lib.Run

-- The harts run at the same time. Each access of `spinlock_acquire` and `spinlock_release` to the lock is a step of its
-- own, and the steps of the harts come in any order.

namespace Zgmos.Cpu

-- What a hart does: it calls a function of a lock, or it accesses the data which a lock guards.
inductive Action (R V : Type)
  | call (op : Op)
  | access (lk : Lock) (f : R → V → R × V)

-- Where a hart is in the functions.
inductive Pc
  | ready
  -- In `spinlock_holding`, before it reads `locked` and before it reads `cpu_id`.
  | locked (op : Op)
  | cpuId (op : Op)
  -- In `spinlock_acquire`, before the swap and before it sets `cpu_id`.
  | swap (lk : Lock)
  | record (lk : Lock)
  -- In `spinlock_release`, before it resets `cpu_id`, before it resets `locked`, and behind that.
  | clear (lk : Lock)
  | unlock (lk : Lock)
  | pop (lk : Lock)
  | panic

-- The actions `past` are finished, and the first one of `todo` is the current one.
structure Core (R V : Type) where
  sstatus   : BitVec 64
  intDepth  : Int
  intEnable : BitVec 64
  pc        : Pc
  reg       : R
  past      : List (Action R V)
  todo      : List (Action R V)

structure Machine (R V : Type) where
  locks : Lock → Spinlock
  data  : Lock → V
  cores : Fin hartNum → Core R V

def Op.lock : Op → Lock
  | acquire lk => lk
  | release lk => lk

-- What follows the result of `spinlock_holding`.
def Pc.afterHolding : Op → Bool → Pc
  | .acquire _,  true  => panic
  | .acquire lk, false => swap lk
  | .release lk, true  => clear lk
  | .release _,  false => panic

variable {R V : Type}

namespace Machine

def setCore (m : Machine R V) (i : Fin hartNum) (c : Core R V) : Machine R V :=
  { m with cores := Function.update m.cores i c }

def setPc (m : Machine R V) (i : Fin hartNum) (pc : Pc) : Machine R V :=
  m.setCore i { m.cores i with pc }

def setLock (m : Machine R V) (lk : Lock) (s : Spinlock) : Machine R V :=
  { m with locks := Function.update m.locks lk s }

-- The hart as its own functions see it.
def hart (m : Machine R V) (i : Fin hartNum) : Hart where
  hartid    := i
  sstatus   := (m.cores i).sstatus
  intDepth  := (m.cores i).intDepth
  intEnable := (m.cores i).intEnable
  locks     := m.locks

def setHart (m : Machine R V) (i : Fin hartNum) (h : Hart) : Machine R V :=
  m.setCore i { m.cores i with sstatus := h.sstatus, intDepth := h.intDepth, intEnable := h.intEnable }

-- The current action is finished.
def finish (m : Machine R V) (i : Fin hartNum) : Machine R V :=
  let c := m.cores i
  m.setCore i { c with pc := .ready, past := c.past ++ c.todo.take 1, todo := c.todo.tail }

-- The counters of the hart are its own, so that no other hart sees the parts of `cpu_int_push` and `cpu_int_pop`.
def begin (m : Machine R V) (i : Fin hartNum) : Op → Machine R V
  | .acquire lk => (m.setHart i (m.hart i).cpuIntPush).setPc i <| .locked <| .acquire lk
  | .release lk => m.setPc i <| .locked <| .release lk

def step (m : Machine R V) (i : Fin hartNum) : Machine R V :=
  match (m.cores i).pc with
  | .ready =>
    match (m.cores i).todo with
    | []                => m
    | .call op :: _     => m.begin i op
    | .access lk f :: _ =>
      let (reg, v) := f (m.cores i).reg (m.data lk)
      { m with data := Function.update m.data lk v }.setCore i { m.cores i with reg } |>.finish i
  | .locked op =>
    m.setPc i <| if (m.locks op.lock).locked ≠ 0 then .cpuId op else .afterHolding op false
  | .cpuId op =>
    m.setPc i <| .afterHolding op <| (m.locks op.lock).cpuId.signExtend 64 = BitVec.ofNat 64 i
  -- The swap is repeated as long as the lock is held.
  | .swap lk =>
    let m' := m.setLock lk { m.locks lk with locked := 1 }
    if (m.locks lk).locked ≠ 0 then m' else m'.setPc i <| .record lk
  | .record lk => m.setLock lk { m.locks lk with cpuId := .ofNat 32 i } |>.finish i
  | .clear lk  => m.setLock lk { m.locks lk with cpuId := -1 } |>.setPc i <| .unlock lk
  | .unlock lk => m.setLock lk { m.locks lk with locked := 0 } |>.setPc i <| .pop lk
  | .pop _     => m.setHart i (m.hart i).cpuIntPop |>.finish i
  | .panic     => m

-- The steps of the harts in some order.
abbrev Runs : Machine R V → List (Fin hartNum) → Machine R V → Prop :=
  Run fun m i m' => m.step i = m'

theorem runs_foldl (m : Machine R V) (is : List (Fin hartNum)) : m.Runs is (is.foldl step m) := by
  induction is generalizing m
  case nil          => exact .nil
  case cons i is hi => exact .cons rfl <| hi _

-- The locks have been initialized, and no hart has called anything so far.
structure Initial (m : Machine R V) : Prop where
  locks : ∀ lk, m.locks lk = ⟨0, -1⟩
  pc    : ∀ i, (m.cores i).pc = .ready
  depth : ∀ i, (m.cores i).intDepth = 0
  past  : ∀ i, (m.cores i).past = []

variable {m : Machine R V} {i j : Fin hartNum} {lk : Lock} {todo : List (Action R V)} {h : Hart}

theorem step_core_of_ne (h : j ≠ i) : (m.step i).cores j = m.cores j := by
  unfold step
  split
  case h_1 =>
    split
    case h_1 => rfl
    case h_2 op _ _ => cases op <;> simp [Machine.begin, setPc, setHart, setCore, h]
    case h_3 => simp [finish, setCore, h]
  case h_4 => split <;> simp [setPc, setCore, setLock, h]
  case h_9 => rfl
  all_goals simp [finish, setPc, setHart, setCore, setLock, h]

-- A step leaves the order of the actions alone.
theorem step_script : ((m.step i).cores i).past ++ ((m.step i).cores i).todo = (m.cores i).past ++ (m.cores i).todo := by
  have hf (c : List (Action R V)) : c.take 1 ++ c.tail = c := by cases c <;> rfl
  unfold step
  split
  case h_1 =>
    split
    case h_1 => rfl
    case h_2 op _ ht => cases op <;> simp [Machine.begin, setPc, setHart, setCore, ht]
    case h_3 ht => simp [finish, setCore, ht]
  case h_4 => split <;> simp [setPc, setCore, setLock]
  case h_9 => rfl
  all_goals simp [finish, setPc, setHart, setCore, setLock, hf]

theorem hart_setPc {pc : Pc} : (m.setPc i pc).hart i = m.hart i := by
  simp [setPc, setCore, hart]

theorem hart_finish : (m.finish i).hart i = m.hart i := by
  simp [finish, setCore, hart]

theorem hart_setLock {l : Spinlock} : (m.setLock lk l).hart i = (m.hart i).setLock lk l.locked l.cpuId := by
  simp [setLock, hart, Hart.setLock]

theorem hart_setHart (hi : h.hartid = i) (hl : h.locks = m.locks) : (m.setHart i h).hart i = h := by
  subst hi
  simp [setHart, setCore, hart, ← hl]

theorem cpuIntPop_frame (h : Hart) : h.cpuIntPop.hartid = h.hartid ∧ h.cpuIntPop.locks = h.locks := by
  simp only [Hart.cpuIntPop]
  split <;> exact ⟨rfl, rfl⟩

theorem runs_acquire (hp : (m.cores i).pc = .ready) (ht : (m.cores i).todo = .call (.acquire lk) :: todo)
    (hl : (m.locks lk).locked = 0) : ∃ m', m.Runs [i, i, i, i] m' ∧ .ok (m'.hart i) = (m.hart i).spinlockAcquire lk ∧
      (m'.cores i).pc = .ready ∧ (m'.cores i).todo = todo := by
  have ⟨e, he⟩ := (m.hart i).cpuIntPush_eq
  have h₁ : m.step i = m.begin i (.acquire lk) := by simp [step, hp, ht]
  have h₂ : (m.begin i (.acquire lk)).step i = (m.begin i (.acquire lk)).setPc i (.swap lk) := by
    simp [step, Machine.begin, setHart, setPc, setCore, Op.lock, hl, Pc.afterHolding]
  have h₃ : ((m.begin i (.acquire lk)).setPc i (.swap lk)).step i =
      ((m.begin i (.acquire lk)).setLock lk ⟨1, (m.locks lk).cpuId⟩).setPc i (.record lk) := by
    simp [step, Machine.begin, setHart, setPc, setCore, setLock, hl]
  have h₄ : (((m.begin i (.acquire lk)).setLock lk ⟨1, (m.locks lk).cpuId⟩).setPc i (.record lk)).step i =
      (((m.begin i (.acquire lk)).setLock lk ⟨1, .ofNat 32 i⟩).setPc i (.record lk)).finish i := by
    simp [step, setPc, setCore, setLock]
  refine ⟨_, .cons h₁ <| .cons h₂ <| .cons h₃ <| .cons h₄ .nil, ?_, ?_, ?_⟩
  case refine_1 =>
    have hi : (m.hart i).cpuIntPush.hartid = i := by rw [he]; rfl
    have hk : (m.hart i).cpuIntPush.locks = m.locks := by rw [he]; rfl
    rw [hart_finish, hart_setPc, hart_setLock, Machine.begin, hart_setPc, hart_setHart hi hk, Hart.spinlockAcquire]
    simp [Hart.spinlockHolding, hi, hk, hl]
  case refine_2 => simp [setPc, setCore, finish]
  case refine_3 => simp [setPc, setCore, finish, Machine.begin, setHart, setLock, ht]

theorem runs_release (hp : (m.cores i).pc = .ready) (ht : (m.cores i).todo = .call (.release lk) :: todo)
    (hl : (m.hart i).spinlockHolding lk) : ∃ m', m.Runs [i, i, i, i, i, i] m' ∧
      .ok (m'.hart i) = (m.hart i).spinlockRelease lk ∧ (m'.cores i).pc = .ready ∧ (m'.cores i).todo = todo := by
  have ⟨hl₁, hl₂⟩ : (m.locks lk).locked ≠ 0 ∧ (m.locks lk).cpuId.signExtend 64 = BitVec.ofNat 64 i := of_decide_eq_true hl
  have h₁ : m.step i = m.setPc i (.locked (.release lk)) := by simp [step, hp, ht, Machine.begin]
  have h₂ : (m.setPc i (.locked (.release lk))).step i = m.setPc i (.cpuId (.release lk)) := by
    simp [step, setPc, setCore, Op.lock, hl₁]
  have h₃ : (m.setPc i (.cpuId (.release lk))).step i = m.setPc i (.clear lk) := by
    simp [step, setPc, setCore, Op.lock, hl₂, Pc.afterHolding]
  have h₄ : (m.setPc i (.clear lk)).step i = (m.setLock lk ⟨(m.locks lk).locked, -1⟩).setPc i (.unlock lk) := by
    simp [step, setPc, setCore, setLock]
  have h₅ : ((m.setLock lk ⟨(m.locks lk).locked, -1⟩).setPc i (.unlock lk)).step i =
      (m.setLock lk ⟨0, -1⟩).setPc i (.pop lk) := by
    simp [step, setPc, setCore, setLock]
  have ⟨hi, hk⟩ := cpuIntPop_frame <| ((m.setLock lk ⟨0, -1⟩).setPc i (.pop lk)).hart i
  have h₆ : ((m.setLock lk ⟨0, -1⟩).setPc i (.pop lk)).step i = (((m.setLock lk ⟨0, -1⟩).setPc i (.pop lk)).setHart i
      (((m.setLock lk ⟨0, -1⟩).setPc i (.pop lk)).hart i).cpuIntPop).finish i := by
    simp [step, setPc, setCore]
  refine ⟨_, .cons h₁ <| .cons h₂ <| .cons h₃ <| .cons h₄ <| .cons h₅ <| .cons h₆ .nil, ?_, ?_, ?_⟩
  case refine_1 =>
    rw [Hart.spinlockRelease, if_neg (by simp [hl]), hart_finish, @hart_setHart _ _ _ i _ hi hk, hart_setPc, hart_setLock]
  case refine_2 => simp [setPc, setCore, finish]
  case refine_3 => simp [setPc, setCore, finish, setHart, setLock, ht]

theorem locked_of_spinlockAcquire {h h' : Hart} (he : h.spinlockAcquire lk = .ok h') : (h.locks lk).locked = 0 := by
  have ⟨e, hpush⟩ := h.cpuIntPush_eq
  have hk : h.cpuIntPush.locks = h.locks := by rw [hpush]; rfl
  rw [Hart.spinlockAcquire] at he
  split_ifs at he with _ hl
  exact not_not.mp <| hk ▸ hl

-- A call whose steps are not interrupted does what the function of the hart does.
theorem runs_op {op : Op} {h : Hart} (hp : (m.cores i).pc = .ready) (ht : (m.cores i).todo = .call op :: todo)
    (he : op.run (m.hart i) = .ok h) : ∃ n m', m.Runs (List.replicate n i) m' ∧ m'.hart i = h ∧
      (m'.cores i).pc = .ready ∧ (m'.cores i).todo = todo := by
  cases op
  case acquire lk =>
    obtain ⟨m', r, hh, hp, ht⟩ := runs_acquire hp ht <| locked_of_spinlockAcquire he
    exact ⟨4, m', r, Except.ok.inj <| hh.trans he, hp, ht⟩
  case release lk =>
    have hl : (m.hart i).spinlockHolding lk := by
      by_contra hn
      simp [Op.run, Hart.spinlockRelease, hn] at he
    obtain ⟨m', r, hh, hp, ht⟩ := runs_release hp ht hl
    exact ⟨6, m', r, Except.ok.inj <| hh.trans he, hp, ht⟩

end Machine

end Zgmos.Cpu
