import Zgmos.Cpu.Interleaving
import Zgmos.Lib.Mutex

-- Whatever the order of the steps is, the locks of the harts behave like locks that are acquired in a single step.

namespace Zgmos.Cpu

open Function (update)

variable {R V : Type}

-- Only a lock that is not held is acquired, and only one that is held is released.
def Op.Allowed (lks : List Lock) : Op → Prop
  | acquire lk => lk ∉ lks
  | release lk => lk ∈ lks

def Permitted (ops : List Op) : Prop :=
  ∀ pre op post, ops = pre ++ op :: post → op.Allowed (heldAfter pre)

namespace Action

def op? : Action R V → Option Op
  | call op    => some op
  | access _ _ => none

def act : Action R V → Mutex.Act Lock R V
  | call (.acquire lk) => .acquire lk
  | call (.release lk) => .release lk
  | access lk f        => .access lk f

end Action

namespace Pc

-- The call that the hart is in.
def call? : Pc → Option Op
  | locked op | cpuId op           => some op
  | swap lk | record lk            => some <| .acquire lk
  | clear lk | unlock lk | pop lk  => some <| .release lk
  | ready | panic                  => none

-- The call has had its effect on the lock, but is not finished.
def pending : Pc → List Op
  | record lk => [.acquire lk]
  | pop lk    => [.release lk]
  | _         => []

-- It is known that the call is right.
def decided : Pc → Bool
  | swap _ | clear _ | unlock _ => true
  | _                           => false

-- The hart has the lock, but its number is not in `cpu_id`.
def unrecorded : Pc → Option Lock
  | record lk | unlock lk => some lk
  | _                     => none

-- How often `cpu_int_push` has been called without a lock that is owned.
def pushed : Pc → Int
  | locked (.acquire _) | cpuId (.acquire _) | swap _ | pop _ => 1
  | _                                                         => 0

end Pc

namespace Core

variable (c : Core R V)

def calls : List Op :=
  c.past.filterMap Action.op?

-- The locks which the hart holds according to the calls that are finished.
def held : List Lock :=
  heldAfter c.calls

def effects : List Op :=
  c.calls ++ c.pc.pending

def owned : List Lock :=
  heldAfter c.effects

def rest : List (Mutex.Act Lock R V) :=
  (c.todo.drop c.pc.pending.length).map Action.act

structure Inv : Prop where
  permitted : Permitted c.effects
  call      : ∀ op, c.pc.call? = some op → ∃ todo, c.todo = .call op :: todo
  decided   : c.pc.decided → ∀ op, c.pc.call? = some op → op.Allowed c.owned
  panic     : c.pc = .panic →
    (∃ op todo, c.todo = .call op :: todo ∧ ¬op.Allowed c.owned) ∧ c.owned.length ≤ c.intDepth
  depth     : c.pc ≠ .panic → c.intDepth = c.owned.length + c.pc.pushed
  sie       : 0 < c.intDepth → c.sstatus &&& Hart.sstatusSie = 0

end Core

namespace Machine

-- What is in `cpu_id` of a lock with the given owner.
def recordedId (cores : Fin hartNum → Core R V) (lk : Lock) : Option (Fin hartNum) → BitVec 32
  | none   => -1
  | some i => if (cores i).pc.unrecorded = some lk then -1 else .ofNat 32 i

-- The state of the locks that are acquired in a single step.
structure Refines (m : Machine R V) (s : Mutex.State (Fin hartNum) Lock R V) : Prop where
  data   : m.data = s.data
  reg    : ∀ i, (m.cores i).reg = s.reg i
  todo   : ∀ i, (m.cores i).rest = s.todo i
  owner  : ∀ lk i, s.owner lk = some i ↔ lk ∈ (m.cores i).owned

structure Inv (m : Machine R V) (s : Mutex.State (Fin hartNum) Lock R V) : Prop extends m.Refines s where
  core   : ∀ i, (m.cores i).Inv
  locked : ∀ lk, (m.locks lk).locked = (s.owner lk).elim 0 fun _ => 1
  cpuId  : ∀ lk, (m.locks lk).cpuId = recordedId m.cores lk (s.owner lk)

end Machine

variable {op : Op} {ops : List Op} {lk : Lock} {c c' : Core R V}

theorem heldAfter_concat : heldAfter (ops ++ [op]) = op.held (heldAfter ops) := by
  rw [heldAfter, List.foldl_append]
  rfl

theorem Permitted.concat_iff : Permitted (ops ++ [op]) ↔ Permitted ops ∧ op.Allowed (heldAfter ops) := by
  constructor
  case mp  => exact fun h => ⟨fun pre op' post he => h pre op' (post ++ [op]) (by simp [he]), h ops op [] rfl⟩
  case mpr =>
    intro ⟨h, ha⟩ pre op' post he
    obtain rfl | ⟨post, op'', rfl⟩ := List.eq_nil_or_concat' post
    case inl =>
      have ⟨hp, he⟩ := List.append_inj' he rfl
      cases he
      exact hp ▸ ha
    case inr =>
      rw [← List.cons_append, ← List.append_assoc] at he
      exact h pre op' post (List.append_inj' he rfl).1

theorem Permitted.nodup (h : Permitted ops) : (heldAfter ops).Nodup := by
  induction ops using List.reverseRecOn
  case nil => exact .nil
  case append_singleton ops op hi =>
    have ⟨hp, ha⟩ := concat_iff.mp h
    rw [heldAfter_concat]
    cases op
    case acquire => exact (hi hp).cons ha
    case release => exact (hi hp).erase _

theorem Pc.afterHolding_pending {b : Bool} : (Pc.afterHolding op b).pending = [] := by
  cases op <;> cases b <;> rfl

theorem Pc.afterHolding_unrecorded {b : Bool} : (Pc.afterHolding op b).unrecorded = none := by
  cases op <;> cases b <;> rfl

namespace Core

-- A step of the hart that is not seen by the others.
structure Silent (c c' : Core R V) : Prop where
  effects : c'.effects = c.effects
  rest    : c'.rest = c.rest
  reg     : c'.reg = c.reg

theorem owned_of_effects (h : c'.effects = c.effects) : c'.owned = c.owned := by
  rw [Core.owned, Core.owned, h]

theorem Silent.owned (h : Silent c c') : c'.owned = c.owned :=
  owned_of_effects h.effects

-- The result of `spinlock_holding` is the right one.
theorem Inv.afterHolding (w : c.Inv) (b : Bool) (h : c.pc = .locked op ∨ c.pc = .cpuId op) (hb : b ↔ op.lock ∈ c.owned) :
    Inv { c with pc := .afterHolding op b } ∧ Silent c { c with pc := .afterHolding op b } := by
  have hp : c.pc.pending = [] := by obtain h | h := h <;> simp [h, Pc.pending]
  have hc : c.pc.call? = some op := by obtain h | h := h <;> simp [h, Pc.call?]
  have hd : c.pc ≠ .panic := by obtain h | h := h <;> simp [h]
  have hs : Silent c { c with pc := .afterHolding op b } := by
    constructor <;> simp only [effects, rest, hp] <;> cases op <;> cases b <;> rfl
  have ⟨todo, ht⟩ := w.call op hc
  refine ⟨?_, hs⟩
  constructor
  case permitted => exact hs.effects ▸ w.permitted
  case call      => cases op <;> cases b <;> simp [Pc.afterHolding, Pc.call?, ht]
  case decided   =>
    rw [hs.owned]
    cases op <;> cases b <;> simp_all [Pc.afterHolding, Pc.call?, Pc.decided, Op.Allowed, Op.lock]
  case panic     =>
    have hle : c.owned.length ≤ c.intDepth := by
      rw [w.depth hd]
      obtain h | h := h <;> cases op <;> simp [h, Pc.pushed]
    rw [hs.owned]
    cases op <;> cases b <;> simp_all [Pc.afterHolding, Op.Allowed, Op.lock]
  case depth     =>
    rw [hs.owned, w.depth hd]
    obtain h | h := h <;> cases op <;> cases b <;> simp [Pc.afterHolding, h, Pc.pushed]
  case sie       => exact w.sie

-- A step of the hart with an effect on a lock.
structure Effective (op : Op) (c c' : Core R V) : Prop where
  effects : c'.effects = c.effects ++ [op]
  rest    : c.rest = (Action.call op).act :: c'.rest
  reg     : c'.reg = c.reg

theorem Effective.owned (h : Effective op c c') : c'.owned = op.held c.owned := by
  rw [Core.owned, h.effects, heldAfter_concat, Core.owned]

section Steps

variable {todo : List (Action R V)} {sstatus intEnable : BitVec 64} {intDepth : Int}

theorem Inv.beginAcquire (w : c.Inv) (intEnable : BitVec 64) (hp : c.pc = .ready)
    (ht : c.todo = .call (.acquire lk) :: todo)
    (hd : intDepth = c.intDepth + 1) (hs : sstatus &&& Hart.sstatusSie = 0) :
    Inv { c with sstatus, intDepth, intEnable, pc := .locked (.acquire lk) } ∧
    Silent c { c with sstatus, intDepth, intEnable, pc := .locked (.acquire lk) } := by
  have hc : Silent c { c with sstatus, intDepth, intEnable, pc := .locked (.acquire lk) } := by
    constructor <;> simp only [effects, rest, hp] <;> rfl
  refine ⟨?_, hc⟩
  constructor
  case permitted => exact hc.effects ▸ w.permitted
  case call      => simp [Pc.call?, ht]
  case decided   => exact nofun
  case panic     => exact nofun
  case depth     =>
    rw [hc.owned]
    simp [hd, w.depth (by simp [hp]), hp, Pc.pushed]
  case sie       => exact fun _ => hs

theorem Inv.beginRelease (w : c.Inv) (hp : c.pc = .ready) (ht : c.todo = .call (.release lk) :: todo) :
    Inv { c with pc := .locked (.release lk) } ∧ Silent c { c with pc := .locked (.release lk) } := by
  have hc : Silent c { c with pc := .locked (.release lk) } := by
    constructor <;> simp only [effects, rest, hp] <;> rfl
  refine ⟨?_, hc⟩
  constructor
  case permitted => exact hc.effects ▸ w.permitted
  case call      => simp [Pc.call?, ht]
  case decided   => exact nofun
  case panic     => exact nofun
  case depth     =>
    rw [hc.owned]
    simp [w.depth (by simp [hp]), hp, Pc.pushed]
  case sie       => exact w.sie

theorem Inv.holding (w : c.Inv) (hp : c.pc = .locked op) :
    Inv { c with pc := .cpuId op } ∧ Silent c { c with pc := .cpuId op } := by
  have hc : Silent c { c with pc := .cpuId op } := by
    constructor <;> simp only [effects, rest, hp] <;> rfl
  refine ⟨?_, hc⟩
  constructor
  case permitted => exact hc.effects ▸ w.permitted
  case call      => simpa [Pc.call?, hp] using w.call
  case decided   => exact nofun
  case panic     => exact nofun
  case depth     =>
    rw [hc.owned, w.depth (by simp [hp]), hp]
    cases op <;> simp [Pc.pushed]
  case sie       => exact w.sie

theorem Inv.swap (w : c.Inv) (hp : c.pc = .swap lk) :
    Inv { c with pc := .record lk } ∧ Effective (.acquire lk) c { c with pc := .record lk } := by
  have ⟨todo, ht⟩ := w.call (.acquire lk) (by simp [hp, Pc.call?])
  have hc : Effective (.acquire lk) c { c with pc := .record lk } := by
    constructor <;> simp [effects, calls, rest, hp, ht, Pc.pending]
  refine ⟨?_, hc⟩
  constructor
  case permitted =>
    rw [hc.effects]
    exact Permitted.concat_iff.mpr ⟨w.permitted, w.decided (by simp [hp, Pc.decided]) _ (by simp [hp, Pc.call?])⟩
  case call      => simp [Pc.call?, ht]
  case decided   => exact nofun
  case panic     => exact nofun
  case depth     =>
    rw [hc.owned]
    simp [Op.held, w.depth (by simp [hp]), hp, Pc.pushed]
  case sie       => exact w.sie

theorem Inv.clear (w : c.Inv) (hp : c.pc = .clear lk) :
    Inv { c with pc := .unlock lk } ∧ Silent c { c with pc := .unlock lk } := by
  have hc : Silent c { c with pc := .unlock lk } := by
    constructor <;> simp only [effects, rest, hp] <;> rfl
  refine ⟨?_, hc⟩
  constructor
  case permitted => exact hc.effects ▸ w.permitted
  case call      => simpa [Pc.call?, hp] using w.call
  case decided   => simpa [Pc.call?, Pc.decided, hp, hc.owned] using w.decided
  case panic     => exact nofun
  case depth     =>
    rw [hc.owned]
    simp [w.depth (by simp [hp]), hp, Pc.pushed]
  case sie       => exact w.sie

theorem Inv.unlock (w : c.Inv) (hp : c.pc = .unlock lk) :
    Inv { c with pc := .pop lk } ∧ Effective (.release lk) c { c with pc := .pop lk } := by
  have ⟨todo, ht⟩ := w.call (.release lk) (by simp [hp, Pc.call?])
  have ha : lk ∈ c.owned := w.decided (by simp [hp, Pc.decided]) (.release lk) (by simp [hp, Pc.call?])
  have hc : Effective (.release lk) c { c with pc := .pop lk } := by
    constructor <;> simp [effects, calls, rest, hp, ht, Pc.pending]
  refine ⟨?_, hc⟩
  constructor
  case permitted =>
    rw [hc.effects]
    exact Permitted.concat_iff.mpr ⟨w.permitted, ha⟩
  case call      => simp [Pc.call?, ht]
  case decided   => exact nofun
  case panic     => exact nofun
  case depth     =>
    have := List.length_pos_of_mem ha
    rw [hc.owned]
    simp only [Op.held, w.depth (by simp [hp]), hp, Pc.pushed, List.length_erase_of_mem ha]
    omega
  case sie       => exact w.sie

variable (sstatus intEnable) in
-- The end of a call that has had its effect.
theorem Inv.finish (w : c.Inv) (ht : c.todo = .call op :: todo) (hp : c.pc.pending = [op])
    (hd : intDepth = c.owned.length) (hs : 0 < intDepth → sstatus &&& Hart.sstatusSie = 0) :
    Inv { c with sstatus, intDepth, intEnable, pc := .ready, past := c.past ++ c.todo.take 1, todo := c.todo.tail } ∧
    Silent c
      { c with sstatus, intDepth, intEnable, pc := .ready, past := c.past ++ c.todo.take 1, todo := c.todo.tail } := by
  have hc : Silent c { c with
      sstatus, intDepth, intEnable, pc := .ready, past := c.past ++ c.todo.take 1, todo := c.todo.tail } := by
    constructor <;> simp [effects, calls, rest, hp, ht, Action.op?] <;> simp [Pc.pending]
  refine ⟨?_, hc⟩
  constructor
  case permitted => exact hc.effects ▸ w.permitted
  case call      => exact nofun
  case decided   => exact nofun
  case panic     => exact nofun
  case depth     =>
    rw [hc.owned]
    simp [hd, Pc.pushed]
  case sie       => exact hs

theorem Inv.access {f : R → V → R × V} (w : c.Inv) (reg : R) (hp : c.pc = .ready) (ht : c.todo = .access lk f :: todo) :
    Inv { c with reg, pc := .ready, past := c.past ++ c.todo.take 1, todo := c.todo.tail } ∧
    effects { c with reg, pc := .ready, past := c.past ++ c.todo.take 1, todo := c.todo.tail } = c.effects ∧
    c.rest = .access lk f ::
      rest { c with reg, pc := .ready, past := c.past ++ c.todo.take 1, todo := c.todo.tail } := by
  have he : effects { c with reg, pc := .ready, past := c.past ++ c.todo.take 1, todo := c.todo.tail } = c.effects := by
    simp [effects, calls, hp, ht, Action.op?]
  have ho : owned { c with reg, pc := .ready, past := c.past ++ c.todo.take 1, todo := c.todo.tail } = c.owned := by
    rw [owned, he, owned]
  refine ⟨?_, he, ?_⟩
  case refine_2 => simp [rest, hp, ht, Pc.pending, Action.act]
  constructor
  case permitted => exact he ▸ w.permitted
  case call      => exact nofun
  case decided   => exact nofun
  case panic     => exact nofun
  case depth     =>
    rw [ho]
    simp [w.depth (by simp [hp]), hp, Pc.pushed]
  case sie       => exact w.sie

end Steps

end Core

namespace Machine

variable {m m' : Machine R V} {s s' : Mutex.State (Fin hartNum) Lock R V} {i j : Fin hartNum} {l : Spinlock}

theorem recordedId_update {cores : Fin hartNum → Core R V}
    (h : c.pc.unrecorded = some lk ↔ (cores i).pc.unrecorded = some lk) (o : Option (Fin hartNum)) :
    recordedId (update cores i c) lk o = recordedId cores lk o := by
  cases o
  case none   => rfl
  case some j =>
    by_cases hj : j = i
    case pos =>
      subst hj
      simp [recordedId, h]
    case neg => simp [recordedId, hj]

namespace Inv

theorem owner_iff (w : m.Inv s) : s.owner lk = some i ↔ lk ∈ (m.cores i).owned :=
  w.owner lk i

-- What the reads of `spinlock_holding` tell a hart about its locks.

theorem locked_eq_zero (w : m.Inv s) (h : (m.locks lk).locked = 0) : lk ∉ (m.cores i).owned := by
  rw [w.locked] at h
  intro ho
  simp [w.owner_iff.mpr ho] at h

theorem locked_ne_zero (w : m.Inv s) (h : lk ∈ (m.cores i).owned) : (m.locks lk).locked ≠ 0 := by
  simp [w.locked, w.owner_iff.mpr h]

theorem cpuId_eq_iff (w : m.Inv s) (hu : (m.cores i).pc.unrecorded ≠ some lk) :
    (m.locks lk).cpuId.signExtend 64 = BitVec.ofNat 64 i ↔ lk ∈ (m.cores i).owned := by
  have hne : ∀ j : Fin hartNum, (-1 : BitVec 32).signExtend 64 ≠ BitVec.ofNat 64 j := by decide
  have hinj : ∀ i j : Fin hartNum, BitVec.ofNat 64 i = BitVec.ofNat 64 j → i = j := by decide
  rw [← w.owner_iff, w.cpuId]
  cases h : s.owner lk
  case none   => exact iff_of_false (hne i) nofun
  case some j =>
    by_cases hj : j = i
    case pos =>
      subst hj
      simp [recordedId, hu, Hart.hartid_signExtend]
    case neg =>
      simp only [recordedId, Option.some.injEq, hj, iff_false]
      split_ifs
      case pos => exact hne i
      case neg => exact fun he => hj <| hinj _ _ <| (Hart.hartid_signExtend j).symm.trans he

-- What a hart does with a lock, the data and its own state.
theorem next (w : m.Inv s) (lk : Lock) (l : Spinlock) (data : Lock → V) (o : Option (Fin hartNum)) (h : c.Inv)
    (ho : ∀ j, o = some j ↔ if j = i then lk ∈ c.owned else s.owner lk = some j)
    (hk : ∀ lk' ≠ lk, lk' ∈ c.owned ↔ lk' ∈ (m.cores i).owned)
    (hl : l.locked = o.elim 0 fun _ => 1) (hid : l.cpuId = recordedId (update m.cores i c) lk o)
    (hu : ∀ lk' ≠ lk, c.pc.unrecorded = some lk' ↔ (m.cores i).pc.unrecorded = some lk') :
    (({ m with data }.setLock lk l).setCore i c).Inv
      ⟨update s.owner lk o, data, update s.reg i c.reg, update s.todo i c.rest⟩ := by
  have hcore (j : Fin hartNum) : (({ m with data }.setLock lk l).setCore i c).cores j = if j = i then c else m.cores j := by
    simp [setCore, setLock, Function.update_apply]
  constructor
  case toRefines =>
    constructor
    case data  => rfl
    case reg   =>
      intro j
      rw [hcore]
      split_ifs
      case pos hj => simp [hj]
      case neg hj => simpa [hj] using w.reg j
    case todo  =>
      intro j
      rw [hcore]
      split_ifs
      case pos hj => simp [hj]
      case neg hj => simpa [hj] using w.todo j
    case owner =>
      intro lk' j
      rw [hcore]
      by_cases hlk : lk' = lk
      case pos =>
        simp only [hlk, Function.update_self, ho]
        split_ifs
        case pos => rfl
        case neg => exact w.owner_iff
      case neg =>
        simp only [Function.update_of_ne hlk, w.owner_iff]
        split_ifs
        case pos hj => rw [hk lk' hlk, hj]
        case neg    => rfl
  case core   =>
    intro j
    rw [hcore]
    split_ifs
    case pos => exact h
    case neg => exact w.core j
  case locked =>
    intro lk'
    by_cases hlk : lk' = lk
    case pos => simp [setCore, setLock, hlk, hl]
    case neg => simp [setCore, setLock, hlk, w.locked]
  case cpuId  =>
    intro lk'
    by_cases hlk : lk' = lk
    case pos =>
      subst hlk
      simpa [setCore, setLock] using hid
    case neg => simpa [setCore, setLock, hlk, recordedId_update (hu lk' hlk)] using w.cpuId lk'

-- A step without an effect, which may change `cpu_id`.
theorem silent (w : m.Inv s) (lk : Lock) (l : Spinlock) (h : c.Inv ∧ Core.Silent (m.cores i) c)
    (hl : l.locked = (m.locks lk).locked)
    (hid : l.cpuId = recordedId (update m.cores i c) lk (s.owner lk))
    (hu : ∀ lk' ≠ lk, c.pc.unrecorded = some lk' ↔ (m.cores i).pc.unrecorded = some lk') :
    ((m.setLock lk l).setCore i c).Inv s := by
  have he : s = ⟨update s.owner lk (s.owner lk), m.data, update s.reg i c.reg, update s.todo i c.rest⟩ := by
    rw [Function.update_eq_self, w.data, h.2.reg, w.reg, Function.update_eq_self, h.2.rest, w.todo, Function.update_eq_self]
  rw [he]
  refine w.next lk l m.data (s.owner lk) h.1 (fun j => ?_) (fun _ _ => by rw [h.2.owned]) (hl.trans <| w.locked lk) hid hu
  split_ifs
  case pos hj => rw [h.2.owned, ← hj, w.owner_iff]
  case neg    => rfl

-- A step with an effect.
theorem effective (w : m.Inv s) (op : Op) (l : Spinlock) (o : Option (Fin hartNum))
    (h : c.Inv ∧ Core.Effective op (m.cores i) c)
    (ho : ∀ j, o = some j ↔ if j = i then op.lock ∈ op.held (m.cores i).owned else s.owner op.lock = some j)
    (hl : l.locked = o.elim 0 fun _ => 1) (hid : l.cpuId = recordedId (update m.cores i c) op.lock o)
    (hu : ∀ lk ≠ op.lock, c.pc.unrecorded = some lk ↔ (m.cores i).pc.unrecorded = some lk) :
    ((m.setLock op.lock l).setCore i c).Inv
      { s with owner := update s.owner op.lock o, todo := update s.todo i c.rest } := by
  have hheld (lk : Lock) (hk : lk ≠ op.lock) : lk ∈ c.owned ↔ lk ∈ (m.cores i).owned := by
    rw [h.2.owned]
    cases op <;> simp_all [Op.held, Op.lock, List.mem_erase_of_ne]
  have he : (⟨update s.owner op.lock o, m.data, update s.reg i c.reg, update s.todo i c.rest⟩ : Mutex.State ..) =
      { s with owner := update s.owner op.lock o, todo := update s.todo i c.rest } := by
    rw [w.data, h.2.reg, w.reg, Function.update_eq_self]
  exact he ▸ w.next op.lock l m.data o h.1 (h.2.owned ▸ ho) hheld hl hid hu

-- A step which leaves the locks alone.
theorem silent' (w : m.Inv s) (h : c.Inv ∧ Core.Silent (m.cores i) c)
    (hu : c.pc.unrecorded = (m.cores i).pc.unrecorded) : (m.setCore i c).Inv s := by
  have hm : m.setLock 0 (m.locks 0) = m := by rw [setLock, Function.update_eq_self]
  have := w.silent 0 (m.locks 0) h rfl ((w.cpuId 0).trans (recordedId_update (by rw [hu]) _).symm) fun _ _ => by rw [hu]
  rwa [hm] at this

theorem owner_isNone (w : m.Inv s) (h : (m.locks lk).locked = 0) : s.owner lk = none := by
  rw [w.locked] at h
  cases ho : s.owner lk
  case none => rfl
  case some => simp [ho] at h

-- The first step of a call.
theorem begin {todo : List (Action R V)} (w : m.Inv s) (hp : (m.cores i).pc = .ready)
    (ht : (m.cores i).todo = .call op :: todo) : (m.step i).Inv s := by
  have he : m.step i = m.begin i op := by simp [Machine.step, hp, ht]
  rw [he]
  cases op
  case release lk => exact w.silent' ((w.core i).beginRelease hp ht) (by rw [hp]; rfl)
  case acquire lk =>
    obtain ⟨e, hpush⟩ := (m.hart i).cpuIntPush_eq
    have hsie : (m.hart i).intrOff.sstatus &&& Hart.sstatusSie = 0 := not_not.mp (m.hart i).intrOff_not_sie
    have h := (w.core i).beginAcquire e hp ht (show (m.hart i).intDepth + 1 = _ from rfl) hsie
    have hm : m.begin i (.acquire lk) = m.setCore i { m.cores i with
        sstatus   := (m.hart i).intrOff.sstatus
        intDepth  := (m.hart i).intDepth + 1
        intEnable := e
        pc        := .locked <| .acquire lk } := by
      simp [Machine.begin, setHart, setPc, setCore, hpush]
    exact hm ▸ w.silent' h (by rw [hp]; rfl)

-- An access to the data of a lock.
theorem access {f : R → V → R × V} {todo : List (Action R V)} (w : m.Inv s) (hp : (m.cores i).pc = .ready)
    (ht : (m.cores i).todo = .access lk f :: todo) : ∃ s', (m.step i).Inv s' ∧ Mutex.Step s i s' := by
  have ⟨hi, he, hr⟩ := (w.core i).access (f (m.cores i).reg (m.data lk)).1 hp ht
  have ho := Core.owned_of_effects he
  have hj (j : Fin hartNum) : s.owner lk = some j ↔ if j = i then lk ∈ (m.cores i).owned else s.owner lk = some j := by
    split_ifs
    case pos hj => rw [w.owner_iff, hj]
    case neg    => rfl
  have hu : Pc.ready.unrecorded = (m.cores i).pc.unrecorded := by rw [hp]
  have := w.next lk (m.locks lk) (update m.data lk (f (m.cores i).reg <| m.data lk).2) (s.owner lk) hi (ho ▸ hj)
    (fun _ _ => by rw [ho]) (w.locked lk) ((w.cpuId lk).trans (recordedId_update (by rw [← hu]) _).symm) fun _ _ => by
      rw [← hu]
  refine ⟨_, ?_, .access <| (w.todo i).symm.trans hr⟩
  have hm : m.step i = ({ m with data := update m.data lk (f (m.cores i).reg <| m.data lk).2 }.setLock lk (m.locks lk)).setCore
      i { m.cores i with
        reg  := (f (m.cores i).reg <| m.data lk).1
        pc   := .ready
        past := (m.cores i).past ++ (m.cores i).todo.take 1
        todo := (m.cores i).todo.tail } := by
    simp [Machine.step, hp, ht, finish, setCore, setLock]
  rw [hm, ← w.reg, ← w.data]
  rwa [Function.update_eq_self] at this

end Inv

-- A step is one of locks that are acquired in a single step, or none.
theorem Inv.step (w : m.Inv s) (i : Fin hartNum) : ∃ s', (m.step i).Inv s' ∧ (s' = s ∨ Mutex.Step s i s') := by
  have hc := w.core i
  cases hp : (m.cores i).pc
  case ready      =>
    cases ht : (m.cores i).todo
    case nil            =>
      have he : m.step i = m := by simp [Machine.step, hp, ht]
      exact ⟨s, he.symm ▸ w, .inl rfl⟩
    case cons a todo    =>
      cases a
      case access lk f =>
        obtain ⟨s', w', h⟩ := w.access hp ht
        exact ⟨s', w', .inr h⟩
      case call op     => exact ⟨s, w.begin hp ht, .inl rfl⟩
  case locked op  =>
    refine ⟨s, ?_, .inl rfl⟩
    by_cases hl : (m.locks op.lock).locked = 0
    case pos =>
      have he : m.step i = m.setPc i (.afterHolding op false) := by simp [Machine.step, hp, hl]
      have h := hc.afterHolding false (.inl hp) <| by simpa using w.locked_eq_zero hl
      exact he ▸ w.silent' h (by rw [hp, Pc.afterHolding_unrecorded]; rfl)
    case neg =>
      have he : m.step i = m.setPc i (.cpuId op) := by simp [Machine.step, hp, hl]
      exact he ▸ w.silent' (hc.holding hp) (by rw [hp]; rfl)
  case cpuId op   =>
    have hu : (m.cores i).pc.unrecorded ≠ some op.lock := by simp [hp, Pc.unrecorded]
    have h := hc.afterHolding ((m.locks op.lock).cpuId.signExtend 64 = BitVec.ofNat 64 i) (.inr hp) <| by
      simpa using w.cpuId_eq_iff hu
    refine ⟨s, ?_, .inl rfl⟩
    rw [Machine.step, hp]
    exact w.silent' h (by rw [hp, Pc.afterHolding_unrecorded]; rfl)
  case swap lk    =>
    by_cases hl : (m.locks lk).locked = 0
    case pos =>
      have he : m.step i = (m.setLock lk ⟨1, (m.locks lk).cpuId⟩).setPc i (.record lk) := by
        simp [Machine.step, hp, hl]
      have ho := w.owner_isNone hl
      obtain ⟨hi, hs⟩ := hc.swap hp
      have hn : (m.locks lk).cpuId = -1 := by rw [w.cpuId, ho, recordedId]
      have := w.effective (.acquire lk) ⟨1, (m.locks lk).cpuId⟩ (some i) ⟨hi, hs⟩
        (by simp [Op.held, Op.lock, ho, eq_comm]) rfl (by simp [hn, recordedId, Pc.unrecorded, Op.lock])
        fun lk' hk => by simp [hp, Pc.unrecorded, (show lk' ≠ lk from hk).symm]
      have ht : s.todo i = .acquire lk :: Core.rest { m.cores i with pc := .record lk } := (w.todo i).symm.trans hs.rest
      exact ⟨_, he ▸ this, .inr <| .acquire ht ho⟩
    case neg =>
      have hone : (m.locks lk).locked = 1 := by
        rw [w.locked] at hl ⊢
        cases ho : s.owner lk
        case none => simp [ho] at hl
        case some => rfl
      have he : m.step i = m := by
        have : m.setLock lk { m.locks lk with locked := 1 } = m := by
          rw [← hone, setLock, Function.update_eq_self]
        simp [Machine.step, hp, hone, this]
      exact ⟨s, he.symm ▸ w, .inl rfl⟩
  case record lk  =>
    obtain ⟨todo, ht⟩ := hc.call (.acquire lk) (by rw [hp]; rfl)
    have ho : lk ∈ (m.cores i).owned := by simp [Core.owned, Core.effects, hp, Pc.pending, heldAfter_concat, Op.held]
    have hd : (m.cores i).intDepth = (m.cores i).owned.length := by simp [hc.depth, hp, Pc.pushed]
    have h := hc.finish (m.cores i).sstatus (m.cores i).intEnable ht (by rw [hp]; rfl) hd hc.sie
    refine ⟨s, ?_, .inl rfl⟩
    rw [Machine.step, hp]
    exact w.silent lk ⟨(m.locks lk).locked, .ofNat 32 i⟩ h rfl
      (by simp [w.owner_iff.mpr ho, recordedId, Pc.unrecorded]) fun lk' hk => by simp [hp, Pc.unrecorded, Ne.symm hk]
  case clear lk   =>
    have ho : lk ∈ (m.cores i).owned := hc.decided (by rw [hp]; rfl) (.release lk) (by rw [hp]; rfl)
    refine ⟨s, ?_, .inl rfl⟩
    rw [Machine.step, hp]
    exact w.silent lk ⟨(m.locks lk).locked, -1⟩ (hc.clear hp) rfl
      (by simp [w.owner_iff.mpr ho, recordedId, Pc.unrecorded]) fun lk' hk => by simp [hp, Pc.unrecorded, Ne.symm hk]
  case unlock lk  =>
    have ho : lk ∈ (m.cores i).owned := hc.decided (by rw [hp]; rfl) (.release lk) (by rw [hp]; rfl)
    have hs := w.owner_iff.mpr ho
    obtain ⟨hi, he⟩ := hc.unlock hp
    have hn : lk ∉ Op.held (m.cores i).owned (.release lk) := fun h => (hc.permitted.nodup.mem_erase_iff.mp h).1 rfl
    have hid : (m.locks lk).cpuId = -1 := by simp [w.cpuId, hs, recordedId, hp, Pc.unrecorded]
    have hj (j : Fin hartNum) : none = some j ↔
        if j = i then lk ∈ Op.held (m.cores i).owned (.release lk) else s.owner lk = some j := by
      split_ifs
      case pos     => exact iff_of_false (fun h => by cases h) hn
      case neg hne => exact iff_of_false (fun h => by cases h) fun h => hne <| Option.some.inj <| h.symm.trans hs
    have := w.effective (.release lk) ⟨0, (m.locks lk).cpuId⟩ none ⟨hi, he⟩ hj rfl hid
      fun lk' hk => by simp [hp, Pc.unrecorded, (show lk' ≠ lk from hk).symm]
    have ht : s.todo i = .release lk :: Core.rest { m.cores i with pc := .pop lk } := (w.todo i).symm.trans he.rest
    refine ⟨_, ?_, .inr <| .release ht hs⟩
    rw [Machine.step, hp]
    exact this
  case pop lk     =>
    obtain ⟨todo, ht⟩ := hc.call (.release lk) (by rw [hp]; rfl)
    have hd : (m.cores i).intDepth = (m.cores i).owned.length + 1 := by simp [hc.depth, hp, Pc.pushed]
    have hsie := hc.sie (by omega)
    have hpop : (m.hart i).cpuIntPop = { m.hart i with intDepth := (m.cores i).intDepth - 1 } :=
      Hart.cpuIntPop_eq fun hs => hs hsie
    have hd' : (m.cores i).intDepth - 1 = (m.cores i).owned.length := by omega
    have h := hc.finish (m.cores i).sstatus (m.cores i).intEnable ht (by rw [hp]; rfl) hd' fun _ => hsie
    refine ⟨s, ?_, .inl rfl⟩
    rw [Machine.step, hp, hpop]
    have hm : (m.setHart i { m.hart i with intDepth := (m.cores i).intDepth - 1 }).finish i = m.setCore i
        { m.cores i with
          intDepth := (m.cores i).intDepth - 1
          pc       := .ready
          past     := (m.cores i).past ++ (m.cores i).todo.take 1
          todo     := (m.cores i).todo.tail } := by
      simp [setHart, finish, setCore, hart]
    exact hm ▸ w.silent' h (by rw [hp]; rfl)
  case panic      =>
    refine ⟨s, ?_, .inl rfl⟩
    rwa [Machine.step, hp]

-- A hart gets a lock with the swap.
theorem pc_of_owned (w : (m.cores i).Inv) (hn : lk ∉ (m.cores i).owned) (h : lk ∈ ((m.step i).cores i).owned) :
    ((m.step i).cores i).pc = .record lk := by
  have hsame (he : ((m.step i).cores i).effects = (m.cores i).effects) : ((m.step i).cores i).pc = .record lk :=
    absurd (Core.owned_of_effects he ▸ h) hn
  cases hp : (m.cores i).pc
  case ready =>
    refine hsame ?_
    cases ht : (m.cores i).todo
    case nil => simp [step, hp, ht]
    case cons a _ =>
      cases a
      case call op =>
        cases op <;>
          simp [step, hp, ht, Machine.begin, setPc, setHart, setCore, Core.effects, Core.calls, Pc.pending]
      case access => simp [step, hp, ht, finish, setCore, Core.effects, Core.calls, Pc.pending, Action.op?]
  case locked op =>
    refine hsame ?_
    by_cases hl : (m.locks op.lock).locked = 0
    case pos =>
      have hn : (Pc.locked op).pending = [] := rfl
      simpa [step, hp, hl, setPc, setCore, Core.effects, Core.calls, hn] using Pc.afterHolding_pending
    case neg => simp [step, hp, hl, setPc, setCore, Core.effects, Core.calls, Pc.pending]
  case cpuId op =>
    refine hsame ?_
    have hn : (Pc.cpuId op).pending = [] := rfl
    simpa [step, hp, setPc, setCore, Core.effects, Core.calls, hn] using Pc.afterHolding_pending
  case swap lk' =>
    by_cases hl : (m.locks lk').locked = 0
    case neg => exact hsame <| by simp [step, hp, hl, setLock]
    case pos =>
      have he : (m.step i).cores i = { m.cores i with pc := .record lk' } := by
        simp [step, hp, hl, setPc, setCore, setLock]
      rw [he] at h ⊢
      rw [(w.swap hp).2.owned] at h
      obtain rfl | h := List.mem_cons.mp h
      case inl => rfl
      case inr => exact absurd h hn
  case record lk' =>
    obtain ⟨todo, ht⟩ := w.call (.acquire lk') (by rw [hp]; rfl)
    exact hsame <| by simp [step, hp, ht, finish, setLock, setCore, Core.effects, Core.calls, Pc.pending, Action.op?]
  case clear => exact hsame <| by simp [step, hp, setPc, setLock, setCore, Core.effects, Core.calls, Pc.pending]
  case unlock lk' =>
    have he : (m.step i).cores i = { m.cores i with pc := .pop lk' } := by
      simp [step, hp, setPc, setCore, setLock]
    rw [he, (w.unlock hp).2.owned] at h
    exact absurd (List.mem_of_mem_erase h) hn
  case pop lk' =>
    obtain ⟨todo, ht⟩ := w.call (.release lk') (by rw [hp]; rfl)
    exact hsame <| by simp [step, hp, ht, finish, setHart, setCore, Core.effects, Core.calls, Pc.pending, Action.op?]
  case panic => exact hsame <| by simp [step, hp]

-- The locks that are acquired in a single step, before any step.
def abstract (m : Machine R V) : Mutex.State (Fin hartNum) Lock R V where
  owner _ := none
  data    := m.data
  reg i   := (m.cores i).reg
  todo i  := (m.cores i).todo.map Action.act

theorem Initial.inv (h : m.Initial) : m.Inv m.abstract := by
  have hcalls (i : Fin hartNum) : (m.cores i).calls = [] := by rw [Core.calls, h.past, List.filterMap_nil]
  have heffects (i : Fin hartNum) : (m.cores i).effects = [] := by rw [Core.effects, hcalls, h.pc]; rfl
  have howned (i : Fin hartNum) : (m.cores i).owned = [] := by rw [Core.owned, heffects]; rfl
  constructor
  case toRefines => exact ⟨rfl, fun _ => rfl, fun i => by rw [Core.rest, h.pc]; rfl, fun lk i => by simp [howned, abstract]⟩
  case locked    => exact fun lk => by rw [h.locks]; rfl
  case cpuId     => exact fun lk => by rw [h.locks]; rfl
  case core      =>
    intro i
    constructor
    case permitted => simp [Permitted, heffects]
    case call      => simp [h.pc, Pc.call?]
    case decided   => simp [h.pc, Pc.decided]
    case panic     => simp [h.pc]
    case depth     => simp [h.pc, h.depth, howned, Pc.pushed]
    case sie       => simp [h.depth]

-- A run is one of locks that are acquired in a single step, with fewer steps.
theorem Inv.run {is : List (Fin hartNum)} (w : m.Inv s) (r : m.Runs is m') :
    ∃ is' s', is'.Sublist is ∧ Run Mutex.Step s is' s' ∧ m'.Inv s' := by
  induction r generalizing s
  case nil => exact ⟨[], s, .slnil, .nil, w⟩
  case cons i _ is _ he _ hi =>
    have ⟨s₁, w₁, h₁⟩ := w.step i
    have ⟨is', s', hs, r, w'⟩ := hi (he ▸ w₁)
    obtain rfl | h₁ := h₁
    case inl => exact ⟨is', s', hs.cons i, r, w'⟩
    case inr => exact ⟨i :: is', s', hs.cons_cons i, .cons h₁ r, w'⟩

-- What is wanted of the locks. A hart that is at the end of `spinlock_release` has no longer the lock.
structure Guarded (m : Machine R V) : Prop where
  exclusive : ∀ i j lk, lk ∈ (m.cores i).held → lk ∈ (m.cores j).held → (m.cores i).pc ≠ .pop lk →
    (m.cores j).pc ≠ .pop lk → i = j
  holding   : ∀ i lk, (m.cores i).pc = .ready → (m.hart i).spinlockHolding lk = decide (lk ∈ (m.cores i).held)
  -- The calls are right, and only one that is not panics.
  permitted : ∀ i, Permitted (m.cores i).calls
  panic     : ∀ i, (m.cores i).pc = .panic → ∃ op todo, (m.cores i).todo = .call op :: todo ∧
    ¬op.Allowed (m.cores i).held
  -- No lock is lost.
  free      : ∀ lk, (∀ i, lk ∉ (m.cores i).owned) → m.locks lk = ⟨0, -1⟩
  off       : ∀ i, (m.cores i).held ≠ [] → ¬(m.hart i).sie

end Machine

namespace Core

theorem owned_of_pending (h : c.pc.pending = []) : c.owned = c.held := by
  rw [owned, effects, h, List.append_nil, held]

theorem mem_owned (h : lk ∈ c.held) (hp : c.pc ≠ .pop lk) : lk ∈ c.owned := by
  cases hc : c.pc
  case record lk' =>
    rw [owned, effects, hc, Pc.pending, heldAfter_concat]
    exact .tail _ h
  case pop lk'    =>
    rw [owned, effects, hc, Pc.pending, heldAfter_concat]
    have hne : lk ≠ lk' := by
      rintro rfl
      exact hp hc
    exact (List.mem_erase_of_ne hne).mpr h
  all_goals rwa [owned_of_pending (by rw [hc]; rfl)]

theorem Inv.permitted_calls (w : c.Inv) : Permitted c.calls :=
  fun pre op post he => w.permitted pre op (post ++ c.pc.pending) <| by simp [effects, he]

theorem Inv.depth_pos (w : c.Inv) (h : c.held ≠ []) : 0 < c.intDepth := by
  have ⟨lk, hm⟩ := List.exists_mem_of_ne_nil _ h
  by_cases hp : c.pc = .panic
  case pos =>
    have ho := List.length_pos_of_mem <| mem_owned hm (by simp [hp])
    have := (w.panic hp).2
    omega
  case neg =>
    have hd := w.depth hp
    by_cases hpop : c.pc = .pop lk
    case pos => simp only [hpop, Pc.pushed] at hd; omega
    case neg =>
      have ho := List.length_pos_of_mem <| mem_owned hm hpop
      have : 0 ≤ c.pc.pushed := by
        unfold Pc.pushed
        split <;> decide
      omega

end Core

namespace Machine

variable {m m' : Machine R V} {s : Mutex.State (Fin hartNum) Lock R V}

theorem Inv.guarded (w : m.Inv s) : m.Guarded where
  exclusive i j lk hi hj hpi hpj := by
    have hi := w.owner_iff.mpr <| Core.mem_owned hi hpi
    have hj := w.owner_iff.mpr <| Core.mem_owned hj hpj
    exact Option.some.inj <| hi.symm.trans hj
  holding i lk hp := by
    have ho : (m.cores i).owned = (m.cores i).held := Core.owned_of_pending (by rw [hp]; rfl)
    have hid : _ ↔ lk ∈ (m.cores i).owned := w.cpuId_eq_iff (by simp [hp, Pc.unrecorded])
    rw [Hart.spinlockHolding, decide_eq_decide, ← ho]
    exact ⟨fun h => hid.mp h.2, fun h => ⟨w.locked_ne_zero h, hid.mpr h⟩⟩
  permitted i := (w.core i).permitted_calls
  panic i hp := by
    obtain ⟨⟨op, todo, ht, ha⟩, _⟩ := (w.core i).panic hp
    exact ⟨op, todo, ht, Core.owned_of_pending (by rw [hp]; rfl) ▸ ha⟩
  free lk h := by
    have ho : s.owner lk = none := Option.eq_none_iff_forall_ne_some.mpr fun i hi => h i <| w.owner_iff.mp hi
    have hl := w.locked lk
    have hc := w.cpuId lk
    rw [ho] at hl hc
    exact congrArg₂ Spinlock.mk hl hc
  off i h hs := hs <| (w.core i).sie <| (w.core i).depth_pos h

end Machine

-- The harts exclude each other, in whatever order their steps come.
theorem Machine.Initial.run_guarded {m m' : Machine R V} {is : List (Fin hartNum)} (h : m.Initial) (r : m.Runs is m') :
    m'.Guarded := by
  have ⟨_, _, _, _, w⟩ := h.inv.run r
  exact w.guarded

-- Both harts increment the data of a lock, with a read and a write.
def counter : Machine Nat Nat where
  locks _ := ⟨0, -1⟩
  data _  := 0
  cores _ := {
    sstatus   := 2
    intDepth  := 0
    intEnable := 0
    pc        := .ready
    reg       := 0
    past      := []
    todo      := [
      .call (.acquire 5),
      .access 5 fun _ v => (v, v),
      .access 5 fun r _ => (r, r + 1),
      .call (.release 5)
    ]
  }

theorem counter_initial : counter.Initial where
  locks _ := rfl
  pc _    := rfl
  depth _ := rfl
  past _  := rfl

-- Both harts read the lock before one of them has acquired it, and the other one waits for it then.
theorem counter_guarded :
    let m := (List.replicate 6 (List.finRange hartNum)).flatten.foldl Machine.step counter
    m.Guarded ∧ ∃ i, (m.cores i).held = [5] :=
  ⟨counter_initial.run_guarded <| Machine.runs_foldl .., ⟨⟨0, by decide⟩, rfl⟩⟩

end Zgmos.Cpu
