import Zgmos.Cpu.Spinlock

namespace Zgmos.Cpu

inductive Op
  | acquire (lk : Lock)
  | release (lk : Lock)

namespace Op

def run (h : Hart) : Op → Except Fault Hart
  | acquire lk => h.spinlockAcquire lk
  | release lk => h.spinlockRelease lk

-- The locks that are held after an operation, the innermost first.
def held (lks : List Lock) : Op → List Lock
  | acquire lk => lk :: lks
  | release lk => lks.erase lk

end Op

-- Every lock that is acquired is not held, and the innermost one is released first.
def WellNested : List Lock → List Op → Prop
  | _,         []                 => True
  | lks,       .acquire lk :: ops => lk ∉ lks ∧ WellNested (lk :: lks) ops
  | lk' :: lks, .release lk :: ops => lk = lk' ∧ WellNested lks ops
  | [],        .release _ :: _    => False

def heldAfter (ops : List Op) : List Lock :=
  ops.foldl Op.held []

-- No operation panics, and after each of them interrupts are off while a lock is held and else as
-- they were when no lock was held before.
def Nests (h : Hart) (ops : List Op) : Prop :=
  ∀ ops₁ ops₂, ops = ops₁ ++ ops₂ → ∃ h₁, ops₁.foldlM Op.run h = .ok h₁ ∧
    h₁.intDepth = (heldAfter ops₁).length ∧
    (0 < h₁.intDepth → ¬h₁.sie) ∧
    ∀ pre mid h₀, ops₁ = pre ++ mid → heldAfter pre = [] → heldAfter ops₁ = [] →
      pre.foldlM Op.run h = .ok h₀ → (h₁.sie ↔ h₀.sie)

-- The hart while it holds the locks `lks`.
structure Holds (h : Hart) (lks : List Lock) : Prop where
  depth : h.intDepth = lks.length
  sie   : lks ≠ [] → ¬h.sie
  locks : ∀ lk ∈ lks, h.spinlockHolding lk

variable {h h' : Hart} {lk lk' : Lock} {lks : List Lock} {op : Op} {ops ops₁ ops₂ : List Op}

theorem Holds.acquire (w : Holds h lks) (hl : (h.locks lk).locked = 0) :
    ∃ h', h.spinlockAcquire lk = .ok h' ∧ Holds h' (lk :: lks) ∧
      ∀ lk', lk' ≠ lk → h'.locks lk' = h.locks lk' := by
  have ⟨e, he⟩ := Hart.spinlockAcquire_ok hl
  have hs := h.intrOff_not_sie
  refine ⟨_, he, ?_, fun lk' hn => by simp [Hart.setLock, Hart.intrOff, hn]⟩
  constructor
  case depth => simp [Hart.setLock, w.depth]
  case sie   => exact fun _ => hs
  case locks =>
    intro lk' hm
    have := w.locks lk'
    have := Hart.hartid_signExtend h.hartid
    by_cases lk' = lk <;> simp_all [Hart.spinlockHolding, Hart.setLock, Hart.intrOff]

theorem Holds.release (w : Holds h (lk :: lks)) (hn : lk ∉ lks) :
    ∃ h', h.spinlockRelease lk = .ok h' ∧ Holds h' lks ∧ ¬h'.sie ∧ (h'.locks lk).locked = 0 ∧
      ∀ lk', lk' ≠ lk → h'.locks lk' = h.locks lk' := by
  have hs := w.sie (by simp)
  refine ⟨_, Hart.spinlockRelease_ok (w.locks lk <| by simp) hs, ?_⟩
  refine ⟨?_, hs, by simp [Hart.setLock], fun lk' hn => by simp [Hart.setLock, hn]⟩
  constructor
  case depth => simp [w.depth]
  case sie   => exact fun _ => hs
  case locks =>
    intro lk' hm
    have := w.locks lk' (by simp [hm])
    have : lk' ≠ lk := fun h => hn (h ▸ hm)
    simp_all [Hart.spinlockHolding, Hart.setLock]

theorem WellNested.of_append (w : WellNested lks (ops₁ ++ ops₂)) : WellNested lks ops₁ := by
  induction ops₁ generalizing lks
  case nil => simp [WellNested]
  case cons op ops hi =>
    cases op <;> cases lks <;> simp_all [WellNested]

theorem Holds.run (w : Holds h lks) (hn : lks.Nodup) (hw : WellNested lks ops)
    (hl : ∀ lk, .acquire lk ∈ ops → lk ∉ lks → (h.locks lk).locked = 0) :
    ∃ h', ops.foldlM Op.run h = .ok h' ∧ Holds h' (ops.foldl Op.held lks) ∧
      (ops ≠ [] ∨ ¬h.sie → ¬h'.sie) := by
  induction ops generalizing h lks
  case nil => exact ⟨h, rfl, w, by simp⟩
  case cons op ops hi =>
    cases op
    case acquire lk =>
      have ⟨hm, hw⟩ := hw
      have ⟨h₁, he, w₁, hf⟩ := w.acquire <| hl lk (by simp) hm
      have ⟨h₂, hr, w₂, hs⟩ := hi w₁ (by simp [hm, hn]) hw fun lk' ha hm' => by
        simp only [List.mem_cons, not_or] at hm'
        rw [hf lk' hm'.1]
        exact hl lk' (by simp [ha]) hm'.2
      refine ⟨h₂, ?_, w₂, fun _ => hs <| .inr <| w₁.sie (by simp)⟩
      simp [Op.run, he, hr, bind, Except.bind]
    case release lk =>
      cases lks
      case nil => exact hw.elim
      case cons lk' lks =>
        obtain ⟨rfl, hw'⟩ := hw
        have ⟨hm, hn⟩ := List.nodup_cons.mp hn
        have ⟨h₁, he, w₁, hs₁, h₀, hf⟩ := w.release hm
        have ⟨h₂, hr, w₂, hs⟩ := hi w₁ hn hw' fun lk' ha hm' => by
          by_cases hk : lk' = lk
          case pos => rwa [hk]
          case neg =>
            rw [hf lk' hk]
            exact hl lk' (by simp [ha]) (by simp [hk, hm'])
        refine ⟨h₂, ?_, by simpa [Op.held] using w₂, fun _ => hs <| .inr hs₁⟩
        simp [Op.run, he, hr, bind, Except.bind]

-- What holds after each operation no matter whether interrupts were on in the beginning.
theorem WellNested.prefix_run (hw : WellNested [] (ops₁ ++ ops₂)) (hd : h.intDepth = 0)
    (hl : ∀ lk, .acquire lk ∈ ops₁ ++ ops₂ → (h.locks lk).locked = 0) :
    ∃ h₁, ops₁.foldlM Op.run h = .ok h₁ ∧ Holds h₁ (heldAfter ops₁) ∧ (ops₁ ≠ [] → ¬h₁.sie) := by
  have w : Holds h [] := ⟨hd, fun h => absurd rfl h, by simp⟩
  have ⟨h₁, hr, w₁, hs⟩ := w.run List.nodup_nil hw.of_append fun lk ha _ =>
    hl lk <| List.mem_append_left _ ha
  exact ⟨h₁, hr, w₁, fun hn => hs (.inl hn)⟩

-- The state of the interrupts is not restored, unless they were off anyway or some lock is held
-- until the end.
theorem nests_iff (hw : WellNested [] ops) (hd : h.intDepth = 0)
    (hl : ∀ lk, .acquire lk ∈ ops → (h.locks lk).locked = 0) :
    Nests h ops ↔ ¬h.sie ∨ ∀ ops₁ ops₂, ops = ops₁ ++ ops₂ → heldAfter ops₁ = [] → ops₁ = [] := by
  constructor
  case mp =>
    intro hn
    by_contra hc
    simp only [not_or, not_not, not_forall] at hc
    have ⟨hs, ops₁, ops₂, he, hh, hne⟩ := hc
    subst he
    have ⟨h₁, hr, _, hs₁⟩ := hw.prefix_run hd hl
    have ⟨h₁', hr', _, _, hi⟩ := hn ops₁ ops₂ rfl
    cases hr.symm.trans hr'
    exact hs₁ hne <| (hi [] ops₁ h rfl rfl hh rfl).mpr hs
  case mpr =>
    intro hc ops₁ ops₂ he
    subst he
    have ⟨h₁, hr, w, hs⟩ := hw.prefix_run hd hl
    refine ⟨h₁, hr, w.depth, fun hp => ?_, fun pre mid h₀ he hh₀ hh₁ hr₀ => ?_⟩
    case refine_1 =>
      rw [w.depth] at hp
      exact w.sie fun hc => by simp [hc] at hp
    case refine_2 =>
      subst he
      by_cases hp : pre = []
      case neg =>
        rw [List.append_assoc] at hw hl
        have ⟨h₀', hr₀', _, hs₀⟩ := hw.prefix_run hd hl
        cases hr₀.symm.trans hr₀'
        simp [hs₀ hp, hs (by simp [hp])]
      case pos =>
        subst hp
        cases hr₀
        obtain hc | hc := hc
        case inl =>
          by_cases hm : mid = []
          case pos => subst hm; cases hr; rfl
          case neg => simp [hc, hs (by simp [hm])]
        case inr =>
          have := hc _ _ rfl hh₁
          simp only [List.nil_append] at this
          subst this
          cases hr
          rfl

def interruptible : Hart where
  hartid    := ⟨0, by decide⟩
  sstatus   := Hart.sstatusSie
  intDepth  := 0
  intEnable := 0
  locks     := fun _ => { locked := 0, cpuId := -1 }

theorem two_locks_nest : Nests interruptible.intrOff [.acquire 0, .acquire 1, .release 1, .release 0] :=
  nests_iff (by simp [WellNested]) rfl (by simp [interruptible, Hart.intrOff]) |>.mpr <|
    .inl <| Hart.intrOff_not_sie _

-- Interrupts stay off after a lock has been acquired and released.
theorem not_restored : interruptible.sie ∧ ¬Nests interruptible [.acquire 0, .release 0] ∧
    ∃ h', [Op.acquire 0, .release 0].foldlM Op.run interruptible = .ok h' ∧ h'.intDepth = 0 ∧ ¬h'.sie := by
  have hs : interruptible.sie := by decide
  have hw : WellNested [] [.acquire 0, .release 0] := by simp [WellNested]
  refine ⟨hs, fun hn => ?_, ?_⟩
  case refine_1 =>
    obtain hc | hc := (nests_iff hw rfl <| by simp [interruptible]).mp hn
    case inl => exact hc hs
    case inr => exact List.cons_ne_nil _ _ <| hc _ [] (List.append_nil _).symm rfl
  case refine_2 =>
    have hw : WellNested [] ([.acquire 0, .release 0] ++ []) := hw
    have ⟨h', hr, w, hs'⟩ := hw.prefix_run (h := interruptible) rfl (by simp [interruptible])
    exact ⟨h', hr, w.depth, hs' (by simp)⟩

end Zgmos.Cpu
