import Zgmos.Pid.Bitmap
import Zgmos.Lib.Run

namespace Zgmos.Pid

open Bitmap

-- The bitmap together with what it is to keep track of: the free positions, and the positions which
-- `bitmap_alloc_bit` has returned and which have not been freed since.
structure State where
  bm    : Bitmap
  free  : Finset Nat
  given : Finset Nat

inductive Op
  | alloc
  | free (pos : Nat)

namespace State

def init (bm : Bitmap) : State where
  bm    := bm
  free  := (Finset.range bm.bits).filter (IsSet bm.map)
  given := ∅

def give (s : State) : Int → State
  | .ofNat p => { s with free := s.free.erase p, given := insert p s.given }
  | _        => s

inductive Step : State → Op → State → Prop
  | alloc : Step s .alloc (s.give <| bitmapAllocBit s.bm)
  | free {p : Nat} {bm : Bitmap} (hp : p < s.bm.bits) (hf : p ∉ s.free)
    (h : bitmapFreeBit s.bm p = .ok bm) :
    Step s (.free p) { bm, free := insert p s.free, given := s.given.erase p }

-- An allocation returns a free position, or -1 if there is none. Freeing a position makes exactly
-- this one available.
def Correct (s : State) : Op → State → Prop
  | .alloc, _ =>
    (bitmapAllocBit s.bm = -1 ↔ s.free = ∅) ∧
      (bitmapAllocBit s.bm ≠ -1 → ∃ p ∈ s.free, p < s.bm.bits ∧ bitmapAllocBit s.bm = p)
  | .free p, s' =>
    ∀ q, IsSet s'.bm.map q ↔ IsSet s.bm.map q ∨ q = p

-- Either no position is given away, or the search reaches some free position after all those which
-- are given away.
def Ahead (s : State) : Prop :=
  s.given = ∅ ∨ ∃ p ∈ s.free, ∀ q ∈ s.given, Before q p

-- Positions that have been given away keep their bit.
structure Tracked (s : State) : Prop where
  isSet    : ∀ p, IsSet s.bm.map p ↔ p ∈ s.free ∨ p ∈ s.given
  disjoint : Disjoint s.free s.given

variable {s s' : State} {op : Op} {p : Nat}

theorem init_tracked (bm : Bitmap) : (init bm).Tracked where
  isSet p := by
    simp only [init, Finset.mem_filter, Finset.mem_range, Finset.notMem_empty, or_false]
    exact ⟨fun h => ⟨h.lt, h⟩, fun h => h.2⟩
  disjoint := by simp [init]

theorem Tracked.give (w : s.Tracked) (hp : p ∈ s.free ∨ p ∈ s.given) : (s.give p).Tracked where
  isSet q := by
    have := w.isSet q
    by_cases q = p <;> simp_all [State.give]
  disjoint := by
    have := w.disjoint
    simp only [State.give, Finset.disjoint_left] at *
    grind

theorem Tracked.step (w : s.Tracked) (e : Step s op s') : s'.Tracked := by
  cases e
  case alloc =>
    obtain ⟨hr, _⟩ | ⟨p, hr, hp, _⟩ := bitmapAllocBit_cases s.bm
    case inl => rwa [hr]
    case inr =>
      simp only [hr]
      exact w.give ((w.isSet p).mp hp)
  case free p bm hp hf h =>
    have ⟨_, hs⟩ := bitmapFreeBit_isSet h
    constructor
    case isSet =>
      intro q
      have := w.isSet q
      by_cases q = p <;> simp_all
    case disjoint =>
      have := w.disjoint
      rw [Finset.disjoint_left] at *
      grind

-- The position of an allocation is free exactly if the search meets a free position last.
theorem Tracked.alloc_correct_iff (w : s.Tracked) : s.Correct .alloc s' ↔ s.Ahead := by
  obtain ⟨hr, hn⟩ | ⟨p, hr, hp, hl⟩ := bitmapAllocBit_cases s.bm
  case inl =>
    have hf : s.free = ∅ := Finset.eq_empty_of_forall_notMem fun q hq => hn q <| (w.isSet q).mpr (.inl hq)
    have hg : s.given = ∅ := Finset.eq_empty_of_forall_notMem fun q hq => hn q <| (w.isSet q).mpr (.inr hq)
    simp [Correct, Ahead, hr, hf, hg]
  case inr =>
    have hne : ¬(p : Int) = -1 := by omega
    have hlt : p < s.bm.bits := hp.lt
    have hd := Finset.disjoint_left.mp w.disjoint
    simp only [Correct, Ahead, hr, ne_eq, hne, not_false_eq_true, false_iff, forall_const, Nat.cast_inj]
    constructor
    case mp =>
      intro ⟨_, p', hp', _, he⟩
      subst he
      refine .inr ⟨p, hp', fun q hq => ?_⟩
      have hqp : q ≠ p := fun h => hd hp' (h ▸ hq)
      exact (hl q <| (w.isSet q).mpr (.inr hq)).resolve_left hqp
    case mpr =>
      intro ha
      suffices hf : p ∈ s.free from ⟨Finset.ne_empty_of_mem hf, p, hf, hlt, rfl⟩
      have hpm := (w.isSet p).mp hp
      obtain hg | ⟨q, hq, ha⟩ := ha
      case inl => simpa [hg] using hpm
      case inr =>
        refine hpm.resolve_right fun hpg => ?_
        have hqp : q ≠ p := fun h => hd hq (h ▸ hpg)
        have hb := (hl q <| (w.isSet q).mpr (.inl hq)).resolve_left hqp
        exact (ha p hpg).asymm hb

theorem free_correct (e : Step s (.free p) s') : s.Correct (.free p) s' := by
  cases e
  case free h => exact (bitmapFreeBit_isSet h).2

theorem Tracked.run {bm : Bitmap} {ops : List Op} (r : Run Step (init bm) ops s) : s.Tracked :=
  r.invariant (fun _ _ _ => Tracked.step) (init_tracked bm)

end State

open State in
-- All operations of a run do what they should if and only if every allocation of the run meets a
-- free position after all those which are given away.
theorem correct_iff_ahead (bm : Bitmap) (ops : List Op) :
    (∀ ops₁ op ops₂ s₁ s₂, ops = ops₁ ++ op :: ops₂ → Run Step (.init bm) ops₁ s₁ →
      Step s₁ op s₂ → s₁.Correct op s₂) ↔
      ∀ ops₁ ops₂ s₁, ops = ops₁ ++ .alloc :: ops₂ → Run Step (.init bm) ops₁ s₁ → s₁.Ahead := by
  constructor
  case mp =>
    intro h ops₁ ops₂ s₁ he r₁
    exact (Tracked.run r₁).alloc_correct_iff.mp <| h ops₁ .alloc ops₂ s₁ _ he r₁ .alloc
  case mpr =>
    intro h ops₁ op ops₂ s₁ s₂ he r₁ e
    cases op
    case alloc  => exact (Tracked.run r₁).alloc_correct_iff.mpr <| h ops₁ ops₂ s₁ he r₁
    case free p => exact free_correct e

def onePosition : Bitmap where
  map  := [1]
  fits := by decide

open State in
-- The position 0 is returned by both allocations.
theorem alloc_twice : bitmapAllocBit (init onePosition).bm = 0 ∧
    ∃ s, Run Step (init onePosition) [.alloc] s ∧ bitmapAllocBit s.bm = 0 ∧ 0 ∉ s.free ∧
      ∃ s', Step s .alloc s' ∧ ¬s.Correct .alloc s' := by
  refine ⟨by decide, _, .single .alloc, by decide, by decide, _, .alloc, ?_⟩
  intro h
  have ⟨p, hp, _⟩ := h.2 (by decide)
  exact absurd hp (by decide +revert)

-- The identifiers are the positions: none is lost in the conversion.
theorem pidAlloc_toInt {bm : Bitmap} (h : bm.map.length = pageSize) :
    (pidAlloc bm).toInt = bitmapAllocBit bm := by
  have hc := bitmapAllocBit_cases bm
  rw [pidAlloc, BitVec.toInt_ofInt]
  obtain ⟨hr, _⟩ | ⟨p, hr, hp, _⟩ := hc
  case inl => simp [hr]
  case inr =>
    have hl := hp.lt
    rw [h, pageSize] at hl
    rw [hr, Int.bmod_eq_of_le]
    case hn' => norm_num
    case hn  => norm_num; omega

end Zgmos.Pid
