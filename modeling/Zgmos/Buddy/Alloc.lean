import Zgmos.Buddy.Layout

namespace Zgmos.Buddy

open Layout

variable {bs bs' : BuddySystem} {P P' : Pool} {p i j pow p₁ : Nat} {is : List Nat}

theorem splitBlock_run (hj : j + 1 < maxBlockPow) (hi : bs.indices (j + 1) = some p₁)
    (h₁ : p₁ < bs.entries) (h₂ : p₁ + 2 ^ j < bs.entries) :
    (splitBlock j).run bs = .ok ((), bs.setIndex (j + 1) (bs.next p₁) |>.setPow p₁ j
      |>.setPow (p₁ + 2 ^ j) j |>.setNext p₁ (some <| p₁ + 2 ^ j) |>.setNext (p₁ + 2 ^ j) none
      |>.setIndex j (some p₁)) := by
  have : j < maxBlockPow := by omega
  simp [splitBlock, hj, hi, h₁, h₂, this]

-- The first block of order `j + 1` becomes two blocks of order `j`.
theorem splitBlock_spec (w : Layout bs P) (hj : j + 1 < maxBlockPow) (h : P.free (j + 1) = p₁ :: is)
    (hn : P.free j = []) :
    ∃ bs', (splitBlock j).run bs = .ok ((), bs') ∧ Frame bs bs' ∧
      bs'.pow = Function.update (Function.update bs.pow p₁ j) (p₁ + 2 ^ j) j ∧
      Layout bs' ((P.setFree (j + 1) is).setFree j [p₁, p₁ + 2 ^ j]) := by
  have hj' : j < maxBlockPow := by omega
  have hb : P.Mem maxBlockPow (j + 1) p₁ := .inl ⟨hj, by simp [h]⟩
  have h₀ : 0 < 2 ^ j := by positivity
  have hi : bs.indices (j + 1) = some p₁ := by simp [w.indices_eq hj, h]
  have hi' : bs.indices j = none := by simp [w.indices_eq hj', hn]
  refine ⟨_, splitBlock_run hj hi (w.start_lt_entries hb) (w.lt_entries hb (by omega)),
    (Frame.refl _).setIndex.setPow.setPow.setNext.setNext.setIndex, by simp, ?_⟩
  -- The block is taken and split, then its halves are put to the other list.
  have w₁ := (w.take_head hj h).split.put_head hj'
  rw [← Pool.setFree_hold] at w₁
  have w₂ := w₁.put_head hj'
  rw [BuddySystem.setNext_comm _ _ _ (show p₁ ≠ p₁ + 2 ^ j by omega)]
  simpa [hn, hi', BuddySystem.setNext_setIndex] using w₂

theorem splitBlock_equiv (hj : j + 1 < maxBlockPow) (h : P.free (j + 1) = p₁ :: is)
    (hn : P.free j = []) :
    P.Equiv maxBlockPow ((P.setFree (j + 1) is).setFree j [p₁, p₁ + 2 ^ j]) := by
  have hj' : j < maxBlockPow := by omega
  have e₁ := (Pool.Equiv.take (s := []) hj h).trans .split
  have e₂ := e₁.trans <| .put (s := []) (t := []) hj' (by simp [hn])
  rw [List.nil_append, List.nil_append, ← Pool.setFree_hold] at e₂
  simpa using e₂.trans <| .put (s := []) (t := [p₁ + 2 ^ j]) hj' (by simp)

-- Apart from the first block of the list, which is split, the lists are in order before and after.
theorem splitBlock_tidies (w : Layout bs' ((P.setFree (j + 1) is).setFree j [p₁, p₁ + 2 ^ j]))
    (hj : j + 1 < maxBlockPow) (f : Frame bs bs')
    (hp : bs'.pow = Function.update (Function.update bs.pow p₁ j) (p₁ + 2 ^ j) j) :
    Tidies bs bs' (P.setFree (j + 1) is) ((P.setFree (j + 1) is).setFree j [p₁ + 2 ^ j]) := by
  refine Tidies.of_blocks (by rw [f.region]) (fun i => ?_) Pool.Merged.singleton
  by_cases hi : i = p₁ ∨ i = p₁ + 2 ^ j
  case pos => exact .inr ⟨j, w.block <| .inl ⟨by omega, by simpa using hi⟩⟩
  case neg =>
    rw [not_or] at hi
    exact .inl <| by simp [hp, hi]

-- The loop splits blocks until there is one of order `pow`.
theorem splitTo_spec (w : Layout bs P) (hi : i < maxBlockPow) (hp : pow ≤ i) (h : P.free i ≠ [])
    (hn : ∀ q, pow ≤ q → q < i → P.free q = []) :
    ∃ bs' P', (splitTo pow i).run bs = .ok ((), bs') ∧ Frame bs bs' ∧ Layout bs' P' ∧
      P.Equiv maxBlockPow P' ∧ P'.held = P.held ∧ P'.free pow ≠ [] ∧
      Tidies bs bs' (P.setFree i (P.free i).tail) (P'.setFree pow (P'.free pow).tail) := by
  induction i generalizing bs P
  case zero =>
    obtain rfl := Nat.le_zero.mp hp
    exact ⟨bs, P, rfl, .refl _, w, .refl _, rfl, h, .refl ..⟩
  case succ j ih =>
    by_cases he : pow = j + 1
    case pos =>
      subst he
      exact ⟨bs, P, by simp [splitTo], .refl _, w, .refl _, rfl, h, .refl ..⟩
    case neg =>
      have hp : pow < j + 1 := by omega
      have hf : P.free j = [] := hn j (by omega) (by omega)
      have ⟨p₁, is, hc⟩ := List.exists_cons_of_ne_nil h
      have ⟨bs₁, hr₁, f₁, hp₁, w₁⟩ := splitBlock_spec w hi hc hf
      have t₁ := splitBlock_tidies w₁ hi f₁ hp₁
      have ⟨bs₂, P₂, hr₂, f₂, w₂, e₂, hh, hp₂, t₂⟩ := ih w₁ (by omega) (by omega) (by simp) fun q hq hq' => by
        have h₁ : q ≠ j := by omega
        have h₂ : q ≠ j + 1 := by omega
        simp [h₁, h₂, hn q hq (by omega)]
      refine ⟨bs₂, P₂, ?_, f₁.trans f₂, w₂, (splitBlock_equiv hi hc hf).trans e₂, by simpa using hh, hp₂, ?_⟩
      case refine_1 => simp [splitTo, hp, hr₁, hr₂]
      case refine_2 =>
        simp only [Pool.setFree_free, Function.update_self, Pool.setFree_setFree, List.tail_cons] at t₂
        simpa [hc] using t₁.trans t₂

-- The search ends at the first list which is not empty, if there is one.
theorem seekOrder_run (bs : BuddySystem) (n : Nat) (h : i + n ≤ maxBlockPow) :
    ∃ j, (seekOrder i n).run bs = .ok (j, bs) ∧ i ≤ j ∧ j ≤ i + n ∧
      (∀ q, i ≤ q → q < j → bs.indices q = none) ∧ (j < i + n → bs.indices j ≠ none) := by
  induction n generalizing i
  case zero => exact ⟨i, rfl, le_rfl, le_rfl, by omega, by omega⟩
  case succ n ih =>
    have hi : i < maxBlockPow := by omega
    cases hs : bs.indices i
    case some => exact ⟨i, by simp [seekOrder, hi, hs], le_rfl, by omega, by omega, by simp [hs]⟩
    case none =>
      have ⟨j, hr, h₁, h₂, h₃, h₄⟩ := ih (i := i + 1) (by omega)
      refine ⟨j, by simp [seekOrder, hi, hs, hr], by omega, by omega, fun q hq hq' => ?_, fun hj => h₄ (by omega)⟩
      by_cases he : q = i
      case pos => exact he ▸ hs
      case neg => exact h₃ q (by omega) hq'

-- There is a block which is large enough.
def BuddySystem.Satisfiable (bs : BuddySystem) (pow : Nat) : Prop :=
  ∃ q, pow ≤ q ∧ q < maxBlockPow ∧ bs.indices q ≠ none

-- What an allocation of a block changes apart from the lists.
structure Allocated (bs bs' : BuddySystem) (pow i : Nat) : Prop where
  region    : bs'.toRegion = bs.toRegion
  freePages : bs'.freePages = bs.freePages
  used      : ∀ j, bs'.used j = if i ≤ j ∧ j < i + 2 ^ pow then true else bs.used j

theorem Allocated.of_frame (f : Frame bs bs') :
    Allocated bs (bs'.putUsed i (2 ^ pow) true) pow i where
  region    := by simp [f.region]
  freePages := f.freePages
  used j    := by rw [BuddySystem.putUsed_used, f.used]

-- If there is a list for the order, its first block is taken and its other blocks are forgotten.
theorem buddyAllocIndex_fast (w : Layout bs P) (hp : pow < maxBlockPow) (h : P.free pow = i :: is) :
    ∃ bs', (buddyAllocIndex pow).run bs = .ok (some i, bs') ∧ Allocated bs bs' pow i ∧
      Layout bs' ((P.setFree pow []).hold pow i) ∧ Tidies bs bs' P (P.setFree pow []) := by
  have hi : bs.indices pow = some i := by simp [w.indices_eq hp, h]
  have w₁ := (w.take_head hp h).drop hp
  rw [← Pool.setFree_hold, Pool.setFree_setFree, BuddySystem.setIndex_setIndex] at w₁
  have hb := w₁.block (p := pow) (i := i) (by simp)
  refine ⟨_, ?_, .of_frame (Frame.refl bs).setIndex, w₁.putUsed, ?_⟩
  case refine_2 =>
    exact .of_blocks (by simp) (fun _ => .inl <| by simp) fun hm => hm.sublist <| List.nil_sublist _
  have hr := buddyPutUsed_run (bs.setIndex pow none) i true fun j hj => by
    rw [hb.pow] at hj
    exact w₁.lt_entries (by simp) hj
  rw [hb.pow] at hr
  simp [buddyAllocIndex, hp, hi, hr]

theorem buddyAllocIndex_slow (w : Layout bs P) (hp : pow < maxBlockPow) (h : P.free pow = [])
    (hs : bs.Satisfiable pow) :
    ∃ bs' i, ∃ P' : Pool, (buddyAllocIndex pow).run bs = .ok (some i, bs') ∧ Allocated bs bs' pow i ∧
      Layout bs' (P'.hold pow i) ∧ P.Equiv maxBlockPow (P'.hold pow i) ∧ P'.held = P.held ∧ Tidies bs bs' P P' := by
  have hi : bs.indices pow = none := by simp [w.indices_eq hp, h]
  have ⟨q, hq, hq', hqi⟩ := hs
  have hq₁ : q ≠ pow := fun he => hqi (he ▸ hi)
  have ⟨j, hr₁, h₁, h₂, h₃, h₄⟩ := seekOrder_run bs (i := pow + 1) (maxBlockPow - (pow + 1)) (by omega)
  have hj : j < maxBlockPow := by
    by_contra hc
    exact hqi <| h₃ q (by omega) (by omega)
  have hn : ∀ q, pow ≤ q → q < j → P.free q = [] := by
    intro q hq hq'
    by_cases he : q = pow
    case pos => exact he ▸ h
    case neg => simpa [w.indices_eq (p := q) (by omega)] using h₃ q (by omega) hq'
  have hf : P.free j ≠ [] := by simpa [w.indices_eq hj] using h₄ (by omega)
  have ⟨bs₁, P₁, hr₂, f₁, w₁, e₁, hh₁, hf₁, t₁⟩ := splitTo_spec w hj (by omega) hf hn
  have ⟨i, is, hc⟩ := List.exists_cons_of_ne_nil hf₁
  have w₂ := w₁.take_head hp hc
  have hb := w₂.block (p := pow) (i := i) (by simp)
  have hl : i < bs₁.entries := by simpa using w₂.start_lt_entries (p := pow) (i := i) (by simp)
  refine ⟨_, i, P₁.setFree pow is, ?_, .of_frame f₁.setIndex, w₂.putUsed,
    e₁.trans <| .take (s := []) hp hc, hh₁, ?_⟩
  case refine_2 =>
    have t₀ : Tidies bs bs P (P.setFree j (P.free j).tail) :=
      { merged := fun hm => hm.sublist <| List.tail_sublist _, within := id }
    rw [hc, List.tail_cons] at t₁
    exact (t₀.trans t₁).trans <| .of_blocks (by simp) (fun _ => .inl <| by simp) id
  have hr := buddyPutUsed_run (bs₁.setIndex pow (bs₁.next i)) i true fun j hj => by
    rw [hb.pow] at hj
    exact w₂.lt_entries (by simp) hj
  have hi₁ : bs₁.indices pow = some i := by simp [w₁.indices_eq hp, hc]
  rw [hb.pow] at hr
  simp [buddyAllocIndex, hp, hi, hr₁, hr₂, hi₁, hl, hr]

-- There is no list for the order after the last one.
theorem splitTo_error (hp : pow < i) (hi : maxBlockPow ≤ i) :
    (splitTo pow i).run bs = .error .outOfBounds := by
  cases i
  case zero   => contradiction
  case succ j => simp [splitTo, splitBlock, hp, getIndex_error hi]

theorem buddyAllocIndex_error (hp : pow < maxBlockPow) (h : ¬bs.Satisfiable pow) :
    (buddyAllocIndex pow).run bs = .error .outOfBounds := by
  have hn : ∀ q, pow ≤ q → q < maxBlockPow → bs.indices q = none := by
    intro q hq hq'
    by_contra hc
    exact h ⟨q, hq, hq', hc⟩
  have ⟨j, hr, h₁, h₂, h₃, h₄⟩ := seekOrder_run bs (i := pow + 1) (maxBlockPow - (pow + 1)) (by omega)
  have hj : maxBlockPow ≤ j := by
    by_contra hc
    exact h₄ (by omega) <| hn j (by omega) (by omega)
  simp [buddyAllocIndex, hp, hn pow, hr, splitTo_error (show pow < j by omega) hj]

end Zgmos.Buddy
