import Zgmos.Buddy.Basic

namespace Zgmos.Buddy

namespace BuddySystem

variable (bs : BuddySystem) (i p : Nat) (v : Option Nat) (u : Bool)

-- The state after the loop of `buddy_set_used_index` or `buddy_clear_used`.
def putUsed (index n : Nat) (used : Bool) : BuddySystem :=
  { bs with buddies := fun i =>
      if index ≤ i ∧ i < index + n then { bs.buddies i with used } else bs.buddies i }

@[simp] theorem setIndex_indices : (bs.setIndex p v).indices = Function.update bs.indices p v := rfl
@[simp] theorem setIndex_next    : (bs.setIndex p v).next = bs.next := rfl
@[simp] theorem setIndex_pow     : (bs.setIndex p v).pow = bs.pow := rfl
@[simp] theorem setIndex_used    : (bs.setIndex p v).used = bs.used := rfl

@[simp] theorem setFreePages_indices   : (bs.setFreePages n).indices = bs.indices := rfl
@[simp] theorem setFreePages_next      : (bs.setFreePages n).next = bs.next := rfl
@[simp] theorem setFreePages_pow       : (bs.setFreePages n).pow = bs.pow := rfl
@[simp] theorem setFreePages_used      : (bs.setFreePages n).used = bs.used := rfl
@[simp] theorem setFreePages_freePages : (bs.setFreePages n).freePages = n := rfl

@[simp] theorem setNext_indices : (bs.setNext i v).indices = bs.indices := rfl
@[simp] theorem setPow_indices  : (bs.setPow i p).indices = bs.indices := rfl

@[simp]
theorem setNext_next : (bs.setNext i v).next = Function.update bs.next i v := by
  funext j
  by_cases h : j = i <;> simp [next, setNext, setBlock, h]

@[simp]
theorem setPow_pow : (bs.setPow i p).pow = Function.update bs.pow i p := by
  funext j
  by_cases h : j = i <;> simp [pow, setPow, setBlock, h]

section PutUsed

variable (n : Nat)

@[simp]
theorem putUsed_next : (bs.putUsed i n u).next = bs.next := by
  funext j
  simp only [next, putUsed]
  split <;> rfl

@[simp]
theorem putUsed_pow : (bs.putUsed i n u).pow = bs.pow := by
  funext j
  simp only [pow, putUsed]
  split <;> rfl

@[simp]
theorem putUsed_indices : (bs.putUsed i n u).indices = bs.indices :=
  rfl

@[simp]
theorem putUsed_freePages : (bs.putUsed i n u).freePages = bs.freePages :=
  rfl

theorem putUsed_used : (bs.putUsed i n u).used j = if i ≤ j ∧ j < i + n then u else bs.used j := by
  simp only [used, putUsed]
  split <;> rfl

theorem putUsed_succ : (bs.putUsed i n u).setBlock (i + n) ({ · with used := u }) =
    bs.putUsed i (n + 1) u := by
  simp only [setBlock, putUsed, mk.injEq, true_and]
  funext j
  by_cases h : j = i + n
  case pos => simp [h]
  case neg =>
    have : i ≤ j ∧ j < i + n ↔ i ≤ j ∧ j < i + (n + 1) := by omega
    simp [h, this]

end PutUsed

section Others

variable {f : BuddyBlock → BuddyBlock}

-- An update of one member of a block leaves the other members as they are.
theorem setBlock_next (h : ∀ b, (f b).next = b.next) : (bs.setBlock i f).next = bs.next := by
  funext j
  by_cases hj : j = i <;> simp [next, setBlock, h, hj]

theorem setBlock_pow (h : ∀ b, (f b).pow = b.pow) : (bs.setBlock i f).pow = bs.pow := by
  funext j
  by_cases hj : j = i <;> simp [pow, setBlock, h, hj]

theorem setBlock_used (h : ∀ b, (f b).used = b.used) : (bs.setBlock i f).used = bs.used := by
  funext j
  by_cases hj : j = i <;> simp [used, setBlock, h, hj]

end Others

@[simp] theorem setNext_pow  : (bs.setNext i v).pow = bs.pow := bs.setBlock_pow i fun _ => rfl
@[simp] theorem setNext_used : (bs.setNext i v).used = bs.used := bs.setBlock_used i fun _ => rfl
@[simp] theorem setPow_next  : (bs.setPow i p).next = bs.next := bs.setBlock_next i fun _ => rfl
@[simp] theorem setPow_used  : (bs.setPow i p).used = bs.used := bs.setBlock_used i fun _ => rfl

@[simp]
theorem setIndex_region : (bs.setIndex p v).toRegion = bs.toRegion := by
  simp [setIndex]

@[simp]
theorem setFreePages_region : (bs.setFreePages n).toRegion = bs.toRegion := by
  simp [setFreePages]

@[simp]
theorem setBlock_region {f : BuddyBlock → BuddyBlock} : (bs.setBlock i f).toRegion = bs.toRegion := by
  simp [setBlock]

@[simp]
theorem setNext_region : (bs.setNext i v).toRegion = bs.toRegion := by
  simp [setNext]

@[simp]
theorem setPow_region : (bs.setPow i p).toRegion = bs.toRegion := by
  simp [setPow]

@[simp]
theorem putUsed_region : (bs.putUsed i n u).toRegion = bs.toRegion := by
  simp [putUsed]

@[simp]
theorem setIndex_setIndex (w : Option Nat) : (bs.setIndex p v).setIndex p w = bs.setIndex p w := by
  simp [setIndex]

theorem setNext_setIndex : (bs.setIndex p v).setNext i w = (bs.setNext i w).setIndex p v :=
  rfl

theorem setNext_comm {j : Nat} {w : Option Nat} (h : i ≠ j) :
    (bs.setNext i v).setNext j w = (bs.setNext j w).setNext i v := by
  simp [setNext, setBlock, h, h.symm, Function.update_comm h]

@[simp] theorem buddies_next : (bs.buddies i).next = bs.next i := rfl
@[simp] theorem buddies_pow  : (bs.buddies i).pow = bs.pow i := rfl
@[simp] theorem buddies_used : (bs.buddies i).used = bs.used i := rfl

end BuddySystem

-- What the operations on the lists leave as it is.
structure Frame (bs bs' : BuddySystem) : Prop where
  region    : bs'.toRegion = bs.toRegion
  freePages : bs'.freePages = bs.freePages
  used      : bs'.used = bs.used

namespace Frame

variable {bs bs₁ bs₂ bs₃ : BuddySystem} {i p : Nat} {v : Option Nat}

theorem trans (h₁ : Frame bs₁ bs₂) (h₂ : Frame bs₂ bs₃) : Frame bs₁ bs₃ where
  region    := h₂.region.trans h₁.region
  freePages := h₂.freePages.trans h₁.freePages
  used      := h₂.used.trans h₁.used

theorem setIndex (h : Frame bs bs₁) : Frame bs (bs₁.setIndex p v) where
  region    := h.region
  freePages := h.freePages
  used      := h.used

theorem setNext (h : Frame bs bs₁) : Frame bs (bs₁.setNext i v) where
  region    := h.region
  freePages := h.freePages
  used      := by simp [h.used]

theorem setPow (h : Frame bs bs₁) : Frame bs (bs₁.setPow i p) where
  region    := h.region
  freePages := h.freePages
  used      := by simp [h.used]

theorem refl (bs : BuddySystem) : Frame bs bs :=
  ⟨rfl, rfl, rfl⟩

end Frame

-- The accesses that stay within the bounds.
section Runs

variable {bs : BuddySystem} {pow i p : Nat} {v : Option Nat}

@[simp]
theorem ok_bind {a : α} {f : α → Except Fault β} : (Except.ok a >>= f) = f a := by
  simp only [bind, Except.bind]

@[simp]
theorem error_bind {e : Fault} {f : α → Except Fault β} : (Except.error e >>= f) = .error e := by
  simp only [bind, Except.bind]

@[simp]
theorem map_ok {a : α} {f : α → β} : f <$> (Except.ok a : Except Fault α) = .ok (f a) := by
  simp only [Functor.map, Except.map]

@[simp]
theorem pure_eq_ok {a : α} : (pure a : Except Fault α) = .ok a :=
  rfl

@[simp]
theorem getIndex_run (h : pow < maxBlockPow) : (getIndex pow).run bs = .ok (bs.indices pow, bs) := by
  simp [getIndex, h]

theorem getIndex_error (h : maxBlockPow ≤ pow) : (getIndex pow).run bs = .error .outOfBounds := by
  simp [getIndex, Nat.not_lt.mpr h]
  rfl

@[simp]
theorem setIndex_run (h : pow < maxBlockPow) : (setIndex pow v).run bs = .ok ((), bs.setIndex pow v) := by
  simp [setIndex, h]

@[simp]
theorem getBlock_run (h : i < bs.entries) : (getBlock i).run bs = .ok (bs.buddies i, bs) := by
  simp [getBlock, h]

@[simp]
theorem setBlock_run {f : BuddyBlock → BuddyBlock} (h : i < bs.entries) :
    (setBlock i f).run bs = .ok ((), bs.setBlock i f) := by
  simp [setBlock, h]

@[simp]
theorem setNext_run (h : i < bs.entries) : (setNext i v).run bs = .ok ((), bs.setNext i v) :=
  setBlock_run h

@[simp]
theorem setPow_run (h : i < bs.entries) : (setPow i p).run bs = .ok ((), bs.setPow i p) :=
  setBlock_run h

@[simp]
theorem asIndex_run : (asIndex <| some i).run bs = .ok (i, bs) :=
  rfl

-- A loop whose iterations do not change the state.
theorem forM_run {f : α → BuddyM Unit} {as : List α} (h : ∀ a ∈ as, (f a).run bs = .ok ((), bs)) :
    (forM as f).run bs = .ok ((), bs) := by
  induction as
  case nil          => rfl
  case cons a as hi => simp [h a, hi fun b hb => h b (by simp [hb])]

theorem forM_putUsed_run (bs : BuddySystem) (index n : Nat) (used : Bool) (h : ∀ i < n, index + i < bs.entries) :
    (forM (List.range n) fun i => setBlock (index + i) ({ · with used })).run bs =
      .ok ((), bs.putUsed index n used) := by
  induction n
  case zero =>
    have : bs.putUsed index 0 used = bs := by
      simp only [BuddySystem.putUsed]
      congr
      funext j
      exact if_neg (by omega)
    simp [this]
  case succ n hi =>
    have := hi fun i h' => h i (by omega)
    have hn := h n (by omega)
    simp [List.range_succ, this, hn, BuddySystem.putUsed_succ]

theorem buddyPutUsed_run (bs : BuddySystem) (index : Nat) (used : Bool)
    (h : ∀ i < 2 ^ bs.pow index, index + i < bs.entries) :
    (buddyPutUsed index used).run bs = .ok ((), bs.putUsed index (2 ^ bs.pow index) used) := by
  have : index < bs.entries := h 0 (by positivity)
  simp only [buddyPutUsed, StateT.run_bind, getBlock_run this, ok_bind]
  exact forM_putUsed_run _ _ _ _ h

end Runs

end Zgmos.Buddy
