import Zgmos.Buddy.Alloc
import Zgmos.Lib.Run

namespace Zgmos.Buddy

-- A block as its owner knows it.
structure Allocation where
  pa  : Nat
  pow : Nat
  deriving DecidableEq

-- The buddy system together with the blocks that are live.
structure World where
  bs   : BuddySystem
  live : List Allocation

namespace World

def init (paStart paEnd : Nat) (buddies : Nat → BuddyBlock) : Except Fault World := do
  let (_, bs) ← buddyInit.run (buddyAuxDataInit paStart paEnd buddies)
  return { bs, live := [] }

def alloc (w : World) (pow : Nat) : Except Fault World := do
  let (pa, bs) ← (buddyAlloc pow).run w.bs
  return { bs, live := ⟨pa, pow⟩ :: w.live }

def free (w : World) (b : Allocation) : Except Fault World := do
  let (_, bs) ← (buddyFree b.pa).run w.bs
  return { bs, live := w.live.erase b }

end World

inductive Op
  | alloc (pow : Nat)
  | free (b : Allocation)

-- A request finds a block that is large enough and only live blocks are released.
inductive Step : Except Fault World → Op → Except Fault World → Prop
  | alloc (hp : pow < maxBlockPow) (hs : w.bs.Satisfiable pow) : Step (.ok w) (.alloc pow) (w.alloc pow)
  | free (h : b ∈ w.live) : Step (.ok w) (.free b) (w.free b)

instance (bs : BuddySystem) (pow : Nat) : Decidable (bs.Satisfiable pow) :=
  decidable_of_iff (∃ q ∈ List.range maxBlockPow, pow ≤ q ∧ bs.indices q ≠ none) <| by
    simp [BuddySystem.Satisfiable, and_left_comm]

def exec : Except Fault World → Op → Option (Except Fault World)
  | .ok w,    .alloc pow => if pow < maxBlockPow ∧ w.bs.Satisfiable pow then some (w.alloc pow) else none
  | .ok w,    .free b    => if b ∈ w.live then some (w.free b) else none
  | .error _, _          => none

theorem Step.of_exec (h : exec s op = some s') : Step s op s' := by
  cases s
  case error => nomatch h
  case ok w =>
    cases op
    case alloc pow =>
      simp only [exec, Option.ite_none_right_eq_some] at h
      have ⟨⟨hp, hs⟩, he⟩ := h
      cases he
      exact .alloc hp hs
    case free b =>
      simp only [exec, Option.ite_none_right_eq_some] at h
      have ⟨hb, he⟩ := h
      cases he
      exact .free hb

theorem Step.unique (e₁ : Step s op s₁) (e₂ : Step s op s₂) : s₁ = s₂ := by
  cases e₁ <;> cases e₂ <;> rfl

-- The list for the order has at most one block.
def BuddySystem.SingleEntry (bs : BuddySystem) (pow : Nat) : Prop :=
  ∀ i, bs.indices pow = some i → bs.next i = none

-- An allocation returns the null pointer and changes nothing.
def BuddySystem.OutOfMemory (bs : BuddySystem) (pow : Nat) : Prop :=
  (buddyAlloc pow).run bs = .ok (0, bs)

namespace World

-- The pages of a live block.
def InBlock (w : World) (b : Allocation) (x : Nat) : Prop :=
  w.bs.buddyAuxAddr2index b.pa ≤ x ∧ x < w.bs.buddyAuxAddr2index b.pa + 2 ^ b.pow

-- The pages of a free block of order `p` that starts at the page `i`.
structure InFree (w : World) (p i x : Nat) : Prop where
  order  : p < maxBlockPow
  linked : Linked w.bs.next (w.bs.indices p) i
  page   : i ≤ x ∧ x < i + 2 ^ p

-- Every page is in a live or in a free block and all free pages are counted.
structure Conserved (w : World) : Prop where
  pages : x < w.bs.totalPages → (∃ b ∈ w.live, w.InBlock b x) ∨ ∃ p i, w.InFree p i x
  count : ∃ free : Nat → List Nat, (∀ p < maxBlockPow, Chain w.bs.next (w.bs.indices p) (free p)) ∧
    w.bs.freePages = ∑ p ∈ Finset.range maxBlockPow, (free p).length * 2 ^ p

-- The live blocks are what their owners asked for and no page is in another block too.
structure Exclusive (w : World) : Prop where
  block : b ∈ w.live → b.pa ≠ 0 ∧ ∃ i, b.pa = w.bs.buddyAuxIndex2addr i ∧ w.bs.buddyAuxAddr2index b.pa = i ∧
    w.bs.pow i = b.pow ∧ 2 ^ b.pow ∣ i ∧ i + 2 ^ b.pow ≤ w.bs.totalPages
  live  : w.live.Pairwise fun b b' => ∀ x, w.InBlock b x → ¬w.InBlock b' x
  free  : b ∈ w.live → w.InBlock b x → ¬w.InFree p i x

end World

end Zgmos.Buddy
