import Zgmos.Kernel.Fault
import Zgmos.Kernel.Utils

namespace Zgmos.Buddy

def maxBlockPow : Nat :=
  12

-- Where the source has the index -1 there is `none`.
structure BuddyBlock where
  next : Option Nat
  adat : Nat
  pow  : Nat
  used : Bool

def sizeofBuddyBlock : Nat :=
  24

structure Region where
  paStart      : Nat
  paEnd        : Nat
  paLength     : Nat
  managedStart : Nat
  managedEnd   : Nat
  mLength      : Nat
  totalPages   : Nat

-- The number of entries of the array `buddies`.
def Region.entries (r : Region) : Nat :=
  r.paLength / pageSize

def Region.buddyAuxAddr2index (r : Region) (pa : Nat) : Nat :=
  (pa + u64 - r.managedStart) % u64 / pageSize

def Region.buddyAuxIndex2addr (r : Region) (index : Nat) : Nat :=
  (r.managedStart + index * pageSize) % u64

-- The spinlock is left out: all of this runs while it is held.
structure BuddySystem extends Region where
  freePages : Nat
  indices   : Nat → Option Nat
  buddies   : Nat → BuddyBlock

abbrev BuddyM := StateT BuddySystem (Except Fault)

namespace BuddySystem

def setIndex (bs : BuddySystem) (pow : Nat) (i : Option Nat) : BuddySystem :=
  { bs with indices := Function.update bs.indices pow i }

def setFreePages (bs : BuddySystem) (freePages : Nat) : BuddySystem :=
  { bs with freePages }

def setBlock (bs : BuddySystem) (i : Nat) (f : BuddyBlock → BuddyBlock) : BuddySystem :=
  { bs with buddies := Function.update bs.buddies i <| f (bs.buddies i) }

def setNext (bs : BuddySystem) (i : Nat) (next : Option Nat) : BuddySystem :=
  bs.setBlock i ({ · with next })

def setPow (bs : BuddySystem) (i pow : Nat) : BuddySystem :=
  bs.setBlock i ({ · with pow })

def next (bs : BuddySystem) (i : Nat) : Option Nat :=
  (bs.buddies i).next

def pow (bs : BuddySystem) (i : Nat) : Nat :=
  (bs.buddies i).pow

def used (bs : BuddySystem) (i : Nat) : Bool :=
  (bs.buddies i).used

end BuddySystem

-- The checked accesses to `bs.indices` and `bs.buddies`.

def getIndex (pow : Nat) : BuddyM (Option Nat) := do
  if pow < maxBlockPow then return (← get).indices pow else throw .outOfBounds

def setIndex (pow : Nat) (i : Option Nat) : BuddyM Unit := do
  if pow < maxBlockPow then modify (·.setIndex pow i) else throw .outOfBounds

def getBlock (i : Nat) : BuddyM BuddyBlock := do
  if i < (← get).entries then return (← get).buddies i else throw .outOfBounds

def setBlock (i : Nat) (f : BuddyBlock → BuddyBlock) : BuddyM Unit := do
  if i < (← get).entries then modify (·.setBlock i f) else throw .outOfBounds

def setNext (i : Nat) (next : Option Nat) : BuddyM Unit :=
  setBlock i ({ · with next })

def setPow (i pow : Nat) : BuddyM Unit :=
  setBlock i ({ · with pow })

-- The index -1 is not the index of a block.
def asIndex : Option Nat → BuddyM Nat
  | some i => pure i
  | none   => throw .outOfBounds

def buddyGetSelfMemreq (paLength : Nat) : Nat :=
  paLength / pageSize * sizeofBuddyBlock

-- The array `buddies` occupies the start of the region and is not initialised.
def buddyAuxDataInit (paStart paEnd : Nat) (buddies : Nat → BuddyBlock) : BuddySystem :=
  let paLength     := (paEnd + u64 - paStart) % u64
  let managedStart := alignTo ((paStart + buddyGetSelfMemreq paLength) % u64) pageSize
  let managedEnd   := paEnd
  let mLength      := (managedEnd + u64 - managedStart) % u64
  let totalPages   := mLength / pageSize
  { paStart, paEnd, paLength, managedStart, managedEnd, mLength, totalPages, buddies
    freePages := totalPages
    indices   := fun _ => none }

-- Both `buddy_set_used_index` and `buddy_clear_used`.
def buddyPutUsed (index : Nat) (used : Bool) : BuddyM Unit := do
  let pow := (← getBlock index).pow
  forM (List.range <| 2 ^ pow) fun i => setBlock (index + i) ({ · with used })

def buddyGetUsed (index : Nat) : BuddyM Bool := do
  let pow := (← getBlock index).pow
  let used := (← getBlock index).used
  forM (List.range <| 2 ^ pow) fun i => do
    if used != (← getBlock <| index + i).used then throw .panic
  return used

-- The loop of `buddy_init` over the orders from the largest one downwards.
def carve : Nat → Nat → BuddyM Unit
  | 0,     _          => pure ()
  | i + 1, curPagePos => do
    if (← get).totalPages.testBit i then
      setPow curPagePos i
      setNext curPagePos none
      setIndex i curPagePos
      carve i (curPagePos + 2 ^ i)
    else
      carve i curPagePos

def buddyInit : BuddyM Unit := do
  carve maxBlockPow 0
  forM (List.range (← get).totalPages) fun i => setBlock i ({ · with used := false })

-- The search of `buddy_alloc_index` for a list which is not empty. There are `n` orders left.
def seekOrder (i : Nat) : Nat → BuddyM Nat
  | 0     => return i
  | n + 1 => do
    if (← getIndex i).isSome then return i else seekOrder (i + 1) n

-- Splits the first block of order `j + 1`.
def splitBlock (j : Nat) : BuddyM Unit := do
  let p₁ ← asIndex (← getIndex <| j + 1)
  let p₂ := p₁ + 2 ^ j
  setIndex (j + 1) (← getBlock p₁).next
  setPow p₁ j
  setPow p₂ j
  setNext p₁ (some p₂)
  setNext p₂ none
  setIndex j (some p₁)

def splitTo (pow : Nat) : Nat → BuddyM Unit
  | 0     => pure ()
  | j + 1 => do
    if pow < j + 1 then
      splitBlock j
      splitTo pow j

-- If there is no list left, the source sets `ret` to -1 and goes on. That value is never used.
def buddyAllocIndex (pow : Nat) : BuddyM (Option Nat) := do
  match ← getIndex pow with
  | some ret =>
    setIndex pow none
    buddyPutUsed ret true
    return some ret
  | none =>
    let i ← seekOrder (pow + 1) (maxBlockPow - (pow + 1))
    splitTo pow i
    let ret ← asIndex (← getIndex pow)
    setIndex pow (← getBlock ret).next
    buddyPutUsed ret true
    return some ret

-- The null pointer is zero.
def buddyAlloc (pow : Nat) : BuddyM Nat := do
  match ← buddyAllocIndex pow with
  | none       => return 0
  | some index =>
    modify fun bs => bs.setFreePages <| (bs.freePages + u64 - 2 ^ pow) % u64
    return (← get).buddyAuxIndex2addr index

def buddyAuxMergeable (index₁ index₂ pow : Nat) : Bool :=
  (index₁ >>> pow) ^^^ (index₂ >>> pow) == 1

-- The search of `buddy_free_index` for the last block of a list before `freeBlock`.
def seekBlock (freeBlock : Nat) : Nat → Option Nat → Nat → BuddyM (Option Nat × Nat)
  | 0,     _,       _    => throw .panic
  | n + 1, iterPre, iter => do
    match (← getBlock iter).next with
    | none      => return (iterPre, iter)
    | some next =>
      if next < freeBlock then seekBlock freeBlock n (some iter) next else return (iterPre, iter)

def removeBlock (pow : Nat) (iterPre : Option Nat) (iter : Nat) : BuddyM Unit := do
  let next := (← getBlock iter).next
  match iterPre with
  | none     => setIndex pow next
  | some pre => setNext pre next

def insertAfter (iter freeBlock : Nat) : BuddyM Unit := do
  setNext freeBlock (← getBlock iter).next
  setNext iter (some freeBlock)

-- The endless loop of `buddy_free_index`, which ends at the latest when there is no list for the
-- order of `freeBlock`.
def coalesce : Nat → Nat → BuddyM Unit
  | 0,     _         => throw .panic
  | n + 1, freeBlock => do
    let pow := (← getBlock freeBlock).pow
    match ← getIndex pow with
    | none =>
      setIndex pow (some freeBlock)
      setNext freeBlock none
    | some list =>
      if freeBlock < list then
        if buddyAuxMergeable freeBlock list pow then
          setIndex pow (← getBlock list).next
          setPow freeBlock (pow + 1)
          coalesce n freeBlock
        else
          setIndex pow (some freeBlock)
          setNext freeBlock (some list)
      else
        let (iterPre, iter) ← seekBlock freeBlock (← get).entries none list
        if buddyAuxMergeable iter freeBlock pow then
          removeBlock pow iterPre iter
          setPow iter (pow + 1)
          coalesce n iter
        else
          match (← getBlock iter).next with
          | none      => insertAfter iter freeBlock
          | some next =>
            if buddyAuxMergeable freeBlock next pow then
              setNext iter (← getBlock next).next
              setPow freeBlock (pow + 1)
              coalesce n freeBlock
            else
              insertAfter iter freeBlock

def buddyFreeIndex (index : Nat) : BuddyM Nat := do
  let ret := (← getBlock index).pow
  buddyPutUsed index false
  coalesce (maxBlockPow + 1) index
  return ret

def buddyFree (pa : Nat) : BuddyM Unit := do
  let index := (← get).buddyAuxAddr2index pa
  if !(← buddyGetUsed index) then throw .panic
  let p ← buddyFreeIndex index
  modify fun bs => bs.setFreePages <| (bs.freePages + 2 ^ p) % u64

end Zgmos.Buddy
