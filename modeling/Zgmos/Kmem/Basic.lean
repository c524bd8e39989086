import Zgmos.Kernel.List
import Zgmos.Kmem.Slab

namespace Zgmos.Kmem

def kmemCacheSizeList : List Nat :=
  [8, 16, 32, 64, 128, 256, 512, 1024, 2048]

def kmemCacheSlabOrder : Nat :=
  0

def kmemCachePslabOrder : Nat :=
  2

def kmemCacheCslabOrder : Nat :=
  1

def slabStaticPageOrder : Nat :=
  2

def sizeofSlab : Nat :=
  48

def sizeofKmemCache : Nat :=
  72

-- The members of a `kmem_cache_t` that are heads of lists. Its member `list` comes first.

def slabFullOf (kc : Nat) : Nat :=
  kc + 16

def slabPartialOf (kc : Nat) : Nat :=
  kc + 32

def slabFreeOf (kc : Nat) : Nat :=
  kc + 48

-- The memory as the allocators see it. A node of a list consists of two words, of which the first one is `prev`.
-- The descriptors and the caches are given by their addresses, and the tags of the pages by their numbers.
structure Heap where
  links         : Links Nat
  slabs         : Nat → Slab
  objsize       : Nat → Nat
  adat          : Nat → Nat
  -- The blocks of pages that are allocated, as address and order.
  pages         : List (Nat × Nat)
  -- What `pmem_alloc` answers to the next requests. The null pointer is zero.
  answers       : List Nat
  cacheList     : Nat
  metaSlab      : Nat
  kmemCacheSlab : Nat
  pslab         : Nat
  locked        : Bool

abbrev KmemM := StateT Heap (Except Fault)

-- Two blocks have no page in common.
def Apart (b b' : Nat × Nat) : Prop :=
  b.1 + pageSize * 2 ^ b.2 ≤ b'.1 ∨ b'.1 + pageSize * 2 ^ b'.2 ≤ b.1

instance : DecidableRel Apart :=
  fun _ _ => inferInstanceAs <| Decidable (_ ∨ _)

-- A block that can be allocated, behind the variables of the kernel.
def Heap.Fresh (h : Heap) (pg order : Nat) : Prop :=
  pageSize ∣ pg ∧ h.cacheList + 16 ≤ pg ∧ h.metaSlab + sizeofSlab ≤ pg ∧ ∀ b ∈ h.pages, Apart (pg, order) b

instance (h : Heap) (pg order : Nat) : Decidable (h.Fresh pg order) :=
  inferInstanceAs <| Decidable (_ ∧ _ ∧ _ ∧ _)

-- An answer that is no block which can be allocated counts as a failure.
def pmemAlloc (order : Nat) : KmemM Nat := do
  let h ← get
  match h.answers with
  | []            => return 0
  | pg :: answers =>
    if h.Fresh pg order then
      set { h with answers, pages := (pg, order) :: h.pages }
      return pg
    else
      set { h with answers }
      return 0

def pmemFree (pg : Nat) : KmemM Unit := do
  let h ← get
  match h.pages.find? (·.1 = pg) with
  | none   => throw .panic
  | some b => set { h with pages := h.pages.erase b }

-- All pages of the block get the tag.
def pmemSetAdat (pg adat : Nat) : KmemM Unit := do
  let h ← get
  match h.pages.find? (·.1 = pg) with
  | none   => throw .panic
  | some b =>
    set { h with adat := fun i => if pg / pageSize ≤ i ∧ i < pg / pageSize + 2 ^ b.2 then adat else h.adat i }

def pmemGetAdat (i : Nat) : KmemM Nat := do
  return (← get).adat i

-- The operations on the slab with the descriptor `slab`.

def slabAllocAt (slab : Nat) : KmemM Nat := do
  if slab = 0 then throw .outOfBounds
  let h ← get
  let (ret, s) ← slabAlloc (h.slabs slab) h.links.prev
  set { h with slabs := Function.update h.slabs slab s }
  return ret

def slabFreeAt (slab objAddr : Nat) : KmemM Unit := do
  if slab = 0 then throw .outOfBounds
  let h ← get
  let (s, prev) ← slabFree (h.slabs slab) h.links.prev objAddr
  set { h with slabs := Function.update h.slabs slab s, links := { h.links with prev } }

def slabCreateExAt (slab pageAddr sizeObj order : Nat) : KmemM Unit := do
  let h ← get
  let (s, prev) ← slabCreateEx h.links.prev pageAddr sizeObj order
  set { h with slabs := Function.update h.slabs slab s, links := { h.links with prev } }

def slabCreate (pslab sizeObj order adat : Nat) : KmemM Nat := do
  let slab ← slabAllocAt pslab
  if slab = 0 then
    return 0
  let pg ← pmemAlloc order
  if pg = 0 then
    slabFreeAt pslab slab
    return 0
  pmemSetAdat pg adat
  slabCreateExAt slab pg sizeObj order
  return slab

def slabDestory (pslab slab : Nat) : KmemM Unit := do
  let s := (← get).slabs slab
  if slabEmpty s then
    pmemFree s.pg
  else
    throw .panic
  slabFreeAt pslab slab

def slabStaticInit : KmemM Unit := do
  let pg ← pmemAlloc slabStaticPageOrder
  if pg = 0 then throw .outOfBounds
  slabCreateExAt (← get).metaSlab pg sizeofSlab slabStaticPageOrder

def slabCreateStatic (sizeObj order : Nat) : KmemM Nat := do
  slabCreate (← get).metaSlab sizeObj order 0

def modifyLinks (f : Links Nat → Links Nat) : KmemM Unit :=
  modify fun h => { h with links := f h.links }

def kmemCacheCreate (size : Nat) : KmemM Nat := do
  let kc ← slabAllocAt (← get).kmemCacheSlab
  if kc = 0 then throw .outOfBounds
  modifyLinks (listInit · kc)
  modifyLinks (listInit · <| slabFullOf kc)
  modifyLinks (listInit · <| slabPartialOf kc)
  modifyLinks (listInit · <| slabFreeOf kc)
  modify fun h => { h with objsize := Function.update h.objsize kc size }
  return kc

-- The loop over the list of empty slabs, in which `n` is the node behind `pos`. There are as many slabs as blocks.
def shrinkLoop (head : Nat) : Nat → (pos n : Nat) → KmemM Unit
  | 0,     _,   _ => throw .panic
  | k + 1, pos, n => do
    if pos ≠ head then
      modifyLinks (listDel · pos)
      slabDestory (← get).pslab pos
      shrinkLoop head k n ((← get).links.next n)

def kmemCacheShrink (kc : Nat) : KmemM Unit := do
  let h ← get
  let pos := h.links.next <| slabFreeOf kc
  shrinkLoop (slabFreeOf kc) (h.pages.length + 1) pos (h.links.next pos)

def kmemCacheDestory (kc : Nat) : KmemM Unit := do
  kmemCacheShrink kc
  slabFreeAt (← get).kmemCacheSlab kc

def kmemCacheAlloc (kc : Nat) : KmemM Nat := do
  let h ← get
  if !listIsEmpty h.links (slabPartialOf kc) then
    let slab := h.links.next <| slabPartialOf kc
    let ret ← slabAllocAt slab
    if slabFull ((← get).slabs slab) then
      modifyLinks (listDel · slab)
      modifyLinks (listAdd · slab <| slabFullOf kc)
    return ret
  else if !listIsEmpty h.links (slabFreeOf kc) then
    let slab := h.links.next <| slabFreeOf kc
    let ret ← slabAllocAt slab
    modifyLinks (listDel · slab)
    if slabFull ((← get).slabs slab) then
      modifyLinks (listAdd · slab <| slabFullOf kc)
    else
      modifyLinks (listAdd · slab <| slabPartialOf kc)
    return ret
  else
    let slab ← slabCreate h.pslab (h.objsize kc) kmemCacheCslabOrder kc
    if slab = 0 then
      return 0
    else
      let ret ← slabAllocAt slab
      if slabFull ((← get).slabs slab) then
        modifyLinks (listAdd · slab <| slabFullOf kc)
      else
        modifyLinks (listAdd · slab <| slabPartialOf kc)
      return ret

-- The search for the slab of an object on one list.
def findSlab (head obj : Nat) : Nat → (pos : Nat) → KmemM (Option Nat)
  | 0,     _   => throw .panic
  | k + 1, pos => do
    if pos = head then
      return none
    else
      let h ← get
      if slabContain (h.slabs pos) obj then return some pos else findSlab head obj k (h.links.next pos)

def kmemCacheFree (kc obj : Nat) : KmemM Unit := do
  let h ← get
  match ← findSlab (slabPartialOf kc) obj (h.pages.length + 1) (h.links.next <| slabPartialOf kc) with
  | some res =>
    slabFreeAt res obj
    if slabEmpty ((← get).slabs res) then
      modifyLinks (listDel · res)
      modifyLinks (listAdd · res <| slabFreeOf kc)
  | none =>
    match ← findSlab (slabFullOf kc) obj (h.pages.length + 1) (h.links.next <| slabFullOf kc) with
    | some res =>
      slabFreeAt res obj
      modifyLinks (listDel · res)
      modifyLinks (listAdd · res <| slabPartialOf kc)
    | none => throw .panic

def kmemAdd (kc : Nat) : KmemM Unit :=
  modify fun h => { h with links := listAddTail h.links kc h.cacheList }

def kmemInit : KmemM Unit := do
  slabStaticInit
  let kmemCacheSlab ← slabCreateStatic sizeofKmemCache kmemCacheSlabOrder
  modify fun h => { h with kmemCacheSlab, links := listInit h.links h.cacheList }
  let pslab ← slabCreateStatic sizeofSlab kmemCachePslabOrder
  modify fun h => { h with pslab }
  forM kmemCacheSizeList fun size => do
    let kc ← kmemCacheCreate size
    kmemAdd kc

def acquire : KmemM Unit := do
  if (← get).locked then throw .panic
  modify fun h => { h with locked := true }

def release : KmemM Unit :=
  modify fun h => { h with locked := false }

-- The search for the first cache with objects that are large enough.
def findCache (objsize : Nat) : Nat → (pos : Nat) → KmemM (Option Nat)
  | 0,     _   => throw .panic
  | k + 1, pos => do
    let h ← get
    if pos = h.cacheList then
      return none
    else
      if objsize ≤ h.objsize pos then return some pos else findCache objsize k (h.links.next pos)

def kmemAlloc (objsize : Nat) : KmemM Nat := do
  if kmemCacheSizeList.getLast (by decide) < objsize then
    return 0
  acquire
  let h ← get
  if objsize ≤ kmemCacheSizeList.head (by decide) then
    let ret ← kmemCacheAlloc (h.links.next h.cacheList)
    release
    return ret
  match ← findCache objsize (kmemCacheSizeList.length + 1) (h.links.next h.cacheList) with
  | none     => throw .outOfBounds
  | some res =>
    let ret ← kmemCacheAlloc res
    release
    return ret

def kmemFree (addr : Nat) : KmemM Unit := do
  acquire
  let kc ← pmemGetAdat (addr / pageSize)
  kmemCacheFree kc addr
  release

def shrinkCaches : Nat → (pos : Nat) → KmemM Unit
  | 0,     _   => throw .panic
  | k + 1, pos => do
    if pos ≠ (← get).cacheList then
      kmemCacheShrink pos
      shrinkCaches k ((← get).links.next pos)

def kmemShrink : KmemM Unit := do
  acquire
  let h ← get
  shrinkCaches (kmemCacheSizeList.length + 1) (h.links.next h.cacheList)
  release

end Zgmos.Kmem
