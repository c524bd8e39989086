import Zgmos.Kernel.Fault
import Zgmos.Kernel.Utils
import Zgmos.Lib.Segment

namespace Zgmos.Kmem

-- The words of the memory, read as pointers. The null pointer is zero.
abbrev Words := Nat → Nat

-- The member `list` is a node of the lists of a cache.
structure Slab where
  pg       : Nat
  objs     : Nat
  sizeObj  : Nat
  freeObj  : Nat
  totalObj : Nat
  order    : Nat

namespace Slab

variable (slab : Slab) (w : Words)

def bytes : Nat :=
  pageSize * 2 ^ slab.order

-- A word inside of the pages of the slab.
def Inside (ptr : Nat) : Prop :=
  slab.pg ≤ ptr ∧ ptr + 8 ≤ slab.pg + slab.bytes

instance : DecidablePred slab.Inside :=
  fun _ => inferInstanceAs <| Decidable (_ ∧ _)

-- The accesses to the links, which have to stay inside of the pages of the slab.

def getNext (ptr : Nat) : Except Fault Nat :=
  if slab.Inside ptr then return w ptr else throw .outOfBounds

def setNext (ptr next : Nat) : Except Fault Words :=
  if slab.Inside ptr then return Function.update w ptr next else throw .outOfBounds

end Slab

-- The loop of `slab_create_ex`.
def linkObjs (slab : Slab) : Nat → Nat → Words → Except Fault Words
  | 0,     _,   _ => throw .panic
  | n + 1, ptr, w => do
    if ptr + slab.sizeObj < slab.pg + slab.bytes then
      let w ← slab.setNext w ptr (ptr + slab.sizeObj)
      linkObjs slab n (ptr + slab.sizeObj) w
    else
      slab.setNext w ptr 0

def slabCreateEx (w : Words) (pageAddr sizeObj order : Nat) : Except Fault (Slab × Words) := do
  let totalObj := 2 ^ order * pageSize / sizeObj
  let slab : Slab := { pg := pageAddr, objs := pageAddr, sizeObj, freeObj := totalObj, totalObj, order }
  let w ← linkObjs slab slab.bytes pageAddr w
  return (slab, w)

def slabContain (slab : Slab) (objAddr : Nat) : Bool :=
  slab.pg ≤ objAddr && objAddr < slab.pg + slab.bytes

def slabAlloc (slab : Slab) (w : Words) : Except Fault (Nat × Slab) := do
  if slab.freeObj ≠ 0 then
    let ret := slab.objs
    let objs ← slab.getNext w ret
    return (ret, { slab with objs, freeObj := slab.freeObj - 1 })
  else
    return (0, slab)

-- The search of `slab_free` for the neighbours of an object.
def seekObj (slab : Slab) (w : Words) (objAddr : Nat) : Nat → (pLast ptr : Nat) → Except Fault (Nat × Nat)
  | 0,     _,     _   => throw .panic
  | n + 1, pLast, ptr => do
    if ptr ≠ 0 ∧ ptr < objAddr then
      seekObj slab w objAddr n ptr (← slab.getNext w ptr)
    else
      return (pLast, ptr)

def slabFree (slab : Slab) (w : Words) (objAddr : Nat) : Except Fault (Slab × Words) := do
  if slab.objs = 0 then
    let w ← slab.setNext w objAddr 0
    return ({ slab with objs := objAddr, freeObj := slab.freeObj + 1 }, w)
  else if objAddr < slab.objs then
    let w ← slab.setNext w objAddr slab.objs
    return ({ slab with objs := objAddr, freeObj := slab.freeObj + 1 }, w)
  else
    let (pLast, ptr) ← seekObj slab w objAddr slab.bytes 0 slab.objs
    let w ← slab.setNext w objAddr ptr
    let w ← slab.setNext w pLast objAddr
    return ({ slab with freeObj := slab.freeObj + 1 }, w)

def slabEmpty (slab : Slab) : Bool :=
  slab.totalObj = slab.freeObj

def slabFull (slab : Slab) : Bool :=
  slab.freeObj = 0

-- The pointer behind a word.
def ptr (a : Nat) : Option Nat :=
  if a = 0 then none else some a

theorem ptr_zero : ptr 0 = none :=
  rfl

theorem ptr_of_ne {a : Nat} (h : a ≠ 0) : ptr a = some a :=
  if_neg h

theorem ptr_eq_none {a : Nat} : ptr a = none ↔ a = 0 := by
  simp [ptr]

theorem ptr_eq_some {a b : Nat} : ptr a = some b ↔ a = b ∧ b ≠ 0 := by
  by_cases h : a = 0 <;> simp [ptr, h]
  case pos => exact fun h => h.symm
  case neg => exact fun he => he ▸ h

-- The link in a word.
def link (w : Words) (a : Nat) : Option Nat :=
  ptr (w a)

namespace Slab

variable {slab : Slab} {w w' : Words} {live : List Nat} {a b k n : Nat}

-- The objects, and the places of the list, of which the last one may be too short for an object.

def Obj (slab : Slab) (a : Nat) : Prop :=
  ∃ k < slab.totalObj, a = slab.pg + k * slab.sizeObj

def Place (slab : Slab) (a : Nat) : Prop :=
  ∃ k, k * slab.sizeObj < slab.bytes ∧ a = slab.pg + k * slab.sizeObj

structure Shape (slab : Slab) : Prop where
  pg    : 0 < slab.pg
  size  : 0 < slab.sizeObj
  dvd   : 8 ∣ slab.sizeObj
  total : slab.totalObj = slab.bytes / slab.sizeObj

-- The list has the places which are not live in ascending order, and the counter has the free objects.
structure Sound (slab : Slab) (w : Words) (live : List Nat) : Prop extends slab.Shape where
  list  : ∃ fl, Chain (link w) (ptr slab.objs) fl ∧ fl.Pairwise (· < ·) ∧
    ∀ a, a ∈ fl ↔ slab.Place a ∧ a ∉ live
  obj   : ∀ a ∈ live, slab.Obj a
  nodup : live.Nodup
  count : slab.freeObj + live.length = slab.totalObj

namespace Shape

theorem place_pos (h : slab.Shape) (ha : slab.Place a) : 0 < a := by
  have ⟨k, _, he⟩ := ha
  have := h.pg
  omega

theorem place_inside (h : slab.Shape) (ha : slab.Place a) : slab.Inside a := by
  have ⟨k, hk, he⟩ := ha
  have ⟨c, hc⟩ := h.dvd
  have hb : slab.bytes = 8 * (512 * 2 ^ slab.order) := by simp [bytes, pageSize]; omega
  have hm : k * slab.sizeObj = 8 * (k * c) := by rw [hc]; ring
  rw [hm] at hk he
  rw [hb] at hk
  rw [Inside, hb]
  omega

-- An object lies in the pages as a whole.
theorem obj_le (h : slab.Shape) (ha : slab.Obj a) : slab.pg ≤ a ∧ a + slab.sizeObj ≤ slab.pg + slab.bytes := by
  have ⟨k, hk, he⟩ := ha
  have hm : (k + 1) * slab.sizeObj ≤ slab.totalObj * slab.sizeObj := Nat.mul_le_mul_right _ hk
  have hd : slab.totalObj * slab.sizeObj ≤ slab.bytes := by
    rw [h.total]
    exact Nat.div_mul_le_self ..
  rw [Nat.succ_mul] at hm
  omega

theorem place_of_obj (h : slab.Shape) (ha : slab.Obj a) : slab.Place a := by
  have := h.obj_le ha
  have := h.size
  have ⟨k, hk, he⟩ := ha
  exact ⟨k, by omega, he⟩

-- A place before an object is an object.
theorem obj_of_le (h : slab.Shape) (ha : slab.Place a) (hb : slab.Obj b) (hl : a ≤ b) : slab.Obj a := by
  have ⟨k, _, hk⟩ := ha
  have ⟨m, hm, he⟩ := hb
  have : k ≤ m := Nat.le_of_mul_le_mul_right (c := slab.sizeObj) (by omega) h.size
  exact ⟨k, by omega, hk⟩

-- Different objects do not overlap.
theorem obj_apart (ha : slab.Place a) (hb : slab.Place b) (hl : a < b) : a + slab.sizeObj ≤ b := by
  have ⟨k, _, hk⟩ := ha
  have ⟨m, _, hm⟩ := hb
  have : k < m := Nat.lt_of_mul_lt_mul_right (a := slab.sizeObj) (by omega)
  have := Nat.mul_le_mul_right slab.sizeObj this
  rw [Nat.succ_mul] at this
  omega

theorem place_succ (ha : slab.Place a) (hl : a + slab.sizeObj < slab.pg + slab.bytes) :
    slab.Place (a + slab.sizeObj) := by
  have ⟨k, _, he⟩ := ha
  have hm : (k + 1) * slab.sizeObj = k * slab.sizeObj + slab.sizeObj := Nat.succ_mul ..
  exact ⟨k + 1, by omega, by omega⟩

-- If there are fewer live objects than objects, one is free.
theorem exists_obj (h : slab.Shape) (hl : live.length < slab.totalObj) : ∃ a, slab.Obj a ∧ a ∉ live := by
  by_contra hn
  push Not at hn
  have hd : ((List.range slab.totalObj).map fun k => slab.pg + k * slab.sizeObj).Nodup := by
    refine List.nodup_range.map fun k m he => ?_
    exact Nat.eq_of_mul_eq_mul_right h.size <| Nat.add_left_cancel he
  have hs := hd.subperm fun a ha => by
    have ⟨k, hk, he⟩ := List.mem_map.mp ha
    exact hn a ⟨k, List.mem_range.mp hk, he.symm⟩
  have := hs.length_le
  simp at this
  omega

end Shape

end Slab

end Zgmos.Kmem
