import Zgmos.Pte.Slot
import Zgmos.Lib.Run

namespace Zgmos.Pte

structure Mapping where
  pa    : Word
  flags : Word
  size  : PageSize
  deriving DecidableEq

-- The abstract view of a page table: the mapping of the page in which an address lies.
abbrev Space := BitVec 39 → Option Mapping

inductive Op
  | map (va : BitVec 39) (pa flags : Word) (size : PageSize)
  | unmap (va : BitVec 39)

namespace Space

def map (A : Space) (va : BitVec 39) (m : Mapping) : Space :=
  fun va' => if SamePage m.size va va' then some m else A va'

def unmap (A : Space) (va : BitVec 39) : Space :=
  match A va with
  | some m => fun va' => if SamePage m.size va va' then none else A va'
  | none   => A

def apply (A : Space) : Op → Space
  | .map va pa flags size => A.map va { pa, flags, size }
  | .unmap va             => A.unmap va

-- The page which an operation names contains the address.
def Names (A : Space) : Op → BitVec 39 → Prop
  | .map va _ _ size, va' => SamePage size va va'
  | .unmap va,        va' => ∃ m, A va = some m ∧ SamePage m.size va va'

theorem apply_of_not_names {A : Space} {op : Op} {va : BitVec 39} (h : ¬A.Names op va) :
    A.apply op va = A va := by
  cases op
  case map   => exact if_neg h
  case unmap va' =>
    simp only [Names, not_exists, not_and] at h
    cases hm : A va' <;> simp_all [apply, unmap]

end Space

-- An operation on the table that does not panic.
inductive Step (p : Word) : Mem → Op → Mem → Prop
  | map {pmem : Nat → Word} (hv : ValidFlags flags) (h₀ : Fresh mem p (pmem 0))
    (h₁ : Fresh mem p (pmem 1)) (hn : pmem 0 ≠ pmem 1)
    (h : (pteMap pmem p (va.setWidth 64) pa flags size).run mem = (.ok (), mem')) :
    Step p mem (.map va pa flags size) mem'
  | unmap (h : (pteUnmap p (va.setWidth 64)).run mem = (.ok (), mem')) :
    Step p mem (.unmap va) mem'

-- The table stands for the mappings.
structure Maps (mem : Mem) (p : Word) (A : Space) : Prop where
  tree     : Tree mem p
  unmapped : A va = none → entry mem p (va.setWidth 64) = 0
  mapped   : A va = some m → ValidFlags m.flags ∧ (slot mem p (va.setWidth 64)).size = m.size ∧
    entry mem p (va.setWidth 64) = pteNaddr m.pa ||| m.flags

variable {mem mem' : Mem} {p f pa flags : Word} {va va' : BitVec 39} {A : Space} {m : Mapping}
  {size : PageSize} {pmem : Nat → Word} {op : Op}

theorem naddr_or_flags_ne_zero (h : ValidFlags flags) : pteNaddr pa ||| flags ≠ 0 := by
  intro hc
  have : pteExtractXwrv (pteNaddr pa ||| flags) = pteExtractXwrv flags := extractXwrv_naddr
  rw [hc] at this
  exact h.xwrv.1 this.symm

namespace Maps

variable (v : Maps mem p A)

include v

theorem entry_eq_zero_iff : entry mem p (va.setWidth 64) = 0 ↔ A va = none := by
  constructor
  case mpr => exact v.unmapped
  case mp =>
    intro h
    by_contra hc
    have ⟨m, hm⟩ := Option.ne_none_iff_exists'.mp hc
    have ⟨hf, _, he⟩ := v.mapped hm
    exact naddr_or_flags_ne_zero hf (he ▸ h)

theorem xwrv_entry : pteExtractXwrv (entry mem p (va.setWidth 64)) = pteInvalid ↔ A va = none := by
  cases h : A va
  case none => simp [v.unmapped h, pteExtractXwrv, pteInvalid]
  case some m =>
    obtain ⟨hf, _, he⟩ := v.mapped h
    simp [he, extractXwrv_naddr, hf.xwrv.1]

theorem walk_none (h : A va = none) : (pteWalk mem p (va.setWidth 64)).addr = 0 ∧
    (pteWalk mem p (va.setWidth 64)).flags = 0 := by
  simp [pteWalk_eq, v.unmapped h, pteExtractNaddr, pteExtractFlags]

theorem walk_some (h : A va = some m) : pteWalk mem p (va.setWidth 64) =
    { addr := align4K m.pa, flags := m.flags, pageSize := m.size } := by
  have ⟨hf, hs, he⟩ := v.mapped h
  rw [pteWalk_eq, hs, he, extractNaddr_naddr hf.1, extractFlags_naddr hf.1]

theorem samePage (hp : SamePage (slot mem p (va.setWidth 64)).size va va') : A va' = none ↔ A va = none := by
  rw [← v.entry_eq_zero_iff, ← v.entry_eq_zero_iff, entry, entry, slot_of_samePage hp,
    (samePage_iff.mp hp).2]

theorem put (pa : Word) (hs : (slot mem p (va.setWidth 64)).size = size) (hf : ValidFlags flags) :
    Maps (mem.setEntry p (va.setWidth 64) (pteNaddr pa ||| flags)) p (A.map va { pa, flags, size }) where
  tree := v.tree.setEntry (child_leaf hf)
  unmapped {va'} h' := by
    rw [v.tree.entry_setEntry (child_leaf hf), hs]
    by_cases hp : SamePage size va va'
    case pos => simp [Space.map, hp] at h'
    case neg => simpa [hp] using v.unmapped <| by simpa [Space.map, hp] using h'
  mapped {va' m} h' := by
    rw [v.tree.entry_setEntry (child_leaf hf), v.tree.slot_setEntry (child_leaf hf), hs]
    by_cases hp : SamePage size va va'
    case pos =>
      simp only [Space.map, hp, if_true, Option.some.injEq] at h'
      subst h'
      exact ⟨hf, by rw [slot_of_samePage (hs ▸ hp), hs], by simp [hp]⟩
    case neg => simpa [hp] using v.mapped <| by simpa [Space.map, hp] using h'

theorem erase (h : A va = some m) : Maps (mem.setEntry p (va.setWidth 64) 0) p (A.unmap va) where
  tree := v.tree.setEntry child_zero
  unmapped {va'} h' := by
    have h₀ : child (0 : Word) = none := child_zero
    rw [v.tree.entry_setEntry h₀, (v.mapped h).2.1]
    by_cases hp : SamePage m.size va va'
    case pos => simp [hp]
    case neg => simpa [hp] using v.unmapped <| by simpa [Space.unmap, h, hp] using h'
  mapped {va' m'} h' := by
    have h₀ : child (0 : Word) = none := child_zero
    rw [v.tree.entry_setEntry h₀, v.tree.slot_setEntry h₀, (v.mapped h).2.1]
    by_cases hp : SamePage m.size va va'
    case pos => simp [Space.unmap, h, hp] at h'
    case neg => simpa [hp] using v.mapped <| by simpa [Space.unmap, h, hp] using h'

theorem grow (h : A va = none) (hf : Fresh mem p f) (hs : (slot mem p (va.setWidth 64)).size ≠ .page4K) :
    Maps (mem.growEntry p (va.setWidth 64) f) p A where
  tree := v.tree.growEntry hf hs
  unmapped {va'} h' := by
    rw [v.tree.entry_growEntry hf va va' hs]
    simp [v.unmapped h']
  mapped {va' m} h' := by
    rw [v.tree.entry_growEntry hf va va' hs, v.tree.slot_growEntry hf va va' hs]
    have hp : ¬SamePage (slot mem p (va.setWidth 64)).size va va' := fun hp => by
      simp [(v.samePage hp).mpr h] at h'
    simpa [hp] using v.mapped h'

end Maps

end Zgmos.Pte
