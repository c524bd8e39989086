import Zgmos.Pte.Table

namespace Zgmos.Pte

def PageSize.bits : PageSize → Nat
  | page4K => 12
  | page2M => 21
  | page1G => 30

-- The addresses `va` and `va'` lie in the same page of the given size.
def SamePage (size : PageSize) (va va' : BitVec 39) : Prop :=
  va >>> size.bits = va' >>> size.bits

instance : Decidable (SamePage size va va') :=
  inferInstanceAs <| Decidable (_ = _)

theorem SamePage.refl (size : PageSize) (va : BitVec 39) : SamePage size va va :=
  rfl

theorem SamePage.mono {size size' : PageSize} {va va' : BitVec 39} (h : SamePage size va va')
    (hb : size.bits ≤ size'.bits) : SamePage size' va va' := by
  have he : size'.bits = size.bits + (size'.bits - size.bits) := by omega
  rw [SamePage, he, BitVec.shiftRight_add, BitVec.shiftRight_add, h]

-- The place of the table in which an address is looked up for a page of the given size.
def place (va : Word) : PageSize → Pos
  | .page1G => .root
  | .page2M => .mid (vaVpn2 va)
  | .page4K => .low (vaVpn2 va) (vaVpn1 va)

def index (va : Word) : PageSize → BitVec 9
  | .page1G => vaVpn2 va
  | .page2M => vaVpn1 va
  | .page4K => vaVpn0 va

-- The entry to which `pte_walk` leads.
structure Slot where
  page : Word
  size : PageSize

-- The table of the last level that exists.
def lowest (p : Word) : (mid low : Option Word) → Slot
  | _,      some t => { page := t, size := .page4K }
  | some t, none   => { page := t, size := .page2M }
  | none,   none   => { page := p, size := .page1G }

def slot (mem : Mem) (p va : Word) : Slot :=
  lowest p (table mem p <| place va .page2M) (table mem p <| place va .page4K)

def entry (mem : Mem) (p va : Word) : Word :=
  mem (slot mem p va).page (index va (slot mem p va).size)

variable {mem mem' : Mem} {p t va va' flags pte : Word} {i j k : BitVec 9} {a b : Pos} {f : Word}
  {size : PageSize}

theorem vpn_toNat (va : BitVec 39) : (vaVpn2 (va.setWidth 64)).toNat = va.toNat / 2 ^ 30 ∧
    (vaVpn1 (va.setWidth 64)).toNat = va.toNat / 2 ^ 21 % 2 ^ 9 ∧
    (vaVpn0 (va.setWidth 64)).toNat = va.toNat / 2 ^ 12 % 2 ^ 9 := by
  have := va.isLt
  simp only [vaVpn2, vaVpn1, vaVpn0, BitVec.extractLsb'_toNat, BitVec.toNat_setWidth,
    Nat.shiftRight_eq_div_pow]
  omega

-- Addresses lie in the same page if they are looked up in the same entry.
theorem samePage_iff {va va' : BitVec 39} : SamePage size va va' ↔
    place (va.setWidth 64) size = place (va'.setWidth 64) size ∧
      index (va.setWidth 64) size = index (va'.setWidth 64) size := by
  have ⟨h₂, h₁, h₀⟩ := vpn_toNat va
  have ⟨h₂', h₁', h₀'⟩ := vpn_toNat va'
  have := va.isLt
  have := va'.isLt
  cases size <;> simp only [SamePage, PageSize.bits, place, index, Pos.mid.injEq, Pos.low.injEq,
    true_and, ← BitVec.toNat_inj, BitVec.toNat_ushiftRight, Nat.shiftRight_eq_div_pow, *]
  all_goals omega

theorem slot_cases (mem : Mem) (p va : Word) :
    (slot mem p va).size = .page1G ∧ child (mem p (vaVpn2 va)) = none ∧ (slot mem p va).page = p ∨
    (∃ t, (slot mem p va).size = .page2M ∧ child (mem p (vaVpn2 va)) = some t ∧
      child (mem t (vaVpn1 va)) = none ∧ (slot mem p va).page = t) ∨
    ∃ t₁ t₀, (slot mem p va).size = .page4K ∧ child (mem p (vaVpn2 va)) = some t₁ ∧
      child (mem t₁ (vaVpn1 va)) = some t₀ ∧ (slot mem p va).page = t₀ := by
  cases h₂ : child (mem p (vaVpn2 va))
  case none => simp [slot, lowest, place, table, h₂]
  case some t₁ => cases h₁ : child (mem t₁ (vaVpn1 va)) <;> simp [slot, lowest, place, table, h₂, h₁]

theorem table_slot (mem : Mem) (p va : Word) :
    table mem p (place va (slot mem p va).size) = some (slot mem p va).page := by
  obtain ⟨hs, h₂, hp⟩ | ⟨t, hs, h₂, h₁, hp⟩ | ⟨t₁, t₀, hs, h₂, h₁, hp⟩ := slot_cases mem p va
  all_goals simp [place, table, *]

theorem child_eq_some : child pte = some t ↔
    pteExtractXwrv pte = pteNonLeaf ∧ pteExtractNaddr pte = t := by
  simp [child]

theorem child_eq_none : child pte = none ↔ pteExtractXwrv pte ≠ pteNonLeaf := by
  simp [child]

-- `pte_walk` reads the entry of the address.
theorem pteWalk_eq (mem : Mem) (p va : Word) : pteWalk mem p va = {
      addr     := pteExtractNaddr (entry mem p va)
      flags    := pteExtractFlags (entry mem p va)
      pageSize := (slot mem p va).size
    } := by
  obtain ⟨hs, h₂, hp⟩ | ⟨t, hs, h₂, h₁, hp⟩ | ⟨t₁, t₀, hs, h₂, h₁, hp⟩ := slot_cases mem p va
  all_goals simp_all [child_eq_some, child_eq_none, pteWalk, entry, index]

theorem Tree.child_entry (w : Tree mem p) : child (entry mem p va) = none := by
  obtain ⟨hs, h₂, hp⟩ | ⟨t, hs, h₂, h₁, hp⟩ | ⟨t₁, t₀, hs, h₂, h₁, hp⟩ := slot_cases mem p va
  case inl     => simpa [entry, hs, hp, index] using h₂
  case inr.inl => simpa [entry, hs, hp, index] using h₁
  case inr.inr =>
    have ht := table_slot mem p va
    rw [hs] at ht
    simpa [entry, hs] using w.leaf ht

theorem place_inj {s s' : PageSize} (h : place va s = place va' s') : s = s' := by
  cases s <;> cases s' <;> simp_all [place]

theorem slot_of_samePage {va va' : BitVec 39}
    (h : SamePage (slot mem p (va.setWidth 64)).size va va') :
    slot mem p (va'.setWidth 64) = slot mem p (va.setWidth 64) := by
  have ⟨hp, hi⟩ := samePage_iff.mp h
  obtain ⟨hs, h₂, _⟩ | ⟨t, hs, h₂, h₁, _⟩ | ⟨t₁, t₀, hs, h₂, h₁, _⟩ := slot_cases mem p (va.setWidth 64)
  all_goals
    rw [hs] at hp hi
    simp_all [place, index, slot, lowest, table]

-- Two addresses with the same entry lie in the same page.
theorem Tree.samePage_of_page (w : Tree mem p) {va va' : BitVec 39}
    (h : (slot mem p (va.setWidth 64)).page = (slot mem p (va'.setWidth 64)).page)
    (hi : index (va.setWidth 64) (slot mem p (va.setWidth 64)).size =
      index (va'.setWidth 64) (slot mem p (va'.setWidth 64)).size) :
    SamePage (slot mem p (va.setWidth 64)).size va va' := by
  have ht := table_slot mem p (va'.setWidth 64)
  rw [← h] at ht
  have hp := w.inj (table_slot mem p _) ht
  have hs := place_inj hp
  rw [← hs] at hp hi
  exact samePage_iff.mpr ⟨hp, hi⟩

-- An update of the entry of an address.
def Mem.setEntry (mem : Mem) (p va pte : Word) : Mem :=
  mem.write (slot mem p va).page (index va (slot mem p va).size) pte

theorem Tree.setEntry (w : Tree mem p) (h : child pte = none) : Tree (mem.setEntry p va pte) p :=
  w.write w.child_entry h

theorem Tree.slot_setEntry (w : Tree mem p) (h : child pte = none) :
    slot (mem.setEntry p va pte) p = slot mem p := by
  funext va'
  unfold slot
  rw [Mem.setEntry, table_write w.child_entry h]

theorem Tree.entry_setEntry (w : Tree mem p) (h : child pte = none) (va va' : BitVec 39) :
    entry (mem.setEntry p (va.setWidth 64) pte) p (va'.setWidth 64) =
      if SamePage (slot mem p (va.setWidth 64)).size va va' then pte
      else entry mem p (va'.setWidth 64) := by
  rw [entry, w.slot_setEntry h]
  by_cases hs : SamePage (slot mem p (va.setWidth 64)).size va va'
  case pos =>
    have hi := (samePage_iff.mp hs).2
    rw [if_pos hs, slot_of_samePage hs, Mem.setEntry, ← hi, write_same]
  case neg =>
    rw [if_neg hs, Mem.setEntry, write_ne, entry]
    exact fun hp hi => hs <| w.samePage_of_page hp hi

def PageSize.smaller : PageSize → PageSize
  | page1G          => page2M
  | page2M | page4K => page4K

section Grow

-- The entry of an address is made to point to a new table.
def Mem.growEntry (mem : Mem) (p va f : Word) : Mem :=
  mem.grow (slot mem p va).page (index va (slot mem p va).size) f

variable (w : Tree mem p) (hf : Fresh mem p f) (hs : (slot mem p va).size ≠ .page4K)

include hs in
theorem place_inner : (place va (slot mem p va).size).Inner := by
  cases h : (slot mem p va).size <;> simp_all [place, Pos.Inner]

include hs in
theorem place_next : (place va (slot mem p va).size).next (index va (slot mem p va).size) =
    place va (slot mem p va).size.smaller := by
  cases h : (slot mem p va).size <;> simp_all [place, index, Pos.next, PageSize.smaller]

include w hf hs

theorem Tree.growEntry : Tree (mem.growEntry p va f) p :=
  w.grow hf (place_inner hs) (table_slot mem p va) w.child_entry

theorem Tree.table_growEntry (b : Pos) : table (mem.growEntry p va f) p b =
    if b = place va (slot mem p va).size.smaller then some f else table mem p b := by
  rw [Mem.growEntry, w.table_grow hf (place_inner hs) (table_slot mem p va) w.child_entry,
    place_next hs]

end Grow

theorem Tree.slot_growEntry (w : Tree mem p) (hf : Fresh mem p f) (va va' : BitVec 39)
    (hs : (slot mem p (va.setWidth 64)).size ≠ .page4K) :
    slot (mem.growEntry p (va.setWidth 64) f) p (va'.setWidth 64) =
      if SamePage (slot mem p (va.setWidth 64)).size va va' then
        { page := f, size := (slot mem p (va.setWidth 64)).size.smaller }
      else slot mem p (va'.setWidth 64) := by
  have ht := w.table_growEntry hf hs
  have he (mem : Mem) : slot mem p (va'.setWidth 64) = lowest p
      (table mem p <| place (va'.setWidth 64) .page2M) (table mem p <| place (va'.setWidth 64) .page4K) :=
    rfl
  have hv : SamePage (slot mem p (va.setWidth 64)).size va va' ↔ _ := samePage_iff
  simp only [hv, he, ht]
  obtain ⟨hs', h₂, _⟩ | ⟨t, hs', h₂, h₁, _⟩ | ⟨t₁, t₀, hs', _⟩ := slot_cases mem p (va.setWidth 64)
  case inl =>
    simp only [hs', place, index, PageSize.smaller, reduceCtorEq, if_false, Pos.mid.injEq, true_and]
    by_cases hi : vaVpn2 (va.setWidth 64) = vaVpn2 (va'.setWidth 64)
    case pos => simp [← hi, table, h₂, lowest]
    case neg => simp [hi, Ne.symm hi]
  case inr.inl =>
    simp only [hs', place, index, PageSize.smaller, reduceCtorEq, if_false, Pos.mid.injEq, Pos.low.injEq]
    by_cases hi : vaVpn2 (va.setWidth 64) = vaVpn2 (va'.setWidth 64) ∧
        vaVpn1 (va.setWidth 64) = vaVpn1 (va'.setWidth 64)
    case pos => simp [← hi.1, ← hi.2, table, h₂, lowest]
    case neg => rw [if_neg hi, if_neg fun h => hi ⟨h.1.symm, h.2.symm⟩]
  case inr.inr => exact absurd hs' hs

theorem Tree.entry_growEntry (w : Tree mem p) (hf : Fresh mem p f) (va va' : BitVec 39)
    (hs : (slot mem p (va.setWidth 64)).size ≠ .page4K) :
    entry (mem.growEntry p (va.setWidth 64) f) p (va'.setWidth 64) =
      if SamePage (slot mem p (va.setWidth 64)).size va va' then 0
      else entry mem p (va'.setWidth 64) := by
  have hne (va) : (slot mem p va).page ≠ f := fun h => hf.2 _ (h ▸ table_slot mem p va)
  rw [entry, w.slot_growEntry hf va va' hs]
  by_cases hv : SamePage (slot mem p (va.setWidth 64)).size va va'
  case pos => simp [hv, Mem.growEntry, grow_same (hne _)]
  case neg =>
    rw [if_neg hv, if_neg hv, Mem.growEntry, grow_ne (hne _), entry]
    exact fun hp hi => hv <| w.samePage_of_page hp hi

end Zgmos.Pte
