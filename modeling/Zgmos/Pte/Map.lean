import Zgmos.Pte.Space

namespace Zgmos.Pte

variable {mem mem' : Mem} {p f pa flags va : Word} {t t₁ t₀ : Word} {size : PageSize} {pmem : Nat → Word}
  {i j : BitVec 9} {α β : Type} {k : α → PteM β} {r : Except Fault β × Mem} {pte : Word}

theorem readPte_run (k : Word → PteM β) : (readPte t i >>= k).run mem = (k (mem t i)).run mem :=
  rfl

theorem writePte_run (k : Unit → PteM β) :
    (writePte t i pte >>= k).run mem = (k ()).run (mem.write t i pte) :=
  rfl

theorem clearTable_run (k : Unit → PteM β) : (clearTable t >>= k).run mem = (k ()).run (mem.clear t) :=
  rfl

theorem writePte_run' : (writePte t i pte).run mem = (.ok (), mem.write t i pte) :=
  rfl

theorem throw_run : (throw .panic : PteM β).run mem = (.error .panic, mem) :=
  rfl

theorem pteNonLeaf_ne : pteNonLeaf ≠ pteInvalid := by
  decide

-- A page that overlaps an existing mapping is not mapped.
theorem pteMap_panic (w : Tree mem p)
    (h : pteExtractXwrv (entry mem p va) ≠ pteInvalid ∨ (slot mem p va).size.bits < size.bits) :
    (pteMap pmem p va pa flags size).run mem = (.error .panic, mem) := by
  have hn := pteNonLeaf_ne
  have hc : pteExtractXwrv (entry mem p va) ≠ pteNonLeaf := child_eq_none.mp w.child_entry
  obtain ⟨hs, h₂, hp⟩ | ⟨t, hs, h₂, h₁, hp⟩ | ⟨t₁, t₀, hs, h₂, h₁, hp⟩ := slot_cases mem p va
  all_goals
    simp only [entry, hs, hp, index] at h hc
    cases size <;>
      simp_all [child_eq_some, child_eq_none, pteMap, readPte_run, throw_run, PageSize.bits]

-- An entry is cleared if there is one.
theorem pteUnmap_panic (h : pteExtractXwrv (entry mem p va) = pteInvalid) :
    (pteUnmap p va).run mem = (.error .panic, mem) := by
  have hn := pteNonLeaf_ne
  obtain ⟨hs, h₂, hp⟩ | ⟨t, hs, h₂, h₁, hp⟩ | ⟨t₁, t₀, hs, h₂, h₁, hp⟩ := slot_cases mem p va
  all_goals
    simp only [entry, hs, hp, index] at h
    simp_all [child_eq_some, child_eq_none, pteUnmap, readPte_run, throw_run]

theorem pteUnmap_ok (w : Tree mem p) (h : pteExtractXwrv (entry mem p va) ≠ pteInvalid) :
    (pteUnmap p va).run mem = (.ok (), mem.setEntry p va 0) := by
  have hn := pteNonLeaf_ne
  have hc : pteExtractXwrv (entry mem p va) ≠ pteNonLeaf := child_eq_none.mp w.child_entry
  obtain ⟨hs, h₂, hp⟩ | ⟨t, hs, h₂, h₁, hp⟩ | ⟨t₁, t₀, hs, h₂, h₁, hp⟩ := slot_cases mem p va
  all_goals
    simp only [entry, Mem.setEntry, hs, hp, index] at h hc ⊢
    simp_all [child_eq_some, child_eq_none, pteUnmap, readPte_run, writePte_run']

theorem write_clear_comm (h : t ≠ f) : (mem.clear f).write t i pte = (mem.write t i pte).clear f := by
  simp only [Mem.write, Mem.clear, Function.update_of_ne h]
  exact Function.update_comm h.symm _ _ mem

theorem write_comm {pte' : Word} (h : t ≠ f) :
    (mem.write t i pte).write f j pte' = (mem.write f j pte').write t i pte := by
  simp only [Mem.write, Function.update_of_ne h, Function.update_of_ne h.symm]
  exact Function.update_comm h _ _ mem

-- A page is allocated for each table that is missing.
theorem pteMapAllocs_eq (hs : (slot mem p va).size = size) : pteMapAllocs mem p va size = 0 := by
  have hn := pteNonLeaf_ne
  obtain ⟨hs', h₂, hp⟩ | ⟨t, hs', h₂, h₁, hp⟩ | ⟨t₁, t₀, hs', h₂, h₁, hp⟩ := slot_cases mem p va
  all_goals
    cases hs.symm.trans hs'
    simp_all [child_eq_some, pteMapAllocs]

section Ok

variable (h : pteExtractXwrv (entry mem p va) = pteInvalid)

include h

-- The entry of the address is on the level of the page size.
theorem pteMap_ok (hs : (slot mem p va).size = size) :
    (pteMap pmem p va pa flags size).run mem = (.ok (), mem.setEntry p va (pteNaddr pa ||| flags)) := by
  have hn := pteNonLeaf_ne
  have ho := BitVec.or_comm flags (pteNaddr pa)
  obtain ⟨hs', h₂, hp⟩ | ⟨t, hs', h₂, h₁, hp⟩ | ⟨t₁, t₀, hs', h₂, h₁, hp⟩ := slot_cases mem p va
  all_goals
    cases hs.symm.trans hs'
    simp only [entry, Mem.setEntry, hs, hp, index] at h ⊢
    simp_all [child_eq_some, child_eq_none, pteMap, readPte_run, writePte_run', hn.symm]

-- One table is missing.
theorem pteMap_grow (hs : (slot mem p va).size ≠ .page4K) (hz : (slot mem p va).size.smaller = size)
    (hf : (slot mem p va).page ≠ pmem 0) :
    (pteMap pmem p va pa flags size).run mem = (.ok (),
      (mem.growEntry p va (pmem 0)).write (pmem 0) (index va size) (pteNaddr pa ||| flags)) := by
  have hn := pteNonLeaf_ne
  obtain ⟨hs', h₂, hp⟩ | ⟨t, hs', h₂, h₁, hp⟩ | ⟨t₁, t₀, hs', h₂, h₁, hp⟩ := slot_cases mem p va
  case inl =>
    rw [hs'] at hz
    cases hz
    simp only [entry, Mem.growEntry, Mem.grow, hs', hp, index, PageSize.smaller] at h ⊢
    simp_all [child_eq_none, pteMap, readPte_run, writePte_run, writePte_run',
      clearTable_run, hn.symm]
  case inr.inl =>
    rw [hs'] at hz
    cases hz
    have ho := BitVec.or_comm pteNonLeaf (pteNaddr (pmem 0))
    simp only [entry, Mem.growEntry, Mem.grow, hs', hp, index, PageSize.smaller] at h hf ⊢
    rw [write_comm hf]
    simp_all [child_eq_some, child_eq_none, pteMap, readPte_run, writePte_run, writePte_run',
      clearTable_run, hn.symm]
  case inr.inr => exact absurd hs' hs

-- Two tables are missing.
theorem pteMap_grow_grow (hs : (slot mem p va).size = .page1G) (h₁ : p ≠ pmem 1) :
    (pteMap pmem p va pa flags .page4K).run mem = (.ok (),
      ((mem.growEntry p va (pmem 0)).grow (pmem 0) (vaVpn1 va) (pmem 1)).write (pmem 1) (vaVpn0 va)
        (pteNaddr pa ||| flags)) := by
  have hn := pteNonLeaf_ne
  obtain ⟨hs', h₂, hp⟩ | ⟨t, hs', h₂, _, hp⟩ | ⟨_, t₀, hs', h₂, _, hp⟩ := slot_cases mem p va
  case inl =>
    simp only [entry, Mem.growEntry, Mem.grow, hs, hp, index] at h ⊢
    rw [← write_clear_comm h₁]
    simp_all [child_eq_none, pteMap, readPte_run, writePte_run, writePte_run',
      clearTable_run, hn.symm]
  all_goals exact absurd (hs.symm.trans hs') (by decide)

theorem pteMapAllocs_smaller (hs : (slot mem p va).size ≠ .page4K) (hz : (slot mem p va).size.smaller = size) :
    pteMapAllocs mem p va size = 1 := by
  have hn := pteNonLeaf_ne
  obtain ⟨hs', h₂, hp⟩ | ⟨t, hs', h₂, h₁, hp⟩ | ⟨t₁, t₀, hs', h₂, h₁, hp⟩ := slot_cases mem p va
  case inr.inr => exact absurd hs' hs
  all_goals
    rw [hs'] at hz
    cases hz
    simp only [entry, hs', hp, index] at h
    simp_all [child_eq_some, pteMapAllocs, PageSize.smaller]

theorem pteMapAllocs_two (hs : (slot mem p va).size = .page1G) : pteMapAllocs mem p va .page4K = 2 := by
  have hn := pteNonLeaf_ne
  obtain ⟨hs', h₂, hp⟩ | ⟨t, hs', h₂, _, hp⟩ | ⟨_, t₀, hs', h₂, _, hp⟩ := slot_cases mem p va
  case inl =>
    simp only [entry, hs, hp, index] at h
    simp [pteMapAllocs, h, hn.symm]
  all_goals exact absurd (hs.symm.trans hs') (by decide)

end Ok

end Zgmos.Pte
