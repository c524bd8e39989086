import Zgmos.Pte.Map

namespace Zgmos.Pte

variable {mem mem' : Mem} {p f pa flags : Word} {va va' : BitVec 39} {A : Space} {m : Mapping}
  {size : PageSize} {pmem : Nat → Word} {op : Op}

theorem table_clear (mem : Mem) (p : Word) (a : Pos) :
    table (mem.clear p) p a = if a = .root then some p else none := by
  cases a <;> simp [table, child_zero]

theorem fresh_clear (h : Aligned f) (hn : p ≠ f) : Fresh (mem.clear p) p f := by
  refine ⟨h, fun a => ?_⟩
  rw [table_clear]
  split <;> simp [hn]

theorem maps_clear (mem : Mem) (p : Word) : Maps (mem.clear p) p fun _ => none := by
  have ht := table_clear mem p
  exact {
    tree := {
      inj ha hb := by
        simp only [ht] at ha hb
        grind
      leaf h := by simp [ht] at h
    }
    unmapped := by simp [entry, slot, place, ht, lowest]
    mapped := nofun
  }

theorem pteCreate_run : (pteCreate pmem).run mem = (.ok (pmem 0), if pmem 0 ≠ 0 then mem.clear (pmem 0) else mem) := by
  by_cases h₀ : pmem 0 = 0
  case pos => simp only [pteCreate, h₀, ne_eq, not_true, if_false]; rfl
  case neg => simp only [pteCreate, h₀, ne_eq, not_false_iff, if_true]; rfl

theorem pteCreate_maps (hp : p ≠ 0) (h : (pteCreate pmem).run mem = (.ok p, mem')) :
    Maps mem' p fun _ => none := by
  rw [pteCreate_run] at h
  cases h
  rw [if_pos hp]
  exact maps_clear mem _

-- The first `k` pages which `pmem_alloc` returns are not in use.
structure Supplies (mem : Mem) (p : Word) (pmem : Nat → Word) (k : Nat) : Prop where
  fresh    : ∀ n < k, Fresh mem p (pmem n)
  distinct : ∀ n m, n < m → m < k → pmem n ≠ pmem m

theorem Supplies.two (h₀ : Fresh mem p (pmem 0)) (h₁ : Fresh mem p (pmem 1)) (hn : pmem 0 ≠ pmem 1) :
    Supplies mem p pmem 2 where
  fresh n hl := by
    have : n = 0 ∨ n = 1 := by omega
    cases this
    case inl h => exact h ▸ h₀
    case inr h => exact h ▸ h₁
  distinct n m hl hm := by
    have hs : n = 0 ∧ m = 1 := by omega
    rwa [hs.1, hs.2]

theorem Supplies.mono {k k' : Nat} (h : Supplies mem p pmem k) (hk : k' ≤ k) : Supplies mem p pmem k' where
  fresh n hn        := h.fresh n (hn.trans_le hk)
  distinct n m hn hm := h.distinct n m hn (hm.trans_le hk)

theorem pteMapAllocs_le {va : Word} : pteMapAllocs mem p va size ≤ 2 := by
  cases size <;> simp only [pteMapAllocs]
  case page1G => decide
  all_goals split_ifs <;> decide

namespace Maps

variable (v : Maps mem p A)

include v

-- The page size of the entry of an address of a free page is at least that of the page.
theorem pteMap_panic (h : SamePage size va va') (hm : A va' ≠ none) :
    (pteMap pmem p (va.setWidth 64) pa flags size).run mem = (.error .panic, mem) := by
  apply Pte.pteMap_panic v.tree
  rw [ne_eq, v.xwrv_entry]
  by_contra hc
  simp only [not_or, not_not, not_lt] at hc
  exact hm <| (v.samePage <| h.mono hc.2).mpr hc.1

theorem fresh_growEntry (h₀ : Fresh mem p f) {f' : Word} (h₁ : Fresh mem p f') (hn : f ≠ f')
    (hs : (slot mem p (va.setWidth 64)).size ≠ .page4K) :
    Fresh (mem.growEntry p (va.setWidth 64) f) p f' := by
  refine ⟨h₁.1, fun a => ?_⟩
  rw [v.tree.table_growEntry h₀ hs]
  split
  case isTrue  => simpa using hn
  case isFalse => exact h₁.2 a

-- The three ways in which a page is mapped: no table, one table and two tables are missing.
theorem pteMap_cases (hu : Supplies mem p pmem (pteMapAllocs mem p (va.setWidth 64) size)) (hm : A va = none)
    (hb : size.bits ≤ (slot mem p (va.setWidth 64)).size.bits) :
    (slot mem p (va.setWidth 64)).size = size ∧ (pteMap pmem p (va.setWidth 64) pa flags size).run mem =
      (.ok (), mem.setEntry p (va.setWidth 64) (pteNaddr pa ||| flags)) ∨
    (slot mem p (va.setWidth 64)).size ≠ .page4K ∧ (slot mem p (va.setWidth 64)).size.smaller = size ∧
      (pteMap pmem p (va.setWidth 64) pa flags size).run mem = (.ok (),
        (mem.growEntry p (va.setWidth 64) (pmem 0)).setEntry p (va.setWidth 64) (pteNaddr pa ||| flags)) ∨
    (slot mem p (va.setWidth 64)).size = .page1G ∧ size = .page4K ∧
      (pteMap pmem p (va.setWidth 64) pa flags size).run mem = (.ok (),
        ((mem.growEntry p (va.setWidth 64) (pmem 0)).growEntry p (va.setWidth 64) (pmem 1)).setEntry p (va.setWidth 64)
          (pteNaddr pa ||| flags)) := by
  have hx := v.xwrv_entry.mpr hm
  by_cases hs : (slot mem p (va.setWidth 64)).size = size
  case pos => exact .inl ⟨hs, pteMap_ok hx hs⟩
  case neg =>
    have hs' : (slot mem p (va.setWidth 64)).size ≠ .page4K := fun hc => by
      cases size <;> simp_all [PageSize.bits]
    by_cases hz : (slot mem p (va.setWidth 64)).size.smaller = size
    case pos =>
      rw [pteMapAllocs_smaller hx hs' hz] at hu
      have h₀ := hu.fresh 0 (by decide)
      have hg := v.tree.slot_growEntry h₀ va va hs'
      rw [if_pos (.refl _ va)] at hg
      refine .inr <| .inl ⟨hs', hz, ?_⟩
      rw [pteMap_grow hx hs' hz fun hc => h₀.2 _ (hc ▸ table_slot mem p _), Mem.setEntry, hg, hz]
    case neg =>
      have hs₁ : (slot mem p (va.setWidth 64)).size = .page1G := by
        cases hc : (slot mem p (va.setWidth 64)).size <;> cases size <;>
          simp_all [PageSize.bits, PageSize.smaller]
      have hz : size = .page4K := by
        cases size <;> simp_all [PageSize.smaller]
      subst hz
      rw [pteMapAllocs_two hx hs₁] at hu
      have h₀ := hu.fresh 0 (by decide)
      have h₁ := hu.fresh 1 (by decide)
      have hn := hu.distinct 0 1 (by decide) (by decide)
      -- The first new table.
      have v₁ := v.grow hm h₀ hs'
      have hg := v.tree.slot_growEntry h₀ va va hs'
      rw [if_pos (.refl _ va)] at hg
      -- The second new table.
      have hf := v.fresh_growEntry h₀ h₁ hn hs'
      have hs₂ : (slot (mem.growEntry p (va.setWidth 64) (pmem 0)) p (va.setWidth 64)).size ≠ .page4K := by
        simp [hg, hs₁, PageSize.smaller]
      have hg₂ := v₁.tree.slot_growEntry hf va va hs₂
      rw [if_pos (.refl _ va)] at hg₂
      have he : (mem.growEntry p (va.setWidth 64) (pmem 0)).growEntry p (va.setWidth 64) (pmem 1) =
          (mem.growEntry p (va.setWidth 64) (pmem 0)).grow (pmem 0) (vaVpn1 (va.setWidth 64)) (pmem 1) := by
        rw [Mem.growEntry, hg, hs₁]
        rfl
      refine .inr <| .inr ⟨hs₁, rfl, ?_⟩
      rw [pteMap_grow_grow hx hs₁ fun hc => h₁.2 .root (by simp [table, hc]), Mem.setEntry, hg₂, hg, hs₁, he]
      rfl

-- A page that is mapped does not overlap a mapping.
theorem free_of_pteMap (h : (pteMap pmem p (va.setWidth 64) pa flags size).run mem = (.ok (), mem')) :
    A va = none ∧ size.bits ≤ (slot mem p (va.setWidth 64)).size.bits := by
  have hp : ¬(pteExtractXwrv (entry mem p (va.setWidth 64)) ≠ pteInvalid ∨
      (slot mem p (va.setWidth 64)).size.bits < size.bits) := fun hc => by
    rw [Pte.pteMap_panic v.tree hc] at h
    nomatch h
  simp only [not_or, not_not, not_lt] at hp
  exact ⟨v.xwrv_entry.mp hp.1, hp.2⟩

theorem map_of_supplies (hv : ValidFlags flags)
    (hu : Supplies mem p pmem (pteMapAllocs mem p (va.setWidth 64) size))
    (h : (pteMap pmem p (va.setWidth 64) pa flags size).run mem = (.ok (), mem')) :
    Maps mem' p (A.map va { pa, flags, size }) := by
  have ⟨hm, hb⟩ := v.free_of_pteMap h
  have hx := v.xwrv_entry.mpr hm
  obtain ⟨hs, he⟩ | ⟨hs, hz, he⟩ | ⟨hs, hz, he⟩ := v.pteMap_cases hu hm hb
  all_goals
    rw [he] at h
    cases h
  case inl => exact v.put pa hs hv
  case inr.inl =>
    rw [pteMapAllocs_smaller hx hs hz] at hu
    have h₀ := hu.fresh 0 (by decide)
    have hg := v.tree.slot_growEntry h₀ va va hs
    rw [if_pos (.refl _ va)] at hg
    exact (v.grow hm h₀ hs).put pa (by rw [hg, hz]) hv
  case inr.inr =>
    subst hz
    rw [pteMapAllocs_two hx hs] at hu
    have h₀ := hu.fresh 0 (by decide)
    have hs' : (slot mem p (va.setWidth 64)).size ≠ .page4K := by simp [hs]
    have v₁ := v.grow hm h₀ hs'
    have hg := v.tree.slot_growEntry h₀ va va hs'
    rw [if_pos (.refl _ va)] at hg
    have hf := v.fresh_growEntry h₀ (hu.fresh 1 (by decide)) (hu.distinct 0 1 (by decide) (by decide)) hs'
    have hs₂ : (slot (mem.growEntry p (va.setWidth 64) (pmem 0)) p (va.setWidth 64)).size ≠ .page4K := by
      simp [hg, hs, PageSize.smaller]
    have hg₂ := v₁.tree.slot_growEntry hf va va hs₂
    rw [if_pos (.refl _ va)] at hg₂
    exact (v₁.grow hm hf hs₂).put pa (by rw [hg₂, hg, hs]; rfl) hv

theorem map (hv : ValidFlags flags) (h₀ : Fresh mem p (pmem 0)) (h₁ : Fresh mem p (pmem 1))
    (hn : pmem 0 ≠ pmem 1)
    (h : (pteMap pmem p (va.setWidth 64) pa flags size).run mem = (.ok (), mem')) :
    Maps mem' p (A.map va { pa, flags, size }) :=
  v.map_of_supplies hv (Supplies.two h₀ h₁ hn |>.mono pteMapAllocs_le) h

theorem unmap (h : (pteUnmap p (va.setWidth 64)).run mem = (.ok (), mem')) :
    Maps mem' p (A.unmap va) := by
  cases hm : A va
  case none =>
    rw [pteUnmap_panic (v.xwrv_entry.mpr hm)] at h
    nomatch h
  case some m =>
    have hx := v.xwrv_entry.not.mpr (show A va ≠ none by simp [hm])
    rw [pteUnmap_ok v.tree hx] at h
    cases h
    exact v.erase hm

theorem step (e : Step p mem op mem') : Maps mem' p (A.apply op) := by
  cases e
  case map hv hn h₀ h₁ h => exact v.map hv h₀ h₁ hn h
  case unmap h           => exact v.unmap h

omit v in
theorem run {ops : List Op} (v : Maps mem p A) (r : Run (Step p) mem ops mem') :
    Maps mem' p (ops.foldl Space.apply A) := by
  induction r generalizing A
  case nil          => exact v
  case cons e _ hi  => exact hi (v.step e)

theorem walk_flags_ne_zero_iff : (pteWalk mem p (va.setWidth 64)).flags ≠ 0 ↔ A va ≠ none := by
  cases h : A va
  case none   => simp [v.walk_none h]
  case some m =>
    have hf := (v.mapped h).1
    have : m.flags ≠ 0 := fun hc => hf.xwrv.1 <| by simp [hc, pteExtractXwrv, pteInvalid]
    simpa [v.walk_some h] using this

theorem walk_congr {A' : Space} (v' : Maps mem' p A') (h : A' va = A va) :
    (pteWalk mem' p (va.setWidth 64)).addr = (pteWalk mem p (va.setWidth 64)).addr ∧
      (pteWalk mem' p (va.setWidth 64)).flags = (pteWalk mem p (va.setWidth 64)).flags ∧
      (A va ≠ none → pteWalk mem' p (va.setWidth 64) = pteWalk mem p (va.setWidth 64)) := by
  cases hm : A va
  case none =>
    have ⟨ha, hf⟩ := v.walk_none hm
    have ⟨ha', hf'⟩ := v'.walk_none (h.trans hm)
    simp [ha, hf, ha', hf']
  case some m => simp [v.walk_some hm, v'.walk_some (h.trans hm)]

end Maps

-- The table of `pte_create` stands for the mappings of the pages that were mapped and not unmapped.
-- An operation changes address and flags of no address outside of the page which it names, and the
-- page size of no such address that is mapped. A page that overlaps a mapping is not mapped.
theorem pte_maps {mem₀ : Mem} {pmem₀ : Nat → Word} {ops : List Op} (hp : p ≠ 0)
    (hc : (pteCreate pmem₀).run mem₀ = (.ok p, mem)) (r : Run (Step p) mem ops mem') :
    let A : Space := ops.foldl Space.apply fun _ => none
    (∀ va, ((pteWalk mem' p (va.setWidth 64)).flags ≠ 0 ↔ A va ≠ none) ∧
      ∀ m, A va = some m → pteWalk mem' p (va.setWidth 64) =
        { addr := align4K m.pa, flags := m.flags, pageSize := m.size }) ∧
    (∀ op mem'' va, Step p mem' op mem'' → ¬A.Names op va →
      (pteWalk mem'' p (va.setWidth 64)).addr = (pteWalk mem' p (va.setWidth 64)).addr ∧
      (pteWalk mem'' p (va.setWidth 64)).flags = (pteWalk mem' p (va.setWidth 64)).flags ∧
      (A va ≠ none → pteWalk mem'' p (va.setWidth 64) = pteWalk mem' p (va.setWidth 64))) ∧
    ∀ pmem va va' pa flags size, SamePage size va va' → A va' ≠ none →
      (pteMap pmem p (va.setWidth 64) pa flags size).run mem' = (.error .panic, mem') := by
  intro A
  have v : Maps mem' p A := (pteCreate_maps hp hc).run r
  refine ⟨fun va => ⟨v.walk_flags_ne_zero_iff, fun m => v.walk_some⟩, ?_, ?_⟩
  case refine_1 => exact fun op mem'' va e hn => v.walk_congr (v.step e) (Space.apply_of_not_names hn)
  case refine_2 => exact fun pmem va va' pa flags size h hm => v.pteMap_panic h hm

-- The pages that are used in the following examples.
def page (n : Nat) : Word :=
  .ofNat 64 (0x2000 + n * 0x1000)

def empty : Mem :=
  Mem.clear (fun _ _ => 0) 0x1000

theorem page_step (size : PageSize) {mem : Mem}
    (h : (pteMap page 0x1000 0 0x80000000 0xf size).run empty = (.ok (), mem)) :
    Step 0x1000 empty (.map 0 0x80000000 0xf size) mem :=
  .map (by decide) (fresh_clear (by decide) (by decide)) (fresh_clear (by decide) (by decide))
    (by decide) h

theorem page_maps : ∃ mem, Run (Step 0x1000) empty [.map 0 0x80000000 0xf .page1G] mem ∧
    pteWalk mem 0x1000 (BitVec.setWidth 64 (0x1234 : BitVec 39)) =
      { addr := 0x80000000, flags := 0xf, pageSize := .page1G } := by
  have hc : (pteCreate fun _ => 0x1000).run (fun _ _ => 0) = (.ok 0x1000, empty) := rfl
  have r := Run.single (page_step .page1G rfl)
  exact ⟨_, r, ((pte_maps (by decide) hc r).1 0x1234).2 _ rfl⟩

-- The page size of an address without mapping changes if a table for its neighbour is created.
theorem page_size_changes : ∃ mem, Step 0x1000 empty (.map 0 0x80000000 0xf .page4K) mem ∧
    ¬Space.Names (fun _ => none) (.map 0 0x80000000 0xf .page4K) 0x200000 ∧
    (pteWalk empty 0x1000 (BitVec.setWidth 64 (0x200000 : BitVec 39))).pageSize = .page1G ∧
    (pteWalk mem 0x1000 (BitVec.setWidth 64 (0x200000 : BitVec 39))).pageSize = .page2M :=
  ⟨_, page_step .page4K rfl, show ¬SamePage .page4K 0 0x200000 by decide, by decide, by decide +kernel⟩

end Zgmos.Pte
