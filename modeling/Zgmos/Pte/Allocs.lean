import Zgmos.Pte.Runs

-- The pages that are allocated for tables, and the mapping of ranges.

namespace Zgmos.Pte

-- `obtained` are the results of `pmem_alloc(0)` so far.
structure TableState where
  mem      : Mem
  obtained : List Word

abbrev TableM := ExceptT Fault (StateM TableState)

-- A function which allocates pages. `pmem n` is the result of the call number `n` of all.
def counted (pmem : Nat → Word) (allocs : Mem → Nat) (f : (Nat → Word) → PteM α) : TableM α := fun s =>
  let pmem' := fun n => pmem (s.obtained.length + n)
  let (r, mem) := (f pmem').run s.mem
  (r, { mem, obtained := s.obtained ++ (List.range (allocs s.mem)).map pmem' })

section Functions

variable (pmem : Nat → Word)

def createTable : TableM Word :=
  counted pmem (fun _ => 1) pteCreate

def mapPage (p va pa flags : Word) (pageSize : PageSize) : TableM Unit :=
  counted pmem (pteMapAllocs · p va pageSize) fun pmem => pteMap pmem p va pa flags pageSize

def unmapPage (p va : Word) : TableM Unit :=
  counted pmem (fun _ => 0) fun _ => pteUnmap p va

-- The loops of the following two functions, with the offset behind them as result.
def forPages (body : Word → TableM Unit) (length : Word) : (fuel : Nat) → (offset : Word) → TableM Word
  | 0,        _      => throw .panic
  | fuel + 1, offset =>
    if offset + 0x1000 ≤ length then do
      body offset
      forPages body length fuel (offset + 0x1000)
    else
      return offset

def overRange (body : Word → TableM Unit) (fuel : Nat) (length : Word) : TableM Unit := do
  let offset ← forPages body length fuel 0
  if offset < length then
    body offset

def pteRangeMap (fuel : Nat) (p va pa flags length : Word) : TableM Unit :=
  overRange (fun offset => mapPage pmem p (va + offset) (pa + offset) flags .page4K) fuel length

-- The signed length is converted for the comparisons with the offset.
def pteRangeUnmap (fuel : Nat) (p va length : Word) : TableM Unit :=
  overRange (fun offset => unmapPage pmem p (va + offset)) fuel length

end Functions

variable {mem mem' : Mem} {p f t pa flags : Word} {va : BitVec 39} {A : Space} {size : PageSize}
  {pmem pmem' : Nat → Word} {i : BitVec 9} {a b : Pos} {s s' s'' : TableState} {n : Nat}

-- The tables in use.
def tables (mem : Mem) (p : Word) : Set Word :=
  { t | ∃ a, table mem p a = some t }

theorem tables_congr (h : table mem' p = table mem p) : tables mem' p = tables mem p := by
  rw [tables, tables, h]

-- There is no table where one is missing.
theorem table_smaller {va : Word} (hs : (slot mem p va).size ≠ .page4K) :
    table mem p (place va (slot mem p va).size.smaller) = none := by
  obtain ⟨hs', h₂, _⟩ | ⟨t, hs', h₂, h₁, _⟩ | ⟨t₁, t₀, hs', _⟩ := slot_cases mem p va
  case inl     => simp [hs', place, PageSize.smaller, table, h₂]
  case inr.inl => simp [hs', place, PageSize.smaller, table, h₂, h₁]
  case inr.inr => exact absurd hs' hs

theorem Tree.tables_growEntry {va : Word} (w : Tree mem p) (hf : Fresh mem p f)
    (hs : (slot mem p va).size ≠ .page4K) : tables (mem.growEntry p va f) p = insert f (tables mem p) := by
  have ht := w.table_growEntry hf hs
  have hn := table_smaller hs
  ext t
  constructor
  case mp =>
    intro ⟨a, ha⟩
    rw [ht] at ha
    split_ifs at ha
    case pos => exact .inl (Option.some.inj ha).symm
    case neg => exact .inr ⟨a, ha⟩
  case mpr =>
    intro h
    cases h
    case inl h => exact ⟨_, by rw [ht, if_pos rfl, h]⟩
    case inr h =>
      have ⟨a, ha⟩ := h
      refine ⟨a, ?_⟩
      rw [ht, if_neg, ha]
      intro he
      rw [he, hn] at ha
      cases ha

theorem Tree.tables_setEntry {va pte : Word} (w : Tree mem p) (h : child pte = none) :
    tables (mem.setEntry p va pte) p = tables mem p :=
  tables_congr <| table_write w.child_entry h

-- The tables that a function adds are the pages which it obtains.
structure Obtains (pmem : Nat → Word) (p : Word) (k : Nat) (s s' : TableState) : Prop where
  obtained : s'.obtained = s.obtained ++ (List.range k).map fun n => pmem (s.obtained.length + n)
  tables   : tables s'.mem p = tables s.mem p ∪ { t | t ∈ (List.range k).map fun n => pmem (s.obtained.length + n) }

namespace Obtains

variable {k m : Nat} (o : Obtains pmem p k s s')

include o

theorem length_obtained : s'.obtained.length = s.obtained.length + k := by
  simp [o.obtained]

-- The pages that are not obtained yet are still not in use.
theorem supplies (hu : Supplies s.mem p (fun n => pmem (s.obtained.length + n)) (k + m)) :
    Supplies s'.mem p (fun n => pmem (s'.obtained.length + n)) m where
  fresh n hn := by
    rw [o.length_obtained, Nat.add_assoc]
    have hf := hu.fresh (k + n) (by omega)
    refine ⟨hf.1, fun a ha => ?_⟩
    have ht : pmem (s.obtained.length + (k + n)) ∈ Pte.tables s'.mem p := ⟨a, ha⟩
    rw [o.tables] at ht
    cases ht
    case inl ht =>
      have ⟨b, hb⟩ := ht
      exact hf.2 b hb
    case inr ht =>
      have ⟨i, hi, he⟩ := List.mem_map.mp ht
      have := List.mem_range.mp hi
      exact hu.distinct i (k + n) (by omega) (by omega) he
  distinct n n' hl hm := by
    rw [o.length_obtained, Nat.add_assoc, Nat.add_assoc]
    exact hu.distinct (k + n) (k + n') (by omega) (by omega)

end Obtains

-- A page is mapped if its addresses are free. The new tables are the pages that are counted.
theorem Maps.pteMap_tables (v : Maps mem p A) (pa : Word) (hv : ValidFlags flags)
    (hu : Supplies mem p pmem (pteMapAllocs mem p (va.setWidth 64) size)) (hm : A va = none)
    (hb : size.bits ≤ (slot mem p (va.setWidth 64)).size.bits) :
    ∃ mem', (pteMap pmem p (va.setWidth 64) pa flags size).run mem = (.ok (), mem') ∧
      tables mem' p = tables mem p ∪ { t | t ∈ (List.range (pteMapAllocs mem p (va.setWidth 64) size)).map pmem } := by
  have hx := v.xwrv_entry.mpr hm
  have hc (pa : Word) : child (pteNaddr pa ||| flags) = none := child_leaf hv
  obtain ⟨hs, he⟩ | ⟨hs, hz, he⟩ | ⟨hs, hz, he⟩ := v.pteMap_cases hu hm hb
  all_goals refine ⟨_, he, ?_⟩
  case inl =>
    rw [v.tree.tables_setEntry (hc pa), pteMapAllocs_eq hs]
    simp
  case inr.inl =>
    rw [pteMapAllocs_smaller hx hs hz] at hu ⊢
    have h₀ := hu.fresh 0 (by decide)
    rw [(v.tree.growEntry h₀ hs).tables_setEntry (hc pa), v.tree.tables_growEntry h₀ hs]
    ext t
    simp [or_comm]
  case inr.inr =>
    subst hz
    rw [pteMapAllocs_two hx hs] at hu ⊢
    have h₀ := hu.fresh 0 (by decide)
    have hs' : (slot mem p (va.setWidth 64)).size ≠ .page4K := by simp [hs]
    have v₁ := v.grow hm h₀ hs'
    have hf := v.fresh_growEntry h₀ (hu.fresh 1 (by decide)) (hu.distinct 0 1 (by decide) (by decide)) hs'
    have hg := v.tree.slot_growEntry h₀ va va hs'
    rw [if_pos (.refl _ va)] at hg
    have hs₂ : (slot (mem.growEntry p (va.setWidth 64) (pmem 0)) p (va.setWidth 64)).size ≠ .page4K := by
      simp [hg, hs, PageSize.smaller]
    rw [(v₁.tree.growEntry hf hs₂).tables_setEntry (hc pa), v₁.tree.tables_growEntry hf hs₂,
      v.tree.tables_growEntry h₀ hs']
    ext t
    simp only [List.range_succ, List.range_zero, List.nil_append, List.map_append, List.map_cons, List.map_nil,
      List.mem_append, List.mem_singleton, Set.mem_insert_iff, Set.mem_union, Set.mem_ofPred_eq]
    tauto

theorem mapPage_run {va : Word} : (mapPage pmem p va pa flags size).run s =
    let r := (pteMap (fun n => pmem (s.obtained.length + n)) p va pa flags size).run s.mem
    let obtained := s.obtained ++
      (List.range (pteMapAllocs s.mem p va size)).map fun n => pmem (s.obtained.length + n)
    (r.1, { mem := r.2, obtained }) :=
  rfl

theorem unmapPage_run {va : Word} : (unmapPage pmem p va).run s =
    let r := (pteUnmap p va).run s.mem
    (r.1, { s with mem := r.2 }) := by
  have h : s.obtained = s.obtained ++ [] := (List.append_nil _).symm
  conv => rhs; rw [h]
  rfl

theorem vpn_setWidth (va : Word) : vaVpn2 va = vaVpn2 ((va.setWidth 39).setWidth 64) ∧
    vaVpn1 va = vaVpn1 ((va.setWidth 39).setWidth 64) ∧ vaVpn0 va = vaVpn0 ((va.setWidth 39).setWidth 64) := by
  simp only [vaVpn2, vaVpn1, vaVpn0, ← BitVec.toNat_inj, BitVec.extractLsb'_toNat, BitVec.toNat_setWidth,
    Nat.shiftRight_eq_div_pow]
  omega

theorem mapPage_ok (v : Maps s.mem p A) (hv : ValidFlags flags)
    (hu : Supplies s.mem p (fun n => pmem (s.obtained.length + n)) (pteMapAllocs s.mem p (va.setWidth 64) size))
    (hm : A va = none) (hb : size.bits ≤ (slot s.mem p (va.setWidth 64)).size.bits) :
    ∃ s', (mapPage pmem p (va.setWidth 64) pa flags size).run s = (.ok (), s') ∧
      Maps s'.mem p (A.map va { pa, flags, size }) ∧
      Obtains pmem p (pteMapAllocs s.mem p (va.setWidth 64) size) s s' := by
  have ⟨mem', he, ht⟩ := v.pteMap_tables pa hv hu hm hb
  refine ⟨{ mem := mem', obtained := _ }, ?_, v.map_of_supplies hv hu he, rfl, ht⟩
  rw [mapPage_run, he]

theorem unmapPage_ok (v : Maps s.mem p A) (hm : A va ≠ none) :
    ∃ s', (unmapPage pmem p (va.setWidth 64)).run s = (.ok (), s') ∧ Maps s'.mem p (A.unmap va) ∧
      tables s'.mem p = tables s.mem p ∧ s'.obtained = s.obtained := by
  have he := pteUnmap_ok v.tree (v.xwrv_entry.not.mpr hm)
  refine ⟨{ s with mem := s.mem.setEntry p (va.setWidth 64) 0 }, ?_, v.unmap he, v.tree.tables_setEntry child_zero, rfl⟩
  rw [unmapPage_run, he]

-- The functions ignore all but the lowest 39 bits of an address.

theorem pteMap_setWidth (va : Word) :
    pteMap pmem p va pa flags size = pteMap pmem p ((va.setWidth 39).setWidth 64) pa flags size := by
  have ⟨h₂, h₁, h₀⟩ := vpn_setWidth va
  unfold pteMap
  rw [h₂, h₁, h₀]

theorem pteMapAllocs_setWidth (va : Word) :
    pteMapAllocs mem p va size = pteMapAllocs mem p ((va.setWidth 39).setWidth 64) size := by
  have ⟨h₂, h₁, _⟩ := vpn_setWidth va
  unfold pteMapAllocs
  rw [h₂, h₁]

theorem pteWalk_setWidth (va : Word) : pteWalk mem p va = pteWalk mem p ((va.setWidth 39).setWidth 64) := by
  have ⟨h₂, h₁, h₀⟩ := vpn_setWidth va
  unfold pteWalk
  rw [h₂, h₁, h₀]

theorem mapPage_setWidth (va : Word) :
    mapPage pmem p va pa flags size = mapPage pmem p ((va.setWidth 39).setWidth 64) pa flags size := by
  unfold mapPage
  simp only [pteMap_setWidth va, pteMapAllocs_setWidth va]

theorem unmapPage_setWidth (va : Word) :
    unmapPage pmem p va = unmapPage pmem p ((va.setWidth 39).setWidth 64) := by
  have ⟨h₂, h₁, h₀⟩ := vpn_setWidth va
  unfold unmapPage pteUnmap
  rw [h₂, h₁, h₀]

end Zgmos.Pte
