import Zgmos.Pte.Allocs
import Zgmos.Lib.Effects

-- The tables that are freed by `pte_destory`.

namespace Zgmos.Pte

-- A function which frees pages. The state are the arguments of `pmem_free` so far.
abbrev FreeM := ExceptT Fault (StateM (List Word))

-- The contents of a page are unknown after it has been freed.
def readLive (mem : Mem) (table : Word) (i : BitVec 9) : FreeM Word := do
  if table ∈ (← get) then
    throw .wildPointer
  else
    return mem table i

def pmemFree (pa : Word) : FreeM Unit :=
  modify (· ++ [pa])

def indices : List (BitVec 9) :=
  (List.range 512).map (BitVec.ofNat 9)

-- The bodies of the inner and of the outer loop.

def destoryEntry (mem : Mem) (p₁ : Word) (j : BitVec 9) : FreeM Unit := do
  let pte₁ ← readLive mem p₁ j
  if pteExtractXwrv pte₁ = pteNonLeaf then
    pmemFree <| pteExtractNaddr pte₁

def destoryTable (mem : Mem) (p : Word) (i : BitVec 9) : FreeM Unit := do
  let pte₂ ← readLive mem p i
  if pteExtractXwrv pte₂ = pteNonLeaf then
    let p₁ := pteExtractNaddr pte₂
    indices.forM <| destoryEntry mem p₁
    pmemFree p₁

def pteDestory (mem : Mem) (p : Word) : FreeM Unit := do
  indices.forM <| destoryTable mem p
  pmemFree p

-- The calls of the functions that do not panic.
inductive TableOp
  | map        (va pa flags : Word) (size : PageSize)
  | unmap      (va : Word)
  | rangeMap   (va pa flags length : Word)
  | rangeUnmap (va length : Word)

namespace TableOp

def run (pmem : Nat → Word) (fuel : Nat) (p : Word) : TableOp → TableM Unit
  | map va pa flags size           => mapPage pmem p va pa flags size
  | unmap va                       => unmapPage pmem p va
  | rangeMap va pa flags length    => pteRangeMap pmem fuel p va pa flags length
  | rangeUnmap va length           => pteRangeUnmap pmem fuel p va length

-- The flags are those of a leaf.
def Valid : TableOp → Prop
  | map _ _ flags _ | rangeMap _ _ flags _ => ValidFlags flags
  | unmap _ | rangeUnmap _ _               => True

inductive Step (pmem : Nat → Word) (p : Word) : TableState → TableOp → TableState → Prop
  | ok {fuel} : op.Valid → (op.run pmem fuel p).run s = (.ok (), s') → Step pmem p s op s'

end TableOp

section Free

variable {mem : Mem} {p t : Word} {i : BitVec 9} {is : List (BitVec 9)} {freed : List Word}

-- The tables below an entry of the first level, in the order in which they are freed.
def tablesBelow (mem : Mem) (p : Word) (i : BitVec 9) : List Word :=
  match child (mem p i) with
  | none   => []
  | some t => indices.filterMap (fun j => child (mem t j)) ++ [t]

theorem readLive_run (h : t ∉ freed) : (readLive mem t i).run freed = (.ok (mem t i), freed) := by
  have hg : (get : FreeM (List Word)).run freed = (.ok freed, freed) := rfl
  rw [readLive, ExceptT.run_bind_ok hg, if_neg h]
  rfl

theorem pmemFree_run : (pmemFree t).run freed = (.ok (), freed ++ [t]) :=
  rfl

theorem destoryEntry_run (h : t ∉ freed) :
    (destoryEntry mem t i).run freed = (.ok (), freed ++ (child (mem t i)).toList) := by
  rw [destoryEntry, ExceptT.run_bind_ok <| readLive_run h]
  by_cases hc : pteExtractXwrv (mem t i) = pteNonLeaf
  case pos => simp [hc, child, pmemFree_run]
  case neg =>
    simp [hc, child]
    rfl

theorem forM_destoryEntry_run (h : t ∉ freed ++ is.filterMap fun j => child (mem t j)) :
    (is.forM <| destoryEntry mem t).run freed = (.ok (), freed ++ is.filterMap fun j => child (mem t j)) := by
  induction is generalizing freed
  case nil =>
    rw [List.filterMap_nil, List.append_nil]
    rfl
  case cons i is hi =>
    have he : freed ++ (i :: is).filterMap (fun j => child (mem t j)) =
        freed ++ (child (mem t i)).toList ++ is.filterMap fun j => child (mem t j) := by
      cases hc : child (mem t i) <;> simp [hc]
    rw [he] at h ⊢
    have ht : t ∉ freed := fun hm => h <| by simp [hm]
    rw [ExceptT.run_forM_cons <| destoryEntry_run ht, hi h]

theorem destoryTable_run (hp : p ∉ freed)
    (hb : ∀ t, child (mem p i) = some t → t ∉ freed ++ (tablesBelow mem p i).dropLast) :
    (destoryTable mem p i).run freed = (.ok (), freed ++ tablesBelow mem p i) := by
  rw [destoryTable, ExceptT.run_bind_ok <| readLive_run hp]
  cases hc : child (mem p i)
  case none =>
    rw [if_neg (child_eq_none.mp hc), tablesBelow, hc, List.append_nil]
    rfl
  case some t =>
    have ⟨hx, hn⟩ := child_eq_some.mp hc
    have ht := hb t hc
    simp only [tablesBelow, hc, List.dropLast_concat] at ht
    simp only [if_pos hx, hn, tablesBelow, hc]
    rw [ExceptT.run_bind_ok <| forM_destoryEntry_run ht, pmemFree_run, List.append_assoc]

-- No table is read after it has been freed, if the tables differ.
theorem forM_destoryTable_run (hd : (freed ++ is.flatMap (tablesBelow mem p) ++ [p]).Nodup) :
    (is.forM <| destoryTable mem p).run freed = (.ok (), freed ++ is.flatMap (tablesBelow mem p)) := by
  induction is generalizing freed
  case nil =>
    rw [List.flatMap_nil, List.append_nil]
    rfl
  case cons i is hi =>
    rw [List.flatMap_cons, ← List.append_assoc] at hd ⊢
    have hp : p ∉ freed := fun hm => by
      have := (List.nodup_append.mp hd).2.2 p (by simp [hm]) p (by simp)
      exact this rfl
    have hb (t : Word) (hc : child (mem p i) = some t) : t ∉ freed ++ (tablesBelow mem p i).dropLast := by
      have hl := hd.of_append_left.of_append_left
      simp only [tablesBelow, hc, List.dropLast_concat] at hl ⊢
      rw [← List.append_assoc] at hl
      exact fun hm => (List.nodup_append.mp hl).2.2 t hm t (List.mem_singleton_self t) rfl
    rw [ExceptT.run_forM_cons <| destoryTable_run hp hb, hi hd]

-- The tables in the order in which they are freed.
def freeOrder (mem : Mem) (p : Word) : List Word :=
  indices.flatMap (tablesBelow mem p) ++ [p]

theorem pteDestory_run (hd : (freeOrder mem p).Nodup) : (pteDestory mem p).run [] = (.ok (), freeOrder mem p) := by
  have hn : freeOrder mem p = [] ++ indices.flatMap (tablesBelow mem p) ++ [p] := by
    rw [List.nil_append, freeOrder]
  rw [hn] at hd ⊢
  rw [pteDestory, ExceptT.run_bind_ok <| forM_destoryTable_run hd, pmemFree_run]

-- The places of the tables in the same order.
def positions : List Pos :=
  indices.flatMap (fun i => indices.map (.low i) ++ [.mid i]) ++ [.root]

theorem mem_indices (i : BitVec 9) : i ∈ indices := by
  rw [indices, List.mem_map]
  exact ⟨i.toNat, by rw [List.mem_range]; omega, by simp⟩

theorem nodup_indices : indices.Nodup := by
  have h : ∀ n ≤ 512, ((List.range n).map (BitVec.ofNat 9)).Nodup := by
    intro n hn
    apply List.Nodup.map_on _ List.nodup_range
    intro i hi j hj h
    have hi := List.mem_range.mp hi
    have hj := List.mem_range.mp hj
    rw [← BitVec.toNat_inj, BitVec.toNat_ofNat, BitVec.toNat_ofNat] at h
    omega
  rw [indices]
  exact h 512 le_rfl

theorem mem_positions (a : Pos) : a ∈ positions := by
  cases a
  case root    => simp [positions]
  case mid i   => simp [positions, mem_indices]
  case low i j => simp [positions, mem_indices]

-- The index in the first level.
def Pos.first : Pos → Option (BitVec 9)
  | root             => none
  | mid i | low i _  => some i

theorem nodup_positions : positions.Nodup := by
  have hi (i : BitVec 9) (a : Pos) (ha : a ∈ indices.map (Pos.low i) ++ [Pos.mid i]) : a.first = some i := by
    cases List.mem_append.mp ha
    case inl ha =>
      have ⟨j, _, hj⟩ := List.mem_map.mp ha
      rw [← hj, Pos.first]
    case inr ha => rw [List.mem_singleton.mp ha, Pos.first]
  have hl (i : BitVec 9) : (indices.map (Pos.low i) ++ [Pos.mid i]).Nodup := by
    refine List.nodup_append.mpr ⟨nodup_indices.map fun j j' h => (Pos.low.inj h).2, List.nodup_singleton _, ?_⟩
    intro a ha b hb
    have ⟨j, _, hj⟩ := List.mem_map.mp ha
    rw [← hj, List.mem_singleton.mp hb]
    exact nofun
  refine List.nodup_append.mpr ⟨List.nodup_flatMap.mpr ⟨fun i _ => hl i, ?_⟩, List.nodup_singleton _, ?_⟩
  case refine_1 =>
    apply nodup_indices.imp
    intro i j hne a ha hb
    exact hne <| Option.some.inj <| (hi i a ha).symm.trans (hi j a hb)
  case refine_2 =>
    intro a ha b hb he
    have ⟨i, _, ha⟩ := List.mem_flatMap.mp ha
    have := hi i a ha
    rw [he, List.mem_singleton.mp hb] at this
    cases this

theorem freeOrder_eq : freeOrder mem p = positions.filterMap (table mem p) := by
  have hb (i : BitVec 9) : tablesBelow mem p i =
      (indices.map (Pos.low i) ++ [Pos.mid i]).filterMap (table mem p) := by
    cases hc : child (mem p i) <;>
      simp [tablesBelow, hc, List.filterMap_append, List.filterMap_map, Function.comp_def, table]
  have hr : [p] = [Pos.root].filterMap (table mem p) := rfl
  rw [freeOrder, positions, List.filterMap_append, List.filterMap_flatMap, ← hr, funext hb]

theorem mem_freeOrder : t ∈ freeOrder mem p ↔ t ∈ tables mem p := by
  rw [freeOrder_eq, List.mem_filterMap]
  constructor
  case mp  => exact fun ⟨a, _, ha⟩ => ⟨a, ha⟩
  case mpr => exact fun ⟨a, ha⟩ => ⟨a, mem_positions a, ha⟩

theorem Tree.nodup_freeOrder (w : Tree mem p) : (freeOrder mem p).Nodup := by
  rw [freeOrder_eq]
  exact nodup_positions.filterMap fun a b t ha hb => w.inj ha hb

end Free

-- The tables are the pages that were obtained.
def Owned (p : Word) (s : TableState) : Prop :=
  ∃ A, Maps s.mem p A ∧ tables s.mem p = { t | t ∈ s.obtained }

-- The pages are aligned, and none of them was obtained twice.
structure Distinct (ts : List Word) : Prop where
  nodup   : ts.Nodup
  aligned : ∀ t ∈ ts, Aligned t

structure Keeps (p : Word) (s s' : TableState) : Prop where
  obtained : s.obtained <+: s'.obtained
  owned    : Distinct s'.obtained → Owned p s → Owned p s'

theorem Distinct.of_prefix {ts ts' : List Word} (d : Distinct ts') (h : ts <+: ts') : Distinct ts where
  nodup       := d.nodup.sublist h.sublist
  aligned t ht := d.aligned t <| h.subset ht

namespace Keeps

theorem refl (p : Word) (s : TableState) : Keeps p s s :=
  ⟨List.prefix_rfl, fun _ => id⟩

theorem trans {p : Word} {s s' s'' : TableState} (k : Keeps p s s') (k' : Keeps p s' s'') : Keeps p s s'' :=
  ⟨k.obtained.trans k'.obtained, fun d o => k'.owned d <| k.owned (d.of_prefix k'.obtained) o⟩

end Keeps

section Calls

variable {mem : Mem} {p t va pa flags length : Word} {size : PageSize} {pmem : Nat → Word} {fuel k : Nat}
  {s s' : TableState} {body : Word → TableM Unit} {offset last : Word} {ts : List Word} {A : Space}

theorem supplies_of_distinct (ht : tables s.mem p = { t | t ∈ s.obtained })
    (d : Distinct (s.obtained ++ (List.range k).map fun n => pmem (s.obtained.length + n))) :
    Supplies s.mem p (fun n => pmem (s.obtained.length + n)) k := by
  have hm (n : Nat) (hn : n < k) : pmem (s.obtained.length + n) ∈
      (List.range k).map fun n => pmem (s.obtained.length + n) :=
    List.mem_map.mpr ⟨n, List.mem_range.mpr hn, rfl⟩
  have ⟨_, hd, hne⟩ := List.nodup_append.mp d.nodup
  constructor
  case fresh =>
    intro n hn
    refine ⟨d.aligned _ <| List.mem_append_right _ <| hm n hn, fun a ha => ?_⟩
    have ho : pmem (s.obtained.length + n) ∈ tables s.mem p := ⟨a, ha⟩
    rw [ht] at ho
    exact hne _ ho _ (hm n hn) rfl
  case distinct =>
    intro n m hl hm he
    have hi := List.inj_on_of_nodup_map hd
    exact hl.ne <| hi (List.mem_range.mpr <| hl.trans hm) (List.mem_range.mpr hm) he

-- A page is mapped, and the new tables are obtained.
theorem mapPage_maps (v : Maps s.mem p A) (ht : tables s.mem p = { t | t ∈ s.obtained }) (hv : ValidFlags flags)
    (h : (mapPage pmem p va pa flags size).run s = (.ok (), s')) (d : Distinct s'.obtained) :
    Maps s'.mem p (A.map (va.setWidth 39) { pa, flags, size }) ∧ tables s'.mem p = { t | t ∈ s'.obtained } := by
  rw [mapPage_setWidth] at h
  have hr := h
  rw [mapPage_run] at hr
  have ho := (congrArg (·.2.obtained) hr).symm
  have hu := supplies_of_distinct ht <| ho ▸ d
  have hp : ((pteMap (fun n => pmem (s.obtained.length + n)) p ((va.setWidth 39).setWidth 64) pa flags size).run
      s.mem).1 = .ok () := congrArg Prod.fst hr
  have ⟨hm, hb⟩ := v.free_of_pteMap <| Prod.ext hp rfl
  have ⟨s'', (he : (mapPage _ _ _ pa _ _).run _ = _), v', o⟩ := mapPage_ok v hv hu hm hb
  cases h.symm.trans he
  refine ⟨v', ?_⟩
  rw [o.tables, ht, o.obtained]
  ext t
  simp

theorem mapPage_obtained (h : (mapPage pmem p va pa flags size).run s = (.ok (), s')) : s.obtained <+: s'.obtained :=
  ⟨_, congrArg (·.2.obtained) h⟩

theorem mapPage_keeps (hv : ValidFlags flags) (h : (mapPage pmem p va pa flags size).run s = (.ok (), s')) :
    Keeps p s s' :=
  ⟨mapPage_obtained h, fun d ⟨_, v, ht⟩ => ⟨_, mapPage_maps v ht hv h d⟩⟩

theorem unmapPage_keeps (h : (unmapPage pmem p va).run s = (.ok (), s')) : Keeps p s s' := by
  rw [unmapPage_setWidth] at h
  have hr := h
  rw [unmapPage_run] at hr
  have ho := (congrArg (·.2.obtained) hr).symm
  refine ⟨ho ▸ List.prefix_rfl, fun _ ⟨A, v, ht⟩ => ?_⟩
  have hm : A (va.setWidth 39) ≠ none := fun hn => by
    have he := congrArg Prod.fst hr
    simp only [pteUnmap_panic <| v.xwrv_entry.mpr hn] at he
    cases he
  have ⟨s'', (he : (unmapPage pmem _ _).run _ = _), v', ht', ho'⟩ := unmapPage_ok v hm
  cases h.symm.trans he
  exact ⟨_, v', by rw [ht', ht, ho']⟩

section Ranges

variable (hb : ∀ offset s s', (body offset).run s = (.ok (), s') → Keeps p s s')

include hb

theorem forPages_keeps (h : (forPages body length fuel offset).run s = (.ok last, s')) : Keeps p s s' := by
  induction fuel generalizing offset s
  case zero => cases h
  case succ fuel hi =>
    rw [forPages] at h
    split_ifs at h
    case pos =>
      have ⟨_, s'', he, h⟩ := ExceptT.run_bind_eq_ok.mp h
      exact (hb _ _ _ he).trans <| hi h
    case neg =>
      cases h
      exact .refl p _

theorem overRange_keeps (h : (overRange body fuel length).run s = (.ok (), s')) : Keeps p s s' := by
  have ⟨last, s'', he, h⟩ := ExceptT.run_bind_eq_ok.mp h
  have k := forPages_keeps hb he
  split_ifs at h
  case pos => exact k.trans <| hb _ _ _ h
  case neg =>
    cases h
    exact k

end Ranges

theorem TableOp.Step.keeps {op : TableOp} (e : Step pmem p s op s') : Keeps p s s' := by
  cases e
  case ok hv h =>
    cases op
    case map        => exact mapPage_keeps hv h
    case unmap      => exact unmapPage_keeps h
    case rangeMap   => exact overRange_keeps (fun _ _ _ => mapPage_keeps hv) h
    case rangeUnmap => exact overRange_keeps (fun _ _ _ => unmapPage_keeps) h

theorem run_keeps {ops : List TableOp} (r : Run (TableOp.Step pmem p) s ops s') : Keeps p s s' := by
  induction r
  case nil         => exact .refl p _
  case cons e _ hi => exact e.keeps.trans hi

theorem createTable_maps (hp : p ≠ 0) (h : (createTable pmem).run { mem, obtained := [] } = (.ok p, s)) :
    Maps s.mem p (fun _ => none) ∧ tables s.mem p = { t | t ∈ s.obtained } := by
  have hr : (createTable pmem).run { mem, obtained := [] } =
      let r := (pteCreate fun n => pmem (0 + n)).run mem
      (r.1, { mem := r.2, obtained := [pmem 0] }) := rfl
  rw [hr, pteCreate_run] at h
  cases h
  refine ⟨by rw [if_pos hp]; exact maps_clear mem _, ?_⟩
  rw [if_pos hp]
  ext t
  simp [tables, table_clear, eq_comm]

theorem createTable_owned (hp : p ≠ 0) (h : (createTable pmem).run { mem, obtained := [] } = (.ok p, s)) : Owned p s :=
  ⟨_, createTable_maps hp h⟩

end Calls

-- Each page that was obtained for a table is freed once, and no other page is. No table is read after it has been freed.
theorem pteDestory_frees {pmem : Nat → Word} {mem : Mem} {p : Word} {s s' : TableState} {ops : List TableOp} (hp : p ≠ 0)
    (hc : (createTable pmem).run { mem, obtained := [] } = (.ok p, s)) (r : Run (TableOp.Step pmem p) s ops s')
    (d : Distinct s'.obtained) :
    ∃ freed, (pteDestory s'.mem p).run [] = (.ok (), freed) ∧ freed.Nodup ∧ freed.Perm s'.obtained := by
  have ⟨A, v, ht⟩ := (run_keeps r).owned d <| createTable_owned hp hc
  have hd := v.tree.nodup_freeOrder
  refine ⟨_, pteDestory_run hd, hd, (List.perm_ext_iff_of_nodup hd d.nodup).mpr fun t => ?_⟩
  rw [mem_freeOrder, ht]
  rfl

-- The tables remain when the page and the range are unmapped.
theorem threeTables_frees : ∃ s' freed, Run (TableOp.Step page 0x2000)
      { mem := Mem.clear (fun _ _ => 0) 0x2000, obtained := [0x2000] }
      [.map 0 0x80000000 0xf .page4K, .unmap 0, .rangeMap 0 0x80000000 0xf 0x1001, .rangeUnmap 0 0x1001] s' ∧
    (pteDestory s'.mem 0x2000).run [] = (.ok (), freed) ∧ freed.Perm [0x2000, 0x3000, 0x4000] := by
  have hv : ValidFlags 0xf := by decide
  have hc : (createTable page).run { mem := fun _ _ => 0, obtained := [] } =
      (.ok 0x2000, { mem := Mem.clear (fun _ _ => 0) 0x2000, obtained := [0x2000] }) := rfl
  have ⟨s', r, ho⟩ : ∃ s', Run (TableOp.Step page 0x2000)
      { mem := Mem.clear (fun _ _ => 0) 0x2000, obtained := [0x2000] }
      [.map 0 0x80000000 0xf .page4K, .unmap 0, .rangeMap 0 0x80000000 0xf 0x1001, .rangeUnmap 0 0x1001] s' ∧
      s'.obtained = [0x2000, 0x3000, 0x4000] := by
    refine ⟨_, .cons (@TableOp.Step.ok _ _ _ _ _ 0 hv rfl) <| .cons (@TableOp.Step.ok _ _ _ _ _ 0 trivial rfl) <|
      .cons (@TableOp.Step.ok _ _ _ _ _ 2 hv rfl) <| .cons (@TableOp.Step.ok _ _ _ _ _ 2 trivial rfl) .nil, ?_⟩
    rfl
  have ha : ∀ t ∈ [(0x2000 : Word), 0x3000, 0x4000], Aligned t :=
    List.forall_mem_cons.mpr ⟨by decide, List.forall_mem_cons.mpr ⟨by decide, List.forall_mem_singleton.mpr <| by decide⟩⟩
  have d : Distinct s'.obtained := ho.symm ▸ ⟨by decide, ha⟩
  have ⟨freed, hf, _, hp⟩ := pteDestory_frees (by decide) hc r d
  exact ⟨s', freed, r, hf, ho ▸ hp⟩

end Zgmos.Pte
