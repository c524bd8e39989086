import Zgmos.Pte.Areas
import Zgmos.Process.Basic

-- The address space of the kernel.

namespace Zgmos.Kvm

open Pte Process

-- The flags of `pg.h`.

def pteRoSet : Word := pteRSet ||| pteVSet
def pteRwSet : Word := pteRSet ||| pteWSet ||| pteVSet
def pteXrSet : Word := pteXSet ||| pteRSet ||| pteVSet
def pteXwrSet : Word := pteRSet ||| pteWSet ||| pteXSet ||| pteVSet

-- The devices of `virtio.h`, `ns16550.h` and `platform.h`.

def virtioBlkMmioBase : Word := 0x10001000
def ns16550BaseAddr   : Word := 0x10000000
def uarthsBaseAddr    : Word := 0x38000000
def fpioaBaseAddr     : Word := 0x502b0000
def sysctlBaseAddr    : Word := 0x50440000
def spi0BaseAddr      : Word := 0x52000000
def gpiohsBaseAddr    : Word := 0x38001000

-- The macros `QEMU` and `K210`.
inductive Board
  | qemu
  | k210
  deriving DecidableEq

-- The symbols of the linker scripts.
structure Symbols where
  sbiStart    : Word
  sbiEnd      : Word
  textStart   : Word
  textEnd     : Word
  rodataStart : Word
  rodataEnd   : Word
  dataStart   : Word
  bssEnd      : Word
  ramEnd      : Word
  uvecStart   : Word

section Functions

variable (pmem : Nat → Word) (fuel : Nat) (b : Board) (y : Symbols)

def kvmInit (kp : Word) : TableM Unit := do
  pteRangeMap pmem fuel kp y.sbiStart y.sbiStart pteXwrSet (y.sbiEnd - y.sbiStart)
  pteRangeMap pmem fuel kp y.textStart y.textStart pteXrSet (y.textEnd - y.textStart)
  pteRangeMap pmem fuel kp y.rodataStart y.rodataStart pteRoSet (y.rodataEnd - y.rodataStart)
  pteRangeMap pmem fuel kp y.dataStart y.dataStart pteRwSet (y.bssEnd - y.dataStart)
  pteRangeMap pmem fuel kp y.bssEnd y.bssEnd pteRwSet (y.ramEnd - y.bssEnd)
  mapPage pmem kp procVaTrampoline y.uvecStart pteXrSet .page4K
  match b with
  | .qemu => do
    mapPage pmem kp virtioBlkMmioBase virtioBlkMmioBase pteRwSet .page4K
    mapPage pmem kp ns16550BaseAddr ns16550BaseAddr pteRwSet .page4K
  | .k210 => do
    mapPage pmem kp uarthsBaseAddr uarthsBaseAddr pteRwSet .page4K
    pteRangeMap pmem fuel kp fpioaBaseAddr fpioaBaseAddr pteRwSet 0x10000
    pteRangeMap pmem fuel kp sysctlBaseAddr sysctlBaseAddr pteRwSet 0x10000
    pteRangeMap pmem fuel kp spi0BaseAddr spi0BaseAddr pteRwSet 0x1000000
    mapPage pmem kp gpiohsBaseAddr gpiohsBaseAddr pteRwSet .page4K

-- What `main` does with the table of the kernel before it is installed.
def kernelTable : TableM Word := do
  let kpte ← createTable pmem
  kvmInit pmem fuel b y kpte
  return kpte

end Functions

namespace Board

def sbiEnd : Board → Word
  | qemu => 0x80200000
  | k210 => 0x80020000

def ramEnd : Board → Word
  | qemu => 0x80800000
  | k210 => 0x80600000

-- The devices with their lengths.
def devices : Board → List (Word × Word)
  | qemu => [(virtioBlkMmioBase, 0x1000), (ns16550BaseAddr, 0x1000)]
  | k210 => [(uarthsBaseAddr, 0x1000), (fpioaBaseAddr, 0x10000), (sysctlBaseAddr, 0x10000), (spi0BaseAddr, 0x1000000),
      (gpiohsBaseAddr, 0x1000)]

end Board

namespace Symbols

-- What the linker scripts guarantee, for a kernel that fits into the memory.
structure Linked (y : Symbols) (b : Board) : Prop where
  sbiStart    : y.sbiStart = 0x80000000
  sbiEnd      : y.sbiEnd = b.sbiEnd
  ramEnd      : y.ramEnd = b.ramEnd
  textStart   : y.textStart = y.sbiEnd
  rodataStart : y.rodataStart = y.textEnd
  dataStart   : y.dataStart = y.rodataEnd
  text        : y.textStart ≤ y.textEnd
  rodata      : y.rodataStart ≤ y.rodataEnd
  data        : y.dataStart ≤ y.bssEnd
  fits        : y.bssEnd ≤ y.ramEnd
  aligned     : Aligned y.textEnd ∧ Aligned y.rodataEnd ∧ Aligned y.bssEnd ∧ Aligned y.uvecStart

-- What an address is meant to stand for in the kernel.
def view (y : Symbols) (b : Board) (a : Word) : Option (Word × Word) :=
  if y.sbiStart ≤ a ∧ a < y.sbiEnd then
    some (a, pteXwrSet)
  else if y.textStart ≤ a ∧ a < y.textEnd then
    some (a, pteXrSet)
  else if y.rodataStart ≤ a ∧ a < y.rodataEnd then
    some (a, pteRoSet)
  else if y.dataStart ≤ a ∧ a < y.ramEnd then
    some (a, pteRwSet)
  else if procVaTrampoline ≤ a ∧ a < procVaTrampoline + 0x1000 then
    some (y.uvecStart + (a - procVaTrampoline), pteXrSet)
  else if ∃ d ∈ b.devices, d.1 ≤ a ∧ a < d.1 + d.2 then
    some (a, pteRwSet)
  else
    none

-- The areas in the order in which they are mapped.
def areas (y : Symbols) (b : Board) : List Area := [
    .identity y.sbiStart y.sbiEnd pteXwrSet,
    .identity y.textStart y.textEnd pteXrSet,
    .identity y.rodataStart y.rodataEnd pteRoSet,
    .identity y.dataStart y.bssEnd pteRwSet,
    .identity y.bssEnd y.ramEnd pteRwSet,
    ⟨procVaTrampoline, y.uvecStart, pteXrSet, 0x1000⟩] ++
  b.devices.map fun d => ⟨d.1, d.1, pteRwSet, d.2⟩

end Symbols

variable {pmem : Nat → Word} {fuel m n : Nat} {b : Board} {y : Symbols} {kp va pa flags : Word} {s : TableState}

-- A page is a range of pages.
theorem mapPage_eq : mapPage pmem kp va pa flags .page4K =
    Area.map pmem (fuel + 2) kp ⟨va, pa, flags, 0x1000⟩ := by
  simp [Area.map, pteRangeMap, overRange, forPages]

theorem kvmInit_eq : kvmInit pmem (fuel + 2) b y kp = (y.areas b).forM (Area.map pmem (fuel + 2) kp) := by
  cases b
  case qemu => simp [kvmInit, Symbols.areas, Board.devices, @mapPage_eq _ fuel, Area.map, Area.identity]
  case k210 => simp [kvmInit, Symbols.areas, Board.devices, @mapPage_eq _ fuel, Area.map, Area.identity]

-- The devices lie below the memory.
theorem Board.devices_spec : ∀ d ∈ b.devices, Aligned d.1 ∧ Aligned d.2 ∧ d.1.toNat + d.2.toNat ≤ 0x80000000 := by
  cases b
  all_goals
    simp only [devices, List.forall_mem_cons, List.not_mem_nil, false_imp_iff, implies_true, and_true]
    decide

theorem Board.devices_apart : b.devices.Pairwise fun d d' =>
    d.1.toNat + d.2.toNat ≤ d'.1.toNat ∨ d'.1.toNat + d'.2.toNat ≤ d.1.toNat := by
  cases b
  all_goals
    simp only [devices, List.pairwise_cons, List.forall_mem_cons, List.not_mem_nil, false_imp_iff, implies_true,
      and_true]
    decide

theorem ite_or {α : Type} {c : Prop} [Decidable c] {o : α} {o' : Option α} :
    (if c then some o else none).or o' = if c then some o else o' := by
  split <;> rfl

theorem view_trampoline (a : Word) : Area.view [⟨procVaTrampoline, y.uvecStart, pteXrSet, 0x1000⟩] a.toNat =
    if procVaTrampoline ≤ a ∧ a < procVaTrampoline + 0x1000 then
      some (y.uvecStart + (a - procVaTrampoline), pteXrSet) else none := by
  have hc : (⟨procVaTrampoline, y.uvecStart, pteXrSet, 0x1000⟩ : Area).Covers a.toNat ↔
      procVaTrampoline ≤ a ∧ a < procVaTrampoline + 0x1000 :=
    Iff.rfl
  rw [Area.view_singleton]
  by_cases ha : procVaTrampoline ≤ a ∧ a < procVaTrampoline + 0x1000
  case pos =>
    have he : BitVec.ofNat 64 (a.toNat - procVaTrampoline.toNat) = a - procVaTrampoline := by
      rw [← BitVec.toNat_sub_of_le ha.1, BitVec.ofNat_toNat, BitVec.setWidth_eq]
    rw [if_pos (hc.mpr ha), if_pos ha, he]
  case neg => rw [if_neg (hc.not.mpr ha), if_neg ha]

theorem view_devices (a : Word) : Area.view (b.devices.map fun d => ⟨d.1, d.1, pteRwSet, d.2⟩) a.toNat =
    if ∃ d ∈ b.devices, d.1 ≤ a ∧ a < d.1 + d.2 then some (a, pteRwSet) else none := by
  have hc (d : Word × Word) (hd : d ∈ b.devices) : (⟨d.1, d.1, pteRwSet, d.2⟩ : Area).Covers a.toNat ↔
      d.1 ≤ a ∧ a < d.1 + d.2 := by
    have ⟨_, _, hl⟩ := Board.devices_spec d hd
    simp only [Area.Covers, BitVec.le_def, BitVec.lt_def, BitVec.toNat_add]
    omega
  have he : (∃ r ∈ b.devices.map fun d => (⟨d.1, d.1, pteRwSet, d.2⟩ : Area), r.Covers a.toNat) ↔
      ∃ d ∈ b.devices, d.1 ≤ a ∧ a < d.1 + d.2 := by
    simp only [List.mem_map, exists_exists_and_eq_and]
    exact exists_congr fun d => and_congr_right <| hc d
  have hr : ∀ r ∈ b.devices.map fun d => (⟨d.1, d.1, pteRwSet, d.2⟩ : Area), r.pa = r.va ∧ r.flags = pteRwSet :=
    List.forall_mem_map.mpr fun d hd => ⟨rfl, rfl⟩
  rw [Area.view_eq_of_identity hr]
  simp only [he]

namespace Symbols.Linked

variable (l : y.Linked b)

include l

-- The sections follow each other.
theorem order : y.sbiStart.toNat = 0x80000000 ∧ y.sbiStart.toNat ≤ y.sbiEnd.toNat ∧
    y.textStart.toNat = y.sbiEnd.toNat ∧ y.textStart.toNat ≤ y.textEnd.toNat ∧
    y.rodataStart.toNat = y.textEnd.toNat ∧ y.rodataStart.toNat ≤ y.rodataEnd.toNat ∧
    y.dataStart.toNat = y.rodataEnd.toNat ∧ y.dataStart.toNat ≤ y.bssEnd.toNat ∧
    y.bssEnd.toNat ≤ y.ramEnd.toNat ∧ y.ramEnd.toNat ≤ 0x80800000 := by
  have hb : (0x80000000 : Word).toNat ≤ b.sbiEnd.toNat ∧ b.ramEnd.toNat ≤ 0x80800000 := by
    cases b <;> decide
  have hs := congrArg BitVec.toNat l.sbiStart
  refine ⟨hs, ?_, by rw [l.textStart], l.text, by rw [l.rodataStart], l.rodata, by rw [l.dataStart], l.data, l.fits, ?_⟩
  case refine_1 => rw [l.sbiStart, l.sbiEnd]; exact hb.1
  case refine_2 => rw [l.ramEnd]; exact hb.2

theorem areas_sound : ∀ r ∈ y.areas b, r.Sound := by
  have ⟨ht, hr, hd, hu⟩ := l.aligned
  have ha : Aligned y.sbiStart ∧ Aligned y.sbiEnd ∧ Aligned y.ramEnd := by
    rw [l.sbiStart, l.sbiEnd, l.ramEnd]
    cases b <;> decide
  have hx : ValidFlags pteXwrSet ∧ ValidFlags pteXrSet ∧ ValidFlags pteRoSet ∧ ValidFlags pteRwSet := by decide
  have ho := l.order
  have hs : y.sbiStart ≤ y.sbiEnd := by rw [BitVec.le_def]; omega
  simp only [areas, List.forall_mem_append, List.forall_mem_cons, List.not_mem_nil, false_imp_iff, implies_true,
    and_true, List.forall_mem_map]
  refine ⟨⟨?_, ?_, ?_, ?_, ?_, ?_⟩, ?_⟩
  case refine_1 => exact Area.identity_sound hs hx.1 ha.1 ha.2.1 (by omega)
  case refine_2 => exact Area.identity_sound l.text hx.2.1 (l.textStart ▸ ha.2.1) ht (by omega)
  case refine_3 => exact Area.identity_sound l.rodata hx.2.2.1 (l.rodataStart ▸ ht) hr (by omega)
  case refine_4 => exact Area.identity_sound l.data hx.2.2.2 (l.dataStart ▸ hr) hd (by omega)
  case refine_5 => exact Area.identity_sound l.fits hx.2.2.2 hd ha.2.2 (by omega)
  case refine_6 =>
    have hc : Aligned procVaTrampoline ∧ Aligned 0x1000 ∧ procVaTrampoline.toNat + (0x1000 : Word).toNat ≤ 2 ^ 39 := by
      decide
    exact ⟨hx.2.1, hc.1, hu, hc.2.1, hc.2.2⟩
  case refine_7 =>
    intro d hd
    have ⟨h₁, h₂, h₃⟩ := Board.devices_spec d hd
    exact ⟨hx.2.2.2, h₁, h₁, h₂, h₃.trans (by decide)⟩

theorem areas_apart : (y.areas b).Pairwise Area.Apart := by
  have ho := l.order
  have hs : y.sbiStart ≤ y.sbiEnd := by rw [BitVec.le_def]; omega
  have h₁ := @Area.identity_length pteXwrSet _ _ hs
  have h₂ := @Area.identity_length pteXrSet _ _ l.text
  have h₃ := @Area.identity_length pteRoSet _ _ l.rodata
  have h₄ := @Area.identity_length pteRwSet _ _ l.data
  have h₅ := @Area.identity_length pteRwSet _ _ l.fits
  have hp : procVaTrampoline.toNat = 0xffffe000 := rfl
  simp only [Area.identity] at h₁ h₂ h₃ h₄ h₅
  refine List.pairwise_append.mpr ⟨?_, List.pairwise_map.mpr Board.devices_apart, ?_⟩
  case refine_1 =>
    simp only [List.pairwise_cons, List.forall_mem_cons, List.not_mem_nil, false_imp_iff, implies_true, and_true,
      List.Pairwise.nil, Area.Apart, Area.identity]
    omega
  case refine_2 =>
    simp only [List.forall_mem_cons, List.not_mem_nil, false_imp_iff, implies_true, and_true, List.forall_mem_map,
      Area.Apart, Area.identity]
    refine ⟨?_, ?_, ?_, ?_, ?_, ?_⟩
    all_goals
      intro d hd
      obtain ⟨_, _, _⟩ := Board.devices_spec d hd
      omega

theorem areas_fuel : ∀ r ∈ y.areas b, r.length.toNat / 0x1000 ≤ 0x1000 := by
  have ho := l.order
  have hs : y.sbiStart ≤ y.sbiEnd := by rw [BitVec.le_def]; omega
  have hd : ∀ d ∈ b.devices, d.2.toNat / 0x1000 ≤ 0x1000 := by
    cases b
    all_goals
      simp only [Board.devices, List.forall_mem_cons, List.not_mem_nil, false_imp_iff, implies_true, and_true]
      decide
  simp only [areas, List.forall_mem_append, List.forall_mem_cons, List.not_mem_nil, false_imp_iff, implies_true,
    and_true, List.forall_mem_map]
  refine ⟨⟨?_, ?_, ?_, ?_, ?_, ?_⟩, hd⟩
  case refine_1 => rw [Area.identity_length hs]; omega
  case refine_2 => rw [Area.identity_length l.text]; omega
  case refine_3 => rw [Area.identity_length l.rodata]; omega
  case refine_4 => rw [Area.identity_length l.data]; omega
  case refine_5 => rw [Area.identity_length l.fits]; omega
  case refine_6 => show 0x1000 / 0x1000 ≤ 0x1000; omega

theorem areas_tables : Area.tables (y.areas b) ≤ 64 := by
  have ho := l.order
  have hs : y.sbiStart ≤ y.sbiEnd := by rw [BitVec.le_def]; omega
  have hd : Area.tables (b.devices.map fun d => ⟨d.1, d.1, pteRwSet, d.2⟩) ≤ 30 := by
    cases b <;> decide
  have h₁ := @Area.identity_length pteXwrSet _ _ hs
  have h₂ := @Area.identity_length pteXrSet _ _ l.text
  have h₃ := @Area.identity_length pteRoSet _ _ l.rodata
  have h₄ := @Area.identity_length pteRwSet _ _ l.data
  have h₅ := @Area.identity_length pteRwSet _ _ l.fits
  have ht : rangeTables 0x1000 = 2 := by decide
  simp only [Area.tables, areas, List.map_append, List.sum_append, List.map_cons, List.map_nil, List.sum_cons,
    List.sum_nil, ht] at hd ⊢
  generalize (List.map (fun r : Area => rangeTables r.length) _).sum = k at hd ⊢
  simp only [rangeTables, rangePages, h₁, h₂, h₃, h₄, h₅]
  omega

theorem areas_view (a : Word) : Area.view (y.areas b) a.toNat = y.view b a := by
  have ho := l.order
  have hs : y.sbiStart ≤ y.sbiEnd := by rw [BitVec.le_def]; omega
  have hdata : (Area.view [.identity y.dataStart y.bssEnd pteRwSet] a.toNat).or
      (Area.view [.identity y.bssEnd y.ramEnd pteRwSet] a.toNat) =
        if y.dataStart ≤ a ∧ a < y.ramEnd then some (a, pteRwSet) else none := by
    rw [Area.view_identity l.data, Area.view_identity l.fits]
    simp only [BitVec.le_def, BitVec.lt_def]
    split_ifs
    all_goals first | rfl | omega
  have he : y.areas b = [Area.identity y.sbiStart y.sbiEnd pteXwrSet] ++
      ([Area.identity y.textStart y.textEnd pteXrSet] ++ ([Area.identity y.rodataStart y.rodataEnd pteRoSet] ++
        (([Area.identity y.dataStart y.bssEnd pteRwSet] ++ [Area.identity y.bssEnd y.ramEnd pteRwSet]) ++
          ([Area.mk procVaTrampoline y.uvecStart pteXrSet 0x1000] ++
            b.devices.map fun d => ⟨d.1, d.1, pteRwSet, d.2⟩)))) :=
    rfl
  simp only [he, Area.view_append, hdata, Area.view_identity hs, Area.view_identity l.text, Area.view_identity l.rodata,
    view_trampoline, view_devices, ite_or, view]

end Symbols.Linked

-- Only the SBI lies in pages that can be written and executed, and no page is accessible to user programs.
theorem view_protected {a : Word} (h : y.view b a = some (pa, flags)) : flags &&& pteUSet = 0 ∧
    (flags &&& pteWSet ≠ 0 → flags &&& pteXSet ≠ 0 → y.sbiStart ≤ a ∧ a < y.sbiEnd) := by
  unfold Symbols.view at h
  split_ifs at h
  case pos hs =>
    cases h
    exact ⟨by decide, fun _ _ => hs⟩
  all_goals
    cases h
    exact ⟨by decide, fun hw hx => by first | exact absurd rfl hw | exact absurd rfl hx⟩

theorem kvmInit_ok (l : y.Linked b) (hf : 0x1000 < fuel) (v : Maps s.mem kp fun _ => none)
    (hu : Supplies s.mem kp (fun n => pmem (s.obtained.length + n)) 64) :
    ∃ s', (kvmInit pmem fuel b y kp).run s = (.ok (), s') ∧
      ∀ a : BitVec 39, translation s'.mem kp (a.setWidth 64) = y.view b (a.setWidth 64) := by
  obtain ⟨k, rfl⟩ : ∃ k, fuel = k + 2 := ⟨fuel - 2, by omega⟩
  have hn (a : BitVec 39) : translation s.mem kp (a.setWidth 64) = none := v.translation_eq_none.mpr rfl
  have ⟨s', he, ht⟩ := Area.forM_map_ok l.areas_sound (fun r hr => (l.areas_fuel r hr).trans_lt hf) l.areas_apart v
    (fun _ _ a _ => hn a) (hu.mono l.areas_tables)
  refine ⟨s', by rw [kvmInit_eq, he], fun a => ?_⟩
  have ha : (a.setWidth 64 : Word).toNat = a.toNat := by
    rw [BitVec.toNat_setWidth]
    omega
  rw [ht, hn, Option.or_none, ← l.areas_view, ha]

-- In the new table the kernel, the rest of the memory and the devices are mapped to themselves, and the trampoline is
-- mapped to the code for the traps. Nothing else is mapped.
theorem kernelTable_maps (mem : Mem) (l : y.Linked b) (hf : 0x1000 < fuel) (hz : pmem 0 ≠ 0)
    (ha : ∀ n < 65, Aligned (pmem n)) (hd : ∀ n m, n < m → m < 65 → pmem n ≠ pmem m) :
    ∃ s', (kernelTable pmem fuel b y).run { mem, obtained := [] } = (.ok (pmem 0), s') ∧
      (∀ a : BitVec 39, translation s'.mem (pmem 0) (a.setWidth 64) = y.view b (a.setWidth 64)) ∧
      ∀ (a : BitVec 39) (pa flags : Word), translation s'.mem (pmem 0) (a.setWidth 64) = some (pa, flags) →
        flags &&& pteUSet = 0 ∧ (flags &&& pteWSet ≠ 0 → flags &&& pteXSet ≠ 0 →
          y.sbiStart ≤ a.setWidth 64 ∧ a.setWidth 64 < y.sbiEnd) := by
  let s : TableState := { mem := mem.clear (pmem 0), obtained := [pmem 0] }
  have hc : (createTable pmem).run { mem, obtained := [] } = (.ok (pmem 0), s) := by
    have hr : (createTable pmem).run { mem, obtained := [] } =
        let r := (pteCreate fun n => pmem (0 + n)).run mem
        (r.1, { mem := r.2, obtained := [pmem 0] }) := rfl
    rw [hr, pteCreate_run, if_pos hz]
  have hu : Supplies s.mem (pmem 0) (fun n => pmem (s.obtained.length + n)) 64 := {
    fresh n hn        := fresh_clear (ha _ (by simp [s]; omega)) (hd _ _ (by simp [s]) (by simp [s]; omega))
    distinct n m hn hm := hd _ _ (by omega) (by simp [s]; omega)
  }
  have ⟨s', he, ht⟩ := kvmInit_ok l hf (maps_clear mem _) hu
  refine ⟨s', ?_, ht, fun a pa flags h => view_protected <| ht a ▸ h⟩
  rw [kernelTable, ExceptT.run_bind_ok hc, ExceptT.run_bind_ok he]
  rfl

-- A kernel of 192 KiB.
def kernel : Symbols where
  sbiStart    := 0x80000000
  sbiEnd      := 0x80200000
  textStart   := 0x80200000
  textEnd     := 0x80210000
  rodataStart := 0x80210000
  rodataEnd   := 0x80214000
  dataStart   := 0x80214000
  bssEnd      := 0x80230000
  ramEnd      := 0x80800000
  uvecStart   := 0x8020f000

theorem kernel_linked : kernel.Linked .qemu := by
  constructor
  all_goals decide

-- The pages behind the kernel.
def freePage (n : Nat) : Word :=
  .ofNat 64 (0x80231000 + n * 0x1000)

theorem kernel_maps : ∃ s', (kernelTable freePage 0x1001 .qemu kernel).run { mem := empty, obtained := [] } =
    (.ok 0x80231000, s') ∧ translation s'.mem 0x80231000 0x80300010 = some (0x80300010, pteRwSet) ∧
      translation s'.mem 0x80231000 0xffffe010 = some (0x8020f010, pteXrSet) ∧
      translation s'.mem 0x80231000 0x80800000 = none := by
  have ht (n : Nat) (hn : n < 65) : (freePage n).toNat = 0x80231000 + n * 0x1000 := by
    rw [freePage, BitVec.toNat_ofNat]
    omega
  have ha (n : Nat) (hn : n < 65) : Aligned (freePage n) := by
    rw [aligned_iff, ht n hn]
    omega
  have hd (n m : Nat) (hn : n < m) (hm : m < 65) : freePage n ≠ freePage m := by
    intro he
    have := congrArg BitVec.toNat he
    rw [ht n (by omega), ht m hm] at this
    omega
  have ⟨s', he, hv, _⟩ := kernelTable_maps empty kernel_linked (show 0x1000 < 0x1001 by decide)
    (show freePage 0 ≠ 0 by decide) ha hd
  exact ⟨s', he, hv 0x80300010, hv 0xffffe010, hv 0x80800000⟩

end Zgmos.Kvm
