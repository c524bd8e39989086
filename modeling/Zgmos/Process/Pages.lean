import Zgmos.Process.Basic
import Zgmos.Pte.Ranges

namespace Zgmos.Process

open Pte

-- The address of the page of an address.
def pageBase (va : BitVec 39) : Word :=
  align4K (va.setWidth 64)

-- The mappings that `task_create` makes.
def fixedSpace (uvecStart tfp ustackPa : Word) : Space :=
  Space.map (fun _ => none) (procVaTrampoline.setWidth 39)
      { pa := uvecStart, flags := pteXSet ||| pteRSet ||| pteVSet, size := .page4K }
    |>.map (procVaTrapframe.setWidth 39)
      { pa := tfp, flags := pteRSet ||| pteWSet ||| pteVSet, size := .page4K }
    |>.map (procVaUstack.setWidth 39)
      { pa := ustackPa, flags := pteRSet ||| pteWSet ||| pteVSet ||| pteUSet, size := .page4K }

-- The pages of these mappings.
def fixedPages (uvecStart tfp ustackPa : Word) : List (Word × Word) :=
  [(procVaTrampoline, align4K uvecStart), (procVaTrapframe, align4K tfp), (procVaUstack, align4K ustackPa)]

-- The space consists of the fixed mappings and of the pages of the list.
structure Mapped (F : Space) (pages : List TaskPage) (A : Space) : Prop where
  fixed  : ∀ va, F va ≠ none → A va = F va
  listed : ∀ va, F va = none → (A va).map (fun m => (m.pa, m.size)) =
    (pages.find? fun pg => pg.va = pageBase va).map fun pg => (pg.pa, .page4K)

-- What is listed is allocated, and different from the tables.
structure Books (F : Space) (p : Word) (s : TaskState) : Prop where
  vas     : (s.task.pages.map (·.va)).Nodup
  pas     : (s.task.pages.map (·.pa)).Nodup
  addrs   : (s.task.pages.map (·.addr)).Nodup
  va      : ∀ pg ∈ s.task.pages, Aligned pg.va ∧ pg.va.toNat < 2 ^ 39 ∧ F (pg.va.setWidth 39) = none
  pa      : ∀ pg ∈ s.task.pages, Aligned pg.pa ∧ pg.pa ∈ s.live ∧ pg.pa ∉ Pte.tables s.mem p
  addr    : ∀ pg ∈ s.task.pages, pg.addr ∈ s.objects
  tables  : ∀ t ∈ Pte.tables s.mem p, t ∈ s.live
  live    : s.live.Nodup
  objects : s.objects.Nodup

structure Inv (F : Space) (p : Word) (s : TaskState) : Prop where
  userPte : s.task.userPte = p
  books   : Books F p s
  mapped  : ∃ A, Maps s.mem p A ∧ Mapped F s.task.pages A

-- The fixed mappings are pages.
def Paged (F : Space) : Prop :=
  ∀ a b, SamePage .page4K a b → F a = F b

-- The results of the allocations are `NULL` or new. The allocations of tables succeed.
structure Answers (s : TaskState) (va kmalloc : Word) (pmem : Nat → Word) : Prop where
  object   : kmalloc ≠ 0 → kmalloc ∉ s.objects
  page     : pmem 0 ≠ 0 → ∀ n ≤ pteMapAllocs s.mem s.task.userPte va .page4K, Aligned (pmem n) ∧ pmem n ∉ s.live
  distinct : pmem 0 ≠ 0 → ∀ n m, n < m → m ≤ pteMapAllocs s.mem s.task.userPte va .page4K → pmem n ≠ pmem m

-- The conditions for a call of `task_add_page`.
structure CanAdd (s : TaskState) (va flags kmalloc : Word) (pmem : Nat → Word) : Prop where
  aligned  : Aligned va
  lt       : va.toNat < 2 ^ 39
  unmapped : (pteWalk s.mem s.task.userPte va).flags = 0
  flags    : flags ≠ 0 ∧ ∃ segFlags, flags = taskAuxMapFlags segFlags
  answers  : Answers s va kmalloc pmem

-- The calls with their results.
inductive TaskOp
  | add    (va flags : Word) (page : Option TaskPage)
  | remove (va : Word) (found : Bool)

inductive Step : TaskState → TaskOp → TaskState → Prop
  | add {page : Option TaskPage} : CanAdd s va flags kmalloc pmem →
    (taskAddPage kmalloc pmem va flags).run s = (.ok page, s') → Step s (.add va flags page) s'
  | remove {found : Bool} : (taskRemovePage va).run s = (.ok found, s') → Step s (.remove va found) s'

-- The addresses which are added and not removed.
def TaskOp.apply (vas : Set Word) : TaskOp → Set Word
  | add va _ page => if page.isSome then insert va vas else vas
  | remove va _   => vas \ {va}

-- The state in which `task_create` begins to load the image.
structure Created (pmem : Nat → Word) (uvecStart tfp ustackPa : Word) (s : TaskState) : Prop where
  table   : ∃ mem ts, (taskCreateTable pmem uvecStart tfp ustackPa).run { mem, obtained := [] } =
    (.ok s.task.userPte, ts) ∧ s.mem = ts.mem ∧ Distinct ts.obtained ∧ ∀ t ∈ ts.obtained, t ∈ s.live
  task    : s.task.userPte ≠ 0 ∧ s.task.pages = [] ∧ s.task.maxWritablePage = 0
  live    : s.live.Nodup
  objects : s.objects.Nodup

-- The list, the table and the allocations correspond, apart from the mappings `fixed`.
structure Consistent (fixed : List (Word × Word)) (vas : Set Word) (s : TaskState) : Prop where
  nodup      : (s.task.pages.map (·.va)).Nodup
  listed     : ∀ va, va ∈ s.task.pages.map (·.va) ↔ va ∈ vas
  translated : ∀ (va : BitVec 39) (pa : Word),
    let w := pteWalk s.mem s.task.userPte (va.setWidth 64)
    w.flags ≠ 0 ∧ w.addr = pa ↔ (pageBase va, pa) ∈ fixed ∨ ∃ pg ∈ s.task.pages, pg.va = pageBase va ∧ pg.pa = pa
  live       : (s.task.pages.map (·.pa)).Nodup ∧ s.live.Nodup ∧ ∀ pg ∈ s.task.pages, pg.pa ∈ s.live

variable {F A : Space} {p va flags kmalloc pa uvecStart tfp ustackPa : Word} {pmem : Nat → Word} {s s' : TaskState}
  {pages : List TaskPage} {pg : TaskPage} {a b : BitVec 39} {page : Option TaskPage} {found : Bool}

section Addresses

theorem toNat_align4K (va : Word) : (align4K va).toNat = va.toNat / 0x1000 * 0x1000 := by
  have hd : align4K va >>> 12 = va >>> 12 := by
    apply BitVec.eq_of_getLsbD_eq
    intro i _
    rw [BitVec.getLsbD_ushiftRight, BitVec.getLsbD_ushiftRight, getLsbD_align4K]
    simp
  have hm : (align4K va).toNat % 0x1000 = 0 := by
    apply aligned_iff.mp
    rw [Aligned, align4K, align4K, BitVec.and_assoc, BitVec.and_self]
  have hd := congrArg BitVec.toNat hd
  rw [BitVec.toNat_ushiftRight, BitVec.toNat_ushiftRight, Nat.shiftRight_eq_div_pow, Nat.shiftRight_eq_div_pow] at hd
  omega

theorem samePage_iff_pageBase : SamePage .page4K a b ↔ pageBase a = pageBase b := by
  rw [samePage_page4K, pageBase, pageBase, ← BitVec.toNat_inj, toNat_align4K, toNat_align4K, BitVec.toNat_setWidth,
    BitVec.toNat_setWidth]
  omega

theorem pageBase_setWidth (ha : Aligned va) (hl : va.toNat < 2 ^ 39) : pageBase (va.setWidth 39) = va := by
  rw [pageBase, setWidth_setWidth hl, ha]

-- An aligned address is the address of its page.
theorem samePage_setWidth (ha : Aligned va) (hl : va.toNat < 2 ^ 39) :
    SamePage .page4K (va.setWidth 39) b ↔ va = pageBase b := by
  rw [samePage_iff_pageBase, pageBase_setWidth ha hl]

theorem validFlags_taskAuxMapFlags {segFlags : BitVec 32} (h : taskAuxMapFlags segFlags ≠ 0) :
    ValidFlags (taskAuxMapFlags segFlags) := by
  by_cases hx : segFlags &&& pfX = 0 <;> by_cases hr : segFlags &&& pfR = 0 <;> by_cases hw : segFlags &&& pfW = 0 <;>
    simp only [taskAuxMapFlags, ne_eq, hx, hr, hw, not_true_eq_false, not_false_eq_true, if_true, if_false] at h ⊢
  all_goals decide

end Addresses

section Listed

-- The pages of the list without one of them.
theorem find?_erase {b : Word} (hn : (pages.map (·.va)).Nodup) (hm : pg ∈ pages) :
    (pages.erase pg).find? (fun pg => pg.va = b) = if pg.va = b then none else pages.find? fun pg => pg.va = b := by
  have ⟨l₁, l₂, _, hl, he⟩ := List.exists_erase_eq hm
  rw [he]
  subst hl
  simp only [List.map_append, List.map_cons, List.nodup_append, List.nodup_cons] at hn
  have ⟨_, ⟨h₂, _⟩, h₁⟩ := hn
  rw [List.find?_append, List.find?_append]
  by_cases hb : pg.va = b
  case pos =>
    subst hb
    have hz₁ : l₁.find? (fun qg => qg.va = pg.va) = none := by
      apply List.find?_eq_none.mpr
      intro qg hq
      simpa using h₁ _ (List.mem_map_of_mem hq) _ List.mem_cons_self
    have hz₂ : l₂.find? (fun qg => qg.va = pg.va) = none := by
      apply List.find?_eq_none.mpr
      intro qg hq
      simpa using fun hc => h₂ <| List.mem_map.mpr ⟨qg, hq, hc⟩
    simp [hz₁, hz₂]
  case neg => simp [hb]

theorem find?_eq_some (hn : (pages.map (·.va)).Nodup) (hm : pg ∈ pages) :
    pages.find? (fun qg => qg.va = pg.va) = some pg := by
  cases hf : pages.find? fun qg => qg.va = pg.va
  case none   => simpa using List.find?_eq_none.mp hf pg hm
  case some q =>
    have hv : q.va = pg.va := by simpa using List.find?_some hf
    rw [List.inj_on_of_nodup_map hn (List.mem_of_find?_eq_some hf) hm hv]

namespace Mapped

variable (m : Mapped F pages A)

include m

theorem eq_none_iff : A a = none ↔ F a = none ∧ pages.find? (fun pg => pg.va = pageBase a) = none := by
  by_cases hf : F a = none
  case pos =>
    have hl := congrArg (· = none) <| m.listed a hf
    simpa [hf] using hl
  case neg => simp [hf, m.fixed a hf]

theorem add (pg : TaskPage) (hF : Paged F) (ha : Aligned pg.va) (hl : pg.va.toNat < 2 ^ 39)
    (hn : F (pg.va.setWidth 39) = none) :
    Mapped F (pg :: pages) (A.map (pg.va.setWidth 39) { pa := pg.pa, flags, size := .page4K }) where
  fixed b hb := by
    have hs : ¬SamePage .page4K (pg.va.setWidth 39) b := fun hs => hb <| hF _ _ hs ▸ hn
    rw [Space.map, if_neg hs, m.fixed b hb]
  listed b hb := by
    by_cases hs : pg.va = pageBase b
    case pos =>
      rw [Space.map, if_pos <| (samePage_setWidth ha hl).mpr hs, List.find?_cons_of_pos (by simp [hs])]
      rfl
    case neg =>
      rw [Space.map, if_neg <| (samePage_setWidth ha hl).not.mpr hs, List.find?_cons_of_neg (by simp [hs])]
      exact m.listed b hb

theorem remove (hF : Paged F) (hd : (pages.map (·.va)).Nodup) (hm : pg ∈ pages) (ha : Aligned pg.va)
    (hl : pg.va.toNat < 2 ^ 39)
    (hn : F (pg.va.setWidth 39) = none) :
    Mapped F (pages.erase pg) (A.unmap (pg.va.setWidth 39)) := by
  have hp := m.listed _ hn
  rw [pageBase_setWidth ha hl, find?_eq_some hd hm] at hp
  have ⟨n, hA, hs⟩ := Option.map_eq_some_iff.mp hp
  have hs : n.size = .page4K := congrArg Prod.snd hs
  have hu (b : BitVec 39) : A.unmap (pg.va.setWidth 39) b = if SamePage .page4K (pg.va.setWidth 39) b then none else A b := by
    rw [Space.unmap, hA, ← hs]
  constructor
  case fixed =>
    intro b hb
    have hc : ¬SamePage .page4K (pg.va.setWidth 39) b := fun hc => hb <| hF _ _ hc ▸ hn
    rw [hu, if_neg hc, m.fixed b hb]
  case listed =>
    intro b hb
    rw [hu, find?_erase hd hm]
    by_cases hc : pg.va = pageBase b
    case pos =>
      rw [if_pos <| (samePage_setWidth ha hl).mpr hc, if_pos hc]
      rfl
    case neg =>
      rw [if_neg <| (samePage_setWidth ha hl).not.mpr hc, if_neg hc]
      exact m.listed b hb

end Mapped

end Listed

namespace Books

variable (k : Books F p s)

include k

-- A page is added with the new tables `ts`.
theorem add {ts : List Word} {mem : Mem} {max : Word} (ha : Aligned va) (hl : va.toNat < 2 ^ 39)
    (hF : F (va.setWidth 39) = none) (hn : ∀ pg ∈ s.task.pages, pg.va ≠ va) (hk : kmalloc ∉ s.objects)
    (hp : Aligned pa) (hd : (ts ++ pa :: s.live).Nodup)
    (ht : Pte.tables mem p = Pte.tables s.mem p ∪ { t | t ∈ ts }) :
    Books F p {
      task    := { userPte := s.task.userPte, pages := { addr := kmalloc, pa, va } :: s.task.pages, maxWritablePage := max }
      mem
      live    := ts ++ pa :: s.live
      objects := kmalloc :: s.objects
    } := by
  have ⟨_, hd₂, hd₁⟩ := List.nodup_append.mp hd
  have ⟨hpa, hlive⟩ := List.nodup_cons.mp hd₂
  have hts (qa : Word) (hq : qa ∈ pa :: s.live) (ho : qa ∉ Pte.tables s.mem p) : qa ∉ Pte.tables mem p := by
    rw [ht]
    intro hc
    cases hc
    case inl h => exact ho h
    case inr h => exact hd₁ _ h _ hq rfl
  constructor
  case vas =>
    refine List.nodup_cons.mpr ⟨fun hc => ?_, k.vas⟩
    have ⟨pg, hm, he⟩ := List.mem_map.mp hc
    exact hn pg hm he
  case pas =>
    refine List.nodup_cons.mpr ⟨fun hc => ?_, k.pas⟩
    have ⟨pg, hm, (he : pg.pa = pa)⟩ := List.mem_map.mp hc
    exact hpa <| he ▸ (k.pa pg hm).2.1
  case addrs =>
    refine List.nodup_cons.mpr ⟨fun hc => ?_, k.addrs⟩
    have ⟨pg, hm, (he : pg.addr = kmalloc)⟩ := List.mem_map.mp hc
    exact hk <| he ▸ k.addr pg hm
  case va   => exact List.forall_mem_cons.mpr ⟨⟨ha, hl, hF⟩, k.va⟩
  case pa   =>
    refine List.forall_mem_cons.mpr ⟨⟨hp, by simp, hts _ (by simp) fun hc => hpa <| k.tables _ hc⟩, fun pg hm => ?_⟩
    have ⟨h₁, h₂, h₃⟩ := k.pa pg hm
    exact ⟨h₁, by simp [h₂], hts _ (by simp [h₂]) h₃⟩
  case addr   => exact List.forall_mem_cons.mpr ⟨by simp, fun pg hm => by simp [k.addr pg hm]⟩
  case tables =>
    intro t hm
    rw [ht] at hm
    cases hm
    case inl h => simp [k.tables t h]
    case inr h => exact List.mem_append_left _ h
  case live    => exact hd
  case objects => exact List.nodup_cons.mpr ⟨hk, k.objects⟩

theorem remove {mem : Mem} (hm : pg ∈ s.task.pages) (ht : Pte.tables mem p = Pte.tables s.mem p) :
    Books F p {
      task    := { s.task with pages := s.task.pages.erase pg }
      mem
      live    := s.live.erase pg.pa
      objects := s.objects.erase pg.addr
    } := by
  have hs : (s.task.pages.erase pg).Sublist s.task.pages := List.erase_sublist
  have hne (qg : TaskPage) (hq : qg ∈ s.task.pages.erase pg) : qg ≠ pg ∧ qg ∈ s.task.pages :=
    (List.Nodup.mem_erase_iff <| k.vas.of_map _).mp hq
  constructor
  case vas   => exact k.vas.sublist <| hs.map _
  case pas   => exact k.pas.sublist <| hs.map _
  case addrs => exact k.addrs.sublist <| hs.map _
  case va    => exact fun qg hq => k.va qg (hne qg hq).2
  case pa    =>
    intro qg hq
    have ⟨hn, hq⟩ := hne qg hq
    have ⟨h₁, h₂, h₃⟩ := k.pa qg hq
    have hp : qg.pa ≠ pg.pa := fun hc => hn <| List.inj_on_of_nodup_map k.pas hq hm hc
    exact ⟨h₁, (List.mem_erase_of_ne hp).mpr h₂, ht ▸ h₃⟩
  case addr =>
    intro qg hq
    have ⟨hn, hq⟩ := hne qg hq
    have hp : qg.addr ≠ pg.addr := fun hc => hn <| List.inj_on_of_nodup_map k.addrs hq hm hc
    exact (List.mem_erase_of_ne hp).mpr <| k.addr qg hq
  case tables =>
    intro t htm
    rw [ht] at htm
    have hp : t ≠ pg.pa := fun hc => (k.pa pg hm).2.2 <| hc ▸ htm
    exact (List.mem_erase_of_ne hp).mpr <| k.tables t htm
  case live    => exact k.live.erase _
  case objects => exact k.objects.erase _

end Books

-- The new tables and the new page are allocated once.
theorem Answers.nodup (w : Answers s va kmalloc pmem) (hp : pmem 0 ≠ 0) (hl : s.live.Nodup) :
    ((List.range <| pteMapAllocs s.mem s.task.userPte va .page4K).map (fun n => pmem (n + 1)) ++
      pmem 0 :: s.live).Nodup := by
  have hnew (n : Nat) (hn : n ≤ pteMapAllocs s.mem s.task.userPte va .page4K) := w.page hp n hn
  refine List.nodup_append.mpr ⟨?_, List.nodup_cons.mpr ⟨(hnew 0 (Nat.zero_le _)).2, hl⟩, fun t ht t' ht' hc => ?_⟩
  case refine_1 =>
    apply List.Nodup.map_on
    case d => exact List.nodup_range
    case H =>
      intro n hn m hm he
      have hn := List.mem_range.mp hn
      have hm := List.mem_range.mp hm
      by_contra hne
      cases Nat.lt_or_gt_of_ne hne
      case inl hlt => exact w.distinct hp (n + 1) (m + 1) (by omega) (by omega) he
      case inr hlt => exact w.distinct hp (m + 1) (n + 1) (by omega) (by omega) he.symm
  case refine_2 =>
    have ⟨n, hn, he⟩ := List.mem_map.mp ht
    have hn := List.mem_range.mp hn
    cases List.mem_cons.mp (hc ▸ ht')
    case inl h => exact w.distinct hp 0 (n + 1) (by omega) (by omega) <| (he.trans h).symm
    case inr h => exact (hnew (n + 1) (by omega)).2 <| he ▸ h

namespace Inv

variable (i : Inv F p s) (hF : Paged F)

include i

-- An address which is not translated is neither fixed nor listed.
theorem not_listed (ha : Aligned va) (hl : va.toNat < 2 ^ 39) (hw : (pteWalk s.mem s.task.userPte va).flags = 0)
    (v : Maps s.mem p A) (m : Mapped F s.task.pages A) :
    A (va.setWidth 39) = none ∧ F (va.setWidth 39) = none ∧ ∀ pg ∈ s.task.pages, pg.va ≠ va := by
  have hz : (pteWalk s.mem p ((va.setWidth 39).setWidth 64)).flags ≠ 0 ↔ A (va.setWidth 39) ≠ none :=
    v.walk_flags_ne_zero_iff
  rw [setWidth_setWidth hl, ← i.userPte] at hz
  have hA := not_not.mp <| hz.not.mp (not_not.mpr hw)
  have ⟨hf, hn⟩ := m.eq_none_iff.mp hA
  rw [pageBase_setWidth ha hl] at hn
  exact ⟨hA, hf, fun pg hm => by simpa using List.find?_eq_none.mp hn pg hm⟩

include hF

theorem add (c : CanAdd s va flags kmalloc pmem) :
    ∃ page s', (taskAddPage kmalloc pmem va flags).run s = (.ok page, s') ∧ Inv F p s' ∧
      (page = none ∧ s' = s ∨ ∃ pg, page = some pg ∧ pg.va = va ∧ s'.task.pages = pg :: s.task.pages) := by
  by_cases hz : kmalloc = 0 ∨ pmem 0 = 0
  case pos => exact ⟨_, _, taskAddPage_null hz, i, .inl ⟨rfl, rfl⟩⟩
  case neg =>
    simp only [not_or] at hz
    have ⟨A, v, m⟩ := i.mapped
    have ⟨hA, hf, hn⟩ := i.not_listed c.aligned c.lt c.unmapped v m
    have hd := c.answers.nodup hz.2 i.books.live
    have hpa := c.answers.page hz.2
    have hv : ValidFlags flags := by
      have ⟨h, segFlags, he⟩ := c.flags
      exact he ▸ validFlags_taskAuxMapFlags (he ▸ h)
    have hu : Supplies s.mem p (fun n => pmem (n + 1))
        (pteMapAllocs s.mem p ((va.setWidth 39).setWidth 64) .page4K) := by
      rw [setWidth_setWidth c.lt, ← i.userPte]
      constructor
      case fresh =>
        intro n hn
        refine ⟨(hpa (n + 1) (by omega)).1, fun a ha => (hpa (n + 1) (by omega)).2 <| i.books.tables _ ⟨a, ?_⟩⟩
        exact i.userPte ▸ ha
      case distinct => exact fun n m hl hm => c.answers.distinct hz.2 _ _ (by omega) (by omega)
    have ⟨mem', he, ht⟩ := v.pteMap_tables (pmem 0) hv hu hA slot_bits_ge
    have v' := v.map_of_supplies hv hu he
    rw [setWidth_setWidth c.lt, ← i.userPte] at he ht
    refine ⟨_, _, taskAddPage_run hz.1 hz.2 he, ⟨i.userPte, ?_, _, v', ?_⟩, .inr ⟨_, rfl, rfl, rfl⟩⟩
    case refine_1 =>
      exact i.books.add c.aligned c.lt hf hn (c.answers.object hz.1) (hpa 0 (Nat.zero_le _)).1 hd (i.userPte ▸ ht)
    case refine_2 => exact m.add { addr := kmalloc, pa := pmem 0, va } hF c.aligned c.lt hf

theorem remove (va : Word) :
    ∃ found s', (taskRemovePage va).run s = (.ok found, s') ∧ Inv F p s' ∧
      (found = false ∧ s' = s ∧ (∀ pg ∈ s.task.pages, pg.va ≠ va) ∨
        found = true ∧ ∃ pg ∈ s.task.pages, pg.va = va ∧ s'.task.pages = s.task.pages.erase pg ∧
          s'.live = s.live.erase pg.pa) := by
  cases hf : s.task.pages.find? fun pg => pg.va = va
  case none =>
    refine ⟨_, _, taskRemovePage_none hf, i, .inl ⟨rfl, rfl, fun pg hm => ?_⟩⟩
    simpa using List.find?_eq_none.mp hf pg hm
  case some pg =>
    have hm := List.mem_of_find?_eq_some hf
    have he : pg.va = va := by simpa using List.find?_some hf
    have ⟨A, v, m⟩ := i.mapped
    have ⟨ha, hl, hn⟩ := i.books.va pg hm
    have hA : A (pg.va.setWidth 39) ≠ none := by
      rw [ne_eq, m.eq_none_iff, pageBase_setWidth ha hl, find?_eq_some i.books.vas hm]
      simp
    have hu := pteUnmap_ok v.tree (v.xwrv_entry.not.mpr hA)
    have v' := v.unmap hu
    have ht : Pte.tables (s.mem.setEntry p ((pg.va.setWidth 39).setWidth 64) 0) p = Pte.tables s.mem p :=
      v.tree.tables_setEntry child_zero
    rw [setWidth_setWidth hl] at hu v' ht
    refine ⟨_, _, taskRemovePage_run hf ?_ (i.books.pa pg hm).2.1 (i.books.addr pg hm),
      ⟨i.userPte, i.books.remove hm ht, _, v', m.remove hF i.books.vas hm ha hl hn⟩, .inr ⟨rfl, pg, hm, he, rfl, rfl⟩⟩
    rw [i.userPte, ← he, hu]

end Inv

section Fixed

theorem Paged.map (h : Paged F) {m : Mapping} (hs : m.size = .page4K) : Paged (F.map a m) := by
  intro b c hbc
  have hi : SamePage m.size a b ↔ SamePage m.size a c := by
    rw [hs, samePage_iff_pageBase, samePage_iff_pageBase, samePage_iff_pageBase.mp hbc]
  rw [Space.map, Space.map, h b c hbc]
  by_cases hc : SamePage m.size a c
  case pos => rw [if_pos hc, if_pos (hi.mpr hc)]
  case neg => rw [if_neg hc, if_neg (hi.not.mpr hc)]

theorem paged_fixedSpace : Paged (fixedSpace uvecStart tfp ustackPa) :=
  Paged.map (.map (.map (fun _ _ _ => rfl) rfl) rfl) rfl

theorem mem_fixedPages_iff : (pageBase a, pa) ∈ fixedPages uvecStart tfp ustackPa ↔
    ∃ m, fixedSpace uvecStart tfp ustackPa a = some m ∧ align4K m.pa = pa := by
  have h₁ : SamePage .page4K (procVaTrampoline.setWidth 39) a ↔ procVaTrampoline = pageBase a :=
    samePage_setWidth (by decide) (by decide)
  have h₂ : SamePage .page4K (procVaTrapframe.setWidth 39) a ↔ procVaTrapframe = pageBase a :=
    samePage_setWidth (by decide) (by decide)
  have h₃ : SamePage .page4K (procVaUstack.setWidth 39) a ↔ procVaUstack = pageBase a :=
    samePage_setWidth (by decide) (by decide)
  have hn₁ : procVaTrampoline ≠ procVaTrapframe := by decide
  have hn₂ : procVaTrampoline ≠ procVaUstack := by decide
  have hn₃ : procVaTrapframe ≠ procVaUstack := by decide
  simp only [fixedSpace, Space.map, h₁, h₂, h₃, fixedPages, List.mem_cons, Prod.mk.injEq, List.not_mem_nil, or_false]
  generalize pageBase a = b
  by_cases e₃ : procVaUstack = b
  case pos =>
    subst e₃
    simp [hn₂.symm, hn₃.symm, eq_comm]
  case neg =>
    by_cases e₂ : procVaTrapframe = b
    case pos =>
      subst e₂
      simp [hn₁.symm, hn₃, hn₃.symm, eq_comm]
    case neg =>
      by_cases e₁ : procVaTrampoline = b
      case pos =>
        subst e₁
        simp [hn₁, hn₁.symm, hn₂, hn₂.symm, eq_comm]
      case neg => simp [e₁, e₂, e₃, Ne.symm e₁, Ne.symm e₂, Ne.symm e₃]

-- The mappings of `task_create` exist when it is finished.
theorem taskCreateTable_maps {mem : Mem} {ts : TableState} (hp : p ≠ 0)
    (hc : (taskCreateTable pmem uvecStart tfp ustackPa).run { mem, obtained := [] } = (.ok p, ts))
    (d : Distinct ts.obtained) :
    Maps ts.mem p (fixedSpace uvecStart tfp ustackPa) ∧ Pte.tables ts.mem p = { t | t ∈ ts.obtained } := by
  have ⟨q, s₁, h₀, hc⟩ := ExceptT.run_bind_eq_ok.mp hc
  split_ifs at hc with hq
  case pos =>
    cases hc
    exact absurd rfl hp
  case neg =>
    have ⟨_, s₂, h₁, hc⟩ := ExceptT.run_bind_eq_ok.mp hc
    have ⟨_, s₃, h₂, hc⟩ := ExceptT.run_bind_eq_ok.mp hc
    have ⟨_, s₄, h₃, hc⟩ := ExceptT.run_bind_eq_ok.mp hc
    cases hc
    have d₃ := d.of_prefix <| mapPage_obtained h₃
    have d₂ := d₃.of_prefix <| mapPage_obtained h₂
    have ⟨v₁, ht₁⟩ := createTable_maps hq h₀
    have ⟨v₂, ht₂⟩ := mapPage_maps v₁ ht₁ (by decide) h₁ d₂
    have ⟨v₃, ht₃⟩ := mapPage_maps v₂ ht₂ (by decide) h₂ d₃
    exact mapPage_maps v₃ ht₃ (by decide) h₃ d

end Fixed

theorem Created.inv (c : Created pmem uvecStart tfp ustackPa s) :
    Inv (fixedSpace uvecStart tfp ustackPa) s.task.userPte s := by
  have ⟨mem, ts, hc, hm, d, ho⟩ := c.table
  have ⟨hp, hl, _⟩ := c.task
  have ⟨v, ht⟩ := taskCreateTable_maps hp hc d
  rw [← hm] at v ht
  refine ⟨rfl, ?_, _, v, ?_⟩
  case refine_1 =>
    constructor
    case tables =>
      rw [ht]
      exact ho
    case live    => exact c.live
    case objects => exact c.objects
    all_goals simp [hl]
  case refine_2 =>
    refine ⟨fun _ _ => rfl, fun va hn => ?_⟩
    simp [hl, hn]

theorem Created.listed (c : Created pmem uvecStart tfp ustackPa s) (va : Word) :
    va ∈ s.task.pages.map (·.va) ↔ va ∈ (∅ : Set Word) := by
  simp [c.task.2.1]

theorem Inv.step {op : TaskOp} (i : Inv F p s) (hF : Paged F) (e : Step s op s') :
    Inv F p s' ∧ ∀ vas, (∀ va, va ∈ s.task.pages.map (·.va) ↔ va ∈ vas) →
      ∀ va, va ∈ s'.task.pages.map (·.va) ↔ va ∈ op.apply vas := by
  cases e
  case add va' flags kmalloc pmem page c h =>
    have ⟨_, _, he, i', ho⟩ := i.add hF c
    cases h.symm.trans he
    refine ⟨i', fun vas hv va => ?_⟩
    cases ho
    case inl ho => simp [TaskOp.apply, ho, hv va]
    case inr ho =>
      have ⟨pg, hp, hva, hl⟩ := ho
      rw [hl, hp, List.map_cons, List.mem_cons, hv va, hva]
      rfl
  case remove va' found h =>
    have ⟨_, _, he, i', ho⟩ := i.remove hF va'
    cases h.symm.trans he
    refine ⟨i', fun vas hv va => ?_⟩
    cases ho
    case inl ho =>
      have ⟨_, hs, hn⟩ := ho
      rw [hs, hv va, TaskOp.apply, Set.mem_sdiff, Set.mem_singleton_iff, iff_self_and]
      intro hva hc
      have ⟨pg, hm, hp⟩ := List.mem_map.mp <| (hv va).mpr hva
      exact hn pg hm <| hp.trans hc
    case inr ho =>
      have ⟨_, pg, hm, hp, hl, _⟩ := ho
      have hd := i.books.vas.of_map _
      rw [hl, TaskOp.apply, Set.mem_sdiff, ← hv va, Set.mem_singleton_iff]
      simp only [List.mem_map, hd.mem_erase_iff]
      constructor
      case mp =>
        intro ⟨qg, ⟨hn, hq⟩, hva⟩
        refine ⟨⟨qg, hq, hva⟩, fun hc => hn ?_⟩
        exact List.inj_on_of_nodup_map i.books.vas hq hm <| hva.trans <| hc.trans hp.symm
      case mpr =>
        intro ⟨⟨qg, hq, hva⟩, hn⟩
        refine ⟨qg, ⟨fun hc => hn ?_, hq⟩, hva⟩
        rw [← hva, hc, hp]

theorem Inv.run {ops : List TaskOp} {vas : Set Word} (i : Inv F p s) (hF : Paged F)
    (hv : ∀ va, va ∈ s.task.pages.map (·.va) ↔ va ∈ vas) (r : Run Step s ops s') :
    Inv F p s' ∧ ∀ va, va ∈ s'.task.pages.map (·.va) ↔ va ∈ ops.foldl TaskOp.apply vas := by
  induction r generalizing vas
  case nil          => exact ⟨i, hv⟩
  case cons e _ hi  =>
    have ⟨i', hv'⟩ := i.step hF e
    exact hi i' <| hv' vas hv

theorem walk_eq_iff {mem : Mem} (v : Maps mem p A) (a : BitVec 39) (pa : Word) :
    (pteWalk mem p (a.setWidth 64)).flags ≠ 0 ∧ (pteWalk mem p (a.setWidth 64)).addr = pa ↔
      ∃ m, A a = some m ∧ align4K m.pa = pa := by
  have hz : (pteWalk mem p (a.setWidth 64)).flags ≠ 0 ↔ A a ≠ none := v.walk_flags_ne_zero_iff
  rw [hz]
  cases hm : A a
  case none   => simp
  case some m => simp [v.walk_some hm]

theorem Inv.translated (i : Inv (fixedSpace uvecStart tfp ustackPa) p s) (a : BitVec 39) (pa : Word) :
    (pteWalk s.mem s.task.userPte (a.setWidth 64)).flags ≠ 0 ∧
      (pteWalk s.mem s.task.userPte (a.setWidth 64)).addr = pa ↔
    (pageBase a, pa) ∈ fixedPages uvecStart tfp ustackPa ∨ ∃ pg ∈ s.task.pages, pg.va = pageBase a ∧ pg.pa = pa := by
  have ⟨A, v, m⟩ := i.mapped
  rw [i.userPte, walk_eq_iff v, mem_fixedPages_iff]
  by_cases hf : fixedSpace uvecStart tfp ustackPa a = none
  case pos =>
    have hl := m.listed a hf
    constructor
    case mp =>
      intro ⟨n, hn, hp⟩
      rw [hn] at hl
      have ⟨pg, hg, he⟩ := Option.map_eq_some_iff.mp hl.symm
      have hm := List.mem_of_find?_eq_some hg
      have hpa : pg.pa = n.pa := congrArg Prod.fst he
      refine .inr ⟨pg, hm, by simpa using List.find?_some hg, ?_⟩
      rw [← hp, ← hpa, (i.books.pa pg hm).1]
    case mpr =>
      intro h
      cases h
      case inl h => simp [hf] at h
      case inr h =>
        have ⟨pg, hm, hva, hpa⟩ := h
        rw [← hva, find?_eq_some i.books.vas hm] at hl
        have ⟨n, hn, he⟩ := Option.map_eq_some_iff.mp hl
        have he : n.pa = pg.pa := congrArg Prod.fst he
        refine ⟨n, hn, ?_⟩
        rw [he, ← hpa, (i.books.pa pg hm).1]
  case neg =>
    rw [m.fixed a hf, or_iff_left]
    intro ⟨pg, hm, hva, _⟩
    have ⟨ha, hl, hn⟩ := i.books.va pg hm
    exact hf <| paged_fixedSpace _ _ ((samePage_setWidth ha hl).mpr hva) ▸ hn

section RemoveAll

-- The loop of `task_remove_all_page` from a state where the pages `pages` are left.
theorem forM_removePage_run (hl : s.task.pages = pages) (hd : (pages.map (·.pa)).Nodup) (hp : ∀ pg ∈ pages, pg.pa ∈ s.live)
    (ha : (pages.map (·.addr)).Nodup) (ho : ∀ pg ∈ pages, pg.addr ∈ s.objects) :
    ∃ s', (pages.forM removePage).run s = (.ok (), s') ∧ s'.task.pages = [] ∧
      s.live.Perm (pages.map (·.pa) ++ s'.live) := by
  induction pages generalizing s
  case nil => exact ⟨s, rfl, hl, .refl _⟩
  case cons pg pages hi =>
    have ⟨hpn, hd⟩ := List.nodup_cons.mp hd
    have ⟨han, ha⟩ := List.nodup_cons.mp ha
    have ⟨hpm, hp⟩ := List.forall_mem_cons.mp hp
    have ⟨hom, ho⟩ := List.forall_mem_cons.mp ho
    have he := removePage_run hpm hom
    have hl : s.task.pages.erase pg = pages := by rw [hl, List.erase_cons_head]
    have hlp (qg : TaskPage) (hq : qg ∈ pages) : qg.pa ∈ s.live.erase pg.pa := by
      have hn : qg.pa ≠ pg.pa := fun hc => hpn <| List.mem_map.mpr ⟨qg, hq, hc⟩
      exact (List.mem_erase_of_ne hn).mpr <| hp qg hq
    have hlo (qg : TaskPage) (hq : qg ∈ pages) : qg.addr ∈ s.objects.erase pg.addr := by
      have hn : qg.addr ≠ pg.addr := fun hc => han <| List.mem_map.mpr ⟨qg, hq, hc⟩
      exact (List.mem_erase_of_ne hn).mpr <| ho qg hq
    have ⟨s', (hr : (pages.forM removePage).run _ = _), hn, hperm⟩ := @hi {
      s with
      task    := { s.task with pages := s.task.pages.erase pg }
      live    := s.live.erase pg.pa
      objects := s.objects.erase pg.addr
    } hl hd hlp ha hlo
    refine ⟨s', (ExceptT.run_forM_cons he).trans hr, hn, ?_⟩
    exact (List.perm_cons_erase hpm).trans <| hperm.cons pg.pa

-- All pages are freed once.
theorem Inv.removeAll (i : Inv F p s) : ∃ s', taskRemoveAllPage.run s = (.ok (), s') ∧ s'.task.pages = [] ∧
    s.live.Perm (s.task.pages.map (·.pa) ++ s'.live) := by
  rw [taskRemoveAllPage, ExceptT.run_bind_ok get_run]
  exact forM_removePage_run rfl i.books.pas (fun pg hm => (i.books.pa pg hm).2.1) i.books.addrs i.books.addr

end RemoveAll

-- The calls keep the list, the table and the allocations of a task consistent. They do not fail.
theorem Created.pages_consistent {s₀ : TaskState} {ops : List TaskOp} (c : Created pmem uvecStart tfp ustackPa s₀)
    (r : Run Step s₀ ops s) :
    Consistent (fixedPages uvecStart tfp ustackPa) (ops.foldl TaskOp.apply ∅) s ∧
    (∀ va flags kmalloc pmem, CanAdd s va flags kmalloc pmem →
      ∃ page s', (taskAddPage kmalloc pmem va flags).run s = (.ok page, s') ∧ (page = none → s' = s)) ∧
    (∀ va, ∃ found s', (taskRemovePage va).run s = (.ok found, s') ∧
      (found = false ↔ va ∉ s.task.pages.map (·.va)) ∧
      (found = true → ∃ pg ∈ s.task.pages, pg.va = va ∧ s'.live = s.live.erase pg.pa ∧ pg.pa ∉ s'.live)) ∧
    ∃ s', taskRemoveAllPage.run s = (.ok (), s') ∧ s'.task.pages = [] ∧
      s.live.Perm (s.task.pages.map (·.pa) ++ s'.live) := by
  have ⟨i, hv⟩ := c.inv.run paged_fixedSpace c.listed r
  refine ⟨?_, fun va flags kmalloc pmem h => ?_, fun va => ?_, i.removeAll⟩
  case refine_1 =>
    exact {
      nodup      := i.books.vas
      listed     := hv
      translated := i.translated
      live       := ⟨i.books.pas, i.books.live, fun pg hm => (i.books.pa pg hm).2.1⟩
    }
  case refine_2 =>
    have ⟨page, s', he, _, ho⟩ := i.add paged_fixedSpace h
    refine ⟨page, s', he, fun hn => ?_⟩
    cases ho
    case inl ho => exact ho.2
    case inr ho =>
      have ⟨_, hp, _⟩ := ho
      cases hn.symm.trans hp
  case refine_3 =>
    have ⟨found, s', he, _, ho⟩ := i.remove paged_fixedSpace va
    refine ⟨found, s', he, ?_⟩
    cases ho
    case inl ho =>
      have ⟨hf, _, hn⟩ := ho
      simpa [hf] using hn
    case inr ho =>
      have ⟨hf, pg, hm, hva, _, hl⟩ := ho
      refine ⟨by simpa [hf] using ⟨pg, hm, hva⟩, fun _ => ⟨pg, hm, hva, hl, ?_⟩⟩
      rw [hl]
      exact i.books.live.not_mem_erase

-- The task that is used in the following examples. The pages from `page 10` on are free.
def sample : TaskState where
  task    := { userPte := 0x2000, pages := [], maxWritablePage := 0 }
  mem     := ((taskCreateTable Pte.page 0x80001000 0x81000000 0x82000000).run { mem := fun _ _ => 0, obtained := [] }).2.mem
  live    := [0x2000, 0x3000, 0x4000]
  objects := []

def freePage (n : Nat) : Word :=
  Pte.page (n + 10)

theorem sample_created : Created Pte.page 0x80001000 0x81000000 0x82000000 sample where
  table := by
    have hd : ∀ t ∈ [(0x2000 : Word), 0x3000, 0x4000], Aligned t :=
      List.forall_mem_cons.mpr ⟨by decide, List.forall_mem_cons.mpr ⟨by decide, List.forall_mem_singleton.mpr <| by decide⟩⟩
    exact ⟨fun _ _ => 0, { mem := sample.mem, obtained := [0x2000, 0x3000, 0x4000] }, rfl, rfl, ⟨by decide, hd⟩, fun _ => id⟩
  task    := ⟨by decide, rfl, rfl⟩
  live    := by decide
  objects := .nil

theorem sample_answers : Answers sample 0x10000 0x500 freePage where
  object _        := List.not_mem_nil
  page _ n hn     := by
    have hn := hn.trans pteMapAllocs_le
    interval_cases n <;> decide
  distinct _ n m hl hm := by
    have hm := hm.trans pteMapAllocs_le
    interval_cases m <;> interval_cases n <;> decide

theorem sample_unmapped : (pteWalk sample.mem 0x2000 0x10000).flags = 0 := by
  decide +kernel

-- The task with one page.
def sampleAdded : TaskState :=
  ((taskAddPage 0x500 freePage 0x10000 (taskAuxMapFlags 5)).run sample).2

theorem sampleAdded_answers : Answers sampleAdded 0x11000 0x540 fun n => freePage (n + 3) where
  object _        := by decide +kernel
  page _ n hn     := by
    have hn := hn.trans pteMapAllocs_le
    interval_cases n <;> decide +kernel
  distinct _ n m hl hm := by
    have hm := hm.trans pteMapAllocs_le
    interval_cases m <;> interval_cases n <;> decide

-- Two pages are added, and the first one is removed.
theorem sample_consistent : ∃ s,
    Run Step sample [.add 0x10000 (taskAuxMapFlags 5) (some ⟨0x500, 0xc000, 0x10000⟩),
      .add 0x11000 (taskAuxMapFlags 6) (some ⟨0x540, 0xf000, 0x11000⟩), .remove 0x10000 true] s ∧
    Consistent (fixedPages 0x80001000 0x81000000 0x82000000) {0x11000} s := by
  have c₁ : CanAdd sample 0x10000 (taskAuxMapFlags 5) 0x500 freePage :=
    ⟨by decide, by decide, sample_unmapped, ⟨by decide, 5, rfl⟩, sample_answers⟩
  have c₂ : CanAdd sampleAdded 0x11000 (taskAuxMapFlags 6) 0x540 fun n => freePage (n + 3) :=
    ⟨by decide, by decide, by decide +kernel, ⟨by decide, 6, rfl⟩, sampleAdded_answers⟩
  have e₂ : Step sampleAdded (.add 0x11000 (taskAuxMapFlags 6) (some ⟨0x540, 0xf000, 0x11000⟩)) _ := .add c₂ rfl
  have r : Run Step sample [.add 0x10000 (taskAuxMapFlags 5) (some ⟨0x500, 0xc000, 0x10000⟩),
    .add 0x11000 (taskAuxMapFlags 6) (some ⟨0x540, 0xf000, 0x11000⟩)] _ := .cons (.add c₁ rfl) <| .single e₂
  obtain ⟨h, _, hr, _⟩ := sample_created.pages_consistent r
  obtain ⟨found, s, he, hf, _⟩ := hr 0x10000
  have hm := (h.listed 0x10000).mpr <| by simp [TaskOp.apply]
  cases found
  case false => exact absurd hm <| hf.mp rfl
  case true  =>
    have r' := r.append <| .single <| .remove he
    refine ⟨s, r', ?_⟩
    have h' := (sample_created.pages_consistent r').1
    have hv : ({0x11000, 0x10000} : Set Word) \ {0x10000} = {0x11000} := by
      ext va
      simp
    simpa [TaskOp.apply, hv] using h'

-- A page without flags is listed, but not mapped. It cannot be removed.
theorem sample_inconsistent : Created Pte.page 0x80001000 0x81000000 0x82000000 sample ∧
    (pteWalk sample.mem 0x2000 0x10000).flags = 0 ∧ Answers sample 0x10000 0x500 freePage ∧
    ∃ pg s', (taskAddPage 0x500 freePage 0x10000 (taskAuxMapFlags 0)).run sample = (.ok (some pg), s') ∧
      pg.va = 0x10000 ∧ pg ∈ s'.task.pages ∧ (pteWalk s'.mem s'.task.userPte pg.va).flags = 0 ∧
      ((taskRemovePage 0x10000).run s').1 = .error .panic := by
  refine ⟨sample_created, sample_unmapped, sample_answers, ⟨0x500, 0xc000, 0x10000⟩, _, rfl, rfl, List.mem_cons_self, ?_, ?_⟩
  case refine_1 => decide +kernel
  case refine_2 => rfl

end Zgmos.Process
