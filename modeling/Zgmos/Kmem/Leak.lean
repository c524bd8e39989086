import Zgmos.Kmem.World

namespace Zgmos.Kmem

namespace Heap

-- The slab `d` is on a list of the cache `c`.
def On (h : Heap) (c d : Nat) : Prop :=
  ∃ (f : Fill) (xs : List Nat), h.links.Ring (f.head c) xs ∧ d ∈ xs

-- The descriptors of slabs that can be allocated.
def Spare (h : Heap) (fl : List Nat) : Prop :=
  Chain (link h.links.prev) (ptr (h.slabs h.pslab).objs) fl ∧ fl.Nodup

-- Apart from the pages of the static slabs, exactly the pages and the descriptors of the slabs on the lists of the
-- caches `cs` are in use.
def Ledger (h : Heap) (cs : List Nat) : Prop :=
  ∃ slabs fl : List Nat, slabs.Nodup ∧ (∀ d, d ∈ slabs ↔ ∃ c ∈ cs, h.On c d) ∧
    h.pages.Perm (h.block h.metaSlab :: h.block h.kmemCacheSlab :: h.block h.pslab :: slabs.map h.block) ∧
    h.Spare fl ∧ ∀ d, (h.slabs h.pslab).Obj d → (d ∈ fl ↔ d ∉ slabs)

end Heap

variable {h h' : Heap} {v v' : View} {c d : Nat}

theorem Core.on_iff (k : Core h v) (hc : c ∈ v.objs h.kmemCacheSlab) : h.On c d ↔ ∃ f : Fill, d ∈ v.mem (f.head c) := by
  constructor
  case mp  => exact fun ⟨f, xs, r, hd⟩ => ⟨f, (k.ring f hc).unique r ▸ hd⟩
  case mpr => exact fun ⟨f, hd⟩ => ⟨f, _, k.ring f hc, hd⟩

theorem Core.exists_spare (k : Core h v) : ∃ fl, h.Spare fl ∧
    ∀ d, d ∈ fl ↔ (h.slabs h.pslab).Place d ∧ d ∉ v.objs h.pslab := by
  have ⟨fl, hc, hd, hm⟩ := (k.sound Core.pslab_mem).list
  exact ⟨fl, ⟨hc, hd.imp Nat.ne_of_lt⟩, hm⟩

namespace World

variable {s : World} {r : Except Fault World} {uses : List Use} {t : Prop}

theorem Holds.ledger (k : s.Holds t v) (ht : t) : s.heap.Ledger (s.classes ++ s.caches) := by
  have i := k.inv
  have ⟨fl, hsp, hfl⟩ := i.exists_spare
  refine ⟨v.objs s.heap.pslab, fl, (i.sound Core.pslab_mem).nodup, fun d => ?_, i.pages, hsp, fun d ho => ?_⟩
  case refine_1 =>
    constructor
    case mp =>
      intro hd
      have ho := k.kept ht hd
      have ⟨f, _, hm⟩ := i.settled hd ho
      have hc := (i.child hd ho).owner
      exact ⟨v.owner d, k.mem_caches.mp hc, (i.on_iff hc).mpr ⟨f, hm⟩⟩
    case mpr =>
      intro ⟨c, hc, hon⟩
      have hc := k.mem_caches.mpr hc
      have ⟨f, hm⟩ := (i.on_iff hc).mp hon
      exact (i.owner_of_mem hc hm).1
  case refine_2 =>
    have hp := (i.sound Core.pslab_mem).place_of_obj ho
    rw [hfl]
    exact and_iff_right hp

-- The shrinking of a cache of which at least two objects fit into a slab.
theorem Holds.releases_empty (k : s.Holds t v) (ht : t) (hc : c ∈ s.classes ++ s.caches) :
    ∃ h' released fl fl', (kmemCacheShrink c).run s.heap = .ok ((), h') ∧
      (∀ d, h'.On c d → ∃ a, (a, c) ∈ s.live ∧ slabContain (h'.slabs d) a) ∧
      (∀ d, d ∈ released ↔ s.heap.On c d ∧ ¬h'.On c d) ∧ released.Nodup ∧
      s.heap.pages.Perm (released.map s.heap.block ++ h'.pages) ∧
      s.heap.Spare fl ∧ h'.Spare fl' ∧ fl'.Perm (released ++ fl) ∧ h'.Ledger (s.classes ++ s.caches) := by
  obtain ⟨h', v', hr, g, he, k'⟩ := k.shrunk hc
  have i := k.inv
  have i' := g.inv
  have hcm := k.mem_caches.mpr hc
  have hcm' : c ∈ v'.objs h'.kmemCacheSlab := k'.mem_caches.mpr hc
  have hmem : ∀ {f : Fill}, f ≠ .empty → v'.mem (f.head c) = v.mem (f.head c) := fun hf => g.mem fun he =>
    hf (i.head_inj (g := .empty) hcm hcm he).2
  obtain ⟨fl, hsp, hfl⟩ := i.exists_spare
  obtain ⟨fl', hsp', hfl'⟩ := i'.exists_spare
  have hnd : (v.mem <| slabFreeOf c).Nodup := (List.nodup_cons.mp (i.ring .empty hcm).nodup).2
  refine ⟨h', v.mem (slabFreeOf c), fl, fl', hr, fun d hd => ?_, fun d => ?_, hnd, g.pages, hsp, hsp', ?_, k'.ledger ht⟩
  case refine_1 =>
    obtain ⟨f, hm⟩ := (i'.on_iff hcm').mp hd
    have hf : f ≠ .empty := fun hf => by
      subst hf
      rw [Fill.head, he] at hm
      cases hm
    obtain ⟨a, ha, hl⟩ := k'.exists_live ht hc hm hf
    have hd := (i'.owner_of_mem hcm' hm).1
    exact ⟨a, hl, (i'.contain_iff hd ha hd).mpr rfl⟩
  case refine_2 =>
    rw [i.on_iff hcm, i'.on_iff hcm']
    constructor
    case mp =>
      intro hd
      refine ⟨⟨.empty, hd⟩, fun hx => ?_⟩
      obtain ⟨f, hm⟩ := hx
      by_cases hf : f = .empty
      case pos =>
        subst hf
        rw [Fill.head, he] at hm
        cases hm
      case neg => exact hf <| i.fill_unique hcm (hmem hf ▸ hm) hd
    case mpr =>
      rintro ⟨⟨f, hd⟩, hn⟩
      by_cases hf : f = .empty
      case pos =>
        subst hf
        exact hd
      case neg => exact absurd ⟨f, (hmem hf).symm ▸ hd⟩ hn
  case refine_3 =>
    have hno := (i.sound Core.pslab_mem).nodup
    have hsub : ∀ d ∈ v.mem (slabFreeOf c), d ∈ v.objs s.heap.pslab := fun d hd =>
      (i.owner_of_mem (f := .empty) hcm hd).1
    have hdis : ∀ d ∈ v.mem (slabFreeOf c), d ∉ v'.objs s.heap.pslab := fun d hd hd' =>
      List.disjoint_of_nodup_append (g.descs.nodup_iff.mp hno) hd hd'
    have happ : (v.mem (slabFreeOf c) ++ fl).Nodup := by
      refine List.nodup_append'.mpr ⟨hnd, hsp.2, fun d hd hd' => ?_⟩
      exact ((hfl d).mp hd').2 <| hsub d hd
    refine (List.perm_ext_iff_of_nodup hsp'.2 happ).mpr fun d => ?_
    rw [List.mem_append, hfl, hfl', g.frame.pslab, g.place, g.descs.mem_iff, List.mem_append, not_or]
    constructor
    case mp =>
      rintro ⟨hp, hn⟩
      by_cases hd : d ∈ v.mem (slabFreeOf c)
      case pos => exact .inl hd
      case neg => exact .inr ⟨hp, hd, hn⟩
    case mpr =>
      intro hd
      cases hd
      case inl hd => exact ⟨i.obj_place Core.pslab_mem <| hsub d hd, hdis d hd⟩
      case inr hd => exact ⟨hd.1, hd.2.2⟩

-- The end of such a cache, of which no object is live.
theorem Holds.releases_all (k : s.Holds t v) (ht : t) (hc : c ∈ s.caches) (hl : ∀ a, (a, c) ∉ s.live) :
    ∃ h', (kmemCacheDestory c).run s.heap = .ok ((), h') ∧ h'.Ledger (s.classes ++ s.caches.erase c) := by
  have ⟨h₁, v₁, hr, _, he, k₁⟩ := k.shrunk <| List.mem_append_right _ hc
  have ⟨h', hr', _, _, _, k'⟩ := k₁.dropped hc hl he
  exact ⟨h', Inv.kmemCacheDestory_run hr hr', k'.ledger ht⟩

-- If two objects fit into a slab of each cache that is created, then no slab without live objects outlives the
-- shrinking of its cache, and its pages and its descriptor are given back once.
theorem run_kmemCacheShrink_releases (h : s.Start) (e : Run Step (.ok s) uses r)
    (hu : ∀ size, .cacheCreate size ∈ uses → 2 * size ≤ pageSize * 2 ^ kmemCacheCslabOrder) :
    ∃ s', r = .ok s' ∧ s'.heap.Ledger (s'.classes ++ s'.caches) ∧ (∀ c ∈ s'.classes ++ s'.caches,
      ∃ h' released fl fl', (kmemCacheShrink c).run s'.heap = .ok ((), h') ∧
        (∀ d, h'.On c d → ∃ a, (a, c) ∈ s'.live ∧ slabContain (h'.slabs d) a) ∧
        (∀ d, d ∈ released ↔ s'.heap.On c d ∧ ¬h'.On c d) ∧ released.Nodup ∧
        s'.heap.pages.Perm (released.map s'.heap.block ++ h'.pages) ∧
        s'.heap.Spare fl ∧ h'.Spare fl' ∧ fl'.Perm (released ++ fl) ∧ h'.Ledger (s'.classes ++ s'.caches)) ∧
      ∀ c ∈ s'.caches, (∀ a, (a, c) ∉ s'.live) →
        ∃ h', (kmemCacheDestory c).run s'.heap = .ok ((), h') ∧ h'.Ledger (s'.classes ++ s'.caches.erase c) := by
  have ⟨s', v, hr, k⟩ := Holds.run (t := True) h e fun _ => hu
  exact ⟨s', hr, k.ledger trivial, fun c hc => k.releases_empty trivial hc, fun c hc hl => k.releases_all trivial hc hl⟩

-- A cache with two objects in each slab.
theorem booted_kmemCacheShrink_releases : ∃ s,
    Run Step (.ok booted) [.cacheCreate 4096, .cacheAlloc 0x80020288, .cacheFree 0x80020288 0x80040000] (.ok s) ∧
      s.live = [] ∧ s.caches = [0x80020288] ∧
      ∃ h', (kmemCacheDestory 0x80020288).run s.heap = .ok ((), h') ∧ h'.Ledger s.classes := by
  have hf : booted.found [.cacheCreate 4096, .cacheAlloc 0x80020288, .cacheFree 0x80020288 0x80040000]
    (fun s => (s.live, s.caches)) = some ([], [0x80020288]) := by decide +kernel
  obtain ⟨s, e, hs⟩ := run_of_found hf
  obtain ⟨hl, hc⟩ := Prod.mk.inj hs
  obtain ⟨s', he, _, _, hd⟩ := run_kmemCacheShrink_releases booted_start e (by simp [pageSize, kmemCacheCslabOrder])
  cases he
  obtain ⟨h', hr, hled⟩ := hd 0x80020288 (by simp [hc]) (by simp [hl])
  refine ⟨s, e, hl, hc, h', hr, ?_⟩
  simpa [hc] using hled

-- With one object in each slab, the slab of an object that has been released stays on the list `slab_partial`.
theorem booted_not_kmemCacheShrink_releases : ∃ s,
    Run Step (.ok booted) [.cacheCreate 8192, .cacheAlloc 0x80020288, .cacheFree 0x80020288 0x80040000] (.ok s) ∧
      s.live = [] ∧
      (∃ h', (kmemCacheShrink 0x80020288).run s.heap = .ok ((), h') ∧ h'.On 0x80020288 0x80030000) ∧
      ∃ h', (kmemCacheDestory 0x80020288).run s.heap = .ok ((), h') ∧ (0x80040000, 1) ∈ h'.pages := by
  have hf : booted.found [.cacheCreate 8192, .cacheAlloc 0x80020288, .cacheFree 0x80020288 0x80040000] (fun s =>
    (s.live,
      ((kmemCacheShrink 0x80020288).run s.heap).toOption.map fun p =>
        decide (p.2.links.Ring (Fill.mixed.head 0x80020288) [0x80030000]),
      ((kmemCacheDestory 0x80020288).run s.heap).toOption.map fun p => decide ((0x80040000, 1) ∈ p.2.pages))) =
        some ([], some true, some true) := by decide +kernel
  have ⟨s, e, hs⟩ := run_of_found hf
  have ⟨hl, hs⟩ := Prod.mk.inj hs
  have ⟨h₁, h₂⟩ := Prod.mk.inj hs
  refine ⟨s, e, hl, ?_, ?_⟩
  case refine_1 =>
    cases hr : (kmemCacheShrink 0x80020288).run s.heap
    case error => rw [hr] at h₁; cases h₁
    case ok p  =>
      rw [hr] at h₁
      exact ⟨p.2, rfl, .mixed, _, of_decide_eq_true <| Option.some.inj h₁, .head _⟩
  case refine_2 =>
    cases hr : (kmemCacheDestory 0x80020288).run s.heap
    case error => rw [hr] at h₂; cases h₂
    case ok p  =>
      rw [hr] at h₂
      exact ⟨p.2, rfl, of_decide_eq_true <| Option.some.inj h₂⟩

end World

end Zgmos.Kmem
