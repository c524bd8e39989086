import Zgmos.Kmem.Chain
import Zgmos.Lib.Run

namespace Zgmos.Kmem

-- The allocator together with the caches on its list, the other caches, and the live objects with their caches.
structure World where
  heap    : Heap
  classes : List Nat
  caches  : List Nat
  live    : List (Nat × Nat)

namespace World

-- The operations. An allocation that fails returns the null pointer.

def cacheCreate (s : World) (size : Nat) : Except Fault World := do
  let (kc, heap) ← (kmemCacheCreate size).run s.heap
  return { s with heap, caches := kc :: s.caches }

def cacheAlloc (s : World) (c : Nat) : Except Fault World := do
  let (ret, heap) ← (kmemCacheAlloc c).run s.heap
  return { s with heap, live := if ret = 0 then s.live else (ret, c) :: s.live }

def cacheFree (s : World) (c a : Nat) : Except Fault World := do
  let ((), heap) ← (kmemCacheFree c a).run s.heap
  return { s with heap, live := s.live.erase (a, c) }

def cacheShrink (s : World) (c : Nat) : Except Fault World := do
  let ((), heap) ← (kmemCacheShrink c).run s.heap
  return { s with heap }

def cacheDestory (s : World) (c : Nat) : Except Fault World := do
  let ((), heap) ← (kmemCacheDestory c).run s.heap
  return { s with heap, caches := s.caches.erase c }

-- The cache on the list that `kmem_alloc` uses.
def classOf (s : World) (n : Nat) : Nat :=
  s.classes.find? (n ≤ s.heap.objsize ·) |>.getD 0

def alloc (s : World) (n : Nat) : Except Fault World := do
  let (ret, heap) ← (kmemAlloc n).run s.heap
  return { s with heap, live := if ret = 0 then s.live else (ret, s.classOf n) :: s.live }

def free (s : World) (a : Nat) : Except Fault World := do
  let ((), heap) ← (kmemFree a).run s.heap
  return { s with heap, live := s.live.filter (·.1 ≠ a) }

def shrink (s : World) : Except Fault World := do
  let ((), heap) ← (kmemShrink).run s.heap
  return { s with heap }

inductive Use
  | cacheCreate (size : Nat)
  | cacheAlloc (c : Nat)
  | cacheFree (c a : Nat)
  | cacheShrink (c : Nat)
  | cacheDestory (c : Nat)
  | alloc (n : Nat)
  | free (a : Nat)
  | shrink
  | write (links : Links Nat)

-- The word at `a` belongs to no live object.
def Foreign (s : World) (a : Nat) : Prop :=
  ∀ b ∈ s.live, a + 8 ≤ b.1 ∨ b.1 + s.heap.objsize b.2 ≤ a

-- A cache is created if there is a descriptor for it, and destroyed if it has no live objects and is not on the list.
-- The owners of the objects write to them.
inductive Step : Except Fault World → Use → Except Fault World → Prop
  | cacheCreate (h : 0 < size ∧ 8 ∣ size ∧ size ≤ pageSize * 2 ^ kmemCacheCslabOrder)
    (hf : ¬slabFull (s.heap.slabs s.heap.kmemCacheSlab)) : Step (.ok s) (.cacheCreate size) (s.cacheCreate size)
  | cacheAlloc (h : c ∈ s.classes ++ s.caches) : Step (.ok s) (.cacheAlloc c) (s.cacheAlloc c)
  | cacheFree (h : (a, c) ∈ s.live) : Step (.ok s) (.cacheFree c a) (s.cacheFree c a)
  | cacheShrink (h : c ∈ s.classes ++ s.caches) : Step (.ok s) (.cacheShrink c) (s.cacheShrink c)
  | cacheDestory (h : c ∈ s.caches) (hl : ∀ a, (a, c) ∉ s.live) : Step (.ok s) (.cacheDestory c) (s.cacheDestory c)
  | alloc : Step (.ok s) (.alloc n) (s.alloc n)
  | free (h : (a, c) ∈ s.live) : Step (.ok s) (.free a) (s.free a)
  | shrink : Step (.ok s) .shrink s.shrink
  | write (hp : ∀ a, s.Foreign a → links.prev a = s.heap.links.prev a)
    (hn : ∀ a, s.Foreign (a + 8) → links.next a = s.heap.links.next a) :
    Step (.ok s) (.write links) (.ok { s with heap := { s.heap with links } })

-- The world behind `kmem_init`, if all of its slabs could be created.
structure Start (s : World) : Prop where
  boot    : ∃ h : Heap, h.pages = [] ∧ h.locked = false ∧ (kmemInit).run h = .ok ((), s.heap)
  pslab   : s.heap.pslab ≠ 0
  classes : s.heap.links.Ring s.heap.cacheList s.classes
  caches  : s.caches = []
  live    : s.live = []

-- The invariant of all runs. If `t` holds, then at least two objects of each cache fit into a slab, and none is lost.
structure Holds (t : Prop) (s : World) (v : View) : Prop where
  inv      : Inv s.heap v
  unlocked : s.heap.locked = false
  list     : v.mem s.heap.cacheList = s.classes
  sizes    : s.classes.map s.heap.objsize = kmemCacheSizeList
  caches   : (v.objs s.heap.kmemCacheSlab).Perm (s.classes ++ s.caches)
  live     : (a, c) ∈ s.live ↔ c ∈ v.objs s.heap.kmemCacheSlab ∧ s.heap.Live v a c
  nodup    : s.live.Nodup
  pairs    : t → c ∈ v.objs s.heap.kmemCacheSlab → 2 * s.heap.objsize c ≤ pageSize * 2 ^ kmemCacheCslabOrder
  kept     : t → d ∈ v.objs s.heap.pslab → v.owner d ≠ 0

namespace Holds

variable {t : Prop} {s s' : World} {v v' : View} {h' : Heap} {a c d n ret size : Nat} {use : Use} {r : Except Fault World}

theorem init (h : s.Start) : ∃ v, s.Holds t v := by
  have ⟨h₀, hp, hl, hr⟩ := h.boot
  have ⟨v, b⟩ := kmemInit_spec hp hl hr h.pslab
  have he : v.mem s.heap.cacheList = s.classes := (b.inv.rings.ring (.inl rfl)).unique h.classes
  refine ⟨v, b.inv, b.unlocked, he, he ▸ b.sizes, ?_, fun {a c} => ?_, h.live ▸ List.nodup_nil, fun {c} _ hc => ?_,
    fun _ hd => ?_⟩
  case refine_1 => rw [h.caches, List.append_nil, ← he]; exact b.caches
  case refine_2 => simp [h.live, Heap.Live, b.pslab]
  case refine_3 =>
    have hm : s.heap.objsize c ∈ kmemCacheSizeList := b.sizes ▸ List.mem_map_of_mem (b.caches.mem_iff.mp hc)
    have hle : ∀ n ∈ kmemCacheSizeList, 2 * n ≤ pageSize * 2 ^ kmemCacheCslabOrder := by decide
    exact hle _ hm
  case refine_4 =>
    rw [b.pslab] at hd
    cases hd

theorem mem_caches (k : s.Holds t v) : c ∈ v.objs s.heap.kmemCacheSlab ↔ c ∈ s.classes ++ s.caches :=
  k.caches.mem_iff

-- The objects have changed, but not the caches.
theorem change (k : s.Holds t v) {live : List (Nat × Nat)} (i : Inv h' v') (f : s.heap.Frame h')
    (hl : v'.mem s.heap.cacheList = v.mem s.heap.cacheList)
    (hc : v'.objs s.heap.kmemCacheSlab = v.objs s.heap.kmemCacheSlab)
    (hs : ∀ {d}, d ∈ v'.objs s.heap.pslab → v'.owner d = 0 → d ∈ v.objs s.heap.pslab ∧ v.owner d = 0)
    (hv : ∀ a c, (a, c) ∈ live ↔ c ∈ v.objs s.heap.kmemCacheSlab ∧ h'.Live v' a c) (hn : live.Nodup) :
    { s with heap := h', live : World }.Holds t v' where
  inv        := i
  unlocked   := f.locked.trans k.unlocked
  list       := by simp only [f.cacheList, hl, k.list]
  sizes      := by simp only [f.objsize, k.sizes]
  caches     := by simpa only [f.kmemCacheSlab, hc] using k.caches
  live {a c} := by simp only [f.kmemCacheSlab, hc, hv]
  nodup      := hn
  pairs ht   := by
    simp only [f.kmemCacheSlab, f.objsize, hc]
    exact k.pairs ht
  kept ht hd := fun ho => by
    have ⟨hd, ho⟩ := hs (f.pslab ▸ hd) ho
    exact k.kept ht hd ho

-- An object that has been granted is live from now on.
theorem grant (k : s.Holds t v) (hc : c ∈ v.objs s.heap.kmemCacheSlab) (g : Grants s.heap h' v v' c ret) :
    { s with heap := h', live := (ret, c) :: s.live : World }.Holds t v' := by
  apply k.change g.inv g.frame g.list g.caches g.lost
  case hn => exact List.nodup_cons.mpr ⟨fun hm => g.new (k.live.mp hm).2, k.nodup⟩
  case hv =>
    intro a c'
    simp only [g.live, List.mem_cons, k.live, Prod.mk.injEq]
    constructor
    case mp =>
      intro h
      cases h
      case inl h => exact ⟨h.2 ▸ hc, .inl h⟩
      case inr h => exact ⟨h.1, .inr h.2⟩
    case mpr => exact fun ⟨hc, h⟩ => h.imp_right fun h => ⟨hc, h⟩

theorem answers (k : s.Holds t v) (answers : List Nat) : { s with heap := { s.heap with answers } : World }.Holds t v where
  inv      := { k.inv with
    child   := fun hd ho => { k.inv.child hd ho with }
    settled := k.inv.settled
  }
  unlocked := k.unlocked
  list     := k.list
  sizes    := k.sizes
  caches   := k.caches
  live     := k.live
  nodup    := k.nodup
  pairs    := k.pairs
  kept     := k.kept

-- An object belongs to one cache.
theorem live_unique (k : s.Holds t v) {c' : Nat} (h : s.heap.Live v a c) (h' : s.heap.Live v a c') : c = c' := by
  have ⟨d, hd, ho, ha⟩ := h
  have ⟨d', hd', ho', ha'⟩ := h'
  have hobj := (k.inv.sound <| Core.mem_all hd).obj a ha
  rw [← ho, ← ho', k.inv.slab_unique hd hd' hobj ha']

theorem release (k : s.Holds t v) {live : List (Nat × Nat)} (g : Releases s.heap h' v v' a)
    (hl : ∀ a' c', (a', c') ∈ live ↔ (a', c') ∈ s.live ∧ a' ≠ a) (hn : live.Nodup) :
    { s with heap := h', live : World }.Holds t v' :=
  k.change g.inv g.frame g.list g.caches g.lost (fun a' c' => by rw [hl, k.live, g.live, and_assoc]) hn

theorem cacheAlloc (k : s.Holds t v) (hc : c ∈ s.classes ++ s.caches) :
    ∃ s' v', s.cacheAlloc c = .ok s' ∧ s'.Holds t v' := by
  have hc := k.mem_caches.mpr hc
  obtain ⟨answers, hr⟩ | ⟨ret, h', v', hr, g⟩ := k.inv.kmemCacheAlloc_spec hc
  case inl => exact ⟨_, v, by rw [World.cacheAlloc, hr]; rfl, k.answers answers⟩
  case inr =>
    refine ⟨_, v', ?_, k.grant hc g⟩
    rw [World.cacheAlloc, hr]
    simp [g.pos.ne']

theorem alloc (k : s.Holds t v) (n : Nat) : ∃ s' v', s.alloc n = .ok s' ∧ s'.Holds t v' := by
  obtain ⟨answers, hr⟩ | ⟨ret, h', v', c, hr, hf, g⟩ := k.inv.kmemAlloc_spec k.unlocked (k.list ▸ k.sizes) n
  case inl => exact ⟨_, v, by rw [World.alloc, hr]; rfl, k.answers answers⟩
  case inr =>
    have hc := k.inv.classes <| List.mem_of_find?_eq_some hf
    refine ⟨_, v', ?_, k.grant hc g⟩
    rw [k.list] at hf
    rw [World.alloc, hr]
    simp [g.pos.ne', classOf, hf]

theorem cacheFree (k : s.Holds t v) (h : (a, c) ∈ s.live) : ∃ s' v', s.cacheFree c a = .ok s' ∧ s'.Holds t v' := by
  have ⟨hc, hl⟩ := k.live.mp h
  have ⟨h', v', hr, g⟩ := k.inv.kmemCacheFree_spec hc hl
  refine ⟨_, v', by rw [World.cacheFree, hr]; rfl, k.release g (fun a' c' => ?_) <| k.nodup.erase _⟩
  rw [k.nodup.mem_erase_iff, and_comm]
  refine and_congr_right fun hm => not_congr ?_
  simp only [Prod.mk.injEq]
  refine ⟨And.left, fun he => ⟨he, ?_⟩⟩
  exact k.live_unique (k.live.mp <| he ▸ hm).2 hl

theorem free (k : s.Holds t v) (h : (a, c) ∈ s.live) : ∃ s' v', s.free a = .ok s' ∧ s'.Holds t v' := by
  have ⟨hc, hl⟩ := k.live.mp h
  have ⟨h', v', hr, g⟩ := k.inv.kmemFree_spec k.unlocked hc hl
  exact ⟨_, v', by rw [World.free, hr]; rfl, k.release g (fun a' c' => by simp) <| k.nodup.filter _⟩

theorem shrunk (k : s.Holds t v) (hc : c ∈ s.classes ++ s.caches) :
    ∃ h' v', (kmemCacheShrink c).run s.heap = .ok ((), h') ∧
      Shrinks s.heap h' v v' c (v.mem <| slabFreeOf c) ∧ v'.mem (slabFreeOf c) = [] ∧
      { s with heap := h' : World }.Holds t v' := by
  have hc := k.mem_caches.mpr hc
  have ⟨h', v', hr, g, he⟩ := k.inv.kmemCacheShrink_spec hc
  refine ⟨h', v', hr, g, he, ?_⟩
  refine k.change g.inv g.frame (g.mem (k.inv.head_ne (f := .empty) hc).symm) g.caches (fun hd ho => ?_)
    (fun a c => by rw [g.live, k.live]) k.nodup
  exact ⟨g.descs.mem_iff.mpr <| List.mem_append_right _ hd, g.owner ▸ ho⟩

theorem cacheShrink (k : s.Holds t v) (hc : c ∈ s.classes ++ s.caches) :
    ∃ s' v', s.cacheShrink c = .ok s' ∧ s'.Holds t v' := by
  have ⟨h', v', hr, _, _, k'⟩ := k.shrunk hc
  exact ⟨_, v', by rw [World.cacheShrink, hr]; rfl, k'⟩

theorem shrink (k : s.Holds t v) : ∃ s' v', s.shrink = .ok s' ∧ s'.Holds t v' := by
  have hlen : (v.mem s.heap.cacheList).length = kmemCacheSizeList.length := by
    rw [k.list, ← k.sizes, List.length_map]
  have ⟨h', v', rs, hr, g, _⟩ := k.inv.kmemShrink_spec k.unlocked hlen
  refine ⟨_, v', by rw [World.shrink, hr]; rfl, ?_⟩
  refine k.change g.inv g.frame g.list g.caches (fun hd ho => ?_) (fun a c => by rw [g.live, k.live]) k.nodup
  exact ⟨g.descs.mem_iff.mpr <| List.mem_append_right _ hd, g.owner ▸ ho⟩

theorem nodup_caches (k : s.Holds t v) : (s.classes ++ s.caches).Nodup :=
  k.caches.nodup_iff.mp (k.inv.sound Core.kmemCacheSlab_mem).nodup

-- A slab which is not on the list of the empty ones has a live object.
theorem exists_live (k : s.Holds t v) (ht : t) {f : Fill} (hc : c ∈ s.classes ++ s.caches) (hd : d ∈ v.mem (f.head c))
    (hf : f ≠ .empty) : ∃ a, a ∈ v.objs d ∧ (a, c) ∈ s.live := by
  have hc := k.mem_caches.mpr hc
  obtain ⟨hm, ho⟩ := k.inv.owner_of_mem hc hd
  have ho₀ : v.owner d ≠ 0 := ho ▸ k.inv.cache_ne_zero hc
  have hfit := k.inv.fits (k.inv.settled hm) hc hd
  have hcnt := k.inv.freeObj_eq hm
  have htot : 2 ≤ (s.heap.slabs d).totalObj := by
    have hs := k.inv.sound <| Core.mem_all hm
    have ch := k.inv.child hm ho₀
    rw [hs.total, Nat.le_div_iff_mul_le hs.size, ch.size, ho, Slab.bytes, ch.order]
    exact k.pairs ht hc
  have hne : v.objs d ≠ [] := fun hnil => by
    rw [hnil, List.length_nil] at hcnt
    cases f
    case empty => exact hf rfl
    case full  =>
      have hfit : (s.heap.slabs d).freeObj = 0 := hfit
      omega
    case mixed =>
      have := hfit.2 hnil
      omega
  obtain ⟨a, ha⟩ := List.exists_mem_of_ne_nil _ hne
  exact ⟨a, ha, k.live.mpr ⟨hc, d, hm, ho, ha⟩⟩

-- A cache without live objects and empty slabs has no slab.
theorem owner_ne (k : s.Holds t v) (ht : t) (hc : c ∈ s.classes ++ s.caches) (hl : ∀ a, (a, c) ∉ s.live)
    (he : v.mem (slabFreeOf c) = []) (hd : d ∈ v.objs s.heap.pslab) : v.owner d ≠ c := by
  intro ho
  obtain ⟨f, _, hm⟩ := k.inv.settled hd <| k.kept ht hd
  rw [ho] at hm
  have hf : f ≠ .empty := fun hf => by
    subst hf
    rw [Fill.head, he] at hm
    cases hm
  obtain ⟨a, _, ha⟩ := k.exists_live ht hc hm hf
  exact hl a ha

theorem dropped (k : s.Holds t v) (hc : c ∈ s.caches) (hl : ∀ a, (a, c) ∉ s.live)
    (he : v.mem (slabFreeOf c) = []) :
    ∃ h', (slabFreeAt s.heap.kmemCacheSlab c).run s.heap = .ok ((), h') ∧ h'.pages = s.heap.pages ∧
      (∀ d ∈ v.objs s.heap.pslab, h'.slabs d = s.heap.slabs d) ∧ s.heap.Frame h' ∧
      { s with heap := h', caches := s.caches.erase c : World }.Holds t (v.leave s.heap.kmemCacheSlab c) := by
  have hm := k.mem_caches.mpr <| List.mem_append_right _ hc
  have hcl : c ∉ s.classes := fun h => List.disjoint_of_nodup_append k.nodup_caches h hc
  obtain ⟨h', hr, hp, hs, g⟩ := k.inv.drop hm (k.list ▸ hcl)
  refine ⟨h', hr, hp, hs, g.frame, ?_⟩
  constructor
  case inv      => exact g.inv
  case unlocked => exact g.frame.locked.trans k.unlocked
  case list     => simp only [g.frame.cacheList, g.list, k.list]
  case sizes    => simp only [g.frame.objsize, k.sizes]
  case caches   =>
    simp only [g.frame.kmemCacheSlab, g.caches]
    have := k.caches.erase c
    rwa [List.erase_append_right _ hcl] at this
  case nodup    => exact k.nodup
  case pairs    =>
    intro c' ht hc'
    simp only [g.frame.kmemCacheSlab, g.caches, g.frame.objsize] at hc' ⊢
    exact k.pairs ht <| List.mem_of_mem_erase hc'
  case kept     =>
    intro d ht hd
    rw [g.frame.pslab, show (v.leave s.heap.kmemCacheSlab c).objs s.heap.pslab = v.objs s.heap.pslab from
      Function.update_of_ne k.inv.pslab_ne ..] at hd
    simp only [View.leave, if_neg <| k.owner_ne ht (List.mem_append_right _ hc) hl he hd]
    exact k.kept ht hd
  case live     =>
    intro a c'
    simp only [g.frame.kmemCacheSlab, g.caches, (k.inv.sound Core.kmemCacheSlab_mem).nodup.mem_erase_iff, k.live]
    by_cases he : c' = c
    case pos =>
      have := k.live.not.mp <| hl a
      simpa [he] using this
    case neg =>
      rw [and_iff_right he]
      exact and_congr_right fun hc' => (g.live a c' he <| k.inv.cache_ne_zero hc').symm

theorem cacheDestory (k : s.Holds t v) (hc : c ∈ s.caches) (hl : ∀ a, (a, c) ∉ s.live) :
    ∃ s' v', s.cacheDestory c = .ok s' ∧ s'.Holds t v' := by
  have ⟨h₁, v₁, hr, _, he, k₁⟩ := k.shrunk <| List.mem_append_right _ hc
  have ⟨h', hr', _, _, _, k'⟩ := k₁.dropped hc hl he
  exact ⟨_, v₁.leave h₁.kmemCacheSlab c, by rw [World.cacheDestory, Inv.kmemCacheDestory_run hr hr']; rfl, k'⟩

theorem cacheCreate (k : s.Holds t v) (hf : ¬slabFull (s.heap.slabs s.heap.kmemCacheSlab))
    (hs : 0 < size ∧ 8 ∣ size ∧ size ≤ pageSize * 2 ^ kmemCacheCslabOrder)
    (ht : t → 2 * size ≤ pageSize * 2 ^ kmemCacheCslabOrder) :
    ∃ s' v', s.cacheCreate size = .ok s' ∧ s'.Holds t v' := by
  have i := k.inv
  obtain ⟨kc, p, hr, hh⟩ := i.kmemCacheCreate_spec (by simpa [slabFull] using hf) size
  have hcl := i.enter_mem_of_node hh (@Rings.node_head _ _ v.mem _ (.inl rfl))
  have hok : (v.enter s.heap.kmemCacheSlab kc).objs s.heap.kmemCacheSlab = kc :: v.objs s.heap.kmemCacheSlab :=
    Function.update_self ..
  have hoo : ∀ {d}, d ≠ s.heap.kmemCacheSlab → (v.enter s.heap.kmemCacheSlab kc).objs d = v.objs d := fun hne =>
    Function.update_of_ne hne ..
  have hop := hoo i.pslab_ne
  refine ⟨_, v.enter s.heap.kmemCacheSlab kc, by rw [World.cacheCreate, hr]; rfl, ?_⟩
  constructor
  case inv      =>
    refine { i.newCache hh hs with settled := fun {d} hd ho => ?_ }
    have hd : d ∈ v.objs s.heap.pslab := hop ▸ hd
    obtain ⟨f, hfit, hm⟩ := i.settled hd ho
    have hc := (i.child hd ho).owner
    refine ⟨f, ?_, (i.enter_mem_of_node hh <| Rings.node_head <| Core.head_mem hc).symm ▸ hm⟩
    rw [hoo <| i.ne_kmemCacheSlab hd]
    simpa only [Function.update_of_ne (i.ne_kmemCacheSlab hd)] using hfit
  case unlocked => exact k.unlocked
  case list     => exact hcl.trans k.list
  case sizes    =>
    rw [← k.sizes]
    refine List.map_congr_left fun c hc => Function.update_of_ne (fun he => hh.free ?_) ..
    exact he ▸ k.mem_caches.mpr (List.mem_append_left _ hc)
  case caches   =>
    simp only [hok]
    exact (k.caches.cons kc).trans List.perm_middle.symm
  case live     =>
    intro a c
    rw [k.live]
    simp only [hok, Heap.Live, hop, List.mem_cons]
    have hd : ∀ d ∈ v.objs s.heap.pslab, (v.enter s.heap.kmemCacheSlab kc).objs d = v.objs d := fun d hd =>
      hoo <| i.ne_kmemCacheSlab hd
    constructor
    case mp =>
      rintro ⟨hc, d, hdm, ho, ha⟩
      exact ⟨.inr hc, d, hdm, ho, hd d hdm ▸ ha⟩
    case mpr =>
      rintro ⟨hc, d, hdm, ho, ha⟩
      have ho : v.owner d = c := ho
      have hs := i.sound Core.kmemCacheSlab_mem
      have hc₀ : c ≠ 0 := by
        cases hc
        case inl hc => exact hc ▸ (hs.place_pos <| hs.place_of_obj hh.obj).ne'
        case inr hc => exact i.cache_ne_zero hc
      exact ⟨ho ▸ (i.child hdm <| ho ▸ hc₀).owner, d, hdm, ho, hd d hdm ▸ ha⟩
  case nodup    => exact k.nodup
  case pairs    =>
    intro c h hc
    simp only [hok] at hc
    by_cases he : c = kc
    case pos => simpa [he] using ht h
    case neg => simpa [he] using k.pairs h <| (List.mem_cons.mp hc).resolve_left he
  case kept     => exact fun h hd => k.kept h <| hop ▸ hd

-- A live object lies in a slab of its cache.
theorem live_block (k : s.Holds t v) {b : Nat × Nat} (hb : b ∈ s.live) :
    ∃ d ∈ v.objs s.heap.pslab, b.1 ∈ v.objs d ∧ (s.heap.slabs d).sizeObj = s.heap.objsize b.2 ∧
      (s.heap.slabs d).pg ≤ b.1 ∧
      b.1 + s.heap.objsize b.2 ≤ (s.heap.slabs d).pg + (s.heap.slabs d).bytes := by
  have ⟨hc, d, hd, ho, ha⟩ := k.live.mp hb
  have hsz := (k.inv.child hd <| ho ▸ k.inv.cache_ne_zero hc).size
  rw [ho] at hsz
  have hin := k.inv.obj_inside (Core.mem_all hd) ha
  rw [hsz] at hin
  exact ⟨d, hd, ha, hsz, hin⟩

-- The links of the lists and of the free places lie in no object that is live.
theorem foreign_of_node (k : s.Holds t v) (hn : Rings.Node (s.heap.heads v) v.mem n) :
    s.Foreign n ∧ s.Foreign (n + 8) := by
  have hout : ∀ b ∈ s.live, n + 16 ≤ b.1 ∨ b.1 + s.heap.objsize b.2 ≤ n := fun b hb => by
    have ⟨d, hd, _, _, hl, hu⟩ := k.live_block hb
    have := k.inv.spot_apart hd <| k.inv.spot_of_node hn
    omega
  constructor
  all_goals
    intro b hb
    have := hout b hb
    omega

theorem foreign_of_place (k : s.Holds t v) {d : Nat} (hd : d ∈ s.heap.all v) (ha : (s.heap.slabs d).Place a)
    (hn : a ∉ v.objs d) : s.Foreign a := by
  intro b hb
  have hin := (k.inv.sound hd).place_inside ha
  have ⟨d', hd', hb', hsz, hl, hu⟩ := k.live_block hb
  by_cases he : d = d'
  case neg =>
    have := k.inv.pairwise_of_ne hd (Core.mem_all hd') he
    simp only [Apart, Heap.block, Slab.Inside, Slab.bytes] at this hin hu
    omega
  case pos =>
    subst he
    have hs := k.inv.sound hd
    have hp := k.inv.obj_place hd hb'
    have h₈ : 8 ≤ (s.heap.slabs d).sizeObj := Nat.le_of_dvd hs.size hs.dvd
    have hne : a ≠ b.1 := fun he => hn <| he ▸ hb'
    cases Nat.lt_or_gt_of_ne hne
    case inl hlt => have := Slab.Shape.obj_apart ha hp hlt; omega
    case inr hgt => have := Slab.Shape.obj_apart hp ha hgt; omega

theorem write (k : s.Holds t v) {links : Links Nat} (hp : ∀ a, s.Foreign a → links.prev a = s.heap.links.prev a)
    (hn : ∀ a, s.Foreign (a + 8) → links.next a = s.heap.links.next a) :
    { s with heap := { s.heap with links } : World }.Holds t v := by
  have hc : Core { s.heap with links } v := by
    show Core _ { v with mem := v.mem }
    apply k.inv.relink
    case hr => exact k.inv.rings.congr (fun n h => hn n (k.foreign_of_node h).2) fun n h => hp n (k.foreign_of_node h).1
    case hw => exact fun d hd a ha hna => hp a <| k.foreign_of_place hd ha hna
    case hl => exact fun c hc d hd => k.inv.listed hc hd
    case hc => rfl
  exact {
    inv      := { hc with settled := k.inv.settled }
    unlocked := k.unlocked
    list     := k.list
    sizes    := k.sizes
    caches   := k.caches
    live     := k.live
    nodup    := k.nodup
    pairs    := k.pairs
    kept     := k.kept
  }

theorem step (k : s.Holds t v) (e : Step (.ok s) use r)
    (ht : t → ∀ size, use = .cacheCreate size → 2 * size ≤ pageSize * 2 ^ kmemCacheCslabOrder) :
    ∃ s' v', r = .ok s' ∧ s'.Holds t v' := by
  cases e
  case cacheCreate h hf   => exact k.cacheCreate hf h fun h => ht h _ rfl
  case cacheAlloc h       => exact k.cacheAlloc h
  case cacheFree h        => exact k.cacheFree h
  case cacheShrink h      => exact k.cacheShrink h
  case cacheDestory h hl  => exact k.cacheDestory h hl
  case alloc              => exact k.alloc _
  case free h             => exact k.free h
  case shrink             => exact k.shrink
  case write hp hn        => exact ⟨_, v, rfl, k.write hp hn⟩

theorem run {uses : List Use} (h : s.Start) (e : Run Step (.ok s) uses r)
    (ht : t → ∀ size, .cacheCreate size ∈ uses → 2 * size ≤ pageSize * 2 ^ kmemCacheCslabOrder) :
    ∃ s' v', r = .ok s' ∧ s'.Holds t v' := by
  apply e.invariant_mem (p := fun r => ∃ s' v', r = .ok s' ∧ Holds t s' v')
  case hs =>
    have ⟨v, k⟩ := init (t := t) h
    exact ⟨s, v, rfl, k⟩
  case h =>
    intro r use hu r' ⟨s, v, hs, k⟩ e
    subst hs
    exact k.step e fun h size he => ht h size <| he ▸ hu

end Holds

-- The steps of which the next world can be computed.
def exec : Except Fault World → Use → Option (Except Fault World)
  | .ok s, .cacheCreate size =>
    if (0 < size ∧ 8 ∣ size ∧ size ≤ pageSize * 2 ^ kmemCacheCslabOrder) ∧
        ¬slabFull (s.heap.slabs s.heap.kmemCacheSlab) then
      some (s.cacheCreate size)
    else
      none
  | .ok s, .cacheAlloc c     => if c ∈ s.classes ++ s.caches then some (s.cacheAlloc c) else none
  | .ok s, .cacheFree c a    => if (a, c) ∈ s.live then some (s.cacheFree c a) else none
  | .ok s, .cacheShrink c    => if c ∈ s.classes ++ s.caches then some (s.cacheShrink c) else none
  | .ok s, .cacheDestory c   =>
    if c ∈ s.caches ∧ ∀ b ∈ s.live, b.2 ≠ c then some (s.cacheDestory c) else none
  | .ok s, .alloc n          => some (s.alloc n)
  | .ok s, .free a           => if ∃ b ∈ s.live, b.1 = a then some (s.free a) else none
  | .ok s, .shrink           => some s.shrink
  | _,     _                 => none

theorem Step.of_exec {r r' : Except Fault World} {use : Use} (h : exec r use = some r') : Step r use r' := by
  cases r
  case error => cases use <;> cases h
  case ok s =>
    cases use <;> simp only [exec, Option.ite_none_right_eq_some, Option.some.injEq] at h
    case cacheCreate size =>
      have ⟨⟨hs, hf⟩, he⟩ := h
      exact he ▸ .cacheCreate hs hf
    case cacheAlloc c  => exact h.2 ▸ .cacheAlloc h.1
    case cacheFree c a => exact h.2 ▸ .cacheFree h.1
    case cacheShrink c => exact h.2 ▸ .cacheShrink h.1
    case cacheDestory c =>
      have ⟨⟨hc, hl⟩, he⟩ := h
      exact he ▸ .cacheDestory hc fun a ha => hl _ ha rfl
    case alloc n => exact h ▸ .alloc
    case free a  =>
      have ⟨⟨b, hb, ha⟩, he⟩ := h
      exact he ▸ .free (c := b.2) (ha ▸ hb)
    case shrink  => exact h ▸ .shrink
    case write   => cases h

-- What is found in the world behind a run.
def found (s : World) (uses : List Use) (f : World → β) : Option β := do
  let r ← uses.foldlM exec (.ok s)
  let s ← r.toOption
  return f s

theorem run_of_found {s : World} {uses : List Use} {f : World → β} {b : β} (h : s.found uses f = some b) :
    ∃ s', Run Step (.ok s) uses (.ok s') ∧ f s' = b := by
  have ⟨r, hr, h⟩ := Option.bind_eq_some_iff.mp h
  have ⟨s', hs, hf⟩ := Option.bind_eq_some_iff.mp h
  have he : r = .ok s' := by
    cases r
    case error => cases hs
    case ok    => cases hs; rfl
  subst he
  exact ⟨s', Run.of_foldlM (fun _ _ _ => Step.of_exec) hr, Option.some.inj hf⟩

-- A machine on which nothing has been allocated yet, with two blocks for the caches behind those for the static slabs.
def blank : Heap where
  links         := { prev := fun _ => 0, next := fun _ => 0 }
  slabs _       := { pg := 0, objs := 0, sizeObj := 0, freeObj := 0, totalObj := 0, order := 0 }
  objsize _     := 0
  adat _        := 0
  pages         := []
  answers       := [0x80010000, 0x80020000, 0x80030000, 0x80040000, 0x80050000]
  cacheList     := 0x80001000
  metaSlab      := 0x80002000
  kmemCacheSlab := 0
  pslab         := 0
  locked        := false

def booted : World where
  heap    :=
    match (kmemInit).run blank with
    | .ok (_, h) => h
    | .error _   => blank
  classes := (List.range 9).map (0x80020000 + sizeofKmemCache * ·)
  caches  := []
  live    := []

theorem booted_start : booted.Start where
  caches  := rfl
  live    := rfl
  pslab   := by decide +kernel
  classes := by decide +kernel
  boot    := by
    refine ⟨blank, rfl, rfl, ?_⟩
    have hs : ((kmemInit).run blank).toOption.isSome = true := by decide +kernel
    rw [booted]
    cases hr : (kmemInit).run blank
    case error => rw [hr] at hs; cases hs
    case ok    => rfl

attribute [irreducible] booted

end World

end Zgmos.Kmem
