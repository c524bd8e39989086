import Zgmos.Kmem.Basic
import Zgmos.Kmem.Objects
import Zgmos.Lib.Rings

namespace Zgmos.Kmem

-- What the heap consists of: the members of the lists by their heads, the live objects of the slabs by their
-- descriptors and the caches of the slabs. A slab without a cache has been lost.
structure View where
  mem   : Nat → List Nat
  objs  : Nat → List Nat
  owner : Nat → Nat

-- The lists of a cache.
inductive Fill
  | full
  | mixed
  | empty

namespace Fill

def head (c : Nat) : Fill → Nat
  | full  => slabFullOf c
  | mixed => slabPartialOf c
  | empty => slabFreeOf c

variable {f g : Fill} {c : Nat}

theorem head_bounds (f : Fill) (c : Nat) : c < f.head c ∧ f.head c + 16 < c + sizeofKmemCache := by
  cases f <;> simp [head, slabFullOf, slabPartialOf, slabFreeOf, sizeofKmemCache]

theorem head_inj (h : f.head c = g.head c) : f = g := by
  cases f <;> cases g <;> simp [head, slabFullOf, slabPartialOf, slabFreeOf] at h ⊢

end Fill

namespace Heap

variable (h : Heap) (v : View)

def block (d : Nat) : Nat × Nat :=
  ((h.slabs d).pg, (h.slabs d).order)

-- The descriptors of all slabs apart from `metaSlab`. The objects of `pslab` are the descriptors of the slabs of
-- the caches, and those of `kmemCacheSlab` are the caches.
def all : List Nat :=
  h.kmemCacheSlab :: h.pslab :: v.objs h.pslab

def heads : Set Nat :=
  {n | n = h.cacheList ∨ ∃ c ∈ v.objs h.kmemCacheSlab, ∃ f : Fill, n = f.head c}

-- The addresses that can be nodes.
def Spot (n : Nat) : Prop :=
  n = h.cacheList ∨ (∃ c ∈ v.objs h.kmemCacheSlab, c ≤ n ∧ n + 16 < c + sizeofKmemCache) ∨ n ∈ v.objs h.pslab

-- The links in the free places of the slabs are as before.
def Spares (w w' : Words) : Prop :=
  ∀ d ∈ h.all v, ∀ a, (h.slabs d).Place a → a ∉ v.objs d → w' a = w a

end Heap

-- The slabs of a cache.
def View.slabsOf (v : View) (c : Nat) : List Nat :=
  v.mem (slabFullOf c) ++ v.mem (slabPartialOf c) ++ v.mem (slabFreeOf c)

theorem View.mem_slabsOf {v : View} {c d : Nat} : d ∈ v.slabsOf c ↔ ∃ f : Fill, d ∈ v.mem (f.head c) := by
  simp only [slabsOf, List.mem_append]
  constructor
  case mp =>
    intro hd
    obtain (hd | hd) | hd := hd
    case inl.inl => exact ⟨.full, hd⟩
    case inl.inr => exact ⟨.mixed, hd⟩
    case inr     => exact ⟨.empty, hd⟩
  case mpr =>
    intro ⟨f, hd⟩
    cases f
    case full  => exact .inl <| .inl hd
    case mixed => exact .inl <| .inr hd
    case empty => exact .inr hd

-- A slab of a cache.
structure Child (h : Heap) (v : View) (d : Nat) : Prop where
  owner : v.owner d ∈ v.objs h.kmemCacheSlab
  size  : (h.slabs d).sizeObj = h.objsize (v.owner d)
  order : (h.slabs d).order = kmemCacheCslabOrder
  page  : pageSize ∣ (h.slabs d).pg
  tag   : (h.slabs d).pg ≤ a → a < (h.slabs d).pg + (h.slabs d).bytes → h.adat (a / pageSize) = v.owner d

-- The invariant without what it means to be on a certain list.
structure Core (h : Heap) (v : View) : Prop where
  rings   : Rings h.links (h.heads v) v.mem
  sound   : d ∈ h.all v → (h.slabs d).Sound h.links.prev (v.objs d)
  sizes   : (h.slabs h.kmemCacheSlab).sizeObj = sizeofKmemCache ∧ (h.slabs h.pslab).sizeObj = sizeofSlab
  child   : d ∈ v.objs h.pslab → v.owner d ≠ 0 → Child h v d
  listed  : c ∈ v.objs h.kmemCacheSlab → d ∈ v.slabsOf c → d ∈ v.objs h.pslab ∧ v.owner d = c
  objsize : c ∈ v.objs h.kmemCacheSlab → 0 < h.objsize c ∧ 8 ∣ h.objsize c ∧ h.objsize c ≤ pageSize * 2 ^ kmemCacheCslabOrder
  classes : v.mem h.cacheList ⊆ v.objs h.kmemCacheSlab
  pages   : h.pages.Perm (h.block h.metaSlab :: (h.all v).map h.block)
  apart   : h.pages.Pairwise Apart
  behind  : b ∈ h.pages → h.cacheList + 16 ≤ b.1 ∧ h.metaSlab + sizeofSlab ≤ b.1
  inMeta  : d = h.kmemCacheSlab ∨ d = h.pslab → (h.slabs h.metaSlab).pg ≤ d ∧
    d < (h.slabs h.metaSlab).pg + (h.slabs h.metaSlab).bytes

theorem Apart.symm {b b' : Nat × Nat} (h : Apart b b') : Apart b' b :=
  Or.symm h

namespace Core

variable {h h' : Heap} {v v' : View} {a b c d n p : Nat} {w : Words}

theorem mem_all (hd : d ∈ v.objs h.pslab) : d ∈ h.all v :=
  .tail _ <| .tail _ hd

theorem kmemCacheSlab_mem : h.kmemCacheSlab ∈ h.all v :=
  .head _

theorem pslab_mem : h.pslab ∈ h.all v :=
  .tail _ <| .head _

theorem head_mem {f : Fill} (hc : c ∈ v.objs h.kmemCacheSlab) : f.head c ∈ h.heads v :=
  .inr ⟨c, hc, f, rfl⟩

section

variable (k : Core h v)

include k

-- No two slabs share a page, which is why their descriptors are different.
theorem pairwise : (h.all v).Pairwise fun d d' => Apart (h.block d) (h.block d') := by
  have := (k.pages.pairwise_iff Apart.symm).mp k.apart
  exact List.pairwise_map.mp (List.pairwise_cons.mp this).2

theorem nodup : (h.all v).Nodup := by
  refine k.pairwise.imp fun {d d'} ha he => ?_
  subst he
  have : 0 < pageSize * 2 ^ (h.block d).2 := by simp [pageSize]
  simp only [Apart] at ha
  omega

theorem ne_kmemCacheSlab (hd : d ∈ v.objs h.pslab) : d ≠ h.kmemCacheSlab := by
  have := (List.nodup_cons.mp k.nodup).1
  exact fun he => this <| he ▸ .tail _ hd

theorem ne_pslab (hd : d ∈ v.objs h.pslab) : d ≠ h.pslab := by
  have := (List.nodup_cons.mp (List.nodup_cons.mp k.nodup).2).1
  exact fun he => this <| he ▸ hd

theorem pslab_ne : h.pslab ≠ h.kmemCacheSlab := by
  have := (List.nodup_cons.mp k.nodup).1
  exact fun he => this <| he ▸ .head _

theorem pairwise_of_ne {d d' : Nat} (hd : d ∈ h.all v) (hd' : d' ∈ h.all v) (hne : d ≠ d') :
    Apart (h.block d) (h.block d') := by
  have hs : Std.Symm fun d d' => Apart (h.block d) (h.block d') := ⟨fun _ _ => Apart.symm⟩
  exact k.pairwise.forall hd hd' hne

-- An address lies in one slab at most.
theorem eq_of_inside {d d' : Nat} (hd : d ∈ h.all v) (hd' : d' ∈ h.all v)
    (ha : (h.slabs d).pg ≤ a ∧ a < (h.slabs d).pg + (h.slabs d).bytes)
    (ha' : (h.slabs d').pg ≤ a ∧ a < (h.slabs d').pg + (h.slabs d').bytes) : d = d' := by
  by_contra hne
  have := k.pairwise_of_ne hd hd' hne
  simp only [Apart, Heap.block, Slab.bytes] at this ha ha'
  omega

theorem place_inside (hd : d ∈ h.all v) (ha : (h.slabs d).Place a) :
    (h.slabs d).pg ≤ a ∧ a < (h.slabs d).pg + (h.slabs d).bytes := by
  have := (k.sound hd).place_inside ha
  simp only [Slab.Inside] at this
  omega

theorem obj_inside (hd : d ∈ h.all v) (ha : a ∈ v.objs d) :
    (h.slabs d).pg ≤ a ∧ a + (h.slabs d).sizeObj ≤ (h.slabs d).pg + (h.slabs d).bytes :=
  (k.sound hd).obj_le <| (k.sound hd).obj a ha

theorem obj_place (hd : d ∈ h.all v) (ha : a ∈ v.objs d) : (h.slabs d).Place a :=
  (k.sound hd).place_of_obj <| (k.sound hd).obj a ha

theorem cache_ne_zero (hc : c ∈ v.objs h.kmemCacheSlab) : c ≠ 0 :=
  ((k.sound kmemCacheSlab_mem).place_pos <| k.obj_place kmemCacheSlab_mem hc).ne'

theorem block_mem (hd : d ∈ h.all v) : h.block d ∈ h.pages :=
  k.pages.mem_iff.mpr <| .tail _ <| List.mem_map_of_mem hd

theorem behind_slab (hd : d ∈ h.all v) : h.cacheList + 16 ≤ (h.slabs d).pg := by
  exact (k.behind <| k.block_mem hd).1

-- The nodes lie in live objects.
theorem spot_of_node (hn : Rings.Node (h.heads v) v.mem n) : h.Spot v n := by
  have ⟨m, hm, hn⟩ := hn
  have hcl {c} (hc : c ∈ v.objs h.kmemCacheSlab) : h.Spot v c :=
    .inr <| .inl ⟨c, hc, le_rfl, by simp [sizeofKmemCache]⟩
  cases hm
  case inl hm =>
    subst hm
    cases hn
    case head    => exact .inl rfl
    case tail hn => exact hcl <| k.classes hn
  case inr hm =>
    have ⟨c, hc, f, hm⟩ := hm
    subst hm
    cases hn
    case head    =>
      have := f.head_bounds c
      exact .inr <| .inl ⟨c, hc, by omega, this.2⟩
    case tail hn => exact .inr <| .inr (k.listed hc <| View.mem_slabsOf.mpr ⟨f, hn⟩).1

-- A place of a slab in which a node lies is not free.
theorem mem_of_spot (hn : h.Spot v n) (hd : d ∈ h.all v) (hp : (h.slabs d).Place n) : n ∈ v.objs d := by
  have hin := k.place_inside hd hp
  obtain he | ⟨c, hc, hcn⟩ | hn := hn
  case inl =>
    have := k.behind_slab hd
    omega
  case inr.inl =>
    have hcin := k.obj_inside kmemCacheSlab_mem hc
    rw [k.sizes.1] at hcin
    obtain rfl := k.eq_of_inside hd kmemCacheSlab_mem hin (by omega)
    cases Nat.eq_or_lt_of_le hcn.1
    case inl he => exact he ▸ hc
    case inr hl =>
      have := Slab.Shape.obj_apart (k.obj_place kmemCacheSlab_mem hc) hp hl
      rw [k.sizes.1] at this
      omega
  case inr.inr =>
    have hnin := k.obj_inside pslab_mem hn
    rw [k.sizes.2, sizeofSlab] at hnin
    obtain rfl := k.eq_of_inside hd pslab_mem hin (by omega)
    exact hn

-- The lists are different.

theorem head_ne {f : Fill} (hc : c ∈ v.objs h.kmemCacheSlab) : f.head c ≠ h.cacheList := by
  have := f.head_bounds c
  have := k.behind_slab (v := v) kmemCacheSlab_mem
  have := k.obj_inside kmemCacheSlab_mem hc
  omega

theorem head_inj {f g : Fill} {c' : Nat} (hc : c ∈ v.objs h.kmemCacheSlab) (hc' : c' ∈ v.objs h.kmemCacheSlab)
    (he : f.head c = g.head c') : c = c' ∧ f = g := by
  have hcc : c = c' := by
    by_contra hne
    have hf := f.head_bounds c
    have hg := g.head_bounds c'
    have hp := k.obj_place kmemCacheSlab_mem hc
    have hp' := k.obj_place kmemCacheSlab_mem hc'
    have hsz := k.sizes.1
    cases Nat.lt_or_gt_of_ne hne
    case inl hlt => have := Slab.Shape.obj_apart hp hp' hlt; omega
    case inr hgt => have := Slab.Shape.obj_apart hp' hp hgt; omega
  subst hcc
  exact ⟨rfl, Fill.head_inj he⟩

-- The nodes lie outside of the slabs of the caches.

theorem spot_apart (hd : d ∈ v.objs h.pslab) (hn : h.Spot v n) :
    n + 16 ≤ (h.slabs d).pg ∨ (h.slabs d).pg + (h.slabs d).bytes ≤ n := by
  obtain he | ⟨c, hc, hcn⟩ | hn := hn
  case inl =>
    have := k.behind_slab (mem_all hd)
    omega
  case inr.inl =>
    have hcin := k.obj_inside kmemCacheSlab_mem hc
    rw [k.sizes.1] at hcin
    have := k.pairwise_of_ne (mem_all hd) kmemCacheSlab_mem <| k.ne_kmemCacheSlab hd
    simp only [Apart, Heap.block, Slab.bytes] at this hcin ⊢
    omega
  case inr.inr =>
    have hnin := k.obj_inside pslab_mem hn
    rw [k.sizes.2, sizeofSlab] at hnin
    have := k.pairwise_of_ne (mem_all hd) pslab_mem <| k.ne_pslab hd
    simp only [Apart, Heap.block, Slab.bytes] at this hnin ⊢
    omega

theorem not_spot (hd : d ∈ v.objs h.pslab) (ha : (h.slabs d).pg ≤ a ∧ a < (h.slabs d).pg + (h.slabs d).bytes) :
    ¬h.Spot v a := by
  intro hn
  have := k.spot_apart hd hn
  omega

end

end Core

end Zgmos.Kmem
