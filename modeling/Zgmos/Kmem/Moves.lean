import Zgmos.Kmem.Descriptors

namespace Zgmos.Kmem

-- The lists on which a slab with certain objects may be.
def Fill.Fits (s : Slab) (os : List Nat) : Fill → Prop
  | full  => s.freeObj = 0
  | mixed => s.freeObj ≠ 0 ∧ (os = [] → s.totalObj = 1)
  | empty => os = []

-- The slab is on a list of its cache, as it should be.
def Settled (h : Heap) (v : View) (d : Nat) : Prop :=
  v.owner d ≠ 0 → ∃ f : Fill, f.Fits (h.slabs d) (v.objs d) ∧ d ∈ v.mem (f.head (v.owner d))

-- The object `a` of the cache `c` is live.
def Heap.Live (h : Heap) (v : View) (a c : Nat) : Prop :=
  ∃ d ∈ v.objs h.pslab, v.owner d = c ∧ a ∈ v.objs d

structure Inv (h : Heap) (v : View) : Prop extends Core h v where
  settled : d ∈ v.objs h.pslab → Settled h v d

namespace Core

variable {h h' : Heap} {v v' : View} {a c d ret : Nat} {f g : Fill} {mem : Nat → List Nat} {s : Slab}

theorem total_pos (k : Core h v) (hd : d ∈ v.objs h.pslab) (ho : v.owner d ≠ 0) : 0 < (h.slabs d).totalObj := by
  have hs := k.sound <| mem_all hd
  have hc := k.child hd ho
  rw [hs.total, hc.size]
  have ⟨h₀, _, hle⟩ := k.objsize hc.owner
  rw [Slab.bytes, hc.order]
  exact Nat.div_pos hle h₀

-- A slab with a live object, or with no object at all.
theorem freeObj_eq (k : Core h v) (hd : d ∈ v.objs h.pslab) :
    (h.slabs d).freeObj + (v.objs d).length = (h.slabs d).totalObj :=
  (k.sound <| mem_all hd).count

-- A slab is on one list only.
theorem fill_unique (k : Core h v) (hc : c ∈ v.objs h.kmemCacheSlab) (hf : d ∈ v.mem (f.head c))
    (hg : d ∈ v.mem (g.head c)) : f = g :=
  Fill.head_inj <| k.rings.eq_of_mem (head_mem hc) (head_mem hc) hf hg

theorem owner_of_mem (k : Core h v) (hc : c ∈ v.objs h.kmemCacheSlab) (hd : d ∈ v.mem (f.head c)) :
    d ∈ v.objs h.pslab ∧ v.owner d = c :=
  k.listed hc <| View.mem_slabsOf.mpr ⟨f, hd⟩

theorem fits (k : Core h v) (hs : Settled h v d) (hc : c ∈ v.objs h.kmemCacheSlab) (hd : d ∈ v.mem (f.head c)) :
    f.Fits (h.slabs d) (v.objs d) := by
  have ho := (k.owner_of_mem hc hd).2
  have ⟨g, hg, hm⟩ := hs <| ho ▸ k.cache_ne_zero hc
  rw [ho] at hm
  exact k.fill_unique hc hd hm ▸ hg

-- A slab is taken from its list.
theorem take_off (k : Core h v) (hc : c ∈ v.objs h.kmemCacheSlab) (hd : d ∈ v.mem (f.head c)) :
    ∃ mem, Core { h with links := Zgmos.listDel h.links d } { v with mem } ∧
      View.Loose h { v with mem } d ∧ mem h.cacheList = v.mem h.cacheList ∧
      (∀ x ≠ d, ∀ p, x ∈ v.mem p → x ∈ mem p) ∧
      (∀ p ≠ f.head c, mem p = v.mem p) ∧ mem (f.head c) = (v.mem (f.head c)).erase d := by
  have ⟨xs, ys, hm⟩ := List.append_of_mem hd
  have hn := (k.rings.ring (head_mem (f := f) hc)).nodup
  have hx : d ∉ xs := fun hx =>
    List.disjoint_of_nodup_append (hm ▸ (List.nodup_cons.mp hn).2) hx List.mem_cons_self
  have he : (v.mem (f.head c)).erase d = xs ++ ys := by
    rw [hm, List.erase_append_right _ hx, List.erase_cons_head]
  refine ⟨_, k.listDel hc hm, ?_, Function.update_of_ne (k.head_ne hc).symm .., ?_, ?_, ?_⟩
  case refine_1 =>
    intro c' hc' hd'
    have ⟨g, hg⟩ := View.mem_slabsOf.mp hd'
    by_cases hgf : g.head c' = f.head c
    case pos =>
      simp only [hgf, Function.update_self, ← he] at hg
      exact (List.nodup_cons.mp hn).2.not_mem_erase hg
    case neg =>
      simp only [Function.update_of_ne hgf] at hg
      exact hgf <| k.rings.eq_of_mem (head_mem hc') (head_mem hc) hg hd
  case refine_2 =>
    intro x hx p hp
    by_cases hpf : p = f.head c
    case neg => rwa [Function.update_of_ne hpf]
    case pos =>
      subst hpf
      rw [Function.update_self, ← he]
      exact (List.mem_erase_of_ne hx).mpr hp
  case refine_3 => exact fun p hp => Function.update_of_ne hp ..
  case refine_4 => rw [Function.update_self, he]

-- A slab is put to a list.
theorem put_on (k : Core h v) (f : Fill) (hc : c ∈ v.objs h.kmemCacheSlab) (hd : d ∈ v.objs h.pslab)
    (hl : v.Loose h d) (ho : v.owner d = c) :
    ∃ mem, Core { h with links := Zgmos.listAdd h.links d (f.head c) } { v with mem } ∧
      mem h.cacheList = v.mem h.cacheList ∧ (∀ x p, x ∈ v.mem p → x ∈ mem p) ∧ d ∈ mem (f.head c) := by
  refine ⟨_, k.listAdd f hc hd hl ho, Function.update_of_ne (k.head_ne hc).symm .., fun x p hx => ?_, by simp⟩
  by_cases hp : p = f.head c
  case neg => rwa [Function.update_of_ne hp]
  case pos =>
    subst hp
    rw [Function.update_self]
    exact .tail _ hx

-- A slab is moved between the lists of its cache.
theorem move (k : Core h v) (g : Fill) (hc : c ∈ v.objs h.kmemCacheSlab) (hd : d ∈ v.mem (f.head c)) :
    ∃ mem, Core { h with links := Zgmos.listAdd (Zgmos.listDel h.links d) d (g.head c) } { v with mem } ∧
      mem h.cacheList = v.mem h.cacheList ∧ (∀ x ≠ d, ∀ p, x ∈ v.mem p → x ∈ mem p) ∧ d ∈ mem (g.head c) := by
  have ⟨hm, ho⟩ := k.owner_of_mem hc hd
  have ⟨_, k₁, hl, h₁, h₂, _⟩ := k.take_off hc hd
  have ⟨mem, k₂, h₃, h₄, h₅⟩ := k₁.put_on g hc hm hl ho
  exact ⟨mem, k₂, h₃.trans h₁, fun x hx p hp => h₄ x p <| h₂ x hx p hp, h₅⟩

theorem lock (k : Core h v) (locked : Bool) : Core { h with locked } v where
  rings   := k.rings
  sound   := k.sound
  sizes   := k.sizes
  child hd ho := { k.child hd ho with }
  listed  := k.listed
  objsize := k.objsize
  classes := k.classes
  pages   := k.pages
  apart   := k.apart
  behind  := k.behind
  inMeta  := k.inMeta

end Core

end Zgmos.Kmem
