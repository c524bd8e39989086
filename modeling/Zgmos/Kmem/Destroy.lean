import Zgmos.Kmem.Create

namespace Zgmos.Kmem

-- The slabs of the cache `c` are lost, if it has any.
def View.leave (v : View) (kmemCacheSlab c : Nat) : View := { v with
  objs  := Function.update v.objs kmemCacheSlab ((v.objs kmemCacheSlab).erase c)
  owner := fun d => if v.owner d = c then 0 else v.owner d
}

variable {h h' : Heap} {v v' : View} {a c d : Nat} {s : Slab} {w : Words}

theorem View.leave_owner {n : Nat} (ho : (v.leave n c).owner d ≠ 0) :
    v.owner d ≠ c ∧ v.owner d ≠ 0 ∧ (v.leave n c).owner d = v.owner d := by
  by_cases he : v.owner d = c
  case pos => simp [leave, he] at ho
  case neg =>
    have hl : (v.leave n c).owner d = v.owner d := if_neg he
    exact ⟨he, hl ▸ ho, hl⟩

namespace Core

-- A cache without slabs is given back.
theorem dropCache (k : Core h v) (hc : c ∈ v.objs h.kmemCacheSlab) (hn : c ∉ v.mem h.cacheList)
    (ht : Slab.Takes (h.slabs h.kmemCacheSlab) s h.links.prev w (v.objs h.kmemCacheSlab) c) :
    Core { h with
      links := { h.links with prev := w }
      slabs := Function.update h.slabs h.kmemCacheSlab s
    } (v.leave h.kmemCacheSlab c) := by
  have hcn : (v.objs h.kmemCacheSlab).Nodup := (k.sound kmemCacheSlab_mem).nodup
  have hok : (v.leave h.kmemCacheSlab c).objs h.kmemCacheSlab = (v.objs h.kmemCacheSlab).erase c :=
    Function.update_self ..
  have hoo : ∀ d' ≠ h.kmemCacheSlab, (v.leave h.kmemCacheSlab c).objs d' = v.objs d' := fun d' hne =>
    Function.update_of_ne hne ..
  have hop := hoo _ k.pslab_ne
  have hsame : ∀ d', (Function.update h.slabs h.kmemCacheSlab s d').pg = (h.slabs d').pg ∧
      (Function.update h.slabs h.kmemCacheSlab s d').order = (h.slabs d').order ∧
        (Function.update h.slabs h.kmemCacheSlab s d').sizeObj = (h.slabs d').sizeObj := fun d' => by
    by_cases hp : d' = h.kmemCacheSlab
    case neg => simp [hp]
    case pos =>
      rw [hp, Function.update_self, ht.eq]
      exact ⟨rfl, rfl, rfl⟩
  have hcp := k.place_inside kmemCacheSlab_mem <| k.obj_place kmemCacheSlab_mem hc
  constructor
  case rings =>
    have hH : Heap.heads { h with
        links := { h.links with prev := w }
        slabs := Function.update h.slabs h.kmemCacheSlab s
      } (v.leave h.kmemCacheSlab c) ⊆ h.heads v := by
      intro n hn
      simp only [Heap.heads, hok] at hn
      cases hn
      case inl hn => exact .inl hn
      case inr hn =>
        obtain ⟨c', hc', hn⟩ := hn
        exact .inr ⟨c', List.mem_of_mem_erase hc', hn⟩
    refine Rings.mono ?_ hH
    refine k.rings.congr (fun _ _ => rfl) fun n hnode => ht.frame n ?_ ?_
    case refine_1 => exact fun he => k.not_node_of_cache hc hn <| he ▸ hnode
    case refine_2 => exact fun hp => k.mem_of_spot (k.spot_of_node hnode) kmemCacheSlab_mem hp
  case sound =>
    intro d' hd'
    have hm : d' ∈ h.all v := by simpa only [Heap.all, hop] using hd'
    by_cases hp : d' = h.kmemCacheSlab
    case pos =>
      subst hp
      simpa only [Function.update_self, hok] using ht.sound
    case neg =>
      simp only [Function.update_of_ne hp, hoo d' hp]
      have hout : ∀ {a}, (h.slabs d').Place a →
          ¬((h.slabs h.kmemCacheSlab).pg ≤ a ∧ a < (h.slabs h.kmemCacheSlab).pg + (h.slabs h.kmemCacheSlab).bytes) :=
        fun ha hin => hp <| k.eq_of_inside hm kmemCacheSlab_mem (k.place_inside hm ha) hin
      refine (k.sound hm).congr fun a ha _ => ht.frame a ?_ ?_
      case refine_1 => exact fun he => hout ha <| he ▸ hcp
      case refine_2 => exact fun hp => absurd (k.place_inside kmemCacheSlab_mem hp) <| hout ha
  case sizes   => simpa only [hsame] using k.sizes
  case child   =>
    intro d' hd' ho
    obtain ⟨hne, ho, he⟩ := View.leave_owner ho
    have kc := k.child (hop ▸ hd') ho
    apply kc.congr
    case ho  => exact he
    case hm  => exact hok ▸ (List.mem_erase_of_ne hne).mpr kc.owner
    case hsz => rfl
    case hs  => exact hsame d'
    case ha  => exact fun _ _ _ => rfl
  case listed  =>
    intro c' d' hc' hd'
    simp only [hok, hcn.mem_erase_iff] at hc'
    obtain ⟨hm, ho⟩ := k.listed hc'.2 hd'
    refine ⟨hop ▸ hm, ?_⟩
    simp only [View.leave, ho, if_neg hc'.1]
  case objsize =>
    intro c' hc'
    simp only [hok] at hc'
    exact k.objsize <| List.mem_of_mem_erase hc'
  case classes =>
    intro c' hc'
    simp only [hok]
    have hne : c' ≠ c := fun he => hn <| he ▸ hc'
    exact (List.mem_erase_of_ne hne).mpr <| k.classes hc'
  case pages   =>
    have hbl : ∀ h' : Heap, h'.slabs = Function.update h.slabs h.kmemCacheSlab s → h'.block = h.block := fun h' hs' => by
      funext d'
      rw [Heap.block, hs', (hsame d').1, (hsame d').2.1, Heap.block]
    rw [hbl { h with links := { h.links with prev := w }, slabs := Function.update h.slabs h.kmemCacheSlab s } rfl]
    simp only [Heap.all, hop]
    exact k.pages
  case apart   => exact k.apart
  case behind  => exact k.behind
  case inMeta  =>
    have hm : (Function.update h.slabs h.kmemCacheSlab s h.metaSlab).bytes = (h.slabs h.metaSlab).bytes := by
      rw [Slab.bytes, Slab.bytes, (hsame _).2.1]
    intro d' hd'
    simp only [(hsame h.metaSlab).1, hm]
    exact k.inMeta hd'

end Core

-- What the end of the cache `c` does.
structure Drops (h h' : Heap) (v v' : View) (c : Nat) : Prop where
  inv    : Inv h' v'
  frame  : h.Frame h'
  caches : v'.objs h.kmemCacheSlab = (v.objs h.kmemCacheSlab).erase c
  list   : v'.mem h.cacheList = v.mem h.cacheList
  live   : ∀ a c', c' ≠ c → c' ≠ 0 → (h'.Live v' a c' ↔ h.Live v a c')

namespace Inv

theorem drop (i : Inv h v) (hc : c ∈ v.objs h.kmemCacheSlab) (hn : c ∉ v.mem h.cacheList) :
    ∃ h', (slabFreeAt h.kmemCacheSlab c).run h = .ok ((), h') ∧ h'.pages = h.pages ∧
      (∀ d ∈ v.objs h.pslab, h'.slabs d = h.slabs d) ∧ Drops h h' v (v.leave h.kmemCacheSlab c) c := by
  have k := i.toCore
  have ⟨s, w, hr, ht⟩ := Slab.slabFree_spec (k.sound Core.kmemCacheSlab_mem) hc
  have hr := slabFreeAt_run (k.static_ne_zero <| .inl rfl) hr
  have k' := k.dropCache hc hn ht
  have hop : (v.leave h.kmemCacheSlab c).objs h.pslab = v.objs h.pslab := Function.update_of_ne k.pslab_ne ..
  have hoo : ∀ {d}, d ∈ v.objs h.pslab → (v.leave h.kmemCacheSlab c).objs d = v.objs d := fun hd =>
    Function.update_of_ne (k.ne_kmemCacheSlab hd) ..
  refine ⟨{ h with
    links := { h.links with prev := w }
    slabs := Function.update h.slabs h.kmemCacheSlab s
  }, hr, rfl, fun d hd => Function.update_of_ne (k.ne_kmemCacheSlab hd) .., ?_⟩
  constructor
  case inv    =>
    refine { k' with settled := fun {d} hd ho => ?_ }
    have ⟨_, ho, he⟩ := View.leave_owner ho
    have hd : d ∈ v.objs h.pslab := hop ▸ hd
    have ⟨f, hf, hfm⟩ := i.settled hd ho
    refine ⟨f, ?_, he ▸ hfm⟩
    rw [hoo hd]
    simpa only [Function.update_of_ne (k.ne_kmemCacheSlab hd)] using hf
  case frame  => exact ⟨rfl, rfl, rfl, rfl, rfl, rfl⟩
  case caches => exact Function.update_self ..
  case list   => rfl
  case live   =>
    intro a c' hne hne₀
    show (∃ d ∈ (v.leave h.kmemCacheSlab c).objs h.pslab, _) ↔ _
    simp only [hop]
    constructor
    case mp =>
      intro ⟨d, hd, ho, ha⟩
      have ⟨_, _, he⟩ := View.leave_owner (ho ▸ hne₀)
      exact ⟨d, hd, he.symm.trans ho, hoo hd ▸ ha⟩
    case mpr =>
      intro ⟨d, hd, ho, ha⟩
      refine ⟨d, hd, ?_, (hoo hd).symm ▸ ha⟩
      simp only [View.leave, ho, if_neg hne]

theorem kmemCacheDestory_run {h₁ : Heap} (hr : (kmemCacheShrink c).run h = .ok ((), h₁))
    (hr' : (slabFreeAt h₁.kmemCacheSlab c).run h₁ = .ok ((), h')) : (kmemCacheDestory c).run h = .ok ((), h') := by
  simp only [kmemCacheDestory, StateT.run_bind, hr]
  exact hr'

end Inv

end Zgmos.Kmem
