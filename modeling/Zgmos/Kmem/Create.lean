import Zgmos.Kmem.Shrink

namespace Zgmos.Kmem

-- The lists of a new cache.

def initLinks (l : Links Nat) (kc : Nat) : Links Nat :=
  listInit (listInit (listInit (listInit l kc) <| slabFullOf kc) <| slabPartialOf kc) <| slabFreeOf kc

def View.enter (v : View) (kmemCacheSlab kc : Nat) : View := { v with
  mem  := Function.update (Function.update (Function.update v.mem (slabFullOf kc) []) (slabPartialOf kc) [])
    (slabFreeOf kc) []
  objs := Function.update v.objs kmemCacheSlab (kc :: v.objs kmemCacheSlab)
}

variable {h h' : Heap} {v v' : View} {a c d kc n p size : Nat} {s : Slab} {l : Links Nat}

theorem initLinks_prev (ha : a < kc ∨ kc + sizeofKmemCache ≤ a) : (initLinks l kc).prev a = l.prev a := by
  simp only [sizeofKmemCache] at ha
  simp only [initLinks, listInit, slabFullOf, slabPartialOf, slabFreeOf, Links.setPrev_prev, Links.setNext_prev]
  repeat rw [Function.update_of_ne (by omega)]

theorem View.enter_mem (hp : ∀ f : Fill, p ≠ f.head kc) : (v.enter n kc).mem p = v.mem p := by
  simp only [enter]
  rw [Function.update_of_ne (show p ≠ slabFreeOf kc from hp .empty),
    Function.update_of_ne (show p ≠ slabPartialOf kc from hp .mixed),
    Function.update_of_ne (show p ≠ slabFullOf kc from hp .full)]

theorem View.enter_mem_head (f : Fill) : (v.enter n kc).mem (f.head kc) = [] := by
  cases f <;> simp [enter, Fill.head, Function.update, slabFullOf, slabPartialOf, slabFreeOf]

namespace Core

-- No node lies in a free place for a cache.
theorem not_node_of_hands (k : Core h v)
    (hh : Slab.Hands (h.slabs h.kmemCacheSlab) s h.links.prev (v.objs h.kmemCacheSlab) kc) (hl : kc ≤ n)
    (hu : n < kc + sizeofKmemCache) : ¬Rings.Node (h.heads v) v.mem n := by
  intro hn
  have hs := k.sound kmemCacheSlab_mem
  have hin := hs.obj_le hh.obj
  have hbe := k.behind_slab (v := v) kmemCacheSlab_mem
  rw [k.sizes.1] at hin
  obtain he | ⟨c, hc, hcn⟩ | hn := k.spot_of_node hn
  case inl => omega
  case inr.inl =>
    have hne : c ≠ kc := fun he => hh.free <| he ▸ hc
    have hp := hs.place_of_obj hh.obj
    have hp' := k.obj_place kmemCacheSlab_mem hc
    cases Nat.lt_or_gt_of_ne hne
    case inl hlt =>
      have := Slab.Shape.obj_apart hp' hp hlt
      rw [k.sizes.1] at this
      omega
    case inr hgt =>
      have := Slab.Shape.obj_apart hp hp' hgt
      rw [k.sizes.1] at this
      omega
  case inr.inr =>
    have hnin := k.obj_inside pslab_mem hn
    rw [k.sizes.2, sizeofSlab] at hnin
    exact k.pslab_ne <| k.eq_of_inside (a := n) pslab_mem kmemCacheSlab_mem (by omega) (by omega)

theorem initLinks_rings (k : Core h v)
    (hh : Slab.Hands (h.slabs h.kmemCacheSlab) s h.links.prev (v.objs h.kmemCacheSlab) kc) :
    Rings (initLinks h.links kc) (insert (slabFreeOf kc) <| insert (slabPartialOf kc) <|
      insert (slabFullOf kc) <| h.heads v) (v.enter h.kmemCacheSlab kc).mem := by
  have hn : ∀ n, kc ≤ n → n < kc + sizeofKmemCache → ¬Rings.Node (h.heads v) v.mem n := fun _ =>
    k.not_node_of_hands hh
  simp only [sizeofKmemCache] at hn
  have r₀ : Rings (listInit h.links kc) (h.heads v) v.mem := by
    have hne : ∀ n, Rings.Node (h.heads v) v.mem n → n ≠ kc := fun n hm he => hn kc (by omega) (by omega) <| he ▸ hm
    exact k.rings.congr (fun n hm => by simp [listInit, hne n hm]) fun n hm => by simp [listInit, hne n hm]
  have r₁ := r₀.init <| hn (slabFullOf kc) (by simp [slabFullOf]) (by simp [slabFullOf])
  have r₂ := r₁.init (n := slabPartialOf kc) fun hm => by
    cases Rings.node_init hm
    case inl he => simp [slabPartialOf, slabFullOf] at he
    case inr hm => exact hn _ (by simp [slabPartialOf]) (by simp [slabPartialOf]) hm
  exact r₂.init (n := slabFreeOf kc) fun hm => by
    cases Rings.node_init hm
    case inl he => simp [slabPartialOf, slabFreeOf] at he
    case inr hm =>
      cases Rings.node_init hm
      case inl he => simp [slabFreeOf, slabFullOf] at he
      case inr hm => exact hn _ (by simp [slabFreeOf]) (by simp [slabFreeOf]) hm

theorem enter_mem_of_node (k : Core h v)
    (hh : Slab.Hands (h.slabs h.kmemCacheSlab) s h.links.prev (v.objs h.kmemCacheSlab) kc)
    (hp : Rings.Node (h.heads v) v.mem p) : (v.enter h.kmemCacheSlab kc).mem p = v.mem p :=
  View.enter_mem fun f he => by
    have := f.head_bounds kc
    exact k.not_node_of_hands hh (by omega) (by omega) hp

-- A new cache.
theorem newCache (k : Core h v)
    (hh : Slab.Hands (h.slabs h.kmemCacheSlab) s h.links.prev (v.objs h.kmemCacheSlab) kc)
    (hsz : 0 < size ∧ 8 ∣ size ∧ size ≤ pageSize * 2 ^ kmemCacheCslabOrder) :
    Core { h with
      links   := initLinks h.links kc
      slabs   := Function.update h.slabs h.kmemCacheSlab s
      objsize := Function.update h.objsize kc size
    } (v.enter h.kmemCacheSlab kc) := by
  have hs := k.sound kmemCacheSlab_mem
  have hok : (v.enter h.kmemCacheSlab kc).objs h.kmemCacheSlab = kc :: v.objs h.kmemCacheSlab :=
    Function.update_self ..
  have hoo : ∀ d' ≠ h.kmemCacheSlab, (v.enter h.kmemCacheSlab kc).objs d' = v.objs d' := fun d' hne =>
    Function.update_of_ne hne ..
  have hop := hoo _ k.pslab_ne
  have hsame : ∀ d', (Function.update h.slabs h.kmemCacheSlab s d').pg = (h.slabs d').pg ∧
      (Function.update h.slabs h.kmemCacheSlab s d').order = (h.slabs d').order ∧
        (Function.update h.slabs h.kmemCacheSlab s d').sizeObj = (h.slabs d').sizeObj := fun d' => by
    by_cases hp : d' = h.kmemCacheSlab
    case pos => simp [hp, hh.eq]
    case neg => simp [hp]
  have hkin := hs.obj_le hh.obj
  rw [k.sizes.1] at hkin
  have hpl := hs.place_of_obj hh.obj
  constructor
  case rings =>
    have hH : Heap.heads { h with
        links   := initLinks h.links kc
        slabs   := Function.update h.slabs h.kmemCacheSlab s
        objsize := Function.update h.objsize kc size
      } (v.enter h.kmemCacheSlab kc) = insert (slabFreeOf kc) (insert (slabPartialOf kc) <|
        insert (slabFullOf kc) <| h.heads v) := by
      ext n
      simp only [Heap.heads, hok, Set.mem_ofPred_eq, Set.mem_insert_iff, List.mem_cons]
      constructor
      case mp =>
        intro hn
        obtain hn | ⟨c, rfl | hc, f, hn⟩ := hn
        case inl           => exact .inr <| .inr <| .inr <| .inl hn
        case inr.inr       => exact .inr <| .inr <| .inr <| .inr ⟨c, hc, f, hn⟩
        case inr.inl       =>
          cases f
          case full  => exact .inr <| .inr <| .inl hn
          case mixed => exact .inr <| .inl hn
          case empty => exact .inl hn
      case mpr =>
        intro hn
        obtain hn | hn | hn | hn | ⟨c, hc, f, hn⟩ := hn
        case inl                 => exact .inr ⟨kc, .inl rfl, .empty, hn⟩
        case inr.inl             => exact .inr ⟨kc, .inl rfl, .mixed, hn⟩
        case inr.inr.inl         => exact .inr ⟨kc, .inl rfl, .full, hn⟩
        case inr.inr.inr.inl     => exact .inl hn
        case inr.inr.inr.inr     => exact .inr ⟨c, .inr hc, f, hn⟩
    rw [hH]
    exact k.initLinks_rings hh
  case sound =>
    intro d' hd'
    have hm : d' ∈ h.all v := by simpa only [Heap.all, hop] using hd'
    by_cases hp : d' = h.kmemCacheSlab
    case pos =>
      subst hp
      simp only [Function.update_self, hok]
      refine hh.sound.congr fun a ha hna => initLinks_prev ?_
      have hne : a ≠ kc := fun he => hna <| he ▸ .head _
      have ha : (h.slabs h.kmemCacheSlab).Place a := by rwa [hh.eq] at ha
      rw [← k.sizes.1]
      cases Nat.lt_or_gt_of_ne hne
      case inl hlt => exact .inl hlt
      case inr hgt => exact .inr <| Slab.Shape.obj_apart hpl ha hgt
    case neg =>
      simp only [Function.update_of_ne hp, hoo d' hp]
      refine (k.sound hm).congr fun a ha _ => initLinks_prev ?_
      by_contra hn
      exact hp <| k.eq_of_inside hm kmemCacheSlab_mem (k.place_inside hm ha) (by omega)
  case sizes   => simpa only [hsame] using k.sizes
  case child   =>
    intro d' hd' ho
    have kc' := k.child (hop ▸ hd') ho
    have hne : v.owner d' ≠ kc := fun he => hh.free <| he ▸ kc'.owner
    apply kc'.congr
    case ho  => rfl
    case hm  => exact hok ▸ .tail _ kc'.owner
    case hsz => exact Function.update_of_ne hne ..
    case hs  => exact hsame d'
    case ha  => exact fun _ _ _ => rfl
  case listed  =>
    intro c' d' hc' hd'
    obtain ⟨f, hf⟩ := View.mem_slabsOf.mp hd'
    simp only [hok] at hc'
    cases hc'
    case head     => rw [View.enter_mem_head] at hf; cases hf
    case tail hc' =>
      rw [k.enter_mem_of_node hh <| Rings.node_head <| head_mem hc'] at hf
      simp only [hop]
      exact k.listed hc' <| View.mem_slabsOf.mpr ⟨f, hf⟩
  case objsize =>
    intro c' hc'
    simp only [hok] at hc'
    by_cases he : c' = kc
    case pos => simpa [he] using hsz
    case neg => simpa [he] using k.objsize ((List.mem_cons.mp hc').resolve_left he)
  case classes =>
    have hcl := k.enter_mem_of_node hh (@Rings.node_head _ _ v.mem _ (.inl rfl))
    simp only [hcl, hok]
    exact fun c hc => .tail _ <| k.classes hc
  case pages   =>
    have hbl : ∀ h' : Heap, h'.slabs = Function.update h.slabs h.kmemCacheSlab s → h'.block = h.block := fun h' hs' => by
      funext d'
      rw [Heap.block, hs', (hsame d').1, (hsame d').2.1, Heap.block]
    rw [hbl { h with
      links   := initLinks h.links kc
      slabs   := Function.update h.slabs h.kmemCacheSlab s
      objsize := Function.update h.objsize kc size
    } rfl]
    simp only [Heap.all, hop]
    exact k.pages
  case apart   => exact k.apart
  case behind  => exact k.behind
  case inMeta  =>
    have hm : (Function.update h.slabs h.kmemCacheSlab s h.metaSlab).bytes = (h.slabs h.metaSlab).bytes := by
      rw [Slab.bytes, Slab.bytes, (hsame _).2.1]
    intro d' hd'
    simp only [(hsame h.metaSlab).1, hm]
    exact k.inMeta hd'

theorem kmemCacheCreate_spec (k : Core h v) (hf : (h.slabs h.kmemCacheSlab).freeObj ≠ 0) (size : Nat) :
    ∃ kc s, (kmemCacheCreate size).run h = .ok (kc, { h with
        links   := initLinks h.links kc
        slabs   := Function.update h.slabs h.kmemCacheSlab s
        objsize := Function.update h.objsize kc size
      }) ∧ Slab.Hands (h.slabs h.kmemCacheSlab) s h.links.prev (v.objs h.kmemCacheSlab) kc := by
  have hs := k.sound kmemCacheSlab_mem
  have := hs.count
  have ⟨kc, s, hr, hh⟩ := Slab.slabAlloc_spec hs (by omega)
  have hr := slabAllocAt_run (k.static_ne_zero <| .inl rfl) hr
  have hkc := hs.place_pos <| hs.place_of_obj hh.obj
  refine ⟨kc, s, ?_, hh⟩
  simp [kmemCacheCreate, hr, hkc.ne', initLinks]

-- A cache that is not on the list of the caches.
theorem not_node_of_cache (k : Core h v) (hc : c ∈ v.objs h.kmemCacheSlab) (hn : c ∉ v.mem h.cacheList) :
    ¬Rings.Node (h.heads v) v.mem c := by
  have hin := k.obj_inside kmemCacheSlab_mem hc
  rw [k.sizes.1, sizeofKmemCache] at hin
  rintro ⟨m, hm, hx⟩
  cases hm
  case inl hm =>
    subst hm
    cases hx
    case head    =>
      have := k.behind_slab (v := v) kmemCacheSlab_mem
      omega
    case tail hx => exact hn hx
  case inr hm =>
    obtain ⟨c', hc', f, hm⟩ := hm
    subst hm
    cases hx
    case tail hx =>
      have hd := (k.owner_of_mem hc' hx).1
      have hdin := k.obj_inside pslab_mem hd
      rw [k.sizes.2, sizeofSlab] at hdin
      exact k.pslab_ne <| k.eq_of_inside (a := c) pslab_mem kmemCacheSlab_mem (by omega) (by omega)
    case head =>
      have hb := f.head_bounds c'
      have hp := k.obj_place kmemCacheSlab_mem hc
      have hp' := k.obj_place kmemCacheSlab_mem hc'
      have := Slab.Shape.obj_apart hp' hp hb.1
      rw [k.sizes.1] at this
      omega

-- A cache is put to the list of the caches.
theorem kmemAdd_spec (k : Core h v) (hc : c ∈ v.objs h.kmemCacheSlab) (hn : c ∉ v.mem h.cacheList) :
    Core { h with links := listAddTail h.links c h.cacheList }
      { v with mem := Function.update v.mem h.cacheList (v.mem h.cacheList ++ [c]) } := by
  have hcl : h.cacheList ∈ h.heads v := .inl rfl
  have hnode := k.not_node_of_cache hc hn
  have hr : Rings (listAddTail h.links c h.cacheList) (h.heads v)
      (Function.update v.mem h.cacheList (v.mem h.cacheList ++ [c])) := k.rings.insert_back hcl hnode
  constructor
  case rings   => exact hr
  case sound   =>
    intro d hd
    refine (k.sound hd).congr fun a ha hna => Links.insert_prev ?_ ?_
    case refine_1 =>
      exact fun he => hna <| k.mem_of_spot (.inr <| .inl ⟨c, hc, by omega, by simp [he, sizeofKmemCache]⟩) hd ha
    case refine_2 => exact fun he => hna <| k.mem_of_spot (.inl he) hd ha
  case sizes   => exact k.sizes
  case child   => exact fun hd ho => (k.child hd ho).congr rfl (k.child hd ho).owner rfl ⟨rfl, rfl, rfl⟩ fun _ _ _ => rfl
  case listed  =>
    intro c' d hc' hd
    obtain ⟨f, hf⟩ := View.mem_slabsOf.mp hd
    simp only [Function.update_of_ne (k.head_ne hc')] at hf
    exact k.listed hc' <| View.mem_slabsOf.mpr ⟨f, hf⟩
  case objsize => exact k.objsize
  case classes =>
    simp only [Function.update_self]
    exact List.append_subset.mpr ⟨k.classes, by simpa using hc⟩
  case pages   => exact k.pages
  case apart   => exact k.apart
  case behind  => exact k.behind
  case inMeta  => exact k.inMeta

end Core

end Zgmos.Kmem
