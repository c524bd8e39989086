import Zgmos.Kmem.Moves

namespace Zgmos.Kmem

-- What an allocation that returns an object does.
structure Grants (h h' : Heap) (v v' : View) (c ret : Nat) : Prop where
  inv    : Inv h' v'
  frame  : h.Frame h'
  caches : v'.objs h.kmemCacheSlab = v.objs h.kmemCacheSlab
  list   : v'.mem h.cacheList = v.mem h.cacheList
  pos    : 0 < ret
  new    : ¬h.Live v ret c'
  live   : h'.Live v' a c' ↔ a = ret ∧ c' = c ∨ h.Live v a c'
  lost   : d ∈ v'.objs h.pslab → v'.owner d = 0 → d ∈ v.objs h.pslab ∧ v.owner d = 0

-- What the release of an object does.
structure Releases (h h' : Heap) (v v' : View) (a : Nat) : Prop where
  inv    : Inv h' v'
  frame  : h.Frame h'
  caches : v'.objs h.kmemCacheSlab = v.objs h.kmemCacheSlab
  list   : v'.mem h.cacheList = v.mem h.cacheList
  live   : h'.Live v' a' c' ↔ h.Live v a' c' ∧ a' ≠ a
  lost   : d ∈ v'.objs h.pslab → v'.owner d = 0 → d ∈ v.objs h.pslab ∧ v.owner d = 0

variable {h h' : Heap} {v v' : View} {a c d ret : Nat} {f g : Fill} {mem : Nat → List Nat} {s : Slab} {l : Links Nat}
  {xs ys : List Nat}

namespace Core

-- An object lies in one slab only.
theorem slab_unique (k : Core h v) {d' : Nat} (hd : d ∈ v.objs h.pslab) (hd' : d' ∈ v.objs h.pslab)
    (ha : (h.slabs d).Obj a) (ha' : a ∈ v.objs d') : d = d' := by
  have hp := (k.sound <| mem_all hd).place_of_obj ha
  exact k.eq_of_inside (mem_all hd) (mem_all hd') (k.place_inside (mem_all hd) hp)
    (k.place_inside (mem_all hd') <| k.obj_place (mem_all hd') ha')

-- The slabs other than `d` are as before.
theorem settled_of_ne (hs : Settled h v a) (hne : a ≠ d) {os : List Nat}
    (hm : ∀ x ≠ d, ∀ p, x ∈ v.mem p → x ∈ mem p) :
    Settled { h with slabs := Function.update h.slabs d s, links := l }
      { v with mem, objs := Function.update v.objs d os } a := by
  intro ho
  have ⟨g, hg, hgm⟩ := hs ho
  refine ⟨g, ?_, hm a hne _ hgm⟩
  simp only [Function.update_of_ne hne]
  exact hg

theorem grants (k : Core h v) (hs : ∀ d' ∈ v.objs h.pslab, d' ≠ d → Settled h v d') (hd : d ∈ v.objs h.pslab)
    (hh : Slab.Hands (h.slabs d) s h.links.prev (v.objs d) ret)
    (k' : Core { h with slabs := Function.update h.slabs d s, links := l }
      { v with mem, objs := Function.update v.objs d (ret :: v.objs d) })
    (hl : mem h.cacheList = v.mem h.cacheList) (hm : ∀ x ≠ d, ∀ p, x ∈ v.mem p → x ∈ mem p)
    (hf : f.Fits s (ret :: v.objs d)) (hdm : d ∈ mem (f.head (v.owner d))) :
    Grants h { h with slabs := Function.update h.slabs d s, links := l } v
      { v with mem, objs := Function.update v.objs d (ret :: v.objs d) } (v.owner d) ret := by
  have hp : Function.update v.objs d (ret :: v.objs d) h.pslab = v.objs h.pslab :=
    Function.update_of_ne (k.ne_pslab hd).symm ..
  constructor
  case inv    =>
    refine { k' with settled := fun {d'} hd' => ?_ }
    simp only [hp] at hd'
    by_cases hne : d' = d
    case neg => exact settled_of_ne (hs d' hd' hne) hne hm
    case pos =>
      subst hne
      exact fun _ => ⟨f, by simpa using hf, hdm⟩
  case frame  => exact ⟨rfl, rfl, rfl, rfl, rfl, rfl⟩
  case caches => exact Function.update_of_ne (k.ne_kmemCacheSlab hd).symm ..
  case list   => exact hl
  case pos    => exact (k.sound <| mem_all hd).place_pos <| (k.sound <| mem_all hd).place_of_obj hh.obj
  case lost   => exact fun hd ho => ⟨hp ▸ hd, ho⟩
  case new    =>
    intro c' ⟨d', hd', _, ha⟩
    exact hh.free <| k.slab_unique hd hd' hh.obj ha ▸ ha
  case live   =>
    intro a c'
    simp only [Heap.Live, hp]
    constructor
    case mp =>
      intro ⟨d', hd', ho, ha⟩
      by_cases hne : d' = d
      case neg => exact .inr ⟨d', hd', ho, by simpa [hne] using ha⟩
      case pos =>
        subst hne
        rw [Function.update_self] at ha
        cases ha
        case head    => exact .inl ⟨rfl, ho.symm⟩
        case tail ha => exact .inr ⟨d', hd', ho, ha⟩
    case mpr =>
      intro hx
      cases hx
      case inl hx =>
        have ⟨ha, hc⟩ := hx
        exact ⟨d, hd, hc.symm, by simp [ha]⟩
      case inr hx =>
        have ⟨d', hd', ho, ha⟩ := hx
        refine ⟨d', hd', ho, ?_⟩
        by_cases hne : d' = d
        case neg => simpa [hne] using ha
        case pos =>
          subst hne
          rw [Function.update_self]
          exact .tail _ ha

-- The list with the slabs that have free objects is empty, or its first slab is used.
theorem ring (k : Core h v) (f : Fill) (hc : c ∈ v.objs h.kmemCacheSlab) :
    h.links.Ring (f.head c) (v.mem (f.head c)) :=
  k.rings.ring (head_mem hc)

theorem isEmpty_eq (k : Core h v) (f : Fill) (hc : c ∈ v.objs h.kmemCacheSlab) :
    listIsEmpty h.links (f.head c) = (v.mem (f.head c)).isEmpty := by
  rw [Bool.eq_iff_iff, listIsEmpty_iff (k.ring f hc), List.isEmpty_iff]

end Core

namespace Inv

-- An object of the first slab on the list of the slabs with live and free objects.
theorem kmemCacheAlloc_mixed (i : Inv h v) (hc : c ∈ v.objs h.kmemCacheSlab) (hm : v.mem (slabPartialOf c) = d :: xs) :
    ∃ ret h' v', (kmemCacheAlloc c).run h = .ok (ret, h') ∧ Grants h h' v v' c ret := by
  have k := i.toCore
  have hdm : d ∈ v.mem (Fill.mixed.head c) := by simp [Fill.head, hm]
  obtain ⟨hd, ho⟩ := k.owner_of_mem hc hdm
  obtain ⟨hf, _⟩ := k.fits (i.settled hd) hc hdm
  obtain ⟨ret, s, hr, hh, k'⟩ := k.take hd hf
  have he : listIsEmpty h.links (slabPartialOf c) = false := by
    have := k.isEmpty_eq .mixed hc
    simpa [Fill.head, hm] using this
  have hn : h.links.next (slabPartialOf c) = d := by
    have := (k.ring .mixed hc).next_head
    simpa [Fill.head, hm] using this
  have hc' : c ∈ Function.update v.objs d (ret :: v.objs d) h.kmemCacheSlab := by
    rwa [Function.update_of_ne (k.ne_kmemCacheSlab hd).symm]
  subst ho
  by_cases hfull : s.freeObj = 0
  case pos =>
    obtain ⟨mem, k'', hl, hx, hg⟩ := k'.move .full hc' hdm
    refine ⟨ret, _, _, ?_, k.grants (f := .full) (fun d' hd' _ => i.settled hd') hd hh k'' hl hx hfull hg⟩
    simp [kmemCacheAlloc, he, hn, hr, slabFull, hfull, Fill.head]
  case neg =>
    refine ⟨ret, _, _, ?_, k.grants (f := .mixed) (fun d' hd' _ => i.settled hd') hd hh k' rfl (fun _ _ _ hx => hx)
      ⟨hfull, by simp⟩ hdm⟩
    simp [kmemCacheAlloc, he, hn, hr, slabFull, hfull]

-- An object of the first empty slab.
theorem kmemCacheAlloc_empty (i : Inv h v) (hc : c ∈ v.objs h.kmemCacheSlab) (hm₀ : v.mem (slabPartialOf c) = [])
    (hm : v.mem (slabFreeOf c) = d :: xs) :
    ∃ ret h' v', (kmemCacheAlloc c).run h = .ok (ret, h') ∧ Grants h h' v v' c ret := by
  have k := i.toCore
  have hdm : d ∈ v.mem (Fill.empty.head c) := by simp [Fill.head, hm]
  obtain ⟨hd, ho⟩ := k.owner_of_mem hc hdm
  have hos : v.objs d = [] := k.fits (i.settled hd) hc hdm
  have hf : (h.slabs d).freeObj ≠ 0 := by
    have := k.freeObj_eq hd
    have := k.total_pos hd <| ho ▸ k.cache_ne_zero hc
    simp only [hos, List.length_nil] at *
    omega
  obtain ⟨ret, s, hr, hh, k'⟩ := k.take hd hf
  have he₀ : listIsEmpty h.links (slabPartialOf c) = true := by
    have := k.isEmpty_eq .mixed hc
    simpa [Fill.head, hm₀] using this
  have he : listIsEmpty h.links (slabFreeOf c) = false := by
    have := k.isEmpty_eq .empty hc
    simpa [Fill.head, hm] using this
  have hn : h.links.next (slabFreeOf c) = d := by
    have := (k.ring .empty hc).next_head
    simpa [Fill.head, hm] using this
  have hc' : c ∈ Function.update v.objs d (ret :: v.objs d) h.kmemCacheSlab := by
    rwa [Function.update_of_ne (k.ne_kmemCacheSlab hd).symm]
  subst ho
  by_cases hfull : s.freeObj = 0
  case pos =>
    obtain ⟨mem, k'', hl, hx, hg⟩ := k'.move .full hc' hdm
    refine ⟨ret, _, _, ?_, k.grants (f := .full) (fun d' hd' _ => i.settled hd') hd hh k'' hl hx hfull hg⟩
    simp [kmemCacheAlloc, he₀, he, hn, hr, slabFull, hfull, Fill.head]
  case neg =>
    obtain ⟨mem, k'', hl, hx, hg⟩ := k'.move .mixed hc' hdm
    refine ⟨ret, _, _, ?_, k.grants (f := .mixed) (fun d' hd' _ => i.settled hd') hd hh k'' hl hx ⟨hfull, by simp⟩ hg⟩
    simp [kmemCacheAlloc, he₀, he, hn, hr, slabFull, hfull, Fill.head]

-- An object of a new slab, if there is one.
theorem kmemCacheAlloc_new (i : Inv h v) (hc : c ∈ v.objs h.kmemCacheSlab) (hm₀ : v.mem (slabPartialOf c) = [])
    (hm : v.mem (slabFreeOf c) = []) :
    (∃ answers, (kmemCacheAlloc c).run h = .ok (0, { h with answers })) ∨
    ∃ ret h' v', (kmemCacheAlloc c).run h = .ok (ret, h') ∧ Grants h h' v v' c ret := by
  have k := i.toCore
  have he₀ : listIsEmpty h.links (slabPartialOf c) = true := by
    have := k.isEmpty_eq .mixed hc
    simpa [Fill.head, hm₀] using this
  have he : listIsEmpty h.links (slabFreeOf c) = true := by
    have := k.isEmpty_eq .empty hc
    simpa [Fill.head, hm] using this
  obtain ⟨answers, hr⟩ | ⟨d, h₁, hr, hd, hfr, hsl, k₁⟩ := k.slabCreate_spec hc
  case inl => exact .inl ⟨answers, by simp [kmemCacheAlloc, he₀, he, hr]⟩
  case inr =>
    have hold : ∀ {d'}, d' ∈ v.objs h.pslab → d' ≠ d := fun hd' he => hd <| he ▸ Core.mem_all hd'
    have hdp : h.pslab ≠ d := fun he => hd <| he ▸ Core.pslab_mem
    have hdk : h.kmemCacheSlab ≠ d := fun he => hd <| he ▸ Core.kmemCacheSlab_mem
    -- The view of the heap with the new slab.
    generalize hv : View.mk v.mem (Function.update (Function.update v.objs h.pslab (d :: v.objs h.pslab)) d [])
      (Function.update v.owner d c) = v₁ at k₁
    have hmem : v₁.mem = v.mem := by rw [← hv]
    have hop : v₁.objs h₁.pslab = d :: v.objs h.pslab := by simp [← hv, hfr.pslab, hdp]
    have hok : v₁.objs h₁.kmemCacheSlab = v.objs h.kmemCacheSlab := by
      simp [← hv, hfr.kmemCacheSlab, hdk, k.pslab_ne.symm]
    have hod : v₁.objs d = [] := by simp [← hv]
    have how : v₁.owner d = c := by simp [← hv]
    have ho : ∀ {d'}, d' ∈ v.objs h.pslab → v₁.objs d' = v.objs d' ∧ v₁.owner d' = v.owner d' := fun hd' => by
      simp [← hv, hold hd', k.ne_pslab hd']
    have hd₁ : d ∈ v₁.objs h₁.pslab := hop ▸ .head _
    have hf : (h₁.slabs d).freeObj ≠ 0 := by
      have := k₁.freeObj_eq hd₁
      have := k₁.total_pos hd₁ <| how ▸ k.cache_ne_zero hc
      simp only [hod, List.length_nil] at *
      omega
    obtain ⟨ret, s, hr', hh, k₂⟩ := k₁.take hd₁ hf
    have hloose : View.Loose { h₁ with slabs := Function.update h₁.slabs d s }
        { v₁ with objs := Function.update v₁.objs d (ret :: v₁.objs d) } d := by
      intro c' hc' hdc
      simp only [Function.update_of_ne (k₁.ne_kmemCacheSlab hd₁).symm, hok] at hc'
      simp only [View.slabsOf, hmem] at hdc
      exact hd <| Core.mem_all (k.listed (hfr.kmemCacheSlab ▸ hc') hdc).1
    have hc₂ : c ∈ Function.update v₁.objs d (ret :: v₁.objs d) h₁.kmemCacheSlab := by
      rwa [Function.update_of_ne (k₁.ne_kmemCacheSlab hd₁).symm, hok]
    have hd₂ : d ∈ Function.update v₁.objs d (ret :: v₁.objs d) h₁.pslab := by
      rwa [Function.update_of_ne (k₁.ne_pslab hd₁).symm]
    have hset : ∀ d' ∈ v₁.objs h₁.pslab, d' ≠ d → Settled h₁ v₁ d' := fun d' hd' hne => by
      rw [hop] at hd'
      have hd' := (List.mem_cons.mp hd').resolve_left hne
      have hs := i.settled hd'
      rw [Settled, hsl d' hd', (ho hd').1, (ho hd').2, hmem]
      exact hs
    have hd₀ := (k₁.pos hd₁).ne'
    -- What is granted on the heap with the new slab is granted on the heap without it.
    have hbase : ∀ {h' v'}, Grants h₁ h' v₁ v' c ret → Grants h h' v v' c ret := fun {h' v'} g => by
      have hlive : ∀ a c', h₁.Live v₁ a c' ↔ h.Live v a c' := fun a c' => by
        simp only [Heap.Live, hop]
        constructor
        case mp =>
          rintro ⟨d', hd', hoc, ha⟩
          cases hd'
          case head     => rw [hod] at ha; cases ha
          case tail hd' => exact ⟨d', hd', (ho hd').2 ▸ hoc, (ho hd').1 ▸ ha⟩
        case mpr =>
          rintro ⟨d', hd', hoc, ha⟩
          exact ⟨d', .tail _ hd', (ho hd').2.trans hoc, (ho hd').1 ▸ ha⟩
      constructor
      case inv    => exact g.inv
      case frame  => exact hfr.trans g.frame
      case caches => rw [← hfr.kmemCacheSlab, g.caches, hok, hfr.kmemCacheSlab]
      case list   => rw [← hfr.cacheList, g.list, hmem]
      case pos    => exact g.pos
      case lost   =>
        intro d' hd' ho'
        obtain ⟨hd', ho'⟩ := g.lost (hfr.pslab.symm ▸ hd') ho'
        rw [hop] at hd'
        cases hd'
        case head     => exact absurd (how.symm.trans ho') <| k.cache_ne_zero hc
        case tail hd' => exact ⟨hd', (ho hd').2 ▸ ho'⟩
      case new    => exact fun hn => g.new <| (hlive _ _).mpr hn
      case live   => exact fun {a c'} => g.live.trans <| or_congr_right <| hlive a c'
    by_cases hfull : s.freeObj = 0
    case pos =>
      obtain ⟨mem, k₃, hl, hx, hg⟩ := k₂.put_on .full hc₂ hd₂ hloose how
      have g := k₁.grants (f := .full) hset hd₁ hh k₃ hl (fun x _ => hx x) hfull (how.symm ▸ hg)
      refine .inr ⟨ret, _, _, ?_, hbase <| how ▸ g⟩
      simp [kmemCacheAlloc, he₀, he, hr, hd₀, hr', slabFull, hfull, Fill.head]
    case neg =>
      obtain ⟨mem, k₃, hl, hx, hg⟩ := k₂.put_on .mixed hc₂ hd₂ hloose how
      have g := k₁.grants (f := .mixed) hset hd₁ hh k₃ hl (fun x _ => hx x) ⟨hfull, by simp⟩ (how.symm ▸ hg)
      refine .inr ⟨ret, _, _, ?_, hbase <| how ▸ g⟩
      simp [kmemCacheAlloc, he₀, he, hr, hd₀, hr', slabFull, hfull, Fill.head]

theorem kmemCacheAlloc_spec (i : Inv h v) (hc : c ∈ v.objs h.kmemCacheSlab) :
    (∃ answers, (kmemCacheAlloc c).run h = .ok (0, { h with answers })) ∨
    ∃ ret h' v', (kmemCacheAlloc c).run h = .ok (ret, h') ∧ Grants h h' v v' c ret := by
  cases hm₀ : v.mem (slabPartialOf c)
  case cons => exact .inr <| i.kmemCacheAlloc_mixed hc hm₀
  case nil =>
    cases hm : v.mem (slabFreeOf c)
    case cons => exact .inr <| i.kmemCacheAlloc_empty hc hm₀ hm
    case nil  => exact i.kmemCacheAlloc_new hc hm₀ hm

end Inv

end Zgmos.Kmem
