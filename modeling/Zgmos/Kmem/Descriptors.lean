import Zgmos.Kmem.Access
import Zgmos.Kmem.Steps

namespace Zgmos.Kmem

-- The operations on the slabs leave the variables of the allocator and the sizes of the caches as they are.
structure Heap.Frame (h h' : Heap) : Prop where
  cacheList     : h'.cacheList = h.cacheList
  metaSlab      : h'.metaSlab = h.metaSlab
  kmemCacheSlab : h'.kmemCacheSlab = h.kmemCacheSlab
  pslab         : h'.pslab = h.pslab
  objsize       : h'.objsize = h.objsize
  locked        : h'.locked = h.locked

theorem Heap.Frame.trans {h h' h'' : Heap} (f : h.Frame h') (f' : h'.Frame h'') : h.Frame h'' where
  cacheList     := f'.cacheList.trans f.cacheList
  metaSlab      := f'.metaSlab.trans f.metaSlab
  kmemCacheSlab := f'.kmemCacheSlab.trans f.kmemCacheSlab
  pslab         := f'.pslab.trans f.pslab
  objsize       := f'.objsize.trans f.objsize
  locked        := f'.locked.trans f.locked

theorem Heap.Frame.refl (h : Heap) : h.Frame h :=
  ⟨rfl, rfl, rfl, rfl, rfl, rfl⟩

namespace Core

variable {h : Heap} {v : View} {a c d n pg order : Nat} {b : Nat × Nat} {s p : Slab} {w : Words} {adat : Nat → Nat}
  {answers : List Nat}

theorem pos (k : Core h v) (hd : d ∈ v.objs h.pslab) : 0 < d :=
  (k.sound pslab_mem).place_pos <| k.obj_place pslab_mem hd

theorem static_ne_zero (k : Core h v) (hd : d = h.kmemCacheSlab ∨ d = h.pslab) : d ≠ 0 := by
  have hm : (h.slabs h.metaSlab).pg ≤ d := (k.inMeta hd).1
  have hb := (k.behind <| k.pages.mem_iff.mpr <| .head _).2
  simp only [Heap.block, sizeofSlab] at hb
  omega

theorem find_block (k : Core h v) (hd : d ∈ h.all v) :
    h.pages.find? (·.1 = (h.slabs d).pg) = some (h.block d) := by
  have hs : Std.Symm Apart := ⟨fun _ _ => Apart.symm⟩
  cases hf : h.pages.find? (·.1 = (h.slabs d).pg)
  case none =>
    have := List.find?_eq_none.mp hf _ <| k.block_mem hd
    simp [Heap.block] at this
  case some b =>
    by_contra hne
    have hb := List.find?_some hf
    have ha := k.apart.forall (List.mem_of_find?_eq_some hf) (k.block_mem hd) fun he => hne <| he ▸ rfl
    have h₁ : 0 < pageSize * 2 ^ b.2 := by simp [pageSize]
    have h₂ : 0 < pageSize * 2 ^ (h.slabs d).order := by simp [pageSize]
    simp only [decide_eq_true_eq, Apart, Heap.block] at hb ha
    omega

-- An object of a slab of a cache is allocated.
theorem take (k : Core h v) (hd : d ∈ v.objs h.pslab) (hf : (h.slabs d).freeObj ≠ 0) :
    ∃ ret s, (slabAllocAt d).run h = .ok (ret, { h with slabs := Function.update h.slabs d s }) ∧
      Slab.Hands (h.slabs d) s h.links.prev (v.objs d) ret ∧
      Core { h with slabs := Function.update h.slabs d s }
        { v with objs := Function.update v.objs d (ret :: v.objs d) } := by
  have hs := k.sound (mem_all hd)
  have := hs.count
  have ⟨ret, s, hr, hh⟩ := Slab.slabAlloc_spec hs (by omega)
  refine ⟨ret, s, slabAllocAt_run (k.pos hd).ne' hr, hh, ?_⟩
  exact k.reslab hd hh.sound (by rw [hh.eq]; exact ⟨rfl, rfl, rfl⟩) fun _ _ => rfl

-- An object of a slab of a cache is released.
theorem give (k : Core h v) (hd : d ∈ v.objs h.pslab) (ha : a ∈ v.objs d) :
    ∃ s w, (slabFreeAt d a).run h =
        .ok ((), { h with slabs := Function.update h.slabs d s, links := { h.links with prev := w } }) ∧
      Slab.Takes (h.slabs d) s h.links.prev w (v.objs d) a ∧
      Core { h with slabs := Function.update h.slabs d s, links := { h.links with prev := w } }
        { v with objs := Function.update v.objs d ((v.objs d).erase a) } := by
  have ⟨s, w, hr, ht⟩ := Slab.slabFree_spec (k.sound (mem_all hd)) ha
  refine ⟨s, w, slabFreeAt_run (k.pos hd).ne' hr, ht, ?_⟩
  apply k.reslab hd ht.sound
  case he => rw [ht.eq]; exact ⟨rfl, rfl, rfl⟩
  case hw =>
    intro b hb
    apply ht.frame
    case _ =>
      intro he
      have := k.place_inside (mem_all hd) <| k.obj_place (mem_all hd) ha
      exact hb <| he ▸ this
    case _ => exact fun hp => absurd (k.place_inside (mem_all hd) hp) hb

-- The nodes and the slabs lie in allocated blocks.
theorem not_node_of_fresh (k : Core h v) (hf : h.Fresh pg order) (hl : pg ≤ n) (hu : n < pg + pageSize * 2 ^ order) :
    ¬Rings.Node (h.heads v) v.mem n := by
  intro hn
  have ⟨_, hcl, _, hap⟩ := hf
  have hout {d} (hd : d ∈ h.all v) (hin : (h.slabs d).pg ≤ n ∧ n < (h.slabs d).pg + (h.slabs d).bytes) : False := by
    have := hap _ <| k.block_mem hd
    simp only [Apart, Heap.block, Slab.bytes] at this hin
    omega
  obtain he | ⟨c, hc, hcn⟩ | hn := k.spot_of_node hn
  case inl => omega
  case inr.inl =>
    have hcin := k.obj_inside kmemCacheSlab_mem hc
    rw [k.sizes.1] at hcin
    exact hout kmemCacheSlab_mem (by omega)
  case inr.inr =>
    have hnin := k.obj_inside pslab_mem hn
    rw [k.sizes.2, sizeofSlab] at hnin
    exact hout pslab_mem (by omega)

-- The slabs lie behind the variables of the kernel and not in the pages with the descriptors of the static slabs.
theorem new_notMem (k : Core h v) (ho : (h.slabs h.pslab).Obj d) (hd : d ∉ v.objs h.pslab) :
    d ∉ h.all v ∧ d ≠ h.metaSlab := by
  have hin := k.place_inside pslab_mem <| (k.sound pslab_mem).place_of_obj ho
  have hbe := (k.behind <| k.block_mem pslab_mem).2
  have hap := (List.pairwise_cons.mp <| (k.pages.pairwise_iff Apart.symm).mp k.apart).1 (h.block h.pslab)
    (List.mem_map_of_mem pslab_mem)
  have hne : ¬(d = h.kmemCacheSlab ∨ d = h.pslab) := fun he => by
    have := k.inMeta he
    simp only [Apart, Heap.block, Slab.bytes] at hap hin this
    omega
  constructor
  case left =>
    intro hm
    cases hm
    case head => exact hne <| .inl rfl
    case tail hm =>
      cases hm
      case head    => exact hne <| .inr rfl
      case tail hm => exact hd hm
  case right =>
    intro he
    simp only [Heap.block, sizeofSlab] at hbe
    omega

-- A slab with a new descriptor and new pages.
theorem enter (k : Core h v) (adat : Nat → Nat) (answers : List Nat) (hc : c ∈ v.objs h.kmemCacheSlab)
    (hf : h.Fresh pg kmemCacheCslabOrder)
    (hh : Slab.Hands (h.slabs h.pslab) p h.links.prev (v.objs h.pslab) d) (hs : s.Sound w [])
    (he : s.pg = pg ∧ s.sizeObj = h.objsize c ∧ s.order = kmemCacheCslabOrder)
    (hw : ∀ a, ¬s.Place a → w a = h.links.prev a)
    (ht : ∀ a, pg ≤ a → a < pg + pageSize * 2 ^ kmemCacheCslabOrder → adat (a / pageSize) = c)
    (hn : ∀ a, ¬(pg ≤ a ∧ a < pg + pageSize * 2 ^ kmemCacheCslabOrder) → adat (a / pageSize) = h.adat (a / pageSize)) :
    Core { h with
        links := { h.links with prev := w }
        slabs := Function.update (Function.update h.slabs h.pslab p) d s
        adat
        answers
        pages := (pg, kmemCacheCslabOrder) :: h.pages
      } { v with
        objs  := Function.update (Function.update v.objs h.pslab (d :: v.objs h.pslab)) d []
        owner := Function.update v.owner d c
      } := by
  have hpd := hf.1
  have hcl := hf.2.1
  have hms := hf.2.2.1
  have hap := hf.2.2.2
  obtain ⟨hall, hmeta⟩ := k.new_notMem hh.obj hh.free
  have hdk : h.kmemCacheSlab ≠ d := fun he => hall <| he ▸ kmemCacheSlab_mem
  have hdp : h.pslab ≠ d := fun he => hall <| he ▸ pslab_mem
  have hok : Function.update (Function.update v.objs h.pslab (d :: v.objs h.pslab)) d [] h.kmemCacheSlab =
      v.objs h.kmemCacheSlab := by
    rw [Function.update_of_ne hdk, Function.update_of_ne k.pslab_ne.symm]
  have hop : Function.update (Function.update v.objs h.pslab (d :: v.objs h.pslab)) d [] h.pslab =
      d :: v.objs h.pslab := by
    rw [Function.update_of_ne hdp, Function.update_self]
  have hb : s.bytes = pageSize * 2 ^ kmemCacheCslabOrder := by rw [Slab.bytes, he.2.2]
  have hsame : ∀ d' ≠ d, (Function.update (Function.update h.slabs h.pslab p) d s d').pg = (h.slabs d').pg ∧
      (Function.update (Function.update h.slabs h.pslab p) d s d').order = (h.slabs d').order ∧
        (Function.update (Function.update h.slabs h.pslab p) d s d').sizeObj = (h.slabs d').sizeObj :=
    fun d' hne => by
      rw [Function.update_of_ne hne]
      by_cases hp : d' = h.pslab
      case pos => simp [hp, hh.eq]
      case neg => simp [hp]
  -- The words of the other slabs are as before.
  have hout : ∀ {d' a}, d' ∈ h.all v → (h.slabs d').pg ≤ a ∧ a < (h.slabs d').pg + (h.slabs d').bytes →
      ¬(pg ≤ a ∧ a < pg + pageSize * 2 ^ kmemCacheCslabOrder) := fun hd' hin => by
    have := hap _ <| k.block_mem hd'
    simp only [Apart, Heap.block, Slab.bytes] at this hin
    omega
  have hwo : ∀ {a}, ¬(pg ≤ a ∧ a < pg + pageSize * 2 ^ kmemCacheCslabOrder) → w a = h.links.prev a := fun ha =>
    hw _ fun hp => by
      have := hs.place_inside hp
      simp only [Slab.Inside, hb, he.1] at this
      omega
  have hold : ∀ {d'}, d' ∈ h.all v → d' ≠ d := fun hd' he => hall <| he ▸ hd'
  constructor
  case rings =>
    simp only [Heap.heads, hok]
    exact k.rings.congr (fun _ _ => rfl) fun n hn => hwo fun hin => k.not_node_of_fresh hf hin.1 hin.2 hn
  case sound =>
    intro d' hd'
    have hm : d' = d ∨ d' ∈ h.all v := by
      simp only [Heap.all, hop, List.mem_cons] at hd' ⊢
      tauto
    cases hm
    case inl hm => simpa [hm] using hs
    case inr hm =>
      have hne := hold hm
      have hs' : (h.slabs d').Sound w (v.objs d') := (k.sound hm).congr fun a ha _ =>
        hwo <| hout hm <| k.place_inside hm ha
      by_cases hp : d' = h.pslab
      case neg => simpa [hne, hp] using hs'
      case pos =>
        subst hp
        have : p.Sound w _ := hh.sound.congr fun a ha _ => hwo <| hout pslab_mem <| by
          rw [hh.eq] at ha
          exact k.place_inside pslab_mem ha
        simpa [hne] using this
  case sizes   => simpa only [hsame _ hdk, hsame _ hdp] using k.sizes
  case child   =>
    intro d' hd' ho
    simp only [hop] at hd'
    by_cases hm : d' = d
    case pos =>
      subst hm
      constructor
      case owner => simpa [hok] using hc
      case size  => simpa using he.2.1
      case order => simpa using he.2.2
      case page  => simpa [he.1] using hpd
      case tag   =>
        intro a hl hu
        simp only [Function.update_self, he.1, hb] at hl hu ⊢
        exact ht a hl hu
    case neg =>
      have hd' := (List.mem_cons.mp hd').resolve_left hm
      simp only [Function.update_of_ne hm] at ho
      have kc := k.child hd' ho
      apply kc.congr
      case ho => exact Function.update_of_ne hm ..
      case hm => simpa only [hok] using kc.owner
      case hsz => rfl
      case hs => exact hsame d' hm
      case ha => exact fun a hl hu => hn a <| hout (mem_all hd') ⟨hl, hu⟩
  case listed  =>
    intro c' d' hc' hd'
    simp only [hok, hop] at hc' ⊢
    obtain ⟨hm, ho⟩ := k.listed hc' hd'
    exact ⟨.tail _ hm, by rwa [Function.update_of_ne <| hold <| mem_all hm]⟩
  case objsize =>
    intro c' hc'
    simp only [hok] at hc'
    exact k.objsize hc'
  case classes => simpa only [hok] using k.classes
  case pages   =>
    have hbl : ∀ h' : Heap, h'.slabs = Function.update (Function.update h.slabs h.pslab p) d s →
        ∀ d' ≠ d, h'.block d' = h.block d' := fun h' hs' d' hne => by
      rw [Heap.block, hs', (hsame d' hne).1, (hsame d' hne).2.1, Heap.block]
    have hbd : ∀ h' : Heap, h'.slabs = Function.update (Function.update h.slabs h.pslab p) d s →
        h'.block d = (pg, kmemCacheCslabOrder) := fun h' hs' => by
      rw [Heap.block, hs', Function.update_self, he.1, he.2.2]
    have hp := k.pages
    simp only [Heap.all, List.map_cons] at hp
    simp only [Heap.all, hop, List.map_cons]
    rw [hbl _ rfl _ hmeta.symm, hbl _ rfl _ hdk, hbl _ rfl _ hdp, hbd _ rfl,
      List.map_congr_left fun d' hd' => hbl _ rfl d' <| hold <| mem_all hd']
    exact (hp.cons _).trans <| (@List.perm_middle _ _ [_, _, _] _).symm
  case apart   => exact List.pairwise_cons.mpr ⟨hap, k.apart⟩
  case behind  =>
    intro b hb
    cases hb
    case head    => exact ⟨hcl, hms⟩
    case tail hb => exact k.behind hb
  case inMeta  =>
    have hm : ∀ {s'}, s' = Function.update (Function.update h.slabs h.pslab p) d s h.metaSlab →
        s'.pg = (h.slabs h.metaSlab).pg ∧ s'.bytes = (h.slabs h.metaSlab).bytes := fun hs' => by
      rw [hs', Slab.bytes, (hsame _ hmeta.symm).1, (hsame _ hmeta.symm).2.1, Slab.bytes]
      exact ⟨rfl, rfl⟩
    intro d' hd'
    simp only [hm rfl]
    exact k.inMeta hd'

-- The tags of a new block.
theorem tag_iff (hd : pageSize ∣ pg) (a : Nat) : pg / pageSize ≤ a / pageSize ∧
    a / pageSize < pg / pageSize + 2 ^ order ↔ pg ≤ a ∧ a < pg + pageSize * 2 ^ order := by
  have hp : 0 < pageSize := by decide
  have ⟨q, hq⟩ := hd
  subst hq
  rw [Nat.mul_div_cancel_left _ hp, Nat.le_div_iff_mul_le hp, Nat.div_lt_iff_lt_mul hp, Nat.add_mul, Nat.mul_comm q,
    Nat.mul_comm (2 ^ order)]

-- A slab is created, or the heap is as before.
theorem slabCreate_spec (k : Core h v) (hc : c ∈ v.objs h.kmemCacheSlab) :
    (∃ answers, (slabCreate h.pslab (h.objsize c) kmemCacheCslabOrder c).run h = .ok (0, { h with answers })) ∨
    ∃ d h', (slabCreate h.pslab (h.objsize c) kmemCacheCslabOrder c).run h = .ok (d, h') ∧ d ∉ h.all v ∧
      h.Frame h' ∧ (∀ d' ∈ v.objs h.pslab, h'.slabs d' = h.slabs d') ∧ Core h' { v with
        objs  := Function.update (Function.update v.objs h.pslab (d :: v.objs h.pslab)) d []
        owner := Function.update v.owner d c
      } := by
  have hps := k.sound pslab_mem
  have hp₀ := k.static_ne_zero <| .inr rfl
  have hle : (v.objs h.pslab).length ≤ (h.slabs h.pslab).totalObj := by
    have := hps.count
    omega
  cases Nat.eq_or_lt_of_le hle
  case inl he =>
    refine .inl ⟨h.answers, ?_⟩
    have hr := slabAllocAt_run hp₀ <| Slab.slabAlloc_full hps he
    rw [Function.update_eq_self] at hr
    rw [slabCreate, StateT.run_bind, hr]
    rfl
  case inr hl =>
    obtain ⟨d, p, hr, hh⟩ := Slab.slabAlloc_spec hps hl
    obtain ⟨hall, _⟩ := k.new_notMem hh.obj hh.free
    have hd₀ : d ≠ 0 := (hps.place_pos <| hps.place_of_obj hh.obj).ne'
    have hr := slabAllocAt_run hp₀ hr
    obtain ⟨answers, ha⟩ | ⟨pg, answers, hf, ha⟩ := pmemAlloc_run
      { h with slabs := Function.update h.slabs h.pslab p } kmemCacheCslabOrder
    case inl =>
      refine .inl ⟨answers, ?_⟩
      have hu : slabFree p h.links.prev d = .ok (h.slabs h.pslab, h.links.prev) := hh.undo hps
      have hu := slabFreeAt_run (h := { h with slabs := Function.update h.slabs h.pslab p, answers }) (d := h.pslab)
        hp₀ (by simpa using hu)
      simp only [Function.update_idem, Function.update_eq_self] at hu
      rw [slabCreate, StateT.run_bind, hr]
      simp [hd₀, ha, hu]
    case inr =>
      have hpg : 0 < pg := by
        have := hf.2.1
        omega
      obtain ⟨hs₀, hs₁, hs₂⟩ := k.objsize hc
      obtain ⟨s, w, hr', hs, hpg', hsz, ho, hw⟩ := Slab.slabCreateEx_spec kmemCacheCslabOrder hpg hs₀ hs₁
        h.links.prev
      refine .inr ⟨d, _, ?_, hall, ?_, ?_, k.enter (fun i => if pg / pageSize ≤ i ∧
        i < pg / pageSize + 2 ^ kmemCacheCslabOrder then c else h.adat i) answers hc hf hh hs
          ⟨hpg', hsz, ho⟩ hw (fun a hl hu => if_pos <| (tag_iff hf.1 a).mpr ⟨hl, hu⟩)
          fun a hn => if_neg fun hi => hn <| (tag_iff hf.1 a).mp hi⟩
      case refine_1 =>
        rw [slabCreate, StateT.run_bind, hr]
        simp [hd₀, ha, hpg.ne', pmemSetAdat, slabCreateExAt, hr']
      case refine_2 => exact ⟨rfl, rfl, rfl, rfl, rfl, rfl⟩
      case refine_3 =>
        intro d' hd'
        have hne : d' ≠ d := fun he => hh.free <| he ▸ hd'
        show Function.update (Function.update h.slabs h.pslab p) d s d' = _
        rw [Function.update_of_ne hne, Function.update_of_ne <| k.ne_pslab hd']

-- The pages and the descriptor of a slab which is on no list are given back.
theorem leave (k : Core h v) (hd : d ∈ v.objs h.pslab) (hl : v.Loose h d)
    (ht : Slab.Takes (h.slabs h.pslab) p h.links.prev w (v.objs h.pslab) d) :
    Core { h with
        links := { h.links with prev := w }
        slabs := Function.update h.slabs h.pslab p
        pages := h.pages.erase (h.block d)
      } { v with objs := Function.update v.objs h.pslab ((v.objs h.pslab).erase d) } := by
  have hn := k.nodup
  have hpn : (v.objs h.pslab).Nodup := (k.sound pslab_mem).nodup
  have hpk := k.pslab_ne
  have hok : Function.update v.objs h.pslab ((v.objs h.pslab).erase d) h.kmemCacheSlab = v.objs h.kmemCacheSlab :=
    Function.update_of_ne hpk.symm ..
  have hsame : ∀ d', (Function.update h.slabs h.pslab p d').pg = (h.slabs d').pg ∧
      (Function.update h.slabs h.pslab p d').order = (h.slabs d').order ∧
        (Function.update h.slabs h.pslab p d').sizeObj = (h.slabs d').sizeObj := fun d' => by
    by_cases hp : d' = h.pslab
    case pos =>
      rw [hp, Function.update_self, ht.eq]
      exact ⟨rfl, rfl, rfl⟩
    case neg => simp [hp]
  -- Only words of `pslab` are written, which are no links of the lists.
  have hwo : ∀ {a}, ¬((h.slabs h.pslab).pg ≤ a ∧ a < (h.slabs h.pslab).pg + (h.slabs h.pslab).bytes) →
      w a = h.links.prev a := fun {a} ha => by
    apply ht.frame
    case _ => exact fun he => ha <| by rw [he]; exact k.place_inside pslab_mem <| k.obj_place pslab_mem hd
    case _ => exact fun hp => absurd (k.place_inside pslab_mem hp) ha
  constructor
  case rings =>
    simp only [Heap.heads, hok]
    refine k.rings.congr (fun _ _ => rfl) fun n hn => ?_
    apply ht.frame
    case _ => exact fun he => k.not_node_of_loose hd hl <| he ▸ hn
    case _ => exact fun hp => k.mem_of_spot (k.spot_of_node hn) pslab_mem hp
  case sound =>
    intro d' hd'
    by_cases hp : d' = h.pslab
    case pos => simpa [hp] using ht.sound
    case neg =>
      have hm : d' ∈ h.all v := by
        simp only [Heap.all, Function.update_self, List.mem_cons] at hd' ⊢
        exact hd'.imp_right <| Or.imp_right List.mem_of_mem_erase
      have hs' : (h.slabs d').Sound w (v.objs d') := (k.sound hm).congr fun a ha _ => hwo fun hin =>
        hp <| k.eq_of_inside hm pslab_mem (k.place_inside hm ha) hin
      simpa [hp] using hs'
  case sizes   => simpa only [hsame] using k.sizes
  case child   =>
    intro d' hd' ho
    simp only [Function.update_self] at hd'
    have kc := k.child (List.mem_of_mem_erase hd') ho
    exact kc.congr rfl (by simpa only [hok] using kc.owner) rfl (hsame d') fun _ _ _ => rfl
  case listed  =>
    intro c' d' hc' hd'
    simp only [hok, Function.update_self] at hc' ⊢
    obtain ⟨hm, ho⟩ := k.listed hc' hd'
    have hne : d' ≠ d := fun he => hl c' hc' <| he ▸ hd'
    exact ⟨(List.mem_erase_of_ne hne).mpr hm, ho⟩
  case objsize =>
    intro c' hc'
    simp only [hok] at hc'
    exact k.objsize hc'
  case classes => simpa only [hok] using k.classes
  case pages   =>
    have hbl : ∀ h' : Heap, h'.slabs = Function.update h.slabs h.pslab p → h'.block = h.block := fun h' hs' => by
      funext d'
      rw [Heap.block, hs', (hsame d').1, (hsame d').2.1, Heap.block]
    have hp := k.pages
    have he : (h.all v).Perm (d :: h.kmemCacheSlab :: h.pslab :: (v.objs h.pslab).erase d) := by
      have := (List.perm_cons_erase hd).cons h.pslab |>.cons h.kmemCacheSlab
      exact this.trans <| @List.perm_middle _ _ [_, _] _
    have hp := hp.trans <| (he.map h.block).cons _
    simp only [Heap.all, Function.update_self]
    rw [hbl { h with
      links := { h.links with prev := w }
      slabs := Function.update h.slabs h.pslab p
      pages := h.pages.erase (h.block d)
    } rfl]
    have hp := (hp.trans <| .swap ..).erase (h.block d)
    rwa [List.map_cons, List.erase_cons_head] at hp
  case apart   => exact k.apart.sublist List.erase_sublist
  case behind  => exact fun hb => k.behind <| List.mem_of_mem_erase hb
  case inMeta  =>
    have hm : (Function.update h.slabs h.pslab p h.metaSlab).bytes = (h.slabs h.metaSlab).bytes := by
      rw [Slab.bytes, Slab.bytes, (hsame _).2.1]
    intro d' hd'
    simp only [(hsame h.metaSlab).1, hm]
    exact k.inMeta hd'

theorem slabDestory_spec (k : Core h v) (hd : d ∈ v.objs h.pslab) (hl : v.Loose h d) (he : v.objs d = []) :
    ∃ h', (slabDestory h.pslab d).run h = .ok ((), h') ∧ h.Frame h' ∧ (∀ d' ≠ h.pslab, h'.slabs d' = h.slabs d') ∧
      (∀ a, (h'.slabs h.pslab).Place a ↔ (h.slabs h.pslab).Place a) ∧ h'.pages = h.pages.erase (h.block d) ∧
      Core h' { v with objs := Function.update v.objs h.pslab ((v.objs h.pslab).erase d) } := by
  have hempty : slabEmpty (h.slabs d) = true := by
    have := (k.sound <| mem_all hd).count
    simp only [he, List.length_nil] at this
    simp only [slabEmpty, decide_eq_true_eq]
    omega
  have ⟨p, w, hr, ht⟩ := Slab.slabFree_spec (k.sound pslab_mem) hd
  have hp₀ := k.static_ne_zero <| .inr rfl
  refine ⟨_, ?_, ?_, ?_, ?_, ?_, k.leave hd hl ht⟩
  case refine_1 =>
    have hb := pmemFree_run <| k.find_block <| mem_all hd
    have hf := slabFreeAt_run (h := { h with pages := h.pages.erase (h.block d) }) hp₀ hr
    simp only [slabDestory, StateT.run_bind]
    simp [hempty, hb, hf]
  case refine_2 => exact ⟨rfl, rfl, rfl, rfl, rfl, rfl⟩
  case refine_3 => exact fun d' hne => Function.update_of_ne hne ..
  case refine_4 =>
    intro a
    show (Function.update h.slabs h.pslab p h.pslab).Place a ↔ _
    rw [Function.update_self, ht.eq]
    exact .rfl
  case refine_5 => rfl

end Core

end Zgmos.Kmem
