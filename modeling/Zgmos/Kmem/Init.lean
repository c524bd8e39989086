import Zgmos.Kmem.Destroy

namespace Zgmos.Kmem

-- The slabs of which `meta_slab` has the descriptors, all of them without objects.
structure Static (h : Heap) (ds : List Nat) : Prop where
  sound  : (h.slabs h.metaSlab).Sound h.links.prev ds
  size   : (h.slabs h.metaSlab).sizeObj = sizeofSlab
  slabs  : d ∈ ds → (h.slabs d).Sound h.links.prev []
  pages  : h.pages.Perm (h.block h.metaSlab :: ds.map h.block)
  apart  : h.pages.Pairwise Apart
  behind : b ∈ h.pages → h.cacheList + 16 ≤ b.1 ∧ h.metaSlab + sizeofSlab ≤ b.1

variable {h h' : Heap} {v v' : View} {a c d kc order sizeObj size : Nat} {ds ss : List Nat}

namespace Static

theorem ne_metaSlab (k : Static h ds) (ho : (h.slabs h.metaSlab).Obj d) : d ≠ h.metaSlab := by
  have hin := k.sound.obj_le ho
  have hbe := (k.behind <| k.pages.mem_iff.mpr <| .head _).2
  simp only [Heap.block, sizeofSlab] at hbe
  omega

-- A static slab is created, or the heap is as before.
theorem slabCreate_spec (k : Static h ds) (hm : h.metaSlab ≠ 0) (hs : 0 < sizeObj) (hd : 8 ∣ sizeObj) (order : Nat) :
    (∃ answers, (slabCreate h.metaSlab sizeObj order 0).run h = .ok (0, { h with answers })) ∨
    ∃ d h', (slabCreate h.metaSlab sizeObj order 0).run h = .ok (d, h') ∧ h.Frame h' ∧ d ≠ 0 ∧ Static h' (d :: ds) ∧
      (h'.slabs d).sizeObj = sizeObj ∧ (h'.slabs d).order = order ∧ (∀ d' ∈ ds, h'.slabs d' = h.slabs d') ∧
      (h.links.Ring h.cacheList [] → h'.links.Ring h.cacheList []) := by
  have hle : ds.length ≤ (h.slabs h.metaSlab).totalObj := by
    have := k.sound.count
    omega
  cases Nat.eq_or_lt_of_le hle
  case inl he =>
    refine .inl ⟨h.answers, ?_⟩
    have hr := slabAllocAt_run hm <| Slab.slabAlloc_full k.sound he
    rw [Function.update_eq_self] at hr
    rw [slabCreate, StateT.run_bind, hr]
    rfl
  case inr hl =>
    obtain ⟨d, p, hr, hh⟩ := Slab.slabAlloc_spec k.sound hl
    have hdm := k.ne_metaSlab hh.obj
    have hd₀ : d ≠ 0 := (k.sound.place_pos <| k.sound.place_of_obj hh.obj).ne'
    have hr := slabAllocAt_run hm hr
    obtain ⟨answers, ha⟩ | ⟨pg, answers, hf, ha⟩ := pmemAlloc_run
      { h with slabs := Function.update h.slabs h.metaSlab p } order
    case inl =>
      refine .inl ⟨answers, ?_⟩
      have hu : slabFree p h.links.prev d = .ok (h.slabs h.metaSlab, h.links.prev) := hh.undo k.sound
      have hu := slabFreeAt_run (h := { h with slabs := Function.update h.slabs h.metaSlab p, answers })
        (d := h.metaSlab) hm (by simpa using hu)
      simp only [Function.update_idem, Function.update_eq_self] at hu
      rw [slabCreate, StateT.run_bind, hr]
      simp [hd₀, ha, hu]
    case inr =>
      have hcl : h.cacheList + 16 ≤ pg := hf.2.1
      obtain ⟨_, _, hms, hap⟩ := hf
      have hpg : 0 < pg := by omega
      obtain ⟨s, w, hr', hsound, hpg', hsz, ho, hw⟩ := Slab.slabCreateEx_spec order hpg hs hd h.links.prev
      have hb : s.bytes = pageSize * 2 ^ order := by rw [Slab.bytes, ho]
      have hold : ∀ {d'}, d' ∈ ds → d' ≠ d ∧ d' ≠ h.metaSlab := fun hd' =>
        ⟨fun he => hh.free <| he ▸ hd', k.ne_metaSlab <| k.sound.obj _ hd'⟩
      -- The words of the other slabs are as before.
      have hwo : ∀ {b a}, b ∈ h.pages → b.1 ≤ a → a < b.1 + pageSize * 2 ^ b.2 → w a = h.links.prev a :=
        fun hb' hl hu => hw _ fun hp => by
          have := hap _ hb'
          have hin := hsound.place_inside hp
          simp only [Slab.Inside, hb, hpg'] at hin
          simp only [Apart] at this
          omega
      have hin : ∀ {s' : Slab} {live a}, s'.Sound h.links.prev live → s'.Place a →
          s'.pg ≤ a ∧ a < s'.pg + s'.bytes := fun hs' ha => by
        have := hs'.place_inside ha
        simp only [Slab.Inside] at this
        omega
      refine .inr ⟨d, { h with
          links := { h.links with prev := w }
          slabs := Function.update (Function.update h.slabs h.metaSlab p) d s
          adat  := fun i => if pg / pageSize ≤ i ∧ i < pg / pageSize + 2 ^ order then 0 else h.adat i
          answers
          pages := (pg, order) :: h.pages
        }, ?_, ⟨rfl, rfl, rfl, rfl, rfl, rfl⟩, hd₀, ?_, by simpa using hsz, by simpa using ho,
        fun d' hd' => ?_, fun r => r.congr (fun _ _ => rfl) fun x hx => ?_⟩
      case refine_1 =>
        rw [slabCreate, StateT.run_bind, hr]
        simp [hd₀, ha, hpg.ne', pmemSetAdat, slabCreateExAt, hr']
      case refine_3 =>
        show Function.update (Function.update h.slabs h.metaSlab p) d s d' = _
        rw [Function.update_of_ne (hold hd').1, Function.update_of_ne (hold hd').2]
      case refine_4 =>
        have he : x = h.cacheList := by simpa using hx
        refine hw x fun hp => ?_
        have := hsound.place_inside hp
        simp only [Slab.Inside, hpg'] at this
        omega
      case refine_2 =>
        have hmeta : Function.update (Function.update h.slabs h.metaSlab p) d s h.metaSlab = p := by
          rw [Function.update_of_ne hdm.symm, Function.update_self]
        have hother : ∀ d' ∈ ds, Function.update (Function.update h.slabs h.metaSlab p) d s d' = h.slabs d' :=
          fun d' hd' => by rw [Function.update_of_ne (hold hd').1, Function.update_of_ne (hold hd').2]
        constructor
        case sound  =>
          simp only [hmeta]
          refine hh.sound.congr fun a ha _ => ?_
          rw [hh.eq] at ha
          have := hin k.sound ha
          exact hwo (k.pages.mem_iff.mpr <| .head _) this.1 this.2
        case size   =>
          simp only [hmeta]
          rw [hh.eq]
          exact k.size
        case slabs  =>
          intro d' hd'
          cases hd'
          case head     => simpa using hsound
          case tail hd' =>
            simp only [hother d' hd']
            refine (k.slabs hd').congr fun a ha _ => ?_
            have := hin (k.slabs hd') ha
            exact hwo (k.pages.mem_iff.mpr <| .tail _ <| List.mem_map_of_mem hd') this.1 this.2
        case pages  =>
          have hbm : ∀ h' : Heap, h'.slabs = Function.update (Function.update h.slabs h.metaSlab p) d s →
              h'.block h.metaSlab = h.block h.metaSlab := fun h' hs' => by
            rw [Heap.block, hs', hmeta, hh.eq, Heap.block]
          have hbd : ∀ h' : Heap, h'.slabs = Function.update (Function.update h.slabs h.metaSlab p) d s →
              h'.block d = (pg, order) := fun h' hs' => by
            rw [Heap.block, hs', Function.update_self, hpg', ho]
          have hbo : ∀ h' : Heap, h'.slabs = Function.update (Function.update h.slabs h.metaSlab p) d s →
              ds.map h'.block = ds.map h.block := fun h' hs' => List.map_congr_left fun d' hd' => by
            rw [Heap.block, hs', hother d' hd', Heap.block]
          rw [hbm _ rfl, List.map_cons, hbd _ rfl, hbo _ rfl]
          exact (k.pages.cons _).trans <| .swap ..
        case apart  => exact List.pairwise_cons.mpr ⟨hap, k.apart⟩
        case behind =>
          intro b hb
          cases hb
          case head    => exact ⟨hcl, hms⟩
          case tail hb => exact k.behind hb

theorem listInit (k : Static h ds) :
    Static { h with links := Zgmos.listInit h.links h.cacheList } ds := by
  have hin : ∀ {s' : Slab} {live a}, s'.Sound h.links.prev live → (s'.pg, s'.order) ∈ h.pages → s'.Place a →
      (Zgmos.listInit h.links h.cacheList).prev a = h.links.prev a := fun hs hb ha => by
    have hin := hs.place_inside ha
    have := (k.behind hb).1
    simp only [Slab.Inside] at hin this
    exact Function.update_of_ne (by omega) ..
  constructor
  case sound  => exact k.sound.congr fun a ha _ => hin k.sound (k.pages.mem_iff.mpr <| .head _) ha
  case slabs  =>
    intro d hd
    exact (k.slabs hd).congr fun a ha _ =>
      hin (k.slabs hd) (k.pages.mem_iff.mpr <| .tail _ <| List.mem_map_of_mem (f := h.block) hd) ha
  case size   => exact k.size
  case pages  => exact k.pages
  case apart  => exact k.apart
  case behind => exact k.behind

theorem congr (k : Static h ds) (answers : List Nat) (kmemCacheSlab pslab : Nat) :
    Static { h with answers, kmemCacheSlab, pslab } ds where
  sound     := k.sound
  size      := k.size
  slabs hd  := k.slabs hd
  pages     := k.pages
  apart     := k.apart
  behind hb := k.behind hb

-- The invariant holds as soon as the two static slabs exist.
theorem core (k : Static h [h.pslab, h.kmemCacheSlab]) (hr : h.links.Ring h.cacheList [])
    (hs : (h.slabs h.kmemCacheSlab).sizeObj = sizeofKmemCache ∧ (h.slabs h.pslab).sizeObj = sizeofSlab) :
    Core h { mem := fun _ => [], objs := fun _ => [], owner := fun _ => 0 } := by
  have hH : ∀ n ∈ h.heads { mem := fun _ => [], objs := fun _ => [], owner := fun _ => 0 }, n = h.cacheList := fun n hn => by
    cases hn
    case inl hn => exact hn
    case inr hn =>
      obtain ⟨c, hc, _⟩ := hn
      cases hc
  constructor
  case rings =>
    constructor
    case ring  =>
      intro n hn
      rw [hH n hn]
      exact hr
    case apart => exact fun hn hn' hne => absurd ((hH _ hn).trans (hH _ hn').symm) hne
  case sound   =>
    intro d hd
    apply k.slabs
    simp only [Heap.all, List.mem_cons, List.not_mem_nil, or_false] at hd ⊢
    exact hd.symm
  case sizes   => exact hs
  case child   => exact fun hd => by cases hd
  case listed  => exact fun hc => by cases hc
  case objsize => exact fun hc => by cases hc
  case classes => exact List.nil_subset _
  case pages   => exact k.pages.trans <| .cons _ <| .swap ..
  case apart   => exact k.apart
  case behind  => exact k.behind
  case inMeta  =>
    intro d hd
    have hm : d ∈ [h.pslab, h.kmemCacheSlab] := by simpa [or_comm] using hd
    have := k.sound.obj_le <| k.sound.obj d hm
    rw [k.size, sizeofSlab] at this
    omega

end Static

-- The loop that creates the caches with the sizes `ss`.
theorem createCaches_spec (k : Core h v)
    (hs : ∀ size ∈ ss, 0 < size ∧ 8 ∣ size ∧ size ≤ pageSize * 2 ^ kmemCacheCslabOrder)
    (hl : (v.objs h.kmemCacheSlab).length + ss.length ≤ (h.slabs h.kmemCacheSlab).totalObj) :
    ∃ h' v' cs, (forM ss fun size => do let kc ← kmemCacheCreate size; kmemAdd kc : KmemM Unit).run h = .ok ((), h') ∧
      Core h' v' ∧ (h'.cacheList = h.cacheList ∧ h'.kmemCacheSlab = h.kmemCacheSlab ∧ h'.pslab = h.pslab ∧
        h'.locked = h.locked) ∧
      v'.objs h.pslab = v.objs h.pslab ∧ v'.mem h.cacheList = v.mem h.cacheList ++ cs ∧
      (v'.objs h.kmemCacheSlab).Perm (v.objs h.kmemCacheSlab ++ cs) ∧ cs.map h'.objsize = ss ∧
      ∀ c ∈ v.objs h.kmemCacheSlab, h'.objsize c = h.objsize c := by
  induction ss generalizing h v
  case nil =>
    exact ⟨h, v, [], rfl, k, ⟨rfl, rfl, rfl, rfl⟩, rfl, (List.append_nil _).symm, by simp, rfl, fun _ _ => rfl⟩
  case cons size ss hi =>
    have hcnt := (k.sound Core.kmemCacheSlab_mem).count
    have hlen : (size :: ss).length = ss.length + 1 := rfl
    have ⟨kc, s, hr, hh⟩ := k.kmemCacheCreate_spec (by omega) size
    have k₁ := k.newCache hh <| hs size (.head _)
    have hok : (v.enter h.kmemCacheSlab kc).objs h.kmemCacheSlab = kc :: v.objs h.kmemCacheSlab :=
      Function.update_self ..
    have hop : (v.enter h.kmemCacheSlab kc).objs h.pslab = v.objs h.pslab := Function.update_of_ne k.pslab_ne ..
    have hcl := k.enter_mem_of_node hh (@Rings.node_head _ _ v.mem _ (.inl rfl))
    have hkc : kc ∉ v.mem h.cacheList := fun hm => hh.free <| k.classes hm
    have hkm : kc ∈ (v.enter h.kmemCacheSlab kc).objs h.kmemCacheSlab := by
      rw [hok]
      exact .head _
    have k₂ := k₁.kmemAdd_spec hkm (by rwa [hcl])
    have ht : (Function.update h.slabs h.kmemCacheSlab s h.kmemCacheSlab).totalObj =
        (h.slabs h.kmemCacheSlab).totalObj := by rw [Function.update_self, hh.eq]
    have ⟨h', v', cs, hr', k', hf, hp, hm, hc, hsz, ho⟩ := hi k₂ (fun size hm => hs size <| .tail _ hm) <| by
      simp only [hok, ht, List.length_cons]
      omega
    refine ⟨h', v', kc :: cs, ?_, k', hf, hp.trans hop, ?_, ?_, ?_, fun c hc => ?_⟩
    case refine_1 =>
      rw [List.forM_cons, StateT.run_bind, StateT.run_bind, hr]
      exact hr'
    case refine_2 =>
      have hm : v'.mem h.cacheList = Function.update (v.enter h.kmemCacheSlab kc).mem h.cacheList
        ((v.enter h.kmemCacheSlab kc).mem h.cacheList ++ [kc]) h.cacheList ++ cs := hm
      rw [hm, Function.update_self, hcl, List.append_assoc]
      rfl
    case refine_3 =>
      have hc : (v'.objs h.kmemCacheSlab).Perm ((v.enter h.kmemCacheSlab kc).objs h.kmemCacheSlab ++ cs) := hc
      rw [hok] at hc
      exact hc.trans List.perm_middle.symm
    case refine_4 =>
      rw [List.map_cons, hsz, ho kc hkm]
      exact congrArg (· :: ss) <| Function.update_self ..
    case refine_5 =>
      rw [ho c <| by rw [hok]; exact .tail _ hc]
      have hne : c ≠ kc := fun he => hh.free <| he ▸ hc
      exact Function.update_of_ne hne ..

-- What holds when the allocator has been set up.
structure Booted (h : Heap) (v : View) : Prop where
  inv      : Inv h v
  pslab    : v.objs h.pslab = []
  caches   : (v.objs h.kmemCacheSlab).Perm (v.mem h.cacheList)
  sizes    : (v.mem h.cacheList).map h.objsize = kmemCacheSizeList
  unlocked : h.locked = false

theorem slabStaticInit_spec (hp : h.pages = []) :
    (slabStaticInit).run h = .error .outOfBounds ∨
    ∃ h', (slabStaticInit).run h = .ok ((), h') ∧ Static h' [] ∧ h.Frame h' := by
  obtain ⟨answers, ha⟩ | ⟨pg, answers, hf, ha⟩ := pmemAlloc_run h slabStaticPageOrder
  case inl =>
    left
    simp only [slabStaticInit, StateT.run_bind, ha]
    rfl
  case inr =>
    obtain ⟨_, hcl, hms, _⟩ := hf
    have hpg : 0 < pg := by omega
    obtain ⟨s, w, hr, hs, hpg', hsz, ho, _⟩ := Slab.slabCreateEx_spec slabStaticPageOrder hpg
      (show 0 < sizeofSlab by decide) (by decide) h.links.prev
    refine .inr ⟨{ h with
      links := { h.links with prev := w }
      slabs := Function.update h.slabs h.metaSlab s
      answers
      pages := (pg, slabStaticPageOrder) :: h.pages
    }, ?_, ?_, ⟨rfl, rfl, rfl, rfl, rfl, rfl⟩⟩
    case refine_1 => simp [slabStaticInit, ha, hpg.ne', slabCreateExAt, hr]
    case refine_2 =>
      have hm : Function.update h.slabs h.metaSlab s h.metaSlab = s := Function.update_self ..
      constructor
      case sound  => simpa only [hm] using hs
      case size   => simpa only [hm] using hsz
      case slabs  => exact fun hd => by cases hd
      case pages  => simp [hp, Heap.block, hpg', ho]
      case apart  => simp [hp]
      case behind => simpa [hp] using ⟨hcl, hms⟩

-- Without a slab for the caches, the first cache cannot be created.
theorem createCaches_null (hk : h.kmemCacheSlab = 0) :
    (forM kmemCacheSizeList fun size => do let kc ← kmemCacheCreate size; kmemAdd kc : KmemM Unit).run h =
      .error .outOfBounds := by
  rw [kmemCacheSizeList, List.forM_cons]
  simp only [kmemCacheCreate, slabAllocAt, StateT.run_bind, StateT.run_get, pure_eq_ok, ok_bind, hk]
  rfl

-- The creation of caches does not provide a slab for descriptors.

theorem slabAllocAt_pslab (hr : (slabAllocAt d).run h = .ok (a, h')) : h'.pslab = h.pslab := by
  by_cases hd : d = 0
  case pos =>
    simp only [slabAllocAt, hd] at hr
    cases hr
  case neg =>
    cases hs : slabAlloc (h.slabs d) h.links.prev
    case error => simp [slabAllocAt, hd, hs] at hr
    case ok    =>
      rw [slabAllocAt_run hd hs] at hr
      cases hr
      rfl

theorem kmemCacheCreate_pslab (hr : (kmemCacheCreate size).run h = .ok (kc, h')) : h'.pslab = h.pslab := by
  cases hs : (slabAllocAt h.kmemCacheSlab).run h
  case error => simp [kmemCacheCreate, hs] at hr
  case ok r  =>
    have he := slabAllocAt_pslab hs
    by_cases hd : r.1 = 0
    case pos =>
      simp [kmemCacheCreate, hs, hd] at hr
      cases hr
    case neg =>
      simp [kmemCacheCreate, hs, hd] at hr
      exact hr.2 ▸ he

theorem createCaches_pslab (hr : (forM ss fun size => do let kc ← kmemCacheCreate size; kmemAdd kc : KmemM Unit).run h =
    .ok ((), h')) : h'.pslab = h.pslab := by
  induction ss generalizing h
  case nil =>
    cases hr
    rfl
  case cons size ss hi =>
    rw [List.forM_cons, StateT.run_bind, StateT.run_bind] at hr
    cases hs : (kmemCacheCreate size).run h
    case error => simp [hs] at hr
    case ok r  =>
      have he := kmemCacheCreate_pslab hs
      rw [hs] at hr
      exact (hi hr).trans he

theorem kmemInit_spec (hp : h.pages = []) (hl : h.locked = false) (hr : (kmemInit).run h = .ok ((), h'))
    (hps : h'.pslab ≠ 0) : ∃ v, Booted h' v := by
  obtain he | ⟨h₁, he, k₁, f₁⟩ := slabStaticInit_spec hp
  case inl =>
    simp only [kmemInit, StateT.run_bind, he] at hr
    cases hr
  case inr =>
    have hm : h₁.metaSlab ≠ 0 := fun hm => by
      simp only [kmemInit, slabCreateStatic, slabCreate, slabAllocAt, StateT.run_bind, he, ok_bind, StateT.run_get,
        pure_eq_ok, hm] at hr
      cases hr
    obtain ⟨answers, hc⟩ | ⟨d, h₂, hc, f₂, hd, k₂, hsz, ho, _, hring⟩ := k₁.slabCreate_spec hm
      (show 0 < sizeofKmemCache by decide) (by decide) kmemCacheSlabOrder
    case inl =>
      have k₂ := (k₁.congr answers 0 h₁.pslab).listInit
      have hrun := k₂.slabCreate_spec hm (show 0 < sizeofSlab by decide) (by decide) kmemCachePslabOrder
      have hnull : ∃ d h₃, (slabCreate h₁.metaSlab sizeofSlab kmemCachePslabOrder 0).run { h₁ with
          links         := Zgmos.listInit h₁.links h₁.cacheList
          answers
          kmemCacheSlab := 0
        } = .ok (d, h₃) ∧ h₃.kmemCacheSlab = 0 := by
        obtain ⟨_, hc'⟩ | ⟨d, h₃, hc', f₃, _⟩ := hrun
        case inl => exact ⟨_, _, hc', rfl⟩
        case inr => exact ⟨d, h₃, hc', f₃.kmemCacheSlab⟩
      obtain ⟨d, h₃, hc', hk⟩ := hnull
      have hcr := createCaches_null (h := { h₃ with pslab := d }) hk
      simp [kmemInit, slabCreateStatic, he, hc, hc', hcr] at hr
    case inr =>
      have k₃ := (k₂.congr h₂.answers d h₂.pslab).listInit
      have hm : h₂.metaSlab ≠ 0 := f₂.metaSlab ▸ hm
      obtain ⟨answers, hc'⟩ | ⟨d', h₃, hc', f₃, hd', k₄, hsz', _, hold, hring'⟩ := k₃.slabCreate_spec hm
        (show 0 < sizeofSlab by decide) (by decide) kmemCachePslabOrder
      case inl =>
        have hrun : (forM kmemCacheSizeList fun size => do let kc ← kmemCacheCreate size; kmemAdd kc : KmemM Unit).run
            { h₂ with
              links         := Zgmos.listInit h₂.links h₂.cacheList
              answers
              kmemCacheSlab := d
              pslab         := 0
            } = .ok ((), h') := by
          simpa [kmemInit, slabCreateStatic, he, hc, hc'] using hr
        exact absurd (createCaches_pslab hrun) hps
      case inr =>
        have hrun : (forM kmemCacheSizeList fun size => do let kc ← kmemCacheCreate size; kmemAdd kc : KmemM Unit).run
            { h₃ with pslab := d' } = .ok ((), h') := by
          simpa [kmemInit, slabCreateStatic, he, hc, hc'] using hr
        have hd₃ : h₃.kmemCacheSlab = d := f₃.kmemCacheSlab
        have hs₃ : h₃.slabs d = h₂.slabs d := hold d <| .head _
        have k₅ : Static { h₃ with pslab := d' } [d', h₃.kmemCacheSlab] :=
          hd₃ ▸ k₄.congr h₃.answers h₃.kmemCacheSlab d'
        have k₆ := k₅.core (f₃.cacheList ▸ hring' (listInit_ring ..)) (by simpa [hd₃, hs₃] using ⟨hsz, hsz'⟩)
        have htot : 9 ≤ (h₃.slabs h₃.kmemCacheSlab).totalObj := by
          rw [(k₅.slabs <| .tail _ <| .head _).total, Slab.bytes]
          simp only [hd₃, hs₃, hsz, ho]
          decide
        obtain ⟨h'', v', cs, hr', k', ⟨hcl, hks, hps', hlk⟩, hp, hm, hcs, hsizes, _⟩ := createCaches_spec k₆
          (show ∀ size ∈ kmemCacheSizeList, 0 < size ∧ 8 ∣ size ∧ size ≤ pageSize * 2 ^ kmemCacheCslabOrder by decide)
          (by simpa [kmemCacheSizeList] using htot)
        have he : h'' = h' := by
          have := hr'.symm.trans hrun
          simpa using this
        subst he
        have hm : v'.mem h''.cacheList = cs := by
          rw [hcl]
          exact hm
        have hp : v'.objs h''.pslab = [] := by
          rw [hps']
          exact hp
        refine ⟨v', { k' with settled := fun hd => ?_ }, hp, ?_, hm ▸ hsizes, ?_⟩
        case refine_1 =>
          rw [hp] at hd
          cases hd
        case refine_2 =>
          rw [hks, hm]
          exact hcs
        case refine_3 => rw [hlk, f₃.locked, f₂.locked, f₁.locked, hl]

end Zgmos.Kmem
