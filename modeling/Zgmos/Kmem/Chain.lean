import Zgmos.Kmem.Init

namespace Zgmos.Kmem

-- What the release of the empty slabs `xs` of several caches does.
structure Sweeps (h h' : Heap) (v v' : View) (xs : List Nat) : Prop where
  inv    : Inv h' v'
  frame  : h.Frame h'
  caches : v'.objs h.kmemCacheSlab = v.objs h.kmemCacheSlab
  live   : h'.Live v' a c ↔ h.Live v a c
  list   : v'.mem h.cacheList = v.mem h.cacheList
  kept   : c ∈ v.objs h.kmemCacheSlab → f ≠ Fill.empty → v'.mem (f.head c) = v.mem (f.head c)
  rest   : c ∈ v.objs h.kmemCacheSlab → v'.mem (slabFreeOf c) = v.mem (slabFreeOf c) ∨ v'.mem (slabFreeOf c) = []
  slabs  : d ≠ h.pslab → h'.slabs d = h.slabs d ∧ v'.objs d = v.objs d
  owner  : v'.owner = v.owner
  pages  : h.pages.Perm (xs.map h.block ++ h'.pages)
  descs  : (v.objs h.pslab).Perm (xs ++ v'.objs h.pslab)
  empty  : d ∈ xs → v.objs d = []

variable {h h' h'' : Heap} {v v' v'' : View} {a c n k ret : Nat} {xs ys : List Nat}

-- The search visits the caches in the order of the list.
theorem findCache_run (xs : List Nat) (r : h.links.Ring h.cacheList (xs ++ ys)) (hk : ys.length < k) :
    (findCache n k (ys.headD h.cacheList)).run h = .ok (ys.find? fun c => n ≤ h.objsize c, h) := by
  induction ys generalizing xs k
  all_goals cases k
  case nil.zero | cons.zero => contradiction
  case nil.succ => simp [findCache]
  case cons.succ y ys hi k =>
    have hy : y ≠ h.cacheList := fun he => by
      have := (List.nodup_cons.mp r.nodup).1
      simp [he] at this
    have hx : h.links.next y = ys.headD h.cacheList := r.next_mem
    have hi := hi (xs ++ [y]) (by simpa using r) (Nat.lt_of_succ_lt_succ hk)
    by_cases hc : n ≤ h.objsize y
    case pos => simp [findCache, hy, hc]
    case neg => simpa [findCache, hy, hc, hx] using hi

theorem Inv.lock (i : Inv h v) (locked : Bool) : Inv { h with locked } v :=
  { i.toCore.lock locked with settled := i.settled }

theorem Grants.unlock (g : Grants { h with locked := true } h' v v' c ret) (hl : h.locked = false) :
    Grants h { h' with locked := false } v v' c ret where
  inv    := g.inv.lock false
  frame  := ⟨g.frame.cacheList, g.frame.metaSlab, g.frame.kmemCacheSlab, g.frame.pslab, g.frame.objsize, hl.symm⟩
  caches := g.caches
  list   := g.list
  pos    := g.pos
  new    := g.new
  live   := g.live
  lost   := g.lost

theorem Releases.unlock (g : Releases { h with locked := true } h' v v' a) (hl : h.locked = false) :
    Releases h { h' with locked := false } v v' a where
  inv    := g.inv.lock false
  frame  := ⟨g.frame.cacheList, g.frame.metaSlab, g.frame.kmemCacheSlab, g.frame.pslab, g.frame.objsize, hl.symm⟩
  caches := g.caches
  list   := g.list
  live   := g.live
  lost   := g.lost

namespace Inv

-- The lock is taken and given back around an allocation.
theorem kmemCacheAlloc_locked (i : Inv h v) (hl : h.locked = false) (hc : c ∈ v.objs h.kmemCacheSlab) :
    (∃ answers, (do let ret ← kmemCacheAlloc c; release; return ret : KmemM Nat).run { h with locked := true } =
      .ok (0, { h with answers })) ∨
    ∃ ret h' v', (do let ret ← kmemCacheAlloc c; release; return ret : KmemM Nat).run { h with locked := true } =
      .ok (ret, h') ∧ Grants h h' v v' c ret := by
  obtain ⟨answers, hr⟩ | ⟨ret, h', v', hr, g⟩ := (i.lock true).kmemCacheAlloc_spec hc
  case inl =>
    refine .inl ⟨answers, ?_⟩
    rw [StateT.run_bind, hr]
    cases h
    cases hl
    rfl
  case inr =>
    refine .inr ⟨ret, _, v', ?_, g.unlock hl⟩
    rw [StateT.run_bind, hr]
    rfl

theorem exists_findCache (hs : (v.mem h.cacheList).map h.objsize = kmemCacheSizeList) (hn : n ≤ 2048) :
    ∃ c, (v.mem h.cacheList).find? (n ≤ h.objsize ·) = some c := by
  have hm : 2048 ∈ (v.mem h.cacheList).map h.objsize := by
    rw [hs]
    decide
  have ⟨c, hc, he⟩ := List.mem_map.mp hm
  exact Option.isSome_iff_exists.mp <| List.find?_isSome.mpr ⟨c, hc, by simpa [he] using hn⟩

theorem kmemAlloc_run (i : Inv h v) (hl : h.locked = false)
    (hs : (v.mem h.cacheList).map h.objsize = kmemCacheSizeList)
    (hf : (v.mem h.cacheList).find? (n ≤ h.objsize ·) = some c) :
    (kmemAlloc n).run h =
      (do let ret ← kmemCacheAlloc c; release; return ret : KmemM Nat).run { h with locked := true } := by
  have r : h.links.Ring h.cacheList (v.mem h.cacheList) := i.rings.ring (.inl rfl)
  have hn : ¬2048 < n := by
    have hm : h.objsize c ∈ kmemCacheSizeList := hs ▸ List.mem_map_of_mem (List.mem_of_find?_eq_some hf)
    have hle : n ≤ h.objsize c := by simpa using List.find?_some hf
    have hmax : ∀ k ∈ kmemCacheSizeList, k ≤ 2048 := by decide
    have := hmax _ hm
    omega
  have hlen : (v.mem h.cacheList).length < kmemCacheSizeList.length + 1 := by
    rw [← hs, List.length_map]
    exact Nat.lt_succ_self _
  have hfind := findCache_run (h := { h with locked := true }) (n := n) [] r hlen
  have hx : h.links.next h.cacheList = (v.mem h.cacheList).headD h.cacheList := r.next_head
  by_cases h₈ : n ≤ 8
  case neg =>
    have hmax : ¬kmemCacheSizeList.getLast (by decide) < n := hn
    have hmin : ¬n ≤ kmemCacheSizeList.head (by decide) := h₈
    simp only [hf, ← hx] at hfind
    simp [kmemAlloc, hmax, hmin, acquire, hl, hfind]
  case pos =>
    cases hcs : v.mem h.cacheList
    case nil => simp [hcs] at hf
    case cons c₀ cs =>
      have h₀ : h.objsize c₀ = 8 := by
        rw [hcs, kmemCacheSizeList] at hs
        exact (List.cons.inj hs).1
      have he : c₀ = c := by simpa [hcs, h₀, h₈] using hf
      have hx : h.links.next h.cacheList = c := by simp [hx, hcs, he]
      simp [kmemAlloc, kmemCacheSizeList, hn, acquire, hl, h₈, hx]

-- The first cache with objects that are large enough is used.
theorem kmemAlloc_spec (i : Inv h v) (hl : h.locked = false)
    (hs : (v.mem h.cacheList).map h.objsize = kmemCacheSizeList) (n : Nat) :
    (∃ answers, (kmemAlloc n).run h = .ok (0, { h with answers })) ∨
    ∃ ret h' v' c, (kmemAlloc n).run h = .ok (ret, h') ∧ (v.mem h.cacheList).find? (n ≤ h.objsize ·) = some c ∧
      Grants h h' v v' c ret := by
  by_cases hn : 2048 < n
  case pos => exact .inl ⟨h.answers, by simp [kmemAlloc, kmemCacheSizeList, hn]⟩
  case neg =>
    obtain ⟨c, hf⟩ := exists_findCache hs <| Nat.le_of_not_lt hn
    have hrun := i.kmemAlloc_run hl hs hf
    have hc := i.classes <| List.mem_of_find?_eq_some hf
    obtain ⟨answers, hr⟩ | ⟨ret, h', v', hr, g⟩ := i.kmemCacheAlloc_locked hl hc
    case inl => exact .inl ⟨answers, hrun.trans hr⟩
    case inr => exact .inr ⟨ret, h', v', c, hrun.trans hr, hf, g⟩

-- An object is given back to the cache that the tag of its page names.
theorem kmemFree_spec (i : Inv h v) (hl : h.locked = false) (hc : c ∈ v.objs h.kmemCacheSlab) (hlive : h.Live v a c) :
    ∃ h' v', (kmemFree a).run h = .ok ((), h') ∧ Releases h h' v v' a := by
  have ⟨h', v', hr, g⟩ := (i.lock true).kmemCacheFree_spec hc hlive
  have ⟨d, hd, ho, ha⟩ := hlive
  have ht : h.adat (a / pageSize) = c := by
    have hin := i.obj_inside (Core.mem_all hd) ha
    have hpl := i.place_inside (Core.mem_all hd) <| i.obj_place (Core.mem_all hd) ha
    exact ho ▸ (i.child hd <| ho ▸ i.cache_ne_zero hc).tag hin.1 hpl.2
  refine ⟨_, v', ?_, g.unlock hl⟩
  simp [kmemFree, acquire, release, pmemGetAdat, hl, ht, hr]

end Inv

namespace Sweeps

theorem refl (i : Inv h v) : Sweeps h h v v [] where
  inv      := i
  frame    := .refl h
  caches   := rfl
  live     := .rfl
  list     := rfl
  kept _ _ := rfl
  rest _   := .inl rfl
  slabs _  := ⟨rfl, rfl⟩
  owner    := rfl
  pages    := .refl _
  descs    := .refl _
  empty hd := nomatch hd

theorem cons (i : Inv h v) (hc : c ∈ v.objs h.kmemCacheSlab)
    (s : Shrinks h h' v v' c (v.mem <| slabFreeOf c)) (hm : v'.mem (slabFreeOf c) = [])
    (s' : Sweeps h' h'' v' v'' ys) : Sweeps h h'' v v'' (v.mem (slabFreeOf c) ++ ys) := by
  have k := i.toCore
  have hmem : ∀ {c' f}, c' ∈ v.objs h.kmemCacheSlab → (c' = c → f ≠ .empty) →
      v'.mem (Fill.head c' f) = v.mem (Fill.head c' f) := fun hc' hne => s.mem fun he => by
    have ⟨h₁, h₂⟩ := k.head_inj (g := .empty) hc' hc he
    exact hne h₁ h₂
  have hcs : ∀ {c'}, c' ∈ v.objs h.kmemCacheSlab → c' ∈ v'.objs h'.kmemCacheSlab := fun hc' => by
    rwa [s.frame.kmemCacheSlab, s.caches]
  have hys : ∀ {d}, d ∈ ys → d ∈ v.objs h.pslab ∧ d ≠ h.pslab := fun {d} hd => by
    have hd := s'.descs.mem_iff.mpr <| List.mem_append_left _ hd
    rw [s.frame.pslab] at hd
    have hd := s.descs.mem_iff.mpr <| List.mem_append_right _ hd
    exact ⟨hd, k.ne_pslab hd⟩
  constructor
  case inv    => exact s'.inv
  case frame  => exact s.frame.trans s'.frame
  case caches => rw [← s.caches, ← s.frame.kmemCacheSlab, s'.caches]
  case live   => exact s'.live.trans s.live
  case list   =>
    have hl := s'.list
    rw [s.frame.cacheList] at hl
    exact hl.trans <| s.mem (k.head_ne (f := .empty) hc).symm
  case kept   => exact fun hc' hf => (s'.kept (hcs hc') hf).trans <| hmem hc' fun _ => hf
  case rest   =>
    intro c' hc'
    by_cases he : c' = c
    case pos =>
      subst he
      cases s'.rest (hcs hc')
      case inl h => exact .inr <| h.trans hm
      case inr h => exact .inr h
    case neg =>
      have := hmem (f := .empty) hc' fun h => absurd h he
      exact (s'.rest (hcs hc')).imp_left (·.trans this)
  case slabs  =>
    intro d hd
    have ⟨h₁, h₂⟩ := s'.slabs <| s.frame.pslab.symm ▸ hd
    have ⟨h₃, h₄⟩ := s.slabs hd
    exact ⟨h₁.trans h₃, h₂.trans h₄⟩
  case owner  => exact s'.owner.trans s.owner
  case pages  =>
    have hb : ys.map h'.block = ys.map h.block := List.map_congr_left fun d hd => by
      rw [Heap.block, (s.slabs (hys hd).2).1, Heap.block]
    have hp := s.pages.trans <| s'.pages.append_left _
    rwa [hb, ← List.append_assoc, ← List.map_append] at hp
  case descs  =>
    have hd := s'.descs
    rw [s.frame.pslab] at hd
    have hp := s.descs.trans <| hd.append_left _
    rwa [← List.append_assoc] at hp
  case empty  =>
    intro d hd
    cases List.mem_append.mp hd
    case inl hd => exact k.fits (f := .empty) (i.settled (k.owner_of_mem (f := .empty) hc hd).1) hc hd
    case inr hd =>
      have := s'.empty hd
      rwa [(s.slabs (hys hd).2).2] at this

end Sweeps

namespace Inv

theorem shrinkCaches_spec (xs : List Nat) (i : Inv h v) (hm : v.mem h.cacheList = xs ++ ys) (hk : ys.length < k) :
    ∃ h' v' rs, (shrinkCaches k (ys.headD h.cacheList)).run h = .ok ((), h') ∧ Sweeps h h' v v' rs ∧
      ∀ c ∈ ys, v'.mem (slabFreeOf c) = [] := by
  induction ys generalizing h v xs k
  all_goals cases k
  case nil.zero | cons.zero => contradiction
  case nil.succ => exact ⟨h, v, [], by simp [shrinkCaches], .refl i, by simp⟩
  case cons.succ c ys hi k =>
    have hcm : c ∈ v.mem h.cacheList := by simp [hm]
    have hc := i.classes hcm
    have r : h.links.Ring h.cacheList (v.mem h.cacheList) := i.rings.ring (.inl rfl)
    have hne : c ≠ h.cacheList := fun he => (List.nodup_cons.mp r.nodup).1 <| he ▸ hcm
    have ⟨h₁, v₁, hr, s, hs⟩ := i.kmemCacheShrink_spec hc
    have hm₁ : v₁.mem h₁.cacheList = xs ++ c :: ys := by
      rw [s.frame.cacheList, s.mem (i.head_ne (f := .empty) hc).symm, hm]
    have hx : h₁.links.next c = ys.headD h₁.cacheList := by
      have r₁ : h₁.links.Ring h₁.cacheList (v₁.mem h₁.cacheList) := s.inv.rings.ring (.inl rfl)
      rw [hm₁] at r₁
      exact r₁.next_mem
    have ⟨h₂, v₂, rs, hr', s', hs'⟩ := hi (xs ++ [c]) s.inv (by simpa using hm₁) (Nat.lt_of_succ_lt_succ hk)
    have hc₁ : c ∈ v₁.objs h₁.kmemCacheSlab := by rwa [s.frame.kmemCacheSlab, s.caches]
    refine ⟨h₂, v₂, _, ?_, .cons i hc s hs s', fun c' hc' => ?_⟩
    case refine_1 => simpa [shrinkCaches, hne, hr, hx] using hr'
    case refine_2 =>
      cases hc'
      case head     => exact (s'.rest hc₁).elim (·.trans hs) id
      case tail hc' => exact hs' c' hc'

theorem kmemShrink_spec (i : Inv h v) (hl : h.locked = false) (hs : (v.mem h.cacheList).length = kmemCacheSizeList.length) :
    ∃ h' v' rs, (kmemShrink).run h = .ok ((), h') ∧ Sweeps h h' v v' rs ∧
      ∀ c ∈ v.mem h.cacheList, v'.mem (slabFreeOf c) = [] := by
  have ⟨h', v', rs, hr, s, he⟩ := (i.lock true).shrinkCaches_spec (k := kmemCacheSizeList.length + 1) [] rfl
    (by rw [hs]; exact Nat.lt_succ_self _)
  have hx : h.links.next h.cacheList = (v.mem h.cacheList).headD h.cacheList := (i.rings.ring (.inl rfl)).next_head
  refine ⟨{ h' with locked := false }, v', rs, ?_, ?_, he⟩
  case refine_1 =>
    rw [← hx] at hr
    simp [kmemShrink, acquire, release, hl, hr]
  case refine_2 =>
    exact {
      inv    := s.inv.lock false
      frame  := ⟨s.frame.cacheList, s.frame.metaSlab, s.frame.kmemCacheSlab, s.frame.pslab, s.frame.objsize, hl.symm⟩
      caches := s.caches
      live   := s.live
      list   := s.list
      kept   := s.kept
      rest   := s.rest
      slabs  := s.slabs
      owner  := s.owner
      pages  := s.pages
      descs  := s.descs
      empty  := s.empty
    }

end Inv

end Zgmos.Kmem
