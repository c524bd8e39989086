import Zgmos.Kmem.Leak
import Zgmos.Lib.Except

namespace Zgmos.Kmem

-- The slab `d` is on the given list of the cache `c`.
def Heap.OnList (h : Heap) (f : Fill) (c d : Nat) : Prop :=
  ∃ xs, h.links.Ring (f.head c) xs ∧ d ∈ xs

theorem Core.onList_iff {h : Heap} {v : View} {f : Fill} {c d : Nat} (k : Core h v) (hc : c ∈ v.objs h.kmemCacheSlab) :
    h.OnList f c d ↔ d ∈ v.mem (f.head c) := by
  constructor
  case mp  => exact fun ⟨_, r, hd⟩ => (k.ring f hc).unique r ▸ hd
  case mpr => exact fun hd => ⟨_, k.ring f hc, hd⟩

-- A size class is the smallest one for a request.
structure ClassFor (n size : Nat) : Prop where
  mem   : size ∈ kmemCacheSizeList
  le    : n ≤ size
  least : k ∈ kmemCacheSizeList → n ≤ k → size ≤ k

theorem ClassFor.of_find? {n size : Nat} (h : kmemCacheSizeList.find? (n ≤ ·) = some size) : ClassFor n size where
  mem := List.mem_of_find?_eq_some h
  le  := by simpa using List.find?_some h
  least {k} hk hn := by
    have hs : kmemCacheSizeList.Pairwise (· ≤ ·) := by decide
    have ⟨_, as, bs, he, ha⟩ := List.find?_eq_some_iff_append.mp h
    rw [he] at hs hk
    have ⟨_, hs, _⟩ := List.pairwise_append.mp hs
    cases List.mem_append.mp hk
    case inl hk => simpa [hn] using ha k hk
    case inr hk =>
      cases hk
      case head    => exact le_rfl
      case tail hk => exact (List.pairwise_cons.mp hs).1 k hk

namespace World

-- The calls of `kmalloc`, `kfree` and `kmem_shrink`, and the writes of the owners to their objects.
inductive Use.Kmalloc : Use → Prop
  | alloc  : Kmalloc (.alloc n)
  | free   : Kmalloc (.free a)
  | shrink : Kmalloc .shrink
  | write  : Kmalloc (.write links)

-- Two objects have no byte in common.
def Disjoint (s : World) (b b' : Nat × Nat) : Prop :=
  b.1 + s.heap.objsize b.2 ≤ b'.1 ∨ b'.1 + s.heap.objsize b'.2 ≤ b.1

-- The state of the heap between two calls.
structure Contract (s : World) : Prop where
  apart  : b ∈ s.live → b' ∈ s.live → b ≠ b' → s.Disjoint b b'
  alloc  : n ≤ 2048 → ∃ ret heap, (kmemAlloc n).run s.heap = .ok (ret, heap) ∧ (ret ≠ 0 →
    ∃ c ∈ s.classes, ClassFor n (s.heap.objsize c) ∧ (∀ b ∈ s.live, s.Disjoint (ret, c) b) ∧
      ∃ f d, heap.OnList f c d ∧ (heap.slabs d).Obj ret ∧ (heap.slabs d).pg ≤ ret ∧
        ret + s.heap.objsize c ≤ (heap.slabs d).pg + (heap.slabs d).bytes)
  -- The slabs are those whose pages are allocated.
  slabs  : ∃ slabs : List Nat, slabs.Nodup ∧ s.heap.pages.Perm (s.heap.block s.heap.metaSlab ::
      s.heap.block s.heap.kmemCacheSlab :: s.heap.block s.heap.pslab :: slabs.map s.heap.block) ∧
    (∀ c ∈ s.classes, ∀ f d, s.heap.OnList f c d → d ∈ slabs) ∧
    ∀ d ∈ slabs, ∃ c ∈ s.classes, ∃ f : Fill, (∀ c' ∈ s.classes, ∀ f', s.heap.OnList f' c' d ↔ c' = c ∧ f' = f) ∧
      (f = .empty ↔ ∀ b ∈ s.live, ¬slabContain (s.heap.slabs d) b.1) ∧ (f = .full ↔ slabFull (s.heap.slabs d))
  free   : (a, c) ∈ s.live → c ∈ s.classes ∧ s.heap.adat (a / pageSize) = c ∧
    ∃ heap, (kmemFree a).run s.heap = .ok ((), heap)
  shrink : ∃ heap released, (kmemShrink).run s.heap = .ok ((), heap) ∧ s.heap.pages.Perm (released ++ heap.pages) ∧
    ∀ p ∈ released, ∀ b ∈ s.live, b.1 + s.heap.objsize b.2 ≤ p.1 ∨ p.1 + pageSize * 2 ^ p.2 ≤ b.1

variable {s s' : World} {v v' : View} {t : Prop} {b b' : Nat × Nat} {a c d n : Nat} {f g : Fill} {uses : List Use}
  {use : Use} {r : Except Fault World}

namespace Holds

theorem disjoint (k : s.Holds t v) (hb : b ∈ s.live) (hb' : b' ∈ s.live) (hne : b ≠ b') : s.Disjoint b b' := by
  have ⟨d, hd, ha, hsz, hl, hu⟩ := k.live_block hb
  have ⟨d', hd', ha', hsz', hl', hu'⟩ := k.live_block hb'
  by_cases he : d = d'
  case neg =>
    have := k.inv.pairwise_of_ne (Core.mem_all hd) (Core.mem_all hd') he
    simp only [Apart, Heap.block, Slab.bytes, Disjoint] at this hu hu' ⊢
    omega
  case pos =>
    subst he
    have hp := k.inv.obj_place (Core.mem_all hd) ha
    have hp' := k.inv.obj_place (Core.mem_all hd) ha'
    have hn : b.1 ≠ b'.1 := fun hc => hne <| Prod.ext hc <| k.live_unique (k.live.mp hb).2 <| hc ▸ (k.live.mp hb').2
    cases Nat.lt_or_gt_of_ne hn
    case inl hlt => exact .inl <| hsz ▸ Slab.Shape.obj_apart hp hp' hlt
    case inr hgt => exact .inr <| hsz' ▸ Slab.Shape.obj_apart hp' hp hgt

-- The slab of a live object is on a list of its cache.
theorem exists_slab (k : s.Holds t v) (hb : b ∈ s.live) : ∃ f d, s.heap.OnList f b.2 d ∧ (s.heap.slabs d).Obj b.1 ∧
    (s.heap.slabs d).pg ≤ b.1 ∧ b.1 + s.heap.objsize b.2 ≤ (s.heap.slabs d).pg + (s.heap.slabs d).bytes := by
  have ⟨hc, d, hd, ho, ha⟩ := k.live.mp hb
  have hz := k.inv.cache_ne_zero hc
  have ⟨f, _, hm⟩ := k.inv.settled hd (ho ▸ hz)
  have hin := k.inv.obj_inside (Core.mem_all hd) ha
  have hsz := (k.inv.child hd (ho ▸ hz)).size
  rw [ho] at hm hsz
  exact ⟨f, d, (k.inv.onList_iff hc).mpr hm, (k.inv.sound <| Core.mem_all hd).obj _ ha, hsz ▸ hin⟩

theorem classFor (k : s.Holds t v) (hf : s.classes.find? (n ≤ s.heap.objsize ·) = some c) :
    ClassFor n (s.heap.objsize c) := by
  apply ClassFor.of_find?
  rw [← k.sizes, List.find?_map]
  exact congrArg _ hf

theorem alloc_contract (k : s.Holds t v) (n : Nat) :
    ∃ ret heap, (kmemAlloc n).run s.heap = .ok (ret, heap) ∧ (ret ≠ 0 →
      ∃ c ∈ s.classes, ClassFor n (s.heap.objsize c) ∧ (∀ b ∈ s.live, s.Disjoint (ret, c) b) ∧
        ∃ f d, heap.OnList f c d ∧ (heap.slabs d).Obj ret ∧ (heap.slabs d).pg ≤ ret ∧
          ret + s.heap.objsize c ≤ (heap.slabs d).pg + (heap.slabs d).bytes) := by
  obtain ⟨answers, hr⟩ | ⟨ret, h', v', c, hr, hf, g⟩ := k.inv.kmemAlloc_spec k.unlocked (k.list ▸ k.sizes) n
  case inl => exact ⟨0, _, hr, fun h => absurd rfl h⟩
  case inr =>
    rw [k.list] at hf
    have hm := List.mem_of_find?_eq_some hf
    have hc := k.mem_caches.mpr <| List.mem_append_left _ hm
    have k' := k.grant hc g
    have hsz : h'.objsize = s.heap.objsize := g.frame.objsize
    have hd (b : Nat × Nat) (hb : b ∈ s.live) : s.Disjoint (ret, c) b := by
      have hne : (ret, c) ≠ b := fun he => g.new (k.live.mp <| he ▸ hb).2
      have hd := k'.disjoint (.head _) (.tail _ hb) hne
      rwa [Disjoint, hsz] at hd
    have ⟨f, d, hon, ho, hin⟩ := k'.exists_slab (.head _)
    exact ⟨ret, h', hr, fun _ => ⟨c, hm, k.classFor hf, hd, f, d, hon, ho, hsz ▸ hin⟩⟩

theorem contain_iff (k : s.Holds t v) (hd : d ∈ v.objs s.heap.pslab) (ho : v.owner d ≠ 0) :
    (∀ b ∈ s.live, ¬slabContain (s.heap.slabs d) b.1) ↔ v.objs d = [] := by
  constructor
  case mp =>
    intro h
    by_contra hne
    have ⟨a, ha⟩ := List.exists_mem_of_ne_nil _ hne
    have hc := (k.inv.child hd ho).owner
    exact h (a, v.owner d) (k.live.mpr ⟨hc, d, hd, rfl, ha⟩) <| (k.inv.contain_iff hd ha hd).mpr rfl
  case mpr =>
    intro hnil b hb hcn
    have ⟨_, d', hd', _, ha⟩ := k.live.mp hb
    have he := (k.inv.contain_iff hd' ha hd).mp hcn
    rw [← he, hnil] at ha
    cases ha

-- A slab is on one list, which its objects determine.
theorem fill_iff (k : s.Holds t v) (ht : t) (hd : d ∈ v.objs s.heap.pslab) (hm : d ∈ v.mem (f.head (v.owner d))) :
    (f = .empty ↔ v.objs d = []) ∧ (f = .full ↔ slabFull (s.heap.slabs d)) := by
  have ho := k.kept ht hd
  have hc := (k.inv.child hd ho).owner
  have hfit := k.inv.fits (k.inv.settled hd) hc hm
  have hcnt := k.inv.freeObj_eq hd
  have htot := k.inv.total_pos hd ho
  have hne : f ≠ .empty → v.objs d ≠ [] := fun hf hnil => by
    obtain ⟨a, ha, _⟩ := k.exists_live ht (k.mem_caches.mp hc) hm hf
    rw [hnil] at ha
    cases ha
  cases f
  case full  =>
    have hfit : (s.heap.slabs d).freeObj = 0 := hfit
    simpa [slabFull, hfit] using hne
  case mixed => simpa [slabFull, hfit.1] using hne
  case empty =>
    have hfit : v.objs d = [] := hfit
    rw [hfit, List.length_nil] at hcnt
    simp only [slabFull, hfit, decide_eq_true_eq, reduceCtorEq, false_iff, true_and]
    omega

theorem slabs_contract (k : s.Holds t v) (ht : t) (hs : s.caches = []) :
    ∃ slabs : List Nat, slabs.Nodup ∧ s.heap.pages.Perm (s.heap.block s.heap.metaSlab ::
        s.heap.block s.heap.kmemCacheSlab :: s.heap.block s.heap.pslab :: slabs.map s.heap.block) ∧
      (∀ c ∈ s.classes, ∀ f d, s.heap.OnList f c d → d ∈ slabs) ∧
      ∀ d ∈ slabs, ∃ c ∈ s.classes, ∃ f : Fill, (∀ c' ∈ s.classes, ∀ f', s.heap.OnList f' c' d ↔ c' = c ∧ f' = f) ∧
        (f = .empty ↔ ∀ b ∈ s.live, ¬slabContain (s.heap.slabs d) b.1) ∧ (f = .full ↔ slabFull (s.heap.slabs d)) := by
  have hcl {c : Nat} : c ∈ s.classes ↔ c ∈ v.objs s.heap.kmemCacheSlab := by
    rw [k.mem_caches, hs, List.append_nil]
  refine ⟨v.objs s.heap.pslab, (k.inv.sound Core.pslab_mem).nodup, k.inv.pages, fun c hc f d hon => ?_, fun d hd => ?_⟩
  case refine_1 =>
    have hc := hcl.mp hc
    exact (k.inv.owner_of_mem hc <| (k.inv.onList_iff hc).mp hon).1
  case refine_2 =>
    have ho := k.kept ht hd
    have hc := (k.inv.child hd ho).owner
    have ⟨f, _, hm⟩ := k.inv.settled hd ho
    have ⟨he, hf⟩ := k.fill_iff ht hd hm
    refine ⟨v.owner d, hcl.mpr hc, f, fun c' hc' f' => ?_, he.trans (k.contain_iff hd ho).symm, hf⟩
    rw [k.inv.onList_iff <| hcl.mp hc']
    constructor
    case mp =>
      intro hm'
      have hc' := (k.inv.owner_of_mem (hcl.mp hc') hm').2
      subst hc'
      exact ⟨rfl, k.inv.fill_unique hc hm' hm⟩
    case mpr => exact fun ⟨hc', hf'⟩ => hc' ▸ hf' ▸ hm

theorem free_contract (k : s.Holds t v) (hs : s.caches = []) (hb : (a, c) ∈ s.live) :
    c ∈ s.classes ∧ s.heap.adat (a / pageSize) = c ∧ ∃ heap, (kmemFree a).run s.heap = .ok ((), heap) := by
  have ⟨hc, hl⟩ := k.live.mp hb
  have ⟨d, hd, ho, ha⟩ := hl
  have ⟨heap, _, hr, _⟩ := k.inv.kmemFree_spec k.unlocked hc hl
  have hin := k.inv.obj_inside (Core.mem_all hd) ha
  have hpl := k.inv.place_inside (Core.mem_all hd) <| k.inv.obj_place (Core.mem_all hd) ha
  have ht := (k.inv.child hd <| ho ▸ k.inv.cache_ne_zero hc).tag hin.1 hpl.2
  rw [k.mem_caches, hs, List.append_nil] at hc
  exact ⟨hc, ht.trans ho, heap, hr⟩

theorem shrink_contract (k : s.Holds t v) :
    ∃ heap released, (kmemShrink).run s.heap = .ok ((), heap) ∧ s.heap.pages.Perm (released ++ heap.pages) ∧
      ∀ p ∈ released, ∀ b ∈ s.live, b.1 + s.heap.objsize b.2 ≤ p.1 ∨ p.1 + pageSize * 2 ^ p.2 ≤ b.1 := by
  have hlen : (v.mem s.heap.cacheList).length = kmemCacheSizeList.length := by
    rw [k.list, ← k.sizes, List.length_map]
  have ⟨heap, _, rs, hr, g, _⟩ := k.inv.kmemShrink_spec k.unlocked hlen
  refine ⟨heap, _, hr, g.pages, fun p hp b hb => ?_⟩
  have ⟨d, hd, he⟩ := List.mem_map.mp hp
  have ⟨d', hd', ha, _, hl, hu⟩ := k.live_block hb
  have hdm := g.descs.mem_iff.mpr <| List.mem_append_left _ hd
  have hne : d ≠ d' := fun hc => by
    rw [← hc, g.empty hd] at ha
    cases ha
  have := k.inv.pairwise_of_ne (Core.mem_all hdm) (Core.mem_all hd') hne
  subst he
  simp only [Apart, Heap.block, Slab.bytes] at this hu ⊢
  omega

theorem contract (k : s.Holds t v) (ht : t) (hs : s.caches = []) : s.Contract where
  apart    := k.disjoint
  alloc _  := k.alloc_contract _
  slabs    := k.slabs_contract ht hs
  free     := k.free_contract hs
  shrink   := k.shrink_contract

end Holds

-- No other caches are created.
theorem Step.caches (e : Step (.ok s) use r) (hu : use.Kmalloc) (hr : r = .ok s') : s'.caches = s.caches := by
  cases hu <;> cases e
  case alloc.alloc =>
    have ⟨_, _, he⟩ := Except.bind_eq_ok.mp hr
    cases he
    rfl
  case free.free =>
    have ⟨_, _, he⟩ := Except.bind_eq_ok.mp hr
    cases he
    rfl
  case shrink.shrink =>
    have ⟨_, _, he⟩ := Except.bind_eq_ok.mp hr
    cases he
    rfl
  case write.write =>
    cases hr
    rfl

-- The contract of `kmalloc` and `kfree` in every state.
theorem run_kmalloc_contract (h : s.Start) (e : Run Step (.ok s) uses r) (hu : ∀ use ∈ uses, use.Kmalloc) :
    ∃ s', r = .ok s' ∧ s'.Contract := by
  have hi : ∃ s' v', r = .ok s' ∧ s'.Holds True v' ∧ s'.caches = [] := by
    apply e.invariant_mem (p := fun r => ∃ s' v', r = .ok s' ∧ Holds True s' v' ∧ s'.caches = [])
    case hs =>
      have ⟨v, k⟩ := Holds.init (t := True) h
      exact ⟨s, v, rfl, k, h.caches⟩
    case h =>
      intro r use hm r' ⟨s, v, hs, k, hc⟩ e
      subst hs
      have hk := hu use hm
      have hn (size : Nat) (he : use = .cacheCreate size) : 2 * size ≤ pageSize * 2 ^ kmemCacheCslabOrder := by
        rw [he] at hk
        cases hk
      have ⟨s', v', hr, k'⟩ := k.step e fun _ => hn
      exact ⟨s', v', hr, k', (e.caches hk hr).trans hc⟩
  have ⟨s', v', hr, k, hc⟩ := hi
  exact ⟨s', hr, k.contract trivial hc⟩

-- Objects of two classes are allocated, and one of them is freed.
theorem booted_kmalloc_contract : ∃ s,
    Run Step (.ok booted) [.alloc 16, .alloc 32, .free 0x80040000, .shrink] (.ok s) ∧
      s.live = [(0x80050000, 0x80020090)] ∧ s.Contract := by
  have hf : booted.found [.alloc 16, .alloc 32] (·.live) = some [(0x80050000, 0x80020090), (0x80040000, 0x80020048)] := by
    decide +kernel
  have hu : ∀ use ∈ [Use.alloc 16, .alloc 32, .free 0x80040000, .shrink], use.Kmalloc :=
    List.forall_mem_cons.mpr ⟨.alloc, List.forall_mem_cons.mpr ⟨.alloc, List.forall_mem_cons.mpr ⟨.free,
      List.forall_mem_singleton.mpr .shrink⟩⟩⟩
  obtain ⟨s₁, e₁, hl⟩ := run_of_found hf
  have hm : (0x80040000, 0x80020048) ∈ s₁.live := by rw [hl]; simp
  have e₂ := e₁.append <| .single <| .free hm
  obtain ⟨s₂, h₂, _⟩ := run_kmalloc_contract booted_start e₂ fun use hm => hu use <| List.mem_append_left [Use.shrink] hm
  rw [h₂] at e₂
  have e₃ := e₂.append <| .single .shrink
  obtain ⟨s₃, h₃, hc⟩ := run_kmalloc_contract booted_start e₃ hu
  rw [h₃] at e₃
  refine ⟨s₃, e₃, ?_, hc⟩
  obtain ⟨_, _, he₂⟩ := Except.bind_eq_ok.mp h₂
  obtain ⟨_, _, he₃⟩ := Except.bind_eq_ok.mp h₃
  cases he₂
  cases he₃
  simp [hl]

end World

end Zgmos.Kmem
