import Zgmos.Kmem.Layout

namespace Zgmos.Kmem

-- A slab that is on no list.
def View.Loose (h : Heap) (v : View) (d : Nat) : Prop :=
  ∀ c ∈ v.objs h.kmemCacheSlab, d ∉ v.slabsOf c

namespace Child

variable {h h' : Heap} {v v' : View} {d : Nat}

-- What a slab of a cache depends on.
theorem congr (k : Child h v d) (ho : v'.owner d = v.owner d)
    (hm : v.owner d ∈ v'.objs h'.kmemCacheSlab) (hsz : h'.objsize (v.owner d) = h.objsize (v.owner d))
    (hs : (h'.slabs d).pg = (h.slabs d).pg ∧ (h'.slabs d).order = (h.slabs d).order ∧
      (h'.slabs d).sizeObj = (h.slabs d).sizeObj)
    (ha : ∀ a, (h.slabs d).pg ≤ a → a < (h.slabs d).pg + (h.slabs d).bytes → h'.adat (a / pageSize) = h.adat (a / pageSize)) :
    Child h' v' d where
  owner := ho ▸ hm
  size  := by rw [hs.2.2, ho, hsz, k.size]
  order := by rw [hs.2.1, k.order]
  page  := hs.1 ▸ k.page
  tag {a} hl hu := by
    rw [Slab.bytes, hs.1, hs.2.1] at hu
    rw [hs.1] at hl
    rw [ho, ha a hl hu, k.tag hl hu]

end Child

namespace Core

variable {h h' : Heap} {v v' : View} {a b c d n p : Nat} {w : Words} {l : Links Nat} {mem : Nat → List Nat}
  {xs ys : List Nat} {f : Fill}

-- The lists have changed.
theorem relink (k : Core h v) (hr : Rings l (h.heads v) mem) (hw : h.Spares v h.links.prev l.prev)
    (hl : ∀ c ∈ v.objs h.kmemCacheSlab, ∀ d ∈ { v with mem : View }.slabsOf c, d ∈ v.objs h.pslab ∧ v.owner d = c)
    (hc : mem h.cacheList = v.mem h.cacheList) : Core { h with links := l } { v with mem } where
  rings        := hr
  sound hd     := (k.sound hd).congr (hw _ hd)
  sizes        := k.sizes
  child hd ho  := (k.child hd ho).congr rfl (k.child hd ho).owner rfl ⟨rfl, rfl, rfl⟩ fun _ _ _ => rfl
  listed hc hd := hl _ hc _ hd
  objsize      := k.objsize
  classes      := by
    simp only [hc]
    exact k.classes
  pages        := k.pages
  apart        := k.apart
  behind       := k.behind
  inMeta       := k.inMeta

theorem not_node (k : Core h v) (hd : d ∈ h.all v) (ha : (h.slabs d).Place a) (hn : a ∉ v.objs d) :
    ¬Rings.Node (h.heads v) v.mem a :=
  fun hm => hn <| k.mem_of_spot (k.spot_of_node hm) hd ha

-- A slab is taken from a list of its cache.
theorem listDel (k : Core h v) (hc : c ∈ v.objs h.kmemCacheSlab) (hm : v.mem (f.head c) = xs ++ d :: ys) :
    Core { h with links := Zgmos.listDel h.links d } { v with mem := Function.update v.mem (f.head c) (xs ++ ys) } := by
  have hp := head_mem (f := f) hc
  have hd : d ∈ v.mem (f.head c) := by simp [hm]
  apply k.relink (k.rings.remove hp hm)
  case hw => exact fun d hd' a ha hn => k.rings.unlink_prev hp (k.not_node hd' ha hn) hd
  case hc => exact Function.update_of_ne (k.head_ne hc).symm ..
  case hl =>
    intro c' hc' x hx
    apply k.listed hc'
    have ⟨g, hg⟩ := View.mem_slabsOf.mp hx
    refine View.mem_slabsOf.mpr ⟨g, ?_⟩
    by_cases he : g.head c' = f.head c
    case neg => simpa [he] using hg
    case pos =>
      rw [he] at hg ⊢
      simp only [Function.update_self] at hg
      rw [hm]
      simp only [List.mem_append, List.mem_cons] at hg ⊢
      exact hg.imp_right .inr

-- A slab that is on no list is no node.
theorem not_node_of_loose (k : Core h v) (hd : d ∈ v.objs h.pslab) (hl : v.Loose h d) :
    ¬Rings.Node (h.heads v) v.mem d := by
  have hin := k.obj_inside pslab_mem hd
  rw [k.sizes.2, sizeofSlab] at hin
  -- Neither the head of the list of the caches nor a part of a cache is a descriptor.
  have hcl : d ≠ h.cacheList := fun he => by
    have := k.behind_slab (v := v) pslab_mem
    omega
  have hkc : ∀ c ∈ v.objs h.kmemCacheSlab, ¬(c ≤ d ∧ d < c + sizeofKmemCache) := fun c hc hcd => by
    have hcin := k.obj_inside kmemCacheSlab_mem hc
    rw [k.sizes.1] at hcin
    exact k.pslab_ne <| k.eq_of_inside (a := d) pslab_mem kmemCacheSlab_mem (by omega) (by omega)
  rintro ⟨m, hm, hn⟩
  cases hm
  case inl hm =>
    subst hm
    cases hn
    case head    => exact hcl rfl
    case tail hn => exact hkc d (k.classes hn) ⟨le_rfl, by simp [sizeofKmemCache]⟩
  case inr hm =>
    obtain ⟨c, hc, f, hm⟩ := hm
    subst hm
    cases hn
    case head    =>
      have := f.head_bounds c
      exact hkc c hc (by omega)
    case tail hn => exact hl c hc <| View.mem_slabsOf.mpr ⟨f, hn⟩

-- A slab is put to a list of its cache.
theorem listAdd (k : Core h v) (f : Fill) (hc : c ∈ v.objs h.kmemCacheSlab) (hd : d ∈ v.objs h.pslab)
    (hl : v.Loose h d) (ho : v.owner d = c) :
    Core { h with links := Zgmos.listAdd h.links d (f.head c) }
      { v with mem := Function.update v.mem (f.head c) (d :: v.mem (f.head c)) } := by
  have hp := head_mem (f := f) hc
  apply k.relink (k.rings.insert_front hp <| k.not_node_of_loose hd hl)
  case hw =>
    intro d' hd' a ha hna
    apply k.rings.insert_prev hp (k.not_node hd' ha hna)
    exact fun he => hna <| k.mem_of_spot (.inr <| .inr <| he ▸ hd) hd' ha
  case hc => exact Function.update_of_ne (k.head_ne hc).symm ..
  case hl =>
    intro c' hc' x hx
    have ⟨g, hg⟩ := View.mem_slabsOf.mp hx
    by_cases he : g.head c' = f.head c
    case neg => exact k.listed hc' <| View.mem_slabsOf.mpr ⟨g, by simpa [he] using hg⟩
    case pos =>
      have ⟨hcc, hfg⟩ := k.head_inj hc' hc he
      subst hcc hfg
      simp only [Function.update_self] at hg
      cases hg
      case head    => exact ⟨hd, ho⟩
      case tail hg => exact k.listed hc' <| View.mem_slabsOf.mpr ⟨g, hg⟩

-- A slab of a cache and the words in its pages have changed.
theorem reslab (k : Core h v) (hd : d ∈ v.objs h.pslab) {s : Slab} {os : List Nat} (hs : s.Sound w os)
    (he : s.pg = (h.slabs d).pg ∧ s.order = (h.slabs d).order ∧ s.sizeObj = (h.slabs d).sizeObj)
    (hw : ∀ a, ¬((h.slabs d).pg ≤ a ∧ a < (h.slabs d).pg + (h.slabs d).bytes) → w a = h.links.prev a) :
    Core { h with slabs := Function.update h.slabs d s, links := { h.links with prev := w } }
      { v with objs := Function.update v.objs d os } := by
  have hk : Function.update v.objs d os h.kmemCacheSlab = v.objs h.kmemCacheSlab :=
    Function.update_of_ne (k.ne_kmemCacheSlab hd).symm ..
  have hp : Function.update v.objs d os h.pslab = v.objs h.pslab :=
    Function.update_of_ne (k.ne_pslab hd).symm ..
  have hsk : Function.update h.slabs d s h.kmemCacheSlab = h.slabs h.kmemCacheSlab :=
    Function.update_of_ne (k.ne_kmemCacheSlab hd).symm ..
  have hsp : Function.update h.slabs d s h.pslab = h.slabs h.pslab :=
    Function.update_of_ne (k.ne_pslab hd).symm ..
  have hsame : ∀ d', (Function.update h.slabs d s d').pg = (h.slabs d').pg ∧
      (Function.update h.slabs d s d').order = (h.slabs d').order ∧
        (Function.update h.slabs d s d').sizeObj = (h.slabs d').sizeObj := fun d' => by
    by_cases hdd : d' = d
    case pos => simpa [hdd] using he
    case neg => simp [hdd]
  constructor
  case rings =>
    simp only [Heap.heads, hk]
    exact k.rings.congr (fun _ _ => rfl) fun n hn => hw n fun hin => k.not_spot hd hin <| k.spot_of_node hn
  case sound =>
    intro d' hd'
    simp only [Heap.all, hp] at hd'
    by_cases hdd : d' = d
    case pos => simpa [hdd] using hs
    case neg =>
      have hs' : (h.slabs d').Sound w (v.objs d') := (k.sound hd').congr fun a ha _ =>
        hw a fun hin => hdd <| k.eq_of_inside hd' (mem_all hd) (k.place_inside hd' ha) hin
      simpa [hdd] using hs'
  case sizes   => simpa only [hsk, hsp] using k.sizes
  case child =>
    intro d' hd' ho
    simp only [hp] at hd'
    have kc := k.child hd' ho
    exact kc.congr rfl (by simpa only [hk] using kc.owner) rfl (hsame d') fun _ _ _ => rfl
  case listed  =>
    intro c d' hc hd'
    simp only [hk, hp] at hc ⊢
    exact k.listed hc hd'
  case objsize =>
    intro c hc
    simp only [hk] at hc
    exact k.objsize hc
  case classes => simpa only [hk] using k.classes
  case pages   =>
    have hb : ∀ d', Heap.block { h with slabs := Function.update h.slabs d s, links := { h.links with prev := w } } d' =
        h.block d' := fun d' => by rw [Heap.block, Heap.block, (hsame d').1, (hsame d').2.1]
    simp only [Heap.all, hp, List.map_congr_left fun d' _ => hb d', hb]
    exact k.pages
  case apart   => exact k.apart
  case behind  => exact k.behind
  case inMeta  =>
    have hm : (Function.update h.slabs d s h.metaSlab).bytes = (h.slabs h.metaSlab).bytes := by
      rw [Slab.bytes, Slab.bytes, (hsame _).2.1]
    simp only [(hsame h.metaSlab).1, hm]
    exact fun _ hd => k.inMeta hd

end Core

end Zgmos.Kmem
