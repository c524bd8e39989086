import Zgmos.Kmem.Caches

namespace Zgmos.Kmem

variable {h h' : Heap} {v v' : View} {a c d n p : Nat} {f g : Fill} {mem : Nat → List Nat} {s : Slab} {l : Links Nat}
  {w : Words} {xs ys : List Nat}

-- The search visits the slabs of the list in their order.
theorem findSlab_run (xs : List Nat) (r : h.links.Ring p (xs ++ ys)) (hn : ys.length < n) :
    (findSlab p a n (ys.headD p)).run h = .ok (ys.find? fun d => slabContain (h.slabs d) a, h) := by
  induction ys generalizing xs n
  all_goals cases n
  case nil.zero | cons.zero => contradiction
  case nil.succ => simp [findSlab]
  case cons.succ y ys hi n =>
    have hy : y ≠ p := fun he => by
      have := (List.nodup_cons.mp r.nodup).1
      simp [he] at this
    have hx : h.links.next y = ys.headD p := r.next_mem
    have hi := hi (xs ++ [y]) (by simpa using r) (Nat.lt_of_succ_lt_succ hn)
    cases hc : slabContain (h.slabs y) a
    case true  => simp [findSlab, hy, hc]
    case false => simpa [findSlab, hy, hc, hx] using hi

namespace Core

-- There are at least as many blocks as slabs on a list.
theorem length_le (k : Core h v) (f : Fill) (hc : c ∈ v.objs h.kmemCacheSlab) :
    (v.mem (f.head c)).length < h.pages.length + 1 := by
  have hs : (v.mem (f.head c)).Subperm (v.objs h.pslab) :=
    (List.nodup_cons.mp (k.ring f hc).nodup).2.subperm fun _ hd => (k.owner_of_mem hc hd).1
  have hl := k.pages.length_eq
  have := hs.length_le
  simp only [Heap.all, List.length_cons, List.length_map] at hl
  omega

theorem contain_iff (k : Core h v) {d' : Nat} (hd : d ∈ v.objs h.pslab) (ha : a ∈ v.objs d) (hd' : d' ∈ v.objs h.pslab) :
    slabContain (h.slabs d') a ↔ d' = d := by
  have hin := k.place_inside (mem_all hd) <| k.obj_place (mem_all hd) ha
  have hc : slabContain (h.slabs d') a ↔ (h.slabs d').pg ≤ a ∧ a < (h.slabs d').pg + (h.slabs d').bytes := by
    simp [slabContain]
  rw [hc]
  constructor
  case mp  => exact fun hin' => k.eq_of_inside (mem_all hd') (mem_all hd) hin' hin
  case mpr => exact fun he => he ▸ hin

-- An object is found on the list with its slab.
theorem findSlab_spec (k : Core h v) (f : Fill) (hc : c ∈ v.objs h.kmemCacheSlab) (hd : d ∈ v.objs h.pslab)
    (ha : a ∈ v.objs d) :
    (findSlab (f.head c) a (h.pages.length + 1) (h.links.next <| f.head c)).run h =
      .ok (if d ∈ v.mem (f.head c) then some d else none, h) := by
  have r := k.ring f hc
  rw [r.next_head, findSlab_run [] r <| k.length_le f hc]
  have hx : ∀ x ∈ v.mem (f.head c), slabContain (h.slabs x) a ↔ x = d := fun x hx =>
    k.contain_iff hd ha (k.owner_of_mem hc hx).1
  cases hf : (v.mem (f.head c)).find? fun d => slabContain (h.slabs d) a
  case none =>
    have hn := List.find?_eq_none.mp hf
    rw [if_neg fun hd => hn d hd <| (hx d hd).mpr rfl]
  case some x =>
    have hxm := List.mem_of_find?_eq_some hf
    have he := (hx x hxm).mp <| List.find?_some (p := fun d => slabContain (h.slabs d) a) hf
    rw [he, if_pos <| he ▸ hxm]

theorem releases (k : Core h v) (hs : ∀ d' ∈ v.objs h.pslab, Settled h v d') (hd : d ∈ v.objs h.pslab)
    (ha : a ∈ v.objs d)
    (k' : Core { h with slabs := Function.update h.slabs d s, links := l }
      { v with mem, objs := Function.update v.objs d ((v.objs d).erase a) })
    (hl : mem h.cacheList = v.mem h.cacheList) (hm : ∀ x ≠ d, ∀ p, x ∈ v.mem p → x ∈ mem p)
    (hf : f.Fits s ((v.objs d).erase a)) (hdm : d ∈ mem (f.head (v.owner d))) :
    Releases h { h with slabs := Function.update h.slabs d s, links := l } v
      { v with mem, objs := Function.update v.objs d ((v.objs d).erase a) } a := by
  have hp : Function.update v.objs d ((v.objs d).erase a) h.pslab = v.objs h.pslab :=
    Function.update_of_ne (k.ne_pslab hd).symm ..
  have hn := (k.sound <| mem_all hd).nodup
  constructor
  case inv    =>
    refine { k' with settled := fun {d'} hd' => ?_ }
    simp only [hp] at hd'
    by_cases hne : d' = d
    case neg => exact settled_of_ne (hs d' hd') hne hm
    case pos =>
      subst hne
      exact fun _ => ⟨f, by simpa using hf, hdm⟩
  case frame  => exact ⟨rfl, rfl, rfl, rfl, rfl, rfl⟩
  case caches => exact Function.update_of_ne (k.ne_kmemCacheSlab hd).symm ..
  case list   => exact hl
  case lost   => exact fun hd ho => ⟨hp ▸ hd, ho⟩
  case live   =>
    intro a' c'
    have hobj := (k.sound <| mem_all hd).obj a ha
    have hiff : ∀ d' ∈ v.objs h.pslab, a' ∈ Function.update v.objs d ((v.objs d).erase a) d' ↔
        a' ∈ v.objs d' ∧ a' ≠ a := fun d' hd' => by
      by_cases hne : d' = d
      case pos =>
        subst hne
        rw [Function.update_self, hn.mem_erase_iff, and_comm]
      case neg =>
        rw [Function.update_of_ne hne]
        refine ⟨fun ha' => ⟨ha', fun he => ?_⟩, And.left⟩
        exact hne (k.slab_unique hd hd' hobj <| he ▸ ha').symm
    simp only [Heap.Live, hp]
    constructor
    case mp =>
      rintro ⟨d', hd', ho, ha'⟩
      obtain ⟨ha', hne⟩ := (hiff d' hd').mp ha'
      exact ⟨⟨d', hd', ho, ha'⟩, hne⟩
    case mpr =>
      rintro ⟨⟨d', hd', ho, ha'⟩, hne⟩
      exact ⟨d', hd', ho, (hiff d' hd').mpr ⟨ha', hne⟩⟩

end Core

namespace Inv

theorem kmemCacheFree_spec (i : Inv h v) (hc : c ∈ v.objs h.kmemCacheSlab) (hlive : h.Live v a c) :
    ∃ h' v', (kmemCacheFree c a).run h = .ok ((), h') ∧ Releases h h' v v' a := by
  have k := i.toCore
  obtain ⟨d, hd, ho, ha⟩ := hlive
  obtain ⟨s, w, hr, ht, k'⟩ := k.give hd ha
  obtain ⟨f, hf, hdm⟩ := i.settled hd <| ho ▸ k.cache_ne_zero hc
  have hcnt := k.freeObj_eq hd
  have hcnt' := ht.sound.count
  have htot : s.totalObj = (h.slabs d).totalObj := by rw [ht.eq]
  have hfree : s.freeObj = (h.slabs d).freeObj + 1 := by rw [ht.eq]
  have hempty : slabEmpty s ↔ (v.objs d).erase a = [] := by
    rw [← List.length_eq_zero_iff]
    simp only [slabEmpty, decide_eq_true_eq]
    omega
  have hc' : c ∈ Function.update v.objs d ((v.objs d).erase a) h.kmemCacheSlab := by
    rwa [Function.update_of_ne (k.ne_kmemCacheSlab hd).symm]
  have hfind := fun f : Fill => k.findSlab_spec f hc hd ha
  subst ho
  cases f
  case empty =>
    have hf : v.objs d = [] := hf
    simp [hf] at ha
  case mixed =>
    have hfind := hfind .mixed
    rw [if_pos hdm] at hfind
    cases he : slabEmpty s
    case true =>
      obtain ⟨mem, k'', hl, hx, hg⟩ := k'.move .empty hc' hdm
      refine ⟨_, _, ?_, k.releases (f := .empty) (fun _ => i.settled) hd ha k'' hl hx (hempty.mp he) hg⟩
      simp only [Fill.head] at hfind
      simp [kmemCacheFree, hfind, hr, he, Fill.head]
    case false =>
      have hf' : Fill.mixed.Fits s ((v.objs d).erase a) := by
        refine ⟨by omega, fun hnil => ?_⟩
        have := hempty.mpr hnil
        simp [he] at this
      refine ⟨_, _, ?_, k.releases (f := .mixed) (fun _ => i.settled) hd ha k' rfl (fun _ _ _ hx => hx) hf' hdm⟩
      simp only [Fill.head] at hfind
      simp [kmemCacheFree, hfind, hr, he]
  case full =>
    have hne : d ∉ v.mem (Fill.mixed.head (v.owner d)) := fun hm => by
      have := k.fill_unique hc hm hdm
      contradiction
    have hfind₁ := hfind .mixed
    have hfind₂ := hfind .full
    rw [if_neg hne] at hfind₁
    rw [if_pos hdm] at hfind₂
    have hf' : Fill.mixed.Fits s ((v.objs d).erase a) := by
      refine ⟨by omega, fun hnil => ?_⟩
      have hf : (h.slabs d).freeObj = 0 := hf
      simp only [hnil, List.length_nil] at hcnt'
      omega
    obtain ⟨mem, k'', hl, hx, hg⟩ := k'.move .mixed hc' hdm
    refine ⟨_, _, ?_, k.releases (f := .mixed) (fun _ => i.settled) hd ha k'' hl hx hf' hg⟩
    simp only [Fill.head] at hfind₁ hfind₂
    simp [kmemCacheFree, hfind₁, hfind₂, hr, Fill.head]

end Inv

end Zgmos.Kmem
