import Zgmos.Kmem.Release

namespace Zgmos.Kmem

-- What the release of the empty slabs `xs` of the cache `c` does.
structure Shrinks (h h' : Heap) (v v' : View) (c : Nat) (xs : List Nat) : Prop where
  inv    : Inv h' v'
  frame  : h.Frame h'
  caches : v'.objs h.kmemCacheSlab = v.objs h.kmemCacheSlab
  live   : h'.Live v' a c' ↔ h.Live v a c'
  mem    : p ≠ slabFreeOf c → v'.mem p = v.mem p
  slabs  : d ≠ h.pslab → h'.slabs d = h.slabs d ∧ v'.objs d = v.objs d
  place  : (h'.slabs h.pslab).Place a ↔ (h.slabs h.pslab).Place a
  owner  : v'.owner = v.owner
  -- The blocks and the descriptors of these slabs are given back, each of them once.
  pages  : h.pages.Perm (xs.map h.block ++ h'.pages)
  descs  : (v.objs h.pslab).Perm (xs ++ v'.objs h.pslab)

variable {h h' h'' : Heap} {v v' v'' : View} {a c d n : Nat} {xs ys : List Nat}

namespace Shrinks

theorem refl (i : Inv h v) (c : Nat) : Shrinks h h v v c [] where
  inv     := i
  frame   := .refl h
  caches  := rfl
  live    := .rfl
  mem _   := rfl
  slabs _ := ⟨rfl, rfl⟩
  place   := .rfl
  owner   := rfl
  pages   := .refl _
  descs   := .refl _

theorem trans (s : Shrinks h h' v v' c xs) (s' : Shrinks h' h'' v' v'' c ys) (hx : h.pslab ∉ ys) :
    Shrinks h h'' v v'' c (xs ++ ys) where
  inv      := s'.inv
  frame    := s.frame.trans s'.frame
  caches   := by rw [← s.caches, ← s.frame.kmemCacheSlab, s'.caches]
  live     := s'.live.trans s.live
  mem hp   := (s'.mem hp).trans <| s.mem hp
  slabs hd := by
    have ⟨h₁, h₂⟩ := s'.slabs <| s.frame.pslab.symm ▸ hd
    have ⟨h₃, h₄⟩ := s.slabs hd
    exact ⟨h₁.trans h₃, h₂.trans h₄⟩
  place    := (s.frame.pslab ▸ s'.place).trans s.place
  owner    := s'.owner.trans s.owner
  pages    := by
    have hb : ys.map h'.block = ys.map h.block := List.map_congr_left fun d hd => by
      rw [Heap.block, (s.slabs <| ne_of_mem_of_not_mem hd hx).1, Heap.block]
    have hp := s.pages.trans <| s'.pages.append_left _
    rwa [hb, ← List.append_assoc, ← List.map_append] at hp
  descs    := by
    have hp := s.descs.trans <| (s.frame.pslab ▸ s'.descs).append_left xs
    rwa [← List.append_assoc] at hp

end Shrinks

namespace Inv

-- One round of the loop.
theorem slabDestory_first (i : Inv h v) (hc : c ∈ v.objs h.kmemCacheSlab) (hm : v.mem (slabFreeOf c) = d :: xs) :
    ∃ h' v', (slabDestory h.pslab d).run { h with links := Zgmos.listDel h.links d } = .ok ((), h') ∧
      Shrinks h h' v v' c [d] ∧ v'.mem (slabFreeOf c) = xs := by
  have k := i.toCore
  have hdm : d ∈ v.mem (Fill.empty.head c) := by simp [Fill.head, hm]
  obtain ⟨hd, ho⟩ := k.owner_of_mem hc hdm
  have hos : v.objs d = [] := k.fits (i.settled hd) hc hdm
  have hn := (k.sound Core.pslab_mem).nodup
  have hdp := k.ne_pslab hd
  obtain ⟨mem, k₁, hl, hcl, hx, hsame, hmem⟩ := k.take_off hc hdm
  obtain ⟨h', hr, hf, hsl, hpl, hp, k₂⟩ := k₁.slabDestory_spec hd hl hos
  have hpu : Function.update v.objs h.pslab ((v.objs h.pslab).erase d) h.pslab = (v.objs h.pslab).erase d :=
    Function.update_self ..
  have hou {d'} (hne : d' ≠ h.pslab) : Function.update v.objs h.pslab ((v.objs h.pslab).erase d) d' = v.objs d' :=
    Function.update_of_ne hne ..
  refine ⟨h', { v with mem, objs := Function.update v.objs h.pslab ((v.objs h.pslab).erase d) }, hr, ?_, ?_⟩
  case refine_2 => exact hmem.trans <| by simp [Fill.head, hm]
  case refine_1 =>
    constructor
    case inv    =>
      refine { k₂ with settled := fun {d'} hd' => ?_ }
      simp only [hf.pslab, hpu] at hd'
      have hne : d' ≠ d := fun he => hn.not_mem_erase <| he ▸ hd'
      have hd' := List.mem_of_mem_erase hd'
      intro ho
      obtain ⟨g, hg, hgm⟩ := i.settled hd' ho
      refine ⟨g, ?_, hx d' hne _ hgm⟩
      rw [hsl d' <| k.ne_pslab hd']
      simp only [hou <| k.ne_pslab hd']
      exact hg
    case frame  => exact ⟨hf.cacheList, hf.metaSlab, hf.kmemCacheSlab, hf.pslab, hf.objsize, hf.locked⟩
    case caches => exact hou k.pslab_ne.symm
    case live   =>
      intro a c'
      simp only [Heap.Live, hf.pslab, hpu]
      constructor
      case mp =>
        rintro ⟨d', hd', ho, ha⟩
        have hd' := List.mem_of_mem_erase hd'
        exact ⟨d', hd', ho, hou (k.ne_pslab hd') ▸ ha⟩
      case mpr =>
        rintro ⟨d', hd', ho, ha⟩
        have hne : d' ≠ d := fun he => by simp [he, hos] at ha
        exact ⟨d', (List.mem_erase_of_ne hne).mpr hd', ho, (hou <| k.ne_pslab hd').symm ▸ ha⟩
    case mem    => exact fun hp => hsame _ hp
    case slabs  => exact fun hne => ⟨hsl _ hne, hou hne⟩
    case place  => exact fun {a} => hpl a
    case owner  => rfl
    case pages  =>
      rw [hp]
      exact List.perm_cons_erase <| k.block_mem <| Core.mem_all hd
    case descs  =>
      simp only [hpu]
      exact List.perm_cons_erase hd

theorem shrinkLoop_spec (i : Inv h v) (hc : c ∈ v.objs h.kmemCacheSlab) (hm : v.mem (slabFreeOf c) = xs)
    (hn : xs.length < n) :
    ∃ h' v', (shrinkLoop (slabFreeOf c) n (h.links.next <| slabFreeOf c)
        (h.links.next <| h.links.next <| slabFreeOf c)).run h = .ok ((), h') ∧
      Shrinks h h' v v' c xs ∧ v'.mem (slabFreeOf c) = [] := by
  induction xs generalizing h v n
  all_goals cases n
  case nil.zero | cons.zero => contradiction
  case nil.succ n =>
    have hx : h.links.next (slabFreeOf c) = slabFreeOf c := by
      have := (i.ring .empty hc).next_head
      simpa [Fill.head, hm] using this
    exact ⟨h, v, by simp [shrinkLoop, hx], .refl i c, hm⟩
  case cons.succ d xs hi n =>
    have k := i.toCore
    have r := k.ring .empty hc
    have hdm : d ∈ v.mem (slabFreeOf c) := by simp [hm]
    obtain ⟨hd, _⟩ := k.owner_of_mem (f := .empty) hc hdm
    simp only [Fill.head, hm] at r
    have hx : h.links.next (slabFreeOf c) = d := r.next_head
    have hx' : h.links.next d = xs.headD (slabFreeOf c) := (show h.links.Ring _ ([] ++ d :: xs) from r).next_mem
    have hne : d ≠ slabFreeOf c := fun he => (List.nodup_cons.mp r.nodup).1 <| he ▸ .head _
    obtain ⟨h₁, v₁, hr, hs, hm₁⟩ := i.slabDestory_first hc hm
    have hc₁ : c ∈ v₁.objs h₁.kmemCacheSlab := by rwa [hs.frame.kmemCacheSlab, hs.caches]
    obtain ⟨h₂, v₂, hr', hs', hm₂⟩ := hi hs.inv hc₁ hm₁ (Nat.lt_of_succ_lt_succ hn)
    have hx₁ : h₁.links.next (slabFreeOf c) = xs.headD (slabFreeOf c) := by
      have := (hs.inv.ring .empty hc₁).next_head
      simpa [Fill.head, hm₁] using this
    have hps : h.pslab ∉ xs := fun hp => by
      have hp := k.owner_of_mem (f := .empty) hc (by simp [Fill.head, hm]; exact .inr hp)
      exact k.ne_pslab hp.1 rfl
    refine ⟨h₂, v₂, ?_, hs.trans hs' hps, hm₂⟩
    rw [hx₁] at hr'
    simpa [shrinkLoop, hx, hx', hne, hr] using hr'

theorem kmemCacheShrink_spec (i : Inv h v) (hc : c ∈ v.objs h.kmemCacheSlab) :
    ∃ h' v', (kmemCacheShrink c).run h = .ok ((), h') ∧ Shrinks h h' v v' c (v.mem <| slabFreeOf c) ∧
      v'.mem (slabFreeOf c) = [] :=
  i.shrinkLoop_spec hc rfl <| i.length_le .empty hc

end Inv

end Zgmos.Kmem
