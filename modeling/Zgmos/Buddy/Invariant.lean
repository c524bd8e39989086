import Zgmos.Buddy.World
import Zgmos.Buddy.Free
import Zgmos.Buddy.Init

namespace Zgmos.Buddy

def World.blockOf (w : World) (b : Allocation) : Nat × Nat :=
  (b.pow, w.bs.buddyAuxAddr2index b.pa)

-- The invariant of all runs: the lists and the live blocks form a pool.
structure World.Inv (w : World) (P : Pool) : Prop where
  layout : Layout w.bs P
  region : w.bs.WellFormed
  held   : P.held = ↑(w.live.map w.blockOf)
  addr   : b ∈ w.live → b.pa = w.bs.buddyAuxIndex2addr (w.bs.buddyAuxAddr2index b.pa)
  used   : b ∈ w.live → w.InBlock b x → w.bs.used x = true

-- The invariant of the runs that lose no page.
structure World.Full (w : World) (P : Pool) : Prop extends w.Inv P where
  total  : w.bs.totalPages < 2 ^ maxBlockPow
  covers : x < w.bs.totalPages → P.weight maxBlockPow (Pool.covers x) = 1
  size   : P.weight maxBlockPow Pool.size = w.bs.totalPages
  free   : w.bs.freePages = P.freeWeight maxBlockPow Pool.size

namespace World

variable {w w' : World} {P Q : Pool} {b b' : Allocation} {bs : BuddySystem} {pow p i x : Nat}

namespace Inv

theorem mem_held (v : w.Inv P) (hb : b ∈ w.live) : w.blockOf b ∈ P.held := by
  rw [v.held]
  exact Multiset.mem_coe.mpr <| List.mem_map_of_mem hb

theorem isBlock (v : w.Inv P) (hb : b ∈ w.live) : IsBlock w.bs b.pow (w.bs.buddyAuxAddr2index b.pa) :=
  v.layout.block <| .inr <| v.mem_held hb

theorem linked_iff (v : w.Inv P) (hp : p < maxBlockPow) :
    Linked w.bs.next (w.bs.indices p) i ↔ i ∈ P.free p :=
  (v.layout.chain hp).linked_iff

theorem inFree_iff (v : w.Inv P) : w.InFree p i x ↔ p < maxBlockPow ∧ i ∈ P.free p ∧ i ≤ x ∧ x < i + 2 ^ p := by
  constructor
  case mp =>
    intro h
    exact ⟨h.order, v.linked_iff h.order |>.mp h.linked, h.page⟩
  case mpr =>
    intro ⟨hp, hi, hx⟩
    exact { order := hp, linked := v.linked_iff hp |>.mpr hi, page := hx }

-- A page is in a live or in a free block if it is in a block of the pool.
theorem mem_iff (v : w.Inv P) : ((∃ b ∈ w.live, w.InBlock b x) ∨ ∃ p i, w.InFree p i x) ↔
    ∃ p i, P.Mem maxBlockPow p i ∧ i ≤ x ∧ x < i + 2 ^ p := by
  constructor
  case mp =>
    intro h
    cases h
    case inl h =>
      have ⟨b, hb, hx⟩ := h
      exact ⟨_, _, .inr <| v.mem_held hb, hx⟩
    case inr h =>
      have ⟨p, i, h⟩ := h
      have ⟨hp, hi, hx⟩ := v.inFree_iff.mp h
      exact ⟨p, i, .inl ⟨hp, hi⟩, hx⟩
  case mpr =>
    intro ⟨p, i, hm, hx⟩
    cases hm
    case inl hm => exact .inr ⟨p, i, v.inFree_iff.mpr ⟨hm.1, hm.2, hx⟩⟩
    case inr hm =>
      rw [v.held] at hm
      have ⟨b, hb, he⟩ := List.mem_map.mp <| Multiset.mem_coe.mp hm
      cases he
      exact .inl ⟨b, hb, hx⟩

-- The pool without a live block.
theorem exists_hold (v : w.Inv P) (hb : b ∈ w.live) :
    ∃ Q : Pool, P = Q.hold b.pow (w.bs.buddyAuxAddr2index b.pa) ∧
      Q.held = ↑((w.live.erase b).map w.blockOf) := by
  have he : P.held = w.blockOf b ::ₘ ↑((w.live.erase b).map w.blockOf) := by
    rw [v.held, Multiset.cons_coe]
    exact Multiset.coe_eq_coe.mpr <| (List.perm_cons_erase hb).map _
  exact ⟨⟨P.free, ↑((w.live.erase b).map w.blockOf)⟩, by rw [Pool.hold, ← blockOf, ← he], rfl⟩

theorem exclusive (v : w.Inv P) : w.Exclusive where
  block {b} hb := by
    have h := v.isBlock hb
    have hl := h.le_totalPages
    have hi : w.bs.buddyAuxAddr2index b.pa < w.bs.totalPages := by
      have : 0 < 2 ^ b.pow := by positivity
      omega
    refine ⟨?_, _, v.addr hb, rfl, h.pow, h.dvd, hl⟩
    rw [v.addr hb]
    exact (v.region.index2addr_pos hi).ne'
  live := by
    refine List.pairwise_iff_forall_sublist.mpr fun {b b'} hs x hx hx' => ?_
    obtain ⟨rest, hr⟩ := hs.exists_perm_append
    have hh : P.held = w.blockOf b ::ₘ w.blockOf b' ::ₘ ↑(rest.map w.blockOf) := by
      rw [v.held]
      exact Multiset.coe_eq_coe.mpr <| hr.map _
    let Q : Pool := ⟨P.free, w.blockOf b' ::ₘ ↑(rest.map w.blockOf)⟩
    have hQ : P = Q.hold b.pow (w.bs.buddyAuxAddr2index b.pa) := by
      rw [Pool.hold, ← blockOf, ← hh]
    have he := v.layout.excl
    rw [hQ] at he
    exact he.disjoint (q := b'.pow) (.inr <| by simp [Q, blockOf]) hx hx'
  free {b x p i} hb hx hf := by
    obtain ⟨hp, hi, hx'⟩ := v.inFree_iff.mp hf
    obtain ⟨Q, hQ, _⟩ := v.exists_hold hb
    have he := v.layout.excl
    rw [hQ] at he hi
    exact he.disjoint (.inl ⟨hp, hi⟩) hx hx'

section Alloc

variable (v : w.Inv P) (hreg : w'.bs.toRegion = w.bs.toRegion)

include v hreg

-- One more block is live.
theorem cons (hl : w'.live = ⟨w.bs.buddyAuxIndex2addr i, pow⟩ :: w.live)
    (hu : ∀ j, w'.bs.used j = if i ≤ j ∧ j < i + 2 ^ pow then true else w.bs.used j)
    (l : Layout w'.bs (Q.hold pow i)) (hh : Q.held = P.held) : w'.Inv (Q.hold pow i) := by
  have hb := l.block (p := pow) (i := i) (by simp)
  have hi : i < w.bs.totalPages := by
    have := hb.le_totalPages
    rw [hreg] at this
    have : 0 < 2 ^ pow := by positivity
    omega
  have ha := v.region.addr2index_index2addr hi
  constructor
  case layout => exact l
  case region => exact hreg ▸ v.region
  case held   =>
    have : w'.blockOf = w.blockOf := by
      funext b
      simp [blockOf, hreg]
    rw [hl, this, Pool.hold_held, hh, v.held, List.map_cons, Multiset.cons_coe, blockOf, ha]
  case addr =>
    intro b hb
    rw [hl] at hb
    rw [hreg]
    cases hb
    case head    => rw [ha]
    case tail hb => exact v.addr hb
  case used =>
    intro b x hb hx
    rw [hl] at hb
    rw [InBlock, hreg] at hx
    rw [hu]
    cases hb
    case head    => rw [if_pos <| by rwa [ha] at hx]
    case tail hb => rw [v.used hb hx, ite_self]

end Alloc

-- An allocation of the block `i`, which leaves the pool `Q`.
structure Grants (w w' : World) (P Q : Pool) (pow i : Nat) : Prop where
  inv       : w'.Inv (Q.hold pow i)
  region    : w'.bs.toRegion = w.bs.toRegion
  freePages : w'.bs.freePages = (w.bs.freePages + u64 - 2 ^ pow) % u64
  used      : ∀ x, w'.bs.used x = if i ≤ x ∧ x < i + 2 ^ pow then true else w.bs.used x
  live      : w'.live = ⟨w.bs.buddyAuxIndex2addr i, pow⟩ :: w.live
  tidies    : Tidies w.bs w'.bs P Q

theorem alloc (v : w.Inv P) (hr : (buddyAllocIndex pow).run w.bs = .ok (some i, bs))
    (a : Allocated w.bs bs pow i) (l : Layout bs (Q.hold pow i)) (hh : Q.held = P.held) (t : Tidies w.bs bs P Q) :
    ∃ w', w.alloc pow = .ok w' ∧ Grants w w' P Q pow i := by
  have hc : ∀ n, Inv ⟨bs.setFreePages n, ⟨w.bs.buddyAuxIndex2addr i, pow⟩ :: w.live⟩ (Q.hold pow i) :=
    fun n => v.cons (by simp [a.region]) rfl a.used l.setFreePages hh
  have hw : w.alloc pow = .ok ⟨bs.setFreePages <| (w.bs.freePages + u64 - 2 ^ pow) % u64,
      ⟨w.bs.buddyAuxIndex2addr i, pow⟩ :: w.live⟩ := by
    simp [World.alloc, buddyAlloc, hr, a.region, a.freePages]
  have ht : ∀ n, Tidies w.bs (bs.setFreePages n) P Q := fun _ => { merged := t.merged, within := t.within }
  have hu : ∀ n x, (bs.setFreePages n).used x = if i ≤ x ∧ x < i + 2 ^ pow then true else w.bs.used x :=
    fun _ => a.used
  exact ⟨_, hw, hc _, by simp [a.region], by simp, hu _, rfl, ht _⟩

-- A release of a live block, which leaves the pool `P'`.
structure Releases (w w' : World) (P P' : Pool) (b : Allocation) : Prop where
  inv    : w'.Inv P'
  equiv  : P.Equiv maxBlockPow P'
  held   : P.heldWeight c = c b.pow (w.bs.buddyAuxAddr2index b.pa) + P'.heldWeight c
  freed  : Freed w.bs w'.bs b.pow (w.bs.buddyAuxAddr2index b.pa)
  live   : w'.live = w.live.erase b
  tidies : Tidies w.bs w'.bs P P'

theorem free (v : w.Inv P) (hb : b ∈ w.live) : ∃ w' P', w.free b = .ok w' ∧ Releases w w' P P' b := by
  have ⟨Q, hQ, hh⟩ := v.exists_hold hb
  subst hQ
  have ⟨bs, P', hr, f, l, e, hh', t⟩ := buddyFree_spec v.layout (fun j h₁ h₂ => v.used hb ⟨h₁, h₂⟩) rfl
  have hw : w.free b = .ok ⟨bs, w.live.erase b⟩ := by simp [World.free, hr]
  refine ⟨_, P', hw, ?_, e, ?_, f, rfl, { merged := fun hm => t.merged hm.of_hold, within := t.within }⟩
  case refine_2 => simp [Pool.heldWeight, hh']
  case refine_1 =>
    have hx := v.exclusive
    constructor
    case layout => exact l
    case region => exact f.region ▸ v.region
    case held   =>
      have : World.blockOf ⟨bs, w.live.erase b⟩ = w.blockOf := by
        funext b
        simp [blockOf, f.region]
      rw [hh', hh, this]
    case addr =>
      intro b' hb'
      rw [f.region]
      exact v.addr <| List.mem_of_mem_erase hb'
    case used =>
      intro b' x hb' hx
      rw [InBlock, f.region] at hx
      have hm : Q.Mem maxBlockPow b'.pow (w.bs.buddyAuxAddr2index b'.pa) := by
        apply Or.inr
        rw [hh]
        exact Multiset.mem_coe.mpr <| List.mem_map.mpr ⟨b', hb', rfl⟩
      have hn := fun hb => v.layout.excl.disjoint hm hb hx
      rw [f.used, if_neg hn]
      exact v.used (List.mem_of_mem_erase hb') hx

-- A request that finds a block that is large enough is served.
theorem step_alloc (v : w.Inv P) (hp : pow < maxBlockPow) (hs : w.bs.Satisfiable pow) :
    ∃ w' Q i, w.alloc pow = .ok w' ∧ Grants w w' P Q pow i := by
  cases h : P.free pow
  case nil =>
    have ⟨_, i, Q, hr, a, l, _, hh, t⟩ := buddyAllocIndex_slow v.layout hp h hs
    have ⟨w', hw, g⟩ := v.alloc hr a l hh t
    exact ⟨w', Q, i, hw, g⟩
  case cons i _ =>
    have ⟨_, hr, a, l, t⟩ := buddyAllocIndex_fast v.layout hp h
    have ⟨w', hw, g⟩ := v.alloc hr a l rfl t
    exact ⟨w', _, i, hw, g⟩

-- If the list for the order has a second block, the allocation loses its pages.
theorem not_conserved (v : w.Inv P) (hp : pow < maxBlockPow) (hn : ¬w.bs.SingleEntry pow)
    (hw : w.alloc pow = .ok w') : ¬w'.Conserved := by
  simp only [BuddySystem.SingleEntry, not_forall] at hn
  have ⟨i, hi, hk⟩ := hn
  have ⟨k, hk⟩ := Option.ne_none_iff_exists'.mp hk
  have hc := v.layout.chain hp
  rw [hi] at hc
  have ⟨js, hj, hc⟩ := hc.exists_cons
  rw [hk] at hc
  have ⟨is, hi, _⟩ := hc.exists_cons
  have hf : P.free pow = i :: k :: is := by rw [hj, hi]
  have ⟨bs, hr, a, l, t⟩ := buddyAllocIndex_fast v.layout hp hf
  have ⟨w'', hw', g⟩ := v.alloc hr a l rfl t
  cases hw.symm.trans hw'
  have v' := g.inv
  intro h
  have hkb := v.layout.block (p := pow) (i := k) <| .inl ⟨hp, by simp [hf]⟩
  have hkt : k < w'.bs.totalPages := by
    have := hkb.le_totalPages
    have : 0 < 2 ^ pow := by positivity
    rw [g.region]
    omega
  have ⟨q, j, hm, hj⟩ := v'.mem_iff.mp <| h.pages hkt
  have := Pool.le_weight (c := Pool.covers k) hm
  rw [Pool.covers_eq_one.mpr hj, Pool.weight_hold] at this
  have hw := Pool.weight_setFree (P := P) (l := []) (c := Pool.covers k) hp
  have hx := v.layout.excl k
  simp [hf] at hw
  omega

end Inv

namespace Full

-- The blocks have changed, but their pages have not.
theorem congr {P' : Pool} (v : w.Full P) (v' : w'.Inv P') (hreg : w'.bs.toRegion = w.bs.toRegion)
    (e : P.Equiv maxBlockPow P') (hf : w'.bs.freePages = P'.freeWeight maxBlockPow Pool.size) :
    w'.Full P' := by
  constructor
  case toInv  => exact v'
  case free   => exact hf
  case total  => exact hreg ▸ v.total
  case size   => rw [hreg, ← e _ Pool.size_additive, v.size]
  case covers =>
    intro x hx
    rw [hreg] at hx
    rw [← e _ Pool.covers_additive, v.covers hx]

theorem free_lt (v : w.Full P) : P.weight maxBlockPow Pool.size < 2 ^ maxBlockPow :=
  v.size ▸ v.total

theorem sub_mod_u64 {m f : Nat} (hm : m ≤ f) (hf : f < 2 ^ maxBlockPow) : (f + u64 - m) % u64 = f - m := by
  simp only [u64, maxBlockPow] at *
  omega

theorem add_mod_u64 {m f : Nat} (hf : f + m < 2 ^ maxBlockPow) : (f + m) % u64 = f + m := by
  simp only [u64, maxBlockPow] at *
  omega

theorem step_alloc (v : w.Full P) (hp : pow < maxBlockPow) (hs : w.bs.Satisfiable pow)
    (hn : w.bs.SingleEntry pow) : ∃ w' P', w.alloc pow = .ok w' ∧ w'.Full P' := by
  obtain ⟨bs, i, Q, hr, a, l, e, hh, t⟩ : ∃ bs i, ∃ Q : Pool,
      (buddyAllocIndex pow).run w.bs = .ok (some i, bs) ∧ Allocated w.bs bs pow i ∧
        Layout bs (Q.hold pow i) ∧ P.Equiv maxBlockPow (Q.hold pow i) ∧ Q.held = P.held ∧ Tidies w.bs bs P Q := by
    cases h : P.free pow
    case nil => exact buddyAllocIndex_slow v.layout hp h hs
    case cons i is =>
      -- The only block of the list is taken.
      have hc := v.layout.chain hp
      rw [h] at hc
      have hi := hn i hc.1
      cases is
      case cons => exact absurd (hi.symm.trans hc.2.1) (by simp)
      case nil =>
        have ⟨bs, hr, a, l, t⟩ := buddyAllocIndex_fast v.layout hp h
        exact ⟨bs, i, _, hr, a, l, .take (s := []) (t := []) hp h, rfl, t⟩
  have ⟨w', hw, g⟩ := v.alloc hr a l hh t
  refine ⟨w', _, hw, v.congr g.inv g.region e ?_⟩
  have he := e _ Pool.size_additive
  have hlt := v.free_lt
  have hfree : (Q.hold pow i).freeWeight maxBlockPow Pool.size = Q.freeWeight maxBlockPow Pool.size := rfl
  have hheld : Q.heldWeight Pool.size = P.heldWeight Pool.size := by rw [Pool.heldWeight, hh, Pool.heldWeight]
  rw [Pool.weight_hold, Pool.weight, Pool.weight, Pool.size, hheld] at he
  rw [Pool.weight] at hlt
  rw [g.freePages, v.free, hfree, sub_mod_u64 (by omega) (by omega)]
  omega

theorem step_free (v : w.Full P) (hb : b ∈ w.live) : ∃ w' P', w.free b = .ok w' ∧ w'.Full P' := by
  have ⟨w', P', hw, r⟩ := v.toInv.free hb
  refine ⟨w', P', hw, v.congr r.inv r.freed.region r.equiv ?_⟩
  have he := r.equiv _ Pool.size_additive
  have hlt := v.free_lt
  have hh := r.held (c := Pool.size)
  rw [Pool.weight, Pool.weight, hh, Pool.size] at he
  rw [Pool.weight, hh, Pool.size] at hlt
  rw [r.freed.freePages, v.free, add_mod_u64 (by omega)]
  omega

theorem conserved (v : w.Full P) : w.Conserved where
  pages {x} hx := by
    rw [v.mem_iff]
    apply Pool.exists_of_weight_covers
    rw [v.covers hx]
    exact one_ne_zero
  count := ⟨P.free, fun _ hp => v.layout.chain hp, by rw [v.free, Pool.freeWeight_size]⟩

end Full

end World

end Zgmos.Buddy
