import Zgmos.Buddy.Runs

namespace Zgmos.Buddy

open World

-- A page boundary lies between the array `buddies` and the end of the region.
structure Room (paStart paEnd : Nat) : Prop where
  le   : paStart ≤ paEnd
  lt   : paEnd < u64
  page : ∃ y ≤ paEnd, pageSize ∣ y ∧ paStart + (paEnd - paStart) / pageSize * sizeofBuddyBlock ≤ y

-- The invariant of all runs, together with the order of the lists and the exact meaning of the flags.
structure World.Tidy (w : World) (P : Pool) : Prop extends w.Inv P where
  merged : P.Merged maxBlockPow
  unused : x < w.bs.totalPages → w.bs.used x = true → ∃ b ∈ w.live, w.InBlock b x

-- What is kept from one state to another.
structure World.Continues (w w' : World) : Prop where
  region : w'.bs.toRegion = w.bs.toRegion
  within : w.bs.Within i → w'.bs.Within i

-- The lists end, ascend and have the blocks of their orders, no two of which are the halves of a block.
structure BuddySystem.Canonical (bs : BuddySystem) : Prop where
  sorted : p < maxBlockPow → ∃ is, Chain bs.next (bs.indices p) is ∧ is.Pairwise (· < ·)
  block  : p < maxBlockPow → Linked bs.next (bs.indices p) i → bs.pow i = p ∧ 2 ^ p ∣ i
  apart  : p < maxBlockPow → Linked bs.next (bs.indices p) i → Linked bs.next (bs.indices p) j →
    (i >>> p) ^^^ (j >>> p) ≠ 1

variable {paStart paEnd pow p i j : Nat} {buddies : Nat → BuddyBlock} {w w' : World} {P P' Q : Pool}
  {s s' : Except Fault World} {op : Op} {ops : List Op} {b : Allocation} {as as' : List Allocation}

namespace Room

theorem of_aligned (hl : paStart ≤ paEnd) (hu : paEnd < u64) (he : pageSize ∣ paEnd) : Room paStart paEnd where
  le   := hl
  lt   := hu
  page := by
    refine ⟨paEnd, le_rfl, he, ?_⟩
    simp only [pageSize, sizeofBuddyBlock] at *
    omega

theorem wellFormed {b : Nat → BuddyBlock} (h : Room paStart paEnd) :
    (buddyAuxDataInit paStart paEnd b).WellFormed := by
  have ⟨y, hy, hd, hl⟩ := h.page
  apply buddyAuxDataInit_wellFormed h.le h.lt
  intro z _ hz hd' _
  simp only [pageSize, sizeofBuddyBlock] at *
  omega

end Room

namespace World

theorem Continues.refl (w : World) : w.Continues w where
  region := rfl
  within := id

theorem Continues.trans {w₁ w₂ w₃ : World} (h : w₁.Continues w₂) (h' : w₂.Continues w₃) : w₁.Continues w₃ where
  region := h'.region.trans h.region
  within := h'.within ∘ h.within

theorem Inv.Grants.tidy (g : Inv.Grants w w' P Q pow i) (v : w.Tidy P) : w'.Tidy (Q.hold pow i) where
  toInv  := g.inv
  merged := g.tidies.merged v.merged |>.hold
  unused {x} hx hu := by
    rw [g.region] at hx
    rw [g.used] at hu
    have hi : i < w.bs.totalPages := by
      have hb := (g.inv.layout.block (p := pow) (i := i) <| by simp).le_totalPages
      rw [g.region] at hb
      have : 0 < 2 ^ pow := by positivity
      omega
    simp only [g.live, InBlock, g.region]
    split at hu
    case isTrue h =>
      refine ⟨_, List.mem_cons_self, ?_⟩
      rwa [v.region.addr2index_index2addr hi]
    case isFalse =>
      obtain ⟨b, hb, h⟩ := v.unused hx hu
      exact ⟨b, List.mem_cons_of_mem _ hb, h⟩

theorem Inv.Releases.tidy (r : Inv.Releases w w' P P' b) (v : w.Tidy P) : w'.Tidy P' where
  toInv  := r.inv
  merged := r.tidies.merged v.merged
  unused {x} hx hu := by
    rw [r.freed.region] at hx
    rw [r.freed.used] at hu
    split at hu
    case isTrue => cases hu
    case isFalse hn =>
      have ⟨b', hb, h⟩ := v.unused hx hu
      have hne : b' ≠ b := fun he => hn <| he ▸ h
      refine ⟨b', ?_, ?_⟩
      case refine_1 => rw [r.live]; exact (List.mem_erase_of_ne hne).mpr hb
      case refine_2 => rwa [InBlock, r.freed.region]

end World

theorem init_tidy (buddies : Nat → BuddyBlock) (h : Room paStart paEnd) :
    ∃ w P, World.init paStart paEnd buddies = .ok w ∧ w.Tidy P := by
  have ⟨bs, P, hr, hreg, hf, hc, hm, hu⟩ := buddyInit_spec <| h.wellFormed (b := buddies)
  have v : Inv ⟨bs, []⟩ P := {
    layout := hc.layout
    region := hreg ▸ h.wellFormed
    held   := by simp [hc.held]
    addr h := nomatch h
    used h := nomatch h
  }
  refine ⟨⟨bs, []⟩, P, by simp [World.init, hr], { v with merged := hm, unused := fun hx hu' => ?_ }⟩
  cases (hu _ hx).symm.trans hu'

theorem Step.tidy (v : w.Tidy P) (e : Step (.ok w) op s) :
    ∃ w' P', s = .ok w' ∧ w'.Tidy P' ∧ w.Continues w' := by
  cases e
  case alloc hp hs =>
    have ⟨w', _, _, hw, g⟩ := v.step_alloc hp hs
    exact ⟨w', _, hw, g.tidy v, g.region, g.tidies.within⟩
  case free hb =>
    have ⟨w', P', hw, r⟩ := v.toInv.free hb
    exact ⟨w', P', hw, r.tidy v, r.freed.region, r.tidies.within⟩

theorem run_tidy (v : w.Tidy P) (r : Run Step (.ok w) ops s) :
    ∃ w' P', s = .ok w' ∧ w'.Tidy P' ∧ w.Continues w' := by
  apply r.invariant (p := fun s => ∃ w' P', s = .ok w' ∧ w'.Tidy P' ∧ w.Continues w')
  case hs => exact ⟨w, P, rfl, v, .refl w⟩
  case h =>
    intro s op s' ⟨w₁, P₁, hs, v₁, c⟩ e
    subst hs
    have ⟨w', P', hw, v', c'⟩ := e.tidy v₁
    exact ⟨w', P', hw, v', c.trans c'⟩

theorem Layout.canonical {bs : BuddySystem} (l : Layout bs P) (h : P.Merged maxBlockPow) : bs.Canonical where
  sorted hp := ⟨_, l.chain hp, h.sorted hp⟩
  block hp hi := by
    have hb := l.block <| .inl ⟨hp, (l.chain hp).linked_iff.mp hi⟩
    exact ⟨hb.pow, hb.dvd⟩
  apart {p i j} hp hi hj := by
    rw [(l.chain hp).linked_iff] at hi hj
    intro hx
    have hd := l.aligned p hp
    have hn {i j : Nat} (hi : i ∈ P.free p) (hj : j ∈ P.free p) (hx : (i >>> p) ^^^ (j >>> p) = 1) : ¬i < j := by
      intro hl
      have ⟨he, hd⟩ := buddyAuxMergeable_spec (beq_iff_eq.mpr hx) (hd i hi) (hd j hj) hl
      exact h.apart hp hi hd <| he ▸ hj
    have hij := hn hi hj hx
    have hji := hn hj hi <| Nat.xor_comm .. ▸ hx
    have he : i = j := by omega
    simp [he] at hx

-- The lists are canonical in all states, and no release leaves the bounds of the arrays or goes on forever.
theorem run_canonical (h : Room paStart paEnd) (r : Run Step (World.init paStart paEnd buddies) ops s) :
    ∃ w, s = .ok w ∧ w.bs.Canonical ∧ ∀ b ∈ w.live, ∃ w', w.free b = .ok w' := by
  have ⟨w₀, P₀, h₀, v₀⟩ := init_tidy buddies h
  rw [h₀] at r
  have ⟨w, P, hw, v, _⟩ := run_tidy v₀ r
  refine ⟨w, hw, v.layout.canonical v.merged, fun b hb => ?_⟩
  have ⟨w', _, hw', _⟩ := v.toInv.free hb
  exact ⟨w', hw'⟩

theorem fourPages_room : Room 0x80000000 0x80005000 :=
  .of_aligned (by decide) (by decide +kernel) (by decide +kernel)

-- The first and the third page are free.
theorem fourPages_canonical : ∃ w, Run Step fourPages
    [.alloc 0, .alloc 0, .alloc 0, .alloc 0, .free ⟨0x80003000, 0⟩, .free ⟨0x80001000, 0⟩] (.ok w) ∧
      w.bs.indices 0 = some 0 ∧ w.bs.next 0 = some 2 ∧ w.bs.Canonical := by
  have ⟨w, r, h⟩ := run_of_exec
    [.alloc 0, .alloc 0, .alloc 0, .alloc 0, .free ⟨0x80003000, 0⟩, .free ⟨0x80001000, 0⟩]
    (s := fourPages) (f := fun w => (w.bs.indices 0, w.bs.next 0)) (a := (some 0, some 2)) (by decide +kernel)
  have ⟨hi, hn⟩ := Prod.mk.inj h
  have ⟨_, hw, hc, _⟩ := run_canonical fourPages_room r
  cases hw
  exact ⟨w, r, hi, hn, hc⟩

-- A release of several blocks adds their pages to the free ones.
structure World.Collects (w w' : World) (P P' : Pool) (as : List Allocation) : Prop where
  tidy      : w'.Tidy P'
  freePages : w'.bs.freePages = as.foldl (fun n b => (n + 2 ^ b.pow) % u64) w.bs.freePages
  used      : ∀ x, w'.bs.used x = true ↔ w.bs.used x = true ∧ ∀ b ∈ as, ¬w.InBlock b x
  covers    : ∀ x, P'.freeWeight maxBlockPow (Pool.covers x) = P.freeWeight maxBlockPow (Pool.covers x) +
    (as.map fun b => Pool.covers x b.pow <| w.bs.buddyAuxAddr2index b.pa).sum

theorem World.Tidy.collect (v : w.Tidy P) (hs : ∀ b ∈ as, b ∈ w.live) (hd : as.Nodup) :
    ∃ w' P', as.foldlM World.free w = .ok w' ∧ w.Collects w' P P' as := by
  induction as generalizing w P
  case nil => exact ⟨w, P, rfl, v, rfl, by simp, by simp⟩
  case cons b as hi =>
    have ⟨hb, hd⟩ := List.nodup_cons.mp hd
    have ⟨w₁, P₁, hw, r⟩ := v.toInv.free <| hs b List.mem_cons_self
    have hs₁ : ∀ b' ∈ as, b' ∈ w₁.live := fun b' hb' => by
      rw [r.live]
      exact (List.mem_erase_of_ne <| ne_of_mem_of_not_mem hb' hb).mpr <| hs b' <| List.mem_cons_of_mem _ hb'
    have ⟨w', P', hw', c⟩ := hi (r.tidy v) hs₁ hd
    refine ⟨w', P', by rw [List.foldlM_cons, hw]; exact hw', c.tidy, ?_, fun x => ?_, fun x => ?_⟩
    case refine_1 => rw [c.freePages, r.freed.freePages, List.foldl_cons]
    case refine_2 =>
      have he : ∀ b', w₁.InBlock b' x ↔ w.InBlock b' x := fun b' => by rw [InBlock, InBlock, r.freed.region]
      have hu : w₁.bs.used x = true ↔ w.bs.used x = true ∧ ¬w.InBlock b x := by
        rw [r.freed.used, InBlock]
        split <;> simp_all
      simp only [c.used, hu, he, List.forall_mem_cons, and_assoc]
    case refine_3 =>
      have hq := r.equiv _ (Pool.covers_additive (x := x))
      have hh := r.held (c := Pool.covers x)
      rw [Pool.weight, Pool.weight] at hq
      rw [c.covers, List.map_cons, List.sum_cons, r.freed.region]
      omega

-- The state after a release of several blocks does not depend on their order.
theorem World.Tidy.collect_perm (v : w.Tidy P) (hs : ∀ b ∈ as, b ∈ w.live) (hd : as.Nodup) (hp : as.Perm as') :
    ∃ w₁ w₂, as.foldlM World.free w = .ok w₁ ∧ as'.foldlM World.free w = .ok w₂ ∧
      (∀ p < maxBlockPow, ∃ is, Chain w₁.bs.next (w₁.bs.indices p) is ∧ Chain w₂.bs.next (w₂.bs.indices p) is) ∧
      w₁.bs.used = w₂.bs.used ∧ w₁.bs.freePages = w₂.bs.freePages := by
  have ⟨w₁, P₁, h₁, c₁⟩ := v.collect hs hd
  have ⟨w₂, P₂, h₂, c₂⟩ := v.collect (fun b hb => hs b <| hp.mem_iff.mpr hb) <| hp.nodup_iff.mp hd
  refine ⟨w₁, w₂, h₁, h₂, fun p hlt => ⟨P₁.free p, c₁.tidy.layout.chain hlt, ?_⟩, ?_, ?_⟩
  case refine_1 =>
    -- The same pages are free, which determines the lists.
    have hc : ∀ x, P₁.Covered maxBlockPow x ↔ P₂.Covered maxBlockPow x := fun x => by
      rw [Pool.covered_iff, Pool.covered_iff, c₁.covers, c₂.covers, (hp.map _).sum_eq]
    have l₁ := c₁.tidy.layout
    have l₂ := c₂.tidy.layout
    rw [c₁.tidy.merged.free_eq c₂.tidy.merged l₁.aligned l₂.aligned l₁.excl l₂.excl hc hlt]
    exact l₂.chain hlt
  case refine_2 =>
    funext x
    rw [Bool.eq_iff_iff, c₁.used, c₂.used]
    simp only [hp.mem_iff]
  case refine_3 =>
    rw [c₁.freePages, c₂.freePages]
    refine hp.foldl_eq' (fun b _ b' _ n => ?_) _
    simp only [Nat.mod_add_mod, Nat.add_right_comm]

theorem run_collect_perm (h : Room paStart paEnd) (r : Run Step (World.init paStart paEnd buddies) ops (.ok w))
    (hs : ∀ b ∈ as, b ∈ w.live) (hd : as.Nodup) (hp : as.Perm as') :
    ∃ w₁ w₂, as.foldlM World.free w = .ok w₁ ∧ as'.foldlM World.free w = .ok w₂ ∧
      (∀ p < maxBlockPow, ∃ is, Chain w₁.bs.next (w₁.bs.indices p) is ∧ Chain w₂.bs.next (w₂.bs.indices p) is) ∧
      w₁.bs.used = w₂.bs.used ∧ w₁.bs.freePages = w₂.bs.freePages := by
  have ⟨w₀, P₀, h₀, v₀⟩ := init_tidy buddies h
  rw [h₀] at r
  have ⟨_, P, hw, v, _⟩ := run_tidy v₀ r
  cases hw
  exact v.collect_perm hs hd hp

-- The four pages are merged in two different ways.
theorem fourPages_collect_perm : ∃ w w₁ w₂, Run Step fourPages [.alloc 0, .alloc 0, .alloc 0, .alloc 0] (.ok w) ∧
    [⟨0x80001000, 0⟩, ⟨0x80002000, 0⟩, ⟨0x80003000, 0⟩, ⟨0x80004000, 0⟩].foldlM World.free w = .ok w₁ ∧
    [⟨0x80003000, 0⟩, ⟨0x80002000, 0⟩, ⟨0x80004000, 0⟩, ⟨0x80001000, 0⟩].foldlM World.free w = .ok w₂ ∧
      (∀ p < maxBlockPow, ∃ is, Chain w₁.bs.next (w₁.bs.indices p) is ∧ Chain w₂.bs.next (w₂.bs.indices p) is) ∧
      w₁.bs.used = w₂.bs.used ∧ w₁.bs.freePages = w₂.bs.freePages := by
  have ⟨w, r, hl⟩ := run_of_exec [.alloc 0, .alloc 0, .alloc 0, .alloc 0] (s := fourPages) (f := fun w => w.live)
    (a := [⟨0x80004000, 0⟩, ⟨0x80003000, 0⟩, ⟨0x80002000, 0⟩, ⟨0x80001000, 0⟩]) (by decide +kernel)
  have hp : [⟨0x80001000, 0⟩, ⟨0x80002000, 0⟩, ⟨0x80003000, 0⟩, ⟨0x80004000, 0⟩].Perm
      [⟨0x80003000, 0⟩, ⟨0x80002000, 0⟩, ⟨0x80004000, 0⟩, (⟨0x80001000, 0⟩ : Allocation)] := by decide
  have ⟨w₁, w₂, h⟩ := run_collect_perm fourPages_room r (by rw [hl]; decide) (by decide) hp
  exact ⟨w, w₁, w₂, r, h⟩

end Zgmos.Buddy
