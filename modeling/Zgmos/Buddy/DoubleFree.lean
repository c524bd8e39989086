import Zgmos.Buddy.Canonical

namespace Zgmos.Buddy

open World

-- A release is refused by its check, before which nothing is written.
structure BuddySystem.Rejects (bs : BuddySystem) (pa : Nat) : Prop where
  panic : (buddyFree pa).run bs = .error .panic
  check : let check := (buddyGetUsed <| bs.buddyAuxAddr2index pa).run bs
    check = .error .panic ∨ check = .ok (false, bs)

variable {paStart paEnd i : Nat} {buddies : Nat → BuddyBlock} {bs : BuddySystem} {w w' w₁ w₂ : World} {P : Pool}
  {ops ops₁ ops₂ : List Op} {b : Allocation}

-- A loop whose iterations do not change the state and may fail with one fault.
theorem forM_run_or {f : α → BuddyM Unit} {as : List α} {e : Fault}
    (h : ∀ a ∈ as, (f a).run bs = .ok ((), bs) ∨ (f a).run bs = .error e) :
    (forM as f).run bs = .ok ((), bs) ∨ (forM as f).run bs = .error e := by
  induction as
  case nil => exact .inl rfl
  case cons a as hi =>
    have hi := hi fun b hb => h b <| List.mem_cons_of_mem _ hb
    cases h a List.mem_cons_self
    case inl ha => simpa [ha] using hi
    case inr ha => exact .inr <| by simp [ha]

-- The flags of a page that is not used are those of a free block, or they differ.
theorem buddyGetUsed_of_unused (hl : ∀ j < 2 ^ bs.pow i, i + j < bs.entries) (hu : bs.used i = false) :
    (buddyGetUsed i).run bs = .error .panic ∨ (buddyGetUsed i).run bs = .ok (false, bs) := by
  have hi : i < bs.entries := hl 0 (by positivity)
  simp only [buddyGetUsed, StateT.run_bind, getBlock_run hi, ok_bind, BuddySystem.buddies_pow,
    BuddySystem.buddies_used, hu]
  let check (j : Nat) : BuddyM Unit := do
    if false != (← getBlock <| i + j).used then throw .panic
  have h : ∀ j ∈ List.range (2 ^ bs.pow i), (check j).run bs = .ok ((), bs) ∨ (check j).run bs = .error .panic := by
    intro j hj
    have hj := hl j <| List.mem_range.mp hj
    cases hu' : bs.used (i + j)
    case false => exact .inl <| by simp [check, hj, hu']
    case true  => exact .inr <| by simp [check, hj, hu']; rfl
  have hr := forM_run_or h
  simp only [check] at hr
  cases hr
  case inl hr => exact .inr <| by rw [hr]; rfl
  case inr hr => exact .inl <| by rw [hr]; rfl

theorem BuddySystem.Within.rejects {pa : Nat} (hw : bs.Within <| bs.buddyAuxAddr2index pa)
    (hf : bs.totalPages ≤ bs.entries) (hu : bs.used (bs.buddyAuxAddr2index pa) = false) : bs.Rejects pa := by
  have hl : ∀ j < 2 ^ bs.pow (bs.buddyAuxAddr2index pa), bs.buddyAuxAddr2index pa + j < bs.entries := fun j hj => by
    rw [Within] at hw
    omega
  have hc := buddyGetUsed_of_unused hl hu
  refine ⟨?_, hc⟩
  cases hc
  case inl hc => simp [buddyFree, hc]
  case inr hc => simp [buddyFree, hc]; rfl

-- The flags say which pages are in live blocks. A live block is released, and a block that is not live any more
-- is not, whatever has become of it.
theorem run_doubleFree (h : Room paStart paEnd) (r₁ : Run Step (World.init paStart paEnd buddies) ops₁ (.ok w₁))
    (r₂ : Run Step (.ok w₁) ops₂ (.ok w₂)) :
    (∀ x < w₂.bs.totalPages, w₂.bs.used x = true ↔ ∃ b ∈ w₂.live, w₂.InBlock b x) ∧
    (∀ b ∈ w₂.live, ∃ w', w₂.free b = .ok w') ∧
    ∀ b ∈ w₁.live, (¬∃ b' ∈ w₂.live, w₂.InBlock b' <| w₂.bs.buddyAuxAddr2index b.pa) → w₂.bs.Rejects b.pa := by
  have ⟨w₀, P₀, h₀, v₀⟩ := init_tidy buddies h
  rw [h₀] at r₁
  have ⟨_, P₁, hw₁, v₁, _⟩ := run_tidy v₀ r₁
  cases hw₁
  have ⟨_, P₂, hw₂, v₂, c⟩ := run_tidy v₁ r₂
  cases hw₂
  have hu : ∀ x < w₂.bs.totalPages, w₂.bs.used x = true ↔ ∃ b ∈ w₂.live, w₂.InBlock b x :=
    fun x hx => ⟨v₂.unused hx, fun ⟨b, hb, hx⟩ => v₂.used hb hx⟩
  refine ⟨hu, fun b hb => ?_, fun b hb hn => ?_⟩
  case refine_1 =>
    have ⟨w', _, hw', _⟩ := v₂.toInv.free hb
    exact ⟨w', hw'⟩
  case refine_2 =>
    -- Its order has been the one of a block ever since.
    have hw := c.within (v₁.isBlock hb).within
    rw [← c.region] at hw
    apply hw.rejects v₂.layout.fits
    have hx : w₂.bs.buddyAuxAddr2index b.pa < w₂.bs.totalPages := by
      have : 0 < 2 ^ w₂.bs.pow (w₂.bs.buddyAuxAddr2index b.pa) := by positivity
      rw [BuddySystem.Within] at hw
      omega
    rwa [← Bool.not_eq_true, hu _ hx]

-- The second page is released and merged with the first one, which is allocated again then.
theorem fourPages_doubleFree : ∃ w₁ w₂, Run Step fourPages [.alloc 0, .alloc 0] (.ok w₁) ∧
    Run Step (.ok w₁) [.free ⟨0x80001000, 0⟩, .free ⟨0x80002000, 0⟩, .alloc 0] (.ok w₂) ∧
      w₂.bs.Rejects 0x80002000 := by
  have ⟨w₁, r₁, hl₁⟩ := run_of_exec [.alloc 0, .alloc 0] (s := fourPages) (f := fun w => w.live)
    (a := [⟨0x80002000, 0⟩, ⟨0x80001000, 0⟩]) (by decide +kernel)
  have ⟨w₂, r, h⟩ := run_of_exec
    [.alloc 0, .alloc 0, .free ⟨0x80001000, 0⟩, .free ⟨0x80002000, 0⟩, .alloc 0] (s := fourPages)
    (f := fun w => (w.live, w.bs.buddyAuxAddr2index 0x80001000, w.bs.buddyAuxAddr2index 0x80002000))
    (a := ([⟨0x80001000, 0⟩], 0, 1)) (by decide +kernel)
  have ⟨hl₂, h⟩ := Prod.mk.inj h
  have ⟨hi, hj⟩ := Prod.mk.inj h
  have ⟨s, r₁', r₂⟩ : ∃ s, Run Step fourPages [.alloc 0, .alloc 0] s ∧ Run Step s _ _ := r.split
  cases r₁'.unique (fun _ _ _ _ e₁ e₂ => e₁.unique e₂) r₁
  refine ⟨w₁, w₂, r₁, r₂, (run_doubleFree fourPages_room r₁ r₂).2.2 ⟨0x80002000, 0⟩ (by simp [hl₁]) ?_⟩
  simp [hl₂, World.InBlock, hi, hj]

end Zgmos.Buddy
