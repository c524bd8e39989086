import Zgmos.Buddy.Invariant

namespace Zgmos.Buddy

open World

variable {paStart paEnd pow : Nat} {buddies : Nat → BuddyBlock} {w w' : World} {P : Pool}
  {s s' : Except Fault World} {op : Op} {ops : List Op}

theorem init_inv {b : Nat → BuddyBlock} (h : (buddyAuxDataInit paStart paEnd b).WellFormed) :
    ∃ w P, World.init paStart paEnd b = .ok w ∧ w.Inv P ∧
      ((buddyAuxDataInit paStart paEnd b).totalPages < 2 ^ maxBlockPow → w.Full P) := by
  have ⟨bs, P, hr, hreg, hf, hc, _⟩ := buddyInit_spec h
  have v : Inv ⟨bs, []⟩ P := {
    layout := hc.layout
    region := hreg ▸ h
    held   := by simp [hc.held]
    addr h := nomatch h
    used h := nomatch h
  }
  refine ⟨⟨bs, []⟩, P, by simp [World.init, hr], v, fun ht => ?_⟩
  rw [← congrArg Region.totalPages hreg] at ht
  have hm : bs.totalPages % 2 ^ maxBlockPow = bs.totalPages := Nat.mod_eq_of_lt ht
  rw [hm] at hc
  have hh : P.heldWeight Pool.size = 0 := by simp [Pool.heldWeight, hc.held]
  exact { v with
    total       := ht
    covers {x} hx := by simp [hc.covers, hx]
    size        := hc.size
    free        := by simpa [Pool.weight, hh, hf] using hc.size.symm
  }

-- A step never goes wrong and keeps the invariant.
theorem Step.inv (v : w.Inv P) (e : Step (.ok w) op s) : ∃ w' P', s = .ok w' ∧ w'.Inv P' := by
  cases e
  case alloc hp hs =>
    have ⟨w', _, _, hw, g⟩ := v.step_alloc hp hs
    exact ⟨w', _, hw, g.inv⟩
  case free hb =>
    have ⟨w', P', hw, r⟩ := v.free hb
    exact ⟨w', P', hw, r.inv⟩

theorem run_inv (v : w.Inv P) (r : Run Step (.ok w) ops s) : ∃ w' P', s = .ok w' ∧ w'.Inv P' := by
  apply r.invariant (p := fun s => ∃ w P, s = .ok w ∧ w.Inv P)
  case hs => exact ⟨w, P, rfl, v⟩
  case h =>
    intro s op s' ⟨w, P, hs, v⟩ e
    subst hs
    exact e.inv v

-- Before the initialisation the array `buddies` may have any contents.
def noBlock : BuddyBlock where
  next := none
  adat := 0
  pow  := 0
  used := false

-- A region of five pages, of which the first one holds the array `buddies`.
def fourPages : Except Fault World :=
  World.init 0x80000000 0x80005000 fun _ => noBlock

theorem run_of_exec (ops : List Op) {f : World → α} {a : α}
    (h : (ops.foldlM exec s).map (Except.map f) = some (.ok a)) : ∃ w, Run Step s ops (.ok w) ∧ f w = a := by
  have ⟨s', he, h⟩ := Option.map_eq_some_iff.mp h
  cases s'
  case error => nomatch h
  case ok w  => exact ⟨w, .of_foldlM (fun _ _ _ => Step.of_exec) he, Except.ok.inj h⟩

-- No page is ever in two blocks.
theorem run_exclusive (hl : paStart ≤ paEnd) (hu : paEnd < u64) (hs : pageSize ∣ paStart)
    (he : pageSize ∣ paEnd) (r : Run Step (World.init paStart paEnd buddies) ops s) :
    ∃ w, s = .ok w ∧ w.Exclusive := by
  have ⟨w₀, P₀, h₀, v₀, _⟩ := init_inv (b := buddies) (buddyAuxDataInit_of_aligned hl hu hs he)
  rw [h₀] at r
  have ⟨w, P, hw, v⟩ := run_inv v₀ r
  exact ⟨w, hw, v.exclusive⟩

theorem fourPages_exclusive : ∃ w, Run Step fourPages [.alloc 0, .alloc 1] (.ok w) ∧ w.Exclusive := by
  have ⟨w, r, _⟩ := run_of_exec [.alloc 0, .alloc 1] (s := fourPages) (f := fun w => w.bs.freePages)
    (a := 1) (by decide +kernel)
  have ⟨_, hw, he⟩ := run_exclusive (by decide) (by decide +kernel) (by decide +kernel) (by decide +kernel) r
  cases hw
  exact ⟨w, r, he⟩

-- A step that does not forget blocks loses no page.
theorem Step.full (v : w.Full P) (e : Step (.ok w) op s)
    (h : ∀ pow, op = .alloc pow → w.bs.SingleEntry pow) : ∃ w' P', s = .ok w' ∧ w'.Full P' := by
  cases e
  case alloc hp hs => exact v.step_alloc hp hs (h _ rfl)
  case free hb     => exact v.step_free hb

theorem run_full (v : w.Full P) (r : Run Step (.ok w) ops s)
    (h : ∀ ops₁ pow ops₂ w', ops = ops₁ ++ .alloc pow :: ops₂ → Run Step (.ok w) ops₁ (.ok w') →
      w'.bs.SingleEntry pow) : ∃ w' P', s = .ok w' ∧ w'.Full P' := by
  induction ops generalizing w P
  case nil =>
    cases r
    exact ⟨w, P, rfl, v⟩
  case cons op ops hi =>
    cases r
    case cons e r =>
      have ⟨w₁, P₁, h₁, v₁⟩ := e.full v fun pow ho => h [] pow ops w (by rw [ho]; rfl) .nil
      subst h₁
      apply hi v₁ r
      intro ops₁ pow ops₂ w' ho r'
      exact h (op :: ops₁) pow ops₂ w' (by rw [ho]; rfl) (.cons e r')

-- The runs that lose no page are those in which an allocation from a list which is not empty always
-- finds it with a single block.
theorem conserved_iff_singleEntry (hl : paStart ≤ paEnd) (hu : paEnd < u64)
    (ht : (buddyAuxDataInit paStart paEnd buddies).totalPages < 2 ^ maxBlockPow)
    (r : Run Step (World.init paStart paEnd buddies) ops s) :
    (∀ ops₁ ops₂ s', ops = ops₁ ++ ops₂ → Run Step (World.init paStart paEnd buddies) ops₁ s' →
      ∃ w, s' = .ok w ∧ w.Conserved) ↔
      ∀ ops₁ pow ops₂ w, ops = ops₁ ++ .alloc pow :: ops₂ →
        Run Step (World.init paStart paEnd buddies) ops₁ (.ok w) → w.bs.SingleEntry pow := by
  have ⟨w₀, P₀, h₀, v₀, hf⟩ := init_inv (b := buddies) (buddyAuxDataInit_of_lt hl hu ht)
  rw [h₀] at r ⊢
  constructor
  case mpr =>
    intro h ops₁ ops₂ s' ho r'
    have ⟨w, P, hw, v⟩ := run_full (hf ht) r' fun ops₃ pow ops₄ w' ho' => h ops₃ pow (ops₄ ++ ops₂) w' (by simp [ho, ho'])
    exact ⟨w, hw, v.conserved⟩
  case mp =>
    intro h ops₁ pow ops₂ w ho r'
    by_contra hn
    have ⟨_, P, hw, v⟩ := run_inv v₀ r'
    cases hw
    -- The step that forgets blocks is taken in the run.
    obtain ⟨hp, hs⟩ : pow < maxBlockPow ∧ w.bs.Satisfiable pow := by
      have ⟨s₁, r₁, r₂⟩ := (ho ▸ r).split
      cases r'.unique (fun _ _ _ _ e₁ e₂ => e₁.unique e₂) r₁
      cases r₂
      case cons e _ =>
        cases e
        exact ⟨by assumption, by assumption⟩
    have ⟨w', _, _, hw', g⟩ := v.step_alloc hp hs
    have ⟨_, hc, h'⟩ := h (ops₁ ++ [.alloc pow]) ops₂ (.ok w') (by simp [ho]) (r'.append <| .single <| hw' ▸ .alloc hp hs)
    cases hc
    exact v.not_conserved hp hn hw' h'

theorem fourPages_conserved : (∃ w, Run Step fourPages [.alloc 0] (.ok w)) ∧
    ∀ ops₁ ops₂ s', [.alloc 0] = ops₁ ++ ops₂ → Run Step fourPages ops₁ s' →
      ∃ w, s' = .ok w ∧ w.Conserved := by
  have ⟨w, r, _⟩ := run_of_exec [.alloc 0] (s := fourPages) (f := fun w => w.bs.freePages)
    (a := 3) (by decide +kernel)
  refine ⟨⟨w, r⟩, ?_⟩
  apply (conserved_iff_singleEntry (by decide) (by decide +kernel) (by decide +kernel) r).mpr
  intro ops₁ pow ops₂ w ho r
  obtain ⟨rfl, rfl, rfl⟩ : ops₁ = [] ∧ pow = 0 ∧ ops₂ = [] := by
    cases ops₁ <;> simp_all
  intro i hi
  have ⟨w', r', hw⟩ := run_of_exec [] (s := fourPages) (f := fun w => w.bs.indices 0)
    (a := none) (by decide +kernel)
  cases r.unique (fun _ _ _ _ e₁ e₂ => e₁.unique e₂) r'
  exact absurd (hi.symm.trans hw) (by simp)

-- After the first and the third page have been released, the allocation of the first one loses
-- the third one.
theorem fragmented_not_conserved : ∃ ops w, Run Step fourPages ops (.ok w) ∧ ¬w.Conserved := by
  have ⟨w, r, hw⟩ := run_of_exec
    [.alloc 0, .alloc 0, .alloc 0, .alloc 0, .free ⟨0x80001000, 0⟩, .free ⟨0x80003000, 0⟩]
    (s := fourPages) (f := fun w => (w.bs.indices 0, w.bs.next 0)) (a := (some 0, some 2)) (by decide +kernel)
  have ⟨hi, hn⟩ := Prod.mk.inj hw
  have ⟨w₀, P₀, h₀, v₀, _⟩ := init_inv <|
    buddyAuxDataInit_of_lt (show 0x80000000 ≤ 0x80005000 by decide) (by decide +kernel)
      (show (buddyAuxDataInit _ _ fun _ => noBlock).totalPages < _ by decide +kernel)
  have h₀ : fourPages = .ok w₀ := h₀
  have ⟨_, P, he, v⟩ := run_inv v₀ (h₀ ▸ r)
  cases he
  have hs : w.bs.Satisfiable 0 := ⟨0, le_rfl, by decide, by simp [hi]⟩
  have ⟨w', _, _, hw', _⟩ := v.step_alloc (by decide) hs
  have e : Step (.ok w) (.alloc 0) (.ok w') := hw' ▸ .alloc (by decide) hs
  refine ⟨_, w', r.append <| .single e, ?_⟩
  apply v.not_conserved (by decide) ?_ hw'
  intro h
  exact absurd (hn.symm.trans <| h 0 hi) (by simp)

-- The search for a block goes on behind the last list.
theorem buddyAlloc_error {bs : BuddySystem} (hp : pow < maxBlockPow) (hs : ¬bs.Satisfiable pow) :
    (buddyAlloc pow).run bs = .error .outOfBounds := by
  simp [buddyAlloc, buddyAllocIndex_error hp hs]

-- A request that cannot be served never just returns the null pointer.
theorem not_outOfMemory {bs : BuddySystem} (hp : pow < maxBlockPow) (hs : ¬bs.Satisfiable pow) :
    ¬bs.OutOfMemory pow := by
  rw [BuddySystem.OutOfMemory, buddyAlloc_error hp hs]
  exact nofun

theorem noPages_not_outOfMemory :
    ¬(buddyAuxDataInit 0x80000000 0x80000000 fun _ => noBlock).OutOfMemory 3 :=
  not_outOfMemory (by decide) (by decide +kernel)

-- The second request for the only page of a region.
theorem exhausted_error : ∃ w, Run Step (World.init 0x80000000 0x80002000 fun _ => noBlock) [.alloc 0] (.ok w) ∧
    ¬w.bs.Satisfiable 0 ∧ (buddyAlloc 0).run w.bs = .error .outOfBounds := by
  have ⟨w, r, hw⟩ := run_of_exec [.alloc 0] (s := World.init 0x80000000 0x80002000 fun _ => noBlock)
    (f := fun w => decide (w.bs.Satisfiable 0)) (a := false) (by decide +kernel)
  have hs := of_decide_eq_false hw
  exact ⟨w, r, hs, buddyAlloc_error (by decide) hs⟩

end Zgmos.Buddy
