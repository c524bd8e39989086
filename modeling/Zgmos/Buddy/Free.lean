import Zgmos.Buddy.Layout

namespace Zgmos.Buddy

variable {bs bs' : BuddySystem} {P P' : Pool} {p i j n fb : Nat} {is s t : List Nat}

theorem buddyAuxMergeable_spec (h : buddyAuxMergeable i j p) (hi : 2 ^ p ∣ i) (hj : 2 ^ p ∣ j)
    (hl : i < j) : j = i + 2 ^ p ∧ 2 ^ (p + 1) ∣ i := by
  obtain ⟨a, rfl⟩ := hi
  obtain ⟨b, rfl⟩ := hj
  have h₀ : 0 < 2 ^ p := by positivity
  have hl : a < b := Nat.lt_of_mul_lt_mul_left hl
  have hx : a ^^^ b = 1 := by
    simpa [buddyAuxMergeable, Nat.shiftRight_eq_div_pow, h₀] using h
  -- Two numbers that differ in the last bit only.
  have h₁ : a / 2 = b / 2 := by
    have := Nat.xor_div_two (a := a) (b := b)
    rw [hx] at this
    exact Nat.xor_eq_zero_iff.mp this.symm
  have h₂ : (a + b) % 2 = 1 := by
    have := Nat.xor_mod_two_eq (m := a) (n := b)
    rw [hx] at this
    exact this.symm
  have hb : b = a + 1 := by omega
  have ⟨c, hc⟩ : 2 ∣ a := by omega
  exact ⟨by rw [hb]; ring, c, by rw [hc]; ring⟩

theorem buddyAuxMergeable_of_halves (hd : 2 ^ (p + 1) ∣ i) : buddyAuxMergeable i (i + 2 ^ p) p := by
  have ⟨a, ha⟩ := hd
  have hi : i = 2 ^ p * (2 * a) := by rw [ha, Nat.pow_succ, Nat.mul_assoc]
  have h₀ : 0 < 2 ^ p := by positivity
  have hl : i / 2 ^ p = 2 * a := by rw [hi, Nat.mul_div_cancel_left _ h₀]
  have hr : (i + 2 ^ p) / 2 ^ p = 2 * a + 1 := by rw [Nat.add_div_right _ h₀, hl]
  rw [buddyAuxMergeable, Nat.shiftRight_eq_div_pow, Nat.shiftRight_eq_div_pow, hl, hr, beq_iff_eq]
  have h₁ : (2 * a ^^^ (2 * a + 1)) / 2 = 0 := by
    rw [Nat.xor_div_two, show (2 * a + 1) / 2 = 2 * a / 2 by omega, Nat.xor_self]
  have h₂ : (2 * a ^^^ (2 * a + 1)) % 2 = 1 := by
    rw [Nat.xor_mod_two_eq]
    omega
  omega

-- The search ends at a block behind which the list goes on with a block after `fb`, if at all.
theorem seekBlock_run (hc : Chain bs.next q is) (hl : ∀ j ∈ is, j < bs.entries)
    (hs : is = s ++ i :: t) (hi : i < fb) (hn : t.length < n) :
    ∃ s' i' t', (seekBlock fb n s.getLast? i).run bs = .ok ((s'.getLast?, i'), bs) ∧
      is = s' ++ i' :: t' ∧ i' < fb ∧ ∀ j ∈ t'.head?, fb ≤ j := by
  induction n generalizing s i t
  case zero => contradiction
  case succ n ih =>
    have hb : i < bs.entries := hl i (by simp [hs])
    have hc' : Chain bs.next (bs.next i) t := (Segment.split (hs ▸ hc)).2
    cases t
    case nil =>
      have hq : bs.next i = none := hc'
      exact ⟨s, i, [], by simp [seekBlock, hb, hq], hs, hi, by simp⟩
    case cons j t =>
      have hq : bs.next i = some j := hc'.1
      by_cases hj : j < fb
      case neg =>
        exact ⟨s, i, j :: t, by simp [seekBlock, hb, hq, hj], hs, hi, by simpa using hj⟩
      case pos =>
        have hs' : is = (s ++ [i]) ++ j :: t := by simpa using hs
        have ⟨s', i', t', hr, h⟩ := ih hs' hj (by simpa using hn)
        refine ⟨s', i', t', ?_, h⟩
        simpa [seekBlock, hb, hq, hj] using hr

theorem removeBlock_spec (w : Layout bs P) (hp : p < maxBlockPow) (h : P.free p = s ++ i :: t) :
    ∃ bs', (removeBlock p s.getLast? i).run bs = .ok ((), bs') ∧ Frame bs bs' ∧ bs'.pow = bs.pow ∧
      Layout bs' ((P.setFree p <| s ++ t).hold p i) := by
  have hi := w.start_lt_entries (p := p) (i := i) <| .inl ⟨hp, by simp [h]⟩
  obtain rfl | ⟨s, j, rfl⟩ := s.eq_nil_or_concat
  case inl =>
    refine ⟨bs.setIndex p (bs.next i), by simp [removeBlock, hi, hp], (Frame.refl _).setIndex, by simp, ?_⟩
    exact w.take_head hp h
  case inr =>
    have hj := w.start_lt_entries (p := p) (i := j) <| .inl ⟨hp, by simp [h]⟩
    have h' : P.free p = s ++ j :: i :: t := by simpa using h
    refine ⟨bs.setNext j (bs.next i), by simp [removeBlock, hi, hj], (Frame.refl _).setNext, by simp, ?_⟩
    simpa using w.take_after hp h'

-- The last steps of the loop, in which `i` is put to the list.
theorem insertAfter_spec (w : Layout bs (P.hold p i)) (hp : p < maxBlockPow)
    (h : P.free p = s ++ j :: t) :
    ∃ bs', (insertAfter j i).run bs = .ok ((), bs') ∧ Frame bs bs' ∧ bs'.pow = bs.pow ∧
      Layout bs' (P.setFree p <| s ++ j :: i :: t) := by
  have hi := w.start_lt_entries (p := p) (i := i) (by simp)
  have hj := w.start_lt_entries (p := p) (i := j) <| .inl ⟨hp, by simp [h]⟩
  exact ⟨_, by simp [insertAfter, hi, hj], (Frame.refl _).setNext.setNext, by simp, w.put_after hp h⟩

-- Two blocks that are mergeable become one block, which starts where the lower one does.
theorem merge_spec (w : Layout bs ((P.hold p i).hold p j)) (h : buddyAuxMergeable i j p) (hl : i < j) :
    Layout (bs.setPow i (p + 1)) (P.hold (p + 1) i) ∧
      ((P.hold p i).hold p j).Equiv maxBlockPow (P.hold (p + 1) i) := by
  have hi := w.block (p := p) (i := i) (by simp)
  have hj := w.block (p := p) (i := j) (by simp)
  have ⟨he, hd⟩ := buddyAuxMergeable_spec h hi.dvd hj.dvd hl
  subst he
  exact ⟨w.merge hd, Pool.Equiv.split.symm⟩

-- An iteration of the loop that puts the block to its list, between two blocks it cannot be merged with.
structure Placed (bs bs' : BuddySystem) (P : Pool) (p i : Nat) (s t : List Nat) : Prop where
  frame  : Frame bs bs'
  pow    : bs'.pow = bs.pow
  list   : P.free p = s ++ t
  layout : Layout bs' (P.setFree p <| s ++ i :: t)
  before : ∀ j ∈ s.getLast?, j < i ∧ ¬buddyAuxMergeable j i p
  behind : ∀ j ∈ t.head?, i < j ∧ ¬buddyAuxMergeable i j p

-- An iteration of the loop that merges the block with the block `k` of its list to one that starts at `j`.
structure Joined (bs bs' : BuddySystem) (P : Pool) (p i j k : Nat) (s t : List Nat) : Prop where
  frame  : Frame bs bs'
  pow    : bs'.pow = Function.update bs.pow j (p + 1)
  list   : P.free p = s ++ k :: t
  layout : Layout bs' ((P.setFree p <| s ++ t).hold (p + 1) j)
  equiv  : ((P.setFree p <| s ++ t).hold p k |>.hold p i).Equiv maxBlockPow ((P.setFree p <| s ++ t).hold (p + 1) j)

-- Either the loop ends or it goes on with a block of the next order.
theorem coalesce_step (w : Layout bs (P.hold p i)) :
    (∃ bs' s t, Placed bs bs' P p i s t ∧ ∀ n, (coalesce (n + 1) i).run bs = .ok ((), bs')) ∨
    ∃ bs' j k s t, Joined bs bs' P p i j k s t ∧ ∀ n, (coalesce (n + 1) i).run bs = (coalesce n j).run bs' := by
  have hm : (P.hold p i).Mem maxBlockPow p i := by simp
  have hb := w.block hm
  have hp := hb.order
  have hi := w.start_lt_entries hm
  cases hf : P.free p
  case nil =>
    have hq : bs.indices p = none := by simp [w.indices_eq hp, hf]
    refine .inl ⟨bs.setIndex p (some i) |>.setNext i none, [], [], ?_, fun n => ?_⟩
    case refine_2 => simp [coalesce, hi, hb.pow, hp, hq]
    case refine_1 =>
      refine ⟨(Frame.refl _).setIndex.setNext, by simp, hf, ?_, by simp, by simp⟩
      simpa [hq, hf, BuddySystem.setNext_setIndex] using w.put_head hp
  case cons list is =>
    have hq : bs.indices p = some list := by simp [w.indices_eq hp, hf]
    have hlist := w.start_lt_entries (p := p) (i := list) <| .inl ⟨hp, by simp [hf]⟩
    by_cases hil : i < list
    case pos =>
      by_cases hmg : buddyAuxMergeable i list p
      case pos =>
        have w₁ := w.take_head hp hf
        rw [← Pool.setFree_hold, Pool.hold_comm] at w₁
        have ⟨w₂, e⟩ := merge_spec (Pool.hold_comm ▸ w₁) hmg hil
        refine .inr ⟨_, i, list, [], is, ⟨(Frame.refl _).setIndex.setPow, by simp, hf, w₂, ?_⟩, fun n => ?_⟩
        case refine_1 => exact Pool.hold_comm ▸ e
        case refine_2 => simp [coalesce, hi, hb.pow, hp, hq, hil, hmg, hlist]
      case neg =>
        refine .inl ⟨bs.setIndex p (some i) |>.setNext i (some list), [], list :: is, ?_, fun n => ?_⟩
        case refine_2 => simp [coalesce, hi, hb.pow, hp, hq, hil, hmg]
        case refine_1 =>
          refine ⟨(Frame.refl _).setIndex.setNext, by simp, hf, ?_, by simp, by simpa [hil] using hmg⟩
          simpa [hq, hf, BuddySystem.setNext_setIndex] using w.put_head hp
    case neg =>
      have hni : i ∉ P.free p := w.excl.not_mem_free hp
      have hil' : list < i := by
        have : list ≠ i := fun he => hni (by simp [hf, he])
        omega
      have hlt : ∀ j ∈ P.free p, j < bs.entries := fun j hj => w.start_lt_entries (p := p) <| .inl ⟨hp, hj⟩
      have hc : Chain bs.next (bs.indices p) (P.free p) := w.chain hp
      have hlen : is.length < bs.entries := by
        have := hc.nodup.subperm fun j hj => List.mem_range.mpr (hlt j hj)
        simpa [hf] using this.length_le
      have ⟨s, j, t, hr, hs, hji, hle⟩ := seekBlock_run (s := []) hc hlt hf hil' hlen
      rw [List.getLast?_nil] at hr
      have hj := hlt j (by simp [hs])
      have hpost : ∀ k ∈ t.head?, i < k := fun k hk => by
        have : i ≠ k := fun he => hni (by simp [hs, he, List.mem_of_head? hk])
        have := hle k hk
        omega
      by_cases hmg : buddyAuxMergeable j i p
      case pos =>
        -- The block is merged with the one before it.
        have ⟨bs₁, hr₁, f₁, hp₁, w₁⟩ := removeBlock_spec w hp hs
        rw [← Pool.setFree_hold, Pool.hold_comm] at w₁
        have ⟨w₂, e⟩ := merge_spec w₁ hmg hji
        refine .inr ⟨_, j, j, s, t, ⟨f₁.setPow, by simp [hp₁], hs, w₂, Pool.hold_comm ▸ e⟩, fun n => ?_⟩
        have hj : j < bs₁.entries := by simpa [f₁.region] using hj
        simp [coalesce, hi, hb.pow, hp, hq, hil, hr, hmg, hr₁, hj]
      case neg =>
        have hc : Chain bs.next (bs.next j) t := (Segment.split (hs ▸ hc)).2
        have ⟨bs₁, hr₁, f₁, hp₁, w₁⟩ := insertAfter_spec w hp hs
        have hl : P.free p = (s ++ [j]) ++ t := by simpa using hs
        cases t
        case nil =>
          have hn : bs.next j = none := hc
          refine .inl ⟨bs₁, s ++ [j], [], ⟨f₁, hp₁, hl, ?_, by simpa [hji] using hmg, by simp⟩, fun n => ?_⟩
          case refine_1 => simpa using w₁
          case refine_2 => simp [coalesce, hi, hb.pow, hp, hq, hil, hr, hmg, hj, hn, hr₁]
        case cons k t =>
          have hn : bs.next j = some k := hc.1
          have hk := hlt k (by simp [hs])
          have hik := hpost k rfl
          by_cases hmg' : buddyAuxMergeable i k p
          case pos =>
            -- The block is merged with the one behind it.
            have w₁ := w.take_after hp hs
            rw [← Pool.setFree_hold, Pool.hold_comm] at w₁
            have ⟨w₂, e⟩ := merge_spec (Pool.hold_comm ▸ w₁) hmg' hik
            rw [← List.singleton_append, ← List.append_assoc] at w₂ e
            refine .inr ⟨_, i, k, s ++ [j], t, ⟨(Frame.refl _).setNext.setPow, by simp, hl, w₂, ?_⟩, fun n => ?_⟩
            case refine_1 => exact Pool.hold_comm ▸ e
            case refine_2 => simp [coalesce, hi, hb.pow, hp, hq, hil, hr, hmg, hj, hn, hmg', hk]
          case neg =>
            refine .inl ⟨bs₁, s ++ [j], k :: t, ⟨f₁, hp₁, hl, ?_, by simpa [hji] using hmg, ?_⟩, fun n => ?_⟩
            case refine_1 => simpa using w₁
            case refine_2 => simpa [hik] using hmg'
            case refine_3 => simp [coalesce, hi, hb.pow, hp, hq, hil, hr, hmg, hj, hn, hmg', hr₁]

theorem Placed.tidies (h : Placed bs bs' P p i s t) : Tidies bs bs' P (P.setFree p <| s ++ i :: t) := by
  apply Tidies.of_blocks (by rw [h.frame.region]) fun j => .inl <| congrFun h.pow j
  intro hm
  by_cases hp : p < maxBlockPow
  case neg =>
    exact hm.setFree (fun hp' => absurd hp' hp) fun hp' => absurd hp' hp
  have hi := h.layout.block (p := p) (i := i) <| .inl ⟨hp, by simp⟩
  apply hm.insert h.list ?_ hi.dvd
  case hs =>
    intro j hj
    have ⟨hl, hn⟩ := h.before j hj
    exact ⟨hl, fun ⟨hd, he⟩ => hn <| he ▸ buddyAuxMergeable_of_halves hd⟩
  case ht =>
    intro j hj
    have ⟨hl, hn⟩ := h.behind j hj
    exact ⟨hl, fun ⟨hd, he⟩ => hn <| he ▸ buddyAuxMergeable_of_halves hd⟩
  intro j hj
  apply h.layout.aligned p hp
  rw [h.list] at hj
  simp only [Pool.setFree_free, Function.update_self, List.mem_append, List.mem_cons] at hj ⊢
  exact hj.imp_right .inr

theorem Joined.tidies (h : Joined bs bs' P p i j k s t) : Tidies bs bs' P (P.setFree p <| s ++ t) := by
  apply Tidies.of_blocks (by rw [h.frame.region]) ?_ fun hm => hm.sublist <| by simp [h.list]
  intro x
  by_cases hx : x = j
  case pos => exact .inr ⟨p + 1, h.layout.block <| by simp [hx]⟩
  case neg => exact .inl <| by simp [h.pow, hx]

-- The block is put to a list, alone or after some merges.
theorem coalesce_spec (w : Layout bs (P.hold p i)) (hn : maxBlockPow ≤ n + p) :
    ∃ bs' P', (coalesce n i).run bs = .ok ((), bs') ∧ Frame bs bs' ∧ Layout bs' P' ∧
      (P.hold p i).Equiv maxBlockPow P' ∧ P'.held = P.held ∧ Tidies bs bs' P P' := by
  induction n generalizing bs P p i
  all_goals have hp := (w.block (p := p) (i := i) <| by simp).order
  case zero => omega
  case succ n ih =>
    cases coalesce_step w
    case inl h =>
      have ⟨bs', s, t, h, hr⟩ := h
      exact ⟨bs', _, hr n, h.frame, h.layout, .put hp h.list, rfl, h.tidies⟩
    case inr h =>
      have ⟨bs₁, j, k, s, t, h, hr⟩ := h
      have ⟨bs', P', hr', f, w', e, hh, ht⟩ := ih h.layout (by omega)
      refine ⟨bs', P', (hr n).trans hr', h.frame.trans f, w', ?_, hh, h.tidies.trans ht⟩
      exact (Pool.Equiv.take hp h.list).hold.trans h.equiv |>.trans e

theorem buddyGetUsed_run (hl : ∀ j < 2 ^ bs.pow i, i + j < bs.entries)
    (hu : ∀ j < 2 ^ bs.pow i, bs.used (i + j) = true) :
    (buddyGetUsed i).run bs = .ok (true, bs) := by
  have hi : i < bs.entries := hl 0 (by positivity)
  have hui : bs.used i = true := hu 0 (by positivity)
  simp only [buddyGetUsed, StateT.run_bind, getBlock_run hi, ok_bind, BuddySystem.buddies_pow,
    BuddySystem.buddies_used, hui]
  rw [forM_run fun j hj => by
    have hj := List.mem_range.mp hj
    simp [hl j hj, hu j hj]]
  simp

-- What a release of a block changes apart from the lists.
structure Freed (bs bs' : BuddySystem) (pow i : Nat) : Prop where
  region    : bs'.toRegion = bs.toRegion
  freePages : bs'.freePages = (bs.freePages + 2 ^ pow) % u64
  used      : ∀ j, bs'.used j = if i ≤ j ∧ j < i + 2 ^ pow then false else bs.used j

theorem buddyFree_spec {pa : Nat} (w : Layout bs (P.hold p i))
    (hu : ∀ j, i ≤ j → j < i + 2 ^ p → bs.used j = true) (ha : bs.buddyAuxAddr2index pa = i) :
    ∃ bs' P', (buddyFree pa).run bs = .ok ((), bs') ∧ Freed bs bs' p i ∧ Layout bs' P' ∧
      (P.hold p i).Equiv maxBlockPow P' ∧ P'.held = P.held ∧ Tidies bs bs' P P' := by
  have hm : (P.hold p i).Mem maxBlockPow p i := by simp
  have hb := w.block hm
  have hg : (buddyGetUsed i).run bs = .ok (true, bs) := by
    apply buddyGetUsed_run <;> rw [hb.pow]
    case hl => exact fun j hj => w.lt_entries hm hj
    case hu => exact fun j hj => hu _ (by omega) (by omega)
  have hp : (buddyPutUsed i false).run bs = .ok ((), bs.putUsed i (2 ^ p) false) := by
    have := buddyPutUsed_run bs i false fun j hj => by
      rw [hb.pow] at hj
      exact w.lt_entries hm hj
    rwa [hb.pow] at this
  have wu : Layout (bs.putUsed i (2 ^ p) false) (P.hold p i) := w.putUsed
  have ⟨bs', P', hr, f, w', e, hh, ht⟩ := coalesce_spec (n := maxBlockPow + 1) wu (by omega)
  refine ⟨bs'.setFreePages <| (bs'.freePages + 2 ^ p) % u64, P', ?_, ?_, w'.setFreePages, e, hh, ?_⟩
  case refine_3 => exact { merged := ht.merged, within := fun hw => ht.within <| by simpa [BuddySystem.Within] using hw }
  case refine_1 =>
    simp [buddyFree, buddyFreeIndex, ha, hg, w.start_lt_entries hm, hp, hr, hb.pow]
  case refine_2 =>
    constructor
    case region    => simpa using f.region
    case freePages => simp [f.freePages]
    case used      => exact fun j => by simp [f.used, BuddySystem.putUsed_used]

end Zgmos.Buddy
