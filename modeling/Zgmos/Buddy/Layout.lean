import Zgmos.Buddy.Access
import Zgmos.Lib.Canonical
import Zgmos.Lib.Segment

namespace Zgmos.Buddy

structure IsBlock (bs : BuddySystem) (p i : Nat) : Prop where
  pow : bs.pow i = p
  dvd : 2 ^ p ∣ i
  le  : i + 2 ^ p ≤ bs.totalPages % 2 ^ maxBlockPow

-- The lists contain exactly the free blocks of the pool.
structure Layout (bs : BuddySystem) (P : Pool) : Prop where
  fits  : bs.totalPages ≤ bs.entries
  chain : p < maxBlockPow → Chain bs.next (bs.indices p) (P.free p)
  block : P.Mem maxBlockPow p i → IsBlock bs p i
  excl  : P.Exclusive maxBlockPow

namespace IsBlock

variable {bs bs' : BuddySystem} {p i : Nat}

theorem order (b : IsBlock bs p i) : p < maxBlockPow := by
  have := Nat.mod_lt bs.totalPages (y := 2 ^ maxBlockPow) (by decide)
  have := b.le
  exact (Nat.pow_lt_pow_iff_right (a := 2) (by decide)).mp (by omega)

theorem le_totalPages (b : IsBlock bs p i) : i + 2 ^ p ≤ bs.totalPages :=
  b.le.trans <| Nat.mod_le ..

theorem congr (b : IsBlock bs p i) (hp : bs'.pow i = bs.pow i) (ht : bs'.totalPages = bs.totalPages) :
    IsBlock bs' p i where
  pow := hp.trans b.pow
  dvd := b.dvd
  le  := ht ▸ b.le

end IsBlock

namespace Layout

variable {bs bs' : BuddySystem} {P P' : Pool} {p i j : Nat} {is s t : List Nat}

theorem lt_entries (w : Layout bs P) (b : P.Mem maxBlockPow p i) (h : j < 2 ^ p) :
    i + j < bs.entries := by
  have := (w.block b).le_totalPages
  have := w.fits
  omega

theorem start_lt_entries (w : Layout bs P) (b : P.Mem maxBlockPow p i) : i < bs.entries :=
  w.lt_entries (j := 0) b (by positivity)

theorem indices_eq (w : Layout bs P) (hp : p < maxBlockPow) : bs.indices p = (P.free p).head? := by
  have hc := w.chain hp
  cases h : P.free p
  case nil  => simpa [h] using hc
  case cons =>
    rw [h] at hc
    exact hc.1

theorem setFreePages {n : Nat} (w : Layout bs P) : Layout (bs.setFreePages n) P where
  fits    := w.fits
  excl    := w.excl
  block b := w.block b |>.congr rfl rfl
  chain h := w.chain h

theorem putUsed {n : Nat} {u : Bool} (w : Layout bs P) : Layout (bs.putUsed i n u) P where
  fits    := w.fits
  excl    := w.excl
  block b := w.block b |>.congr (by simp) rfl
  chain h := by simpa using w.chain h

-- The first block of a list is taken.
theorem take_head (w : Layout bs P) (hp : p < maxBlockPow) (h : P.free p = i :: is) :
    Layout (bs.setIndex p (bs.next i)) ((P.setFree p is).hold p i) where
  fits  := w.fits
  excl  := w.excl.congr <| .take (s := []) hp h
  block b := w.block (Pool.mem_take (s := []) hp h |>.mp b) |>.congr rfl rfl
  chain {q} hq := by
    have hc := w.chain hq
    by_cases hn : q = p
    case neg => simpa [hn] using hc
    case pos =>
      subst hn
      rw [h] at hc
      simpa using hc.2

-- A block in the middle of a list is taken.
theorem take_after (w : Layout bs P) (hp : p < maxBlockPow) (h : P.free p = s ++ j :: i :: t) :
    Layout (bs.setNext j (bs.next i)) ((P.setFree p <| s ++ j :: t).hold p i) where
  fits  := w.fits
  excl  := w.excl.congr <| by simpa using Pool.Equiv.take (s := s ++ [j]) hp (by simpa using h)
  block b := by
    have := Pool.mem_take (s := s ++ [j]) hp (by simpa using h) |>.mp (by simpa using b)
    exact w.block this |>.congr (by simp) rfl
  chain {q} hq := by
    have hc := w.chain hq
    by_cases hn : q = p
    case neg =>
      have hj := w.excl.free_disjoint (i := j) hp hq (Ne.symm hn) (by simp [h])
      have := hc.congr (f := Function.update bs.next j (bs.next i)) fun x hx => by
        simp [ne_of_mem_of_not_mem hx hj]
      simpa [hn] using this
    case pos =>
      subst hn
      rw [h] at hc
      have hd := hc.nodup
      have := hc.remove_after (f := Function.update bs.next j (bs.next i)) (by simp) fun x hx => by
        have : x ≠ j := by grind
        simp [this]
      simpa using this

-- A held block becomes the first block of a list.
theorem put_head (w : Layout bs (P.hold p i)) (hp : p < maxBlockPow) :
    Layout (bs.setNext i (bs.indices p) |>.setIndex p (some i)) (P.setFree p <| i :: P.free p) where
  fits  := w.fits
  excl  := w.excl.congr <| .put (s := []) hp rfl
  block b := w.block (Pool.mem_put (s := []) hp rfl |>.mp b) |>.congr (by simp) rfl
  chain {q} hq := by
    have := (w.chain hq).congr (f := Function.update bs.next i (bs.indices p)) fun x hx => by
      simp [ne_of_mem_of_not_mem hx <| w.excl.not_mem_free hq]
    by_cases hn : q = p
    case neg => simpa [hn] using this
    case pos =>
      subst hn
      simpa using this

-- A held block is put behind a block of a list.
theorem put_after (w : Layout bs (P.hold p i)) (hp : p < maxBlockPow) (h : P.free p = s ++ j :: t) :
    Layout (bs.setNext i (bs.next j) |>.setNext j (some i)) (P.setFree p <| s ++ j :: i :: t) where
  fits  := w.fits
  excl  := w.excl.congr <| by simpa using Pool.Equiv.put (s := s ++ [j]) hp (by simpa using h)
  block b := by
    have := Pool.mem_put (s := s ++ [j]) hp (by simpa using h) |>.mp (by simpa using b)
    exact w.block this |>.congr (by simp) rfl
  chain {q} hq := by
    have hc := w.chain hq
    have hi := w.excl.not_mem_free hq
    by_cases hn : q = p
    case neg =>
      have hj := w.excl.of_hold.free_disjoint (i := j) hp hq (Ne.symm hn) (by simp [h])
      have := hc.congr (f := Function.update (Function.update bs.next i (bs.next j)) j (some i))
        fun x hx => by simp [ne_of_mem_of_not_mem hx hi, ne_of_mem_of_not_mem hx hj]
      simpa [hn] using this
    case pos =>
      subst hn
      simp only [Pool.hold_free, h] at hc hi
      have hd := hc.nodup
      have := hc.insert_after (f := Function.update (Function.update bs.next i (bs.next j)) j (some i))
        (b := i) (by simp) (by grind) (by grind)
      simpa using this

-- A held block is split into its halves.
theorem split (w : Layout bs (P.hold (p + 1) i)) :
    Layout (bs.setPow i p |>.setPow (i + 2 ^ p) p) ((P.hold p i).hold p (i + 2 ^ p)) where
  fits  := w.fits
  excl  := w.excl.congr .split
  chain hq := by simpa using w.chain hq
  block {q j} b := by
    have hb := w.block (p := p + 1) (i := i) (by simp)
    have hl := hb.le
    have hd : 2 ^ p ∣ i := (Nat.pow_dvd_pow 2 p.le_succ).trans hb.dvd
    have h₀ : 0 < 2 ^ p := by positivity
    have h₁ : 2 ^ (p + 1) = 2 ^ p + 2 ^ p := by omega
    simp only [Pool.mem_hold] at b
    obtain ⟨rfl, rfl⟩ | ⟨rfl, rfl⟩ | b := b
    case inl     => exact { pow := by simp, dvd := by simpa using hd, le := by simp; omega }
    case inr.inl => exact { pow := by simp, dvd := hd, le := by simp; omega }
    case inr.inr =>
      have hn₁ : j ≠ i := fun he => w.excl.not_mem (x := j) (by simp [he]) b
      have hn₂ : j ≠ i + 2 ^ p := fun he => w.excl.not_mem (x := j) (by omega) b
      exact w.block (by simp [b]) |>.congr (by simp [hn₁, hn₂]) rfl

-- Two held blocks are merged.
theorem merge (w : Layout bs ((P.hold p i).hold p (i + 2 ^ p))) (hd : 2 ^ (p + 1) ∣ i) :
    Layout (bs.setPow i (p + 1)) (P.hold (p + 1) i) where
  fits  := w.fits
  excl  := w.excl.congr <| Pool.Equiv.split.symm
  chain hq := by simpa using w.chain hq
  block {q j} b := by
    have hb := w.block (p := p) (i := i + 2 ^ p) (by simp)
    have hl := hb.le
    simp only [Pool.mem_hold] at b
    obtain ⟨rfl, rfl⟩ | b := b
    case inl => exact { pow := by simp, dvd := hd, le := by simp; omega }
    case inr =>
      have hn : j ≠ i := fun he => by
        have := w.excl.of_hold.not_mem (x := j) (by simp [he]) b
        exact this
      exact w.block (by simp [b]) |>.congr (by simp [hn]) rfl

-- Units that belong to no block become a held block.
theorem fresh (w : Layout bs P) (hx : ∀ x, i ≤ x → x < i + 2 ^ p → P.weight maxBlockPow (Pool.covers x) = 0)
    (hd : 2 ^ p ∣ i) (hl : i + 2 ^ p ≤ bs.totalPages % 2 ^ maxBlockPow) :
    Layout (bs.setPow i p) (P.hold p i) where
  fits  := w.fits
  chain hq := by simpa using w.chain hq
  excl x := by
    by_cases hc : i ≤ x ∧ x < i + 2 ^ p
    case pos => simp [Pool.covers_eq_one.mpr hc, hx x hc.1 hc.2]
    case neg => simpa [Pool.covers, hc] using w.excl x
  block {q j} b := by
    simp only [Pool.mem_hold] at b
    obtain ⟨rfl, rfl⟩ | b := b
    case inl => exact { pow := by simp, dvd := hd, le := by simpa using hl }
    case inr =>
      have hn : j ≠ i := fun he => by
        have := Pool.le_weight (c := Pool.covers i) (he ▸ b)
        rw [Pool.covers_self, hx i le_rfl (by simp)] at this
        exact absurd this (by decide)
      exact w.block b |>.congr (by simp [hn]) rfl

-- All blocks of a list are forgotten.
theorem drop (w : Layout bs P) (hp : p < maxBlockPow) :
    Layout (bs.setIndex p none) (P.setFree p []) where
  fits  := w.fits
  excl  := w.excl.forget hp
  chain {q} hq := by
    by_cases hn : q = p
    case neg => simpa [hn] using w.chain hq
    case pos => simp [hn]
  block {q j} b := by
    refine w.block ?_ |>.congr rfl rfl
    by_cases hn : q = p <;> simp_all [Pool.Mem]

theorem aligned (w : Layout bs P) : P.Aligned maxBlockPow :=
  fun p hp i hi => (w.block (p := p) (i := i) <| .inl ⟨hp, hi⟩).dvd

end Layout

-- The order of an entry, even if it is out of date, does not lead behind the managed pages.
def BuddySystem.Within (bs : BuddySystem) (i : Nat) : Prop :=
  i + 2 ^ bs.pow i ≤ bs.totalPages

theorem IsBlock.within {bs : BuddySystem} (b : IsBlock bs p i) : bs.Within i := by
  rw [BuddySystem.Within, b.pow]
  exact b.le_totalPages

-- What all operations keep in order.
structure Tidies (bs bs' : BuddySystem) (P P' : Pool) : Prop where
  merged : P.Merged maxBlockPow → P'.Merged maxBlockPow
  within : bs.Within i → bs'.Within i

namespace Tidies

variable {bs bs' bs'' : BuddySystem} {P P' P'' : Pool}

theorem trans (h : Tidies bs bs' P P') (h' : Tidies bs' bs'' P' P'') : Tidies bs bs'' P P'' where
  merged := h'.merged ∘ h.merged
  within := h'.within ∘ h.within

theorem refl (bs : BuddySystem) (P : Pool) : Tidies bs bs P P where
  merged := id
  within := id

-- An order that has changed is the one of a block.
theorem of_blocks (ht : bs'.totalPages = bs.totalPages) (h : ∀ i, bs'.pow i = bs.pow i ∨ ∃ p, IsBlock bs' p i)
    (hm : P.Merged maxBlockPow → P'.Merged maxBlockPow) : Tidies bs bs' P P' where
  merged := hm
  within {i} hw := by
    cases h i
    case inl hp => rwa [BuddySystem.Within, hp, ht]
    case inr hb =>
      have ⟨p, hb⟩ := hb
      exact hb.within

end Tidies

end Zgmos.Buddy
