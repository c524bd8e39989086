import Zgmos.Fat32.Confinement

-- The search for a free cluster in the file allocation table.

namespace Zgmos.Fat32

section

variable {fs : Fat32Fs}

-- The words that the search takes to be free.
def Below (table : Sector fs) (i : Nat) : Prop :=
  wordAt table (4 * i) < chainEndFlag

instance {table : Sector fs} {i : Nat} : Decidable (Below table i) :=
  inferInstanceAs <| Decidable (_ < _)

-- The inner loop.
def searchTable (table : Sector fs) (offsetInSector : Nat) : Option Nat :=
  (List.range' offsetInSector <| fs.chainPerSector - offsetInSector).find? fun i => Below table i

-- Word `i` of the table.
def tableWord (v : Volume fs) (i : Nat) : BitVec 32 :=
  wordAt (v <| .ofNat 32 <| i / fs.chainPerSector + fs.reservedSecCnt) <| 4 * (i % fs.chainPerSector)

-- The first word below the end mark, if those from `start` on come first.
structure FirstBelow (table : Sector fs) (start i : Nat) : Prop where
  lt     : i < fs.chainPerSector
  below  : Below table i
  before : ∀ k < fs.chainPerSector, (if start ≤ i then start ≤ k ∧ k < i else start ≤ k ∨ k < i) → ¬Below table k

end

namespace Fat32Geometry

variable (g : Fat32Geometry)

-- The outer loop, which stays at the sector `sidx`.
def searchTables : (fuel : Nat) → (sidx : Sidx) → (offsetInSector : Nat) → Prog g.toFat32Fs Cidx
  | 0,        _,    _              => .fail .panic
  | fuel + 1, sidx, offsetInSector =>
    if sidx < g.secPerTable then do
      let table ← .get sidx
      match searchTable table offsetInSector with
      | some i => return sidx * .ofNat 32 g.chainPerSector + .ofNat 32 i
      | none   => searchTables fuel sidx 0
    else
      return 0

def fat32SearchAvailChain (fuel : Nat) (start : Cidx) : Prog g.toFat32Fs Cidx :=
  if g.chainPerSector = 0 then .fail .divByZero else
    g.searchTables fuel (Fat32.tableSidx g.toFat32Fs start) (start.toNat % g.chainPerSector)

-- The free words of the table from `start` on.
def frees (v : Volume g.toFat32Fs) (start : Nat) : Set Nat :=
  { i | start ≤ i ∧ i < g.secPerTable.toNat * g.chainPerSector ∧ tableWord v i = 0 }

-- The first free word, or 0 if there is none.
def IsAvail (v : Volume g.toFat32Fs) (start m : Nat) : Prop :=
  IsLeast (g.frees v start) m ∨ g.frees v start = ∅ ∧ m = 0

-- The search ends with the first free word.
def FindsAvail (v : Volume g.toFat32Fs) (start : Cidx) : Prop :=
  ∃ fuel r, (g.fat32SearchAvailChain fuel start).eval v = .ok r ∧ g.IsAvail v start.toNat r.toNat

-- The words from `start` on are end marks up to a word `j` of the same sector. From there on, as many clusters are in use as
-- the reserved sectors have words, and then comes a free one.
structure UsedRun (v : Volume g.toFat32Fs) (start j : Nat) : Prop where
  le     : start ≤ j
  sector : j / g.chainPerSector = start / g.chainPerSector
  marks  : ∀ k, start ≤ k → k < j → chainEndFlag ≤ tableWord v k
  below  : tableWord v j < chainEndFlag
  used   : ∀ k, j ≤ k → k < j + g.reservedSecCnt * g.chainPerSector → tableWord v k ≠ 0
  free   : tableWord v (j + g.reservedSecCnt * g.chainPerSector) = 0
  lt     : j + g.reservedSecCnt * g.chainPerSector < min (g.secPerTable.toNat * g.chainPerSector) (2 ^ 32)

-- Without a sector to read, there must be nothing to find.
def AvailShifted (v : Volume g.toFat32Fs) (start : Cidx) : Prop :=
  if Fat32.tableSidx g.toFat32Fs start < g.secPerTable then
    ∃ j, g.UsedRun v start.toNat j
  else
    ∀ i, start.toNat ≤ i → i < g.secPerTable.toNat * g.chainPerSector → tableWord v i ≠ 0

-- The sector of `start` is not read again, and the words behind the reserved sectors have numbers of 32 bits.
structure ReadOnce (v : Volume g.toFat32Fs) (start : Cidx) : Prop where
  pos  : 0 < start.toNat
  fits : (start.toNat / g.chainPerSector + g.reservedSecCnt + 1) * g.chainPerSector ≤ 2 ^ 32
  seen : Fat32.tableSidx g.toFat32Fs start < g.secPerTable →
    ∃ k, start.toNat % g.chainPerSector ≤ k ∧ k < g.chainPerSector ∧ Below (v <| Fat32.tableSidx g.toFat32Fs start) k

end Fat32Geometry

section

variable {fs : Fat32Fs} {table : Sector fs} {start i : Nat}

theorem searchTable_eq_some (hs : start ≤ fs.chainPerSector) : searchTable table start = some i ↔
    Below table i ∧ start ≤ i ∧ i < fs.chainPerSector ∧ ∀ k, start ≤ k → k < i → ¬Below table k := by
  simp only [searchTable, List.find?_range'_eq_some, List.mem_range'_1, Nat.add_sub_cancel' hs]
  simp [and_assoc]

theorem searchTable_eq_none (hs : start ≤ fs.chainPerSector) : searchTable table start = none ↔
    ∀ k, start ≤ k → k < fs.chainPerSector → ¬Below table k := by
  simp [searchTable, Nat.add_sub_cancel' hs]

theorem firstBelow_iff (hs : start ≤ fs.chainPerSector) :
    FirstBelow table start i ↔ (searchTable table start).or (searchTable table 0) = some i := by
  apply Iff.intro
  case mp =>
    intro h
    have hb := h.before
    by_cases hi : start ≤ i
    case pos =>
      simp only [if_pos hi] at hb
      have := (searchTable_eq_some hs).mpr
        ⟨h.below, hi, h.lt, fun k hk hl => hb k (hl.trans h.lt) ⟨hk, hl⟩⟩
      rw [this, Option.some_or]
    case neg =>
      simp only [if_neg hi] at hb
      have hn := (searchTable_eq_none hs).mpr fun k hk hl => hb k hl <| .inl hk
      rw [hn, Option.none_or, searchTable_eq_some <| Nat.zero_le _]
      exact ⟨h.below, Nat.zero_le _, h.lt, fun k _ hl => hb k (hl.trans h.lt) <| .inr hl⟩
  case mpr =>
    intro h
    cases he : searchTable table start
    case some i' =>
      rw [he, Option.some_or, Option.some.injEq] at h
      subst h
      have ⟨hb, hi, hl, hk⟩ := (searchTable_eq_some hs).mp he
      exact ⟨hl, hb, fun k _ h => by rw [if_pos hi] at h; exact hk k h.1 h.2⟩
    case none =>
      rw [he, Option.none_or] at h
      have ⟨hb, _, hl, hk⟩ := (searchTable_eq_some <| Nat.zero_le _).mp h
      have hn := (searchTable_eq_none hs).mp he
      have hi : ¬start ≤ i := fun hi => hn i hi hl hb
      refine ⟨hl, hb, fun k hlt h => ?_⟩
      rw [if_neg hi] at h
      cases h
      case inl h => exact hn k h hlt
      case inr h => exact hk k (Nat.zero_le _) h

end

namespace Fat32Geometry

variable {g : Fat32Geometry} {v : Volume g.toFat32Fs} {start r : Cidx} {sidx : Sidx} {offset i fuel : Nat}

theorem searchTables_some (hs : sidx < g.secPerTable) (h : searchTable (v sidx) offset = some i) :
    (g.searchTables (fuel + 1) sidx offset).eval v = .ok (sidx * .ofNat 32 g.chainPerSector + .ofNat 32 i) := by
  rw [searchTables, if_pos hs, Program.eval_bind_ok <| Program.eval_get _, h]
  rfl

theorem searchTables_none (hs : sidx < g.secPerTable) (h : searchTable (v sidx) offset = none) :
    (g.searchTables (fuel + 1) sidx offset).eval v = (g.searchTables fuel sidx 0).eval v := by
  rw [searchTables, if_pos hs, Program.eval_bind_ok <| Program.eval_get _, h]

-- The loop reads a sector without free words again and again.
theorem searchTables_panic (hs : sidx < g.secPerTable) (h : searchTable (v sidx) 0 = none) (fuel : Nat) :
    (g.searchTables fuel sidx 0).eval v = .error .panic := by
  induction fuel
  case zero         => rfl
  case succ fuel hi => rw [searchTables_none hs h, hi]

theorem searchTables_iff (hs : sidx < g.secPerTable) :
    (∃ fuel, (g.searchTables fuel sidx offset).eval v = .ok r) ↔
      ∃ i, (searchTable (v sidx) offset).or (searchTable (v sidx) 0) = some i ∧
        r = sidx * .ofNat 32 g.chainPerSector + .ofNat 32 i := by
  cases h : searchTable (v sidx) offset
  case some i =>
    rw [Option.some_or]
    apply Iff.intro
    case mp =>
      rintro ⟨fuel, hf⟩
      cases fuel
      case zero => cases hf
      case succ =>
        rw [searchTables_some hs h] at hf
        exact ⟨i, rfl, (Except.ok.inj hf).symm⟩
    case mpr =>
      rintro ⟨_, ⟨⟩, hr⟩
      exact ⟨1, by rw [searchTables_some hs h, hr]⟩
  case none =>
    rw [Option.none_or]
    apply Iff.intro
    case mp =>
      rintro ⟨fuel, hf⟩
      cases fuel
      case zero => cases hf
      case succ fuel =>
        rw [searchTables_none hs h] at hf
        cases hz : searchTable (v sidx) 0
        case none =>
          rw [searchTables_panic hs hz] at hf
          cases hf
        case some i =>
          cases fuel
          case zero => cases hf
          case succ =>
            rw [searchTables_some hs hz] at hf
            exact ⟨i, rfl, (Except.ok.inj hf).symm⟩
    case mpr =>
      rintro ⟨i, hz, hr⟩
      exact ⟨2, by rw [searchTables_none hs h, searchTables_some hs hz, hr]⟩

-- What the search returns.
theorem fat32SearchAvailChain_iff (hc : g.chainPerSector ≠ 0) :
    (∃ fuel, (g.fat32SearchAvailChain fuel start).eval v = .ok r) ↔
      if Fat32.tableSidx g.toFat32Fs start < g.secPerTable then
        ∃ i, FirstBelow (v <| Fat32.tableSidx g.toFat32Fs start) (start.toNat % g.chainPerSector) i ∧
          r.toNat = ((start.toNat / g.chainPerSector + g.reservedSecCnt) * g.chainPerSector + i) % 2 ^ 32
      else r.toNat = 0 := by
  simp only [fat32SearchAvailChain, if_neg hc]
  have hm : start.toNat % g.chainPerSector ≤ g.chainPerSector :=
    (Nat.mod_lt _ <| Nat.pos_of_ne_zero hc).le
  split_ifs with hs
  case pos =>
    rw [searchTables_iff hs]
    refine exists_congr fun i => and_congr (firstBelow_iff hm).symm ?_
    rw [← BitVec.toNat_inj]
    simp [Fat32.tableSidx, BitVec.toNat_add, BitVec.toNat_mul, Nat.add_mod, Nat.mul_mod]
  case neg =>
    have h (fuel : Nat) : (g.searchTables (fuel + 1) (Fat32.tableSidx g.toFat32Fs start)
        (start.toNat % g.chainPerSector)).eval v = .ok 0 := by
      rw [searchTables, if_neg hs]
      rfl
    apply Iff.intro
    case mp =>
      rintro ⟨fuel, hf⟩
      cases fuel
      case zero => cases hf
      case succ =>
        rw [h] at hf
        exact congrArg _ (Except.ok.inj hf).symm
    case mpr =>
      intro hr
      have hz : r = 0 := BitVec.eq_of_toNat_eq hr
      exact ⟨1, hz ▸ h 0⟩

-- The words of the sector of `start`.
theorem tableWord_sector {j : Nat} (hj : j / g.chainPerSector = start.toNat / g.chainPerSector) :
    tableWord v j = wordAt (v <| Fat32.tableSidx g.toFat32Fs start) (4 * (j % g.chainPerSector)) := by
  rw [tableWord, hj]
  rfl

theorem div_sector {k : Nat} (hk : k < g.chainPerSector) (b : Nat) :
    (b * g.chainPerSector + k) / g.chainPerSector = b ∧ (b * g.chainPerSector + k) % g.chainPerSector = k := by
  have hc : 0 < g.chainPerSector := Nat.zero_lt_of_lt hk
  rw [Nat.mul_comm, Nat.mul_add_div hc, Nat.div_eq_of_lt hk, Nat.mul_add_mod, Nat.mod_eq_of_lt hk]
  exact ⟨Nat.add_zero b, rfl⟩

-- The first word below the end mark, if it is not in front of `start`.
theorem firstBelow_sector {j : Nat} (hc : g.chainPerSector ≠ 0) (hs : start.toNat ≤ j)
    (hj : j / g.chainPerSector = start.toNat / g.chainPerSector) :
    FirstBelow (v <| Fat32.tableSidx g.toFat32Fs start) (start.toNat % g.chainPerSector) (j % g.chainPerSector) ↔
      tableWord v j < chainEndFlag ∧ ∀ k, start.toNat ≤ k → k < j → chainEndFlag ≤ tableWord v k := by
  have hc := Nat.pos_of_ne_zero hc
  have hdj := Nat.div_add_mod j g.chainPerSector
  have hds := Nat.div_add_mod start.toNat g.chainPerSector
  rw [hj] at hdj
  have hle : start.toNat % g.chainPerSector ≤ j % g.chainPerSector := by omega
  rw [tableWord_sector hj]
  apply Iff.intro
  case mp =>
    intro h
    refine ⟨h.below, fun k hk hl => ?_⟩
    have hk' : k / g.chainPerSector = start.toNat / g.chainPerSector :=
      le_antisymm (hj ▸ Nat.div_le_div_right hl.le) (Nat.div_le_div_right hk)
    have hdk := Nat.div_add_mod k g.chainPerSector
    rw [hk'] at hdk
    have hb := h.before (k % g.chainPerSector) (Nat.mod_lt _ hc) <| by
      rw [if_pos hle]
      omega
    rw [tableWord_sector hk']
    exact BitVec.not_lt.mp hb
  case mpr =>
    rintro ⟨hb, hm⟩
    refine ⟨Nat.mod_lt _ hc, hb, fun k hk hl hbk => ?_⟩
    rw [if_pos hle] at hl
    have hdk := div_sector hk (start.toNat / g.chainPerSector)
    have hw := @tableWord_sector g v start _ hdk.1
    rw [hdk.2] at hw
    have := hm (start.toNat / g.chainPerSector * g.chainPerSector + k) (by rw [Nat.mul_comm]; omega) <| by
      rw [Nat.mul_comm]
      omega
    rw [hw] at this
    exact BitVec.not_lt.mpr this hbk

namespace UsedRun

variable {j : Nat} (h : g.UsedRun v start.toNat j)

include h

theorem isLeast : IsLeast (g.frees v start.toNat) (j + g.reservedSecCnt * g.chainPerSector) := by
  refine ⟨⟨h.le.trans <| Nat.le_add_right .., lt_min_iff.mp h.lt |>.1, h.free⟩, ?_⟩
  rintro k ⟨hk, _, hz⟩
  by_contra hl
  cases Nat.lt_or_ge k j
  case inl hj =>
    have := h.marks k hk hj
    rw [hz] at this
    exact absurd this <| by decide
  case inr hj => exact h.used k hj (Nat.lt_of_not_le hl) hz

theorem shift : j + g.reservedSecCnt * g.chainPerSector =
    ((start.toNat / g.chainPerSector + g.reservedSecCnt) * g.chainPerSector + j % g.chainPerSector) % 2 ^ 32 := by
  have hd := Nat.div_add_mod j g.chainPerSector
  rw [h.sector, Nat.mul_comm] at hd
  rw [Nat.add_mul, Nat.add_right_comm, hd, Nat.mod_eq_of_lt <| lt_min_iff.mp h.lt |>.2]

end UsedRun

-- The search ends with the first free word if that word happens to be where the search ends, and only then if the sector
-- is read once.
theorem fat32SearchAvailChain_finds (h : start.toNat < g.secPerTable.toNat * g.chainPerSector) :
    (g.AvailShifted v start → g.FindsAvail v start) ∧
      (g.ReadOnce v start → g.FindsAvail v start → g.AvailShifted v start) := by
  have hc : g.chainPerSector ≠ 0 := by
    rintro hc
    rw [hc, Nat.mul_zero] at h
    exact absurd h <| Nat.not_lt_zero _
  have hr (r : Cidx) := @fat32SearchAvailChain_iff g v start r hc
  unfold AvailShifted
  split_ifs with hs
  all_goals simp only [hs, if_true, if_false] at hr
  case pos =>
    refine ⟨?_, fun ho ⟨fuel, r, he, ha⟩ => ?_⟩
    case refine_1 =>
      rintro ⟨j, hj⟩
      have ht : (BitVec.ofNat 32 (j + g.reservedSecCnt * g.chainPerSector)).toNat = j + g.reservedSecCnt * g.chainPerSector :=
        Nat.mod_eq_of_lt <| lt_min_iff.mp hj.lt |>.2
      have hb := (firstBelow_sector hc hj.le hj.sector).mpr ⟨hj.below, hj.marks⟩
      obtain ⟨fuel, he⟩ := (hr _).mpr ⟨_, hb, ht.trans hj.shift⟩
      exact ⟨fuel, _, he, .inl <| ht.symm ▸ hj.isLeast⟩
    case refine_2 =>
      obtain ⟨i, hb, hi⟩ := (hr r).mp ⟨fuel, he⟩
      obtain ⟨k, hk, hkl, hkb⟩ := ho.seen hs
      have hle : start.toNat % g.chainPerSector ≤ i := by
        by_contra hn
        exact hb.before k hkl (by rw [if_neg hn]; exact .inl hk) hkb
      have hd := div_sector hb.lt (start.toNat / g.chainPerSector)
      have hds := Nat.div_add_mod' start.toNat g.chainPerSector
      have hpos := ho.pos
      have hfits := ho.fits
      have hlt := hb.lt
      rw [Nat.add_mul, Nat.one_mul] at hfits
      rw [Nat.mod_eq_of_lt <| by omega, Nat.add_mul, Nat.add_right_comm] at hi
      refine ⟨start.toNat / g.chainPerSector * g.chainPerSector + i, ?_⟩
      have hj : start.toNat ≤ start.toNat / g.chainPerSector * g.chainPerSector + i := by omega
      obtain ⟨hbelow, hmarks⟩ := (firstBelow_sector hc hj hd.1).mp <| hd.2.symm ▸ hb
      cases ha
      case inr ha => omega
      case inl ha =>
        rw [hi] at ha
        refine ⟨hj, hd.1, hmarks, hbelow, fun k hk hl hz => ?_, ha.1.2.2, lt_min ha.1.2.1 <| hi ▸ r.isLt⟩
        exact Nat.not_le.mpr hl <| ha.2 ⟨hj.trans hk, hl.trans ha.1.2.1, hz⟩
  case neg =>
    refine ⟨fun hn => ?_, fun ho ⟨fuel, r, he, ha⟩ i hi hl hz => ?_⟩
    case refine_1 =>
      obtain ⟨fuel, he⟩ := (hr 0).mpr rfl
      exact ⟨fuel, 0, he, .inr ⟨Set.eq_empty_of_forall_notMem fun i hi => hn i hi.1 hi.2.1 hi.2.2, rfl⟩⟩
    case refine_2 =>
      have hz' := (hr r).mp ⟨fuel, he⟩
      have hm : i ∈ g.frees v start.toNat := ⟨hi, hl, hz⟩
      cases ha
      case inl ha => exact absurd (hz' ▸ ha.1.1) <| Nat.not_le.mpr ho.pos
      case inr ha =>
        rw [ha.1] at hm
        cases hm

theorem sampleVolume_word {sidx : Sidx} {i : Nat} (hi : i < 128) : wordAt (sampleVolume sidx) (4 * i) = 0xffffffff := by
  have hb : sample.bytePerSector = 512 := rfl
  simp only [wordAt, byteAt, sampleVolume, hb]
  rw [dif_pos <| by omega, dif_pos <| by omega, dif_pos <| by omega, dif_pos <| by omega]
  rfl

-- The table reaches behind the sectors that the search counts as its own.
def wideGeometry : Fat32Geometry :=
  { sampleGeometry with secPerTable := 64 }

-- All clusters but 4098 are in use.
def crowded : Volume wideGeometry.toFat32Fs :=
  fun sidx k => if sidx = 64 ∧ k.val / 4 = 2 then 0 else 1

theorem crowded_word (sidx : Sidx) {i : Nat} (hi : i < 128) :
    wordAt (crowded sidx) (4 * i) = if sidx = 64 ∧ i = 2 then 0 else 0x01010101 := by
  have hb : wideGeometry.bytePerSector = 512 := rfl
  have hbyte {k : Nat} (hk : k < 4) : byteAt (crowded sidx) (4 * i + k) = if sidx = 64 ∧ i = 2 then 0 else 1 := by
    rw [byteAt, dif_pos <| by omega, crowded]
    exact if_congr (and_congr_right fun _ => by dsimp only; omega) rfl rfl
  rw [wordAt, hbyte (by decide), hbyte (by decide), hbyte (by decide), show 4 * i = 4 * i + 0 from rfl, hbyte (by decide)]
  split_ifs
  case pos => rfl
  case neg => rfl

theorem crowded_finds : wideGeometry.FindsAvail crowded 2 := by
  have hw {i : Nat} (hi : i < 8192) : tableWord crowded i = if i = 4098 then 0 else 0x01010101 := by
    refine (crowded_word _ <| Nat.mod_lt i <| by decide).trans <| if_congr ?_ rfl rfl
    have h₁ : wideGeometry.chainPerSector = 128 := rfl
    have h₂ : wideGeometry.reservedSecCnt = 32 := rfl
    rw [h₁, h₂, ← BitVec.toNat_inj, BitVec.toNat_ofNat]
    simp only [BitVec.reduceToNat]
    omega
  have hr : wideGeometry.reservedSecCnt * wideGeometry.chainPerSector = 4096 := rfl
  refine (fat32SearchAvailChain_finds <| by decide).1 ?_
  rw [AvailShifted, if_pos <| by decide]
  refine ⟨2, le_rfl, rfl, fun k hk hl => absurd hk <| Nat.not_le.mpr hl, ?_, fun k hk hl => ?_, ?_, by decide⟩
  case refine_1 => rw [hw <| by decide]; decide
  case refine_2 =>
    rw [hr] at hl
    rw [hw <| by omega, if_neg <| by omega]
    decide
  case refine_3 => rw [hr, hw <| by decide]; rfl

def blank : Volume wideGeometry.toFat32Fs :=
  fun _ _ => 0

theorem blank_word (sidx : Sidx) (i : Nat) : wordAt (blank sidx) i = 0 := by
  simp [wordAt, byteAt, blank]

-- In a table without free words the search does not end. In an empty one it takes word 4098 instead of word 2.
theorem wideGeometry_not_finds :
    ¬wideGeometry.FindsAvail sampleVolume 2 ∧ ¬wideGeometry.FindsAvail blank 2 := by
  have hc : wideGeometry.chainPerSector ≠ 0 := by decide
  have hs : Fat32.tableSidx wideGeometry.toFat32Fs 2 < wideGeometry.secPerTable := by decide
  apply And.intro
  case left =>
    rintro ⟨fuel, r, he, _⟩
    have h := (@fat32SearchAvailChain_iff wideGeometry sampleVolume 2 r hc).mp ⟨fuel, he⟩
    rw [if_pos hs] at h
    have ⟨i, hf, _⟩ := h
    exact absurd (lt_of_eq_of_lt (sampleVolume_word hf.lt).symm hf.below) <| by decide
  case right =>
    rintro ⟨fuel, r, he, ha⟩
    have h := (@fat32SearchAvailChain_iff wideGeometry blank 2 r hc).mp ⟨fuel, he⟩
    rw [if_pos hs] at h
    have ⟨i, hf, hr⟩ := h
    have hb : Below (blank <| Fat32.tableSidx wideGeometry.toFat32Fs 2) 2 :=
      lt_of_eq_of_lt (blank_word _ _) <| by decide
    have hi : 2 ≤ i := by
      cases Nat.lt_or_ge i 2
      case inl hlt =>
        have hn : ¬BitVec.toNat (2 : Cidx) % wideGeometry.chainPerSector ≤ i := Nat.not_le.mpr hlt
        exact absurd hb <| hf.before 2 (by decide) <| by rw [if_neg hn]; exact .inl le_rfl
      case inr hge => exact hge
    have hr : 4098 ≤ r.toNat := by
      have hl : i < 128 := hf.lt
      have hd : (BitVec.toNat (2 : Cidx) / wideGeometry.chainPerSector + wideGeometry.reservedSecCnt) *
          wideGeometry.chainPerSector = 4096 := rfl
      rw [hr, hd]
      omega
    have ht : BitVec.toNat (2 : Cidx) = 2 := rfl
    have hm : 2 ∈ wideGeometry.frees blank (BitVec.toNat (2 : Cidx)) := ⟨ht.le, by decide, blank_word _ _⟩
    cases ha
    case inl h => exact absurd (hr.trans <| h.2 hm) <| by decide
    case inr h =>
      rw [h.1] at hm
      cases hm

end Fat32Geometry
end Zgmos.Fat32
