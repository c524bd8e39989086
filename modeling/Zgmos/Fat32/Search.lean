import Zgmos.Fat32.Traversal
import Zgmos.Lib.Streak

-- The search for free slots in a row.

namespace Zgmos.Fat32

-- Slot `p` of the clusters `cs` in the coordinates of a cluster and a slot of it.
def DirEntryPos.Names (fs : Fat32Fs) (cs : List Cidx) (pos : DirEntryPos) (p : Nat) : Prop :=
  cs[p / slotsPerCluster fs]? = some pos.entryCidx ∧ pos.entryOffset = p % slotsPerCluster fs

abbrev FreeRun (num : BitVec 32) (es : List Slot) (p : Nat) : Prop :=
  es.Streak Slot.isFree num.toNat p

-- The position of the first run.
def FirstRun (fs : Fat32Fs) (num : BitVec 32) (cs : List Cidx) (es : List Slot) (pos : DirEntryPos) : Prop :=
  ∃ p, pos.Names fs cs p ∧ IsLeast { p | FreeRun num es p } p

-- The variables after the slots `es`, of which the last ones are the free slots that are counted.
inductive Avail.Counts (fs : Fat32Fs) (num : BitVec 32) (cs : List Cidx) (es : List Slot) (st : Avail) : Prop
  | used : st.last = false → es.Trailing Slot.isFree num.toNat 0 → Counts fs num cs es st
  | free : st.last = true → es.Trailing Slot.isFree num.toNat st.cnt.toNat →
    st.pos.Names fs cs (es.length - st.cnt.toNat) → Counts fs num cs es st

-- What a loop comes to over the slots `es`.
def Searched (fs : Fat32Fs) (num : BitVec 32) (cs : List Cidx) (es : List Slot) : Avail ⊕ DirEntryPos → Prop
  | .inl st  => st.Counts fs num cs es
  | .inr pos => FirstRun fs num cs es pos

variable {fs : Fat32Fs} {v : Volume fs} {cidx : Cidx} {cs done rest : List Cidx} {es es' : List Slot} {e : Slot}
  {num : BitVec 32} {st : Avail} {pos : DirEntryPos} {p k j n fuel : Nat} {dir : Fat32Obj}

theorem FirstRun.append (h : FirstRun fs num cs es pos) (hn : 0 < num.toNat) (es' : List Slot) :
    FirstRun fs num cs (es ++ es') pos :=
  have ⟨p, hp, hl⟩ := h
  ⟨p, hp, List.isLeast_streak_append hn hl es'⟩

theorem Searched.append (h : Searched fs num cs es (.inr pos)) (hn : 0 < num.toNat) (es' : List Slot) :
    Searched fs num cs (es ++ es') (.inr pos) :=
  FirstRun.append h hn es'

namespace Avail.Counts

variable (w : st.Counts fs num cs es)

include w

theorem num_pos : 0 < num.toNat := by
  cases w
  case used w   => exact w.lt
  case free w _ => exact Nat.zero_lt_of_lt w.lt

theorem skip (he : ¬e.isFree) : Counts fs num cs (es ++ [e]) { st with last := false } := by
  apply used rfl
  cases w
  case used w   => exact w.concat_neg he
  case free w _ => exact w.concat_neg he

-- A free slot after a used one is the first of its run.
theorem first (he : e.isFree) (hl : st.last = false) (hp : pos.Names fs cs es.length) :
    if 1 = num then FirstRun fs num cs (es ++ [e]) pos
    else Counts fs num cs (es ++ [e]) { last := true, cnt := 1, pos } := by
  cases w
  case free h _ _ => cases hl.symm.trans h
  case used _ w =>
    split_ifs
    case pos hn => exact ⟨es.length, hp, w.isLeast he <| by simp [← hn]⟩
    case neg hn =>
      have hlt : 0 + 1 < num.toNat := by
        have := w.lt
        have : num.toNat ≠ 1 := fun h => hn <| (BitVec.eq_of_toNat_eq h).symm
        omega
      exact free rfl (w.concat_pos he hlt) <| by simpa using hp

theorem next (he : e.isFree) (hl : st.last = true) :
    if st.cnt + 1 = num then FirstRun fs num cs (es ++ [e]) st.pos
    else Counts fs num cs (es ++ [e]) { st with last := true, cnt := st.cnt + 1 } := by
  cases w
  case used h _ => cases hl.symm.trans h
  case free _ w hp =>
    have hlt := w.lt
    have hnum := num.isLt
    have hc : (st.cnt + 1).toNat = st.cnt.toNat + 1 := by
      rw [BitVec.toNat_add]
      exact Nat.mod_eq_of_lt <| by simp; omega
    split_ifs
    case pos hn => exact ⟨_, hp, w.isLeast he <| by rw [← hn, hc]⟩
    case neg hn =>
      have hlt : st.cnt.toNat + 1 < num.toNat := by
        have : num.toNat ≠ st.cnt.toNat + 1 := fun h => hn <| BitVec.eq_of_toNat_eq <| by rw [hc, h]
        omega
      apply free rfl
      case a => simpa only [hc] using w.concat_pos he hlt
      case a => simpa only [hc, List.length_append, List.length_singleton, Nat.add_sub_add_right] using hp

end Avail.Counts

-- The cluster of the coordinates is the one in which the slot lies.
theorem names_slot (hc : cs[n]? = some cidx) (hp : p < slotsPerCluster fs) (hl : k = n * slotsPerCluster fs + p) :
    DirEntryPos.Names fs cs { entryCidx := cidx, entryOffset := p } k := by
  have hd : k / slotsPerCluster fs = n := by
    rw [hl, Nat.add_comm, Nat.add_mul_div_right _ _ (Nat.zero_lt_of_lt hp), Nat.div_eq_of_lt hp, Nat.zero_add]
  have hm : k % slotsPerCluster fs = p := by
    rw [hl, Nat.add_comm, Nat.add_mul_mod_self_right, Nat.mod_eq_of_lt hp]
  exact ⟨by rw [hd, hc], hm.symm⟩

section Loops

variable (hb : 32 ∣ fs.bytePerSector) (hc : cs[n]? = some cidx)

include hb hc

theorem searchSector_searched {m : Nat} (dat : Sector fs) (hk : k < fs.secPerCluster) (hj : j + m = slotsPerSector fs)
    (hl : es.length = n * slotsPerCluster fs + (k * slotsPerSector fs + j)) (w : st.Counts fs num cs es) :
    Searched fs num cs (es ++ (List.range' j m).map fun j => slotAt dat (32 * j))
      (searchSector dat cidx num k m (32 * j) st) := by
  induction m generalizing j es st
  case zero => simpa [searchSector, Searched] using w
  case succ m hi =>
    rw [List.range'_succ, List.map_cons, List.append_cons, searchSector]
    have hl' : (es ++ [slotAt dat (32 * j)]).length = n * slotsPerCluster fs + (k * slotsPerSector fs + (j + 1)) := by
      rw [List.length_append, hl]
      rfl
    have ho : (k * fs.bytePerSector + 32 * j) / 32 = k * slotsPerSector fs + j := by
      have hs : fs.bytePerSector = 32 * slotsPerSector fs := (Nat.mul_div_cancel' hb).symm
      rw [hs, Nat.mul_left_comm, ← Nat.mul_add, Nat.mul_div_cancel_left _ (by decide)]
    have hp : k * slotsPerSector fs + j < slotsPerCluster fs := by
      have := Nat.mul_le_mul_right (slotsPerSector fs) <| Nat.succ_le_of_lt hk
      rw [Nat.succ_mul] at this
      rw [slotsPerCluster]
      omega
    cases he : (slotAt dat (32 * j)).isFree
    case false =>
      simp only [Bool.false_eq_true, if_false]
      exact hi (by omega) hl' <| w.skip <| by simp [he]
    case true =>
      cases hs : st.last
      case false =>
        have := w.first he hs <| names_slot hc hp hl
        simp only [if_true, Bool.false_eq_true, if_false, ho]
        split_ifs at this ⊢
        case pos => exact Searched.append this w.num_pos _
        case neg => exact hi (by omega) hl' this
      case true =>
        have := w.next he hs
        simp only [if_true]
        split_ifs at this ⊢
        case pos => exact Searched.append this w.num_pos _
        case neg => exact hi (by omega) hl' this

theorem searchSectors_searched {m : Nat} (hk : k + m = fs.secPerCluster)
    (hl : es.length = n * slotsPerCluster fs + k * slotsPerSector fs) (w : st.Counts fs num cs es) :
    ∃ r, (searchSectors cidx num m k st).eval v = .ok r ∧
      Searched fs num cs (es ++ (List.range' k m).flatMap fun k => sectorSlots <| v <| clusterSidx fs cidx k) r := by
  induction m generalizing k es st
  case zero => exact ⟨.inl st, rfl, by simpa [Searched] using w⟩
  case succ m hi =>
    have hn : (fs.bytePerSector + 31) / 32 = slotsPerSector fs := by
      unfold slotsPerSector
      omega
    have hs := searchSector_searched hb hc (v <| clusterSidx fs cidx k) (by omega) (Nat.zero_add _) hl w
    rw [List.range'_succ, List.flatMap_cons, ← List.append_assoc, searchSectors,
      Program.eval_bind_ok (Program.eval_get _), hn]
    cases hr : searchSector (v <| clusterSidx fs cidx k) cidx num k (slotsPerSector fs) 0 st
    case inr pos =>
      rw [Nat.mul_zero, hr] at hs
      exact ⟨.inr pos, rfl, hs.append w.num_pos _⟩
    case inl st' =>
      rw [Nat.mul_zero, hr] at hs
      exact hi (by omega) (by simp [hl, Nat.succ_mul, Nat.add_assoc]) hs

end Loops

theorem searchClusters_searched (hb : 32 ∣ fs.bytePerSector) (h : Chain v cidx rest) (hf : rest.length < fuel)
    (w : st.Counts fs num (done ++ rest) (chainSlots v done)) :
    ∃ r, (searchClusters num fuel cidx st).eval v = .ok r ∧ match r with
      | none     => ∀ p, ¬FreeRun num (chainSlots v (done ++ rest)) p
      | some pos => FirstRun fs num (done ++ rest) (chainSlots v (done ++ rest)) pos := by
  obtain ⟨f, he⟩ := Nat.exists_eq_succ_of_ne_zero <| Nat.ne_zero_of_lt hf
  induction h generalizing done fuel f st
  case nil h =>
    refine ⟨none, by rw [he, searchClusters, if_neg <| BitVec.not_lt.mpr h]; rfl, ?_⟩
    rw [List.append_nil]
    cases w
    case used w   => exact w.none
    case free w _ => exact w.none
  case cons cidx cidx' rest hlt hg hr hi =>
    rw [List.length_cons] at hf
    have hc : (done ++ cidx :: rest)[done.length]? = some cidx := by simp
    have hl : (chainSlots v done).length = done.length * slotsPerCluster fs + 0 * slotsPerSector fs := by
      simp [chainSlots, List.length_flatMap]
    obtain ⟨r, hs, w'⟩ := @searchSectors_searched fs v cidx _ _ num st 0 done.length hb hc _ (Nat.zero_add _) hl w
    have hd : chainSlots v done ++ clusterSlots v cidx = chainSlots v (done ++ [cidx]) := by
      simp [chainSlots]
    rw [← clusterSlots, hd] at w'
    rw [he, searchClusters, if_pos hlt, Program.eval_bind_ok hs, List.append_cons]
    rw [List.append_cons] at w'
    cases r
    case inr pos =>
      refine ⟨some pos, rfl, ?_⟩
      have := w'.append w.num_pos <| chainSlots v rest
      rwa [chainSlots, chainSlots, ← List.flatMap_append] at this
    case inl st' =>
      simp only [Program.eval_bind_ok hg]
      exact hi (by omega) w' (f - 1) (by omega)

-- The search finds the first run of free slots in the concatenation of the clusters, if there is one.
theorem fat32SearchInDirEntry_finds (hb : 32 ∣ fs.bytePerSector) (h : Chain v dir.cidx cs) (hn : 0 < num)
    (hf : cs.length < fuel) : ∃ r, (fat32SearchInDirEntry fuel dir num).eval v = .ok r ∧
      (r.isSome ↔ ∃ p, FreeRun num (chainSlots v cs) p) ∧ ∀ pos ∈ r, FirstRun fs num cs (chainSlots v cs) pos := by
  have w : Avail.Counts fs num ([] ++ cs) (chainSlots v [])
      { last := false, cnt := 0, pos := { entryCidx := 0, entryOffset := 0 } } :=
    .used rfl <| List.Trailing.nil hn
  have ⟨r, he, hr⟩ := searchClusters_searched hb h hf w
  refine ⟨r, he, ?_⟩
  cases r
  case none => exact ⟨⟨nofun, fun ⟨p, hp⟩ => absurd hp (hr p)⟩, nofun⟩
  case some pos =>
    have ⟨p, _, hp⟩ := hr
    exact ⟨⟨fun _ => ⟨p, hp.1⟩, fun _ => rfl⟩, fun _ h => Option.some.inj h ▸ hr⟩

-- The run of 20 slots ends in the second sector of the cluster.
theorem uniform_finds : ∃ pos,
    (fat32SearchInDirEntry 2 sampleDirectory 20).eval (uniform 0) = .ok (some pos) ∧
      pos.entryCidx = 3 ∧ pos.entryOffset = 0 := by
  obtain ⟨r, he, hi, hr⟩ := @fat32SearchInDirEntry_finds _ (uniform 0) _ 20 2 sampleDirectory (by decide)
    (uniform_chain 0) (by decide) (by decide)
  have h : FreeRun 20 (chainSlots (uniform 0) [3]) 0 := by
    apply List.Streak.of_forall
    case h =>
      intro e h
      have h₀ : e 0 = 0 := uniform_slot (by simpa [chainSlots] using h) (by decide)
      simp [Slot.isFree, h₀, dirnameResFree]
    case hp => rw [chainSlots, List.flatMap_singleton, clusterSlots_length]; decide
  cases r
  case none     => cases hi.mpr ⟨0, h⟩
  case some pos =>
    obtain ⟨p, hn, hl⟩ := hr pos rfl
    cases Nat.eq_zero_of_le_zero <| hl.2 h
    exact ⟨pos, he, Option.some.inj hn.1.symm, hn.2⟩

end Zgmos.Fat32
