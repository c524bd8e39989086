import Zgmos.Fat32.Completeness
import Zgmos.Fat32.Decoding

-- The loops over the clusters end with a result if the links do, and a read ends in any case.

namespace Zgmos.Fat32

variable {fs : Fat32Fs} {α : Type}

-- A call with enough fuel has a result.
def Returns (v : Volume fs) (call : (fuel : Nat) → Prog fs α) : Prop :=
  ∃ fuel r, (call fuel).eval v = .ok r

variable {v : Volume fs} {cidx : Cidx} {cs : List Cidx} {obj : Fat32Obj} {st : Fns} {num : BitVec 32}
  {p n fuel sidxOffset byteOffset : Nat}

-- The loop over the clusters looks at the slots of the chain.
theorem iterClusters_returns (l : Aligned fs) (h : Chain v cidx cs) (hp : p < slotsPerCluster fs) (hf : cs.length < fuel)
    {r : Fns ⊕ Fat32Obj} (hl : look fs obj st ((chainSlots v cs).drop p) = .ok r) :
    ∃ r, (iterClusters obj fuel cidx (place fs p).1 (place fs p).2 st).eval v = .ok r := by
  induction h generalizing fuel p st
  all_goals obtain ⟨fuel, rfl⟩ := Nat.exists_eq_succ_of_ne_zero <| Nat.ne_zero_of_lt hf
  case nil hc =>
    rw [iterClusters, if_neg <| BitVec.not_lt.mpr hc]
    exact ⟨_, rfl⟩
  case cons cidx cidx' cs hlt hg _ hi =>
    have he := @iterSectors_eval fs v cidx obj st p l hp
    rw [chainSlots_drop hp, look_append, ← scan_look (p := p)] at hl
    cases hs : scan fs obj p st ((clusterSlots v cidx).drop p)
    all_goals rw [hs] at he hl
    case error => cases hl
    case ok r  =>
      cases r
      case inl st' =>
        rw [iterClusters_inl hlt he, hg]
        have := @hi st' 0 fuel l.slotsPerCluster_pos (by simpa using hf) hl
        rwa [place_zero] at this
      case inr r =>
        obtain ⟨k, obj'⟩ := r
        obtain ⟨iter, ha⟩ := iterAdvance_ok l v cidx (k / slotsPerSector fs) (32 * (k % slotsPerSector fs)) (id obj').type
        exact ⟨some (iter, obj'), by rw [iterClusters_inr hlt he, ha]; rfl⟩

-- The loop ends without an entry only behind the last cluster.
theorem exists_chain_of_iterClusters
    (h : (iterClusters obj fuel cidx sidxOffset byteOffset st).eval v = .ok none) : ∃ cs, Chain v cidx cs := by
  induction fuel generalizing cidx sidxOffset byteOffset st
  case zero => cases h
  case succ fuel hi =>
    rw [iterClusters] at h
    split_ifs at h
    case neg hlt => exact ⟨[], .nil <| BitVec.not_lt.mp hlt⟩
    case pos hlt =>
      rw [Program.eval_bind] at h
      obtain ⟨r, _, h⟩ := Except.bind_eq_ok.mp h
      cases r
      case inl =>
        rw [Program.eval_bind] at h
        obtain ⟨cidx', hg, h⟩ := Except.bind_eq_ok.mp h
        obtain ⟨cs, hc⟩ := hi h
        exact ⟨cidx :: cs, .cons hlt hg hc⟩
      case inr =>
        rw [Program.eval_bind] at h
        obtain ⟨_, _, h⟩ := Except.bind_eq_ok.mp h
        cases h

theorem searchSectors_returns {st : Avail} (v : Volume fs) (cidx : Cidx) :
    ∃ r, (searchSectors cidx num n sidxOffset st : Prog fs _).eval v = .ok r := by
  induction n generalizing sidxOffset st
  case zero => exact ⟨_, rfl⟩
  case succ n hi =>
    rw [searchSectors, Program.eval_bind_ok (Program.eval_get _)]
    cases searchSector (v <| clusterSidx fs cidx sidxOffset) cidx num sidxOffset ((fs.bytePerSector + 31) / 32) 0 st
    case inl => exact hi
    case inr => exact ⟨_, rfl⟩

theorem searchClusters_returns {st : Avail} (h : Chain v cidx cs) (hf : cs.length < fuel) :
    ∃ r, (searchClusters num fuel cidx st).eval v = .ok r := by
  induction h generalizing fuel st
  all_goals obtain ⟨fuel, rfl⟩ := Nat.exists_eq_succ_of_ne_zero <| Nat.ne_zero_of_lt hf
  case nil hc =>
    rw [searchClusters, if_neg <| BitVec.not_lt.mpr hc]
    exact ⟨_, rfl⟩
  case cons cidx cidx' cs hlt hg _ hi =>
    obtain ⟨r, hr⟩ := @searchSectors_returns fs num fs.secPerCluster 0 st v cidx
    rw [searchClusters, if_pos hlt, Program.eval_bind_ok hr]
    cases r
    case inl =>
      refine (congrArg (∃ r, · = Except.ok r) <| Program.eval_bind_ok hg).mpr ?_
      exact hi <| by simpa using hf
    case inr => exact ⟨_, rfl⟩

theorem exists_chain_of_searchClusters {st : Avail} (h : (searchClusters num fuel cidx st).eval v = .ok none) :
    ∃ cs, Chain v cidx cs := by
  induction fuel generalizing cidx st
  case zero => cases h
  case succ fuel hi =>
    rw [searchClusters] at h
    split_ifs at h
    case neg hlt => exact ⟨[], .nil <| BitVec.not_lt.mp hlt⟩
    case pos hlt =>
      rw [Program.eval_bind] at h
      obtain ⟨r, _, h⟩ := Except.bind_eq_ok.mp h
      cases r
      case inr => cases h
      case inl =>
        rw [Program.eval_bind] at h
        obtain ⟨cidx', hg, h⟩ := Except.bind_eq_ok.mp h
        obtain ⟨cs, hc⟩ := hi h
        exact ⟨cidx :: cs, .cons hlt hg hc⟩

-- The search for a name is a part of the listing.
theorem findInDir_returns {iter : DirectoryIter} {objs : List Fat32Obj} (fn : Name)
    (h : (listDirectory fuel n iter obj).eval v = .ok objs) : ∃ r, (findInDir fuel fn n iter obj).eval v = .ok r := by
  induction n generalizing iter obj objs
  case zero => cases h
  case succ n hi =>
    rw [listDirectory, Program.eval_bind] at h
    obtain ⟨r, hr, h⟩ := Except.bind_eq_ok.mp h
    rw [findInDir, Program.eval_bind_ok hr]
    cases r
    case none   => exact ⟨_, rfl⟩
    case some r =>
      obtain ⟨iter', obj'⟩ := r
      dsimp only
      split_ifs
      case pos => exact ⟨_, rfl⟩
      case neg =>
        rw [Program.eval_bind] at h
        obtain ⟨objs', h, _⟩ := Except.bind_eq_ok.mp h
        exact hi h

theorem fat32FindInDir_returns {dir : Fat32Obj} (l : Aligned fs) (h : Walk v dir.cidx cs)
    (hb : AllBounded fs (chainSlots v cs)) (fn : Name) : Returns v fun fuel => fat32FindInDir fuel dir fn obj := by
  obtain ⟨objs, ho⟩ := (@exists_listSlots_iff fs obj _).mpr hb
  have hl : (listDirectory (cs.length + objs.length + 1) (cs.length + objs.length + 1) (fat32IterStart dir) obj).evalIn
      (fun _ => True) v = some objs := by
    have := @listing_complete fs v dir.cidx cs obj .init 0 (cs.length + objs.length) (cs.length + objs.length + 1)
      (cs.length + objs.length + 1) (fun _ => True) objs l (by omega) h (fun _ _ => trivial) l.slotsPerCluster_pos
      (by omega) (by omega) ho
    rw [place_zero] at this
    rwa [listDirectory_succ]
  exact ⟨_, findInDir_returns fn <| eval_of_evalIn hl⟩

theorem skipChain_returns (l : Aligned fs) (v : Volume fs) (n : Nat) (cidx : Cidx) :
    ∃ r, (skipChain n cidx).eval v = .ok r := by
  induction n generalizing cidx
  case zero => exact ⟨_, rfl⟩
  case succ n hi =>
    obtain ⟨cidx', hg⟩ := l.exists_chain v cidx
    rw [skipChain, Program.eval_bind_ok hg]
    exact hi cidx'

-- Each cluster that is read fills the buffer or some bytes of it.
theorem readClusters_returns (l : Aligned fs) {bufLen : Nat} {buf : List Byte} (hs : sidxOffset < fs.secPerCluster)
    (hb : byteOffset < fs.bytePerSector) (hl : buf.length ≤ bufLen) (hf : bufLen < buf.length + fuel) :
    ∃ r, (readClusters bufLen fuel cidx sidxOffset byteOffset buf).eval v = .ok r := by
  induction fuel generalizing cidx sidxOffset byteOffset buf
  case zero => omega
  case succ fuel hi =>
    rw [readClusters]
    split_ifs
    case neg => exact ⟨_, rfl⟩
    case pos =>
      have ht : (tailBytes v cidx byteOffset sidxOffset (fs.secPerCluster - sidxOffset)).length =
          (fs.secPerCluster - sidxOffset) * (fs.bytePerSector - byteOffset) := by
        simp [tailBytes, List.length_flatMap]
      have hp := Nat.mul_pos (Nat.sub_pos_of_lt hs) (Nat.sub_pos_of_lt hb)
      rw [Program.eval_bind_ok <| readSectors_eval <| by omega]
      by_cases hc : bufLen ≤ (buf ++ tailBytes v cidx byteOffset sidxOffset (fs.secPerCluster - sidxOffset)).length
      case pos =>
        simp only [hc, decide_true, if_true]
        exact ⟨_, rfl⟩
      case neg =>
        obtain ⟨cidx', hg⟩ := l.exists_chain v cidx
        simp only [hc, decide_false, if_false, Bool.false_eq_true]
        rw [Program.eval_bind_ok hg]
        refine hi l.sector l.byte ?_ ?_
        all_goals
          rw [List.length_append] at hc
          rw [List.length_take, List.length_append]
          omega

theorem fat32Read_returns (l : Aligned fs) (v : Volume fs) (obj : Fat32Obj) (bufLen seek : Nat) :
    Returns v fun fuel => fat32Read fuel obj bufLen seek := by
  have := l.sector
  have := l.byte
  refine ⟨bufLen + 1, ?_⟩
  unfold fat32Read
  split_ifs
  case pos => exact ⟨_, rfl⟩
  case pos => omega
  case neg =>
    obtain ⟨cidx, hc⟩ := skipChain_returns l v (seek / fs.bytePerSector % 2 ^ 32 / fs.secPerCluster) obj.cidx
    dsimp only
    rw [Program.eval_bind_ok hc]
    refine readClusters_returns l (Nat.mod_lt _ l.sector) (Nat.mod_lt _ l.byte) (Nat.zero_le _) ?_
    rw [List.length_nil, Nat.zero_add]
    exact Nat.lt_succ_self _

-- The functions which follow the links of a directory return if the links end and the names in its slots are bounded, and
-- two of them find nothing only if the links end. A read returns in any case.
theorem traversals_end (v : Volume fs) (l : Aligned fs) :
    (∀ cidx p obj, p < slotsPerCluster fs →
      (∀ cs, Chain v cidx cs → Bounded fs ((chainSlots v cs).drop p) →
        Returns v fun fuel => fat32IterNext fuel (iterAt fs cidx p) obj) ∧
      ∀ fuel, (fat32IterNext fuel (iterAt fs cidx p) obj).eval v = .ok none → ∃ cs, Chain v cidx cs) ∧
    (∀ dir num,
      (∀ cs, Chain v dir.cidx cs → Returns v fun fuel => fat32SearchInDirEntry fuel dir num) ∧
      ∀ fuel, (fat32SearchInDirEntry fuel dir num).eval v = .ok none → ∃ cs, Chain v dir.cidx cs) ∧
    (∀ dir fn obj cs, Chain v dir.cidx cs → Walk v dir.cidx cs → AllBounded fs (chainSlots v cs) →
      Returns v fun fuel => fat32FindInDir fuel dir fn obj) ∧
    ∀ obj bufLen seek, Returns v fun fuel => fat32Read fuel obj bufLen seek := by
  refine ⟨fun cidx p obj hp => ⟨fun cs h hb => ?_, fun _ => exists_chain_of_iterClusters⟩,
    fun dir num => ⟨fun cs h => ?_, fun _ => exists_chain_of_searchClusters⟩,
    fun dir fn obj cs _ hw hb => fat32FindInDir_returns l hw hb fn, fat32Read_returns l v⟩
  case refine_1 =>
    obtain ⟨r, hr⟩ := (@look_init_iff fs obj _).mpr hb
    exact ⟨cs.length + 1, iterClusters_returns l h hp (Nat.lt_succ_self _) hr⟩
  case refine_2 => exact ⟨cs.length + 1, searchClusters_returns h <| Nat.lt_succ_self _⟩

-- All links lead to cluster 3, and all slots are free.
def cyclic : Volume sample :=
  fun sidx k => if sidx < sample.firstClusterSidx ∧ k.val % 4 = 0 then 3 else 0

theorem orphanVolume_returns :
    (Returns orphanVolume fun fuel => fat32IterNext fuel (iterAt sample 3 0) sampleDirectory) ∧
    (Returns orphanVolume fun fuel => fat32SearchInDirEntry fuel sampleDirectory 40) ∧
    (Returns orphanVolume fun fuel => fat32FindInDir fuel sampleDirectory [0x42] sampleDirectory) ∧
    Returns cyclic fun fuel => fat32Read fuel (sampleFile 5000) 4000 0 := by
  obtain ⟨hi, hs, hf, _⟩ := traversals_end orphanVolume sample_layout.toAligned
  refine ⟨(hi 3 0 sampleDirectory <| by decide).1 [3] orphanVolume_chain ?_,
    (hs sampleDirectory 40).1 [3] orphanVolume_chain,
    hf sampleDirectory _ _ [3] orphanVolume_chain orphanVolume_walk orphanVolume_bounded,
    (traversals_end cyclic sample_layout.toAligned).2.2.2 _ _ _⟩
  rw [List.drop_zero]
  exact orphanVolume_bounded.bounded

theorem scan_free {es : List Slot} (h : ∀ e ∈ es, e.isFree) : scan fs obj p st es = .ok (.inl st) := by
  induction es generalizing p
  case nil => rfl
  case cons e es hi =>
    have hv : visit fs st obj e = .ok (.next st) := if_pos <| h e <| by simp
    rw [scan, hv]
    exact hi fun e he => h e <| by simp [he]

theorem cyclic_free {e : Slot} (h : e ∈ clusterSlots cyclic 3) : e.isFree := by
  simp only [clusterSlots, sectorSlots, List.mem_flatMap, List.mem_range'_1, List.mem_map] at h
  obtain ⟨n, hn, j, hj, he⟩ := h
  have hn : n < 2 := by simpa [sample] using hn
  have hj : j < 16 := by simpa [slotsPerSector, sample] using hj
  have hb : 32 * j + 0 < 512 := by omega
  have hs : ∀ n < 2, ¬clusterSidx sample 3 n < sample.firstClusterSidx := by decide
  have h₀ : e 0 = 0 := by
    subst he
    exact (dif_pos hb).trans <| if_neg fun h => hs n hn h.1
  simp [Slot.isFree, h₀, dirnameResFree]

theorem cyclic_panic (fuel : Nat) (st : Fns) (obj : Fat32Obj) :
    (iterClusters obj fuel 3 0 0 st).eval cyclic = .error .panic := by
  induction fuel
  case zero => rfl
  case succ fuel hi =>
    have hc : (fat32GetChain 3).eval cyclic = .ok 3 := by
      rw [fat32GetChain_eval (by decide)]
      decide
    have hs := @iterSectors_eval sample cyclic 3 obj st 0 sample_layout.toAligned (by decide)
    rw [place_zero, List.drop_zero, scan_free fun _ he => cyclic_free he] at hs
    rw [iterClusters_inl (by decide) hs, hc]
    exact hi

-- The call for an empty directory whose cluster is the next one of itself.
theorem cyclic_not_ends :
    ¬Returns cyclic fun fuel => fat32IterNext fuel (fat32IterStart sampleDirectory) sampleDirectory := by
  rintro ⟨fuel, r, h⟩
  cases (cyclic_panic fuel .init sampleDirectory).symm.trans h

end Zgmos.Fat32
