import Zgmos.Fat32.Accesses
import Zgmos.Fat32.Init
import Zgmos.Fat32.Listing

-- The sectors which are accessed lie in the volume.

namespace Zgmos.Fat32

-- The computation of the sector does not wrap, and the result is a sector after the table.
structure Fat32Geometry.Data (fs : Fat32Geometry) (cidx : Cidx) (n : Nat) : Prop where
  exact : ((clusterSidx fs.toFat32Fs cidx n).toNat : Int) =
    fs.firstClusterSidx.toNat + (cidx.toNat - 2) * fs.secPerCluster + n
  first : fs.firstClusterSidx ≤ clusterSidx fs.toFat32Fs cidx n
  total : clusterSidx fs.toFat32Fs cidx n < fs.totalSector

-- An access to the table lies in the volume, one to the data lies in it and after the table.
def Fat32Geometry.Confined (fs : Fat32Geometry) : Access → Prop
  | .table index => Fat32.tableSidx fs.toFat32Fs index < fs.totalSector
  | .data cidx n => fs.Data cidx n

-- The word of the cluster in the table and the sectors of the cluster lie in the volume.
structure Fat32Geometry.Contains (fs : Fat32Geometry) (cidx : Cidx) : Prop where
  table  : Fat32.tableSidx fs.toFat32Fs cidx < fs.totalSector
  two_le : 2 ≤ cidx.toNat
  data   : fs.firstClusterSidx.toNat + (cidx.toNat - 1) * fs.secPerCluster ≤ fs.totalSector.toNat

-- The links lead from the first cluster to the second one.
inductive Follows {fs : Fat32Fs} (v : Volume fs) : Cidx → Cidx → Prop
  | refl {cidx} : Follows v cidx cidx
  | link {cidx cidx' c} : cidx < chainEndFlag → (fat32GetChain cidx).eval v = .ok cidx' → Follows v cidx' c →
    Follows v cidx c

-- There are at least `n` clusters in the chain.
def Covers {fs : Fat32Fs} (v : Volume fs) : (n : Nat) → Cidx → Prop
  | 0,     _    => True
  | n + 1, cidx => cidx < chainEndFlag ∧ ∀ cidx', (fat32GetChain cidx).eval v = .ok cidx' → Covers v n cidx'

-- All clusters of the chain are contained in the volume.
def Fat32Geometry.Sound (fs : Fat32Geometry) (v : Volume fs.toFat32Fs) (cidx : Cidx) : Prop :=
  ∀ c, Follows v cidx c → c < chainEndFlag → fs.Contains c

namespace Fat32Geometry

variable {fs : Fat32Geometry} {v : Volume fs.toFat32Fs} {cidx cidx' : Cidx} {obj : Fat32Obj} {st : Fns}
  {n fuel sidxOffset byteOffset bufLen : Nat}

theorem Contains.confined (h : fs.Contains cidx) (hn : n < fs.secPerCluster) : fs.Data cidx n := by
  have hd := h.data
  have h₂ := h.two_le
  have hc : cidx.toNat - 1 = cidx.toNat - 2 + 1 := by omega
  rw [hc, Nat.succ_mul] at hd
  have he := @clusterSidx_toNat fs.toFat32Fs cidx n h₂ <| by
    have := fs.totalSector.isLt
    omega
  have hz : ((cidx.toNat : Int) - 2) * fs.secPerCluster = ((cidx.toNat - 2) * fs.secPerCluster : Nat) := by
    rw [Nat.cast_mul, Nat.cast_sub h₂]
    rfl
  constructor
  case exact => rw [he, hz]; omega
  case first => rw [BitVec.le_def, he]; omega
  case total => rw [BitVec.lt_def, he]; omega

theorem contains_iff (hs : 0 < fs.secPerCluster) : fs.Contains cidx ↔
    Fat32.tableSidx fs.toFat32Fs cidx < fs.totalSector ∧ ∀ n < fs.secPerCluster, fs.Data cidx n := by
  constructor
  case mp  => exact fun h => ⟨h.table, fun n hn => h.confined hn⟩
  case mpr =>
    intro ⟨ht, hd⟩
    have h₀ := hd 0 hs
    have h₁ := hd (fs.secPerCluster - 1) (by omega)
    have hf := BitVec.le_def.mp h₀.first
    have hl := BitVec.lt_def.mp h₁.total
    have e₀ := h₀.exact
    have e₁ := h₁.exact
    have h₂ : 2 ≤ cidx.toNat := by
      by_contra hc
      have : ((cidx.toNat : Int) - 2) * fs.secPerCluster < 0 := Int.mul_neg_of_neg_of_pos (by omega) (by omega)
      omega
    refine ⟨ht, h₂, ?_⟩
    have hz : ((cidx.toNat : Int) - 2) * fs.secPerCluster = ((cidx.toNat - 2) * fs.secPerCluster : Nat) := by
      rw [Nat.cast_mul, Nat.cast_sub h₂]
      rfl
    have hc : cidx.toNat - 1 = cidx.toNat - 2 + 1 := by omega
    rw [hc, Nat.succ_mul]
    omega

theorem Sound.link (h : fs.Sound v cidx) (hlt : cidx < chainEndFlag) (hg : (fat32GetChain cidx).eval v = .ok cidx') :
    fs.Sound v cidx' :=
  fun c hf hc => h c (.link hlt hg hf) hc

theorem Sound.contains (h : fs.Sound v cidx) (hlt : cidx < chainEndFlag) : fs.Contains cidx :=
  h cidx .refl hlt

theorem Contains.getChain (h : fs.Contains cidx) : ∀ a ∈ (Labelled.fat32GetChain cidx).asked v.at, fs.Confined a := by
  unfold Labelled.fat32GetChain
  split_ifs
  case pos => rintro _ ⟨⟩
  case neg =>
    intro a hm
    cases List.mem_singleton.mp hm
    exact h.table

theorem Contains.iterSectors (h : fs.Contains cidx) (hn : n ≤ fs.secPerCluster - sidxOffset) :
    ∀ a ∈ (Labelled.iterSectors cidx obj n sidxOffset byteOffset st).asked v.at, fs.Confined a := by
  induction n generalizing sidxOffset byteOffset st
  case zero => rintro _ ⟨⟩
  case succ n hi =>
    refine Program.forall_asked_bind ?_ fun dat _ => Program.forall_asked_bind (by rintro _ ⟨⟩) fun r _ => ?_
    case refine_1 =>
      intro a hm
      cases List.mem_singleton.mp hm
      exact h.confined (by omega)
    case refine_2 =>
      cases r
      case inl st => exact hi (by omega)
      case inr    => rintro _ ⟨⟩

theorem Contains.iterAdvance {type : ObjType} {i : Nat} (h : fs.Contains cidx) :
    ∀ a ∈ (Labelled.iterAdvance cidx sidxOffset i type).asked v.at, fs.Confined a := by
  cases type
  case directory => rintro _ ⟨⟩
  case file =>
    simp only [Labelled.iterAdvance]
    split_ifs
    case pos => exact Program.forall_asked_bind h.getChain fun _ _ => by rintro _ ⟨⟩
    case neg => rintro _ ⟨⟩
    case pos => exact Program.forall_asked_bind h.getChain fun _ _ => by rintro _ ⟨⟩
    case neg => rintro _ ⟨⟩

theorem Sound.iterClusters (h : fs.Sound v cidx) :
    ∀ a ∈ (Labelled.iterClusters obj fuel cidx sidxOffset byteOffset st).asked v.at, fs.Confined a := by
  induction fuel generalizing cidx sidxOffset byteOffset st
  case zero => rintro _ ⟨⟩
  case succ fuel hi =>
    rw [Labelled.iterClusters]
    split_ifs
    case neg => rintro _ ⟨⟩
    case pos hlt =>
      have hc := h.contains hlt
      refine Program.forall_asked_bind (hc.iterSectors le_rfl) fun r hr => ?_
      cases r
      case inl st =>
        exact Program.forall_asked_bind hc.getChain fun cidx' hg => hi (h.link hlt <| Labelled.eval_getChain ▸ hg)
      case inr r =>
        obtain ⟨⟨k, i⟩, obj'⟩ := r
        exact Program.forall_asked_bind hc.iterAdvance fun _ _ => by rintro _ ⟨⟩

theorem Contains.readSectors {buf : List Byte} (h : fs.Contains cidx) (hn : n ≤ fs.secPerCluster - sidxOffset) :
    ∀ a ∈ (Labelled.readSectors cidx byteOffset bufLen n sidxOffset buf).asked v.at, fs.Confined a := by
  induction n generalizing sidxOffset buf
  case zero => rintro _ ⟨⟩
  case succ n hi =>
    refine Program.forall_asked_bind ?_ fun dat _ => ?_
    case refine_1 =>
      intro a hm
      cases List.mem_singleton.mp hm
      exact h.confined (by omega)
    case refine_2 =>
      dsimp only
      split
      case isTrue  => rintro _ ⟨⟩
      case isFalse => exact hi (by omega)

theorem Sound.readClusters {buf : List Byte} (h : fs.Sound v cidx) :
    ∀ a ∈ (Labelled.readClusters bufLen fuel cidx sidxOffset byteOffset buf).asked v.at, fs.Confined a := by
  induction fuel generalizing cidx sidxOffset byteOffset buf
  case zero => rintro _ ⟨⟩
  case succ fuel hi =>
    rw [Labelled.readClusters]
    split_ifs
    case neg => rintro _ ⟨⟩
    case pos hlt =>
      have hc := h.contains hlt
      refine Program.forall_asked_bind (hc.readSectors le_rfl) fun r _ => ?_
      dsimp only
      split
      case isTrue  => rintro _ ⟨⟩
      case isFalse => exact Program.forall_asked_bind hc.getChain fun cidx' hg => hi (h.link hlt <| Labelled.eval_getChain ▸ hg)

theorem Sound.skipChain (h : fs.Sound v cidx) (hc : Covers v n cidx) :
    (∀ a ∈ (Labelled.skipChain n cidx).asked v.at, fs.Confined a) ∧
      ∀ c, (Labelled.skipChain n cidx).eval v.at = .ok c → fs.Sound v c := by
  induction n generalizing cidx
  case zero => exact ⟨by rintro _ ⟨⟩, fun c he => Except.ok.inj he ▸ h⟩
  case succ n hi =>
    obtain ⟨hlt, hc⟩ := hc
    have next {c : Cidx} (hg : (Labelled.fat32GetChain cidx).eval v.at = .ok c) :=
      hi (h.link hlt <| Labelled.eval_getChain ▸ hg) (hc c <| Labelled.eval_getChain ▸ hg)
    refine ⟨Program.forall_asked_bind (h.contains hlt).getChain fun c hg => (next hg).1, fun c he => ?_⟩
    rw [Labelled.skipChain, Program.eval_bind] at he
    obtain ⟨c', hg, he⟩ := Except.bind_eq_ok.mp he
    exact (next hg).2 c he

theorem Sound.fat32Read {seek : Nat} (h : fs.Sound v obj.cidx)
    (hc : seek < obj.fileSize.toNat → Covers v (seek / fs.bytePerSector % 2 ^ 32 / fs.secPerCluster) obj.cidx) :
    ∀ a ∈ (Labelled.fat32Read fuel obj bufLen seek).asked v.at, fs.Confined a := by
  unfold Labelled.fat32Read
  split_ifs
  case pos => rintro _ ⟨⟩
  case pos => rintro _ ⟨⟩
  case neg hs _ =>
    have ⟨h₁, h₂⟩ := h.skipChain <| hc <| Nat.lt_of_not_le hs
    exact Program.forall_asked_bind h₁ fun c he => (h₂ c he).readClusters

-- The sectors of a cluster number are right just if the volume contains the cluster. If it contains the clusters of the
-- chains which are followed, all accesses lie in the volume, and those to the data after the table. The labels tell for
-- each sector that the functions pass to the cache what it is.
theorem accesses_confined (fs : Fat32Geometry) (v : Volume fs.toFat32Fs) :
    (∀ cidx, 0 < fs.secPerCluster → (fs.Contains cidx ↔
      Fat32.tableSidx fs.toFat32Fs cidx < fs.totalSector ∧ ∀ n < fs.secPerCluster, fs.Data cidx n)) ∧
    (∀ cidx, fs.Contains cidx →
      (fat32GetChain cidx).asked v =
        ((Labelled.fat32GetChain cidx).asked v.at).map (Access.sidx fs.toFat32Fs) ∧
      ∀ a ∈ (Labelled.fat32GetChain cidx).asked v.at, fs.Confined a) ∧
    (∀ iter, fs.Sound v iter.curCidx → ∀ fuel obj,
      (fat32IterNext fuel iter obj).asked v =
        ((Labelled.fat32IterNext fuel iter obj).asked v.at).map (Access.sidx fs.toFat32Fs) ∧
      ∀ a ∈ (Labelled.fat32IterNext fuel iter obj).asked v.at, fs.Confined a) ∧
    ∀ obj seek, fs.Sound v obj.cidx →
      (seek < obj.fileSize.toNat → Covers v (seek / fs.bytePerSector % 2 ^ 32 / fs.secPerCluster) obj.cidx) →
      ∀ fuel bufLen,
        (Fat32.fat32Read fuel obj bufLen seek).asked v =
          ((Labelled.fat32Read fuel obj bufLen seek).asked v.at).map (Access.sidx fs.toFat32Fs) ∧
        ∀ a ∈ (Labelled.fat32Read fuel obj bufLen seek).asked v.at, fs.Confined a :=
  ⟨fun _ => contains_iff,
    fun _ h => ⟨Labelled.asked_plain Labelled.plain_getChain, h.getChain⟩,
    fun _ h _ _ => ⟨Labelled.asked_plain Labelled.plain_iterNext, h.iterClusters⟩,
    fun _ _ h hc _ _ => ⟨Labelled.asked_plain Labelled.plain_read, h.fat32Read hc⟩⟩

end Fat32Geometry

-- The first sector of a chain is read.
theorem mem_asked_readClusters {fs : Fat32Fs} {v : Volume fs} {cidx : Cidx} {bufLen fuel sidxOffset byteOffset : Nat}
    {buf : List Byte} (hc : cidx < chainEndFlag) (hs : sidxOffset < fs.secPerCluster) :
    .data cidx sidxOffset ∈
      (Labelled.readClusters bufLen (fuel + 1) cidx sidxOffset byteOffset buf : Labelled.Prog fs _).asked v.at := by
  have ⟨n, hn⟩ := Nat.exists_eq_succ_of_ne_zero <| Nat.sub_ne_zero_of_lt hs
  rw [Labelled.readClusters, if_pos hc, hn, Labelled.readSectors]
  exact Program.mem_asked_bind <| Program.mem_asked_bind <| .head _

-- The geometry of a volume with 256 sectors, eight of which are a cluster.
theorem accepted_256 : ∃ fs, fat32Init (fun _ => true) (bootSector [(12, 2), (13, 8), (33, 1)]) 1 = .ok (some fs) ∧
    fs.bytePerSector = 512 ∧ fs.secPerCluster = 8 ∧ fs.totalSector = 256 ∧ fs.firstClusterSidx = 0 := by
  have ⟨fs, h⟩ : ∃ fs, fat32Init (fun _ => true) (bootSector [(12, 2), (13, 8), (33, 1)]) 1 = .ok (some fs) :=
    fat32Init_accepts (fun _ => rfl) (by decide) (by decide) (by decide)
  have ⟨hb, hs, _⟩ := fat32Init_eq_some h
  have ⟨ht, hf⟩ := fat32Init_sectors h
  exact ⟨fs, h, hb.trans <| by decide, hs.trans <| by decide, ht.trans <| by decide, hf.trans <| by decide⟩

-- A file whose first cluster is 0.
theorem cluster_zero_not_confined :
    ∃ fs, fat32Init (fun _ => true) (bootSector [(12, 2), (13, 8), (33, 1)]) 1 = .ok (some fs) ∧
      ∃ (v : Volume fs.toFat32Fs) (obj : Fat32Obj), ∃ sidx ∈ (fat32Read 1 obj 1 0).asked v,
        ¬sidx < fs.totalSector := by
  have ⟨fs, h, hb, hs, ht, hf⟩ := accepted_256
  refine ⟨fs, h, fun _ _ => 0, { sampleFile 1 with cidx := 0 }, clusterSidx fs.toFat32Fs 0 0, ?_, ?_⟩
  case refine_1 =>
    unfold fat32Read
    rw [if_neg (by decide), if_neg (by omega)]
    simp only [hb, hs, Nat.zero_div, Nat.zero_mod]
    rw [Program.asked_bind_ok (show (skipChain 0 0 : Prog fs.toFat32Fs _).eval (fun _ _ => 0) = .ok 0 from rfl)]
    refine List.mem_append_right _ ?_
    rw [Labelled.asked_plain Labelled.plain_readClusters]
    exact List.mem_map_of_mem <| mem_asked_readClusters (by decide) (by omega)
  case refine_2 =>
    rw [clusterSidx, fat32Clu2sec, hs, hf, ht]
    decide

def sampleGeometry : Fat32Geometry :=
  { sample with totalSector := 100, secPerTable := 16, tableNum := 2, tableSidx := 32, clusterNum := 18 }

-- The first sector of a file with the cluster 3.
theorem sampleGeometry_confined :
    ∃ a ∈ (Labelled.fat32Read 2 (sampleFile 1024) 1024 0).asked sampleVolume.at,
      a = .data 3 0 ∧ sampleGeometry.Confined a := by
  have hs : sampleGeometry.Sound sampleVolume 3 := by
    intro c hf hc
    cases hf
    case refl => exact ⟨by decide, by decide, by decide⟩
    case link hg hf =>
      cases sampleVolume_chain with | cons _ hg' hr =>
      cases hg.symm.trans hg'
      cases hr with | nil hr =>
      cases hf
      case refl            => exact absurd hc <| BitVec.not_lt.mpr hr
      case link hlt hg hf => exact absurd hlt <| BitVec.not_lt.mpr hr
  refine ⟨_, ?_, rfl, ((Fat32Geometry.accesses_confined sampleGeometry sampleVolume).2.2.2 (sampleFile 1024) 0 hs
    (fun _ => trivial) 2 1024).2 _ ?_⟩
  all_goals
    unfold Labelled.fat32Read
    rw [if_neg (by decide), if_neg (by decide)]
    have hskip : (Labelled.skipChain 0 3 : Labelled.Prog sample _).eval sampleVolume.at = .ok 3 := rfl
    exact (Program.asked_bind_ok hskip).symm ▸ mem_asked_readClusters (by decide) (by decide)

end Zgmos.Fat32
