import Zgmos.Fat32.Read

namespace Zgmos.Fat32

variable {fs : Fat32Fs}

-- `fat32_read` reads the part of the file from `seek` on which fits into the buffer.
def ReadsFile (v : Volume fs) (cs : List Cidx) (fuel : Nat) (obj : Fat32Obj) (bufLen seek : Nat) : Prop :=
  ∀ b : Bio fs, b.Coherent v → ∃ n buf b',
    (fat32Read fuel obj bufLen seek).run Bio.sector b = .ok ((n, buf), b') ∧ b'.Coherent v ∧
    n = min bufLen (obj.fileSize.toNat - seek) ∧ buf.take n = ((chainBytes v cs).drop seek).take n

-- The number of bytes to the end of a chain of `n` clusters if `seek` is the offset in the first cluster
-- and in each of its sectors.
def available (fs : Fat32Fs) (n seek : Nat) : Nat :=
  (fs.secPerCluster - seek / fs.bytePerSector % fs.secPerCluster) *
      (fs.bytePerSector - seek % fs.bytePerSector) +
    (n - seek / fs.bytePerSector / fs.secPerCluster - 1) * (fs.secPerCluster * fs.bytePerSector)

variable {v : Volume fs} {cidx : Cidx} {cs cs' : List Cidx} {bufLen seek fuel n k byteOffset sidxOffset : Nat}
  {obj : Fat32Obj}

theorem tailBytes_length :
    (tailBytes v cidx byteOffset sidxOffset n).length = n * (fs.bytePerSector - byteOffset) := by
  simp [tailBytes, List.length_flatMap]

theorem tailBytes_append : tailBytes v cidx byteOffset sidxOffset (n + k) =
    tailBytes v cidx byteOffset sidxOffset n ++ tailBytes v cidx byteOffset (sidxOffset + n) k := by
  simp [tailBytes, ← List.flatMap_append]

theorem clusterBytes_drop (h : n < fs.secPerCluster) (hk : k ≤ fs.bytePerSector) :
    (clusterBytes v cidx).drop (n * fs.bytePerSector + k) =
      (List.ofFn <| v <| clusterSidx fs cidx n).drop k ++
        tailBytes v cidx 0 (n + 1) (fs.secPerCluster - n - 1) := by
  have hs : fs.secPerCluster = n + (fs.secPerCluster - n - 1 + 1) := by omega
  have hl : n * fs.bytePerSector = (tailBytes v cidx 0 0 n).length := by simp [tailBytes_length]
  rw [← tailBytes_zero, hs, tailBytes_append, hl, List.drop_length_add_append, ← hs, Nat.zero_add,
    tailBytes_succ, List.drop_zero, List.drop_append_of_le_length (by simpa using hk)]

theorem chainBytes_drop {i : Nat} (hi : i < cs.length) (hn : n < fs.secPerCluster) (hk : k ≤ fs.bytePerSector) :
    (chainBytes v cs).drop (i * (fs.secPerCluster * fs.bytePerSector) + (n * fs.bytePerSector + k)) =
      (List.ofFn <| v <| clusterSidx fs cs[i] n).drop k ++
        (tailBytes v cs[i] 0 (n + 1) (fs.secPerCluster - n - 1) ++ chainBytes v (cs.drop <| i + 1)) := by
  have hs : i * (fs.secPerCluster * fs.bytePerSector) = (chainBytes v <| cs.take i).length := by
    rw [chainBytes_length, List.length_take, Nat.min_eq_left hi.le]
  have he : chainBytes v cs =
      chainBytes v (cs.take i) ++ (clusterBytes v cs[i] ++ chainBytes v (cs.drop <| i + 1)) := by
    have : cs = cs.take i ++ cs[i] :: cs.drop (i + 1) := by simp
    exact (congrArg (chainBytes v) this).trans <| by rw [chainBytes, List.flatMap_append, List.flatMap_cons]; rfl
  have hl : n * fs.bytePerSector + k ≤ (clusterBytes v cs[i]).length := by
    rw [clusterBytes_length]
    exact (Nat.add_le_add_left hk _).trans <| Nat.succ_mul .. ▸ Nat.mul_le_mul_right _ hn
  rw [he, hs, List.drop_length_add_append, List.drop_append_of_le_length hl, clusterBytes_drop hn hk,
    List.append_assoc]

-- The position of `seek` in the chain.
theorem seek_eq (fs : Fat32Fs) (seek : Nat) :
    seek = seek / fs.bytePerSector / fs.secPerCluster * (fs.secPerCluster * fs.bytePerSector) +
      (seek / fs.bytePerSector % fs.secPerCluster * fs.bytePerSector + seek % fs.bytePerSector) := by
  rw [← Nat.mul_assoc, ← Nat.add_assoc, ← Nat.add_mul, Nat.div_add_mod', Nat.div_add_mod']

-- The condition under which `fat32_read` does so, for all contents of the clusters.
def Readable (fs : Fat32Fs) (n : Nat) (obj : Fat32Obj) (bufLen seek : Nat) : Prop :=
  obj.fileSize.toNat ≤ seek ∨
    -- The end of the file is not passed.
    (bufLen ≤ obj.fileSize.toNat - seek ∨
      min bufLen (available fs n seek) % 2 ^ 32 = obj.fileSize.toNat - seek) ∧
    -- The offset in the first sector is used in no second one.
    (seek % fs.bytePerSector = 0 ∨
      seek / fs.bytePerSector % fs.secPerCluster + 1 = fs.secPerCluster ∨
      min bufLen (obj.fileSize.toNat - seek) ≤ fs.bytePerSector - seek % fs.bytePerSector)

theorem restBytes_drop {i : Nat} (hi : i < cs.length) (hn : n < fs.secPerCluster) :
    restBytes v (cs.drop i) n k = (List.ofFn <| v <| clusterSidx fs cs[i] n).drop k ++
      (tailBytes v cs[i] k (n + 1) (fs.secPerCluster - n - 1) ++ chainBytes v (cs.drop <| i + 1)) := by
  have hs : fs.secPerCluster - n = fs.secPerCluster - n - 1 + 1 := by omega
  rw [List.drop_eq_getElem_cons hi, restBytes, hs, tailBytes_succ, List.append_assoc, ← hs]

theorem restBytes_length {i : Nat} (hi : i < cs.length) :
    (restBytes v (cs.drop i) n k).length = (fs.secPerCluster - n) * (fs.bytePerSector - k) +
      (cs.length - i - 1) * (fs.secPerCluster * fs.bytePerSector) := by
  rw [List.drop_eq_getElem_cons hi, restBytes, List.length_append, tailBytes_length, chainBytes_length,
    List.length_drop, Nat.sub_sub]

-- Where `seek` is in the chain.
theorem seek_lt (h : seek < cs.length * (fs.secPerCluster * fs.bytePerSector)) :
    seek / fs.bytePerSector / fs.secPerCluster < cs.length ∧
    seek / fs.bytePerSector % fs.secPerCluster < fs.secPerCluster ∧
    seek % fs.bytePerSector < fs.bytePerSector := by
  have hS : 0 < fs.secPerCluster := Nat.pos_of_ne_zero fun hc => by simp [hc] at h
  have hB : 0 < fs.bytePerSector := Nat.pos_of_ne_zero fun hc => by simp [hc] at h
  refine ⟨?_, Nat.mod_lt _ hS, Nat.mod_lt _ hB⟩
  rwa [Nat.div_div_eq_div_mul, Nat.div_lt_iff_lt_mul (Nat.mul_pos hB hS), Nat.mul_comm fs.bytePerSector]

theorem readsFile_iff_eval (hb : 0 < fs.bufNum) : ReadsFile v cs fuel obj bufLen seek ↔
    ∃ n buf, (fat32Read fuel obj bufLen seek).eval v = .ok (n, buf) ∧
      n = min bufLen (obj.fileSize.toNat - seek) ∧ buf.take n = ((chainBytes v cs).drop seek).take n := by
  constructor
  case mp =>
    intro hr
    have ⟨b, w⟩ := exists_coherent v
    have ⟨n, buf, b', hrun, _, h⟩ := hr b w
    exact ⟨n, buf, w.eval_of_run hb hrun, h⟩
  case mpr =>
    intro ⟨n, buf, hv, h⟩ b w
    have ⟨b', he, w'⟩ := w.run_of_eval hb hv
    exact ⟨n, buf, b', he, w', h⟩

section Iff

variable (hf : cs.length < fuel) (hb : 0 < fs.bufNum)
  (hl : obj.fileSize.toNat ≤ cs.length * (fs.secPerCluster * fs.bytePerSector))

include hf hb hl

theorem readsFile_iff_bytes (h : Chain v obj.cidx cs) (hs : seek < obj.fileSize.toNat) :
    ReadsFile v cs fuel obj bufLen seek ↔
      let len := min bufLen (obj.fileSize.toNat - seek)
      min bufLen (available fs cs.length seek) % 2 ^ 32 = len ∧
      (restBytes v (cs.drop <| seek / fs.bytePerSector / fs.secPerCluster)
        (seek / fs.bytePerSector % fs.secPerCluster) (seek % fs.bytePerSector)).take len =
      ((chainBytes v cs).drop seek).take len := by
  have ⟨hi, hn, hk⟩ := seek_lt <| hs.trans_le hl
  have he : (fat32Read fuel obj bufLen seek).eval v = _ := fat32Read_eval h hf hs (by rwa [chainBytes_length])
  rw [readsFile_iff_eval hb, he, available, ← restBytes_length hi]
  constructor
  case mp =>
    intro ⟨n, buf, hr, hn, ht⟩
    cases hr
    rw [hn, List.take_take, Nat.min_eq_left (Nat.min_le_left ..)] at ht
    exact ⟨hn, ht⟩
  case mpr =>
    intro ⟨hn, ht⟩
    refine ⟨_, _, rfl, hn, ?_⟩
    rw [hn, List.take_take, Nat.min_eq_left (Nat.min_le_left ..), ht]

theorem readsFile_of_readable (h : Chain v obj.cidx cs) (hr : Readable fs cs.length obj bufLen seek) :
    ReadsFile v cs fuel obj bufLen seek := by
  by_cases hs : obj.fileSize.toNat ≤ seek
  case pos =>
    rw [readsFile_iff_eval hb]
    exact ⟨0, [], by simp [fat32Read, hs], by omega, by simp⟩
  case neg =>
    have ⟨he, ht⟩ := hr.resolve_left hs
    have ⟨hi, hn, hk⟩ := seek_lt <| (Nat.lt_of_not_le hs).trans_le hl
    have hseek := seek_eq fs seek
    rw [readsFile_iff_bytes hf hb hl h <| Nat.lt_of_not_le hs]
    simp only [available] at he ⊢
    generalize seek / fs.bytePerSector / fs.secPerCluster = i at *
    generalize seek / fs.bytePerSector % fs.secPerCluster = n at *
    generalize seek % fs.bytePerSector = k at *
    have hd : (chainBytes v cs).drop seek = _ :=
      (congrArg (chainBytes v cs).drop hseek).trans <| chainBytes_drop hi hn hk.le
    have hc : ((chainBytes v cs).drop seek).length =
        cs.length * (fs.secPerCluster * fs.bytePerSector) - seek := by
      rw [List.length_drop, chainBytes_length]
    have hr : (restBytes v (cs.drop i) n k).length = _ := restBytes_length hi
    have hx : ((List.ofFn <| v <| clusterSidx fs cs[i] n).drop k).length = fs.bytePerSector - k := by
      simp
    rw [← hr, restBytes_drop hi hn] at he ⊢
    rw [hd] at hc ⊢
    generalize (List.ofFn <| v <| clusterSidx fs cs[i] n).drop k = d at *
    -- Either the code reads the right bytes or only a part of the first sector matters.
    have ht : tailBytes v cs[i] k (n + 1) (fs.secPerCluster - n - 1) =
        tailBytes v cs[i] 0 (n + 1) (fs.secPerCluster - n - 1) ∨
        min bufLen (obj.fileSize.toNat - seek) ≤ d.length := by
      obtain ht | ht | ht := ht
      case inl       => exact .inl <| by rw [ht]
      case inr.inl   => exact .inl <| by simp [← ht, tailBytes]
      case inr.inr   => exact .inr <| hx ▸ ht
    cases ht
    case inl ht =>
      rw [ht, hc] at he ⊢
      exact ⟨by omega, rfl⟩
    case inr ht =>
      refine ⟨?_, by rw [List.take_append_of_le_length ht, List.take_append_of_le_length ht]⟩
      rw [List.length_append] at he ⊢
      omega

-- With other contents of one sector, the read goes wrong.
theorem readable_of_readsFile {v₀ : Volume fs} (h : Chain v₀ obj.cidx cs)
    (hd : ∀ c ∈ cs, ∀ n < fs.secPerCluster, ∀ c' ∈ cs, clusterSidx fs c n ≠ tableSidx fs c')
    (hr : ∀ v : Volume fs, Chain v obj.cidx cs → ReadsFile v cs fuel obj bufLen seek) :
    Readable fs cs.length obj bufLen seek := by
  by_cases hs : obj.fileSize.toNat ≤ seek
  case pos => exact .inl hs
  case neg =>
    have hs := Nat.lt_of_not_le hs
    have ⟨hi, hn, hk⟩ := seek_lt <| hs.trans_le hl
    have hseek := seek_eq fs seek
    have he := (readsFile_iff_bytes hf hb hl h hs |>.mp <| hr v₀ h).1
    refine .inr ⟨by omega, ?_⟩
    by_contra hc
    -- The second sector of which a part is left out begins with a one.
    have ⟨v, hv⟩ : ∃ v, v = Function.update v₀ (clusterSidx fs cs[seek / fs.bytePerSector / fs.secPerCluster] <|
      seek / fs.bytePerSector % fs.secPerCluster + 1) fun k => if k.val = 0 then 1 else 0 := ⟨_, rfl⟩
    have hv' : Chain v obj.cidx cs := h.congr fun c' hc' => by
      rw [hv]
      refine Function.update_of_ne (hd _ (List.getElem_mem _) _ ?_ c' hc').symm ..
      omega
    have ht := (readsFile_iff_bytes hf hb hl hv' hs |>.mp <| hr v hv').2
    replace hv := congrFun hv <| clusterSidx fs cs[seek / fs.bytePerSector / fs.secPerCluster] <|
      seek / fs.bytePerSector % fs.secPerCluster + 1
    rw [(congrArg (chainBytes v cs).drop hseek).trans <| chainBytes_drop hi hn hk.le,
      restBytes_drop hi hn] at ht
    rw [Function.update_self] at hv
    generalize seek / fs.bytePerSector / fs.secPerCluster = i at *
    generalize seek / fs.bytePerSector % fs.secPerCluster = n at *
    generalize seek % fs.bytePerSector = k at *
    have hx : fs.secPerCluster - n - 1 = fs.secPerCluster - n - 2 + 1 := by omega
    have hp : 0 < fs.bytePerSector := by omega
    have hk₀ : k ≠ 0 := by omega
    have hlt : fs.bytePerSector - k < min bufLen (obj.fileSize.toNat - seek) := by omega
    have := congrArg (·[fs.bytePerSector - k]?) ht
    rw [hx, tailBytes_succ, tailBytes_succ, hv] at this
    simp [hk, hlt, hk₀, hp] at this

theorem readsFile_iff_readable {v₀ : Volume fs} (h : Chain v₀ obj.cidx cs)
    (hd : ∀ c ∈ cs, ∀ n < fs.secPerCluster, ∀ c' ∈ cs, clusterSidx fs c n ≠ tableSidx fs c') :
    (∀ v : Volume fs, Chain v obj.cidx cs → ReadsFile v cs fuel obj bufLen seek) ↔
      Readable fs cs.length obj bufLen seek :=
  ⟨readable_of_readsFile hf hb hl h hd, fun hr _ hv => readsFile_of_readable hf hb hl hv hr⟩

end Iff
def sample : Fat32Fs where
  dsidx            := 2048
  bytePerSector    := 512
  secPerCluster    := 2
  reservedSecCnt   := 32
  rootCidx         := 2
  firstClusterSidx := 64
  bufNum           := 8
  fits             := by decide

-- Each word of the table ends a chain.
def sampleVolume : Volume sample :=
  fun _ _ => 255

def sampleFile (fileSize : BitVec 32) : Fat32Obj where
  cidx     := 3
  type     := .file
  longFn   := fun _ => 0
  shortFn  := fun _ => 0
  fileSize := fileSize

theorem sampleVolume_chain : Chain sampleVolume 3 [3] :=
  .cons (by decide) (fat32GetChain_eval <| by decide) <| .nil <| by decide

-- The whole file.
theorem sampleFile_readsFile : ReadsFile sampleVolume [3] 2 (sampleFile 1024) 1024 0 := by
  refine (readsFile_iff_readable (by decide) (by decide) (by decide) sampleVolume_chain ?_).mpr ?_ _
    sampleVolume_chain
  case refine_1 =>
    simp only [List.mem_singleton, forall_eq]
    decide
  case refine_2 => exact .inr ⟨.inl <| by decide, .inl <| by decide⟩

-- One byte of the file is left out: 1022 bytes are read from its second byte on. The read of a file of
-- 1000 bytes does not stop at its end.
theorem sampleFile_not_readsFile : ¬ReadsFile sampleVolume [3] 2 (sampleFile 1024) 1023 1 ∧
    ¬ReadsFile sampleVolume [3] 2 (sampleFile 1000) 1024 0 := by
  constructor
  case left =>
    intro hr
    have := (readsFile_iff_bytes (by decide) (by decide) (by decide) sampleVolume_chain (by decide) |>.mp hr).1
    exact absurd this (by decide)
  case right =>
    intro hr
    have := (readsFile_iff_bytes (by decide) (by decide) (by decide) sampleVolume_chain (by decide) |>.mp hr).1
    exact absurd this (by decide)

end Zgmos.Fat32
