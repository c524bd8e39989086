import Zgmos.Fat32.Volume

namespace Zgmos.Fat32

variable {fs : Fat32Fs}

-- The first loop of `fat32_read`.
def skipChain : Nat → Cidx → Prog fs Cidx
  | 0,           cidx => return cidx
  | cidxCnt + 1, cidx => do skipChain cidxCnt (← fat32GetChain cidx)

-- The loop over `n` sectors of a cluster. The length of `buf` is `byte_cnt`. Returns whether the buffer
-- is full.
def readSectors (cidx : Cidx) (byteOffset bufLen : Nat) :
    (n sidxOffset : Nat) → (buf : List Byte) → Prog fs (Bool × List Byte)
  | 0,     _,          buf => return (false, buf)
  | n + 1, sidxOffset, buf => do
    let dat ← .get <| clusterSidx fs cidx sidxOffset
    let len := min (fs.bytePerSector - byteOffset) (bufLen - buf.length)
    let buf := buf ++ ((List.ofFn dat).drop byteOffset).take len
    if buf.length = bufLen then
      return (true, buf)
    else
      readSectors cidx byteOffset bufLen n (sidxOffset + 1) buf

-- The loop over the clusters. The offsets are those of the first cluster.
def readClusters (bufLen : Nat) :
    (fuel : Nat) → (cidx : Cidx) → (sidxOffset byteOffset : Nat) → (buf : List Byte) →
    Prog fs (Nat × List Byte)
  | 0,        _,    _,          _,          _   => .fail .panic
  | fuel + 1, cidx, sidxOffset, byteOffset, buf =>
    if cidx < chainEndFlag then do
      let (full, buf) ← readSectors cidx byteOffset bufLen
        (fs.secPerCluster - sidxOffset) sidxOffset buf
      if full then
        return (bufLen % 2 ^ 32, buf)
      else
        readClusters bufLen fuel (← fat32GetChain cidx) 0 0 buf
    else
      return (buf.length % 2 ^ 32, buf)

-- Returns the result and the bytes that are written to the caller's buffer. An endless loop runs out of
-- fuel.
def fat32Read (fuel : Nat) (obj : Fat32Obj) (bufLen seek : Nat) : Prog fs (Nat × List Byte) :=
  if obj.fileSize.toNat ≤ seek then
    return (0, [])
  else if fs.bytePerSector = 0 ∨ fs.secPerCluster = 0 then
    .fail .divByZero
  else do
    let sidxOffset := seek / fs.bytePerSector % 2 ^ 32
    let cidx ← skipChain (sidxOffset / fs.secPerCluster) obj.cidx
    readClusters bufLen fuel cidx (sidxOffset % fs.secPerCluster) (seek % fs.bytePerSector) []

-- What the `n` sectors of a cluster from a first one on contain if the first bytes of each of them are
-- left out.
def tailBytes (v : Volume fs) (cidx : Cidx) (byteOffset sidxOffset n : Nat) : List Byte :=
  (List.range' sidxOffset n).flatMap fun n => (List.ofFn <| v <| clusterSidx fs cidx n).drop byteOffset

-- What is read of a chain. The offsets are those of the first cluster.
def restBytes (v : Volume fs) (cs : List Cidx) (sidxOffset byteOffset : Nat) : List Byte :=
  match cs with
  | []         => []
  | cidx :: cs => tailBytes v cidx byteOffset sidxOffset (fs.secPerCluster - sidxOffset) ++ chainBytes v cs

variable {v : Volume fs} {cidx cidx' : Cidx} {cs : List Cidx} {buf : List Byte}
  {bufLen fuel n sidxOffset byteOffset : Nat}

theorem tailBytes_succ : tailBytes v cidx byteOffset sidxOffset (n + 1) =
    (List.ofFn <| v <| clusterSidx fs cidx sidxOffset).drop byteOffset ++
      tailBytes v cidx byteOffset (sidxOffset + 1) n := by
  simp [tailBytes, List.range'_succ]

theorem tailBytes_zero : tailBytes v cidx 0 0 fs.secPerCluster = clusterBytes v cidx := by
  simp [tailBytes, clusterBytes, List.range_eq_range']

theorem restBytes_zero : restBytes v cs 0 0 = chainBytes v cs := by
  cases cs <;> simp [restBytes, chainBytes, tailBytes_zero]

theorem readSectors_eval (hb : buf.length < bufLen ∨ buf.length = bufLen ∧ 0 < n) :
    (readSectors cidx byteOffset bufLen n sidxOffset buf).eval v =
      .ok (bufLen ≤ (buf ++ tailBytes v cidx byteOffset sidxOffset n).length,
        (buf ++ tailBytes v cidx byteOffset sidxOffset n).take bufLen) := by
  induction n generalizing sidxOffset buf
  case zero =>
    have hb : buf.length < bufLen := by omega
    simp [readSectors, tailBytes, hb, List.take_of_length_le hb.le]
  case succ n hi =>
    have ⟨d, he⟩ : ∃ d, (List.ofFn <| v <| clusterSidx fs cidx sidxOffset).drop byteOffset = d := ⟨_, rfl⟩
    have hd : d.length = fs.bytePerSector - byteOffset := by simp [← he]
    have hl : buf.length ≤ bufLen := by omega
    have ht : buf ++ d.take (min (fs.bytePerSector - byteOffset) <| bufLen - buf.length) =
        (buf ++ d).take bufLen := by
      rw [List.take_append, List.take_of_length_le hl, ← hd, ← List.take_take,
        List.take_of_length_le (List.length_take_le' ..)]
    unfold readSectors
    rw [Program.eval_bind_ok (Program.eval_get _), tailBytes_succ, ← List.append_assoc]
    simp only [he, ht]
    by_cases hf : bufLen ≤ (buf ++ d).length
    case pos =>
      have hc : bufLen ≤ (buf ++ d ++ tailBytes v cidx byteOffset (sidxOffset + 1) n).length := by
        rw [List.length_append]
        omega
      rw [if_pos (by simpa using hf), List.take_append_of_le_length hf]
      simpa using hc
    case neg =>
      have hf := Nat.lt_of_not_le hf
      rw [List.take_of_length_le hf.le, if_neg hf.ne, hi (.inl hf)]

theorem clusterBytes_length : (clusterBytes v cidx).length = fs.secPerCluster * fs.bytePerSector := by
  simp [clusterBytes, List.length_flatMap]

theorem chainBytes_length :
    (chainBytes v cs).length = cs.length * (fs.secPerCluster * fs.bytePerSector) := by
  simp [chainBytes, List.length_flatMap, clusterBytes_length]

theorem skipChain_eval (h : Chain v cidx cs) (hn : n ≤ cs.length) :
    ∃ cidx', (skipChain n cidx).eval v = .ok cidx' ∧ Chain v cidx' (cs.drop n) := by
  induction n generalizing cidx cs
  case zero => exact ⟨cidx, rfl, h⟩
  case succ n hi =>
    cases h
    case nil => simp at hn
    case cons cidx' cs h hc hr =>
      have ⟨c, he, hc'⟩ := hi h (by simpa using hn)
      exact ⟨c, by rw [skipChain, Program.eval_bind_ok hr, he], hc'⟩

theorem readClusters_eval (h : Chain v cidx cs) (hf : cs.length < fuel)
    (hb : buf.length < bufLen ∨ buf.length = bufLen ∧ cs ≠ [] ∧ sidxOffset < fs.secPerCluster) :
    (readClusters bufLen fuel cidx sidxOffset byteOffset buf).eval v =
      .ok (min bufLen (buf ++ restBytes v cs sidxOffset byteOffset).length % 2 ^ 32,
        (buf ++ restBytes v cs sidxOffset byteOffset).take bufLen) := by
  induction h generalizing fuel sidxOffset byteOffset buf
  case nil cidx h =>
    have hb : buf.length < bufLen := by simpa using hb
    have ⟨fuel, he⟩ := Nat.exists_eq_add_of_lt hf
    subst he
    unfold readClusters
    rw [if_neg <| BitVec.not_lt.mpr h, restBytes, List.append_nil, List.take_of_length_le hb.le,
      Nat.min_eq_right hb.le]
    rfl
  case cons cidx _ cs h hc _ hi =>
    have ⟨fuel, he⟩ := Nat.exists_eq_add_of_lt hf
    subst he
    have hb : buf.length < bufLen ∨ buf.length = bufLen ∧ 0 < fs.secPerCluster - sidxOffset := by omega
    unfold readClusters
    rw [if_pos h, Program.eval_bind_ok (readSectors_eval hb), restBytes, ← List.append_assoc]
    by_cases hl : bufLen ≤
        (buf ++ tailBytes v cidx byteOffset sidxOffset (fs.secPerCluster - sidxOffset)).length
    case pos =>
      have hm := hl.trans <| (List.prefix_append _ <| chainBytes v cs).length_le
      rw [List.take_append_of_le_length hl, Nat.min_eq_left hm]
      simp only [hl, decide_true, if_true]
      rfl
    case neg =>
      have hl' := Nat.lt_of_not_le hl
      have hf : cs.length < (cidx :: cs).length + fuel := by
        rw [List.length_cons]
        omega
      simp only [hl, decide_false, if_false, Bool.false_eq_true]
      rw [Program.eval_bind_ok hc, List.take_of_length_le hl'.le,
        hi hf (.inl hl'), restBytes_zero]

-- What `fat32_read` returns and writes to the buffer.
theorem fat32Read_eval {obj : Fat32Obj} {seek : Nat} (h : Chain v obj.cidx cs) (hf : cs.length < fuel)
    (hs : seek < obj.fileSize.toNat) (hl : obj.fileSize.toNat ≤ (chainBytes v cs).length) :
    (fat32Read fuel obj bufLen seek).eval v =
      let rest := restBytes v (cs.drop (seek / fs.bytePerSector / fs.secPerCluster))
        (seek / fs.bytePerSector % fs.secPerCluster) (seek % fs.bytePerSector)
      .ok (min bufLen rest.length % 2 ^ 32, rest.take bufLen) := by
  have hp : 0 < cs.length * (fs.secPerCluster * fs.bytePerSector) := by
    rw [chainBytes_length] at hl
    omega
  have hS : 0 < fs.secPerCluster := Nat.pos_of_ne_zero fun hc => by simp [hc] at hp
  have hB : 0 < fs.bytePerSector := Nat.pos_of_ne_zero fun hc => by simp [hc] at hp
  have hm : seek / fs.bytePerSector % 2 ^ 32 = seek / fs.bytePerSector :=
    Nat.mod_eq_of_lt <| (Nat.div_le_self ..).trans_lt <| hs.trans obj.fileSize.isLt
  have hc : seek / fs.bytePerSector / fs.secPerCluster < cs.length := by
    rw [Nat.div_div_eq_div_mul, Nat.div_lt_iff_lt_mul (Nat.mul_pos hB hS), Nat.mul_comm fs.bytePerSector,
      ← chainBytes_length (v := v)]
    omega
  have ⟨cidx, he, hc'⟩ := skipChain_eval h hc.le
  have hf : (cs.drop <| seek / fs.bytePerSector / fs.secPerCluster).length < fuel := by
    rw [List.length_drop]
    exact (Nat.sub_le ..).trans_lt hf
  have hb : ([] : List Byte).length < bufLen ∨ ([] : List Byte).length = bufLen ∧
      cs.drop (seek / fs.bytePerSector / fs.secPerCluster) ≠ [] ∧
      seek / fs.bytePerSector % fs.secPerCluster < fs.secPerCluster := by
    cases Nat.eq_zero_or_pos bufLen
    case inl h => exact .inr ⟨h.symm, by simpa using hc, Nat.mod_lt _ hS⟩
    case inr h => exact .inl h
  unfold fat32Read
  rw [if_neg (by omega), if_neg (by omega)]
  simp only [hm]
  rw [Program.eval_bind_ok he, readClusters_eval hc' hf hb, List.nil_append]

end Zgmos.Fat32
