import Zgmos.Fat32.Scan

namespace Zgmos.Fat32

def slotsPerSector (fs : Fat32Fs) : Nat :=
  fs.bytePerSector / 32

def slotsPerCluster (fs : Fat32Fs) : Nat :=
  fs.secPerCluster * slotsPerSector fs

variable {fs : Fat32Fs}

def sectorSlots (dat : Sector fs) : List Slot :=
  (List.range' 0 <| slotsPerSector fs).map fun j => slotAt dat (32 * j)

def clusterSlots (v : Volume fs) (cidx : Cidx) : List Slot :=
  (List.range' 0 fs.secPerCluster).flatMap fun k => sectorSlots <| v <| clusterSidx fs cidx k

def chainSlots (v : Volume fs) (cs : List Cidx) : List Slot :=
  cs.flatMap <| clusterSlots v

-- The offset of the sector and the offset in the sector of slot `p` of a cluster.
def place (fs : Fat32Fs) (p : Nat) : Nat × Nat :=
  (p / slotsPerSector fs, 32 * (p % slotsPerSector fs))

def iterAt (fs : Fat32Fs) (cidx : Cidx) (p : Nat) : DirectoryIter where
  curCidx       := cidx
  curSidxOffset := (place fs p).1
  curByteOffset := (place fs p).2

variable {v : Volume fs} {cidx cidx' : Cidx} {cs cs' : List Cidx} {obj : Fat32Obj} {st : Fns} {p n m j : Nat}
  {q : Sidx → Prop}

@[simp]
theorem sectorSlots_length {dat : Sector fs} : (sectorSlots dat).length = slotsPerSector fs := by
  simp [sectorSlots]

@[simp]
theorem clusterSlots_length : (clusterSlots v cidx).length = slotsPerCluster fs := by
  simp [clusterSlots, slotsPerCluster, List.length_flatMap]

theorem place_eq (hj : j < slotsPerSector fs) : place fs (n * slotsPerSector fs + j) = (n, 32 * j) := by
  have hq : 0 < slotsPerSector fs := Nat.zero_lt_of_lt hj
  have hd : (n * slotsPerSector fs + j) / slotsPerSector fs = n := by
    rw [Nat.add_comm, Nat.add_mul_div_right _ _ hq, Nat.div_eq_of_lt hj, Nat.zero_add]
  have hm : (n * slotsPerSector fs + j) % slotsPerSector fs = j := by
    rw [Nat.add_comm, Nat.add_mul_mod_self_right, Nat.mod_eq_of_lt hj]
  rw [place, hd, hm]

-- The end of a loop over the slots, whose positions are counted in the cluster.
def placed (fs : Fat32Fs) : Fns ⊕ Nat × Fat32Obj → Fns ⊕ (Nat × Nat) × Fat32Obj :=
  Sum.map id <| Prod.map (place fs) id

theorem iterSector_eq (dat : Sector fs) (obj : Fat32Obj) (st : Fns) (n : Nat) (hj : j + m ≤ slotsPerSector fs) :
    (iterSector dat obj m (32 * j) st).map (Sum.map id <| Prod.map (n, ·) id) =
      (scan fs obj (n * slotsPerSector fs + j) st <| (List.range' j m).map fun j => slotAt dat (32 * j)).map
        (placed fs) := by
  induction m generalizing j st
  case zero => rfl
  case succ m hi =>
    rw [List.range'_succ, List.map_cons, iterSector, scan]
    cases visit fs st obj (slotAt dat (32 * j))
    case error => rfl
    case ok r =>
      cases r
      case next st => exact hi (j := j + 1) st <| by omega
      case found obj =>
        have := place_eq (n := n) <| show j < slotsPerSector fs by omega
        simp only [bind, Except.bind, pure, Except.pure, Except.map, placed, Sum.map_inr, Prod.map_apply, this]

-- The slots from sector `n` on, of which the first `j` ones are left out.
theorem iterSectors_evalIn (h : 32 ∣ fs.bytePerSector) (hj : j < slotsPerSector fs)
    (hq : ∀ k, n ≤ k → k < n + m → q (clusterSidx fs cidx k)) :
    (iterSectors cidx obj m n (32 * j) st).evalIn q v =
      ((scan fs obj (n * slotsPerSector fs + j) st <|
        ((List.range' n m).flatMap fun k => sectorSlots <| v <| clusterSidx fs cidx k).drop j).map
          (placed fs)).toOption := by
  have hb : fs.bytePerSector = 32 * slotsPerSector fs := by unfold slotsPerSector; omega
  induction m generalizing n j st
  case zero => simp [iterSectors, scan, placed, Except.toOption]; rfl
  case succ m hi =>
    have hn : (fs.bytePerSector - 32 * j + 31) / 32 = slotsPerSector fs - j := by omega
    have hd : (sectorSlots <| v <| clusterSidx fs cidx n).drop j =
        (List.range' j <| slotsPerSector fs - j).map fun j => slotAt (v <| clusterSidx fs cidx n) (32 * j) := by
      rw [sectorSlots, ← List.map_drop, List.drop_range', Nat.mul_one, Nat.zero_add]
    have he := iterSector_eq (v <| clusterSidx fs cidx n) obj st n <|
      show j + (slotsPerSector fs - j) ≤ slotsPerSector fs by omega
    rw [List.range'_succ, List.flatMap_cons, List.drop_append_of_le_length (by simpa using hj.le), hd,
      scan_append, iterSectors, Program.evalIn_bind, Program.evalIn_get (hq n le_rfl <| by omega)]
    simp only [Option.bind_some, Program.evalIn_bind, Program.evalIn_done, hn]
    cases hr : iterSector (v <| clusterSidx fs cidx n) obj (slotsPerSector fs - j) (32 * j) st
    all_goals
      cases hs : scan fs obj (n * slotsPerSector fs + j) st
        ((List.range' j (slotsPerSector fs - j)).map fun j => slotAt (v <| clusterSidx fs cidx n) (32 * j))
      all_goals rw [hr, hs] at he
    case error.error => rfl
    case error.ok    => cases he
    case ok.error    => cases he
    case ok.ok r r' =>
      replace he := Except.ok.inj he
      cases r <;> cases r'
      case inl.inr => cases he
      case inr.inl => cases he
      case inl.inl st' st'' =>
        cases he
        have hl : n * slotsPerSector fs + j + (slotsPerSector fs - j) = (n + 1) * slotsPerSector fs + 0 := by
          rw [Nat.succ_mul]
          omega
        have := @hi st' (n + 1) 0 (by omega) fun k hk hl => hq k (by omega) (by omega)
        rw [List.drop_zero, ← hl] at this
        rw [List.length_map, List.length_range']
        exact this
      case inr.inr =>
        replace he := Sum.inr.inj he
        simp only [Except.toOption, Option.bind_some, Program.evalIn_pure]
        exact congrArg (fun r => some <| Sum.inr r) he

theorem iterSector_error {dat : Sector fs} {i : Nat} {f : Fault} (h : iterSector dat obj n i st = .error f) :
    f = .outOfBounds := by
  induction n generalizing i st
  case zero => nomatch h
  case succ n hi =>
    cases Except.bind_eq_error.mp h
    case inl h => exact visit_error h
    case inr h =>
      have ⟨r, _, h⟩ := h
      cases r
      case next  => exact hi h
      case found => nomatch h

theorem iterSectors_error {byteOffset : Nat} {f : Fault}
    (h : (iterSectors cidx obj m n byteOffset st : Prog fs _).eval v = .error f) : f = .outOfBounds := by
  induction m generalizing n byteOffset st
  case zero => nomatch h
  case succ m hi =>
    simp only [iterSectors, Program.eval_bind, Program.eval_get, Program.eval_done] at h
    cases Except.bind_eq_error.mp h
    case inl h => nomatch h
    case inr h =>
      have ⟨_, _, h⟩ := h
      cases Except.bind_eq_error.mp h
      case inl h => exact iterSector_error h
      case inr h =>
        have ⟨r, _, h⟩ := h
        cases r
        case inl => exact hi h
        case inr => nomatch h

theorem place_lt (hp : p < slotsPerCluster fs) :
    p / slotsPerSector fs < fs.secPerCluster ∧ p % slotsPerSector fs < slotsPerSector fs := by
  have hq : 0 < slotsPerSector fs := Nat.pos_of_ne_zero fun hc => by simp [slotsPerCluster, hc] at hp
  exact ⟨Nat.div_lt_of_lt_mul <| Nat.mul_comm .. ▸ hp, Nat.mod_lt _ hq⟩

theorem place_succ (hp : p % slotsPerSector fs + 1 < slotsPerSector fs) :
    place fs (p + 1) = (p / slotsPerSector fs, 32 * (p % slotsPerSector fs + 1)) := by
  rw [← place_eq hp, ← Nat.add_assoc, Nat.div_add_mod']

theorem place_succ_sector (hp : p % slotsPerSector fs + 1 = slotsPerSector fs) :
    place fs (p + 1) = (p / slotsPerSector fs + 1, 0) := by
  have h := place_eq (n := p / slotsPerSector fs + 1) <| show 0 < slotsPerSector fs by omega
  have he : (p / slotsPerSector fs + 1) * slotsPerSector fs + 0 = p + 1 := by
    have := Nat.div_add_mod' p (slotsPerSector fs)
    rw [Nat.succ_mul]
    omega
  rwa [he] at h

-- After the last slot of a cluster.
theorem place_end (hp : p + 1 = slotsPerCluster fs) (hq : 0 < slotsPerSector fs) :
    p % slotsPerSector fs + 1 = slotsPerSector fs ∧ p / slotsPerSector fs + 1 = fs.secPerCluster := by
  have ⟨hs, hj⟩ := place_lt <| show p < slotsPerCluster fs by omega
  have hS : (p + 1) / slotsPerSector fs = fs.secPerCluster := by
    rw [hp, slotsPerCluster, Nat.mul_div_cancel _ hq]
  have he : p % slotsPerSector fs + 1 = slotsPerSector fs := by
    by_contra hc
    have := congrArg Prod.fst <| place_succ <| show p % slotsPerSector fs + 1 < slotsPerSector fs by omega
    exact absurd (hS.symm.trans this) hs.ne'
  exact ⟨he, hS ▸ (congrArg Prod.fst <| place_succ_sector he).symm⟩

theorem fat32GetChain_evalIn (hq : q <| tableSidx fs cidx) (hc : (fat32GetChain cidx).eval v = .ok cidx') :
    (fat32GetChain cidx).evalIn q v = some cidx' := by
  refine Program.evalIn_eq_some_iff.mpr ⟨hc, fun sidx hs => ?_⟩
  unfold fat32GetChain at hs
  split_ifs at hs
  case pos => nomatch hs
  case neg => exact List.mem_singleton.mp hs ▸ hq

section Advance

variable {type : ObjType} (h : 32 ∣ fs.bytePerSector)

include h

theorem byteOffset_next (j : Nat) :
    (32 * j + 32) % fs.bytePerSector = 32 * ((j + 1) % slotsPerSector fs) ∧
      (32 * j + 32) / fs.bytePerSector = (j + 1) / slotsPerSector fs := by
  have hb : fs.bytePerSector = 32 * slotsPerSector fs := by unfold slotsPerSector; omega
  rw [hb, ← Nat.mul_succ, Nat.mul_mod_mul_left, Nat.mul_div_mul_left _ _ (by decide)]
  exact ⟨rfl, rfl⟩

theorem iterAdvance_inside (hp : p + 1 < slotsPerCluster fs) :
    (iterAdvance cidx (place fs p).1 (place fs p).2 type).evalIn q v = some (iterAt fs cidx (p + 1)) := by
  have ⟨hs, hj⟩ := place_lt (Nat.lt_of_succ_lt hp)
  have ⟨hm, hd⟩ := byteOffset_next h <| p % slotsPerSector fs
  simp only [iterAdvance, place, hm, hd, iterAt]
  by_cases hc : p % slotsPerSector fs + 1 = slotsPerSector fs
  case pos =>
    have hs : p / slotsPerSector fs + 1 < fs.secPerCluster := by
      have := (place_lt hp).1
      rwa [show (p + 1) / slotsPerSector fs = _ from congrArg Prod.fst <| place_succ_sector hc] at this
    have he := place_succ_sector hc
    simp only [place, Prod.mk.injEq] at he
    rw [he.1, he.2, hc]
    cases type <;> simp [Nat.div_self (Nat.zero_lt_of_lt hj), Nat.div_eq_of_lt hs, Nat.mod_eq_of_lt hs]
  case neg =>
    have hc : p % slotsPerSector fs + 1 < slotsPerSector fs := by omega
    have he := place_succ hc
    simp only [place, Prod.mk.injEq] at he
    rw [he.1, he.2]
    cases type <;>
      simp [Nat.div_eq_of_lt hc, Nat.div_eq_of_lt hs, Nat.mod_eq_of_lt hs, Nat.mod_eq_of_lt hc]

variable (hp : p + 1 = slotsPerCluster fs) (hq : 0 < slotsPerSector fs)

include hp hq

theorem iterAdvance_directory :
    (iterAdvance cidx (place fs p).1 (place fs p).2 .directory).evalIn q v = some (iterAt fs (cidx + 1) 0) := by
  have ⟨hj, hs⟩ := place_end hp hq
  have ⟨hm, hd⟩ := byteOffset_next h <| p % slotsPerSector fs
  have hS : 0 < fs.secPerCluster := hs ▸ Nat.succ_pos _
  simp only [iterAdvance, place, hm, hd, hj]
  simp [Nat.div_self hq, hs, Nat.div_self hS, iterAt, place]

theorem iterAdvance_file (ha : q <| tableSidx fs cidx) (hc : (fat32GetChain cidx).eval v = .ok cidx') :
    (iterAdvance cidx (place fs p).1 (place fs p).2 .file).evalIn q v = some (iterAt fs cidx' 0) := by
  have ⟨hj, hs⟩ := place_end hp hq
  have ⟨hm, hd⟩ := byteOffset_next h <| p % slotsPerSector fs
  have hS : 0 < fs.secPerCluster := hs ▸ Nat.succ_pos _
  simp only [iterAdvance, place, hm, hd, hj]
  simp [Nat.div_self hq, hs, Nat.div_self hS, iterAt, place, fat32GetChain_evalIn ha hc]

end Advance

end Zgmos.Fat32
