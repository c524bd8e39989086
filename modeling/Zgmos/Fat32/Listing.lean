import Zgmos.Fat32.Directory
import Zgmos.Fat32.ReadFile

-- The loop of a caller which calls `fat32_iter_next` until it returns false.

namespace Zgmos.Fat32

-- The slots of a sector fill it.
structure Aligned (fs : Fat32Fs) : Prop where
  slot   : 32 ∣ fs.bytePerSector
  byte   : 0 < fs.bytePerSector
  sector : 0 < fs.secPerCluster

variable {fs : Fat32Fs}

def entries (fs : Fat32Fs) (es : List Slot) : List Entry :=
  es.filterMap <| Slot.entry? fs

-- What the code makes of the slots.
def foundEntries (fs : Fat32Fs) : (named : Bool) → List Slot → List Entry
  | _,     []      => []
  | named, e :: es =>
    if e.isFree then foundEntries fs named es
    else if e.isLongName then foundEntries fs true es
    else (e.found? fs named).toList ++ foundEntries fs false es

-- The last slot of the cluster has a directory.
def EndsWithDirectory (v : Volume fs) (cidx : Cidx) : Prop :=
  ((clusterSlots v cidx).getLast?.bind <| Slot.entry? fs).map Entry.type = some .directory

instance {v : Volume fs} {cidx : Cidx} : Decidable (EndsWithDirectory v cidx) :=
  inferInstanceAs <| Decidable (_ = _)

-- The cluster after the last entry of a cluster.
def successor (v : Volume fs) (cidx : Cidx) : Except Fault Cidx :=
  if EndsWithDirectory v cidx then return cidx + 1 else (fat32GetChain cidx).eval v

inductive Walk (v : Volume fs) : Cidx → List Cidx → Prop
  | nil {cidx} : chainEndFlag ≤ cidx → Walk v cidx []
  | cons {cidx cidx' cs} : cidx < chainEndFlag → successor v cidx = .ok cidx' →
    Walk v cidx' cs → Walk v cidx (cidx :: cs)

-- The sectors of the clusters of a chain and those of the table with its words.
def OfChain (fs : Fat32Fs) (cs : List Cidx) (sidx : Sidx) : Prop :=
  ∃ c ∈ cs, (∃ n < fs.secPerCluster, sidx = clusterSidx fs c n) ∨ sidx = tableSidx fs c

-- All calls until `fat32_iter_next` returns false.
def Lists (v : Volume fs) (cs : List Cidx) (dir : Fat32Obj) : Prop :=
  ∀ obj, ∃ fuel n objs,
    (∀ b : Bio fs, b.Coherent v → ∃ b',
      (listDirectory fuel n (fat32IterStart dir) obj).run Bio.sector b = .ok (objs, b') ∧ b'.Coherent v) ∧
    (∀ sidx ∈ (listDirectory fuel n (fat32IterStart dir) obj).asked v, OfChain fs cs sidx) ∧
    objs.map Fat32Obj.entry = entries fs (chainSlots v cs)

-- The clusters lie after the table and have numbers of 32 bits, as does the sector after each of them.
structure Layout (fs : Fat32Fs) (cs : List Cidx) : Prop extends Aligned fs where
  two_le : ∀ c ∈ cs, 2 ≤ c.toNat
  table  : ∀ c ∈ cs, (tableSidx fs c).toNat < fs.firstClusterSidx.toNat
  last   : ∀ c ∈ cs, fs.firstClusterSidx.toNat + (c.toNat - 1) * fs.secPerCluster < 2 ^ 32

-- The objects which a caller gets for some slots.
def listSlots (fs : Fat32Fs) : Fns → Fat32Obj → List Slot → Except Fault (List Fat32Obj)
  | _,  _,   []      => return []
  | st, obj, e :: es => do
    match ← visit fs st obj e with
    | .next st   => listSlots fs st obj es
    | .found obj => return obj :: (← listSlots fs .init obj es)

variable {v : Volume fs} {cidx cidx' c₀ : Cidx} {cs vs : List Cidx} {obj obj' : Fat32Obj} {st st' : Fns}
  {p n fuel f : Nat} {e : Slot} {es es' : List Slot} {q : Sidx → Prop} {objs : List Fat32Obj}

theorem Aligned.slotsPerSector_pos (l : Aligned fs) : 0 < slotsPerSector fs :=
  Nat.div_pos (Nat.le_of_dvd l.byte l.slot) (by decide)

theorem Aligned.slotsPerCluster_pos (l : Aligned fs) : 0 < slotsPerCluster fs :=
  Nat.mul_pos l.sector l.slotsPerSector_pos

theorem Aligned.exists_chain (l : Aligned fs) (v : Volume fs) (cidx : Cidx) :
    ∃ cidx', (fat32GetChain cidx).eval v = .ok cidx' := by
  have h : fs.chainPerSector ≠ 0 := by
    have := Nat.le_of_dvd l.byte l.slot
    rw [Fat32Fs.chainPerSector]
    omega
  exact ⟨_, fat32GetChain_eval h⟩

theorem chainSlots_cons : chainSlots v (cidx :: cs) = clusterSlots v cidx ++ chainSlots v cs :=
  List.flatMap_cons ..

theorem chainSlots_drop (hp : p < slotsPerCluster fs) :
    (chainSlots v <| cidx :: cs).drop p = (clusterSlots v cidx).drop p ++ chainSlots v cs := by
  rw [chainSlots_cons, List.drop_append_of_le_length <| by simpa using hp.le]

theorem foundEntries_other (hf : ¬e.isFree) (hl : ¬e.isLongName) (named : Bool) :
    foundEntries fs named (e :: es) = (e.found? fs named).toList ++ foundEntries fs false es := by
  rw [foundEntries, if_neg hf, if_neg hl]

section ListSlots

-- A scan is the part of the loop up to the next entry.

theorem listSlots_error {f : Fault} (h : scan fs obj p st es = .error f) : listSlots fs st obj (es ++ es') = .error f := by
  induction es generalizing p st
  case nil => cases h
  case cons e es hi =>
    rw [scan] at h
    rw [List.cons_append, listSlots]
    cases hv : visit fs st obj e
    case error =>
      rw [hv] at h
      cases h
      rfl
    case ok r  =>
      rw [hv] at h
      cases r
      case next  => exact hi h
      case found => cases h

theorem listSlots_inl (h : scan fs obj p st es = .ok (.inl st')) :
    listSlots fs st obj (es ++ es') = listSlots fs st' obj es' := by
  induction es generalizing p st
  case nil => cases h; rfl
  case cons e es hi =>
    rw [scan] at h
    rw [List.cons_append, listSlots]
    cases hv : visit fs st obj e
    case error => rw [hv] at h; cases h
    case ok r  =>
      rw [hv] at h
      cases r
      case next  => exact hi h
      case found => cases h

theorem listSlots_inr {k : Nat} (h : scan fs obj p st es = .ok (.inr (k, obj'))) :
    listSlots fs st obj (es ++ es') =
      (obj' :: ·) <$> listSlots fs .init obj' (es.drop (k - p + 1) ++ es') ∧ p ≤ k ∧ k < p + es.length ∧
      (es[k - p]?.bind <| Slot.entry? fs).map Entry.type = some obj'.type := by
  induction es generalizing p st
  case nil => cases h
  case cons e es hi =>
    rw [scan] at h
    rw [List.cons_append, listSlots]
    cases hv : visit fs st obj e
    case error => rw [hv] at h; cases h
    case ok r  =>
      rw [hv] at h
      cases r
      case next =>
        obtain ⟨hl, hp, hk, ht⟩ := hi h
        have hd : k - p = k - (p + 1) + 1 := by omega
        rw [hd, List.drop_succ_cons, List.getElem?_cons_succ, List.length_cons]
        exact ⟨hl, by omega, by omega, ht⟩
      case found =>
        cases h
        rw [Nat.sub_self, List.length_cons]
        refine ⟨?_, le_rfl, by omega, visit_found hv⟩
        simp only [Nat.zero_add, List.drop_succ_cons, List.drop_zero, Functor.map, Except.map, bind, Except.bind]
        cases listSlots fs .init obj' (es ++ es') <;> rfl

end ListSlots

theorem clusterSlots_drop (hp : p < slotsPerCluster fs) : (clusterSlots v cidx).drop p =
    ((List.range' (place fs p).1 <| fs.secPerCluster - (place fs p).1).flatMap fun k =>
      sectorSlots <| v <| clusterSidx fs cidx k).drop (p % slotsPerSector fs) := by
  have hs := (place_lt hp).1
  have hr : List.range' 0 fs.secPerCluster = List.range' 0 (p / slotsPerSector fs) ++
      List.range' (p / slotsPerSector fs) (fs.secPerCluster - p / slotsPerSector fs) := by
    have := @List.range'_append_1 0 (p / slotsPerSector fs) (fs.secPerCluster - p / slotsPerSector fs)
    rw [Nat.zero_add, Nat.add_sub_cancel' hs.le] at this
    exact this.symm
  have hl : p = ((List.range' 0 (p / slotsPerSector fs)).flatMap fun k =>
      sectorSlots <| v <| clusterSidx fs cidx k).length + p % slotsPerSector fs := by
    simp [List.length_flatMap, Nat.div_add_mod']
  rw [clusterSlots, hr, List.flatMap_append]
  exact (congrArg (fun n => List.drop n _) hl).trans <| List.drop_length_add_append ..

-- The loop over the clusters up to the first entry.
theorem iterClusters_evalIn (l : Aligned fs) (hd : ∀ n < fs.secPerCluster, q (clusterSidx fs cidx n))
    (h : cidx < chainEndFlag) (hp : p < slotsPerCluster fs) :
    (iterClusters obj (f + 1) cidx (place fs p).1 (place fs p).2 st).evalIn q v =
      ((scan fs obj p st <| (clusterSlots v cidx).drop p).map (placed fs)).toOption.bind fun r =>
        (match r with
          | .inl st                     => do iterClusters obj f (← fat32GetChain cidx) 0 0 st
          | .inr ((sidxOffset, i), obj) =>
            return some (← iterAdvance cidx sidxOffset i obj.type, obj)).evalIn q v := by
  have hs := place_lt hp
  rw [iterClusters, if_pos h, Program.evalIn_bind, clusterSlots_drop hp]
  refine congrArg (Option.bind · _) ?_
  have := @iterSectors_evalIn fs v cidx obj st (p / slotsPerSector fs)
    (fs.secPerCluster - p / slotsPerSector fs) _ q l.slot hs.2 fun k _ hk => hd k (by omega)
  rwa [Nat.div_add_mod'] at this

variable (obj) in
-- The rest of a cluster cannot be passed, has no entry, has an entry before the last slot, or just one in the last slot.
theorem iterClusters_cases (l : Aligned fs) (hd : ∀ n < fs.secPerCluster, q (clusterSidx fs cidx n))
    (ht : q <| tableSidx fs cidx) (hlt : cidx < chainEndFlag) (hg : (fat32GetChain cidx).eval v = .ok cidx')
    (hp : p < slotsPerCluster fs) :
    (∀ es', ∃ e, listSlots fs st obj ((clusterSlots v cidx).drop p ++ es') = .error e ∧
      ∀ f, (iterClusters obj (f + 1) cidx (place fs p).1 (place fs p).2 st).evalIn q v = none) ∨
    (∃ st', successor v cidx = .ok cidx' ∧
      (∀ es', listSlots fs st obj ((clusterSlots v cidx).drop p ++ es') = listSlots fs st' obj es') ∧
      ∀ f, (iterClusters obj (f + 1) cidx (place fs p).1 (place fs p).2 st).evalIn q v =
        (iterClusters obj f cidx' 0 0 st').evalIn q v) ∨
    (∃ p' obj', p < p' ∧ p' < slotsPerCluster fs ∧
      (∀ es', listSlots fs st obj ((clusterSlots v cidx).drop p ++ es') =
        (obj' :: ·) <$> listSlots fs .init obj' ((clusterSlots v cidx).drop p' ++ es')) ∧
      ∀ f, (iterClusters obj (f + 1) cidx (place fs p).1 (place fs p).2 st).evalIn q v =
        some (some (iterAt fs cidx p', obj'))) ∨
    ∃ c obj', successor v cidx = .ok c ∧
      (∀ es', listSlots fs st obj ((clusterSlots v cidx).drop p ++ es') =
        (obj' :: ·) <$> listSlots fs .init obj' es') ∧
      ∀ f, (iterClusters obj (f + 1) cidx (place fs p).1 (place fs p).2 st).evalIn q v =
        some (some (iterAt fs c 0, obj')) := by
  have he (f : Nat) := @iterClusters_evalIn fs v cidx obj st p f q l hd hlt hp
  have hl : (clusterSlots v cidx).getLast? = ((clusterSlots v cidx).drop p).getLast? := by
    rw [List.getLast?_drop, if_neg <| by simpa using hp]
  cases hs : scan fs obj p st ((clusterSlots v cidx).drop p)
  case error e =>
    refine .inl fun es' => ⟨e, listSlots_error hs, fun f => ?_⟩
    rw [he, hs]
    rfl
  case ok r =>
    cases r
    case inl st' =>
      have hn : ¬EndsWithDirectory v cidx := by
        unfold EndsWithDirectory
        rw [hl]
        cases hg : ((clusterSlots v cidx).drop p).getLast?
        case none   => simp
        case some e => simp [scan_inl hs e <| List.mem_of_getLast? hg]
      refine .inr <| .inl ⟨st', by rw [successor, if_neg hn, hg], fun es' => listSlots_inl hs, fun f => ?_⟩
      rw [he, hs]
      exact (Program.evalIn_bind ..).trans <| by rw [fat32GetChain_evalIn ht hg]; rfl
    case inr r =>
      obtain ⟨k, obj'⟩ := r
      obtain ⟨_, hpk, hk, hty⟩ := @listSlots_inr fs obj obj' st p _ [] k hs
      rw [List.length_drop, clusterSlots_length] at hk
      have hls (es' : List Slot) : listSlots fs st obj ((clusterSlots v cidx).drop p ++ es') =
          (obj' :: ·) <$> listSlots fs .init obj' ((clusterSlots v cidx).drop (k + 1) ++ es') := by
        rw [(listSlots_inr hs).1, List.drop_drop, show p + (k - p + 1) = k + 1 by omega]
      have hf (f : Nat) : (iterClusters obj (f + 1) cidx (place fs p).1 (place fs p).2 st).evalIn q v =
          ((iterAdvance cidx (place fs k).1 (place fs k).2 obj'.type).evalIn q v).bind fun iter =>
            some <| some (iter, obj') := by
        rw [he, hs]
        exact Program.evalIn_bind ..
      obtain hk' | hk' : k + 1 < slotsPerCluster fs ∨ k + 1 = slotsPerCluster fs := by omega
      case inl =>
        refine .inr <| .inr <| .inl ⟨k + 1, obj', by omega, hk', hls, fun f => ?_⟩
        rw [hf, iterAdvance_inside l.slot hk', Option.bind_some]
      case inr =>
        have hdrop : (clusterSlots v cidx).drop (k + 1) = [] := List.drop_eq_nil_of_le <| by rw [clusterSlots_length, hk']
        simp only [hdrop, List.nil_append] at hls
        have hlast : EndsWithDirectory v cidx ↔ obj'.type = .directory := by
          have : k = (clusterSlots v cidx).length - 1 := by rw [clusterSlots_length]; omega
          rw [List.getElem?_drop, show p + (k - p) = k by omega, this, ← List.getLast?_eq_getElem?] at hty
          rw [EndsWithDirectory, hty, Option.some_inj]
        refine .inr <| .inr <| .inr ?_
        cases htype : obj'.type
        case file =>
          refine ⟨cidx', obj', ?_, hls, fun f => ?_⟩
          case refine_1 => rw [successor, if_neg <| by simp [hlast, htype], hg]
          case refine_2 => rw [hf, htype, iterAdvance_file l.slot hk' l.slotsPerSector_pos ht hg, Option.bind_some]
        case directory =>
          refine ⟨cidx + 1, obj', ?_, hls, fun f => ?_⟩
          case refine_1 => rw [successor, if_pos <| hlast.mpr htype]; rfl
          case refine_2 => rw [hf, htype, iterAdvance_directory l.slot hk' l.slotsPerSector_pos, Option.bind_some]

-- The rest of the loop of a caller after a call.
def listing (fuel n : Nat) : Option (DirectoryIter × Fat32Obj) → Prog fs (List Fat32Obj)
  | none             => return []
  | some (iter, obj) => return obj :: (← listDirectory fuel n iter obj)

theorem listDirectory_succ {iter : DirectoryIter} : (listDirectory fuel (n + 1) iter obj : Prog fs _) =
    iterClusters obj fuel iter.curCidx iter.curSidxOffset iter.curByteOffset .init >>= listing fuel n := by
  refine congrArg (Program.bind · _) ?_
  funext r
  cases r <;> rfl

theorem listDirectory_evalIn_some {iter : DirectoryIter}
    (h : (listDirectory fuel n iter obj).evalIn q v = some objs) : ∃ m, n = m + 1 ∧
      (iterClusters obj fuel iter.curCidx iter.curSidxOffset iter.curByteOffset .init >>= listing fuel m).evalIn
        q v = some objs := by
  cases n
  case zero   => nomatch h
  case succ m => exact ⟨m, rfl, listDirectory_succ ▸ h⟩

theorem place_zero : place fs 0 = (0, 0) := by
  simp [place]

theorem listing_evalIn {iter : DirectoryIter} : (listing fuel n (some (iter, obj))).evalIn q v =
    ((listDirectory fuel n iter obj).evalIn q v).map (obj :: ·) := by
  refine (Program.evalIn_bind ..).trans ?_
  cases (listDirectory fuel n iter obj).evalIn q v <;> rfl

-- The first sector of a cluster is read.
theorem iterClusters_asks (l : Aligned fs) (hc : cidx < chainEndFlag)
    (h : (iterClusters obj f cidx 0 0 st >>= listing fuel n).evalIn q v = some objs) :
    q <| clusterSidx fs cidx 0 := by
  by_contra hq
  cases f
  case zero => nomatch h
  case succ =>
    have ⟨m, hm⟩ := Nat.exists_eq_succ_of_ne_zero l.sector.ne'
    rw [iterClusters, if_pos hc, Nat.sub_zero, hm, iterSectors] at h
    simp [Program.evalIn_get_not hq] at h

theorem clusterSidx_toNat (hc : 2 ≤ cidx.toNat)
    (h : (cidx.toNat - 2) * fs.secPerCluster + fs.firstClusterSidx.toNat + n < 2 ^ 32) :
    (clusterSidx fs cidx n).toNat =
      (cidx.toNat - 2) * fs.secPerCluster + fs.firstClusterSidx.toNat + n := by
  have h₂ : (cidx - 2).toNat = cidx.toNat - 2 := BitVec.toNat_sub_of_le <| BitVec.le_def.mpr hc
  simp only [clusterSidx, fat32Clu2sec, BitVec.toNat_add, BitVec.toNat_mul, BitVec.toNat_ofNat, h₂,
    Nat.mul_mod_mod, Nat.mod_add_mod, Nat.add_mod_mod]
  exact Nat.mod_eq_of_lt h

-- A sector of the chain belongs to one cluster only.
theorem Layout.mem_of_ofChain (l : Layout fs cs) (hc : cidx ∈ cs) (hlt : cidx < chainEndFlag)
    (h : OfChain fs cs <| clusterSidx fs (cidx + 1) 0) : cidx + 1 ∈ cs := by
  have h₂ := l.two_le cidx hc
  have hl := l.last cidx hc
  have hlt : cidx.toNat < 0x0ffffff8 := BitVec.lt_def.mp hlt
  have hs : (cidx + 1).toNat = cidx.toNat + 1 := by
    rw [BitVec.toNat_add]
    exact Nat.mod_eq_of_lt <| by simp; omega
  have he := clusterSidx_toNat (n := 0) (show 2 ≤ (cidx + 1).toNat by omega) <| by
    rw [hs, Nat.add_comm _ fs.firstClusterSidx.toNat]
    exact hl
  have ⟨c, hm, h⟩ := h
  cases h
  case inl h =>
    have ⟨n, hn, h⟩ := h
    have hc₂ := l.two_le c hm
    have hcl := l.last c hm
    have hsub : c.toNat - 1 = c.toNat - 2 + 1 := by omega
    rw [hsub, Nat.succ_mul] at hcl
    rw [h, clusterSidx_toNat hc₂ <| by omega, hs] at he
    have hd : (n + (c.toNat - 2) * fs.secPerCluster) / fs.secPerCluster = c.toNat - 2 := by
      rw [Nat.add_mul_div_right _ _ l.sector, Nat.div_eq_of_lt hn, Nat.zero_add]
    have he : n + (c.toNat - 2) * fs.secPerCluster = (cidx.toNat + 1 - 2) * fs.secPerCluster := by omega
    rw [he, Nat.mul_div_cancel _ l.sector] at hd
    have : cidx + 1 = c := BitVec.eq_of_toNat_eq <| by omega
    exact this ▸ hm
  case inr h =>
    have := l.table c hm
    rw [h] at he
    omega

theorem exists_of_map_ok {a : Fat32Obj} {r : Except Fault (List Fat32Obj)} (h : (a :: ·) <$> r = .ok objs) :
    ∃ objs', r = .ok objs' ∧ objs = a :: objs' := by
  cases r
  case error => cases h
  case ok os => exact ⟨os, rfl, (Except.ok.inj h).symm⟩

-- If the objects exist, the calls follow the walk and return them.
theorem listing_complete (l : Aligned fs) (hu : vs.length < fuel) (hw : Walk v cidx vs)
    (hq : ∀ sidx, OfChain fs vs sidx → q sidx) (hp : p < slotsPerCluster fs) (hf : vs.length < f)
    (hn : objs.length ≤ n) (h : listSlots fs st obj ((chainSlots v vs).drop p) = .ok objs) :
    (iterClusters obj f cidx (place fs p).1 (place fs p).2 st >>= listing fuel n).evalIn q v = some objs := by
  induction hw generalizing f st p obj n objs
  case nil hc =>
    have he : (chainSlots v []).drop p = [] := List.drop_nil
    rw [he] at h
    cases h
    obtain ⟨f, rfl⟩ := Nat.exists_eq_succ_of_ne_zero <| Nat.ne_zero_of_lt hf
    rw [iterClusters, if_neg <| BitVec.not_lt.mpr hc]
    rfl
  case cons cidx cidx₁ vs hlt hs hw hi =>
    rw [List.length_cons] at hu
    have hi' {f p n : Nat} {st : Fns} {obj : Fat32Obj} {objs : List Fat32Obj} :=
      @hi obj st p n f objs (by omega) fun sidx ⟨c, hc, ho⟩ => hq sidx ⟨c, .tail _ hc, ho⟩
    obtain ⟨cidx', hg⟩ := l.exists_chain v cidx
    -- The induction is on the number of slots which are left in the cluster.
    induction hk : slotsPerCluster fs - p using Nat.strongRecOn generalizing p st obj f n objs
    case ind m hm =>
    obtain ⟨f, rfl⟩ := Nat.exists_eq_succ_of_ne_zero <| Nat.ne_zero_of_lt hf
    rw [List.length_cons] at hf
    rw [chainSlots_drop hp] at h
    obtain hc | ⟨st', hc, hl, he⟩ | ⟨p', obj', hlt', hp', hl, he⟩ | ⟨c, obj', hc, hl, he⟩ :=
      @iterClusters_cases fs v cidx cidx' obj st p q l (fun n hn => hq _ ⟨cidx, .head _, .inl ⟨n, hn, rfl⟩⟩)
        (hq _ ⟨cidx, .head _, .inr rfl⟩) hlt hg hp
    case inl =>
      obtain ⟨e, he, _⟩ := hc <| chainSlots v vs
      cases he.symm.trans h
    case inr.inl =>
      cases hs.symm.trans hc
      rw [Program.evalIn_bind, he, ← Program.evalIn_bind]
      have := @hi' f 0 n st' obj objs l.slotsPerCluster_pos (by omega) hn <| by rwa [List.drop_zero, ← hl]
      rwa [place_zero] at this
    case inr.inr.inl =>
      rw [hl] at h
      obtain ⟨objs, h', rfl⟩ := exists_of_map_ok h
      obtain ⟨n, rfl⟩ := Nat.exists_eq_succ_of_ne_zero <| Nat.ne_zero_of_lt hn
      have := hm (slotsPerCluster fs - p') (by omega) hp' (show (cidx :: vs).length < fuel by simpa using hu)
        (Nat.le_of_succ_le_succ hn) (by rwa [chainSlots_drop hp']) rfl
      rw [Program.evalIn_bind, he, Option.bind_some, listing_evalIn, listDirectory_succ]
      exact congrArg (Option.map (obj' :: ·)) this
    case inr.inr.inr =>
      cases hs.symm.trans hc
      rw [hl] at h
      obtain ⟨objs, h', rfl⟩ := exists_of_map_ok h
      obtain ⟨n, rfl⟩ := Nat.exists_eq_succ_of_ne_zero <| Nat.ne_zero_of_lt hn
      have := @hi' fuel 0 n .init obj' objs l.slotsPerCluster_pos (by omega) (Nat.le_of_succ_le_succ hn) h'
      rw [Program.evalIn_bind, he, Option.bind_some, listing_evalIn, listDirectory_succ]
      exact congrArg (Option.map (obj' :: ·)) this

theorem Chain.mem_link (h : Chain v c₀ cs) (hm : cidx ∈ cs) (hg : (fat32GetChain cidx).eval v = .ok cidx')
    (hlt : cidx' < chainEndFlag) : cidx' ∈ cs := by
  induction h
  case nil => cases hm
  case cons hg' hr hi =>
    cases hm
    case tail hm => exact .tail _ <| hi hm
    case head    =>
      cases hg.symm.trans hg'
      cases hr
      case nil hc => exact absurd hlt <| BitVec.not_lt.mpr hc
      case cons   => exact .tail _ <| .head _

-- If the calls return and stay in the chain, there is a walk in the chain with the objects.
theorem listing_sound (l : Layout fs cs) (h : Chain v c₀ cs) (hm : cidx < chainEndFlag → cidx ∈ cs)
    (hp : p < slotsPerCluster fs)
    (hr : (iterClusters obj f cidx (place fs p).1 (place fs p).2 st >>= listing fuel n).evalIn (OfChain fs cs) v =
      some objs) :
    ∃ vs, Walk v cidx vs ∧ (∀ c ∈ vs, c ∈ cs) ∧ listSlots fs st obj ((chainSlots v vs).drop p) = .ok objs := by
  -- The inductions are on the number of calls, and on the number of clusters in a call.
  induction n using Nat.strongRecOn generalizing f cidx p st obj objs
  case ind n hn =>
  induction f generalizing cidx p st
  case zero => cases hr
  case succ f hi =>
    by_cases hlt : cidx < chainEndFlag
    case neg =>
      rw [iterClusters, if_neg hlt] at hr
      cases hr
      exact ⟨[], .nil <| BitVec.not_lt.mp hlt, by simp, congrArg (listSlots fs st obj) List.drop_nil⟩
    case pos =>
      have hc := hm hlt
      obtain ⟨cidx', hg⟩ := l.exists_chain v cidx
      have cons {c : Cidx} {vs : List Cidx} (hs : successor v cidx = .ok c) (hw : Walk v c vs) (hv : ∀ c ∈ vs, c ∈ cs) :
          Walk v cidx (cidx :: vs) ∧ ∀ c ∈ cidx :: vs, c ∈ cs :=
        ⟨.cons hlt hs hw, List.forall_mem_cons.mpr ⟨hc, hv⟩⟩
      rw [Program.evalIn_bind] at hr
      obtain he | ⟨st', hs, hl, he⟩ | ⟨p', obj', _, hp', hl, he⟩ | ⟨c, obj', hs, hl, he⟩ :=
        @iterClusters_cases fs v cidx cidx' obj st p (OfChain fs cs) l.toAligned
          (fun n hn => ⟨cidx, hc, .inl ⟨n, hn, rfl⟩⟩) ⟨cidx, hc, .inr rfl⟩ hlt hg hp
      case inl =>
        obtain ⟨_, _, he⟩ := he []
        rw [he] at hr
        cases hr
      case inr.inl =>
        rw [he, ← Program.evalIn_bind] at hr
        have hm' (hlt' : cidx' < chainEndFlag) : cidx' ∈ cs := h.mem_link hc hg hlt'
        obtain ⟨vs, hw, hv, ho⟩ := @hi cidx' st' 0 hm' l.slotsPerCluster_pos <| by rwa [place_zero]
        obtain ⟨hw, hv⟩ := cons hs hw hv
        exact ⟨cidx :: vs, hw, hv, by rw [chainSlots_drop hp, hl]; exact ho⟩
      case inr.inr.inl =>
        rw [he, Option.bind_some, listing_evalIn] at hr
        obtain ⟨objs, hr', rfl⟩ := Option.map_eq_some_iff.mp hr
        obtain ⟨m, rfl, hr'⟩ := listDirectory_evalIn_some hr'
        obtain ⟨vs, hw, hv, ho⟩ := hn m (Nat.lt_succ_self m) hm hp' hr'
        cases hw
        case nil hn  => exact absurd hlt <| BitVec.not_lt.mpr hn
        case cons c vs hw _ hs =>
          rw [chainSlots_drop hp'] at ho
          refine ⟨_, .cons hlt hs hw, hv, ?_⟩
          rw [chainSlots_drop hp, hl, ho]
          rfl
      case inr.inr.inr =>
        rw [he, Option.bind_some, listing_evalIn] at hr
        obtain ⟨objs, hr', rfl⟩ := Option.map_eq_some_iff.mp hr
        obtain ⟨m, rfl, hr'⟩ := listDirectory_evalIn_some hr'
        have hm' (hlt' : c < chainEndFlag) : c ∈ cs := by
          by_cases hd : EndsWithDirectory v cidx
          case pos =>
            rw [successor, if_pos hd] at hs
            cases hs
            rw [iterAt, place_zero] at hr'
            exact l.mem_of_ofChain hc hlt <| iterClusters_asks l.toAligned hlt' hr'
          case neg =>
            rw [successor, if_neg hd] at hs
            exact h.mem_link hc hs hlt'
        obtain ⟨vs, hw, hv, ho⟩ := hn m (Nat.lt_succ_self m) hm' l.slotsPerCluster_pos hr'
        obtain ⟨hw, hv⟩ := cons hs hw hv
        refine ⟨cidx :: vs, hw, hv, ?_⟩
        rw [List.drop_zero] at ho
        rw [chainSlots_drop hp, hl, ho]
        rfl
theorem lists_iff_evalIn {dir : Fat32Obj} (hb : 0 < fs.bufNum) : Lists v cs dir ↔ ∀ obj, ∃ fuel n objs,
    (listDirectory fuel n (fat32IterStart dir) obj).evalIn (OfChain fs cs) v = some objs ∧
      objs.map Fat32Obj.entry = entries fs (chainSlots v cs) := by
  refine forall_congr' fun obj => exists₃_congr fun fuel n objs => ?_
  rw [← and_assoc, Program.evalIn_eq_some_iff]
  refine and_congr_left fun _ => and_congr_left fun _ => ?_
  constructor
  case mp =>
    intro hr
    have ⟨b, w⟩ := exists_coherent v
    have ⟨b', hr, _⟩ := hr b w
    exact w.eval_of_run hb hr
  case mpr => exact fun h b w => w.run_of_eval hb h

-- The condition on the slots for which there is a walk with the right objects.
theorem lists_iff_listSlots {dir : Fat32Obj} (l : Layout fs cs) (hb : 0 < fs.bufNum) (h : Chain v dir.cidx cs) :
    Lists v cs dir ↔ ∀ obj, ∃ vs objs, Walk v dir.cidx vs ∧ (∀ c ∈ vs, c ∈ cs) ∧
      listSlots fs .init obj (chainSlots v vs) = .ok objs ∧ objs.map Fat32Obj.entry = entries fs (chainSlots v cs) := by
  have hm (hlt : dir.cidx < chainEndFlag) : dir.cidx ∈ cs := by
    cases h
    case nil hc => exact absurd hlt <| BitVec.not_lt.mpr hc
    case cons   => exact .head _
  rw [lists_iff_evalIn hb]
  refine forall_congr' fun obj => ?_
  constructor
  case mp =>
    intro ⟨fuel, n, objs, hr, ho⟩
    obtain ⟨m, _, hr⟩ := listDirectory_evalIn_some hr
    have hr : (iterClusters obj fuel dir.cidx (place fs 0).1 (place fs 0).2 .init >>= listing fuel m).evalIn
        (OfChain fs cs) v = some objs := by rwa [place_zero]
    obtain ⟨vs, hw, hv, hs⟩ := listing_sound l h hm l.slotsPerCluster_pos hr
    exact ⟨vs, objs, hw, hv, hs, ho⟩
  case mpr =>
    intro ⟨vs, objs, hw, hv, hs, ho⟩
    have hq (sidx : Sidx) : OfChain fs vs sidx → OfChain fs cs sidx := fun ⟨c, hc, hx⟩ => ⟨c, hv c hc, hx⟩
    have hr := listing_complete l.toAligned (Nat.lt_succ_self _) hw hq l.slotsPerCluster_pos (Nat.lt_succ_self _) le_rfl hs
    rw [place_zero] at hr
    exact ⟨vs.length + 1, objs.length + 1, objs, listDirectory_succ ▸ hr, ho⟩

theorem Walk.of_chain (h : Chain v cidx cs) (hd : ∀ c ∈ cs, ¬EndsWithDirectory v c) : Walk v cidx cs := by
  induction h
  case nil h => exact .nil h
  case cons hlt hg _ hi =>
    refine .cons hlt ?_ <| hi fun c hc => hd c <| by simp [hc]
    rwa [successor, if_neg <| hd _ <| by simp]

-- Each byte of a cluster is `b`.
def uniform (b : Byte) : Volume sample :=
  fun sidx _ => if sidx < sample.firstClusterSidx then 255 else b

def sampleDirectory : Fat32Obj :=
  { sampleFile 0 with type := .directory }

theorem uniform_chain (b : Byte) : Chain (uniform b) 3 [3] := by
  refine .cons (by decide) (fat32GetChain_eval <| by decide) <| .nil ?_
  simp [wordAt, byteAt, uniform, tableSidx, sample, Fat32Fs.chainPerSector, chainEndFlag]

theorem sample_layout : Layout sample [3] where
  slot   := by decide
  byte   := by decide
  sector := by decide
  two_le := by simp
  table  := by simp [tableSidx, sample, Fat32Fs.chainPerSector]
  last   := by simp [sample]

theorem uniform_slot {b : Byte} {e : Slot} (h : e ∈ clusterSlots (uniform b) 3) {k : Nat} (hk : k < 32) : e k = b := by
  simp only [clusterSlots, sectorSlots, List.mem_flatMap, List.mem_range'_1, List.mem_map] at h
  obtain ⟨n, hn, j, hj, he⟩ := h
  have hn : n < 2 := by simpa [sample] using hn
  have hj : j < 16 := by simpa [slotsPerSector, sample] using hj
  have hb : 32 * j + k < 512 := by omega
  have hs : ∀ n < 2, ¬clusterSidx sample 3 n < sample.firstClusterSidx := by decide
  subst he
  exact (dif_pos hb).trans <| if_neg <| hs n hn

-- The directory in cluster 3 begins with the given slots.
def slotsVolume (es : List Slot) : Volume sample :=
  fun sidx k =>
    if sidx < sample.firstClusterSidx then 255
    else if sidx = clusterSidx sample 3 0 then es.getD (k / 32) (fun _ => 0) (k % 32)
    else 0

theorem slotsVolume_chain (es : List Slot) : Chain (slotsVolume es) 3 [3] := by
  refine .cons (by decide) (fat32GetChain_eval <| by decide) <| .nil ?_
  simp [wordAt, byteAt, slotsVolume, tableSidx, sample, Fat32Fs.chainPerSector, chainEndFlag]

theorem slotsVolume_slot {es : List Slot} {j k : Nat} (hj : j < 16) (hk : k < 32) :
    slotAt (slotsVolume es <| clusterSidx sample 3 0) (32 * j) k = es.getD j (fun _ => 0) k := by
  have hb : 32 * j + k < 512 := by omega
  have hd : (32 * j + k) / 32 = j ∧ (32 * j + k) % 32 = k := by omega
  have hn : ¬clusterSidx sample 3 0 < sample.firstClusterSidx := by decide
  refine (dif_pos hb).trans ?_
  rw [slotsVolume, if_neg hn, if_pos rfl, hd.1, hd.2]

end Zgmos.Fat32
