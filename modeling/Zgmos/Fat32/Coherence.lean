import Zgmos.Fat32.Bio

namespace Zgmos.Fat32

-- What the sectors of a volume contain.
abbrev Volume (fs : Fat32Fs) := Sidx → Sector fs

namespace Bio

variable {fs : Fat32Fs}

def Valid (b : Bio fs) (i : Nat) : Prop :=
  i < fs.bufNum ∧ b.bufFlags i ≠ .invalid

def Clean (b : Bio fs) : Prop :=
  ∀ i, i < fs.bufNum → b.bufFlags i ≠ .dirty

def slot (b : Bio fs) (i : Nat) : Sector fs :=
  b.buf.load (b.bidx2addr i) fs.bytePerSector

-- The buffer `i` is the one of the sector.
def Holds (b : Bio fs) (i : Nat) (sidx : Sidx) : Prop :=
  b.Valid i ∧ b.bufSidx i = sidx

-- The buffers and the disk together contain the volume `v`.
structure Coherent (b : Bio fs) (v : Volume fs) : Prop where
  ring   : ∃ is : List Nat, b.bufLists.Ring .seq (is.map .list) ∧ ∀ {i}, i ∈ is ↔ b.Valid i
  unique : ∀ {i j}, b.Valid i → b.Valid j → b.bufSidx i = b.bufSidx j → i = j
  slot   : ∀ {i}, b.Valid i → b.slot i = v (b.bufSidx i)
  disk   : ∀ {sidx}, (∀ i, b.Valid i → b.bufSidx i = sidx → b.bufFlags i = .clean) →
    b.disk (sidx + fs.dsidx) = v sidx

-- The valid buffers in the order of `buf_seq`.
structure Lists (b : Bio fs) (is : List Nat) : Prop where
  ring : b.bufLists.Ring .seq (is.map .list)
  mem  : ∀ {i}, i ∈ is ↔ b.Valid i

variable {b : Bio fs} {v : Volume fs} {i j : Nat} {sidx : Sidx} {is is₁ is₂ : List Nat}

theorem Holds.setDirty (h : b.Holds i sidx) : (b.setFlag i .dirty).Holds i sidx :=
  ⟨⟨h.1.1, by simp⟩, h.2⟩

theorem bidx2addr_eq (hi : i < fs.bufNum) : b.bidx2addr i = fs.bytePerSector * i :=
  Nat.mod_eq_of_lt <| lt_of_le_of_lt (Nat.mul_le_mul_left _ hi.le) fs.fits

theorem bidx2addr_disjoint (hi : i < fs.bufNum) (hj : j < fs.bufNum) (hn : i ≠ j) :
    b.bidx2addr j + fs.bytePerSector ≤ b.bidx2addr i ∨
      b.bidx2addr i + fs.bytePerSector ≤ b.bidx2addr j := by
  rw [bidx2addr_eq hi, bidx2addr_eq hj, ← Nat.mul_succ, ← Nat.mul_succ]
  cases Nat.lt_or_gt_of_ne hn
  case inl h => exact .inr <| Nat.mul_le_mul_left _ h
  case inr h => exact .inl <| Nat.mul_le_mul_left _ h

theorem matchBuffered_some (h : b.matchBuffered sidx = some i) : b.Holds i sidx := by
  have hm := List.mem_of_find?_eq_some h
  have hp := List.find?_some h
  simp only [List.mem_range, decide_eq_true_eq] at hm hp
  exact ⟨⟨hm, hp.2⟩, hp.1.symm⟩

theorem matchBuffered_none (h : b.matchBuffered sidx = none) (hv : b.Valid i) : b.bufSidx i ≠ sidx := by
  intro hs
  have := List.find?_eq_none.mp h i (List.mem_range.mpr hv.1)
  simp [hs, hv.2] at this

theorem matchUnbuffered_some (h : b.matchUnbuffered = some i) :
    i < fs.bufNum ∧ b.bufFlags i = .invalid := by
  have hm := List.mem_of_find?_eq_some h
  have hp := List.find?_some h
  simp only [List.mem_range, decide_eq_true_eq] at hm hp
  exact ⟨hm, hp⟩

theorem matchUnbuffered_none (h : b.matchUnbuffered = none) (hi : i < fs.bufNum) : b.Valid i := by
  have := List.find?_eq_none.mp h i (List.mem_range.mpr hi)
  exact ⟨hi, by simpa using this⟩

namespace Lists

theorem nodup (r : b.Lists is) : is.Nodup :=
  .of_map _ r.ring.nodup.of_cons

theorem congr {b' : Bio fs} (r : b.Lists is) (hl : b'.bufLists = b.bufLists) (hv : ∀ {i}, b'.Valid i ↔ b.Valid i) :
    b'.Lists is where
  ring := hl ▸ r.ring
  mem  := r.mem.trans hv.symm

theorem init (buf : Memory Byte) (l : Links BufNode) (disk : Sidx → Sector fs) : (init buf l disk).Lists [] where
  ring := by
    have hr (is : List Nat) (l : Links BufNode) (r : l.Ring .seq []) :
        (is.foldl (fun l i => listInit l (.list i)) l).Ring .seq [] := by
      induction is generalizing l
      case nil          => exact r
      case cons i is hi => exact hi _ <| listInit_of_not_mem r (by simp)
    exact hr _ _ <| listInit_ring l .seq
  mem  := by simp [Valid, Bio.init]

theorem setFlag {flag : BioFlag} (r : b.Lists is) (hv : b.Valid i) (hf : flag ≠ .invalid) :
    (b.setFlag i flag).Lists is :=
  r.congr rfl fun {j} => by by_cases j = i <;> simp_all [Valid]

theorem drop (r : b.Lists (is₁ ++ i :: is₂)) :
    Lists { b.setFlag i .invalid with bufLists := listDel b.bufLists <| .list i } (is₁ ++ is₂) where
  ring := by
    have r := r.ring
    rw [List.map_append] at r ⊢
    exact listDel_ring r
  mem {j} := by
    have hd := (List.nodup_cons.mp <| List.nodup_middle.mp r.nodup).1
    have hm : j ∈ is₁ ++ i :: is₂ ↔ b.Valid j := r.mem
    by_cases hj : j = i
    case pos => simp_all [Valid]
    case neg => simpa [Valid, hj] using hm

theorem fill (r : b.Lists is) (hi : i < fs.bufNum) (hf : b.bufFlags i = .invalid) (sidx : Sidx) :
    (b.fill i sidx).Lists (is ++ [i]) where
  ring := by
    have hn : i ∉ is := fun h => (r.mem.mp h).2 hf
    rw [List.map_append]
    exact listAddTail_ring r.ring <| by simpa using hn
  mem {j} := by
    have hm : j ∈ is ↔ b.Valid j := r.mem
    by_cases hj : j = i
    case pos => simp_all [Valid, Bio.fill]
    case neg => simpa [Valid, Bio.fill, hj] using hm

theorem setActivity (r : b.Lists (is₁ ++ i :: is₂)) : (b.setActivity i).Lists (is₁ ++ is₂ ++ [i]) where
  ring := by
    have hd := (List.nodup_cons.mp <| List.nodup_middle.mp r.nodup).1
    have r := r.ring
    rw [List.map_append] at r ⊢
    exact listAddTail_ring (by simpa using listDel_ring r) <| by simpa using hd
  mem {j} := by
    have hm : j ∈ is₁ ++ i :: is₂ ↔ b.Valid j := r.mem
    refine Iff.trans ?_ hm
    simp only [List.mem_append, List.mem_cons, List.not_mem_nil]
    tauto

end Lists

theorem init_coherent (buf : Memory Byte) (l : Links BufNode) (disk : Sidx → Sector fs) :
    (init buf l disk).Coherent fun sidx => disk (sidx + fs.dsidx) where
  ring :=
    have r := Lists.init buf l disk
    ⟨[], r.ring, r.mem⟩
  unique h := absurd rfl h.2
  slot h   := absurd rfl h.2
  disk _   := rfl

namespace Coherent

variable (w : b.Coherent v)

include w

theorem lists : ∃ is, b.Lists is :=
  have ⟨is, r, hm⟩ := w.ring
  ⟨is, r, hm⟩

theorem writebackNoCheck (hv : b.Valid i) : (b.writebackNoCheck i).Coherent v := by
  have he : (b.writebackNoCheck i).Valid = b.Valid := by
    funext j
    by_cases j = i <;> simp_all [Valid, Bio.writebackNoCheck, setFlag, writeOp]
  constructor
  case ring   => exact he ▸ w.ring
  case unique => exact he ▸ w.unique
  case slot   => exact he ▸ w.slot
  case disk   =>
    intro sidx hd
    rw [he] at hd
    by_cases hs : b.bufSidx i = sidx
    case pos =>
      subst hs
      exact (Function.update_self ..).trans <| w.slot hv
    case neg =>
      have hn : sidx + fs.dsidx ≠ b.bufSidx i + fs.dsidx := fun h => hs (add_right_cancel h).symm
      refine (Function.update_of_ne hn ..).trans <| w.disk fun j hj hsj => ?_
      have hn : j ≠ i := fun h => hs (h ▸ hsj)
      have := hd j hj hsj
      simpa [Bio.writebackNoCheck, hn] using this

theorem writeback (hi : i < fs.bufNum) : (b.writeback i).Coherent v ∧
    (b.writeback i).bufFlags i ≠ .dirty ∧ (b.writeback i).bufSidx = b.bufSidx ∧
    ∀ j, (b.writeback i).bufFlags j = b.bufFlags j ∨ (b.writeback i).bufFlags j = .clean ∧ b.Valid j := by
  by_cases hd : b.bufFlags i = .dirty
  case neg => simp [Bio.writeback, hd, w]
  case pos =>
    have hv : b.Valid i := ⟨hi, by simp [hd]⟩
    have hf : (b.writebackNoCheck i).bufFlags = Function.update b.bufFlags i .clean := rfl
    rw [Bio.writeback, if_pos hd, hf]
    refine ⟨w.writebackNoCheck hv, by simp, rfl, fun j => ?_⟩
    by_cases hj : j = i
    case pos => exact .inr ⟨by simp [hj], hj ▸ hv⟩
    case neg => exact .inl <| by simp [hj]

theorem drop (hv : b.Valid i) (hc : b.bufFlags i = .clean) :
    Coherent { b.setFlag i .invalid with bufLists := listDel b.bufLists <| .list i } v := by
  have he {j} : Bio.Valid { b.setFlag i .invalid with bufLists := listDel b.bufLists <| .list i } j ↔
      b.Valid j ∧ j ≠ i := by
    by_cases j = i <;> simp_all [Valid]
  constructor
  case ring =>
    have ⟨is, r⟩ := w.lists
    have ⟨is₁, is₂, hs⟩ := List.append_of_mem (r.mem.mpr hv)
    subst hs
    exact ⟨is₁ ++ is₂, r.drop.ring, r.drop.mem⟩
  case unique => exact fun hj hk => w.unique (he.mp hj).1 (he.mp hk).1
  case slot   => exact fun hj => w.slot (he.mp hj).1
  case disk   =>
    refine fun hd => w.disk fun j hj hs => ?_
    by_cases hn : j = i
    case pos => exact hn ▸ hc
    case neg => simpa [hn] using hd j (he.mpr ⟨hj, hn⟩) hs

theorem remove (hv : b.Valid i) : (b.remove i).Coherent v ∧
    (b.remove i).bufFlags i = .invalid ∧ (b.remove i).bufSidx = b.bufSidx ∧
    ∀ {j}, (b.remove i).Valid j → b.Valid j := by
  have ⟨ww, hd, hs, hf⟩ := w.writeback hv.1
  have hw {j} : (b.writeback i).Valid j ↔ b.Valid j := by
    cases hf j
    case inl h => simp [Valid, h]
    case inr h => simp [Valid, h.1, h.2.1, h.2.2]
  have hc : (b.writeback i).bufFlags i = .clean := by
    have := hw.mpr hv
    cases h : (b.writeback i).bufFlags i
    case invalid => exact absurd h this.2
    case clean   => rfl
    case dirty   => exact absurd h hd
  refine ⟨ww.drop (hw.mpr hv) hc, by simp [Bio.remove], hs, fun {j} hj => hw.mp ⟨hj.1, fun h => hj.2 ?_⟩⟩
  by_cases hn : j = i <;> simp [Bio.remove, hn, h]

-- A free buffer is filled with a sector which has no buffer yet.
theorem fill (hi : i < fs.bufNum) (hf : b.bufFlags i = .invalid)
    (hn : ∀ j, b.Valid j → b.bufSidx j ≠ sidx) :
    (b.fill i sidx).Coherent v ∧ (b.fill i sidx).Holds i sidx := by
  have he {j} : (b.fill i sidx).Valid j ↔ b.Valid j ∨ j = i := by
    by_cases j = i <;> simp_all [Valid, Bio.fill]
  have hne {j} (hj : b.Valid j) : j ≠ i := fun h => hj.2 (h ▸ hf)
  have hs {j} (hj : b.Valid j) : (b.fill i sidx).bufSidx j = b.bufSidx j := by
    simp [Bio.fill, hne hj]
  have hsi : (b.fill i sidx).bufSidx i = sidx := by
    simp [Bio.fill]
  refine ⟨?_, he.mpr <| .inr rfl, hsi⟩
  constructor
  case ring =>
    have ⟨is, r⟩ := w.lists
    exact ⟨is ++ [i], (r.fill hi hf sidx).ring, (r.fill hi hf sidx).mem⟩
  case unique =>
    intro j k hj hk h
    cases he.mp hj <;> cases he.mp hk
    case inl.inl hj hk => exact w.unique hj hk <| (hs hj).symm.trans <| h.trans <| hs hk
    case inl.inr hj hk => exact absurd ((hs hj).symm.trans <| h.trans <| hk ▸ hsi) (hn j hj)
    case inr.inl hj hk => exact absurd ((hs hk).symm.trans <| h.symm.trans <| hj ▸ hsi) (hn k hk)
    case inr.inr hj hk => exact hj.trans hk.symm
  case slot =>
    intro j hj
    cases he.mp hj
    case inl hj =>
      rw [hs hj, ← w.slot hj]
      exact Memory.load_store_disjoint <| bidx2addr_disjoint hi hj.1 (hne hj).symm
    case inr hj =>
      rw [hj, hsi, ← w.disk fun k hk hsk => absurd hsk (hn k hk)]
      exact Memory.load_store
  case disk =>
    refine fun hd => w.disk fun j hj hsj => ?_
    simpa [Bio.fill, hne hj] using hd j (he.mpr <| .inl hj) (hs hj ▸ hsj)

theorem setActivity (hv : b.Valid i) : (b.setActivity i).Coherent v where
  ring := by
    have ⟨is, r⟩ := w.lists
    have ⟨is₁, is₂, hs⟩ := List.append_of_mem (r.mem.mpr hv)
    subst hs
    exact ⟨is₁ ++ is₂ ++ [i], r.setActivity.ring, r.setActivity.mem⟩
  unique := w.unique
  slot   := w.slot
  disk   := w.disk

theorem setDirty (hv : b.Valid i) : (b.setFlag i .dirty).Coherent v := by
  have he {j} : (b.setFlag i .dirty).Valid j ↔ b.Valid j := by
    by_cases j = i <;> simp_all [Valid]
  constructor
  case ring   =>
    have ⟨is, r, hm⟩ := w.ring
    exact ⟨is, r, hm.trans he.symm⟩
  case unique => exact fun hj hk => w.unique (he.mp hj) (he.mp hk)
  case slot   => exact fun hj => w.slot (he.mp hj)
  case disk   =>
    refine fun hd => w.disk fun j hj hs => ?_
    have := hd j (he.mpr hj) hs
    by_cases j = i <;> simp_all

-- A dirty buffer gets new contents.
theorem setBuf {m : Memory Byte} (h : b.Holds i sidx) (hd : b.bufFlags i = .dirty)
    (hm : ∀ j, j < fs.bufNum → j ≠ i → m.load (b.bidx2addr j) fs.bytePerSector = b.slot j) :
    Coherent { b with buf := m } <|
      Function.update v sidx <| m.load (b.bidx2addr i) fs.bytePerSector where
  ring     := w.ring
  unique   := w.unique
  slot {j} := by
    intro hj
    by_cases hn : j = i
    case pos => simp [hn, h.2, Bio.slot, bidx2addr]
    case neg =>
      have hs : b.bufSidx j ≠ sidx := fun hs => hn <| w.unique hj h.1 <| hs.trans h.2.symm
      rw [Function.update_of_ne hs, ← w.slot hj]
      exact hm j hj.1 hn
  disk {s} := by
    intro hc
    have hs : s ≠ sidx := fun hs => by
      have := hc i h.1 (hs ▸ h.2)
      simp [hd] at this
    rw [Function.update_of_ne hs]
    exact w.disk hc

theorem getLowActivity (hn : 0 < fs.bufNum) (ha : b.matchUnbuffered = none) :
    ∃ i, b.getLowActivity = .ok i ∧ b.Valid i := by
  have ⟨is, r, hm⟩ := w.ring
  cases is
  case nil       => exact absurd (hm.mpr <| matchUnbuffered_none ha hn) (by simp)
  case cons i is =>
    refine ⟨i, ?_, hm.mp <| by simp⟩
    have := r.next_head
    simp_all [Bio.getLowActivity]

theorem fetch (hn : 0 < fs.bufNum) (ha : ∀ j, b.Valid j → b.bufSidx j ≠ sidx) :
    ∃ i b', b.fetch sidx = .ok (i, b') ∧ b'.Coherent v ∧ b'.Holds i sidx := by
  cases hu : b.matchUnbuffered
  case some i =>
    have ⟨hi, hf⟩ := matchUnbuffered_some hu
    exact ⟨i, _, by rw [Bio.fetch, hu]; rfl, w.fill hi hf ha⟩
  case none =>
    have ⟨i, hl, hv⟩ := w.getLowActivity hn hu
    have ⟨wr, hf, hs, hvr⟩ := w.remove hv
    refine ⟨i, _, by rw [Bio.fetch, hu, hl]; rfl, wr.fill hv.1 hf fun j hj => ?_⟩
    exact hs ▸ ha j (hvr hj)

theorem buffered (hn : 0 < fs.bufNum) (sidx : Sidx) :
    ∃ i b', b.buffered sidx = .ok (i, b') ∧ b'.Coherent v ∧ b'.Holds i sidx := by
  cases hb : b.matchBuffered sidx
  case some i => exact ⟨i, b, by rw [Bio.buffered, hb]; rfl, w, matchBuffered_some hb⟩
  case none   =>
    have ⟨i, b', h⟩ := w.fetch hn fun _ hj => matchBuffered_none hb hj
    exact ⟨i, b', by rw [Bio.buffered, hb, ← h.1], h.2⟩

theorem access (hn : 0 < fs.bufNum) (sidx : Sidx) :
    ∃ i b', b.access sidx = .ok (i, b') ∧ b'.Coherent v ∧ b'.Holds i sidx := by
  have ⟨i, b', hb, wb, h⟩ := w.buffered hn sidx
  exact ⟨i, b'.setActivity i, by rw [Bio.access, hb]; rfl, wb.setActivity h.1, h⟩

theorem flush : b.flush.Coherent v ∧ b.flush.Clean := by
  have hf (is : List Nat) (hi : ∀ i ∈ is, i < fs.bufNum) {b : Bio fs} (w : b.Coherent v) :
      (is.foldl Bio.writeback b).Coherent v ∧ ∀ i, (is.foldl Bio.writeback b).bufFlags i = .dirty →
        b.bufFlags i = .dirty ∧ i ∉ is := by
    induction is generalizing b
    case nil => exact ⟨w, by simp⟩
    case cons j is hr =>
      have ⟨ww, hd, _, hf⟩ := w.writeback (hi j <| by simp)
      have ⟨wr, h⟩ := hr (fun i hm => hi i <| by simp [hm]) ww
      refine ⟨wr, fun i hdi => ?_⟩
      have ⟨hdw, hm⟩ := h i hdi
      have hn : i ≠ j := fun hn => hd (hn ▸ hdw)
      cases hf i
      case inl he => exact ⟨he ▸ hdw, by simp [hn, hm]⟩
      case inr he => simp [he.1] at hdw
  have ⟨wf, hd⟩ := hf (List.range fs.bufNum) (by simp) w
  exact ⟨wf, fun i hi h => (hd i h).2 <| List.mem_range.mpr hi⟩

-- Once nothing is dirty, the disk alone contains the volume.
theorem disk_eq (hc : b.Clean) (sidx : Sidx) :
    b.disk (sidx + fs.dsidx) = v sidx := by
  refine w.disk fun i hi _ => ?_
  cases h : b.bufFlags i
  case invalid => exact absurd h hi.2
  case clean   => rfl
  case dirty   => exact absurd h (hc i hi.1)

end Coherent
end Bio
end Zgmos.Fat32
