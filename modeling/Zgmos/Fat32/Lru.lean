import Zgmos.Fat32.Cache
import Zgmos.Lib.Recency

-- The sector cache keeps the most recently used sectors.

namespace Zgmos.Fat32

variable {fs : Fat32Fs}

-- The sector which an operation uses.
def Op.sector? : Op fs → Option Sidx
  | read sidx          => sidx
  | write sidx _       => sidx
  | readCopy sidx _ _  => sidx
  | writeCopy sidx _ _ => sidx
  | flush              => none

def uses (ops : List (Op fs)) : List Sidx :=
  ops.filterMap Op.sector?

namespace Bio

-- The buffers of `buf_seq` hold the most recently used sectors, the least recently used one first.
def Lru (b : Bio fs) (used : List Sidx) : Prop :=
  ∃ is, b.Lists is ∧ is.map b.bufSidx = used.recent fs.bufNum

-- If no buffer is free, each operation on a new sector takes the buffer of the least recently used one.
def EvictsLru (b : Bio fs) (used : List Sidx) : Prop :=
  ∀ sidx, (∀ i, b.Valid i → b.bufSidx i ≠ sidx) → (∀ i < fs.bufNum, b.Valid i) →
    ∃ i b', b.buffered sidx = .ok (i, b') ∧ b'.Holds i sidx ∧ (used.recent fs.bufNum).head? = some (b.bufSidx i)

variable {b b' : Bio fs} {i : Nat} {sidx : Sidx} {is is₁ is₂ : List Nat} {used : List Sidx}

namespace Lists

variable (r : b.Lists is)

include r

theorem length_lt (hi : i < fs.bufNum) (hf : b.bufFlags i = .invalid) : is.length < fs.bufNum := by
  have hn : (i :: is).Nodup := List.nodup_cons.mpr ⟨fun h => (r.mem.mp h).2 hf, r.nodup⟩
  have hs : i :: is ⊆ List.range fs.bufNum := by
    intro j hj
    rw [List.mem_range]
    cases hj
    case head    => exact hi
    case tail hj => exact (r.mem.mp hj).1
  simpa using (hn.subperm hs).length_le

theorem length_eq (h : ∀ i < fs.bufNum, b.Valid i) : is.length = fs.bufNum := by
  apply le_antisymm
  case a =>
    have hs : is ⊆ List.range fs.bufNum := fun j hj => List.mem_range.mpr (r.mem.mp hj).1
    simpa using (r.nodup.subperm hs).length_le
  case a =>
    have hs : List.range fs.bufNum ⊆ is := fun j hj => r.mem.mpr <| h j <| List.mem_range.mp hj
    simpa using ((List.nodup_range).subperm hs).length_le

-- The buffer of a new sector is behind all others.
theorem map_fill (hf : b.bufFlags i = .invalid) :
    (is ++ [i]).map (b.fill i sidx).bufSidx = is.map b.bufSidx ++ [sidx] := by
  have hs : (b.fill i sidx).bufSidx = Function.update b.bufSidx i sidx := rfl
  rw [hs, List.map_append, List.map_singleton, Function.update_self]
  refine congrArg (· ++ [sidx]) <| List.map_congr_left fun j hj => ?_
  have hne : j ≠ i := by
    rintro rfl
    exact (r.mem.mp hj).2 hf
  exact Function.update_of_ne hne ..

end Lists

-- The buffer which is looked at first.
theorem Lists.getLowActivity (r : b.Lists (i :: is)) : b.getLowActivity = .ok i := by
  have := r.ring.next_head
  rw [List.map_cons, List.headD_cons] at this
  rw [Bio.getLowActivity, this]

theorem Lists.remove (r : b.Lists (i :: is)) : (b.remove i).Lists is := by
  have hv : b.Valid i := r.mem.mp <| .head _
  have hw : (b.writeback i).Lists (i :: is) := by
    unfold writeback
    split
    case isFalse => exact r
    case isTrue  => exact (r.setFlag hv (by decide)).congr rfl Iff.rfl
  exact @Lists.drop fs (b.writeback i) i [] is hw

namespace Lru

variable (w : b.Lru used)

include w

-- The buffer of a sector before it is moved to the end.
theorem buffered (hn : 0 < fs.bufNum) (sidx : Sidx) :
    ∃ i b' is₁ is₂, b.buffered sidx = .ok (i, b') ∧ b'.Lists (is₁ ++ i :: is₂) ∧
      (is₁ ++ is₂ ++ [i]).map b'.bufSidx = (used ++ [sidx]).recent fs.bufNum := by
  obtain ⟨is, r, hs⟩ := w
  have hlen : is.length = (used.recent fs.bufNum).length := by rw [← hs, List.length_map]
  cases hb : b.matchBuffered sidx
  case some i =>
    obtain ⟨hv, hi⟩ := matchBuffered_some hb
    obtain ⟨is₁, is₂, he⟩ := List.append_of_mem (r.mem.mpr hv)
    subst he
    refine ⟨i, b, is₁, is₂, by rw [Bio.buffered, hb]; rfl, r, ?_⟩
    have hm : sidx ∈ used.recent fs.bufNum := by simp [← hs, hi]
    have hr : used.recent fs.bufNum = is₁.map b.bufSidx ++ sidx :: is₂.map b.bufSidx := by
      rw [← hs, List.map_append, List.map_cons, hi]
    have hnd := hr ▸ @List.recent_nodup _ _ fs.bufNum used
    have hx := (List.nodup_cons.mp <| List.nodup_middle.mp hnd).1
    rw [List.recent_concat_mem hm, hr, List.erase_append_right _ fun h => hx <| List.mem_append_left _ h,
      List.erase_cons_head, List.map_append, List.map_append, List.map_singleton, hi]
  case none =>
    have hx : sidx ∉ used.recent fs.bufNum := by
      rw [← hs]
      intro h
      obtain ⟨j, hj, he⟩ := List.mem_map.mp h
      exact matchBuffered_none hb (r.mem.mp hj) he
    cases hu : b.matchUnbuffered
    case some i =>
      obtain ⟨hi, hf⟩ := matchUnbuffered_some hu
      refine ⟨i, b.fill i sidx, is, [], by rw [Bio.buffered, hb]; simp only [Bio.fetch, hu]; rfl, r.fill hi hf sidx, ?_⟩
      rw [List.append_nil, r.map_fill hf, hs, List.recent_concat_of_lt hx]
      exact hlen ▸ r.length_lt hi hf
    case none =>
      have hl := r.length_eq fun j hj => matchUnbuffered_none hu hj
      cases is
      case nil => exact absurd hl hn.ne
      case cons i is =>
        have hi : i < fs.bufNum := (r.mem.mp <| .head _).1
        have hf : (b.remove i).bufFlags i = .invalid := by simp [Bio.remove]
        have hsr : (b.remove i).bufSidx = b.bufSidx := by
          unfold Bio.remove Bio.writeback
          split <;> rfl
        refine ⟨i, (b.remove i).fill i sidx, is, [], ?_, r.remove.fill hi hf sidx, ?_⟩
        case refine_1 =>
          rw [Bio.buffered, hb]
          simp only [Bio.fetch, hu, r.getLowActivity]
          rfl
        case refine_2 =>
          rw [List.append_nil, r.remove.map_fill hf, hsr, List.recent_concat_of_eq hn hx (hlen ▸ hl), ← hs]
          rfl

theorem congr (hl : b'.bufLists = b.bufLists) (hs : b'.bufSidx = b.bufSidx) (hv : ∀ j, b'.Valid j ↔ b.Valid j) :
    b'.Lru used :=
  have ⟨is, r, he⟩ := w
  ⟨is, r.congr hl fun {j} => hv j, hs ▸ he⟩

omit w in
theorem setActivity (r : b.Lists (is₁ ++ i :: is₂)) (hs : (is₁ ++ is₂ ++ [i]).map b.bufSidx = used.recent fs.bufNum) :
    (b.setActivity i).Lru used :=
  ⟨is₁ ++ is₂ ++ [i], r.setActivity, hs⟩

omit w in
theorem valid_setDirty (h : b.Valid i) (j : Nat) : (b.setFlag i .dirty).Valid j ↔ b.Valid j := by
  by_cases j = i <;> simp_all [Valid]

theorem flush : b.flush.Lru used := by
  have hw (b : Bio fs) (i : Nat) (hi : i < fs.bufNum) (w : b.Lru used) : (b.writeback i).Lru used := by
    have ⟨is, r, hs⟩ := w
    unfold writeback
    split
    case isFalse   => exact w
    case isTrue hd => exact ⟨is, (r.setFlag ⟨hi, by simp [hd]⟩ (by decide)).congr rfl Iff.rfl, hs⟩
  have hf (is : List Nat) (hi : ∀ i ∈ is, i < fs.bufNum) (b : Bio fs) (w : b.Lru used) :
      (is.foldl Bio.writeback b).Lru used := by
    induction is generalizing b
    case nil          => exact w
    case cons i is hr => exact hr (fun i hm => hi i <| .tail _ hm) _ <| hw b i (hi i <| .head _) w
  exact hf _ (fun i hi => List.mem_range.mp hi) b w

theorem step (hn : 0 < fs.bufNum) (op : Op fs) :
    ∃ o b', op.run b = .ok (o, b') ∧ b'.Lru (used ++ op.sector?.toList) := by
  cases op
  case read sidx =>
    obtain ⟨i, b', is₁, is₂, hb, r, hs⟩ := w.buffered hn sidx
    obtain ⟨o, h⟩ : ∃ o, (Op.read sidx).run b = .ok (o, b'.setActivity i) := by
      rw [Op.run, Bio.read, Bio.access, hb]
      exact ⟨_, rfl⟩
    exact ⟨o, _, h, setActivity r hs⟩
  case write sidx update =>
    obtain ⟨i, b', is₁, is₂, hb, r, hs⟩ := w.buffered hn sidx
    obtain ⟨o, buf, h⟩ : ∃ o buf, (Op.write sidx update).run b =
        .ok (o, { (b'.setActivity i).setFlag i .dirty with buf }) := by
      rw [Op.run, Bio.write, Bio.access, hb]
      exact ⟨_, _, rfl⟩
    have hv : b'.Valid i := r.mem.mp <| by simp
    exact ⟨o, _, h, (setActivity r hs).congr rfl rfl <| @valid_setDirty _ b' i hv⟩
  case readCopy sidx offset bufLen =>
    obtain ⟨i, b', is₁, is₂, hb, r, hs⟩ := w.buffered hn sidx
    obtain ⟨o, h⟩ : ∃ o, (Op.readCopy sidx offset bufLen).run b = .ok (o, b'.setActivity i) := by
      rw [Op.run, Bio.readCopy, hb]
      exact ⟨_, rfl⟩
    exact ⟨o, _, h, setActivity r hs⟩
  case writeCopy sidx offset buf =>
    obtain ⟨i, b', is₁, is₂, hb, r, hs⟩ := w.buffered hn sidx
    obtain ⟨o, m, h⟩ : ∃ o m, (Op.writeCopy sidx offset buf).run b =
        .ok (o, (Bio.setFlag { b' with buf := m } i .dirty).setActivity i) := by
      rw [Op.run, Bio.writeCopy, hb]
      exact ⟨_, _, rfl⟩
    have hv : b'.Valid i := r.mem.mp <| by simp
    exact ⟨o, _, h, (setActivity r hs).congr rfl rfl <| @valid_setDirty _ b' i hv⟩
  case flush => exact ⟨_, _, rfl, by simpa [Op.sector?] using w.flush⟩

theorem run (hn : 0 < fs.bufNum) (ops : List (Op fs)) : ∃ os b', b.run ops = .ok (os, b') ∧ b'.Lru (used ++ uses ops) := by
  induction ops generalizing b used
  case nil => exact ⟨[], b, rfl, by simpa [uses] using w⟩
  case cons op ops hi =>
    have ⟨o, b₁, h₁, w₁⟩ := w.step hn op
    have ⟨os, b₂, h₂, w₂⟩ := hi w₁
    refine ⟨o :: os, b₂, by rw [Bio.run, h₁]; simp only [bind, Except.bind, h₂]; rfl, ?_⟩
    have hu : uses (op :: ops) = op.sector?.toList ++ uses ops := by
      cases h : op.sector? <;> simp [uses, h]
    rwa [hu, ← List.append_assoc]

theorem evictsLru (hn : 0 < fs.bufNum) : b.EvictsLru used := by
  intro sidx ha hv
  have ⟨is, r, hs⟩ := w
  have hb : b.matchBuffered sidx = none := by
    cases hb : b.matchBuffered sidx
    case none   => rfl
    case some i => exact absurd (matchBuffered_some hb).2 <| ha i (matchBuffered_some hb).1
  have hu : b.matchUnbuffered = none := by
    cases hu : b.matchUnbuffered
    case none   => rfl
    case some i => exact absurd (matchUnbuffered_some hu).2 (hv i (matchUnbuffered_some hu).1).2
  cases is
  case nil => exact absurd (r.length_eq hv) hn.ne
  case cons i is =>
    refine ⟨i, _, by rw [Bio.buffered, hb]; simp only [Bio.fetch, hu, r.getLowActivity]; rfl, ?_, ?_⟩
    case refine_1 => exact ⟨⟨(r.mem.mp <| .head _).1, by simp [Bio.fill]⟩, by simp [Bio.fill]⟩
    case refine_2 => rw [← hs]; rfl

end Lru
end Bio

-- After each operation the most recently used sectors are in the cache, in the order of their uses.
theorem cache_lru (hn : 0 < fs.bufNum) (buf : Memory Byte) (l : Links BufNode) (disk : Sidx → Sector fs)
    (ops : List (Op fs)) : ∃ os b, (Bio.init buf l disk).run ops = .ok (os, b) ∧
      b.Lru (uses ops) ∧ b.EvictsLru (uses ops) := by
  have w : (Bio.init buf l disk).Lru [] := ⟨[], Bio.Lists.init buf l disk, by simp⟩
  have ⟨os, b, h, w⟩ := w.run hn ops
  exact ⟨os, b, h, w, w.evictsLru hn⟩

def threeBuffers : Fat32Fs where
  dsidx            := 0
  bytePerSector    := 16
  secPerCluster    := 1
  reservedSecCnt   := 0
  rootCidx         := 2
  firstClusterSidx := 1
  bufNum           := 3
  fits             := by decide

-- Sector 9 evicts sector 7, because sector 4 has been read again. The next one to go is sector 5.
theorem threeBuffers_lru : ∃ is : List Nat, ∃ b : Bio threeBuffers, is.map b.bufSidx = [5, 4, 9] ∧
    (∀ i, i ∈ is ↔ b.Valid i) ∧ ((∀ i < 3, b.Valid i) → ∃ i b', b.buffered 6 = .ok (i, b') ∧ b.bufSidx i = 5) := by
  have ⟨_, b, _, ⟨is, r, hs⟩, he⟩ := @cache_lru threeBuffers (by decide) (fun _ => 0) ⟨id, id⟩
    (fun _ _ => 0) [.read 4, .write 7 id, .read 5, .flush, .readCopy 4 ⟨1, by decide⟩ 7, .write 9 id]
  have hs : is.map b.bufSidx = [5, 4, 9] := hs.trans <| by decide
  refine ⟨is, b, hs, fun _ => r.mem, fun hv => ?_⟩
  have hn (i : Nat) (hi : b.Valid i) : b.bufSidx i ≠ 6 := by
    have hm := List.mem_map_of_mem (f := b.bufSidx) <| r.mem.mpr hi
    rw [hs] at hm
    intro h
    rw [h] at hm
    exact absurd hm <| by decide
  have ⟨i, b', hb, _, hl⟩ := he 6 hn hv
  exact ⟨i, b', hb, Option.some.inj <| hl.symm.trans <| by decide⟩

end Zgmos.Fat32
