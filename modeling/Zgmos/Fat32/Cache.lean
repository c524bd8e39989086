import Zgmos.Fat32.Coherence

namespace Zgmos.Fat32

-- The operations of the callers of the sector cache. They may change the buffer which they get from
-- `fat32_bio_write` before the next operation.
inductive Op (fs : Fat32Fs)
  | read      (sidx : Sidx)
  | write     (sidx : Sidx) (update : Sector fs → Sector fs)
  | readCopy  (sidx : Sidx) (offset : Fin (fs.bytePerSector + 1)) (bufLen : Nat)
  | writeCopy (sidx : Sidx) (offset : Fin (fs.bytePerSector + 1)) (buf : List Byte)
  | flush

-- What the caller of an operation observes.
inductive Obs (fs : Fat32Fs)
  | sector (dat : Sector fs)
  | bytes  (dat : List Byte)
  | len    (n : Nat)
  | done

variable {fs : Fat32Fs}

namespace Op

def run (b : Bio fs) : Op fs → Except Fault (Obs fs × Bio fs)
  | read sidx => do
    let (addr, b) ← b.read sidx
    return (.sector <| b.buf.load addr _, b)
  | write sidx update => do
    let (addr, b) ← b.write sidx
    let dat := b.buf.load addr fs.bytePerSector
    return (.sector dat, { b with buf := b.buf.store addr <| update dat })
  | readCopy sidx offset bufLen => do
    let (dat, b) ← b.readCopy sidx offset bufLen
    return (.bytes dat, b)
  | writeCopy sidx offset buf => do
    let (len, b) ← b.writeCopy sidx offset buf
    return (.len len, b)
  | flush =>
    return (.done, b.flush)

-- The same operations on a volume without buffers.
def eval (v : Volume fs) : Op fs → Obs fs × Volume fs
  | read sidx                   => (.sector <| v sidx, v)
  | write sidx update           => (.sector <| v sidx, Function.update v sidx <| update <| v sidx)
  | readCopy sidx offset bufLen => (.bytes <| (List.ofFn <| v sidx).drop offset |>.take bufLen, v)
  | writeCopy sidx offset buf   =>
    (.len <| min (fs.bytePerSector - offset) buf.length, Function.update v sidx fun k =>
      if offset ≤ k.val then buf.getD (k - offset) (v sidx k) else v sidx k)
  | flush                       => (.done, v)

end Op

def Bio.run (b : Bio fs) : List (Op fs) → Except Fault (List (Obs fs) × Bio fs)
  | []        => return ([], b)
  | op :: ops => do
    let (o, b) ← op.run b
    let (os, b) ← b.run ops
    return (o :: os, b)

def Volume.eval (v : Volume fs) : List (Op fs) → List (Obs fs) × Volume fs
  | []        => ([], v)
  | op :: ops =>
    let (o, v) := op.eval v
    let (os, v) := v.eval ops
    (o :: os, v)

variable {b : Bio fs} {v : Volume fs}

namespace Bio.Coherent

variable (w : b.Coherent v) (hn : 0 < fs.bufNum)

include w hn

theorem read (sidx : Sidx) : ∃ addr b', b.read sidx = .ok (addr, b') ∧ b'.Coherent v ∧
    b'.buf.load addr fs.bytePerSector = v sidx := by
  have ⟨i, b', hb, wb, hi⟩ := w.access hn sidx
  exact ⟨b'.bidx2addr i, b', by rw [Bio.read, hb]; rfl, wb, hi.2 ▸ wb.slot hi.1⟩

omit hn in
-- A store into the buffer of a sector changes this sector only.
theorem store {i k a : Nat} {sidx : Sidx} (h : b.Holds i sidx) (hd : b.bufFlags i = .dirty)
    (ha : a + k ≤ fs.bytePerSector) (d : Block k Byte) :
    Coherent { b with buf := b.buf.store (b.bidx2addr i + a) d } <|
      Function.update v sidx <| (v sidx).splice a d := by
  have hs : b.buf.load (b.bidx2addr i) fs.bytePerSector = v sidx := h.2 ▸ w.slot h.1
  rw [← hs, ← Memory.load_store_splice]
  refine w.setBuf h hd fun j hj hn => Memory.load_store_disjoint ?_
  have := bidx2addr_disjoint (b := b) h.1.1 hj hn.symm
  omega

theorem step (op : Op fs) :
    ∃ b', op.run b = .ok ((op.eval v).1, b') ∧ b'.Coherent (op.eval v).2 := by
  cases op
  case read sidx =>
    have ⟨addr, b', hb, wb, hs⟩ := w.read hn sidx
    exact ⟨b', by rw [Op.run, hb, Op.eval, ← hs]; rfl, wb⟩
  case write sidx update =>
    have ⟨i, b', hb, wb, hi⟩ := w.access hn sidx
    have hs : b'.buf.load (b'.bidx2addr i) fs.bytePerSector = v sidx := hi.2 ▸ wb.slot hi.1
    have wd := wb.setDirty hi.1 |>.store hi.setDirty (by simp) (Nat.zero_add _).le <| update <| v sidx
    rw [Memory.splice_zero] at wd
    exact ⟨_, by rw [Op.run, Bio.write, hb, Op.eval, ← hs]; rfl, wd⟩
  case readCopy sidx offset bufLen =>
    have ⟨i, b', hb, wb, hi⟩ := w.buffered hn sidx
    refine ⟨b'.setActivity i, ?_, wb.setActivity hi.1⟩
    have hs : b'.slot i = v sidx := hi.2 ▸ wb.slot hi.1
    have hc : List.ofFn (b'.buf.load (b'.bidx2addr i + offset) <| min (fs.bytePerSector - offset) bufLen)
        = ((List.ofFn <| v sidx).drop offset).take bufLen := by
      rw [← hs]
      apply List.ext_getElem <;> simp [Memory.load, Bio.slot, Nat.add_assoc, min_comm]
    rw [Op.run, Bio.readCopy, hb, Op.eval, ← hc]
    rfl
  case writeCopy sidx offset buf =>
    have ⟨i, b', hb, wb, hi⟩ := w.buffered hn sidx
    have ho : offset + min (fs.bytePerSector - offset) buf.length ≤ fs.bytePerSector := by
      omega
    have wd := wb.setDirty hi.1 |>.store hi.setDirty (by simp) ho fun k => buf.get ⟨k, by omega⟩
    rw [Memory.splice_get] at wd
    exact ⟨_, by rw [Op.run, Bio.writeCopy, hb]; rfl, wd.setActivity hi.setDirty.1⟩
  case flush => exact ⟨b.flush, rfl, w.flush.1⟩

theorem run (ops : List (Op fs)) : ∃ b', b.run ops = .ok ((v.eval ops).1, b') ∧
    b'.Coherent (v.eval ops).2 ∧ (ops.getLast? = some .flush → b'.Clean) := by
  induction ops generalizing b v
  case nil => exact ⟨b, rfl, w, by simp⟩
  case cons op ops hi =>
    have ⟨b₁, h₁, w₁⟩ := w.step hn op
    have ⟨b₂, h₂, w₂, hc⟩ := hi w₁
    refine ⟨b₂, by rw [Bio.run, h₁]; simp only [bind, Except.bind, h₂]; rfl, w₂, fun hl => ?_⟩
    cases ops
    case cons => exact hc <| by simpa using hl
    case nil  =>
      cases h₂
      cases Option.some.inj hl
      cases h₁
      exact w.flush.2

end Bio.Coherent

-- The operations observe the sectors of the volume that is on the disk in the beginning and changed
-- by nothing but the operations. No two buffers hold the same sector.
theorem cache_coherent (hn : 0 < fs.bufNum) (buf : Memory Byte) (l : Links BufNode)
    (disk : Sidx → Sector fs) (ops : List (Op fs)) :
    ∃ b v, (Bio.init buf l disk).run ops = .ok ((Volume.eval (fun sidx => disk (sidx + fs.dsidx)) ops).1, b) ∧
      v = (Volume.eval (fun sidx => disk (sidx + fs.dsidx)) ops).2 ∧
      (∀ i j, b.Valid i → b.Valid j → b.bufSidx i = b.bufSidx j → i = j) ∧
      (ops.getLast? = some .flush → b.Clean ∧ ∀ sidx, b.disk (sidx + fs.dsidx) = v sidx) := by
  have ⟨b, h, w, hc⟩ := Bio.init_coherent buf l disk |>.run hn ops
  exact ⟨b, _, h, rfl, fun _ _ => w.unique, fun hl => ⟨hc hl, w.disk_eq <| hc hl⟩⟩

def oneBuffer : Fat32Fs where
  dsidx            := 2048
  bytePerSector    := 2
  secPerCluster    := 1
  reservedSecCnt   := 1
  rootCidx         := 2
  firstClusterSidx := 3
  bufNum           := 1
  fits             := by decide

-- The second sector evicts the first one.
theorem oneBuffer_coherent : ∃ b : Bio oneBuffer,
    (Bio.init (fun _ => 0) ⟨id, id⟩ fun _ _ => 0).run
      [.write 0 fun _ _ => 1, .write 1 fun _ _ => 2, .readCopy 0 ⟨1, by decide⟩ 7, .flush] =
      .ok ([.sector fun _ => 0, .sector fun _ => 0, .bytes [1], .done], b) ∧
    b.Clean ∧ b.disk 2048 = (fun _ => 1) ∧ b.disk 2049 = fun _ => 2 := by
  have ⟨b, v, h, hv, _, hc⟩ := @cache_coherent oneBuffer (by decide) (fun _ => 0) ⟨id, id⟩
    (fun _ _ => 0) [.write 0 fun _ _ => 1, .write 1 fun _ _ => 2, .readCopy 0 ⟨1, by decide⟩ 7, .flush]
  have ⟨hd, hs⟩ := hc rfl
  exact ⟨b, h, hd, (hs 0).trans (hv ▸ rfl), (hs 1).trans (hv ▸ rfl)⟩

end Zgmos.Fat32
