import Zgmos.Fat32.Cache

-- The sector cache over a disk whose operations may fail.

namespace Zgmos.Fat32

variable {fs : Fat32Fs}

-- What the disk does during one operation of the cache: `none` if a transfer succeeds, and otherwise what the
-- failed transfer leaves, a write-back on the disk and a fill in the buffer. Each buffer is written back at
-- most once, and at most one buffer is filled.
structure Outcome (fs : Fat32Fs) where
  write : Nat → Option (Sector fs)
  read  : Option (Sector fs)

-- The calls of `write_op` and `read_op` with what they return.
inductive DiskEvent
  | write (sidx : Sidx) (ok : Bool)
  | read  (bidx : Nat) (sidx : Sidx) (ok : Bool)

def DiskEvent.ok : DiskEvent → Bool
  | write _ ok  => ok
  | read _ _ ok => ok

structure Logged (fs : Fat32Fs) where
  bio : Bio fs
  log : List DiskEvent

namespace Outcome

variable (o : Outcome fs)

def writeOp (b : Bio fs) (bidx : Nat) : Bool × Bio fs :=
  match o.write bidx with
  | none     => (true, b.writeOp (b.bufSidx bidx + fs.dsidx) (b.bidx2addr bidx))
  | some dat => (false, { b with disk := Function.update b.disk (b.bufSidx bidx + fs.dsidx) dat })

def readOp (b : Bio fs) (bidx : Nat) (sidx : Sidx) : Bool × Bio fs :=
  match o.read with
  | none     => (true, b.readOp (sidx + fs.dsidx) (b.bidx2addr bidx))
  | some dat => (false, { b with buf := b.buf.store (b.bidx2addr bidx) dat })

-- The code does not look at what the operations of the disk return.

def writebackNoCheck (s : Logged fs) (bidx : Nat) : Logged fs :=
  let (ok, b) := o.writeOp s.bio bidx
  { bio := b.setFlag bidx .clean, log := s.log ++ [.write (s.bio.bufSidx bidx) ok] }

def writeback (s : Logged fs) (bidx : Nat) : Logged fs :=
  if s.bio.bufFlags bidx = .dirty then o.writebackNoCheck s bidx else s

def remove (s : Logged fs) (bidx : Nat) : Logged fs :=
  let s := o.writeback s bidx
  let b := s.bio.setFlag bidx .invalid
  { s with bio := { b with bufLists := listDel b.bufLists <| .list bidx } }

def fill (s : Logged fs) (bidx : Nat) (sidx : Sidx) : Logged fs :=
  let (ok, b) := o.readOp s.bio bidx sidx
  let b := b.setFlag bidx .clean
  let b := b.setSidx bidx sidx
  { bio := { b with bufLists := listAddTail b.bufLists (.list bidx) .seq }, log := s.log ++ [.read bidx sidx ok] }

def fetch (s : Logged fs) (sidx : Sidx) : Except Fault (Nat × Logged fs) :=
  match s.bio.matchUnbuffered with
  | some bidx => return (bidx, o.fill s bidx sidx)
  | none      => do
    let bidx ← s.bio.getLowActivity
    return (bidx, o.fill (o.remove s bidx) bidx sidx)

def flush (s : Logged fs) : Logged fs :=
  (List.range fs.bufNum).foldl o.writeback s

def buffered (s : Logged fs) (sidx : Sidx) : Except Fault (Nat × Logged fs) :=
  match s.bio.matchBuffered sidx with
  | some bidx => return (bidx, s)
  | none      => o.fetch s sidx

-- The operations of the cache, with the calls which they make.
def run (b : Bio fs) : Op fs → Except Fault (Obs fs × Logged fs)
  | .read sidx => do
    let (bidx, s) ← o.buffered ⟨b, []⟩ sidx
    let b := s.bio.setActivity bidx
    return (.sector <| b.buf.load (b.bidx2addr bidx) _, ⟨b, s.log⟩)
  | .write sidx update => do
    let (bidx, s) ← o.buffered ⟨b, []⟩ sidx
    let b := (s.bio.setActivity bidx).setFlag bidx .dirty
    let dat := b.buf.load (b.bidx2addr bidx) fs.bytePerSector
    return (.sector dat, ⟨{ b with buf := b.buf.store (b.bidx2addr bidx) <| update dat }, s.log⟩)
  | .readCopy sidx offset bufLen => do
    let len := min (fs.bytePerSector - offset) bufLen
    let (bidx, s) ← o.buffered ⟨b, []⟩ sidx
    let b := s.bio
    return (.bytes <| .ofFn <| b.buf.load (b.bidx2addr bidx + offset) len, ⟨b.setActivity bidx, s.log⟩)
  | .writeCopy sidx offset buf => do
    let len := min (fs.bytePerSector - offset) buf.length
    let (bidx, s) ← o.buffered ⟨b, []⟩ sidx
    let b := s.bio
    let b := { b with buf := b.buf.store (b.bidx2addr bidx + offset) fun k : Fin len => buf.get ⟨k, by omega⟩ }
    return (.len len, ⟨b.setFlag bidx .dirty |>.setActivity bidx, s.log⟩)
  | .flush =>
    let s := o.flush ⟨b, []⟩
    return (.done, s)

end Outcome

-- What holds after an operation with the calls `log`, if the sectors have the contents `v` then.
structure NoLoss (b : Bio fs) (v : Volume fs) (log : List DiskEvent) : Prop where
  -- A sector which could not be written back is still in the cache.
  write : ∀ sidx, .write sidx false ∈ log → ∃ i, b.Holds i sidx ∧ b.bufFlags i = .dirty ∧ b.slot i = v sidx
  -- A buffer which could not be filled is not the one of the sector.
  read  : ∀ i sidx, .read i sidx false ∈ log → ¬b.Holds i sidx
  -- The valid buffers have the latest contents, and so has the disk for all sectors without a dirty buffer.
  slot  : ∀ i, b.Valid i → b.slot i = v (b.bufSidx i)
  disk  : ∀ sidx, (∀ i, b.Holds i sidx → b.bufFlags i ≠ .dirty) → b.disk (sidx + fs.dsidx) = v sidx

-- After each operation of the run nothing is lost.
def LosesNothing (b : Bio fs) (v : Volume fs) : List (Op fs × Outcome fs) → Prop
  | []             => True
  | (op, o) :: ops => ∃ obs s, o.run b op = .ok (obs, s) ∧ NoLoss s.bio (op.eval v).2 s.log ∧
    LosesNothing s.bio (op.eval v).2 ops

-- No call of the run fails.
def Succeeds (b : Bio fs) : List (Op fs × Outcome fs) → Prop
  | []             => True
  | (op, o) :: ops => ∃ obs s, o.run b op = .ok (obs, s) ∧ (∀ e ∈ s.log, e.ok) ∧ Succeeds s.bio ops

variable {b b' : Bio fs} {v v' : Volume fs} {s : Logged fs} {i j : Nat} {sidx t : Sidx} {log : List DiskEvent}
  {op : Op fs} {o : Outcome fs}

-- What a failed call does to the cache: the old sector is gone, and the new one counts as valid.
structure Spoils (b : Bio fs) (log : List DiskEvent) : Prop where
  write : ∀ t, .write t false ∈ log → ∀ j, ¬b.Holds j t
  read  : ∀ j t, .read j t false ∈ log → b.Holds j t

theorem Spoils.not_noLoss (h : Spoils b log) (hh : ∀ j t, b'.Holds j t ↔ b.Holds j t) (he : ¬∀ e ∈ log, e.ok) :
    ¬NoLoss b' v log := by
  intro n
  simp only [not_forall] at he
  have ⟨e, hm, he⟩ := he
  cases e
  case write t ok =>
    obtain rfl : ok = false := by simpa [DiskEvent.ok] using he
    have ⟨i, hi, _⟩ := n.write t hm
    exact h.write t hm i <| (hh i t).mp hi
  case read i t ok =>
    obtain rfl : ok = false := by simpa [DiskEvent.ok] using he
    exact n.read i t hm <| (hh i t).mpr <| h.read i t hm

theorem holds_setDirty (hv : b.Valid i) (j : Nat) (t : Sidx) : (b.setFlag i .dirty).Holds j t ↔ b.Holds j t := by
  by_cases j = i <;> simp_all [Bio.Holds, Bio.Valid]

namespace Outcome

theorem fill_log : (o.fill s i sidx).log = s.log ++ [.read i sidx o.read.isNone] := by
  unfold fill readOp
  cases o.read <;> rfl

theorem fill_bio (h : o.read = none) : (o.fill s i sidx).bio = s.bio.fill i sidx := by
  unfold fill readOp
  rw [h]
  rfl

theorem fill_control : (o.fill s i sidx).bio.bufSidx = Function.update s.bio.bufSidx i sidx ∧
    (o.fill s i sidx).bio.bufFlags = Function.update s.bio.bufFlags i .clean := by
  unfold fill readOp
  cases o.read <;> exact ⟨rfl, rfl⟩

theorem fill_holds (hi : i < fs.bufNum) : (o.fill s i sidx).bio.Holds i sidx := by
  have ⟨hs, hf⟩ := @fill_control _ s i sidx o
  exact ⟨⟨hi, by simp [hf]⟩, by simp [hs]⟩

theorem writeback_log : (o.writeback s i).log =
    s.log ++ if s.bio.bufFlags i = .dirty then [.write (s.bio.bufSidx i) (o.write i).isNone] else [] := by
  unfold writeback writebackNoCheck writeOp
  split_ifs
  case pos => cases o.write i <;> rfl
  case neg => simp

theorem writeback_bio (h : s.bio.bufFlags i = .dirty → o.write i = none) : (o.writeback s i).bio = s.bio.writeback i := by
  unfold writeback Bio.writeback writebackNoCheck writeOp
  split_ifs with hd
  case pos => rw [h hd]; rfl
  case neg => rfl

theorem writeback_control : (o.writeback s i).bio.bufSidx = s.bio.bufSidx ∧ (o.writeback s i).bio.bufFlags =
    if s.bio.bufFlags i = .dirty then Function.update s.bio.bufFlags i .clean else s.bio.bufFlags := by
  unfold writeback writebackNoCheck writeOp
  split_ifs
  case pos => cases o.write i <;> exact ⟨rfl, rfl⟩
  case neg => exact ⟨rfl, rfl⟩

theorem remove_log : (o.remove s i).log = (o.writeback s i).log :=
  rfl

theorem remove_bio (h : s.bio.bufFlags i = .dirty → o.write i = none) : (o.remove s i).bio = s.bio.remove i := by
  simp only [remove, Bio.remove, writeback_bio h]

theorem remove_control : (o.remove s i).bio.bufSidx = s.bio.bufSidx ∧
    ∀ j ≠ i, (o.remove s i).bio.bufFlags j = s.bio.bufFlags j := by
  have ⟨hs, hf⟩ := @writeback_control _ s i o
  refine ⟨hs, fun j hj => ?_⟩
  have hr : (o.remove s i).bio.bufFlags = Function.update (o.writeback s i).bio.bufFlags i .invalid := rfl
  rw [hr, Function.update_of_ne hj, hf]
  split_ifs
  case pos => exact Function.update_of_ne hj ..
  case neg => rfl

-- The buffer of a sector: it is as without failures if all calls succeed.
theorem buffered_spec (w : b.Coherent v) (hn : 0 < fs.bufNum) (sidx : Sidx) :
    ∃ i s, o.buffered ⟨b, []⟩ sidx = .ok (i, s) ∧ s.bio.Holds i sidx ∧ Spoils s.bio s.log ∧
      ((∀ e ∈ s.log, e.ok) → b.buffered sidx = .ok (i, s.bio)) := by
  cases hb : b.matchBuffered sidx
  case some i =>
    refine ⟨i, ⟨b, []⟩, by simp only [buffered, hb]; rfl, Bio.matchBuffered_some hb, ⟨nofun, nofun⟩, fun _ => ?_⟩
    rw [Bio.buffered, hb]
    rfl
  case none =>
    cases hu : b.matchUnbuffered
    case some i =>
      obtain ⟨hi, hf⟩ := Bio.matchUnbuffered_some hu
      have hl : (o.fill ⟨b, []⟩ i sidx).log = [.read i sidx o.read.isNone] := fill_log
      have hh : (o.fill ⟨b, []⟩ i sidx).bio.Holds i sidx := fill_holds hi
      refine ⟨i, o.fill ⟨b, []⟩ i sidx, by simp only [buffered, hb, fetch, hu]; rfl, hh, ⟨?_, ?_⟩, fun h => ?_⟩
      case refine_1 =>
        rw [hl]
        intro t ht
        simp at ht
      case refine_2 =>
        rw [hl]
        intro j t ht
        injection List.mem_singleton.mp ht with hj ht
        rwa [hj, ht]
      case refine_3 =>
        rw [hl] at h
        have hr : o.read = none := by simpa [DiskEvent.ok] using h
        rw [Bio.buffered, hb]
        simp only [Bio.fetch, hu, fill_bio hr]
        rfl
    case none =>
      obtain ⟨i, hi, hv⟩ := w.getLowActivity hn hu
      have hl : (o.fill (o.remove ⟨b, []⟩ i) i sidx).log =
          (if b.bufFlags i = .dirty then [.write (b.bufSidx i) (o.write i).isNone] else []) ++
            [.read i sidx o.read.isNone] := by
        rw [fill_log, remove_log, writeback_log]
        rfl
      have hh : (o.fill (o.remove ⟨b, []⟩ i) i sidx).bio.Holds i sidx := fill_holds hv.1
      refine ⟨i, o.fill (o.remove ⟨b, []⟩ i) i sidx, by simp only [buffered, hb, fetch, hu, hi]; rfl, hh, ⟨?_, ?_⟩,
        fun h => ?_⟩
      case refine_1 =>
        rw [hl]
        intro t ht j hj
        have ht : b.bufFlags i = .dirty ∧ t = b.bufSidx i := by
          cases List.mem_append.mp ht
          case inl h => split_ifs at h <;> simp_all
          case inr h => simp at h
        -- Buffer `i` was the only one of the sector and belongs to another sector now.
        obtain ⟨hs, hf⟩ := @fill_control _ (o.remove ⟨b, []⟩ i) i sidx o
        obtain ⟨hs', hf'⟩ := @remove_control _ ⟨b, []⟩ i o
        by_cases hji : j = i
        case pos =>
          have : sidx = t := by simpa [hs, hji] using hj.2
          exact Bio.matchBuffered_none hb hv <| ht.2.symm.trans this.symm
        case neg =>
          have hsj : b.bufSidx j = t := by simpa [hs, hs', hji] using hj.2
          have hvj : b.Valid j := ⟨hj.1.1, by simpa [hf, hf' j hji, hji] using hj.1.2⟩
          exact hji <| w.unique hvj hv <| hsj.trans ht.2
      case refine_2 =>
        rw [hl]
        intro j t ht
        cases List.mem_append.mp ht
        case inl h => split_ifs at h <;> simp at h
        case inr h =>
          injection List.mem_singleton.mp h with hj ht
          rwa [hj, ht]
      case refine_3 =>
        rw [hl] at h
        have hr : o.read = none := by simpa [DiskEvent.ok] using h (.read i sidx o.read.isNone) (by simp)
        have hw : b.bufFlags i = .dirty → o.write i = none := by
          intro hd
          simpa [DiskEvent.ok] using h (.write (b.bufSidx i) (o.write i).isNone) (by simp [hd])
        rw [Bio.buffered, hb]
        simp only [Bio.fetch, hu, hi, fill_bio hr, @remove_bio _ ⟨b, []⟩ i o hw]
        rfl

section Flush

variable {is : List Nat}

theorem mem_foldl_log {e : DiskEvent} (h : e ∈ s.log) : e ∈ (is.foldl o.writeback s).log := by
  induction is generalizing s
  case nil          => exact h
  case cons i is hi => exact hi <| by rw [writeback_log]; exact List.mem_append_left _ h

theorem foldl_log {e : DiskEvent} (h : e ∈ (is.foldl o.writeback s).log) : e ∈ s.log ∨ ∃ t ok, e = .write t ok := by
  induction is generalizing s
  case nil => exact .inl h
  case cons i is hi =>
    cases hi h
    case inr h => exact .inr h
    case inl h =>
      rw [writeback_log] at h
      cases List.mem_append.mp h
      case inl h => exact .inl h
      case inr h =>
        split_ifs at h
        case pos => exact .inr ⟨_, _, List.mem_singleton.mp h⟩
        case neg => cases h

theorem foldl_bio (h : ∀ e ∈ (is.foldl o.writeback s).log, e.ok) :
    (is.foldl o.writeback s).bio = is.foldl Bio.writeback s.bio := by
  induction is generalizing s
  case nil => rfl
  case cons i is hi =>
    have hw : s.bio.bufFlags i = .dirty → o.write i = none := by
      intro hd
      have hm : .write (s.bio.bufSidx i) (o.write i).isNone ∈ (o.writeback s i).log := by
        rw [writeback_log, if_pos hd]
        exact List.mem_append_right _ <| .head _
      simpa [DiskEvent.ok] using h _ <| @mem_foldl_log _ (o.writeback s i) o is _ hm
    rw [List.foldl_cons, List.foldl_cons, hi h, writeback_bio hw]

-- Whatever fails, the buffers count as clean.
theorem foldl_flags (h : (is.foldl o.writeback s).bio.bufFlags j = .dirty) : s.bio.bufFlags j = .dirty ∧ j ∉ is := by
  induction is generalizing s
  case nil => exact ⟨h, List.not_mem_nil⟩
  case cons i is hi =>
    have ⟨hd, hj⟩ := hi h
    rw [(@writeback_control _ s i o).2] at hd
    split_ifs at hd with hi
    case pos =>
      by_cases hji : j = i
      case pos => simp [hji] at hd
      case neg => exact ⟨by simpa [hji] using hd, by simp [hji, hj]⟩
    case neg =>
      have hji : j ≠ i := fun h => hi <| h ▸ hd
      exact ⟨hd, by simp [hji, hj]⟩

end Flush

-- Without failures an operation does what it should. With a failure something is lost.
theorem run_spec (w : b.Coherent v) (hn : 0 < fs.bufNum) (op : Op fs) : ∃ obs s, o.run b op = .ok (obs, s) ∧
    ((∀ e ∈ s.log, e.ok) → op.run b = .ok (obs, s.bio)) ∧ ((¬∀ e ∈ s.log, e.ok) → ∀ v', ¬NoLoss s.bio v' s.log) := by
  cases op
  case read sidx =>
    obtain ⟨i, s, hb, hi, hs, hk⟩ := @buffered_spec _ b v o w hn sidx
    refine ⟨_, ⟨s.bio.setActivity i, s.log⟩, by rw [run, hb]; rfl, fun h => ?_, fun h v' => ?_⟩
    case refine_1 => rw [Op.run, Bio.read, Bio.access, hk h]; rfl
    case refine_2 => exact hs.not_noLoss (fun _ _ => Iff.rfl) h
  case write sidx update =>
    obtain ⟨i, s, hb, hi, hs, hk⟩ := @buffered_spec _ b v o w hn sidx
    rw [run, hb]
    refine ⟨_, _, rfl, fun h => ?_, fun h v' => ?_⟩
    case refine_1 => rw [Op.run, Bio.write, Bio.access, hk h]; rfl
    case refine_2 => exact hs.not_noLoss (@holds_setDirty _ s.bio i hi.1) h
  case readCopy sidx offset bufLen =>
    obtain ⟨i, s, hb, hi, hs, hk⟩ := @buffered_spec _ b v o w hn sidx
    rw [run, hb]
    refine ⟨_, _, rfl, fun h => ?_, fun h v' => ?_⟩
    case refine_1 => rw [Op.run, Bio.readCopy, hk h]; rfl
    case refine_2 => exact hs.not_noLoss (fun _ _ => Iff.rfl) h
  case writeCopy sidx offset buf =>
    obtain ⟨i, s, hb, hi, hs, hk⟩ := @buffered_spec _ b v o w hn sidx
    rw [run, hb]
    refine ⟨_, _, rfl, fun h => ?_, fun h v' => ?_⟩
    case refine_1 => rw [Op.run, Bio.writeCopy, hk h]; rfl
    case refine_2 => exact hs.not_noLoss (@holds_setDirty _ s.bio i hi.1) h
  case flush =>
    refine ⟨.done, o.flush ⟨b, []⟩, rfl, fun h => ?_, fun h v' n => ?_⟩
    case refine_1 =>
      have hf : (o.flush ⟨b, []⟩).bio = b.flush := foldl_bio h
      rw [Op.run, ← hf]
      rfl
    case refine_2 =>
      simp only [not_forall] at h
      obtain ⟨e, hm, he⟩ := h
      obtain ⟨t, ok, ht⟩ := (foldl_log hm).resolve_left List.not_mem_nil
      subst ht
      obtain rfl : ok = false := by simpa [DiskEvent.ok] using he
      obtain ⟨i, hi, hd, _⟩ := n.write t hm
      exact (foldl_flags hd).2 <| List.mem_range.mpr hi.1.1

end Outcome

theorem Bio.Coherent.noLoss (w : b.Coherent v) (h : ∀ e ∈ log, e.ok) : NoLoss b v log where
  write _ ht  := absurd (h _ ht) <| by simp [DiskEvent.ok]
  read _ _ ht := absurd (h _ ht) <| by simp [DiskEvent.ok]
  slot _ hi   := w.slot hi
  disk sidx h := by
    refine w.disk fun i hi hs => ?_
    cases hf : b.bufFlags i
    case invalid => exact absurd hf hi.2
    case clean   => rfl
    case dirty   => exact absurd hf <| h i ⟨hi, hs⟩

-- A step of the run.
theorem noLoss_iff (w : b.Coherent v) (hn : 0 < fs.bufNum) {obs : Obs fs} (h : o.run b op = .ok (obs, s)) :
    (NoLoss s.bio (op.eval v).2 s.log ↔ ∀ e ∈ s.log, e.ok) ∧ ((∀ e ∈ s.log, e.ok) → s.bio.Coherent (op.eval v).2) := by
  have ⟨obs', s', h', hk, hl⟩ := @Outcome.run_spec _ b v o w hn op
  cases h.symm.trans h'
  have hc : (∀ e ∈ s.log, e.ok) → s.bio.Coherent (op.eval v).2 := by
    intro he
    have ⟨b', hb, w'⟩ := w.step hn op
    cases hb.symm.trans <| hk he
    exact w'
  refine ⟨⟨fun n => ?_, fun he => (hc he).noLoss he⟩, hc⟩
  by_contra he
  exact hl he _ n

theorem losesNothing_iff (w : b.Coherent v) (hn : 0 < fs.bufNum) (ops : List (Op fs × Outcome fs)) :
    LosesNothing b v ops ↔ Succeeds b ops := by
  induction ops generalizing b v
  case nil => exact Iff.rfl
  case cons r ops hi =>
    have ⟨op, o⟩ := r
    refine exists_congr fun obs => exists_congr fun s => and_congr_right fun h => ?_
    have ⟨hl, hc⟩ := noLoss_iff w hn h
    rw [hl]
    exact and_congr_right fun he => hi <| hc he

-- The cache loses nothing just in the runs in which no operation of the disk fails.
theorem cache_losesNothing_iff (hn : 0 < fs.bufNum) (buf : Memory Byte) (l : Links BufNode) (disk : Sidx → Sector fs)
    (ops : List (Op fs × Outcome fs)) :
    LosesNothing (Bio.init buf l disk) (fun sidx => disk (sidx + fs.dsidx)) ops ↔ Succeeds (Bio.init buf l disk) ops :=
  losesNothing_iff (Bio.init_coherent buf l disk) hn ops

-- No failure.
def working : Outcome oneBuffer where
  write _ := none
  read    := none

-- The write-backs fail and leave zeros.
def failing : Outcome oneBuffer where
  write _ := some fun _ => 0
  read    := none

theorem oneBuffer_losesNothing : LosesNothing (Bio.init (fun _ => 0) ⟨id, id⟩ fun _ _ => 0) (fun _ _ => 0)
    [(.write 0 fun _ _ => 1, working), (.flush, working)] := by
  apply (@cache_losesNothing_iff oneBuffer (by decide) (fun _ => 0) ⟨id, id⟩ (fun _ _ => 0) _).mpr
  refine ⟨_, _, rfl, ?_, _, _, rfl, ?_, trivial⟩
  case refine_1 => exact List.forall_mem_singleton.mpr rfl
  case refine_2 => exact List.forall_mem_singleton.mpr rfl

-- After a flush which fails, the only buffer is clean and the disk is as before.
theorem oneBuffer_loses : ¬LosesNothing (Bio.init (fun _ => 0) ⟨id, id⟩ fun _ _ => 0) (fun _ _ => 0)
    [(.write 0 fun _ _ => 1, working), (.flush, failing)] := by
  rintro ⟨_, _, h, _, _, _, h', n, _⟩
  cases h
  cases h'
  have ⟨i, hi, hd, _⟩ := n.write 0 <| .head _
  cases Nat.lt_one_iff.mp hi.1.1
  cases hd

end Zgmos.Fat32
