import Zgmos.Fat32.Extend
import Zgmos.Fat32.Init

-- What remains after `fat32_destory`.

namespace Zgmos.Fat32

-- The members of `struct fat32_fs` which are allocated, and the structure itself.
inductive Resource
  | fs
  | buf
  | bufSidx
  | bufFlags
  | bufLists
  deriving DecidableEq

-- The calls of `kmalloc` and `pmem_alloc` which succeed, and those of `kfree` and `pmem_free`.
inductive HeapEvent
  | alloc (r : Resource)
  | free  (r : Resource)
  deriving DecidableEq

-- The calls of `fat32_init`, with the same answers as there.
def fat32InitEvents (answers : Nat → Bool) (bpb : BootSector) (bufOrder : BitVec 8) : List HeapEvent :=
  if !answers 0 then
    []
  else if !answers 1 then
    [.alloc .fs, .free .fs]
  else
    let bufNum := bufNum bpb.bytePerSec bufOrder.toNat
    let kmalloc k size := answers k && size ≤ kmallocMax
    if !kmalloc 2 (4 * bufNum) then
      [.alloc .fs, .alloc .buf, .free .buf, .free .fs]
    else if !kmalloc 3 bufNum then
      [.alloc .fs, .alloc .buf, .alloc .bufSidx, .free .buf, .free .bufSidx, .free .fs]
    else if !kmalloc 4 (16 * bufNum) then
      [.alloc .fs, .alloc .buf, .alloc .bufSidx, .alloc .bufFlags,
        .free .buf, .free .bufFlags, .free .bufSidx, .free .fs]
    else
      [.alloc .fs, .alloc .buf, .alloc .bufSidx, .alloc .bufFlags, .alloc .bufLists]

def fat32Destory {fs : Fat32Fs} (b : Bio fs) : Bio fs × List HeapEvent :=
  (b, [.free .buf, .free .fs])

-- The calls which change the volume. The callers of `fat32_bio_write` change the buffer before the next call.
inductive Change (fs : Fat32Fs)
  | write     (sidx : Sidx) (update : Sector fs → Sector fs)
  | writeCopy (sidx : Sidx) (offset : Fin (fs.bytePerSector + 1)) (buf : List Byte)
  | setChain  (index val : Cidx)

variable {fs : Fat32Fs}

def Change.run (b : Bio fs) : Change fs → Except Fault (Bio fs)
  | write sidx update         => return (← (Op.write sidx update).run b).2
  | writeCopy sidx offset buf => return (← (Op.writeCopy sidx offset buf).run b).2
  | setChain index val        => fat32SetChain b index val

def Change.eval (v : Volume fs) : Change fs → Volume fs
  | write sidx update         => ((Op.write sidx update).eval v).2
  | writeCopy sidx offset buf => ((Op.writeCopy sidx offset buf).eval v).2
  | setChain index val        => v.setChain index val

-- The disk contains what was written, and each allocation of `fat32_init` is undone once.
def Lifecycle (answers : Nat → Bool) (bpb : BootSector) (bufOrder : BitVec 8) (buf : Memory Byte) (l : Links BufNode)
    (disk : Sidx → Sector fs) (changes : List (Change fs)) : Prop :=
  ∃ b, changes.foldlM Change.run (Bio.init buf l disk) = .ok b ∧
    (∀ sidx, (fat32Destory b).1.disk (sidx + fs.dsidx) =
      changes.foldl Change.eval (fun sidx => disk (sidx + fs.dsidx)) sidx) ∧
    ∀ r, .alloc r ∈ fat32InitEvents answers bpb bufOrder →
      (fat32InitEvents answers bpb bufOrder ++ (fat32Destory b).2).count (.free r) = 1

variable {answers : Nat → Bool} {bpb : BootSector} {bufOrder : BitVec 8} {g : Fat32Geometry} {b : Bio fs} {v : Volume fs}
  {changes : List (Change fs)}

theorem fat32InitEvents_of_some (h : fat32Init answers bpb bufOrder = .ok (some g)) :
    fat32InitEvents answers bpb bufOrder =
    [.alloc .fs, .alloc .buf, .alloc .bufSidx, .alloc .bufFlags, .alloc .bufLists] := by
  simp only [fat32Init] at h
  split_ifs at h with h₀ _ h₁ _ hk
  case neg =>
    simp only [Bool.or_eq_true, not_or] at hk
    rw [fat32InitEvents, if_neg h₀, if_neg h₁]
    simp only [if_neg hk.1.1, if_neg hk.1.2, if_neg hk.2]
  all_goals cases h

-- A failing `fat32_init` keeps nothing.
theorem fat32InitEvents_of_none (h : fat32Init answers bpb bufOrder = .ok none) (r : Resource) :
    (fat32InitEvents answers bpb bufOrder).count (.free r) = (fat32InitEvents answers bpb bufOrder).count (.alloc r) := by
  simp only [fat32InitEvents]
  split_ifs with h₀ h₁ h₂ h₃ h₄
  case neg =>
    simp only [fat32Init, if_neg h₀, if_neg h₁, h₂, h₃, h₄, Bool.or_self, Bool.false_eq_true, if_false] at h
    split_ifs at h
    cases h
  all_goals cases r <;> rfl

namespace Change

theorem coherent (w : b.Coherent v) (hn : 0 < fs.bufNum) (hc : fs.chainPerSector ≠ 0) (change : Change fs) :
    ∃ b', change.run b = .ok b' ∧ b'.Coherent (change.eval v) := by
  cases change
  case write sidx update =>
    have ⟨b', h, w'⟩ := w.step hn (.write sidx update)
    exact ⟨b', by rw [run, h]; rfl, w'⟩
  case writeCopy sidx offset buf =>
    have ⟨b', h, w'⟩ := w.step hn (.writeCopy sidx offset buf)
    exact ⟨b', by rw [run, h]; rfl, w'⟩
  case setChain => exact w.setChain hn hc

theorem coherent_all (w : b.Coherent v) (hn : 0 < fs.bufNum) (hc : fs.chainPerSector ≠ 0) :
    ∃ b', changes.foldlM run b = .ok b' ∧ b'.Coherent (changes.foldl eval v) := by
  induction changes generalizing b v
  case nil => exact ⟨b, rfl, w⟩
  case cons change changes hi =>
    have ⟨b₁, h₁, w₁⟩ := change.coherent w hn hc
    have ⟨b₂, h₂, w₂⟩ := hi w₁
    exact ⟨b₂, by rw [List.foldlM_cons, h₁]; exact h₂, w₂⟩

end Change

-- The disk alone contains the volume just if no buffer has newer contents.
theorem disk_eq_iff (w : b.Coherent v) : (∀ sidx, b.disk (sidx + fs.dsidx) = v sidx) ↔
    ∀ i, b.Valid i → b.bufFlags i = .dirty → b.disk (b.bufSidx i + fs.dsidx) = b.slot i := by
  apply Iff.intro
  case mp  => exact fun h i hi _ => (h _).trans (w.slot hi).symm
  case mpr =>
    intro h sidx
    by_cases hc : ∀ i, b.Valid i → b.bufSidx i = sidx → b.bufFlags i = .clean
    case pos => exact w.disk hc
    case neg =>
      simp only [not_forall] at hc
      have ⟨i, hi, hs, hf⟩ := hc
      have hd : b.bufFlags i = .dirty := by
        cases hb : b.bufFlags i
        case invalid => exact absurd hb hi.2
        case clean   => exact absurd hb hf
        case dirty   => rfl
      rw [← hs, h i hi hd, w.slot hi]

-- The three arrays are never freed, whatever happens in between.
theorem fat32Destory_leaks {buf : Memory Byte} {l : Links BufNode} {disk : Sidx → Sector g.toFat32Fs}
    {changes : List (Change g.toFat32Fs)} (h : fat32Init answers bpb bufOrder = .ok (some g)) :
    ¬Lifecycle answers bpb bufOrder buf l disk changes := by
  rintro ⟨b, _, _, hr⟩
  rw [fat32InitEvents_of_some h] at hr
  exact absurd (hr .bufSidx <| by simp) <| by simp [fat32Destory]

-- Both changes succeed.
theorem eightSectors_leaks : ∃ g : Fat32Geometry,
    (∃ b, [.setChain 5 6, .write 3 id].foldlM Change.run (@Bio.init g.toFat32Fs (fun _ => 0) ⟨id, id⟩ fun _ _ => 0) =
      .ok b) ∧
    ¬@Lifecycle g.toFat32Fs (fun _ => true) (bootSector [(12, 2), (13, 8)]) 1 (fun _ => 0) ⟨id, id⟩ (fun _ _ => 0)
      [.setChain 5 6, .write 3 id] := by
  have ⟨g, h⟩ : ∃ g, fat32Init (fun _ => true) (bootSector [(12, 2), (13, 8)]) 1 = .ok (some g) :=
    fat32Init_accepts (fun _ => rfl) (by decide) (by decide) (by decide)
  have u := (usable_iff_valid h).mpr ⟨by decide, by decide, by decide⟩
  have hc : g.chainPerSector ≠ 0 := Nat.one_le_iff_ne_zero.mp u.chainPerSector
  have hrun := @Change.coherent_all _ _ _ [.setChain 5 6, .write 3 id]
    (Bio.init_coherent (fun _ => 0) ⟨id, id⟩ fun _ _ => 0) u.bufNum hc
  exact ⟨g, hrun.imp fun _ => And.left, fat32Destory_leaks h⟩

-- The first change stays in its buffer.
theorem write_init (hn : 0 < fs.bufNum) (buf : Memory Byte) (l : Links BufNode) (disk : Sidx → Sector fs) (sidx : Sidx)
    (update : Sector fs → Sector fs) :
    ∃ b, (Change.write sidx update).run (Bio.init buf l disk) = .ok b ∧ b.disk = disk := by
  have hb : (Bio.init buf l disk).matchBuffered sidx = none := by
    simp [Bio.matchBuffered, Bio.init]
  have hu : (Bio.init buf l disk).matchUnbuffered = some 0 := by
    obtain ⟨n, h⟩ := Nat.exists_eq_succ_of_ne_zero hn.ne'
    simp [Bio.matchUnbuffered, Bio.init, h, List.range_succ_eq_map]
  have ha : (Bio.init buf l disk).access sidx = .ok (0, ((Bio.init buf l disk).fill 0 sidx).setActivity 0) := by
    rw [Bio.access, Bio.buffered, hb]
    simp only [Bio.fetch, hu]
    rfl
  rw [Change.run, Op.run, Bio.write, ha]
  exact ⟨_, rfl, rfl⟩

-- What is written after `fat32_init` does not reach the disk.
theorem eightSectors_lost : ∃ g, fat32Init (fun _ => true) (bootSector [(12, 2), (13, 8)]) 1 = .ok (some g) ∧
    ¬@Lifecycle g.toFat32Fs (fun _ => true) (bootSector [(12, 2), (13, 8)]) 1 (fun _ => 0) ⟨id, id⟩ (fun _ _ => 0)
      [.write 0 fun _ _ => 1] := by
  have ⟨g, h⟩ : ∃ g, fat32Init (fun _ => true) (bootSector [(12, 2), (13, 8)]) 1 = .ok (some g) :=
    fat32Init_accepts (fun _ => rfl) (by decide) (by decide) (by decide)
  have u := (usable_iff_valid h).mpr ⟨by decide, by decide, by decide⟩
  refine ⟨g, h, ?_⟩
  rintro ⟨b, hb, hd, _⟩
  have ⟨b', hw, hd'⟩ := write_init u.bufNum (fun _ => 0) ⟨id, id⟩ (fun _ _ => 0) 0 fun _ _ => 1
  rw [List.foldlM_cons, hw] at hb
  cases hb
  have hz := congrFun (hd 0) ⟨0, Nat.lt_of_lt_of_le (by decide) u.bytePerSector⟩
  rw [fat32Destory, hd'] at hz
  simp [Change.eval, Op.eval] at hz

end Zgmos.Fat32
