import Zgmos.Fs.Locking
import Zgmos.Kustd.Copy

-- The reading of files, with the bytes that are read.

namespace Zgmos.Fs

open Kustd (Word Bytes memcpy)

def min64 (a b : Word) : Word :=
  if b < a then b else a

-- `vfs_access` on a state of the buffers, with the address of the buffer as result. It changes the memory.
abbrev VfsAccess (Buffers : Type) :=
  Buffers → Bytes → Node → (blkoff : Word) → Except Fault (Word × Buffers × Bytes)

-- The bytes which a device puts into a buffer.
abbrev DeviceBytes := Node → (offset : Word) → Nat → BitVec 8

-- The kernel as the functions which read see it.
structure Kernel (Obj Buffers : Type) where
  files   : Files Obj
  buffers : Buffers
  mem     : Bytes
  -- The lock of the file system is held.
  locked  : Bool

variable {Obj Buffers : Type}

namespace Kernel

-- Acquiring a lock which is held does not end.
def acquire (s : Kernel Obj Buffers) : Except Fault (Kernel Obj Buffers) :=
  if s.locked then throw .panic else return { s with locked := true }

def release (s : Kernel Obj Buffers) : Kernel Obj Buffers :=
  { s with locked := false }

-- The loop of `vfs_read`.
def copyBlocks (access : VfsAccess Buffers) (node : Node) (buf bufLen : Word) (s : Kernel Obj Buffers)
    (blkoff byteCnt : Word) (byteoff : Fin pageSize) : Except Fault (Word × Kernel Obj Buffers) :=
  if byteCnt = bufLen then
    return (byteCnt, s)
  else do
    let (dat, buffers, mem) ← access s.buffers s.mem node blkoff
    let len := min64 (.ofNat 64 (pageSize - byteoff)) (bufLen - byteCnt)
    let mem := memcpy mem (buf + byteCnt) (dat + .ofNat 64 byteoff) len
    copyBlocks access node buf bufLen { s with buffers, mem } (blkoff + 1) (byteCnt + len) ⟨0, by decide⟩
termination_by (bufLen - byteCnt).toNat
decreasing_by
  have hlt := byteoff.isLt
  have hpos : pageSize - byteoff < 2 ^ 64 := (Nat.sub_le ..).trans_lt <| by decide
  have hlen : (BitVec.ofNat 64 (pageSize - byteoff)).toNat = pageSize - byteoff := by
    rw [BitVec.toNat_ofNat, Nat.mod_eq_of_lt hpos]
  unfold min64
  split_ifs
  case pos => bv_omega
  case neg => bv_omega

-- At the end of the file the lock is not released.
def vfsRead (access : VfsAccess Buffers) (device : DeviceBytes) (s : Kernel Obj Buffers) (node : Node)
    (offset buf bufLen : Word) : Except Fault (Word × Kernel Obj Buffers) := do
  let s ← s.acquire
  let n := s.files.vfs.nodes node
  if n.type = .dev then
    match n.bkd with
    | none     => throw .outOfBounds
    | some bkd =>
      let tmp := bkd.read n.lfsObj offset bufLen
      let mem := fun a => if a - buf < tmp then device node offset (a - buf).toNat else s.mem a
      return (tmp, { s with mem }.release)
  else if n.size.setWidth 64 ≤ offset then
    return (0, s)
  else
    let bufLen := min64 bufLen (n.size.setWidth 64 - offset)
    let byteoff : Fin pageSize := ⟨offset.toNat % pageSize, Nat.mod_lt _ <| by decide⟩
    let (byteCnt, s) ← s.copyBlocks access node buf bufLen (offset / .ofNat 64 pageSize) 0 byteoff
    return (byteCnt, s.release)

def filesStructRead (access : VfsAccess Buffers) (device : DeviceBytes) (s : Kernel Obj Buffers) (t : Pages) (fd : Int)
    (buf bufLen : Word) : Except Fault (Int × Kernel Obj Buffers) := do
  let f ← s.files.table t
  let _ ← s.files.table f.seek
  match ← f.get fd with
  | none      => throw .outOfBounds
  | some node =>
    let (n, s) ← s.vfsRead access device node (s.files.seeks f.seek fd.toNat) buf bufLen
    let (ret, files) ← s.files.transfer f fd n
    return (ret, { s with files })

end Kernel

-- What is relied on of `vfs_access` for the blocks before `limit` of a file, as long as `inv` holds: The buffers are in
-- the memory `own`, nothing else changes, and the buffer of a block begins with the bytes of the file up to `limit`
-- that are in the block.
structure Serves (access : VfsAccess Buffers) (inv : Buffers → Prop) (own : Word → Prop) (node : Node) (limit : Nat)
    (content : Nat → BitVec 8) : Prop where
  ok : ∀ buffers mem (blkoff : Word), inv buffers → blkoff.toNat * pageSize < limit →
    ∃ dat buffers' mem', access buffers mem node blkoff = .ok (dat, buffers', mem') ∧ inv buffers' ∧
      (∀ a, ¬own a → mem' a = mem a) ∧ (∀ k < pageSize, own (dat + .ofNat 64 k)) ∧
      ∀ k < min pageSize (limit - blkoff.toNat * pageSize),
        mem' (dat + .ofNat 64 k) = content (blkoff.toNat * pageSize + k)

-- The same for the blocks from `first` on only.
structure ServesFrom (access : VfsAccess Buffers) (inv : Buffers → Prop) (own : Word → Prop) (node : Node)
    (first limit : Nat) (content : Nat → BitVec 8) : Prop where
  ok : ∀ buffers mem (blkoff : Word), inv buffers → first ≤ blkoff.toNat → blkoff.toNat * pageSize < limit →
    ∃ dat buffers' mem', access buffers mem node blkoff = .ok (dat, buffers', mem') ∧ inv buffers' ∧
      (∀ a, ¬own a → mem' a = mem a) ∧ (∀ k < pageSize, own (dat + .ofNat 64 k)) ∧
      ∀ k < min pageSize (limit - blkoff.toNat * pageSize),
        mem' (dat + .ofNat 64 k) = content (blkoff.toNat * pageSize + k)

-- The first `n` bytes at `buf` are those of the file from `offset` on. Apart from the buffers of the file system the
-- rest of the memory is as before.
structure Delivered (own : Word → Prop) (content : Nat → BitVec 8) (mem : Bytes) (offset n : Nat) (buf : Word)
    (mem' : Bytes) : Prop where
  bytes : ∀ k < n, mem' (buf + .ofNat 64 k) = content (offset + k)
  frame : ∀ a, ¬own a → n ≤ (a - buf).toNat → mem' a = mem a

variable {access : VfsAccess Buffers} {device : DeviceBytes} {inv : Buffers → Prop} {own : Word → Prop} {node : Node}
  {first limit : Nat} {size : BitVec 32} {content : Nat → BitVec 8} {s : Kernel Obj Buffers}
  {offset buf bufLen blkoff byteCnt : Word} {byteoff : Fin pageSize}

theorem Serves.from (w : Serves access inv own node limit content) (first : Nat) :
    ServesFrom access inv own node first limit content where
  ok buffers mem blkoff hi _ hlt := w.ok buffers mem blkoff hi hlt

theorem min64_toNat {a b : Word} : (min64 a b).toNat = min a.toNat b.toNat := by
  unfold min64
  split_ifs
  case pos h => exact (Nat.min_eq_right (BitVec.lt_def.mp h).le).symm
  case neg h => exact (Nat.min_eq_left <| Nat.le_of_not_lt fun hn => h <| BitVec.lt_def.mpr hn).symm

theorem ofNat_toNat {k : Nat} (h : k < 2 ^ 64) : (BitVec.ofNat 64 k).toNat = k := by
  rw [BitVec.toNat_ofNat, Nat.mod_eq_of_lt h]

theorem setWidth_toNat : (size.setWidth 64).toNat = size.toNat :=
  BitVec.toNat_setWidth_of_le (by decide)

-- The index of a block is not truncated, and neither is its offset in the file.
theorem blkoff_toNat (h : blkoff.toNat * pageSize < size.toNat) : (blkoff.setWidth 32).toNat = blkoff.toNat ∧
    (blkoff.setWidth 32 * .ofNat 32 pageSize).toNat = blkoff.toNat * pageSize := by
  have hs := size.isLt
  simp only [pageSize] at h
  constructor <;>
    simp only [BitVec.toNat_setWidth, BitVec.toNat_mul, BitVec.toNat_ofNat, pageSize] <;> omega

theorem add_ofNat (x : Word) (k : Nat) : buf + x + .ofNat 64 k = buf + .ofNat 64 (x.toNat + k) := by
  rw [BitVec.ofNat_add, BitVec.ofNat_toNat, BitVec.setWidth_eq, BitVec.add_assoc]

theorem add_ofNat' (i k : Nat) : buf + .ofNat 64 i + .ofNat 64 k = buf + .ofNat 64 (i + k) := by
  rw [BitVec.ofNat_add, BitVec.add_assoc]

-- A part of the buffer which begins at `x` is behind the bytes before it.
theorem le_sub_of_lt {x len : Word} {k : Nat} (hk : k < x.toNat) (h : x.toNat + len.toNat < 2 ^ 64) :
    len ≤ buf + .ofNat 64 k - (buf + x) := by
  have := ofNat_toNat (hk.trans x.isLt)
  generalize BitVec.ofNat 64 k = y at this ⊢
  bv_omega

theorem le_sub_of_le {x len a : Word} (h : x.toNat + len.toNat ≤ (a - buf).toNat) : len ≤ a - (buf + x) := by
  bv_omega

-- What is copied of a block.
theorem len_toNat (hle : byteCnt.toNat ≤ bufLen.toNat) :
    (min64 (.ofNat 64 (pageSize - byteoff)) (bufLen - byteCnt)).toNat =
      min (pageSize - byteoff) (bufLen.toNat - byteCnt.toNat) := by
  have hpos : pageSize - byteoff < 2 ^ 64 := (Nat.sub_le ..).trans_lt <| by decide
  rw [min64_toNat, ofNat_toNat hpos, BitVec.toNat_sub_of_le <| BitVec.le_def.mpr hle]

theorem add_len_toNat (hle : byteCnt.toNat ≤ bufLen.toNat) :
    (byteCnt + min64 (.ofNat 64 (pageSize - byteoff)) (bufLen - byteCnt)).toNat =
      byteCnt.toNat + min (pageSize - byteoff) (bufLen.toNat - byteCnt.toNat) := by
  rw [BitVec.toNat_add, len_toNat hle, Nat.mod_eq_of_lt]
  omega

namespace Kernel

-- The loop copies what is missing of the first `bufLen` bytes. A buffer of the caller which is one of the file system is
-- written, but with other bytes.
theorem copyBlocks_spec (w : ServesFrom access inv own node first limit content) (hi : inv s.buffers)
    (hm : limit < 2 ^ 64) (hf : first ≤ blkoff.toNat) (hsz : bufLen ≠ 0 → offset.toNat + bufLen.toNat ≤ limit)
    (hle : byteCnt.toNat ≤ bufLen.toNat)
    (ho : byteCnt ≠ bufLen → blkoff.toNat * pageSize + byteoff = offset.toNat + byteCnt.toNat) :
    ∃ buffers mem, s.copyBlocks access node buf bufLen blkoff byteCnt byteoff =
      .ok (bufLen, { s with buffers, mem }) ∧ inv buffers ∧
      (∀ a, ¬own a → bufLen.toNat ≤ (a - buf).toNat → mem a = s.mem a) ∧
      ((∀ k < bufLen.toNat, ¬own (buf + .ofNat 64 k)) →
        (∀ k < byteCnt.toNat, s.mem (buf + .ofNat 64 k) = content (offset.toNat + k)) →
        ∀ k < bufLen.toNat, mem (buf + .ofNat 64 k) = content (offset.toNat + k)) := by
  induction hn : bufLen.toNat - byteCnt.toNat using Nat.strong_induction_on generalizing s blkoff byteCnt byteoff
  case h n ih =>
    by_cases he : byteCnt = bufLen
    case pos =>
      rw [copyBlocks, if_pos he, he]
      exact ⟨s.buffers, s.mem, rfl, hi, fun _ _ _ => rfl, fun _ hc => hc⟩
    case neg =>
      have ho := ho he
      have hlt : byteCnt.toNat < bufLen.toNat := hle.lt_of_ne fun h => he <| BitVec.eq_of_toNat_eq h
      have hsz' := hsz fun hz => Nat.not_lt_zero _ <| hlt.trans_eq <| congrArg BitVec.toNat hz
      have hoff := byteoff.isLt
      have hblk : blkoff.toNat * pageSize < limit := by omega
      obtain ⟨dat, buffers, mem, hr, hi', hkeep, hown, hdat⟩ := w.ok s.buffers s.mem blkoff hi hf hblk
      have hlen := @len_toNat bufLen byteCnt byteoff hle
      have hcnt := @add_len_toNat bufLen byteCnt byteoff hle
      generalize hl : min64 (.ofNat 64 (pageSize - byteoff)) (bufLen - byteCnt) = len at hlen hcnt
      let mem' := memcpy mem (buf + byteCnt) (dat + .ofNat 64 byteoff) len
      have hframe : ∀ a, ¬own a → len ≤ a - (buf + byteCnt) → mem' a = s.mem a := fun a ha h =>
        (Kustd.memcpy_frame h).trans <| hkeep a ha
      have hone : (blkoff + 1).toNat = blkoff.toNat + 1 := by
        rw [BitVec.toNat_add]
        exact Nat.mod_eq_of_lt <| by simp only [pageSize] at hblk; simp; omega
      -- The next block begins where this one ends.
      have ho' : byteCnt + len ≠ bufLen → (blkoff + 1).toNat * pageSize + 0 = offset.toNat + (byteCnt + len).toNat := by
        intro hne
        have : byteCnt.toNat + len.toNat ≠ bufLen.toNat := fun h =>
          hne <| BitVec.eq_of_toNat_eq <| (hlen ▸ hcnt).trans h
        rw [hone, hcnt, Nat.add_mul]
        omega
      obtain ⟨buffers', mem'', hr', hi'', hf', hd⟩ := @ih (bufLen.toNat - (byteCnt + len).toNat) (by omega)
        { s with buffers, mem := mem' } (blkoff + 1) (byteCnt + len) ⟨0, by decide⟩ hi' (by omega) (by omega) ho' rfl
      refine ⟨buffers', mem'', ?_, hi'', fun a ha h => ?_, fun hb hc => hd hb fun k hk => ?_⟩
      case refine_1 =>
        rw [copyBlocks, if_neg he]
        simp only [hr, hl, bind, Except.bind]
        exact hr'
      case refine_2 => exact (hf' a ha h).trans <| hframe a ha <| le_sub_of_le <| by omega
      case refine_3 =>
        have hsrc : ∀ i < len.toNat, own (dat + .ofNat 64 byteoff + .ofNat 64 i) := by
          intro i hi
          rw [add_ofNat']
          exact hown _ <| by omega
        have hdst : ∀ i < len.toNat, ¬own (buf + byteCnt + .ofNat 64 i) := by
          intro i hi
          rw [add_ofNat]
          exact hb _ <| by omega
        cases Nat.lt_or_ge k byteCnt.toNat
        case inl hk' =>
          exact (hframe _ (hb k <| hk'.trans hlt) <| le_sub_of_lt hk' <| by omega).trans <| hc k hk'
        case inr hk' =>
          obtain ⟨j, hj⟩ := Nat.exists_eq_add_of_le hk'
          have hj' : j < len.toNat := by omega
          have hcopy : mem' (buf + byteCnt + .ofNat 64 j) = mem (dat + .ofNat 64 byteoff + .ofNat 64 j) :=
            Kustd.memcpy_of_disjoint (fun i hi j hj he => hdst j hj <| he ▸ hsrc i hi) hj'
          rw [add_ofNat, ← hj, add_ofNat', hdat _ (by omega)] at hcopy
          refine hcopy.trans ?_
          congr 1
          omega

-- The two results of a read of a file whose lock is free.

theorem vfsRead_eof (hl : s.locked = false) (hd : (s.files.vfs.nodes node).type ≠ .dev)
    (ho : (s.files.vfs.nodes node).size.toNat ≤ offset.toNat) :
    s.vfsRead access device node offset buf bufLen = .ok (0, { s with locked := true }) := by
  have hz : (s.files.vfs.nodes node).size.setWidth 64 ≤ offset := by
    rw [BitVec.le_def, setWidth_toNat]
    exact ho
  simp only [vfsRead, acquire, hl, Bool.false_eq_true, if_false, bind, Except.bind, pure, Except.pure, if_neg hd, if_pos hz]

variable (device) in
theorem vfsRead_ends {n : Nat} (w : ServesFrom access inv own node (offset.toNat / pageSize) limit content)
    (hi : inv s.buffers) (hl : s.locked = false) (hd : (s.files.vfs.nodes node).type ≠ .dev)
    (ho : offset.toNat < (s.files.vfs.nodes node).size.toNat)
    (hn : n = min bufLen.toNat ((s.files.vfs.nodes node).size.toNat - offset.toNat))
    (hlim : n ≠ 0 → offset.toNat + n ≤ limit) (hm : limit < 2 ^ 64) :
    ∃ m buffers mem, s.vfsRead access device node offset buf bufLen = .ok (m, { s with buffers, mem }) ∧
      m.toNat = n ∧ inv buffers ∧ (∀ a, ¬own a → n ≤ (a - buf).toNat → mem a = s.mem a) ∧
      ((∀ k < n, ¬own (buf + .ofNat 64 k)) → ∀ k < n, mem (buf + .ofNat 64 k) = content (offset.toNat + k)) := by
  have hz : ¬(s.files.vfs.nodes node).size.setWidth 64 ≤ offset := by
    rw [BitVec.le_def, setWidth_toNat]
    exact ho.not_ge
  let m := min64 bufLen ((s.files.vfs.nodes node).size.setWidth 64 - offset)
  have hmn : m.toNat = n := by
    have hle : offset ≤ (s.files.vfs.nodes node).size.setWidth 64 := by
      rw [BitVec.le_def, setWidth_toNat]
      exact ho.le
    rw [min64_toNat, BitVec.toNat_sub_of_le hle, setWidth_toNat, hn]
  have hblk : (offset / .ofNat 64 pageSize).toNat = offset.toNat / pageSize := rfl
  have hlim' (hz : m ≠ 0) : offset.toNat + m.toNat ≤ limit :=
    hmn ▸ hlim fun h => hz <| BitVec.eq_of_toNat_eq <| hmn.trans h
  obtain ⟨buffers, mem, hr, hi', hf, hdel⟩ := @copyBlocks_spec _ _ access inv own node _ limit content
    { s with locked := true } offset buf m (offset / .ofNat 64 pageSize) 0
    ⟨offset.toNat % pageSize, Nat.mod_lt _ <| by decide⟩ w hi hm hblk.ge hlim' (Nat.zero_le _)
    (fun _ => by rw [hblk]; exact Nat.div_add_mod' ..)
  refine ⟨m, buffers, mem, ?_, hmn, hi', hmn ▸ hf, fun hb => ?_⟩
  case refine_1 =>
    simp only [vfsRead, acquire, hl, Bool.false_eq_true, if_false, bind, Except.bind, pure, Except.pure, if_neg hd, if_neg hz]
    rw [hr]
    cases s
    cases hl
    rfl
  case refine_2 =>
    have := hdel (hmn ▸ hb) fun k hk => absurd hk k.not_lt_zero
    rwa [hmn] at this

variable (device) in
theorem vfsRead_ok {n : Nat} (w : Serves access inv own node limit content) (hi : inv s.buffers)
    (hl : s.locked = false) (hd : (s.files.vfs.nodes node).type ≠ .dev)
    (ho : offset.toNat < (s.files.vfs.nodes node).size.toNat)
    (hn : n = min bufLen.toNat ((s.files.vfs.nodes node).size.toNat - offset.toNat)) (hlim : offset.toNat + n ≤ limit)
    (hm : limit < 2 ^ 64) (hb : ∀ k < n, ¬own (buf + .ofNat 64 k)) :
    ∃ m buffers mem, s.vfsRead access device node offset buf bufLen = .ok (m, { s with buffers, mem }) ∧
      m.toNat = n ∧ inv buffers ∧ Delivered own content s.mem offset.toNat n buf mem := by
  obtain ⟨m, buffers, mem, hr, hmn, hi', hf, hdel⟩ := vfsRead_ends device (w.from _) hi hl hd ho hn (fun _ => hlim) hm
  exact ⟨m, buffers, mem, hr, hmn, hi', hdel hb, hf⟩

end Kernel

-- A file is read block by block, and the result is that of a single read. No index of a block is truncated.
theorem vfsRead_delivers (w : Serves access inv own node (s.files.vfs.nodes node).size.toNat content)
    (hi : inv s.buffers) (hl : s.locked = false) (hd : (s.files.vfs.nodes node).type = .file)
    (ho : offset.toNat < (s.files.vfs.nodes node).size.toNat)
    (hb : ∀ k < min bufLen.toNat ((s.files.vfs.nodes node).size.toNat - offset.toNat), ¬own (buf + .ofNat 64 k)) :
    (∃ n buffers mem, s.vfsRead access device node offset buf bufLen = .ok (n, { s with buffers, mem }) ∧
      n.toNat = min bufLen.toNat ((s.files.vfs.nodes node).size.toNat - offset.toNat) ∧
      Delivered own content s.mem offset.toNat n.toNat buf mem) ∧
    ∀ blkoff : Word, blkoff.toNat * pageSize < (s.files.vfs.nodes node).size.toNat →
      (blkoff.setWidth 32).toNat = blkoff.toNat ∧
      (blkoff.setWidth 32 * .ofNat 32 pageSize).toNat = blkoff.toNat * pageSize := by
  have ⟨n, buffers, mem, hr, hn, _, hdel⟩ := Kernel.vfsRead_ok device w hi hl (by simp [hd]) ho rfl (by omega)
    ((s.files.vfs.nodes node).size.isLt.trans <| by decide) hb
  exact ⟨⟨n, buffers, mem, hr, hn, hn ▸ hdel⟩, fun _ => blkoff_toNat⟩

-- The blocks are read into a single buffer, one after the other.

def bufferAddr : Word :=
  0x80000000

def singleBuffer (content : Nat → BitVec 8) : VfsAccess Unit :=
  fun _ mem _ blkoff => .ok (bufferAddr, (), fun a =>
    if a - bufferAddr < .ofNat 64 pageSize then content (blkoff.toNat * pageSize + (a - bufferAddr).toNat) else mem a)

theorem singleBuffer_serves (node : Node) (limit : Nat) (content : Nat → BitVec 8) :
    Serves (singleBuffer content) (fun _ => True) (· - bufferAddr < .ofNat 64 pageSize) node limit content where
  ok _ mem blkoff _ _ := by
    have hlt {k : Nat} (hk : k < pageSize) : (bufferAddr + .ofNat 64 k) - bufferAddr < .ofNat 64 pageSize ∧
        (bufferAddr + .ofNat 64 k - bufferAddr).toNat = k := by
      have hk' : k < 2 ^ 64 := hk.trans <| by decide
      rw [BitVec.add_comm, BitVec.add_sub_cancel, BitVec.lt_def, ofNat_toNat hk']
      exact ⟨hk, rfl⟩
    refine ⟨bufferAddr, (), _, rfl, trivial, fun a ha => if_neg ha, fun k hk => (hlt hk).1, fun k hk => ?_⟩
    have ⟨h, he⟩ := hlt <| hk.trans_le <| Nat.min_le_left ..
    rw [if_pos h, he]

-- The vnode 1 is a file of `size` bytes, to which the descriptor 0 belongs.
def sampleKernel (size : BitVec 32) : Kernel Nat Unit where
  files   := { sampleFiles with vfs := sizedVfs size }
  buffers := ()
  mem     := fun _ => 0
  locked  := false

-- Bytes of the second and the third block.
theorem sampleKernel_delivers : (∃ n buffers mem, (sampleKernel 9000).vfsRead (singleBuffer fun k => .ofNat 8 k)
      (fun _ _ _ => 0) 1 8000 0x1000 2000 = .ok (n, { sampleKernel 9000 with buffers, mem }) ∧
      n.toNat = min 2000 (9000 - 8000) ∧
      Delivered (· - bufferAddr < .ofNat 64 pageSize) (fun k => .ofNat 8 k) (fun _ => 0) 8000 n.toNat 0x1000 mem) ∧
    ∀ blkoff : Word, blkoff.toNat * pageSize < 9000 → (blkoff.setWidth 32).toNat = blkoff.toNat ∧
      (blkoff.setWidth 32 * .ofNat 32 pageSize).toNat = blkoff.toNat * pageSize := by
  have w := singleBuffer_serves 1 9000 fun k => .ofNat 8 k
  refine @vfsRead_delivers _ _ _ _ _ _ 1 _ (sampleKernel 9000) 8000 0x1000 2000 w trivial rfl rfl (by decide) fun k hk => ?_
  have hk : k < min 2000 (9000 - 8000) := hk
  have := ofNat_toNat (k := k) <| by omega
  generalize BitVec.ofNat 64 k = x at this ⊢
  show ¬0x1000#64 + x - 0x80000000#64 < 4096#64
  bv_omega

end Zgmos.Fs
