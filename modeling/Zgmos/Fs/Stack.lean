import Zgmos.Fs.Chunks
import Zgmos.Fat32.ReadFile

-- The reads of files on a volume: the blocks of the file system over `fat32_read` over the buffers of the sectors.

namespace Zgmos.Fs

open Fat32
open Kustd (Word)

-- The objects of FAT32 for the vnodes, and the addresses of the pages of the blocks.
structure Backing where
  objs : Node → Fat32Obj
  addr : Nat → Word
  fuel : Nat

structure Stack (fs : Fat32Fs) where
  blocks : Blocks
  bio    : Bio fs

-- A call of `vfs_read`.
structure ReadCall where
  node   : Node
  offset : Word
  buf    : Word
  bufLen : Word

variable {fs : Fat32Fs} (y : Backing)

namespace Stack

-- The part of `vbf_bind` that reads, with `fat32_vfs_read` as backend.
def vbfBind (s : Stack fs) (blk : Nat) (node : Node) (blkoff : BitVec 32) : Except Fault (Stack fs) := do
  let ((_, data), bio) ←
    (fat32Read y.fuel (y.objs node) pageSize (blkoff * .ofNat 32 pageSize).toNat).run Bio.sector s.bio
  return { blocks := ← s.blocks.vbfBind (fun _ _ => data) blk node blkoff, bio }

def vfsAccess (s : Stack fs) (node : Node) (blkoff : Word) : Except Fault (Nat × Stack fs) := do
  match ← s.blocks.vbfChkbufed node <| blkoff.setWidth 32 with
  | some blk => return (blk, { s with blocks := s.blocks.vbfActivate blk })
  | none     =>
    let (blk, blocks) ← s.blocks.vbfBorrow
    return (blk, ← vbfBind y { s with blocks } blk node <| blkoff.setWidth 32)

def accessBytes : VfsAccess (Stack fs) := fun s mem node blkoff => do
  let (blk, s) ← s.vfsAccess y node blkoff
  return (y.addr blk, s, withPage mem (y.addr blk) (s.blocks.blocks blk).buf)

end Stack

def Kernel.readCall {Obj : Type} (device : DeviceBytes) (t : Kernel Obj (Stack fs)) (r : ReadCall) :
    Except Fault (Word × Kernel Obj (Stack fs)) :=
  t.vfsRead (Stack.accessBytes y) device r.node r.offset r.buf r.bufLen

-- The vnode is a file on the volume.
structure OnVolume (y : Backing) (v : Volume fs) (node : Node) (cs : List Cidx) : Prop where
  chain  : Chain v (y.objs node).cidx cs
  fuel   : cs.length < y.fuel
  size   : (y.objs node).fileSize.toNat ≤ cs.length * (fs.secPerCluster * fs.bytePerSector)

-- The bytes of a file on the volume.
def volumeByte (v : Volume fs) (cs : List Cidx) (k : Nat) : BitVec 8 :=
  (chainBytes v cs).getD k 0

-- What the backend reads into a block.
def Backing.readBlock (v : Volume fs) : ReadBlock := fun node offset =>
  match (fat32Read y.fuel (y.objs node) pageSize offset.toNat).eval v with
  | .ok (_, data) => data
  | .error _      => []

-- The blocks below the extents of the files, of which there are not too many, and the buffers of the sectors.
structure Stack.Inv (v : Volume fs) (files : List Node) (extent : Node → Nat) (totalMax : BitVec 32) (s : Stack fs) :
    Prop where
  bio      : s.bio.Coherent v
  blocks   : ∃ accs, s.blocks.Keeps (y.readBlock v) accs ∧
    ∀ a ∈ accs, a.1 ∈ files ∧ a.2.toNat * pageSize < extent a.1
  totalMax : s.blocks.totalMax = totalMax
  bbf      : ∀ node ∈ files, (s.blocks.bbf node).isSome

variable {y} {v : Volume fs} {cs : List Cidx} {node : Node} {s s' : Stack fs} {blkoff : Word} {n : Nat}
  {data : List Byte} {files : List Node} {extent : Node → Nat} {totalMax : BitVec 32}

section Access

-- An access does what it would do if the sectors were read from the volume.
theorem Stack.vfsAccess_eq (hc : s.bio.Coherent v) (hb : 0 < fs.bufNum)
    (h : (fat32Read y.fuel (y.objs node) pageSize (blkoff.setWidth 32 * .ofNat 32 pageSize : BitVec 32).toNat).eval v =
      .ok (n, data)) :
    ∃ bio, bio.Coherent v ∧ s.vfsAccess y node blkoff =
      (s.blocks.vfsAccess (y.readBlock v) node blkoff).map fun (blk, blocks) => (blk, { blocks, bio }) := by
  have hr : y.readBlock v node ((blkoff.setWidth 32 * .ofNat 32 pageSize : BitVec 32).setWidth 64) = data := by
    rw [Backing.readBlock, setWidth_toNat, h]
  unfold Stack.vfsAccess Blocks.vfsAccess
  cases s.blocks.vbfChkbufed node (blkoff.setWidth 32)
  case error e => exact ⟨s.bio, hc, rfl⟩
  case ok res =>
    cases res
    case some blk => exact ⟨s.bio, hc, rfl⟩
    case none     =>
      cases s.blocks.vbfBorrow
      case error e => exact ⟨s.bio, hc, rfl⟩
      case ok res  =>
        have ⟨blk, blocks⟩ := res
        have ⟨bio, he, w⟩ := hc.run_of_eval hb h
        have hbind : blocks.vbfBind (y.readBlock v) blk node (blkoff.setWidth 32) =
            blocks.vbfBind (fun _ _ => data) blk node (blkoff.setWidth 32) := by
          unfold Blocks.vbfBind
          rw [hr]
        refine ⟨bio, w, ?_⟩
        simp only [bind, Except.bind, Stack.vbfBind, he, hbind]
        cases blocks.vbfBind (fun _ _ => data) blk node (blkoff.setWidth 32) <;> rfl

-- What is read into a block of a file.
theorem OnVolume.read_eq (w : OnVolume y v node cs) (hd : fs.bytePerSector ∣ pageSize) {seek : Nat}
    (hp : pageSize ∣ seek) (hs : seek < (y.objs node).fileSize.toNat) :
    ∃ n, (fat32Read y.fuel (y.objs node) pageSize seek).eval v =
      .ok (n, ((chainBytes v cs).drop seek).take pageSize) := by
  have hk : seek % fs.bytePerSector = 0 := Nat.mod_eq_zero_of_dvd <| hd.trans hp
  have ⟨hi, hn, _⟩ := seek_lt <| hs.trans_le w.size
  have hr : restBytes v (cs.drop <| seek / fs.bytePerSector / fs.secPerCluster)
      (seek / fs.bytePerSector % fs.secPerCluster) 0 = (chainBytes v cs).drop seek := by
    rw [restBytes_drop hi hn, ← chainBytes_drop hi hn (Nat.zero_le _)]
    congr 1
    have := seek_eq fs seek
    omega
  have he := @fat32Read_eval _ v cs pageSize y.fuel (y.objs node) seek w.chain w.fuel hs <| by
    rw [chainBytes_length]
    exact w.size
  rw [hk, hr] at he
  exact ⟨_, he⟩

end Access

section Serves

-- The blocks below the extents.
def blockKeys (files : List Node) (extent : Node → Nat) : List (Node × BitVec 32) :=
  files.flatMap fun node => (List.range <| (extent node + pageSize - 1) / pageSize).map fun k => (node, .ofNat 32 k)

theorem length_blockKeys : (blockKeys files extent).length =
    (files.map fun node => (extent node + pageSize - 1) / pageSize).sum := by
  simp [blockKeys, List.length_flatMap]

theorem mem_blockKeys {a : Node × BitVec 32} (hm : a.1 ∈ files) (hl : a.2.toNat * pageSize < extent a.1) :
    a ∈ blockKeys files extent := by
  refine List.mem_flatMap.mpr ⟨a.1, hm, List.mem_map.mpr ⟨a.2.toNat, List.mem_range.mpr ?_, ?_⟩⟩
  case refine_1 =>
    simp only [pageSize] at hl ⊢
    omega
  case refine_2 => rw [BitVec.ofNat_toNat, BitVec.setWidth_eq]

variable {chains : Node → List Cidx} (hb : 0 < fs.bufNum) (hd : fs.bytePerSector ∣ pageSize)
  (hv : ∀ node ∈ files, OnVolume y v node (chains node))
  (he : ∀ node ∈ files, extent node ≤ (y.objs node).fileSize.toNat)
  (hsum : (files.map fun node => (extent node + pageSize - 1) / pageSize).sum ≤ totalMax.toNat)

include hb hd hv he hsum

-- The blocks and the buffers of the sectors together serve the bytes of a file.
theorem Stack.serves (hn : node ∈ files) :
    Serves (Stack.accessBytes y) (Stack.Inv y v files extent totalMax) (pagesOf y.addr totalMax) node (extent node)
      (volumeByte v (chains node)) where
  ok s mem blkoff i hlt := by
    have hsize := he node hn
    have hfs := (y.objs node).fileSize.isLt
    have hoff : (blkoff.setWidth 32).toNat = blkoff.toNat := by
      rw [BitVec.toNat_setWidth]
      simp only [pageSize] at hlt
      omega
    have hmul : (blkoff.setWidth 32 * .ofNat 32 pageSize : BitVec 32).toNat = blkoff.toNat * pageSize := by
      rw [BitVec.toNat_mul, hoff, BitVec.toNat_ofNat]
      simp only [pageSize] at hlt ⊢
      omega
    have hs : blkoff.toNat * pageSize < (y.objs node).fileSize.toNat := hlt.trans_le hsize
    obtain ⟨n, hr⟩ := (hv node hn).read_eq hd (Nat.dvd_mul_left ..) hs
    obtain ⟨accs, w, ha⟩ := i.blocks
    have ha' : ∀ a ∈ accs ++ [Access.key (node, blkoff)], a.1 ∈ files ∧ a.2.toNat * pageSize < extent a.1 :=
      List.forall_mem_append.mpr ⟨ha, List.forall_mem_singleton.mpr ⟨hn, by rw [Access.key, hoff]; exact hlt⟩⟩
    have hm : (accs ++ [Access.key (node, blkoff)]).dedup.length ≤ s.blocks.totalMax.toNat := by
      rw [i.totalMax]
      refine le_trans ?_ <| length_blockKeys.trans_le hsum
      refine (List.subperm_of_subset (List.nodup_dedup _) fun a h => ?_).length_le
      have := ha' a <| List.mem_dedup.mp h
      exact mem_blockKeys this.1 this.2
    obtain ⟨blk, b', hacc, w', hu, hkey, ht, hbbf⟩ := w.vfsAccess_ok (a := (node, blkoff)) (i.bbf node hn) hm
    have hblk : blk < totalMax.toNat := by
      have hlt := w'.next ▸ w'.lt blk hu
      exact hlt.trans_le <| ht.trans i.totalMax ▸ w'.max
    obtain ⟨bio, hc, heq⟩ := Stack.vfsAccess_eq i.bio hb <| hmul ▸ hr
    rw [hacc] at heq
    refine ⟨y.addr blk, ⟨b', bio⟩, withPage mem (y.addr blk) (b'.blocks blk).buf, ?_,
      ⟨hc, ⟨_, w', ha'⟩, ht.trans i.totalMax, fun node hn => hbbf node ▸ i.bbf node hn⟩, fun x hx => ?_, fun k hk => ?_,
      fun k hk => ?_⟩
    case refine_1 =>
      simp only [Stack.accessBytes, heq, bind, Except.bind]
      rfl
    case refine_2 => exact if_neg fun h => hx ⟨blk, hblk, h⟩
    case refine_3 =>
      refine ⟨blk, hblk, ?_⟩
      rw [BitVec.add_comm, BitVec.add_sub_cancel]
      exact ofNat_lt_pageSize hk
    case refine_4 =>
      have hkp : k < pageSize := hk.trans_le <| Nat.min_le_left ..
      have hlen : blkoff.toNat * pageSize + k < (chainBytes v <| chains node).length := by
        rw [chainBytes_length]
        exact lt_of_lt_of_le (by omega) (hv node hn).size
      have hpre : ((chainBytes v <| chains node).drop <| blkoff.toNat * pageSize).take pageSize <+:
          (b'.blocks blk).buf := by
        have := w'.buf blk hu
        rwa [hkey, Access.key, Backing.readBlock, setWidth_toNat, hmul, hr] at this
      obtain ⟨l, hl⟩ := hpre
      have hget : (((chainBytes v <| chains node).drop <| blkoff.toNat * pageSize).take pageSize)[k]? =
          some (volumeByte v (chains node) <| blkoff.toNat * pageSize + k) := by
        rw [List.getElem?_take_of_lt hkp, List.getElem?_drop, List.getElem?_eq_getElem hlen, volumeByte,
          List.getD_eq_getElem _ _ hlen]
      refine withPage_add hkp ?_
      rw [← hl]
      exact (List.getElem?_append_left (List.getElem?_eq_some_iff.mp hget).1).trans hget

end Serves

section Runs

variable {Obj : Type} {device : DeviceBytes} {chains : Node → List Cidx} {t t' : Kernel Obj (Stack fs)} {r : ReadCall}
  {pre post reqs : List ReadCall}

-- The kernel has buffers for the sectors, and blocks for the files up to their extents.
structure Backing.Serves (y : Backing) (v : Volume fs) (files : List Node) (chains : Node → List Cidx)
    (extent : Node → Nat) (totalMax : BitVec 32) (t : Kernel Obj (Stack fs)) : Prop where
  bufNum : 0 < fs.bufNum
  sector : fs.bytePerSector ∣ pageSize
  volume : ∀ node ∈ files, OnVolume y v node (chains node)
  type   : ∀ node ∈ files, (t.files.vfs.nodes node).type = .file
  size   : ∀ node ∈ files, (t.files.vfs.nodes node).size = (y.objs node).fileSize
  le     : ∀ node ∈ files, extent node ≤ (y.objs node).fileSize.toNat
  room   : (files.map fun node => (extent node + pageSize - 1) / pageSize).sum ≤ totalMax.toNat
  free   : t.locked = false

-- How much of the file is to be read.
def ReadCall.count (y : Backing) (r : ReadCall) : Nat :=
  min r.bufLen.toNat ((y.objs r.node).fileSize.toNat - r.offset.toNat)

-- A call reads within the extent of its file, into memory that is not in the pages of the blocks.
structure ReadCall.Within (y : Backing) (files : List Node) (extent : Node → Nat) (totalMax : BitVec 32)
    (r : ReadCall) : Prop where
  mem   : r.node ∈ files
  lt    : r.offset.toNat < (y.objs r.node).fileSize.toNat
  limit : r.offset.toNat + r.count y ≤ extent r.node
  buf   : ∀ k < r.count y, ¬pagesOf y.addr totalMax (r.buf + .ofNat 64 k)

-- A call delivers the bytes which its file has on the volume, and changes nothing else.
structure ReadCall.Ends (y : Backing) (v : Volume fs) (chains : Node → List Cidx) (device : DeviceBytes)
    (totalMax : BitVec 32) (r : ReadCall) (t : Kernel Obj (Stack fs)) (n : Word) (t' : Kernel Obj (Stack fs)) :
    Prop where
  eq        : t.readCall y device r = .ok (n, t')
  count     : n.toNat = r.count y
  delivered :
    Delivered (pagesOf y.addr totalMax) (volumeByte v <| chains r.node) t.mem r.offset.toNat n.toNat r.buf t'.mem
  files     : t'.files = t.files
  locked    : t'.locked = t.locked

variable (device) in
theorem Backing.Serves.readCall (w : y.Serves v files chains extent totalMax t)
    (i : t.buffers.Inv y v files extent totalMax) (hr : r.Within y files extent totalMax) :
    ∃ n t', r.Ends y v chains device totalMax t n t' ∧ t'.buffers.Inv y v files extent totalMax ∧
      y.Serves v files chains extent totalMax t' := by
  have hs := w.size r.node hr.mem
  have hle : extent r.node < 2 ^ 64 :=
    (w.le r.node hr.mem).trans_lt <| (y.objs r.node).fileSize.isLt.trans <| by decide
  have ⟨n, buffers, mem, he, hn, hi, hd⟩ := @Kernel.vfsRead_ok _ _ (Stack.accessBytes y) device _ _ r.node
    (extent r.node) _ t r.offset r.buf r.bufLen (r.count y) (Stack.serves w.bufNum w.sector w.volume w.le w.room hr.mem)
    i w.free (by simp [w.type r.node hr.mem]) (hs ▸ hr.lt) (by rw [hs]; rfl) hr.limit hle hr.buf
  refine ⟨n, { t with buffers, mem }, ⟨he, hn, hn ▸ hd, rfl, rfl⟩, hi, ?_⟩
  exact ⟨w.bufNum, w.sector, w.volume, w.type, w.size, w.le, w.room, w.free⟩

-- The buffers after `vfs_init` and `fat32_fs_init`.
def Stack.init (blocks : Nat → VfsBlock) (isFile : Node → Bool) (totalMax : BitVec 32) (buf : Memory Byte)
    (l : Links BufNode) (disk : Sidx → Sector fs) : Stack fs where
  blocks := .init blocks isFile totalMax
  bio    := .init buf l disk

theorem Stack.init_inv {blocks : Nat → VfsBlock} {isFile : Node → Bool} {buf : Memory Byte} {l : Links BufNode}
    {disk : Sidx → Sector fs} (hf : ∀ node ∈ files, isFile node) :
    (Stack.init blocks isFile totalMax buf l disk).Inv y (fun sidx => disk (sidx + fs.dsidx)) files extent
      totalMax where
  bio      := Bio.init_coherent buf l disk
  blocks   := ⟨[], .init _ blocks isFile totalMax, by simp⟩
  totalMax := rfl
  bbf      := fun node hn => by simp [Stack.init, Blocks.init, hf node hn]

end Runs

end Zgmos.Fs
