import Zgmos.Kernel.Fault
import Zgmos.Kernel.List
import Zgmos.Lib.Memory

namespace Zgmos.Fat32

abbrev Byte := BitVec 8

-- The index of a sector, with the volume boot sector as 0 (`sidx`) or with the MBR as 0 (`dsidx`).
abbrev Sidx := BitVec 32

-- The index of a cluster.
abbrev Cidx := BitVec 32

-- The members of `struct fat32_fs` which are constant after `fat32_init`.
structure Fat32Fs where
  dsidx            : Sidx
  bytePerSector    : Nat
  secPerCluster    : Nat
  reservedSecCnt   : Nat
  rootCidx         : Cidx
  firstClusterSidx : Sidx
  bufNum           : Nat
  -- The buffers are one block of memory.
  fits             : bytePerSector * bufNum < 2 ^ 32

-- The number of words of a sector.
def Fat32Fs.chainPerSector (fs : Fat32Fs) : Nat :=
  fs.bytePerSector / 4

inductive BioFlag
  | invalid
  | clean
  | dirty
  deriving DecidableEq

-- `buf_seq` and the elements of `buf_lists`.
inductive BufNode
  | seq
  | list (bidx : Nat)
  deriving DecidableEq

abbrev Sector (fs : Fat32Fs) := Block fs.bytePerSector Byte

-- The other members of `struct fat32_fs`, with the memory from `buf` on and the disk.
structure Bio (fs : Fat32Fs) where
  buf      : Memory Byte
  bufFlags : Nat → BioFlag
  bufSidx  : Nat → Sidx
  bufLists : Links BufNode
  disk     : Sidx → Sector fs

namespace Bio

variable {fs : Fat32Fs}

-- The end of `fat32_init`.
def init (buf : Memory Byte) (bufLists : Links BufNode) (disk : Sidx → Sector fs) : Bio fs where
  buf      := buf
  bufFlags := fun _ => .invalid
  bufSidx  := fun _ => 0
  bufLists := (List.range fs.bufNum).foldl (fun l i => listInit l (.list i)) (listInit bufLists .seq)
  disk     := disk

@[simps]
def setFlag (b : Bio fs) (bidx : Nat) (flag : BioFlag) : Bio fs :=
  { b with bufFlags := Function.update b.bufFlags bidx flag }

@[simps]
def setSidx (b : Bio fs) (bidx : Nat) (sidx : Sidx) : Bio fs :=
  { b with bufSidx := Function.update b.bufSidx bidx sidx }

def bidx2addr (_ : Bio fs) (bidx : Nat) : Nat :=
  fs.bytePerSector * bidx % 2 ^ 32

@[simps]
def writeOp (b : Bio fs) (dsidx : Sidx) (addr : Nat) : Bio fs :=
  { b with disk := Function.update b.disk dsidx <| b.buf.load addr fs.bytePerSector }

@[simps]
def readOp (b : Bio fs) (dsidx : Sidx) (addr : Nat) : Bio fs :=
  { b with buf := b.buf.store addr <| b.disk dsidx }

-- `none` is `FAT32_BUF_INDEX_INVALID`.
def matchBuffered (b : Bio fs) (sidx : Sidx) : Option Nat :=
  (List.range fs.bufNum).find? fun i => sidx = b.bufSidx i ∧ b.bufFlags i ≠ .invalid

def matchUnbuffered (b : Bio fs) : Option Nat :=
  (List.range fs.bufNum).find? fun i => b.bufFlags i = .invalid

-- The distance of `buf_seq` and `buf_lists` is no index.
def getLowActivity (b : Bio fs) : Except Fault Nat :=
  match b.bufLists.next .seq with
  | .seq       => .error .wildPointer
  | .list bidx => .ok bidx

@[simps]
def setActivity (b : Bio fs) (bidx : Nat) : Bio fs :=
  { b with bufLists := listAddTail (listDel b.bufLists <| .list bidx) (.list bidx) .seq }

def writebackNoCheck (b : Bio fs) (bidx : Nat) : Bio fs :=
  b.writeOp (b.bufSidx bidx + fs.dsidx) (b.bidx2addr bidx) |>.setFlag bidx .clean

-- The check which precedes both calls of `fat32_bio_writeback_no_check`.
def writeback (b : Bio fs) (bidx : Nat) : Bio fs :=
  if b.bufFlags bidx = .dirty then b.writebackNoCheck bidx else b

def remove (b : Bio fs) (bidx : Nat) : Bio fs :=
  let b := b.writeback bidx
  let b := b.setFlag bidx .invalid
  { b with bufLists := listDel b.bufLists <| .list bidx }

-- The second half of `fat32_bio_fetch`.
def fill (b : Bio fs) (bidx : Nat) (sidx : Sidx) : Bio fs :=
  let b := b.readOp (sidx + fs.dsidx) (b.bidx2addr bidx)
  let b := b.setFlag bidx .clean
  let b := b.setSidx bidx sidx
  { b with bufLists := listAddTail b.bufLists (.list bidx) .seq }

def fetch (b : Bio fs) (sidx : Sidx) : Except Fault (Nat × Bio fs) :=
  match b.matchUnbuffered with
  | some bidx => return (bidx, b.fill bidx sidx)
  | none      => do
    let bidx ← b.getLowActivity
    return (bidx, b.remove bidx |>.fill bidx sidx)

def flush (b : Bio fs) : Bio fs :=
  (List.range fs.bufNum).foldl writeback b

-- The buffer of a sector, which is fetched if there is none yet.
def buffered (b : Bio fs) (sidx : Sidx) : Except Fault (Nat × Bio fs) :=
  match b.matchBuffered sidx with
  | some bidx => return (bidx, b)
  | none      => b.fetch sidx

def access (b : Bio fs) (sidx : Sidx) : Except Fault (Nat × Bio fs) := do
  let (bidx, b) ← b.buffered sidx
  return (bidx, b.setActivity bidx)

def read (b : Bio fs) (sidx : Sidx) : Except Fault (Nat × Bio fs) := do
  let (bidx, b) ← b.access sidx
  return (b.bidx2addr bidx, b)

def write (b : Bio fs) (sidx : Sidx) : Except Fault (Nat × Bio fs) := do
  let (bidx, b) ← b.access sidx
  return (b.bidx2addr bidx, b.setFlag bidx .dirty)

-- Returns the bytes that are copied to the caller's buffer.
def readCopy (b : Bio fs) (sidx : Sidx) (offset bufLen : Nat) : Except Fault (List Byte × Bio fs) := do
  let len := min (fs.bytePerSector - offset) bufLen
  let (bidx, b) ← b.buffered sidx
  return (.ofFn <| b.buf.load (b.bidx2addr bidx + offset) len, b.setActivity bidx)

-- Returns the number of bytes that are copied from the caller's buffer `buf`.
def writeCopy (b : Bio fs) (sidx : Sidx) (offset : Nat) (buf : List Byte) : Except Fault (Nat × Bio fs) := do
  let len := min (fs.bytePerSector - offset) buf.length
  let (bidx, b) ← b.buffered sidx
  let b := { b with buf := b.buf.store (b.bidx2addr bidx + offset) fun k : Fin len => buf.get ⟨k, by omega⟩ }
  return (len, b.setFlag bidx .dirty |>.setActivity bidx)

end Bio
end Zgmos.Fat32
