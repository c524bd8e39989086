import Zgmos.Kernel.Fault
import Zgmos.Lib.Run
import Zgmos.Lib.Segment

-- The descriptors of a virtqueue and the requests to a block device.

namespace Zgmos.Virtio

def queueMaxSize : Nat :=
  150

structure VirtqueueDesc where
  addr  : BitVec 64
  len   : BitVec 32
  flags : BitVec 16
  next  : BitVec 16

def descFNext : BitVec 16 :=
  1

def descFWrite : BitVec 16 :=
  2

def blkTIn : BitVec 32 :=
  0

def blkSOk : BitVec 8 :=
  0

-- `struct virtio_queue` with what is written to its page.
structure VirtioQueue where
  len       : Nat
  freeIdx   : Nat
  desc      : Nat → VirtqueueDesc
  availRing : Nat → BitVec 16
  availIdx  : BitVec 16
  usedIdx   : BitVec 16
  usedEvent : BitVec 16

-- `struct virtio_blk` with the register `interrupt_status`.
structure VirtioBlk where
  vq              : VirtioQueue
  interruptStatus : BitVec 32

-- `struct virtio_blk_req` with its address and the address of the data.
structure VirtioBlkReq where
  addr : BitVec 64
  buf  : BitVec 64
  type : BitVec 32
  d1   : Nat
  d2   : Nat
  d3   : Nat

def virtioQueueAlloc (queueSize : BitVec 32) : VirtioQueue :=
  let len := if queueMaxSize < queueSize.toNat then queueMaxSize else queueSize.toNat
  {
    len
    freeIdx   := 0
    desc      := fun i => { addr := 0, len := 0, flags := 0, next := if i < len then .ofNat 16 (i + 1) else 0 }
    availRing := fun _ => 0
    availIdx  := 0
    usedIdx   := 0
    usedEvent := 0
  }

namespace VirtioQueue

variable (vq : VirtioQueue)

def setDesc (d : Nat) (desc : VirtqueueDesc) : VirtioQueue :=
  { vq with desc := Function.update vq.desc d desc }

def virtioAllocDesc : Except Fault (Nat × VirtioQueue) :=
  if vq.freeIdx = vq.len then
    throw .panic
  else
    return (vq.freeIdx, { vq with freeIdx := (vq.desc vq.freeIdx).next.toNat })

def virtioFreeDesc (desc : Nat) : VirtioQueue :=
  { vq.setDesc desc { vq.desc desc with next := .ofNat 16 vq.freeIdx } with freeIdx := desc }

def virtioBlkSend (desc : Nat) : VirtioQueue :=
  { vq with
    availRing := Function.update vq.availRing (vq.availIdx.toNat % vq.len) (.ofNat 16 desc)
    availIdx  := vq.availIdx + 1 }

end VirtioQueue

def datamode (type : BitVec 32) : BitVec 16 :=
  if type = blkTIn then descFWrite else 0

namespace VirtioBlkReq

variable (req : VirtioBlkReq)

-- The three descriptors of a request. The last one keeps its `next`.

def desc1 : VirtqueueDesc where
  addr  := req.addr
  len   := 16
  flags := descFNext
  next  := .ofNat 16 req.d2

def desc2 : VirtqueueDesc where
  addr  := req.buf
  len   := 512
  flags := descFNext ||| datamode req.type
  next  := .ofNat 16 req.d3

def desc3 (next : BitVec 16) : VirtqueueDesc where
  addr  := req.addr + 16
  len   := 1
  flags := descFWrite
  next

def descs : List Nat :=
  [req.d1, req.d2, req.d3]

end VirtioBlkReq

-- The second half of `virtio_blk_submit`.
def VirtioQueue.setDescs (vq : VirtioQueue) (req : VirtioBlkReq) : VirtioQueue :=
  let vq := vq.setDesc req.d1 req.desc1
  let vq := vq.setDesc req.d2 req.desc2
  vq.setDesc req.d3 <| req.desc3 (vq.desc req.d3).next

def virtioBlkSubmit (vq : VirtioQueue) (addr buf : BitVec 64) (type : BitVec 32) :
    Except Fault (VirtioBlkReq × VirtioQueue) := do
  let (d1, vq) ← vq.virtioAllocDesc
  let (d2, vq) ← vq.virtioAllocDesc
  let (d3, vq) ← vq.virtioAllocDesc
  let req := { addr, buf, type, d1, d2, d3 }
  return (req, vq.setDescs req |>.virtioBlkSend d1)

-- What follows the loop of `virtio_blk_wait`. The acknowledgment clears the bits that are written to it.
def virtioBlkWait (blk : VirtioBlk) (req : VirtioBlkReq) (status : BitVec 8) : Bool × VirtioBlk :=
  let vq := { blk.vq with usedEvent := blk.vq.usedIdx }
  let interruptStatus := blk.interruptStatus &&& ~~~blk.interruptStatus
  let vq := vq.virtioFreeDesc req.d1 |>.virtioFreeDesc req.d2 |>.virtioFreeDesc req.d3
  (status = blkSOk, { vq, interruptStatus })

end Zgmos.Virtio
