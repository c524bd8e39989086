import Zgmos.Lib.Except
import Zgmos.Virtio.Descriptors

-- Callers of `virtio_blk_submit` and `virtio_blk_wait` at the same time. None of the functions takes a lock, so that each
-- access to the queue or to a register of the device is a step of its own.

namespace Zgmos.Virtio

-- A store to a word of a descriptor.
structure Store where
  desc : Nat
  set  : VirtqueueDesc → VirtqueueDesc

def VirtioQueue.store (vq : VirtioQueue) (st : Store) : VirtioQueue :=
  vq.setDesc st.desc <| st.set <| vq.desc st.desc

-- The stores of `virtio_blk_submit`. Those to the request itself are not seen by anyone else.
def VirtioBlkReq.stores (req : VirtioBlkReq) : List Store := [
  ⟨req.d1, ({ · with flags := descFNext })⟩,
  ⟨req.d1, ({ · with addr := req.addr })⟩,
  ⟨req.d1, ({ · with len := 16 })⟩,
  ⟨req.d1, ({ · with next := .ofNat 16 req.d2 })⟩,
  ⟨req.d2, ({ · with addr := req.buf })⟩,
  ⟨req.d2, ({ · with len := 512 })⟩,
  ⟨req.d2, ({ · with flags := descFNext ||| datamode req.type })⟩,
  ⟨req.d2, ({ · with next := .ofNat 16 req.d3 })⟩,
  ⟨req.d3, ({ · with addr := req.addr + 16 })⟩,
  ⟨req.d3, ({ · with len := 1 })⟩,
  ⟨req.d3, ({ · with flags := descFWrite })⟩
]

-- What a caller does next with a request whose descriptors are written.
inductive Stage
  -- In `virtio_blk_send`, before `idx` is read, before the element of the ring is written, and the same for `idx++`.
  | avail
  | ring (idx : BitVec 16)
  | idx
  | publish (idx : BitVec 16)
  | notify
  -- In `virtio_blk_wait`.
  | polling
  | usedIdx
  | usedEvent (idx : BitVec 16)
  | interruptStatus
  | interruptAck (bits : BitVec 32)
  deriving DecidableEq

inductive Pc
  -- In `virtio_alloc_desc`, with the descriptors that the caller already has: before the comparison, before `free_idx` is
  -- read, before the link is read, and before `free_idx` is written.
  | check (ds : List Nat)
  | load (ds : List Nat)
  | link (ds : List Nat) (d : Nat)
  | unlink (ds : List Nat) (d next : Nat)
  | fill (req : VirtioBlkReq) (stores : List Store)
  | submitted (req : VirtioBlkReq) (stage : Stage)
  -- In `virtio_free_desc`, with the descriptors that are left: before `free_idx` is read, before the link is written, and
  -- before `free_idx` is written.
  | free (req : VirtioBlkReq) (ds : List Nat)
  | linkBack (req : VirtioBlkReq) (d : Nat) (ds : List Nat) (next : Nat)
  | setFree (req : VirtioBlkReq) (d : Nat) (ds : List Nat)
  | returned (req : VirtioBlkReq) (ok : Bool)
  | panic (ds : List Nat)

-- A call with the status which the device wrote when it completed the request.
structure Flight where
  addr   : BitVec 64
  buf    : BitVec 64
  type   : BitVec 32
  pc     : Pc
  status : Option (BitVec 8)

-- The request is in the ring, so that the device may process it.
def Stage.isSent : Stage → Bool
  | avail | ring _ | idx | publish _                                            => false
  | notify | polling | usedIdx | usedEvent _ | interruptStatus | interruptAck _ => true

namespace Flight

-- What follows `virtio_alloc_desc`.
def allocated (f : Flight) : List Nat → Pc
  | [d1, d2, d3] =>
    let req : VirtioBlkReq := { addr := f.addr, buf := f.buf, type := f.type, d1, d2, d3 }
    .fill req req.stores
  | ds           => .check ds

def goto (f : Flight) (pc : Pc) : Flight :=
  { f with pc }

-- The next access of a request whose descriptors are written.
def stageStep (blk : VirtioBlk) (f : Flight) (req : VirtioBlkReq) : Stage → VirtioBlk × Flight
  | .avail           => (blk, f.goto <| .submitted req <| .ring blk.vq.availIdx)
  | .ring i          =>
    let availRing := Function.update blk.vq.availRing (i.toNat % blk.vq.len) <| .ofNat 16 req.d1
    ({ blk with vq := { blk.vq with availRing } }, f.goto <| .submitted req .idx)
  | .idx             => (blk, f.goto <| .submitted req <| .publish blk.vq.availIdx)
  | .publish i       => ({ blk with vq := { blk.vq with availIdx := i + 1 } }, f.goto <| .submitted req .notify)
  | .notify          => (blk, f.goto <| .submitted req .polling)
  -- The loop goes on as long as the register is zero.
  | .polling         => (blk, if blk.interruptStatus = 0 then f else f.goto <| .submitted req .usedIdx)
  | .usedIdx         => (blk, f.goto <| .submitted req <| .usedEvent blk.vq.usedIdx)
  | .usedEvent i     => ({ blk with vq := { blk.vq with usedEvent := i } }, f.goto <| .submitted req .interruptStatus)
  | .interruptStatus => (blk, f.goto <| .submitted req <| .interruptAck blk.interruptStatus)
  -- The acknowledgment clears the bits that are written to it.
  | .interruptAck b  => ({ blk with interruptStatus := blk.interruptStatus &&& ~~~b }, f.goto <| .free req req.descs)

-- The next access of a caller. If the device has not written the status, it is undefined.
def step (blk : VirtioBlk) (f : Flight) (undefined : BitVec 8) : VirtioBlk × Flight :=
  match f.pc with
  | .check ds               => (blk, f.goto <| if blk.vq.freeIdx = blk.vq.len then .panic ds else .load ds)
  | .load ds                => (blk, f.goto <| .link ds blk.vq.freeIdx)
  | .link ds d              => (blk, f.goto <| .unlink ds d (blk.vq.desc d).next.toNat)
  | .unlink ds d next       => ({ blk with vq := { blk.vq with freeIdx := next } }, f.goto <| f.allocated <| ds ++ [d])
  | .fill req []            => (blk, f.goto <| .submitted req .avail)
  | .fill req (st :: sts)   => ({ blk with vq := blk.vq.store st }, f.goto <| .fill req sts)
  | .submitted req stage    => f.stageStep blk req stage
  | .free req (d :: ds)     => (blk, f.goto <| .linkBack req d ds blk.vq.freeIdx)
  | .linkBack req d ds next =>
    ({ blk with vq := blk.vq.store ⟨d, ({ · with next := .ofNat 16 next })⟩ }, f.goto <| .setFree req d ds)
  | .setFree req d ds       => ({ blk with vq := { blk.vq with freeIdx := d } }, f.goto <| .free req ds)
  | .free req []            => (blk, f.goto <| .returned req <| f.status.getD undefined = blkSOk)
  | .returned _ _           => (blk, f)
  | .panic _                => (blk, f)

-- The descriptors which the caller has got and has not given back.
def held (f : Flight) : List Nat :=
  match f.pc with
  | .check ds | .load ds | .link ds _ | .unlink ds _ _ => ds
  | .fill req _ | .submitted req _                     => req.descs
  | .free _ ds                                         => ds
  | .linkBack _ d ds _ | .setFree _ d ds               => d :: ds
  | .returned _ _                                      => []
  | .panic ds                                          => ds

-- The request which the device may have seen.
def sent? (f : Flight) : Option VirtioBlkReq :=
  match f.pc with
  | .submitted req stage                                                   => if stage.isSent then some req else none
  | .free req _ | .linkBack req _ _ _ | .setFree req _ _ | .returned req _ => some req
  | _                                                                      => none

-- The caller waits for the interrupt, or is about to.
def isWaiting (f : Flight) : Bool :=
  match f.pc with
  | .submitted _ .notify | .submitted _ .polling => true
  | _                                            => false

-- The caller has read `free_idx`, and has not written it.
def isCritical (f : Flight) : Bool :=
  match f.pc with
  | .load _ | .link _ _ | .unlink _ _ _ | .linkBack _ _ _ _ | .setFree _ _ _ => true
  | _                                                                        => false

-- The next access is the first one of `virtio_alloc_desc` or `virtio_free_desc`.
def isEntering (f : Flight) : Bool :=
  match f.pc with
  | .check _ | .free _ (_ :: _) => true
  | _                           => false

-- The caller is in `virtio_blk_send` and has not written `idx`.
def isSending (f : Flight) : Bool :=
  match f.pc with
  | .submitted _ (.ring _) | .submitted _ .idx | .submitted _ (.publish _) => true
  | _                                                                      => false

-- The next access is the first one of `virtio_blk_send`.
def isPublishing (f : Flight) : Bool :=
  match f.pc with
  | .submitted _ .avail => true
  | _                   => false

-- The next access overwrites the link of a descriptor that is given back.
def isLinking (f : Flight) : Bool :=
  match f.pc with
  | .linkBack _ _ _ _ => true
  | _                 => false

-- The next access clears the interrupt.
def clears (f : Flight) (interruptStatus : BitVec 32) : Bool :=
  match f.pc with
  | .submitted _ (.interruptAck bits) => interruptStatus &&& ~~~bits = 0
  | _                                 => false

end Flight

-- The flights are numbered in the order of their calls.
inductive Action
  | call     (addr buf : BitVec 64) (type : BitVec 32)
  | move     (k : Nat) (undefined : BitVec 8)
  | complete (k : Nat) (status : BitVec 8)

structure System where
  blk     : VirtioBlk
  flights : List Flight

namespace System

def init (queueSize : BitVec 32) : System where
  blk     := { vq := virtioQueueAlloc queueSize, interruptStatus := 0 }
  flights := []

inductive Step : System → Action → System → Prop
  -- Each caller has a request of its own.
  | call {s addr buf type} : (∀ f ∈ s.flights, f.addr = addr → ∃ req ok, f.pc = .returned req ok) →
    Step s (.call addr buf type) { s with flights := s.flights ++ [{ addr, buf, type, pc := .check [], status := none }] }
  | move {s fs f fs' undefined} : s.flights = fs ++ f :: fs' → Step s (.move fs.length undefined)
    { blk := (f.step s.blk undefined).1, flights := fs ++ (f.step s.blk undefined).2 :: fs' }
  -- The device completes any request that is in the ring.
  | complete {s fs f fs' status} : s.flights = fs ++ f :: fs' → f.sent?.isSome → f.status = none →
    Step s (.complete fs.length status) {
      blk := {
        vq              := { s.blk.vq with usedIdx := s.blk.vq.usedIdx + 1 }
        interruptStatus := s.blk.interruptStatus ||| 1 }
      flights := fs ++ { f with status := some status } :: fs' }

end System

section Alone

variable {blk blk' : VirtioBlk} {vq vq' : VirtioQueue} {f : Flight} {req : VirtioBlkReq} {ds : List Nat} {d n m : Nat}
  {undefined : BitVec 8} {p p' p'' : VirtioBlk × Flight}

-- A caller that is not interrupted.
def Flight.alone (undefined : BitVec 8) (p : VirtioBlk × Flight) : Nat → VirtioBlk × Flight
  | 0     => p
  | n + 1 => alone undefined (p.2.step p.1 undefined) n

theorem Flight.alone_add : alone undefined p (n + m) = alone undefined (alone undefined p n) m := by
  induction n generalizing p
  case zero => rw [Nat.zero_add]; rfl
  case succ n hi => rw [Nat.add_right_comm]; exact hi

theorem VirtioQueue.store_stores (vq : VirtioQueue) (req : VirtioBlkReq) :
    req.stores.foldl store vq = vq.setDescs req := by
  simp [VirtioBlkReq.stores, store, setDescs, setDesc, VirtioBlkReq.desc1, VirtioBlkReq.desc2, VirtioBlkReq.desc3]

namespace Flight

theorem alloc_alone (hp : f.pc = .check ds) (h : blk.vq.virtioAllocDesc = .ok (d, vq')) :
    alone undefined (blk, f) 4 = ({ blk with vq := vq' }, f.goto <| f.allocated <| ds ++ [d]) := by
  unfold VirtioQueue.virtioAllocDesc at h
  split_ifs at h with hn
  cases h
  simp [alone, step, hp, hn, goto, allocated]

theorem fill_alone {stores : List Store} (hp : f.pc = .fill req stores) :
    alone undefined (blk, f) (stores.length + 1) =
      ({ blk with vq := stores.foldl VirtioQueue.store blk.vq }, f.goto <| .submitted req .avail) := by
  induction stores generalizing blk f
  case nil => simp [alone, step, hp]
  case cons st stores hi =>
    rw [List.length_cons, alone]
    have hs : f.step blk undefined = ({ blk with vq := blk.vq.store st }, f.goto <| .fill req stores) := by
      simp [step, hp]
    rw [hs]
    exact hi rfl

theorem send_alone (hp : f.pc = .submitted req .avail) : alone undefined (blk, f) 5 =
    ({ blk with vq := blk.vq.virtioBlkSend req.d1 }, f.goto <| .submitted req .polling) := by
  have hring : f.step blk undefined = (blk, f.goto <| .submitted req <| .ring blk.vq.availIdx) := by
    simp only [step, hp, stageStep]
  rw [alone, hring]
  rfl

-- The call does what the function does.
theorem submit_alone (hp : f.pc = .check []) (h : virtioBlkSubmit blk.vq f.addr f.buf f.type = .ok (req, vq')) :
    ∃ n, alone undefined (blk, f) n = ({ blk with vq := vq' }, f.goto <| .submitted req .polling) := by
  obtain ⟨⟨d₁, vq₁⟩, h₁, h⟩ := Except.bind_eq_ok.mp h
  obtain ⟨⟨d₂, vq₂⟩, h₂, h⟩ := Except.bind_eq_ok.mp h
  obtain ⟨⟨d₃, vq₃⟩, h₃, h⟩ := Except.bind_eq_ok.mp h
  cases h
  generalize hr : VirtioBlkReq.mk f.addr f.buf f.type d₁ d₂ d₃ = req
  have ha : f.allocated [d₁, d₂, d₃] = .fill req req.stores := hr ▸ rfl
  have e₁ : alone undefined (blk, f) 4 = ({ blk with vq := vq₁ }, f.goto <| .check [d₁]) := alloc_alone hp h₁
  have e₂ : alone undefined ({ blk with vq := vq₁ }, f.goto <| .check [d₁]) 4 =
      ({ blk with vq := vq₂ }, f.goto <| .check [d₁, d₂]) := @alloc_alone _ _ _ [d₁] d₂ _ rfl h₂
  have e₃ : alone undefined ({ blk with vq := vq₂ }, f.goto <| .check [d₁, d₂]) 4 =
      ({ blk with vq := vq₃ }, f.goto <| f.allocated [d₁, d₂, d₃]) := @alloc_alone _ _ _ [d₁, d₂] d₃ _ rfl h₃
  have e₄ : alone undefined ({ blk with vq := vq₃ }, f.goto <| .fill req req.stores) (req.stores.length + 1) =
      ({ blk with vq := vq₃.setDescs req }, f.goto <| .submitted req .avail) :=
    (fill_alone rfl).trans <| by rw [VirtioQueue.store_stores]; rfl
  have e₅ : alone undefined ({ blk with vq := vq₃.setDescs req }, f.goto <| .submitted req .avail) 5 =
      ({ blk with vq := (vq₃.setDescs req).virtioBlkSend req.d1 }, f.goto <| .submitted req .polling) := send_alone rfl
  refine ⟨4 + (4 + (4 + (req.stores.length + 1 + 5))), ?_⟩
  rw [alone_add, e₁, alone_add, e₂, alone_add, e₃, ha, alone_add, e₄, e₅, ← hr]

theorem free_alone (hp : f.pc = .free req (d :: ds)) : alone undefined (blk, f) 3 =
    ({ blk with vq := blk.vq.virtioFreeDesc d }, f.goto <| .free req ds) := by
  have hload : f.step blk undefined = (blk, f.goto <| .linkBack req d ds blk.vq.freeIdx) := by simp only [step, hp]
  rw [alone, hload]
  rfl

theorem wait_alone (hp : f.pc = .submitted req .polling) (hi : blk.interruptStatus ≠ 0) : ∃ n,
    alone undefined (blk, f) n = ((virtioBlkWait blk req <| f.status.getD undefined).2,
      f.goto <| .returned req (virtioBlkWait blk req <| f.status.getD undefined).1) := by
  have hpoll : f.step blk undefined = (blk, f.goto <| .submitted req .usedIdx) := by
    simp only [step, hp, stageStep, if_neg hi]
  let vq := { blk.vq with usedEvent := blk.vq.usedIdx }
  let bits := blk.interruptStatus &&& ~~~blk.interruptStatus
  have e₁ : alone undefined (blk, f) 5 = (⟨vq, bits⟩, f.goto <| .free req req.descs) := by
    rw [alone, hpoll]
    rfl
  have e₂ : alone undefined (⟨vq, bits⟩, f.goto <| .free req req.descs) 3 =
      (⟨vq.virtioFreeDesc req.d1, bits⟩, f.goto <| .free req [req.d2, req.d3]) := free_alone rfl
  have e₃ : alone undefined (⟨vq.virtioFreeDesc req.d1, bits⟩, f.goto <| .free req [req.d2, req.d3]) 3 =
      (⟨vq.virtioFreeDesc req.d1 |>.virtioFreeDesc req.d2, bits⟩, f.goto <| .free req [req.d3]) := free_alone rfl
  have e₄ : alone undefined (⟨vq.virtioFreeDesc req.d1 |>.virtioFreeDesc req.d2, bits⟩, f.goto <| .free req [req.d3]) 3 =
      (⟨vq.virtioFreeDesc req.d1 |>.virtioFreeDesc req.d2 |>.virtioFreeDesc req.d3, bits⟩, f.goto <| .free req []) :=
    free_alone rfl
  refine ⟨5 + (3 + (3 + (3 + 1))), ?_⟩
  rw [alone_add, e₁, alone_add, e₂, alone_add, e₃, alone_add, e₄]
  rfl

end Flight

end Alone

end Zgmos.Virtio
