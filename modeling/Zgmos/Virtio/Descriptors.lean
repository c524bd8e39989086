import Zgmos.Virtio.Queue

-- No descriptor is lost or used twice.

namespace Zgmos.Virtio

namespace VirtioQueue

-- The list of free descriptors. The length is its end.
def Free (vq : VirtioQueue) (is : List Nat) : Prop :=
  Segment (fun i => some (vq.desc i).next.toNat) (some vq.freeIdx) is (some vq.len)

end VirtioQueue

-- The descriptors of a request are as `virtio_blk_submit` made them.
structure VirtioBlkReq.Chained (req : VirtioBlkReq) (vq : VirtioQueue) : Prop where
  desc1 : vq.desc req.d1 = req.desc1
  desc2 : vq.desc req.d2 = req.desc2
  desc3 : ∃ next, vq.desc req.d3 = req.desc3 next

-- Each descriptor is either free or part of one outstanding request.
structure VirtioQueue.Conserves (vq : VirtioQueue) (reqs : List VirtioBlkReq) (is : List Nat) : Prop where
  len     : vq.len ≤ queueMaxSize
  free    : vq.Free is
  perm    : (is ++ reqs.flatMap VirtioBlkReq.descs).Perm (List.range vq.len)
  chained : ∀ req ∈ reqs, req.Chained vq

namespace VirtioQueue

variable {vq vq' : VirtioQueue} {is : List Nat} {d : Nat} {x : VirtqueueDesc}

theorem Free.setDesc (h : vq.Free is) (hd : d ∉ is) : (vq.setDesc d x).Free is := by
  refine Segment.congr h fun i hi => ?_
  have hn : i ≠ d := fun h => hd <| h ▸ hi
  simp only [VirtioQueue.setDesc, Function.update_of_ne hn]

theorem virtioAllocDesc_nil (h : vq.Free []) : vq.virtioAllocDesc = .error .panic :=
  if_pos <| Option.some.inj h

theorem virtioAllocDesc_cons (h : vq.Free (d :: is)) (hd : d < vq.len) :
    ∃ vq', vq.virtioAllocDesc = .ok (d, vq') ∧ vq'.Free is ∧ vq'.len = vq.len ∧ vq'.desc = vq.desc := by
  have ⟨hf, hs⟩ := h
  have hf : vq.freeIdx = d := Option.some.inj hf
  refine ⟨{ vq with freeIdx := (vq.desc d).next.toNat }, ?_, hs, rfl, rfl⟩
  rw [virtioAllocDesc, if_neg <| hf ▸ hd.ne, hf]
  rfl

theorem Free.freeIdx_le (h : vq.Free is) (hl : ∀ i ∈ is, i < vq.len) : vq.freeIdx ≤ vq.len := by
  cases is
  case nil  => exact (Option.some.inj h).le
  case cons => exact Option.some.inj h.1 ▸ (hl _ <| .head _).le

theorem Free.virtioFreeDesc (h : vq.Free is) (hl : ∀ i ∈ is, i < vq.len) (hm : vq.len ≤ queueMaxSize) (hd : d ∉ is) :
    (vq.virtioFreeDesc d).Free (d :: is) := by
  have hf := h.freeIdx_le hl
  have hn : (BitVec.ofNat 16 vq.freeIdx).toNat = vq.freeIdx := by
    rw [BitVec.toNat_ofNat]
    simp only [queueMaxSize] at hm
    omega
  have hs : ((vq.virtioFreeDesc d).desc d).next.toNat = vq.freeIdx := by
    simp only [VirtioQueue.virtioFreeDesc, VirtioQueue.setDesc, Function.update_self, hn]
  refine ⟨rfl, ?_⟩
  simp only [hs]
  exact h.setDesc hd

variable {req : VirtioBlkReq}

theorem setDescs_of_not_mem (hd : d ∉ req.descs) : (vq.setDescs req).desc d = vq.desc d := by
  have ⟨h₁, h₂, h₃⟩ : d ≠ req.d1 ∧ d ≠ req.d2 ∧ d ≠ req.d3 := by simpa [VirtioBlkReq.descs] using hd
  simp only [setDescs, setDesc, Function.update_of_ne h₁, Function.update_of_ne h₂, Function.update_of_ne h₃]

theorem virtioFreeDesc_of_ne {i : Nat} (hi : i ≠ d) : (vq.virtioFreeDesc d).desc i = vq.desc i :=
  Function.update_of_ne hi ..

theorem Free.setDescs (h : vq.Free is) (hd : ∀ d ∈ req.descs, d ∉ is) : (vq.setDescs req).Free is :=
  ((h.setDesc <| hd req.d1 <| by simp [VirtioBlkReq.descs]).setDesc <| hd req.d2 <| by simp [VirtioBlkReq.descs]).setDesc <|
    hd req.d3 <| by simp [VirtioBlkReq.descs]

end VirtioQueue

theorem VirtioBlkReq.setDescs_chained (vq : VirtioQueue) {req : VirtioBlkReq} (h : req.descs.Nodup) :
    req.Chained (vq.setDescs req) := by
  have ⟨⟨h₁, h₂⟩, h₃⟩ : (req.d1 ≠ req.d2 ∧ req.d1 ≠ req.d3) ∧ req.d2 ≠ req.d3 := by simpa [descs] using h
  constructor
  case desc1 =>
    simp only [VirtioQueue.setDescs, VirtioQueue.setDesc, Function.update_of_ne h₁, Function.update_of_ne h₂,
      Function.update_self]
  case desc2 =>
    simp only [VirtioQueue.setDescs, VirtioQueue.setDesc, Function.update_of_ne h₃, Function.update_self]
  case desc3 => exact ⟨_, Function.update_self ..⟩

theorem VirtioBlkReq.Chained.congr {vq vq' : VirtioQueue} {req : VirtioBlkReq} (h : req.Chained vq)
    (he : ∀ d ∈ req.descs, vq'.desc d = vq.desc d) : req.Chained vq' where
  desc1 := (he _ <| by simp [descs]).trans h.desc1
  desc2 := (he _ <| by simp [descs]).trans h.desc2
  desc3 := have ⟨next, hn⟩ := h.desc3; ⟨next, (he _ <| by simp [descs]).trans hn⟩

namespace VirtioQueue.Conserves

variable {vq vq' : VirtioQueue} {is : List Nat} {reqs reqs₁ reqs₂ : List VirtioBlkReq} {req : VirtioBlkReq}
  {d d₁ d₂ d₃ i : Nat}

theorem nodup (w : vq.Conserves reqs is) : (is ++ reqs.flatMap VirtioBlkReq.descs).Nodup :=
  w.perm.nodup_iff.mpr List.nodup_range

theorem mem_iff (w : vq.Conserves reqs is) : i ∈ is ++ reqs.flatMap VirtioBlkReq.descs ↔ i < vq.len :=
  w.perm.mem_iff.trans List.mem_range

theorem lt (w : vq.Conserves reqs is) (hi : i ∈ is) : i < vq.len :=
  w.mem_iff.mp <| List.mem_append_left _ hi

theorem desc_lt (w : vq.Conserves reqs is) (hr : req ∈ reqs) (hd : d ∈ req.descs) : d < vq.len :=
  w.mem_iff.mp <| List.mem_append_right _ <| List.mem_flatMap.mpr ⟨req, hr, hd⟩

theorem desc_not_mem (w : vq.Conserves reqs is) (hr : req ∈ reqs) (hd : d ∈ req.descs) : d ∉ is :=
  fun hi => (List.nodup_append.mp w.nodup).2.2 d hi d (List.mem_flatMap.mpr ⟨req, hr, hd⟩) rfl

-- Each request has three of the descriptors.
theorem length (w : vq.Conserves reqs is) : is.length + 3 * reqs.length = vq.len := by
  have h := w.perm.length_eq
  rw [List.length_append, List.length_range, List.length_flatMap] at h
  have hs : (reqs.map fun req => req.descs.length).sum = 3 * reqs.length := by
    simp [VirtioBlkReq.descs, Nat.mul_comm]
  omega

-- The descriptors of different requests are different.
theorem disjoint (w : vq.Conserves (reqs₁ ++ req :: reqs₂) is) {req' : VirtioBlkReq} (hr : req' ∈ reqs₁ ++ reqs₂) :
    req'.descs.Disjoint req.descs := by
  have hn := (List.nodup_append.mp w.nodup).2.1
  rw [List.flatMap_append, List.flatMap_cons] at hn
  have ⟨_, h₂, h₃⟩ := List.nodup_append.mp hn
  have ⟨_, _, h₄⟩ := List.nodup_append.mp h₂
  intro d hd hd'
  cases List.mem_append.mp hr
  case inl hr => exact h₃ d (List.mem_flatMap.mpr ⟨req', hr, hd⟩) d (List.mem_append_left _ hd') rfl
  case inr hr => exact h₄ d hd' d (List.mem_flatMap.mpr ⟨req', hr, hd⟩) rfl

theorem descs_nodup (w : vq.Conserves reqs is) (hr : req ∈ reqs) : req.descs.Nodup :=
  (List.nodup_flatMap.mp (List.nodup_append.mp w.nodup).2.1).1 req hr

theorem init (n : BitVec 32) : (virtioQueueAlloc n).Conserves [] (List.range (virtioQueueAlloc n).len) where
  len := by
    simp only [virtioQueueAlloc]
    split <;> omega
  free := by
    have hn : ∀ i < (virtioQueueAlloc n).len, ((virtioQueueAlloc n).desc i).next.toNat = i + 1 := by
      intro i hi
      have hl : (virtioQueueAlloc n).len ≤ queueMaxSize := by
        simp only [virtioQueueAlloc]
        split <;> omega
      have hs : ((virtioQueueAlloc n).desc i).next = .ofNat 16 (i + 1) := if_pos hi
      rw [hs, BitVec.toNat_ofNat]
      simp only [queueMaxSize] at hl
      omega
    -- The list from descriptor `k` on has `m` elements.
    have hf (m k : Nat) (h : k + m = (virtioQueueAlloc n).len) :
        Segment (fun i => some ((virtioQueueAlloc n).desc i).next.toNat) (some k) (List.range' k m)
          (some (virtioQueueAlloc n).len) := by
      induction m generalizing k
      case zero => exact congrArg some h
      case succ m hi =>
        rw [List.range'_succ]
        refine ⟨rfl, ?_⟩
        simp only [hn k <| by omega]
        exact hi (k + 1) <| by omega
    rw [List.range_eq_range']
    exact hf _ 0 <| Nat.zero_add _
  perm    := by simp
  chained := nofun

-- The descriptors which are taken from the list become those of a new request.
theorem setDescs (hm : vq.len ≤ queueMaxSize) (hf : vq.Free is) (hc : ∀ r ∈ reqs, r.Chained vq)
    (hp : (is ++ (reqs ++ [req]).flatMap VirtioBlkReq.descs).Perm (List.range vq.len)) :
    ((vq.setDescs req).virtioBlkSend d).Conserves (reqs ++ [req]) is := by
  have hn := hp.nodup_iff.mpr List.nodup_range
  rw [List.flatMap_append, List.flatMap_singleton] at hn
  have ⟨_, h₂, h₃⟩ := List.nodup_append.mp hn
  have ⟨_, h₄, h₅⟩ := List.nodup_append.mp h₂
  have hfs : (vq.setDescs req).Free is :=
    hf.setDescs fun d hd hi => h₃ d hi d (List.mem_append_right _ hd) rfl
  refine ⟨hm, hfs, hp, fun r hr => ?_⟩
  cases List.mem_append.mp hr
  case inl hr =>
    exact (hc r hr).congr fun d hd => setDescs_of_not_mem fun hd' =>
      h₅ d (List.mem_flatMap.mpr ⟨r, hr, hd⟩) d hd' rfl
  case inr hr =>
    rw [List.mem_singleton.mp hr]
    exact (VirtioBlkReq.setDescs_chained vq h₄).congr fun _ _ => rfl

theorem submit (w : vq.Conserves reqs (d₁ :: d₂ :: d₃ :: is)) (addr buf : BitVec 64) (type : BitVec 32) :
    ∃ vq', virtioBlkSubmit vq addr buf type = .ok ({ addr, buf, type, d1 := d₁, d2 := d₂, d3 := d₃ }, vq') ∧
      vq'.len = vq.len ∧ vq'.Conserves (reqs ++ [{ addr, buf, type, d1 := d₁, d2 := d₂, d3 := d₃ }]) is := by
  have ⟨vq₁, h₁, f₁, l₁, e₁⟩ := virtioAllocDesc_cons w.free <| w.lt <| by simp
  have ⟨vq₂, h₂, f₂, l₂, e₂⟩ := virtioAllocDesc_cons f₁ <| l₁ ▸ (w.lt <| by simp)
  have ⟨vq₃, h₃, f₃, l₃, e₃⟩ := virtioAllocDesc_cons f₂ <| l₂ ▸ l₁ ▸ (w.lt <| by simp)
  have hl : vq₃.len = vq.len := l₃.trans <| l₂.trans l₁
  have he : vq₃.desc = vq.desc := e₃.trans <| e₂.trans e₁
  refine ⟨(vq₃.setDescs { addr, buf, type, d1 := d₁, d2 := d₂, d3 := d₃ }).virtioBlkSend d₁, ?_, hl, ?_⟩
  case refine_1 =>
    rw [virtioBlkSubmit, h₁]
    simp only [bind, Except.bind, h₂, h₃]
    rfl
  case refine_2 =>
    refine setDescs (hl ▸ w.len) f₃ (fun r hr => (w.chained r hr).congr fun d _ => congrFun he d) ?_
    rw [hl, List.flatMap_append, List.flatMap_singleton, ← List.append_assoc]
    exact List.perm_append_comm.trans w.perm

-- A submission which does not panic takes three descriptors.
theorem exists_of_submit (w : vq.Conserves reqs is) {addr buf : BitVec 64} {type : BitVec 32}
    (h : virtioBlkSubmit vq addr buf type = .ok (req, vq')) : ∃ is', is = req.descs ++ is' ∧
      req.addr = addr ∧ vq'.len = vq.len ∧ vq'.Conserves (reqs ++ [req]) is' := by
  match is with
  | [] =>
    rw [virtioBlkSubmit, virtioAllocDesc_nil w.free] at h
    cases h
  | [d₁] =>
    have ⟨vq₁, h₁, f₁, _⟩ := virtioAllocDesc_cons w.free <| w.lt <| by simp
    rw [virtioBlkSubmit, h₁] at h
    simp only [bind, Except.bind, virtioAllocDesc_nil f₁] at h
    cases h
  | [d₁, d₂] =>
    have ⟨vq₁, h₁, f₁, l₁, _⟩ := virtioAllocDesc_cons w.free <| w.lt <| by simp
    have ⟨vq₂, h₂, f₂, _⟩ := virtioAllocDesc_cons f₁ <| l₁ ▸ (w.lt <| by simp)
    rw [virtioBlkSubmit, h₁] at h
    simp only [bind, Except.bind, h₂, virtioAllocDesc_nil f₂] at h
    cases h
  | d₁ :: d₂ :: d₃ :: is' =>
    have ⟨vq₁, h₁, l₁, w₁⟩ := w.submit addr buf type
    rw [h₁] at h
    cases h
    exact ⟨is', rfl, rfl, l₁, w₁⟩

theorem wait (w : vq.Conserves (reqs₁ ++ req :: reqs₂) is) {blk : VirtioBlk} (hb : blk.vq = vq) (status : BitVec 8) :
    (virtioBlkWait blk req status).2.vq.Conserves (reqs₁ ++ reqs₂) (req.d3 :: req.d2 :: req.d1 :: is) := by
  have hr : req ∈ reqs₁ ++ req :: reqs₂ := by simp
  have hd {d : Nat} (hd : d ∈ req.descs) : d < vq.len ∧ d ∉ is := ⟨w.desc_lt hr hd, w.desc_not_mem hr hd⟩
  have ⟨hl₁, hi₁⟩ := @hd req.d1 <| by simp [VirtioBlkReq.descs]
  have ⟨hl₂, hi₂⟩ := @hd req.d2 <| by simp [VirtioBlkReq.descs]
  have ⟨hl₃, hi₃⟩ := @hd req.d3 <| by simp [VirtioBlkReq.descs]
  have ⟨⟨h₁₂, h₁₃⟩, h₂₃⟩ : (req.d1 ≠ req.d2 ∧ req.d1 ≠ req.d3) ∧ req.d2 ≠ req.d3 := by
    simpa [VirtioBlkReq.descs] using w.descs_nodup hr
  subst hb
  have f₀ : VirtioQueue.Free { blk.vq with usedEvent := blk.vq.usedIdx } is := w.free
  have l₀ : ∀ i ∈ is, i < blk.vq.len := fun i => w.lt
  have f₁ := f₀.virtioFreeDesc l₀ w.len hi₁
  have l₁ : ∀ i ∈ req.d1 :: is, i < blk.vq.len := List.forall_mem_cons.mpr ⟨hl₁, l₀⟩
  have f₂ := @Free.virtioFreeDesc _ _ req.d2 f₁ l₁ w.len <| by simp [h₁₂.symm, hi₂]
  have l₂ : ∀ i ∈ req.d2 :: req.d1 :: is, i < blk.vq.len := List.forall_mem_cons.mpr ⟨hl₂, l₁⟩
  have f₃ := @Free.virtioFreeDesc _ _ req.d3 f₂ l₂ w.len <| by simp [h₁₃.symm, h₂₃.symm, hi₃]
  refine ⟨w.len, f₃, ?_, fun r hr => ?_⟩
  case refine_1 =>
    have hp := w.perm
    rw [List.flatMap_append, List.flatMap_cons] at hp
    rw [List.flatMap_append]
    have hd : [req.d3, req.d2, req.d1].Perm req.descs := List.reverse_perm req.descs
    exact (hd.append_right _).trans <| List.perm_append_comm_assoc .. |>.trans <|
      (List.perm_append_comm_assoc ..).append_left _ |>.trans hp
  case refine_2 =>
    have hc := w.chained r <| by
      cases List.mem_append.mp hr
      case inl h => exact List.mem_append_left _ h
      case inr h => exact List.mem_append_right _ <| .tail _ h
    refine hc.congr fun d hd => ?_
    have hn := w.disjoint hr hd
    have ⟨h₁, h₂, h₃⟩ : d ≠ req.d1 ∧ d ≠ req.d2 ∧ d ≠ req.d3 := by simpa [VirtioBlkReq.descs] using hn
    exact (virtioFreeDesc_of_ne h₃).trans <| (virtioFreeDesc_of_ne h₂).trans <| virtioFreeDesc_of_ne h₁

end VirtioQueue.Conserves

-- The device may change its register and its index at any time.
inductive Event
  | submit (addr buf : BitVec 64) (type : BitVec 32)
  | device (interruptStatus : BitVec 32) (usedIdx : BitVec 16)
  | wait   (req : VirtioBlkReq) (status : BitVec 8)

structure State where
  blk  : VirtioBlk
  -- The requests which are submitted and for which nobody has waited yet.
  reqs : List VirtioBlkReq

namespace State

-- The end of `virtio_blk_init`.
def init (queueSize : BitVec 32) : State where
  blk  := { vq := virtioQueueAlloc queueSize, interruptStatus := 0 }
  reqs := []

end State

inductive Step : State → Event → State → Prop
  | submit {s addr buf type req vq} : (∀ r ∈ s.reqs, r.addr ≠ addr) →
    virtioBlkSubmit s.blk.vq addr buf type = .ok (req, vq) →
    Step s (.submit addr buf type) { blk := { s.blk with vq }, reqs := s.reqs ++ [req] }
  | device {s interruptStatus usedIdx} : Step s (.device interruptStatus usedIdx)
    { s with blk := { vq := { s.blk.vq with usedIdx }, interruptStatus } }
  | wait {s req reqs₁ reqs₂ status} : s.blk.interruptStatus ≠ 0 → s.reqs = reqs₁ ++ req :: reqs₂ →
    Step s (.wait req status) { blk := (virtioBlkWait s.blk req status).2, reqs := reqs₁ ++ reqs₂ }

namespace State

-- The free descriptors are exactly those of no outstanding request, and the descriptors of each of
-- these form the chain of the request.
structure Conserved (s : State) : Prop where
  free     : ∃ is : List Nat, s.blk.vq.Free is ∧ is.Nodup ∧
    ∀ i, i ∈ is ↔ i < s.blk.vq.len ∧ ∀ req ∈ s.reqs, i ∉ req.descs
  disjoint : s.reqs.Pairwise fun req req' => req.descs.Disjoint req'.descs
  chained  : ∀ req ∈ s.reqs, req.Chained s.blk.vq ∧ req.descs.Nodup ∧ ∀ d ∈ req.descs, d < s.blk.vq.len
  -- The next submission does not panic.
  submits  : s.reqs.length + 1 ≤ s.blk.vq.len / 3 → ∀ addr buf type,
    ∃ req vq, virtioBlkSubmit s.blk.vq addr buf type = .ok (req, vq)

variable {s s' : State} {e : Event} {n : BitVec 32}

theorem step (h : Step s e s') (w : ∃ is, s.blk.vq.Conserves s.reqs is) : ∃ is, s'.blk.vq.Conserves s'.reqs is := by
  have ⟨is, w⟩ := w
  cases h
  case submit h    => have ⟨is', _, _, _, w'⟩ := w.exists_of_submit h; exact ⟨is', w'⟩
  case device      => exact ⟨is, w.len, w.free, w.perm, fun req hr => (w.chained req hr).congr fun _ _ => rfl⟩
  case wait status _ he => exact ⟨_, VirtioQueue.Conserves.wait (he ▸ w) rfl status⟩

theorem conserved_of_conserves (w : ∃ is, s.blk.vq.Conserves s.reqs is) : s.Conserved := by
  have ⟨is, w⟩ := w
  have hn := List.nodup_append.mp w.nodup
  constructor
  case free =>
    refine ⟨is, w.free, hn.1, fun i => ⟨fun hi => ⟨w.lt hi, fun req hr hd => w.desc_not_mem hr hd hi⟩, fun h => ?_⟩⟩
    cases List.mem_append.mp <| w.mem_iff.mpr h.1
    case inl hi => exact hi
    case inr hi =>
      have ⟨req, hr, hd⟩ := List.mem_flatMap.mp hi
      exact absurd hd <| h.2 req hr
  case disjoint => exact (List.nodup_flatMap.mp hn.2.1).2
  case chained  => exact fun req hr => ⟨w.chained req hr, w.descs_nodup hr, fun d => w.desc_lt hr⟩
  case submits  =>
    intro hl addr buf type
    have := w.length
    match is with
    | d₁ :: d₂ :: d₃ :: is => have ⟨vq, h, _⟩ := w.submit addr buf type; exact ⟨_, vq, h⟩
    | [] | [_] | [_, _]    => simp only [List.length_cons, List.length_nil] at this; omega

end State

-- Whatever the order of submissions and waits, no descriptor is lost or used twice.
theorem descriptors_conserved {n : BitVec 32} {es : List Event} {s : State} (r : Run Step (.init n) es s) :
    s.Conserved := by
  apply State.conserved_of_conserves
  apply Run.invariant (p := fun s => ∃ is, s.blk.vq.Conserves s.reqs is) (fun s e s' w h => State.step h w) r
  exact ⟨_, VirtioQueue.Conserves.init n⟩

-- Two outstanding requests.

def firstReq : VirtioBlkReq where
  addr := 4096
  buf  := 8192
  type := blkTIn
  d1   := 0
  d2   := 1
  d3   := 2

def secondReq : VirtioBlkReq where
  addr := 4160
  buf  := 8704
  type := blkTIn
  d1   := 3
  d2   := 4
  d3   := 5

theorem submits : ∃ vq vq', virtioBlkSubmit (virtioQueueAlloc 9) 4096 8192 blkTIn = .ok (firstReq, vq) ∧
    virtioBlkSubmit vq 4160 8704 blkTIn = .ok (secondReq, vq') := by
  have hr : List.range (virtioQueueAlloc 9).len = 0 :: 1 :: 2 :: 3 :: 4 :: 5 :: List.range' 6 3 := by decide
  have w := VirtioQueue.Conserves.init 9
  rw [hr] at w
  have ⟨vq, h, _, w⟩ := w.submit 4096 8192 blkTIn
  have ⟨vq', h', _⟩ := w.submit 4160 8704 blkTIn
  exact ⟨vq, vq', h, h'⟩

-- The second one is waited for first.
theorem nine_conserved : ∃ s, Run Step (.init 9) [.submit 4096 8192 blkTIn, .submit 4160 8704 blkTIn, .device 1 1,
    .wait secondReq blkSOk, .device 1 2, .wait firstReq blkSOk] s ∧ s.Conserved := by
  have ⟨vq, vq', h, h'⟩ := submits
  have h₁ : Step (.init 9) (.submit 4096 8192 blkTIn) ⟨⟨vq, 0⟩, [firstReq]⟩ := .submit nofun h
  have h₂ : Step ⟨⟨vq, 0⟩, [firstReq]⟩ (.submit 4160 8704 blkTIn) ⟨⟨vq', 0⟩, [firstReq, secondReq]⟩ :=
    .submit (List.forall_mem_singleton.mpr <| by decide) h'
  have hi : (1 : BitVec 32) ≠ 0 := by decide
  have h₄ := @Step.wait ⟨⟨{ vq' with usedIdx := 1 }, 1⟩, [firstReq, secondReq]⟩ secondReq [firstReq] [] blkSOk hi rfl
  let blk := (virtioBlkWait ⟨{ vq' with usedIdx := 1 }, 1⟩ secondReq blkSOk).2
  have h₆ := @Step.wait ⟨⟨{ blk.vq with usedIdx := 2 }, 1⟩, [firstReq]⟩ firstReq [] [] blkSOk hi rfl
  have r := Run.cons h₁ <| .cons h₂ <| .cons .device <| .cons h₄ <| .cons .device <| .single h₆
  exact ⟨_, r, descriptors_conserved r⟩

end Zgmos.Virtio
