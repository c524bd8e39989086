import Zgmos.Virtio.Callers

-- The requests of several callers and the device which completes them in any order.

namespace Zgmos.Virtio

namespace System

end System

-- Where the device looks for the request that is sent as number `k`.
def VirtioQueue.ringPos (vq : VirtioQueue) (k : Nat) : Nat :=
  (BitVec.ofNat 16 k).toNat % vq.len

-- What has been sent so far. Each request stays in the ring until its element is used again.
structure VirtioQueue.Published (vq : VirtioQueue) (reqs : List VirtioBlkReq) : Prop where
  idx  : vq.availIdx = .ofNat 16 reqs.length
  ring : ∀ k (h : k < reqs.length), (∀ j, k < j → j ≤ reqs.length → vq.ringPos j ≠ vq.ringPos k) →
    vq.availRing (vq.ringPos k) = .ofNat 16 reqs[k].d1

namespace System

-- What the callers rely on.
structure Matched (s : System) : Prop where
  -- Only completed requests return, with the result of the device.
  returned : ∀ f ∈ s.flights, ∀ req ok, f.pc = .returned req ok →
    ∃ status, f.status = some status ∧ ok = decide (status = blkSOk)
  -- The device finds the descriptors of a request as they were submitted. They are not free.
  owned    : ∃ is, s.blk.vq.Free is ∧ ∀ f ∈ s.flights, ∀ req, f.sent? = some req → f.status = none →
    req.Chained s.blk.vq ∧ ∀ d ∈ req.descs, d ∉ is
  -- No other caller has one of them.
  disjoint : ∀ fs f fs' req, s.flights = fs ++ f :: fs' → f.sent? = some req → f.status = none →
    ∀ f' ∈ fs ++ fs', f'.held.Disjoint req.descs
  -- Nobody waits for an interrupt that is gone.
  pending  : ∀ f ∈ s.flights, f.isWaiting → f.status.isSome → s.blk.interruptStatus ≠ 0
  -- Each request has been put into the ring once.
  sent     : ∃ reqs, s.blk.vq.Published reqs ∧ reqs.Perm (s.flights.flatMap (·.sent?.toList))

-- A caller does not begin to take or to give back a descriptor while another one is about to write `free_idx`, and does
-- not begin to send a request while another one is about to write `idx`.
def Exclusive (s : System) : Action → Prop
  | .move k _ => ∀ f ∈ s.flights[k]?, (f.isEntering → ∀ f' ∈ s.flights, ¬f'.isCritical) ∧
    (f.isPublishing → ∀ f' ∈ s.flights, ¬f'.isSending)
  | _         => True

-- When a caller gives its descriptors back, the device has completed its request. When it clears the interrupt, the
-- callers of all completed requests have left the loop.
def Completed (s : System) : Action → Prop
  | .move k _ => ∀ f ∈ s.flights[k]?, (f.isLinking → f.status.isSome) ∧
    (f.clears s.blk.interruptStatus → ∀ f' ∈ s.flights, f'.status.isSome → ¬f'.isWaiting)
  | _         => True

def Meets (s : System) (a : Action) : Prop :=
  s.Exclusive a ∧ s.Completed a

end System

variable {vq vq' : VirtioQueue} {blk : VirtioBlk} {req : VirtioBlkReq} {f f' : Flight} {fs fs' : List Flight}
  {is : List Nat} {stores : List Store} {d : Nat} {undefined : BitVec 8}

namespace VirtioQueue

@[simp]
theorem store_freeIdx (st : Store) : (vq.store st).freeIdx = vq.freeIdx :=
  rfl

@[simp]
theorem store_len (st : Store) : (vq.store st).len = vq.len :=
  rfl

theorem store_desc_of_ne {st : Store} (h : d ≠ st.desc) : (vq.store st).desc d = vq.desc d :=
  Function.update_of_ne h ..

-- The stores to a descriptor do not depend on the other ones.
theorem foldl_store_congr (h : vq'.desc d = vq.desc d) : (stores.foldl store vq').desc d = (stores.foldl store vq).desc d := by
  induction stores generalizing vq vq'
  case nil => exact h
  case cons st stores hi =>
    apply hi
    by_cases hd : d = st.desc
    case pos => simp [store, setDesc, ← hd, h]
    case neg => rw [store_desc_of_ne hd, store_desc_of_ne hd, h]

end VirtioQueue

namespace Flight

-- What a caller relies on.
def Ok (vq : VirtioQueue) (f : Flight) : Prop :=
  match f.pc with
  | .check _ | .panic _      => True
  | .load _                  => vq.freeIdx ≠ vq.len
  | .link _ d                => vq.freeIdx = d ∧ d ≠ vq.len
  | .unlink _ d next         => vq.freeIdx = d ∧ d ≠ vq.len ∧ next = (vq.desc d).next.toNat
  | .fill req stores         => req.Chained (stores.foldl .store vq) ∧ ∀ st ∈ stores, st.desc ∈ req.descs
  | .submitted req _         => req.Chained vq
  | .free req ds             => f.status = none → ds = req.descs ∧ req.Chained vq
  | .linkBack req d ds next  => next = vq.freeIdx ∧ (f.status = none → d :: ds = req.descs ∧ req.Chained vq)
  | .setFree _ d _           => f.status.isSome ∧ (vq.desc d).next.toNat = vq.freeIdx
  | .returned _ ok           => ∃ status, f.status = some status ∧ ok = decide (status = blkSOk)

-- Another caller changes neither the descriptors of this one nor what it reads between two accesses to `free_idx`.
theorem Ok.congr (h : f.Ok vq) (hl : vq'.len = vq.len) (hd : ∀ d ∈ f.held, vq'.desc d = vq.desc d)
    (hc : f.isCritical → vq'.freeIdx = vq.freeIdx ∧ (vq.freeIdx ≠ vq.len → vq'.desc vq.freeIdx = vq.desc vq.freeIdx)) :
    f.Ok vq' := by
  cases hp : f.pc
  all_goals simp only [Ok, held, isCritical, hp, Bool.false_eq_true, forall_const] at h hd hc ⊢
  case load      => rwa [hc.1, hl]
  case link      => rwa [hc.1, hl]
  case unlink    =>
    obtain ⟨rfl, hn, hx⟩ := h
    exact ⟨hc.1, hl ▸ hn, by rw [hc.2 hn, hx]⟩
  case fill      => exact ⟨h.1.congr fun d hm => VirtioQueue.foldl_store_congr <| hd d hm, h.2⟩
  case submitted => exact h.congr hd
  case free      =>
    intro hs
    obtain ⟨he, h⟩ := h hs
    exact ⟨he, h.congr <| he ▸ hd⟩
  case linkBack  =>
    refine ⟨h.1.trans hc.1.symm, fun hs => ?_⟩
    obtain ⟨he, h⟩ := h.2 hs
    exact ⟨he, h.congr <| he ▸ hd⟩
  case setFree   => exact ⟨h.1, by rw [hd _ (.head _), h.2, hc.1]⟩
  case returned  => exact h

-- The device completes the request.
theorem Ok.complete {status : BitVec 8} (h : f.Ok vq) (hn : f.status = none) : Ok vq { f with status := some status } := by
  cases hp : f.pc
  all_goals simp only [Ok, hp, hn] at h ⊢
  all_goals simp_all

-- What an access of a caller changes.
structure Moved (vq vq' : VirtioQueue) (f f' : Flight) (is is' : List Nat) : Prop where
  len      : vq'.len = vq.len
  free     : vq'.Free is'
  perm     : (is' ++ f'.held).Perm (is ++ f.held)
  desc     : ∀ d ∉ f.held, vq'.desc d = vq.desc d
  freeIdx  : ¬f.isCritical → vq'.freeIdx = vq.freeIdx
  status   : f'.status = f.status
  critical : f'.isCritical → f.isCritical ∨ f.isEntering
  ok       : f'.Ok vq'

-- An access that changes neither the list nor a descriptor.
theorem Moved.of_eq (hf : vq.Free is) (hl : vq'.len = vq.len) (hi : vq'.freeIdx = vq.freeIdx) (hd : vq'.desc = vq.desc)
    (hs : f'.status = f.status) (hh : f'.held = f.held) (hc : f'.isCritical → f.isCritical ∨ f.isEntering)
    (ho : f'.Ok vq') : Moved vq vq' f f' is is where
  len      := hl
  free     := by simpa only [VirtioQueue.Free, hl, hi, hd] using hf
  perm     := hh ▸ .refl _
  desc     := fun d _ => congrFun hd d
  freeIdx  := fun _ => hi
  status   := hs
  critical := hc
  ok       := ho

theorem stageStep_moved {stage : Stage} (hf : blk.vq.Free is) (hp : f.pc = .submitted req stage)
    (hc : req.Chained blk.vq) :
    Moved blk.vq (f.stageStep blk req stage).1.vq f (f.stageStep blk req stage).2 is is := by
  cases stage
  case polling =>
    by_cases hi : blk.interruptStatus = 0
    all_goals
      simp only [stageStep, hi, if_true, if_false]
      exact .of_eq hf rfl rfl rfl rfl (by simp [held, goto, hp]) (by simp [isCritical, goto, hp]) <| by
        simpa only [Ok, goto, hp] using hc
  case interruptAck =>
    simp only [stageStep]
    exact .of_eq hf rfl rfl rfl rfl (by simp [held, goto, hp]) (by simp [isCritical, goto]) fun _ => ⟨rfl, hc⟩
  all_goals
    simp only [stageStep]
    exact .of_eq hf rfl rfl rfl rfl (by simp [held, goto, hp]) (by simp [isCritical, goto]) <| hc.congr fun _ _ => rfl

theorem allocated_held {ds : List Nat} : (f.goto <| f.allocated ds).held = ds := by
  unfold allocated
  split <;> rfl

theorem allocated_critical {ds : List Nat} : ¬(f.goto <| f.allocated ds).isCritical := by
  unfold allocated
  split <;> simp [isCritical, goto]

theorem allocated_ok {ds : List Nat} (h : ds.Nodup) : (f.goto <| f.allocated ds).Ok vq := by
  unfold allocated
  split
  case h_1 d₁ d₂ d₃ =>
    refine ⟨?_, by simp [VirtioBlkReq.stores, VirtioBlkReq.descs]⟩
    rw [VirtioQueue.store_stores]
    exact VirtioBlkReq.setDescs_chained vq h
  case h_2 => trivial

-- A descriptor is taken from the list, or put in front of it, or the list stays as it is.
theorem step_moved (hf : blk.vq.Free is) (hm : blk.vq.len ≤ queueMaxSize) (hn : (is ++ f.held).Nodup)
    (hl : ∀ d ∈ is, d < blk.vq.len) (ho : f.Ok blk.vq) (hs : f.isLinking → f.status.isSome) :
    ∃ is', Moved blk.vq (f.step blk undefined).1.vq f (f.step blk undefined).2 is is' := by
  have hdis := (List.nodup_append.mp hn).2.2
  cases hp : f.pc
  all_goals simp only [Ok, held, isLinking, hp] at ho hn hdis hs
  case check ds =>
    simp only [step, hp]
    refine ⟨is, .of_eq hf rfl rfl rfl rfl ?_ ?_ ?_⟩
    case refine_1 => split_ifs <;> simp [held, goto, hp]
    case refine_2 => simp [isEntering, hp]
    case refine_3 =>
      split_ifs with he
      case pos => trivial
      case neg => exact he
  case load ds =>
    simp only [step, hp]
    exact ⟨is, .of_eq hf rfl rfl rfl rfl (by simp [held, goto, hp]) (by simp [isCritical, hp]) ⟨rfl, ho⟩⟩
  case link ds d =>
    simp only [step, hp]
    exact ⟨is, .of_eq hf rfl rfl rfl rfl (by simp [held, goto, hp]) (by simp [isCritical, hp]) ⟨ho.1, ho.2, rfl⟩⟩
  case unlink ds d next =>
    obtain ⟨hi, hd, hx⟩ := ho
    simp only [step, hp]
    cases is
    case nil => exact absurd (hi.symm.trans <| Option.some.inj hf) hd
    case cons d' is =>
      obtain ⟨h₁, h₂⟩ := hf
      obtain rfl : d = d' := hi.symm.trans <| Option.some.inj h₁
      have hperm : (is ++ (ds ++ [d])).Perm (d :: is ++ ds) := by
        rw [← List.append_assoc]
        exact List.perm_append_singleton d _
      have hnd : (ds ++ [d]).Nodup := (List.nodup_append.mp <| hperm.nodup_iff.mpr hn).2.1
      refine ⟨is, rfl, hx ▸ h₂, ?_, fun _ _ => rfl, ?_, rfl, fun hc => absurd hc allocated_critical, allocated_ok hnd⟩
      case refine_1 =>
        rw [allocated_held]
        simp only [held, hp]
        exact hperm
      case refine_2 => simp [isCritical, hp]
  case fill req stores =>
    cases stores
    case nil =>
      simp only [step, hp]
      exact ⟨is, .of_eq hf rfl rfl rfl rfl (by simp [held, goto, hp]) (by simp [isCritical, goto]) ho.1⟩
    case cons st stores =>
      simp only [step, hp]
      have hd : st.desc ∈ req.descs := ho.2 _ <| .head _
      refine ⟨is, rfl, hf.setDesc fun hi => hdis _ hi _ hd rfl, by simp [held, goto, hp], ?_, fun _ => rfl, rfl,
        by simp [isCritical, goto], ho.1, fun st' h => ho.2 st' <| .tail _ h⟩
      intro d hn
      refine VirtioQueue.store_desc_of_ne fun he => hn ?_
      simp only [held, hp]
      exact he ▸ hd
  case submitted req stage =>
    simp only [step, hp]
    exact ⟨is, stageStep_moved hf hp ho⟩
  case free req ds =>
    cases ds
    case nil =>
      simp only [step, hp]
      refine ⟨is, .of_eq hf rfl rfl rfl rfl (by simp [held, goto, hp]) (by simp [isCritical, goto]) ?_⟩
      cases hst : f.status
      case none   => cases (ho hst).1
      case some x => exact ⟨x, hst, by simp⟩
    case cons d ds =>
      simp only [step, hp]
      exact ⟨is, .of_eq hf rfl rfl rfl rfl (by simp [held, goto, hp]) (by simp [isEntering, hp]) ⟨rfl, ho⟩⟩
  case linkBack req d ds next =>
    simp only [step, hp]
    have hnext : (BitVec.ofNat 16 next).toNat = blk.vq.freeIdx := by
      have := hf.freeIdx_le hl
      rw [BitVec.toNat_ofNat, ho.1]
      simp only [queueMaxSize] at hm
      omega
    refine ⟨is, rfl, hf.setDesc fun hi => hdis _ hi _ (.head _) rfl, by simp [held, goto, hp], ?_, fun _ => rfl, rfl,
      by simp [isCritical, hp], hs trivial, ?_⟩
    case refine_1 =>
      intro d' hn
      refine VirtioQueue.store_desc_of_ne fun he => hn ?_
      simp only [held, hp]
      exact he ▸ .head _
    case refine_2 => simpa [VirtioQueue.store, VirtioQueue.setDesc] using hnext
  case setFree req d ds =>
    simp only [step, hp]
    refine ⟨d :: is, rfl, ⟨rfl, ?_⟩, ?_, fun _ _ => rfl, by simp [isCritical, hp], rfl, by simp [isCritical, goto], ?_⟩
    case refine_1 =>
      simp only [ho.2]
      exact hf
    case refine_2 =>
      simp only [held, goto, hp]
      exact List.perm_middle.symm
    case refine_3 => exact fun hst => absurd ho.1 <| by simp [goto] at hst; simp [hst]
  case returned req ok =>
    simp only [step, hp]
    exact ⟨is, .of_eq hf rfl rfl rfl rfl rfl .inl <| by simpa only [Ok, hp] using ho⟩
  case panic ds =>
    simp only [step, hp]
    exact ⟨is, .of_eq hf rfl rfl rfl rfl rfl .inl <| by simp only [Ok, hp]⟩

end Flight

namespace Flight

-- The request which the device has not completed keeps its descriptors.
theorem Ok.chained (h : f.Ok vq) (hr : f.sent? = some req) (hs : f.status = none) :
    req.Chained vq ∧ f.held = req.descs := by
  cases hp : f.pc
  all_goals simp only [sent?, Ok, held, hp, hs, forall_const] at hr h ⊢
  case submitted =>
    obtain ⟨_, he⟩ := Option.ite_none_right_eq_some.mp hr
    cases he
    exact ⟨h, rfl⟩
  case free      =>
    cases hr
    exact ⟨h.2, h.1⟩
  case linkBack  =>
    cases hr
    exact ⟨h.2.2, h.2.1⟩
  case setFree   => cases h.1
  case returned  =>
    obtain ⟨_, h, _⟩ := h
    cases h
  all_goals cases hr

-- What the access of a stage means for the ring and for the interrupt.
structure Advances (blk blk' : VirtioBlk) (f f' : Flight) : Prop where
  sent    : f.sent?.isSome → f'.sent?.isSome
  cleared : blk'.interruptStatus = 0 → blk.interruptStatus = 0 ∨ f.clears blk.interruptStatus
  -- A request that is not in the ring yet is not completed.
  waiting : f'.isWaiting → f.isWaiting ∨ f.sent? = none

theorem stageStep_advances {stage : Stage} (hp : f.pc = .submitted req stage) :
    Advances blk (f.stageStep blk req stage).1 f (f.stageStep blk req stage).2 := by
  cases stage
  case polling =>
    have hw : f.isWaiting := by simp only [isWaiting, hp]
    refine ⟨fun h => ?_, .inl, fun _ => .inl hw⟩
    simp only [stageStep]
    split_ifs
    case pos => exact h
    case neg => rfl
  case interruptAck bits =>
    refine ⟨fun _ => rfl, fun h => .inr ?_, fun h => by cases h⟩
    simp only [stageStep] at h
    simp only [clears, hp, h, decide_true]
  all_goals
    simp only [stageStep]
    refine ⟨?_, fun h => .inl h, ?_⟩
    all_goals simp [isWaiting, sent?, goto, hp, Stage.isSent]

theorem step_advances : Advances blk (f.step blk undefined).1 f (f.step blk undefined).2 := by
  cases hp : f.pc
  case submitted => simpa only [step, hp] using stageStep_advances hp
  case check     =>
    simp only [step, hp]
    refine ⟨by simp [sent?, hp], .inl, by split_ifs <;> simp [isWaiting, goto]⟩
  case unlink    =>
    simp only [step, hp]
    refine ⟨by simp [sent?, hp], .inl, ?_⟩
    unfold allocated
    split <;> simp [isWaiting, goto]
  case fill stores =>
    cases stores
    all_goals
      simp only [step, hp]
      exact ⟨by simp [sent?, hp], .inl, by simp [isWaiting, goto]⟩
  case free ds =>
    cases ds
    all_goals
      simp only [step, hp]
      exact ⟨fun _ => rfl, .inl, by simp [isWaiting, goto]⟩
  all_goals
    simp only [step, hp]
    exact ⟨by simp [sent?, goto, hp], .inl, by simp [isWaiting, goto, hp]⟩

theorem sent_of_clears {interruptStatus : BitVec 32} (h : f.clears interruptStatus) :
    ¬f.isWaiting ∧ f.sent?.isSome := by
  unfold clears at h
  split at h
  case h_1 hp => simp [isWaiting, sent?, hp, Stage.isSent]
  case h_2    => cases h

theorem step_of_clears (h : f.clears blk.interruptStatus) : (f.step blk undefined).1.interruptStatus = 0 := by
  unfold clears at h
  split at h
  case h_1 hp => simpa [step, stageStep, hp] using h
  case h_2    => cases h

end Flight

namespace VirtioQueue

variable {reqs : List VirtioBlkReq}

theorem Published.congr (h : vq.Published reqs) (hl : vq'.len = vq.len) (hi : vq'.availIdx = vq.availIdx)
    (hr : vq'.availRing = vq.availRing) : vq'.Published reqs := by
  obtain ⟨h₁, h₂⟩ := h
  exact ⟨hi ▸ h₁, by simpa only [ringPos, hl, hr] using h₂⟩

theorem ringPos_length (h : vq.Published reqs) : vq.ringPos reqs.length = vq.availIdx.toNat % vq.len := by
  rw [ringPos, h.idx]

-- The element that is written is the one after the last request.
theorem Published.update {d : BitVec 16} (h : vq.Published reqs) :
    Published { vq with availRing := Function.update vq.availRing (vq.availIdx.toNat % vq.len) d } reqs := by
  refine ⟨h.idx, fun k hk hn => ?_⟩
  rw [← ringPos_length h]
  exact (Function.update_of_ne (Ne.symm <| hn _ hk le_rfl) ..).trans <| h.ring k hk hn

theorem Published.push (h : vq.Published reqs) (hr : vq.availRing (vq.availIdx.toNat % vq.len) = .ofNat 16 req.d1) :
    Published { vq with availIdx := vq.availIdx + 1 } (reqs ++ [req]) := by
  constructor
  case idx => 
    rw [List.length_append, List.length_singleton, BitVec.ofNat_add, ← h.idx]
    rfl
  case ring =>
    intro k hk hn
    obtain hlt | rfl : k < reqs.length ∨ k = reqs.length := by
      rw [List.length_append, List.length_singleton] at hk
      omega
    case inl =>
      rw [List.getElem_append_left hlt]
      exact h.ring k hlt fun j h₁ h₂ => hn j h₁ <| by rw [List.length_append]; omega
    case inr =>
      rw [List.getElem_concat_length rfl]
      rw [← ringPos_length h] at hr
      exact hr

end VirtioQueue

-- What a caller in `virtio_blk_send` relies on.
def Stage.Sends (vq : VirtioQueue) (req : VirtioBlkReq) : Stage → Prop
  | ring i    => i = vq.availIdx
  | idx       => vq.availRing (vq.availIdx.toNat % vq.len) = .ofNat 16 req.d1
  | publish i => i = vq.availIdx ∧ vq.availRing (vq.availIdx.toNat % vq.len) = .ofNat 16 req.d1
  | avail | notify | polling | usedIdx | usedEvent _ | interruptStatus | interruptAck _ => True

namespace Flight

def Sends (vq : VirtioQueue) (f : Flight) : Prop :=
  ∀ req stage, f.pc = .submitted req stage → stage.Sends vq req

theorem Sends.of_not_sending (h : ¬f.isSending) : f.Sends vq := by
  intro req stage hp
  cases stage
  all_goals first | trivial | exact absurd (by simp only [isSending, hp]) h

theorem Sends.congr (h : f.Sends vq) (hl : vq'.len = vq.len)
    (hc : f.isSending → vq'.availIdx = vq.availIdx ∧ vq'.availRing = vq.availRing) : f.Sends vq' := by
  by_cases hs : f.isSending
  case neg => exact .of_not_sending hs
  case pos =>
    intro req stage hp
    have := h req stage hp
    obtain ⟨hi, hr⟩ := hc hs
    cases stage
    case ring | idx | publish => simpa only [Stage.Sends, hi, hr, hl] using this
    all_goals trivial

-- What an access of a caller means for the ring.
structure Publishes (vq vq' : VirtioQueue) (f f' : Flight) : Prop where
  len       : vq'.len = vq.len
  avail     : ¬f.isSending → vq'.availIdx = vq.availIdx ∧ vq'.availRing = vq.availRing
  sends     : f'.Sends vq'
  sending   : f'.isSending → f.isSending ∨ f.isPublishing
  published : ∀ reqs, vq.Published reqs →
    ∃ reqs', vq'.Published reqs' ∧ (reqs' ++ f.sent?.toList).Perm (reqs ++ f'.sent?.toList)

theorem Publishes.of_eq (hl : vq'.len = vq.len) (hi : vq'.availIdx = vq.availIdx) (hr : vq'.availRing = vq.availRing)
    (hs : f'.Sends vq') (hc : f'.isSending → f.isSending ∨ f.isPublishing) (he : f'.sent? = f.sent?) :
    Publishes vq vq' f f' where
  len       := hl
  avail     := fun _ => ⟨hi, hr⟩
  sends     := hs
  sending   := hc
  published := fun reqs h => ⟨reqs, h.congr hl hi hr, he ▸ .refl _⟩

theorem stageStep_publishes {stage : Stage} (hp : f.pc = .submitted req stage) (h : f.Sends blk.vq) :
    Publishes blk.vq (f.stageStep blk req stage).1.vq f (f.stageStep blk req stage).2 := by
  have hs := h req stage hp
  cases stage
  case avail =>
    simp only [stageStep]
    refine .of_eq rfl rfl rfl ?_ (by simp [isPublishing, hp]) (by simp [sent?, goto, hp, Stage.isSent])
    rintro _ _ ⟨⟩
    rfl
  case ring i =>
    obtain rfl : i = blk.vq.availIdx := hs
    simp only [stageStep]
    refine ⟨rfl, by simp [isSending, hp], ?_, by simp [isSending, hp], fun reqs h => ⟨reqs, h.update, ?_⟩⟩
    case refine_1 =>
      rintro _ _ ⟨⟩
      exact Function.update_self ..
    case refine_2 => simp [sent?, goto, hp, Stage.isSent]
  case idx =>
    simp only [stageStep]
    refine .of_eq rfl rfl rfl ?_ (by simp [isSending, hp]) (by simp [sent?, goto, hp, Stage.isSent])
    rintro _ _ ⟨⟩
    exact ⟨rfl, hs⟩
  case publish i =>
    obtain ⟨rfl, hr⟩ := hs
    simp only [stageStep]
    refine ⟨rfl, by simp [isSending, hp], ?_, by simp [isSending, hp], fun reqs h => ⟨_, h.push hr, ?_⟩⟩
    case refine_1 => exact .of_not_sending <| by simp [isSending, goto]
    case refine_2 => simp [sent?, goto, hp, Stage.isSent]
  case polling =>
    simp only [stageStep]
    split_ifs
    case pos => exact .of_eq rfl rfl rfl h .inl rfl
    case neg =>
      exact .of_eq rfl rfl rfl (.of_not_sending <| by simp [isSending, goto]) (by simp [isSending, goto]) <| by
        simp [sent?, goto, hp, Stage.isSent]
  all_goals
    simp only [stageStep]
    exact .of_eq rfl rfl rfl (.of_not_sending <| by simp [isSending, goto]) (by simp [isSending, goto]) <| by
      simp [sent?, goto, hp, Stage.isSent]

theorem step_publishes (h : f.Sends blk.vq) :
    Publishes blk.vq (f.step blk undefined).1.vq f (f.step blk undefined).2 := by
  cases hp : f.pc
  case submitted => simpa only [step, hp] using stageStep_publishes hp h
  case check     =>
    simp only [step, hp]
    split_ifs
    all_goals
      exact .of_eq rfl rfl rfl (.of_not_sending <| by simp [isSending, goto]) (by simp [isSending, goto]) <| by
        simp [sent?, goto, hp]
  case unlink    =>
    simp only [step, hp]
    unfold allocated
    split
    all_goals
      exact .of_eq rfl rfl rfl (.of_not_sending <| by simp [isSending, goto]) (by simp [isSending, goto]) <| by
        simp [sent?, goto, hp]
  case fill stores =>
    cases stores
    all_goals
      simp only [step, hp]
      exact .of_eq rfl rfl rfl (.of_not_sending <| by simp [isSending, goto]) (by simp [isSending, goto]) <| by
        simp [sent?, goto, hp, Stage.isSent]
  case free ds =>
    cases ds
    all_goals
      simp only [step, hp]
      exact .of_eq rfl rfl rfl (.of_not_sending <| by simp [isSending, goto]) (by simp [isSending, goto]) <| by
        simp [sent?, goto, hp]
  all_goals
    simp only [step, hp]
    exact .of_eq rfl rfl rfl (.of_not_sending <| by simp [isSending, goto, hp]) (by simp [isSending, goto, hp]) <| by
      simp [sent?, goto, hp]

end Flight

theorem flatMap_middle {α : Type} (g : Flight → List α) :
    ((fs ++ f :: fs').flatMap g).Perm (g f ++ (fs ++ fs').flatMap g) := by
  simpa using List.perm_middle.flatMap_right g

namespace System

-- What every step preserves.
structure Good (s : System) : Prop where
  conserves : ∃ is, s.blk.vq.len ≤ queueMaxSize ∧ s.blk.vq.Free is ∧
    (is ++ s.flights.flatMap Flight.held).Perm (List.range s.blk.vq.len)
  ok        : ∀ f ∈ s.flights, f.Ok s.blk.vq
  single    : s.flights.Pairwise fun f f' => ¬(f.isCritical ∧ f'.isCritical)
  sends     : ∀ f ∈ s.flights, f.Sends s.blk.vq
  sender    : s.flights.Pairwise fun f f' => ¬(f.isSending ∧ f'.isSending)
  published : ∃ reqs, s.blk.vq.Published reqs ∧ reqs.Perm (s.flights.flatMap (·.sent?.toList))
  sent      : ∀ f ∈ s.flights, f.status.isSome → f.sent?.isSome
  pending   : ∀ f ∈ s.flights, f.isWaiting → f.status.isSome → s.blk.interruptStatus ≠ 0

variable {s s' : System} {a : Action}

theorem mem_middle : f' ∈ fs ++ f :: fs' ↔ f' = f ∨ f' ∈ fs ++ fs' :=
  List.perm_middle.mem_iff.trans List.mem_cons

theorem pairwise_middle {p : Flight → Bool} : (fs ++ f :: fs').Pairwise (fun f f' => ¬(p f ∧ p f')) ↔
    (∀ f' ∈ fs ++ fs', ¬(p f ∧ p f')) ∧ (fs ++ fs').Pairwise fun f f' => ¬(p f ∧ p f') :=
  (List.pairwise_middle fun h h' => h h'.symm).trans List.pairwise_cons

namespace Good

theorem init (queueSize : BitVec 32) : (init queueSize).Good where
  conserves := by
    have w := VirtioQueue.Conserves.init queueSize
    exact ⟨_, w.len, w.free, w.perm⟩
  ok        := nofun
  single    := .nil
  sends     := nofun
  sender    := .nil
  published := ⟨[], ⟨rfl, nofun⟩, .nil⟩
  sent      := nofun
  pending   := nofun

variable (g : s.Good)

include g

-- The descriptors around a caller.
theorem split (h : s.flights = fs ++ f :: fs') : ∃ is, s.blk.vq.len ≤ queueMaxSize ∧ s.blk.vq.Free is ∧
    ((is ++ f.held) ++ (fs ++ fs').flatMap Flight.held).Perm (List.range s.blk.vq.len) := by
  obtain ⟨is, hm, hf, hp⟩ := g.conserves
  refine ⟨is, hm, hf, ?_⟩
  rw [h] at hp
  rw [List.append_assoc]
  exact ((flatMap_middle _).symm.append_left is).trans hp

theorem move (h : s.flights = fs ++ f :: fs') (hm : s.Meets (.move fs.length undefined)) :
    Good { blk := (f.step s.blk undefined).1, flights := fs ++ (f.step s.blk undefined).2 :: fs' } := by
  obtain ⟨is, hmax, hfree, hp⟩ := g.split h
  have hget : f ∈ s.flights[fs.length]? := by simp [h]
  have hmem {f' : Flight} (hf' : f' ∈ fs ++ fs') : f' ∈ s.flights := h ▸ mem_middle.mpr (.inr hf')
  have hself : f ∈ s.flights := h ▸ mem_middle.mpr (.inl rfl)
  have hn := hp.nodup_iff.mpr List.nodup_range
  have hlt : ∀ d ∈ is, d < s.blk.vq.len := fun d hd =>
    List.mem_range.mp <| hp.mem_iff.mp <| List.mem_append_left _ <| List.mem_append_left _ hd
  have hsingle := pairwise_middle.mp <| h ▸ g.single
  have hsender := pairwise_middle.mp <| h ▸ g.sender
  obtain ⟨hlink, hclear⟩ := hm.2 f hget
  obtain ⟨is', w⟩ : ∃ is', Flight.Moved s.blk.vq (f.step s.blk undefined).1.vq f (f.step s.blk undefined).2 is is' :=
    Flight.step_moved hfree hmax (List.nodup_append.mp hn).1 hlt (g.ok f hself) hlink
  have hadv : Flight.Advances s.blk (f.step s.blk undefined).1 f (f.step s.blk undefined).2 := Flight.step_advances
  have hpub : Flight.Publishes s.blk.vq (f.step s.blk undefined).1.vq f (f.step s.blk undefined).2 :=
    Flight.step_publishes <| g.sends f hself
  generalize (f.step s.blk undefined).1 = blk at w hadv hpub
  generalize (f.step s.blk undefined).2 = f₁ at w hadv hpub
  constructor
  case conserves =>
    refine ⟨is', w.len ▸ hmax, w.free, ?_⟩
    have := (@flatMap_middle f₁ fs fs' _ Flight.held).append_left is'
    rw [← List.append_assoc] at this
    exact this.trans <| (w.perm.append_right _).trans <| w.len ▸ hp
  case ok =>
    intro f' hf'
    obtain rfl | hf' := mem_middle.mp hf'
    case inl => exact w.ok
    case inr =>
      refine (g.ok f' <| hmem hf').congr w.len (fun d hd => w.desc d fun hd' => ?_) fun hc => ?_
      case refine_1 =>
        exact (List.nodup_append.mp hn).2.2 d (List.mem_append_right _ hd') d (List.mem_flatMap.mpr ⟨f', hf', hd⟩) rfl
      case refine_2 =>
        refine ⟨w.freeIdx fun hc' => hsingle.1 f' hf' ⟨hc', hc⟩, fun hne => w.desc _ fun hd => ?_⟩
        cases is
        case nil => exact hne <| Option.some.inj hfree
        case cons d is =>
          have he : s.blk.vq.freeIdx = d := Option.some.inj hfree.1
          exact (List.nodup_append.mp (List.nodup_append.mp hn).1).2.2 d (.head _) d (he ▸ hd) rfl
  case single =>
    refine pairwise_middle.mpr ⟨fun f' hf' ⟨hc, hc'⟩ => ?_, hsingle.2⟩
    obtain hc | he := w.critical hc
    case inl => exact hsingle.1 f' hf' ⟨hc, hc'⟩
    case inr => exact (hm.1 f hget).1 he f' (hmem hf') hc'
  case sends =>
    intro f' hf'
    obtain rfl | hf' := mem_middle.mp hf'
    case inl => exact hpub.sends
    case inr =>
      exact (g.sends f' <| hmem hf').congr hpub.len fun hc => hpub.avail fun hc' => hsender.1 f' hf' ⟨hc', hc⟩
  case sender =>
    refine pairwise_middle.mpr ⟨fun f' hf' ⟨hc, hc'⟩ => ?_, hsender.2⟩
    obtain hc | he := hpub.sending hc
    case inl => exact hsender.1 f' hf' ⟨hc, hc'⟩
    case inr => exact (hm.1 f hget).2 he f' (hmem hf') hc'
  case published =>
    obtain ⟨reqs, hr, hperm⟩ := g.published
    obtain ⟨reqs', hr', hperm'⟩ := hpub.published reqs hr
    refine ⟨reqs', hr', ?_⟩
    rw [h] at hperm
    have hmid := hperm.trans <| flatMap_middle _
    have hmid' := (@flatMap_middle f₁ fs fs' _ (·.sent?.toList)).symm
    refine (List.perm_append_right_iff f.sent?.toList).mp ?_
    calc
      List.Perm (reqs' ++ f.sent?.toList) (reqs ++ f₁.sent?.toList) := hperm'
      List.Perm _ ((f.sent?.toList ++ (fs ++ fs').flatMap (·.sent?.toList)) ++ f₁.sent?.toList) := hmid.append_right _
      List.Perm _ ((f₁.sent?.toList ++ (fs ++ fs').flatMap (·.sent?.toList)) ++ f.sent?.toList) := by
        rw [List.append_assoc f₁.sent?.toList]
        exact List.perm_append_comm.trans <| List.perm_append_comm.append_left _
      List.Perm _ ((fs ++ f₁ :: fs').flatMap (·.sent?.toList) ++ f.sent?.toList) := hmid'.append_right _
  case sent =>
    intro f' hf' hs
    obtain rfl | hf' := mem_middle.mp hf'
    case inl => exact hadv.sent <| g.sent f hself <| w.status ▸ hs
    case inr => exact g.sent f' (hmem hf') hs
  case pending =>
    intro f' hf' hw hs hz
    obtain hi | hc := hadv.cleared hz
    all_goals obtain rfl | hf' := mem_middle.mp hf'
    case inl.inl =>
      obtain hw | hu := hadv.waiting hw
      case inl => exact g.pending f hself hw (w.status ▸ hs) hi
      case inr => exact absurd (g.sent f hself <| w.status ▸ hs) <| by simp [hu]
    case inl.inr => exact g.pending f' (hmem hf') hw hs hi
    case inr.inl =>
      have ⟨hn, hs⟩ := Flight.sent_of_clears hc
      obtain hw | hu := hadv.waiting hw
      case inl => exact hn hw
      case inr => simp [hu] at hs
    case inr.inr => exact hclear hc f' (hmem hf') hs hw

theorem complete {status : BitVec 8} (h : s.flights = fs ++ f :: fs') (hn : f.status = none) (hr : f.sent?.isSome) :
    Good {
      blk := {
        vq              := { s.blk.vq with usedIdx := s.blk.vq.usedIdx + 1 }
        interruptStatus := s.blk.interruptStatus ||| 1 }
      flights := fs ++ { f with status := some status } :: fs' } := by
  obtain ⟨is, hmax, hfree, hp⟩ := g.split h
  have hmem {f' : Flight} (hf' : f' ∈ fs ++ fs') : f' ∈ s.flights := h ▸ mem_middle.mpr (.inr hf')
  have hself : f ∈ s.flights := h ▸ mem_middle.mpr (.inl rfl)
  constructor
  case conserves =>
    refine ⟨is, hmax, hfree, ?_⟩
    have := (@flatMap_middle { f with status := some status } fs fs' _ Flight.held).append_left is
    rw [← List.append_assoc] at this
    exact this.trans hp
  case ok =>
    intro f' hf'
    obtain rfl | hf' := mem_middle.mp hf'
    case inl => exact ((g.ok f hself).complete hn).congr rfl (fun _ _ => rfl) fun _ => ⟨rfl, fun _ => rfl⟩
    case inr => exact (g.ok f' <| hmem hf').congr rfl (fun _ _ => rfl) fun _ => ⟨rfl, fun _ => rfl⟩
  case single =>
    have hsingle := pairwise_middle.mp <| h ▸ g.single
    exact pairwise_middle.mpr hsingle
  case sends =>
    intro f' hf'
    obtain rfl | hf' := mem_middle.mp hf'
    case inl => exact g.sends f hself
    case inr => exact g.sends f' <| hmem hf'
  case sender =>
    have hsender := pairwise_middle.mp <| h ▸ g.sender
    exact pairwise_middle.mpr hsender
  case published =>
    obtain ⟨reqs, hr, hperm⟩ := g.published
    refine ⟨reqs, hr.congr rfl rfl rfl, ?_⟩
    rw [h] at hperm
    have hmid := (@flatMap_middle { f with status := some status } fs fs' _ (·.sent?.toList)).symm
    exact (hperm.trans <| flatMap_middle _).trans hmid
  case sent =>
    intro f' hf' hs
    obtain rfl | hf' := mem_middle.mp hf'
    case inl => exact hr
    case inr => exact g.sent f' (hmem hf') hs
  case pending =>
    intro _ _ _ _ hz
    have := congrArg (·.getLsbD 0) hz
    simp at this

theorem step (h : Step s a s') (hm : s.Meets a) : s'.Good := by
  cases h
  case move h       => exact g.move h hm
  case complete h hr hn => exact g.complete h hn hr
  case call addr buf type h =>
    obtain ⟨is, hmax, hfree, hp⟩ := g.conserves
    have hmem {f' f : Flight} (hf' : f' ∈ s.flights ++ [f]) : f' ∈ s.flights ∨ f' = f := by simpa using hf'
    constructor
    case conserves => exact ⟨is, hmax, hfree, by simpa [Flight.held] using hp⟩
    case ok =>
      intro f' hf'
      obtain hf' | rfl := hmem hf'
      case inl => exact g.ok f' hf'
      case inr => trivial
    case single => exact List.pairwise_append.mpr ⟨g.single, List.pairwise_singleton .., by simp [Flight.isCritical]⟩
    case sends =>
      intro f' hf'
      obtain hf' | rfl := hmem hf'
      case inl => exact g.sends f' hf'
      case inr => exact .of_not_sending <| by simp [Flight.isSending]
    case sender => exact List.pairwise_append.mpr ⟨g.sender, List.pairwise_singleton .., by simp [Flight.isSending]⟩
    case published =>
      obtain ⟨reqs, hr, hperm⟩ := g.published
      exact ⟨reqs, hr, by simpa [Flight.sent?] using hperm⟩
    case sent =>
      intro f' hf' hs
      obtain hf' | rfl := hmem hf'
      case inl => exact g.sent f' hf' hs
      case inr => cases hs
    case pending =>
      intro f' hf' hw hs
      obtain hf' | rfl := hmem hf'
      case inl => exact g.pending f' hf' hw hs
      case inr => cases hs

-- These parts of the condition cannot be weakened: each step that does not meet them breaks what the callers rely on.
theorem completed_of_matched (h : Step s a s') (m : s'.Matched) : s.Completed a := by
  cases h
  case move fs f fs' undefined hf =>
    intro f₁ h₁
    obtain rfl : f = f₁ := by simpa [hf] using h₁
    constructor
    case left =>
      intro hl
      rw [Option.isSome_iff_ne_none]
      intro hs
      obtain ⟨is, hmax, hfree, hp⟩ := g.split hf
      have hn := hp.nodup_iff.mpr List.nodup_range
      have hself : f ∈ s.flights := hf ▸ mem_middle.mpr (.inl rfl)
      obtain ⟨req, d, ds, next, hpc⟩ : ∃ req d ds next, f.pc = .linkBack req d ds next := by
        unfold Flight.isLinking at hl
        split at hl
        case h_1 req d ds next h => exact ⟨req, d, ds, next, h⟩
        case h_2                 => cases hl
      have ho := g.ok f hself
      simp only [Flight.Ok, hpc, hs, forall_const] at ho
      obtain ⟨hnext, he, hc⟩ := ho
      have hheld : f.held = req.descs := by simp only [Flight.held, hpc, he]
      obtain ⟨_, _, howned⟩ := m.owned
      have hstep : f.step s.blk undefined = ({ s.blk with vq := s.blk.vq.store ⟨d, ({ · with next := .ofNat 16 next })⟩ },
          f.goto <| .setFree req d ds) := by simp only [Flight.step, hpc]
      rw [hstep] at howned
      obtain ⟨hc', _⟩ := howned (f.goto <| .setFree req d ds) (mem_middle.mpr <| .inl rfl) req rfl hs
      obtain rfl : d = req.d1 := (List.cons.inj he).1
      have hd : (BitVec.ofNat 16 next).toNat = (BitVec.ofNat 16 req.d2).toNat := by
        have := congrArg VirtqueueDesc.next hc'.desc1
        rw [← show _ = BitVec.ofNat 16 req.d2 from this]
        simp [VirtioQueue.store, VirtioQueue.setDesc]
      have hm₂ : req.d2 ∈ f.held := by simp [hheld, VirtioBlkReq.descs]
      have hl₂ : req.d2 < s.blk.vq.len :=
        List.mem_range.mp <| hp.mem_iff.mp <| List.mem_append_left _ <| List.mem_append_right _ hm₂
      have hlt : ∀ d ∈ is, d < s.blk.vq.len := fun d hd =>
        List.mem_range.mp <| hp.mem_iff.mp <| List.mem_append_left _ <| List.mem_append_left _ hd
      have hle := hfree.freeIdx_le hlt
      rw [BitVec.toNat_ofNat, BitVec.toNat_ofNat, hnext] at hd
      simp only [queueMaxSize] at hmax
      have hfd : s.blk.vq.freeIdx = req.d2 := by omega
      cases is
      case nil => exact absurd (Option.some.inj hfree) <| by omega
      case cons d is =>
        have hd : s.blk.vq.freeIdx = d := Option.some.inj hfree.1
        exact (List.nodup_append.mp (List.nodup_append.mp hn).1).2.2 d (.head _) req.d2 hm₂ <| hd.symm.trans hfd
    case right =>
      intro hc f' hf' hs hw
      rw [hf] at hf'
      obtain rfl | hf' := mem_middle.mp hf'
      case inl => exact (Flight.sent_of_clears hc).1 hw
      case inr => exact m.pending f' (mem_middle.mpr <| .inr hf') hw hs <| Flight.step_of_clears hc
  all_goals trivial

end Good

end System

namespace System

-- The steps, and whether they meet the condition, can be computed.

def exec (s : System) : Action → Option System
  | .call addr buf type =>
    if s.flights.all fun f => f.addr ≠ addr then
      some { s with flights := s.flights ++ [{ addr, buf, type, pc := .check [], status := none }] }
    else
      none
  | .move k undefined   => s.flights[k]?.map fun f => {
      blk     := (f.step s.blk undefined).1
      flights := s.flights.take k ++ (f.step s.blk undefined).2 :: s.flights.drop (k + 1) }
  | .complete k status  => (s.flights[k]?.filter fun f => f.sent?.isSome && f.status.isNone).map fun f => {
      blk := {
        vq              := { s.blk.vq with usedIdx := s.blk.vq.usedIdx + 1 }
        interruptStatus := s.blk.interruptStatus ||| 1 }
      flights := s.flights.take k ++ { f with status := some status } :: s.flights.drop (k + 1) }

variable {s s' : System} {a : Action} {k : Nat}

theorem eq_take_drop (h : s.flights[k]? = some f) :
    s.flights = s.flights.take k ++ f :: s.flights.drop (k + 1) ∧ k = (s.flights.take k).length := by
  obtain ⟨hk, rfl⟩ := List.getElem?_eq_some_iff.mp h
  exact ⟨by rw [List.getElem_cons_drop, List.take_append_drop], by simp [hk.le]⟩

theorem Step.of_exec (h : s.exec a = some s') : Step s a s' := by
  cases a
  case call addr buf type =>
    simp only [exec] at h
    split_ifs at h with ha
    cases h
    exact .call fun f hf he => absurd he <| by simpa using List.all_eq_true.mp ha f hf
  case move k undefined =>
    obtain ⟨f, hf, rfl⟩ := Option.map_eq_some_iff.mp h
    obtain ⟨he, hk⟩ := eq_take_drop hf
    have := @Step.move s _ f _ undefined he
    rwa [← hk] at this
  case complete k status =>
    obtain ⟨f, hf, rfl⟩ := Option.map_eq_some_iff.mp h
    obtain ⟨hf, hc⟩ := Option.filter_eq_some_iff.mp hf
    rw [Bool.and_eq_true, Option.isNone_iff_eq_none] at hc
    obtain ⟨he, hk⟩ := eq_take_drop hf
    have := @Step.complete s _ f _ status he hc.1 hc.2
    rwa [← hk] at this

end System

def moves (k n : Nat) : List Action :=
  .replicate n (.move k 7)

end Zgmos.Virtio
