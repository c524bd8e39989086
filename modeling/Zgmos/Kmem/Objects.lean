import Zgmos.Kmem.Slab
import Zgmos.Lib.Run

namespace Zgmos.Kmem

namespace Slab

variable {slab slab' : Slab} {w w' : Words} {live fl s t : List Nat} {a b k n ret : Nat}

@[simp]
theorem getNext_ok (h : slab.Inside a) : slab.getNext w a = .ok (w a) :=
  if_pos h

@[simp]
theorem setNext_ok (h : slab.Inside a) : slab.setNext w a b = .ok (Function.update w a b) :=
  if_pos h

-- The loop links the places from `a` on.
theorem linkObjs_spec (h : slab.Shape) (ha : slab.Place a) (hn : slab.pg + slab.bytes ≤ a + n) :
    ∃ w' fl, linkObjs slab n a w = .ok w' ∧ (∀ b, ¬(slab.Place b ∧ a ≤ b) → w' b = w b) ∧
      Chain (link w') (some a) fl ∧ fl.Pairwise (· < ·) ∧ ∀ b, b ∈ fl ↔ slab.Place b ∧ a ≤ b := by
  have hs := h.size
  have hlt : ∀ {b}, slab.Place b → b < slab.pg + slab.bytes := fun hb => by
    have := (h.place_inside hb).2
    omega
  induction n generalizing a w
  case zero => exact absurd (hlt ha) (by omega)
  case succ n hi =>
    have hin := h.place_inside ha
    by_cases hl : a + slab.sizeObj < slab.pg + slab.bytes
    case pos =>
      have ⟨w', fl, hr, hf, hc, hd, hm⟩ := hi (w := Function.update w a <| a + slab.sizeObj) (Shape.place_succ ha hl)
        (by omega)
      have hw : w' a = a + slab.sizeObj := by
        rw [hf a (by omega)]
        exact Function.update_self ..
      refine ⟨w', a :: fl, ?_, fun b hb => ?_, ⟨rfl, ?_⟩, ?_, fun b => ?_⟩
      case refine_1 => rw [linkObjs, if_pos hl, setNext_ok hin]; exact hr
      case refine_2 =>
        have hne : b ≠ a := fun he => hb <| by rw [he]; exact ⟨ha, le_rfl⟩
        rw [hf b fun ⟨hp, hle⟩ => hb ⟨hp, by omega⟩]
        exact Function.update_of_ne hne ..
      case refine_3 => rwa [link, hw, ptr_of_ne (by omega)]
      case refine_4 => exact List.pairwise_cons.mpr ⟨fun b hb => by have := (hm b).mp hb; omega, hd⟩
      case refine_5 =>
        rw [List.mem_cons, hm]
        constructor
        case mp =>
          intro hb
          cases hb
          case inl he => rw [he]; exact ⟨ha, le_rfl⟩
          case inr hb => exact ⟨hb.1, by omega⟩
        case mpr =>
          intro ⟨hb, hle⟩
          cases Nat.eq_or_lt_of_le hle
          case inl he => exact .inl he.symm
          case inr hl => exact .inr ⟨hb, Shape.obj_apart ha hb hl⟩
    case neg =>
      refine ⟨_, [a], by rw [linkObjs, if_neg hl, setNext_ok hin], fun b hb => ?_, ⟨rfl, by simp [link, ptr]⟩,
        List.pairwise_singleton .., fun b => ?_⟩
      case refine_1 => exact Function.update_of_ne (fun he => hb <| by rw [he]; exact ⟨ha, le_rfl⟩) ..
      case refine_2 =>
        rw [List.mem_singleton]
        constructor
        case mp  => exact fun he => by rw [he]; exact ⟨ha, le_rfl⟩
        case mpr =>
          intro ⟨hb, hle⟩
          by_contra hne
          have := Shape.obj_apart ha hb (by omega)
          have := hlt hb
          omega

-- A new slab has no live object.
theorem slabCreateEx_spec {pageAddr sizeObj : Nat} (order : Nat) (hp : 0 < pageAddr) (hs : 0 < sizeObj) (hd : 8 ∣ sizeObj)
    (w : Words) : ∃ slab w', slabCreateEx w pageAddr sizeObj order = .ok (slab, w') ∧ slab.Sound w' [] ∧
      slab.pg = pageAddr ∧ slab.sizeObj = sizeObj ∧ slab.order = order ∧ ∀ a, ¬slab.Place a → w' a = w a := by
  let slab : Slab := {
    pg       := pageAddr
    objs     := pageAddr
    sizeObj  := sizeObj
    freeObj  := 2 ^ order * pageSize / sizeObj
    totalObj := 2 ^ order * pageSize / sizeObj
    order    := order
  }
  have h : slab.Shape := { pg := hp, size := hs, dvd := hd, total := by simp only [slab, bytes, Nat.mul_comm] }
  have h₀ : slab.Place pageAddr := ⟨0, by simp [bytes, pageSize], by simp [slab]⟩
  obtain ⟨w', fl, hr, hf, hc, hd, hm⟩ := linkObjs_spec (n := slab.bytes) (w := w) h h₀ le_rfl
  have hge : ∀ {a}, slab.Place a → pageAddr ≤ a := fun ha => by
    obtain ⟨k, _, he⟩ := ha
    exact he ▸ Nat.le_add_right ..
  refine ⟨slab, w', by simp only [slabCreateEx, bind, Except.bind, slab, hr]; rfl, ?_, rfl, rfl, rfl, ?_⟩
  case refine_2 => exact fun a ha => hf a fun h => ha h.1
  case refine_1 =>
    refine { h with list := ⟨fl, ?_, hd, fun a => ?_⟩, obj := by simp, nodup := List.nodup_nil, count := rfl }
    case refine_1 => rwa [ptr_of_ne hp.ne']
    case refine_2 =>
      rw [hm]
      exact ⟨fun h => ⟨h.1, List.not_mem_nil⟩, fun h => ⟨h.1, hge h.1⟩⟩

-- Words which are not links do not matter.
theorem Sound.congr (h : slab.Sound w live) (he : ∀ a, slab.Place a → a ∉ live → w' a = w a) : slab.Sound w' live := by
  have ⟨fl, hc, hd, hm⟩ := h.list
  refine { h with list := ⟨fl, hc.congr fun a ha => ?_, hd, hm⟩ }
  have ⟨hp, hl⟩ := (hm a).mp ha
  simp only [link, he a hp hl]

-- What an allocation that returns an object does.
structure Hands (slab slab' : Slab) (w : Words) (live : List Nat) (ret : Nat) : Prop where
  sound : slab'.Sound w (ret :: live)
  obj   : slab.Obj ret
  free  : ret ∉ live
  least : ∀ b, slab.Obj b → b ∉ live → ret ≤ b
  eq    : slab' = { slab with objs := w ret, freeObj := slab.freeObj - 1 }
  head  : slab.objs = ret
  next  : w ret = 0 ∨ ret < w ret

theorem slabAlloc_full (h : slab.Sound w live) (hl : live.length = slab.totalObj) :
    slabAlloc slab w = .ok (0, slab) := by
  have := h.count
  rw [slabAlloc, if_neg (by omega)]
  rfl

theorem slabAlloc_spec (h : slab.Sound w live) (hl : live.length < slab.totalObj) :
    ∃ ret slab', slabAlloc slab w = .ok (ret, slab') ∧ Hands slab slab' w live ret := by
  have hcnt := h.count
  have ⟨fl, hc, hd, hm⟩ := h.list
  have ⟨b, hb, hbl⟩ := h.exists_obj hl
  have hb' := (hm b).mpr ⟨h.place_of_obj hb, hbl⟩
  cases fl
  case nil => cases hb'
  case cons ret fl =>
    have ⟨ho, hc⟩ := hc
    have ho := (ptr_eq_some.mp ho).1
    have ⟨hp, hrl⟩ := (hm ret).mp List.mem_cons_self
    -- The first place lies before a free object.
    have hle : ∀ {b}, b ∈ ret :: fl → ret ≤ b := fun {b} hb => by
      cases hb
      case head    => exact le_rfl
      case tail hb => exact (List.rel_of_pairwise_cons hd hb).le
    have hobj := h.obj_of_le hp hb <| hle hb'
    have hret : ret ∉ fl := fun hr => (List.rel_of_pairwise_cons hd hr).false
    refine ⟨ret, { slab with objs := w ret, freeObj := slab.freeObj - 1 }, ?_, ?_⟩
    case refine_1 =>
      have hg : slab.getNext w ret = .ok (w ret) := getNext_ok <| h.place_inside hp
      rw [slabAlloc, if_pos (by omega)]
      simp only [ho, hg, bind, Except.bind]
      rfl
    case refine_2 =>
      constructor
      case obj   => exact hobj
      case free  => exact hrl
      case least => exact fun _ hb hbl => hle <| (hm _).mpr ⟨h.place_of_obj hb, hbl⟩
      case eq    => rfl
      case head  => exact ho
      case next  =>
        cases fl
        case nil    => exact .inl <| ptr_eq_none.mp hc
        case cons c fl =>
          rw [(ptr_eq_some.mp hc.1).1]
          exact .inr <| List.rel_of_pairwise_cons hd List.mem_cons_self
      case sound =>
        constructor
        case toShape => exact { pg := h.pg, size := h.size, dvd := h.dvd, total := h.total }
        case nodup   => exact List.nodup_cons.mpr ⟨hrl, h.nodup⟩
        case count   =>
          have : (ret :: live).length = live.length + 1 := rfl
          simp only [this]
          omega
        case obj     =>
          intro a ha
          cases ha
          case head    => exact hobj
          case tail ha => exact h.obj a ha
        case list    =>
          refine ⟨fl, hc, (List.pairwise_cons.mp hd).2, fun a => ?_⟩
          have hma := hm a
          rw [List.mem_cons] at hma
          show a ∈ fl ↔ slab.Place a ∧ a ∉ ret :: live
          rw [List.mem_cons, not_or]
          constructor
          case mp  =>
            intro ha
            have ⟨hp, hal⟩ := hma.mp <| .inr ha
            exact ⟨hp, fun he => hret <| he ▸ ha, hal⟩
          case mpr => exact fun ⟨hp, hne, hal⟩ => (hma.mpr ⟨hp, hal⟩).resolve_left hne

-- The release of an object right behind its allocation restores the slab and the words.
theorem Hands.undo (hh : Hands slab slab' w live ret) (h : slab.Sound w live) : slabFree slab' w ret = .ok (slab, w) := by
  have hin := h.place_inside <| h.place_of_obj hh.obj
  have hfree : slab.freeObj - 1 + 1 = slab.freeObj := by
    have hc := hh.sound.count
    have := h.count
    simp only [hh.eq, List.length_cons] at hc
    omega
  have hin' : slab'.Inside ret := by
    rw [hh.eq]
    exact hin
  have hslab : { slab' with objs := ret, freeObj := slab'.freeObj + 1 } = slab := by
    rw [hh.eq, ← hh.head]
    simp only [hfree]
  have hobjs : slab'.objs = w ret := by rw [hh.eq]
  by_cases h₀ : w ret = 0
  case pos =>
    rw [slabFree, if_pos (hobjs.trans h₀), setNext_ok hin', hslab, Function.update_eq_self_iff.mpr h₀.symm]
    rfl
  case neg =>
    have hl : ret < slab'.objs := hobjs ▸ hh.next.resolve_left h₀
    rw [slabFree, if_neg (hobjs ▸ h₀), if_pos hl, setNext_ok hin', hslab, hobjs, Function.update_eq_self]
    rfl

theorem length_lt (h : slab.Sound w live) (hd : fl.Pairwise (· < ·)) (hm : ∀ a ∈ fl, slab.Place a) :
    fl.length < slab.bytes := by
  have hn : fl.Nodup := hd.imp Nat.ne_of_lt
  have hs : fl.Subperm (List.range' slab.pg (slab.bytes - 1)) := hn.subperm fun a ha => by
    have ⟨h₁, h₂⟩ := h.place_inside <| hm a ha
    rw [List.mem_range'_1]
    omega
  have := hs.length_le
  have hb : 0 < slab.bytes := by simp [bytes, pageSize]
  rw [List.length_range'] at this
  omega

-- The search ends between the places before and behind the object.
theorem seekObj_spec {p q : Nat} (a : Nat) (hc : Chain (link w) (ptr p) fl) (hi : ∀ b ∈ fl, slab.Inside b)
    (hn : fl.length < n) (hd : fl.Pairwise (· < ·)) :
    ∃ s t, fl = s ++ t ∧ (∀ b ∈ s, b < a) ∧ (∀ b ∈ t, a ≤ b) ∧
      seekObj slab w a n q p = .ok (s.getLastD q, t.headD 0) := by
  induction fl generalizing p q n
  all_goals cases n
  case nil.zero | cons.zero => contradiction
  case nil.succ n =>
    have hp : p = 0 := ptr_eq_none.mp hc
    exact ⟨[], [], rfl, by simp, by simp, by simp [seekObj, hp, pure, Except.pure]⟩
  case cons.succ b fl hi' n =>
    have ⟨hb, hc⟩ := hc
    have ⟨hp, hb⟩ := ptr_eq_some.mp hb
    subst hp
    by_cases hl : p < a
    case neg =>
      refine ⟨[], p :: fl, rfl, by simp, fun c hc => ?_, by simp [seekObj, hl, pure, Except.pure]⟩
      cases hc
      case head    => omega
      case tail hc => have := List.rel_of_pairwise_cons hd hc; omega
    case pos =>
      have hn : fl.length < n := Nat.lt_of_succ_lt_succ hn
      have ⟨s, t, he, hs, ht, hr⟩ := hi' (p := w p) (q := p) hc (fun c hc => hi c <| .tail _ hc) hn
        (List.pairwise_cons.mp hd).2
      refine ⟨p :: s, t, by rw [he]; rfl, ?_, ht, ?_⟩
      case refine_1 => simpa [hl] using hs
      case refine_2 =>
        rw [seekObj, if_pos ⟨hb, hl⟩, getNext_ok <| hi p List.mem_cons_self]
        exact hr.trans <| by cases s <;> rfl

-- What a release of a live object does.
structure Takes (slab slab' : Slab) (w w' : Words) (live : List Nat) (a : Nat) : Prop where
  sound : slab'.Sound w' (live.erase a)
  eq    : slab' = { slab with objs := slab'.objs, freeObj := slab.freeObj + 1 }
  -- Only the links of the object and of a place before it are written.
  frame : ∀ b, b ≠ a → (slab.Place b → b ∈ live) → w' b = w b

-- The place of a live object is put to the list.
theorem Sound.put {objs : Nat} (h : slab.Sound w live) (ha : a ∈ live) (hf : ∀ x, x ∈ s ++ t ↔ slab.Place x ∧ x ∉ live)
    (hd : (s ++ t).Pairwise (· < ·)) (hs : ∀ b ∈ s, b < a) (ht : ∀ b ∈ t, a ≤ b)
    (hc : Chain (link w') (ptr objs) (s ++ a :: t)) :
    { slab with objs, freeObj := slab.freeObj + 1 : Slab }.Sound w' (live.erase a) where
  toShape := { pg := h.pg, size := h.size, dvd := h.dvd, total := h.total }
  nodup   := h.nodup.erase a
  obj b hb := h.obj b <| List.mem_of_mem_erase hb
  count   := by
    have := h.count
    have := List.length_erase_of_mem ha
    have := List.length_pos_of_mem ha
    dsimp only
    omega
  list    := by
    have ⟨hds, hdt, hst⟩ := List.pairwise_append.mp hd
    have hat : ∀ b ∈ t, a < b := fun b hb => by
      have hne : a ≠ b := fun he => ((hf b).mp <| List.mem_append_right _ hb).2 <| he ▸ ha
      have := ht b hb
      omega
    refine ⟨s ++ a :: t, hc, List.pairwise_append.mpr ⟨hds, List.pairwise_cons.mpr ⟨hat, hdt⟩, ?_⟩, fun x => ?_⟩
    case refine_1 =>
      intro b hb c hc
      cases hc
      case head    => exact hs b hb
      case tail hc => exact hst b hb c hc
    case refine_2 =>
      have hx : x ∈ s ++ a :: t ↔ x = a ∨ x ∈ s ++ t := by simp [or_left_comm]
      show x ∈ s ++ a :: t ↔ slab.Place x ∧ x ∉ live.erase a
      rw [hx, hf, h.nodup.mem_erase_iff, not_and]
      by_cases he : x = a
      case neg => simp [he]
      case pos => simpa [he] using h.place_of_obj <| h.obj a ha

theorem slabFree_spec (h : slab.Sound w live) (ha : a ∈ live) :
    ∃ slab' w', slabFree slab w a = .ok (slab', w') ∧ Takes slab slab' w w' live a := by
  obtain ⟨fl, hc, hd, hm⟩ := h.list
  have hpa := h.place_of_obj <| h.obj a ha
  have hia := h.place_inside hpa
  have hafl : a ∉ fl := fun hf => ((hm a).mp hf).2 ha
  have ha₀ := h.place_pos hpa
  have hframe (x b : Nat) (hb : b ≠ a) : Function.update w a x b = w b := Function.update_of_ne hb ..
  have hcongr (x : Nat) (q : Option Nat) (hc : Chain (link w) q fl) : Chain (link <| Function.update w a x) q fl :=
    hc.congr fun b hb => by rw [link, hframe x b <| ne_of_mem_of_not_mem hb hafl, link]
  by_cases h₀ : slab.objs = 0
  case pos =>
    have hfl : fl = [] := by
      rw [h₀, ptr_zero] at hc
      cases fl
      case nil  => rfl
      case cons => cases hc.1
    subst hfl
    refine ⟨_, _, by rw [slabFree, if_pos h₀, setNext_ok hia]; rfl, ?_, rfl, fun b hb _ => hframe _ b hb⟩
    exact h.put (s := []) (t := []) ha hm hd (by simp) (by simp) ⟨ptr_of_ne (by omega), by simp [link, ptr]⟩
  case neg =>
    by_cases hl : a < slab.objs
    case pos =>
      have ht : ∀ b ∈ fl, a ≤ b := fun b hb => by
        cases fl
        case nil => cases hb
        case cons c fl =>
          have := (ptr_eq_some.mp hc.1).1
          cases hb
          case head    => omega
          case tail hb => have := List.rel_of_pairwise_cons hd hb; omega
      refine ⟨_, _, by rw [slabFree, if_neg h₀, if_pos hl, setNext_ok hia]; rfl, ?_, rfl,
        fun b hb _ => hframe _ b hb⟩
      refine h.put (s := []) ha hm hd (by simp) ht ⟨ptr_of_ne (by omega), ?_⟩
      rw [link, Function.update_self]
      exact hcongr _ _ hc
    case neg =>
      have hlen := length_lt h hd fun b hb => ((hm b).mp hb).1
      have hin : ∀ b ∈ fl, slab.Inside b := fun b hb => h.place_inside ((hm b).mp hb).1
      obtain ⟨s, t, he, hs, ht, hr⟩ := seekObj_spec (q := 0) a hc hin hlen hd
      subst he
      -- The first place lies before the object.
      obtain rfl | ⟨s, j, rfl⟩ := s.eq_nil_or_concat
      case inl =>
        cases t
        case nil => exact absurd (ptr_eq_none.mp hc) h₀
        case cons c t =>
          have := (ptr_eq_some.mp hc.1).1
          have := ht c List.mem_cons_self
          exact absurd (show c = a by omega) fun he => hafl <| by simp [he]
      case inr =>
        have hj : j ∈ s.concat j ++ t := by simp
        have hja : j < a := hs j (by simp)
        have hlast : (s.concat j).getLastD 0 = j := by simp
        rw [hlast] at hr
        have hl' : s.concat j ++ t = s ++ j :: t := by simp
        rw [hl'] at hc hafl hcongr
        have hjt : link w j = ptr (t.headD 0) := by
          have := (Segment.split hc).2
          cases t
          case nil  => exact this
          case cons c t =>
            have hcp := h.place_pos ((hm c).mp <| by simp).1
            rw [this.1, List.headD_cons, ptr_of_ne (by omega)]
        refine ⟨{ slab with freeObj := slab.freeObj + 1 }, Function.update (Function.update w a (t.headD 0)) j a,
          ?_, ?_, rfl, fun b hb hp => ?_⟩
        case refine_1 =>
          rw [slabFree, if_neg h₀, if_neg hl, hr]
          simp only [bind, Except.bind, setNext_ok hia, setNext_ok (hin j hj)]
          rfl
        case refine_2 =>
          refine h.put (s := s ++ [j]) (t := t) ha (by simpa using hm) (by simpa using hd) (by simpa using hs) ht ?_
          rw [List.append_assoc]
          apply hc.insert_after
          case ha => rw [link, Function.update_self, ptr_of_ne (by omega)]
          case hb => rw [link, Function.update_of_ne (by omega), Function.update_self, hjt]
          case he =>
            intro x hx
            have hxa : x ≠ a := fun he => hafl <| by rw [← he]; simp at hx ⊢; tauto
            have hxj : x ≠ j := by
              have := hc.nodup
              grind
            rw [link, Function.update_of_ne hxj, hframe _ _ hxa, link]
        case refine_3 =>
          have hbj : b ≠ j := fun he => by
            subst he
            have := (hm b).mp hj
            exact this.2 <| hp this.1
          rw [Function.update_of_ne hbj, hframe _ _ hb]

end Slab

end Zgmos.Kmem
