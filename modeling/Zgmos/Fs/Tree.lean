import Zgmos.Fs.Vfs

namespace Zgmos.Fs

variable {Obj : Type}

namespace Vfs

-- What `vfs_span_search` makes out of the objects of a directory.
def grow (vfs : Vfs Obj) (bkd : Backend Obj) (node : Node) (objs : List Obj) : Vfs Obj where
  next    := vfs.next + objs.length
  nodes i :=
    if i = node then { vfs.nodes node with
      children := (List.range' vfs.next objs.length).reverse ++ (vfs.nodes node).children
      childCnt := (vfs.nodes node).childCnt + objs.length }
    else if i < vfs.next then
      vfs.nodes i
    else
      (objs[i - vfs.next]?).elim (vfs.nodes i) <| (vfs.nodes i).add bkd node

-- The last object with the name. The first one has the vnode `child`.
def lastNamed (bkd : Backend Obj) (name : Option Name) : (child : Node) → List Obj → Option Node → Option Node
  | _,     [],          ret => ret
  | child, obj :: objs, ret =>
    lastNamed bkd name (child + 1) objs <| if name = some (bkd.name obj) then some child else ret

variable {vfs vfs' : Vfs Obj} {bkd : Backend Obj} {node i : Nat} {name : Option Name} {objs : List Obj}
  {ret : Option Node}

theorem grow_nil : vfs.grow bkd node [] = vfs := by
  have : (vfs.grow bkd node []).nodes = vfs.nodes := by
    funext i
    by_cases hi : i = node <;> simp [grow, hi]
  simp [grow] at this ⊢
  rw [this]

theorem span_eq (hb : (vfs.nodes node).bkd = some bkd) (hn : node < vfs.next) :
    span node name objs ret vfs = .ok (lastNamed bkd name vfs.next objs ret, vfs.grow bkd node objs) := by
  induction objs generalizing vfs ret
  case nil => rw [grow_nil]; rfl
  case cons obj objs hi =>
    have hne : node ≠ vfs.next := hn.ne
    have hv : vnodeAdd { vfs with next := vfs.next + 1 } vfs.next node obj = .ok (setNode (setNode
        { vfs with next := vfs.next + 1 } node fun n => { n with children := vfs.next :: n.children })
        vfs.next (·.add bkd node obj)) := by
      simp only [vnodeAdd, hb]
      rfl
    have hg : grow (setNode (setNode (setNode { vfs with next := vfs.next + 1 } node
        fun n => { n with children := vfs.next :: n.children }) vfs.next (·.add bkd node obj)) node
        fun n => { n with childCnt := n.childCnt + 1 }) bkd node objs = vfs.grow bkd node (obj :: objs) := by
      simp only [grow, Vfs.mk.injEq, List.length_cons, setNode]
      refine ⟨funext fun (i : Nat) => ?_, by omega⟩
      by_cases hi : i = node
      case pos => simp [hi, hne, List.range'_succ, Int.add_right_comm, ← Int.add_assoc]
      case neg =>
        cases Nat.lt_trichotomy i vfs.next
        case inl h => simp [hi, h, h.ne, Nat.lt_succ_of_lt h]
        case inr h =>
          cases h
          case inl h => simp [h, hne.symm]
          case inr h =>
            have hs : i - vfs.next = i - (vfs.next + 1) + 1 := by omega
            simp [hi, h.ne', h.not_gt, hs, show ¬i < vfs.next + 1 by omega]
    rw [span]
    simp only [hv, bind, Except.bind]
    rw [hi, hg]
    case hb => simp [setNode, hne, hb]
    case hn => exact Nat.lt_succ_of_lt hn
    simp [lastNamed, setNode, hne.symm, Vnode.add]

-- The vnodes point to each other only, and a directory which has not been spanned yet has a backend.
structure Tree (vfs : Vfs Obj) : Prop where
  root     : 0 < vfs.next
  parent   : ∀ i < vfs.next, (vfs.nodes i).parent < vfs.next
  children : ∀ i < vfs.next, ∀ c ∈ (vfs.nodes i).children, c < vfs.next
  backed   : ∀ i < vfs.next, (vfs.nodes i).type.isDir → ¬vfs.isSpaned i →
    ∃ bkd, (vfs.nodes i).bkd = some bkd ∧ bkd.Iterates (vfs.nodes i).lfsObj

-- Nothing but the children of a vnode changes.
structure Extends (vfs vfs' : Vfs Obj) : Prop where
  next  : vfs.next ≤ vfs'.next
  nodes : ∀ i < vfs.next, ∃ cs cnt,
    vfs'.nodes i = { vfs.nodes i with children := cs, childCnt := cnt }
  -- Also in the memory that is not allocated yet.
  refs  : ∀ i, (vfs'.nodes i).refCnt = (vfs.nodes i).refCnt

theorem Extends.refl : vfs.Extends vfs where
  next  := Nat.le_refl _
  nodes := fun _ _ => ⟨_, _, rfl⟩
  refs  := fun _ => rfl

theorem Extends.trans {vfs'' : Vfs Obj} (e : vfs.Extends vfs') (e' : vfs'.Extends vfs'') : vfs.Extends vfs'' where
  next  := e.next.trans e'.next
  nodes := fun i hi => by
    have ⟨_, _, h⟩ := e.nodes i hi
    have ⟨cs, cnt, h'⟩ := e'.nodes i <| hi.trans_le e.next
    exact ⟨cs, cnt, by rw [h', h]⟩
  refs  := fun i => (e'.refs i).trans (e.refs i)

theorem extends_grow (hn : node < vfs.next) : vfs.Extends (vfs.grow bkd node objs) where
  next  := Nat.le_add_right ..
  nodes := fun i hi => by
    by_cases he : i = node
    case pos => subst he; exact ⟨_, _, if_pos rfl⟩
    case neg => exact ⟨_, _, by simp only [grow, if_neg he, if_pos hi]; rfl⟩
  refs  := fun i => by
    simp only [grow]
    split_ifs
    case pos h => rw [h]
    case pos   => rfl
    case neg   => cases objs[i - vfs.next]? <;> rfl

-- The vnode of an object.
theorem grow_child {k : Nat} (hn : node < vfs.next) (hk : k < objs.length) :
    (vfs.grow bkd node objs).nodes (vfs.next + k) = (vfs.nodes <| vfs.next + k).add bkd node objs[k] := by
  have h₁ : vfs.next + k ≠ node := by omega
  have h₂ : ¬vfs.next + k < vfs.next := by omega
  simp only [grow, if_neg h₁, if_neg h₂, Nat.add_sub_cancel_left, List.getElem?_eq_getElem hk, Option.elim_some]

theorem Tree.grow (t : vfs.Tree) (hn : node < vfs.next) (hs : vfs.isSpaned node)
    (h : ∀ obj ∈ objs, (bkd.type obj).isDir → bkd.Iterates obj) :
    (vfs.grow bkd node objs).Tree := by
  have hnext : vfs.next ≤ (vfs.grow bkd node objs).next := (extends_grow hn).next
  have hcases (i : Nat) (hi : i < (vfs.grow bkd node objs).next) :
      i = node ∨ i < vfs.next ∧ (vfs.grow bkd node objs).nodes i = vfs.nodes i ∨
      ∃ obj ∈ objs, (vfs.grow bkd node objs).nodes i = (vfs.nodes i).add bkd node obj := by
    cases Nat.lt_or_ge i vfs.next
    case inl hl =>
      by_cases he : i = node
      case pos => exact .inl he
      case neg => exact .inr <| .inl ⟨hl, by simp only [Vfs.grow, if_neg he, if_pos hl]⟩
    case inr hl =>
      have ⟨k, hk⟩ := Nat.exists_eq_add_of_le hl
      have hlen : k < objs.length := Nat.lt_of_add_lt_add_left <| hk ▸ hi
      exact .inr <| .inr ⟨objs[k], List.getElem_mem _, hk ▸ grow_child hn hlen⟩
  have hnode : (vfs.grow bkd node objs).nodes node = { vfs.nodes node with
      children := (List.range' vfs.next objs.length).reverse ++ (vfs.nodes node).children
      childCnt := (vfs.nodes node).childCnt + objs.length } := if_pos rfl
  constructor
  case root => exact t.root.trans_le hnext
  case parent =>
    intro i hi
    obtain he | ⟨hl, he⟩ | ⟨obj, _, he⟩ := hcases i hi
    case inl     => rw [he, hnode]; exact (t.parent node hn).trans_le hnext
    case inr.inl => rw [he]; exact (t.parent i hl).trans_le hnext
    case inr.inr => rw [he]; exact hn.trans_le hnext
  case children =>
    intro i hi c hc
    obtain he | ⟨hl, he⟩ | ⟨obj, _, he⟩ := hcases i hi
    case inl =>
      rw [he, hnode, List.mem_append, List.mem_reverse, List.mem_range'_1] at hc
      cases hc
      case inl hc => exact hc.2
      case inr hc => exact (t.children node hn c hc).trans_le hnext
    case inr.inl => rw [he] at hc; exact (t.children i hl c hc).trans_le hnext
    case inr.inr => rw [he] at hc; nomatch hc
  case backed =>
    intro i hi hd hc
    obtain he | ⟨hl, he⟩ | ⟨obj, hm, he⟩ := hcases i hi
    case inl =>
      simp only [isSpaned, he, hnode, decide_eq_true_eq] at hc hs
      omega
    case inr.inl =>
      simp only [isSpaned, he] at hd hc ⊢
      exact t.backed i hl hd hc
    case inr.inr =>
      rw [he] at hd ⊢
      exact ⟨bkd, rfl, h obj hm hd⟩

theorem Tree.setSpaned (t : vfs.Tree) : (vfs.setNode node ({ · with childCnt := 0 })).Tree := by
  have hc (i : Nat) : (vfs.setNode node ({ · with childCnt := 0 })).nodes i =
      if i = node then { vfs.nodes i with childCnt := 0 } else vfs.nodes i := by
    by_cases hi : i = node <;> simp [setNode, hi]
  constructor
  case root     => exact t.root
  case parent   => intro i hi; rw [hc]; split_ifs <;> exact t.parent i hi
  case children => intro i hi; rw [hc]; split_ifs <;> exact t.children i hi
  case backed   =>
    intro i hi
    simp only [isSpaned, hc]
    split_ifs
    case pos => exact fun _ h => absurd (by simp) h
    case neg => exact t.backed i hi

theorem lastNamed_lt {child n : Nat} (hr : ∀ r ∈ ret, r < n) (hn : child + objs.length ≤ n) :
    ∀ r ∈ lastNamed bkd name child objs ret, r < n := by
  induction objs generalizing child ret
  case nil => exact hr
  case cons obj objs hi =>
    simp only [List.length_cons] at hn
    have hc : child < n := by omega
    refine hi ?_ <| by omega
    intro r hm
    split_ifs at hm
    case pos => exact Option.some.inj hm ▸ hc
    case neg => exact hr r hm

theorem Tree.vfsSpanSearch (t : vfs.Tree) (hn : node < vfs.next) (hb : (vfs.nodes node).bkd = some bkd)
    (hi : bkd.Iterates (vfs.nodes node).lfsObj) : ∃ ret vfs', vfs.vfsSpanSearch node name = .ok (ret, vfs') ∧ vfs'.Tree ∧
      (∀ r ∈ ret, r < vfs'.next) ∧ vfs.Extends vfs' := by
  have ⟨objs, ho⟩ := hi _ .refl (.inl rfl)
  have hb' : ((vfs.setNode node ({ · with childCnt := 0 })).nodes node).bkd = some bkd := by simp [setNode, hb]
  refine ⟨_, _, by simp only [Vfs.vfsSpanSearch, hb, ho]; exact span_eq hb' hn, ?_, ?_, ?_⟩
  case refine_1 =>
    exact t.setSpaned.grow hn (by simp [isSpaned, setNode]) fun obj hm hd => hi.child ho hm hd
  case refine_2 => exact lastNamed_lt (by simp) <| Nat.le_refl _
  case refine_3 =>
    have e : vfs.Extends (vfs.setNode node ({ · with childCnt := 0 })) := by
      refine ⟨Nat.le_refl _, fun i _ => ?_, fun i => ?_⟩
      all_goals by_cases hi : i = node
      case pos => exact ⟨_, 0, by simp only [setNode, hi, Function.update_self]; rfl⟩
      case neg => exact ⟨_, _, by simp only [setNode, Function.update_of_ne hi]; rfl⟩
      case pos => simp [setNode, hi]
      case neg => simp [setNode, hi]
    exact e.trans <| extends_grow hn

theorem Tree.vfsGet {parent : Option Node} (t : vfs.Tree) (name : Name) (hp : ∀ p ∈ parent, p < vfs.next) :
    ∃ ret vfs', vfs.vfsGet parent name = .ok (ret, vfs') ∧ vfs'.Tree ∧ (∀ r ∈ ret, r < vfs'.next) ∧
      vfs.Extends vfs' := by
  have hn : parent.getD Fs.root < vfs.next := by
    cases parent
    case none   => exact t.root
    case some p => exact hp p rfl
  unfold Vfs.vfsGet
  generalize parent.getD Fs.root = p at hn
  by_cases hd : (vfs.nodes p).type.isDir
  case neg => exact ⟨none, vfs, by simp [hd]; rfl, t, by simp, .refl⟩
  simp only [hd, Bool.not_true, Bool.false_eq_true, if_false]
  split_ifs
  case pos => exact ⟨_, _, rfl, t, by simpa using hn, .refl⟩
  case pos => exact ⟨_, _, rfl, t, by simpa using t.parent p hn, .refl⟩
  case pos =>
    refine ⟨_, _, rfl, t, fun r hr => ?_, .refl⟩
    exact t.children p hn r <| List.mem_of_find?_eq_some hr
  case neg hs =>
    have ⟨_, hb, hi⟩ := t.backed p hn hd hs
    exact t.vfsSpanSearch hn hb hi

end Vfs

end Zgmos.Fs
