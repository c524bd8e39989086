import Zgmos.Fs.BlockPool
import Zgmos.Fs.Lookup

-- The folding of directories.

namespace Zgmos.Fs

variable {Obj : Type}

-- The vnodes with the memory of `kmalloc` in which they and their objects are. `objAddr` is the address of `lfs_obj`.
structure VnodeHeap (Obj : Type) where
  vfs     : Vfs Obj
  pool    : BlockPool
  objAddr : Node → Nat
  vnodes  : List Node
  objs    : List Nat

namespace VnodeHeap

section Functions

variable (s : VnodeHeap Obj)

-- `vfs->root` is not in the memory of `kmalloc`.
def check (node : Node) : Except Fault Unit :=
  if node = root ∨ node ∈ s.vnodes then return else throw .wildPointer

def kfreeNode (node : Node) : Except Fault (VnodeHeap Obj) :=
  if node ∈ s.vnodes then return { s with vnodes := s.vnodes.erase node } else throw .wildPointer

def kfreeObj (obj : Nat) : Except Fault (VnodeHeap Obj) :=
  if obj ∈ s.objs then return { s with objs := s.objs.erase obj } else throw .wildPointer

def setNode (node : Node) (f : Vnode Obj → Vnode Obj) : VnodeHeap Obj :=
  { s with vfs := s.vfs.setNode node f }

-- `pos->next` in the list of children of `node`.
def next (node pos : Node) : Option Node :=
  ((s.vfs.nodes node).children.dropWhile (· ≠ pos)).tail.head?

def unbufferAll (node : Node) : Except Fault (VnodeHeap Obj) :=
  return { s with pool := ← s.pool.vfsUnbufferAll node }

end Functions

-- `foldChildren` is the loop of `vfs_fold`, which is at the child `iter`.
mutual

def vfsFold : (fuel : Nat) → VnodeHeap Obj → Node → Except Fault (VnodeHeap Obj)
  | 0,        _, _    => throw .panic
  | fuel + 1, s, node => do
    s.check node
    let s ← foldChildren fuel s node (s.vfs.nodes node).children.head?
    return s.setNode node ({ · with childCnt := -1 })

def foldChildren : (fuel : Nat) → VnodeHeap Obj → Node → (iter : Option Node) → Except Fault (VnodeHeap Obj)
  | 0,        _, _,    _          => throw .panic
  | _ + 1,    s, _,    none       => return s
  | fuel + 1, s, node, some child => do
    s.check child
    let n := s.next node child
    let s ← if (s.vfs.nodes child).type = .dir ∧ s.vfs.isSpaned node then vfsFold fuel s child else pure s
    let s ← if (s.vfs.nodes child).type = .file then s.unbufferAll child else pure s
    let s ← s.kfreeObj (s.objAddr child)
    let s := s.setNode node fun n => { n with children := n.children.erase child }
    let s ← s.kfreeNode child
    foldChildren fuel s node n

end

end VnodeHeap

namespace Vfs

-- The vnodes under a vnode.
inductive Under (vfs : Vfs Obj) (node : Node) : Node → Prop
  | child {c} : c ∈ (vfs.nodes node).children → Under vfs node c
  | step {c d} : Under vfs node c → d ∈ (vfs.nodes c).children → Under vfs node d

-- A directory which has not been spanned has no children, and neither has a file.
def Foldable (vfs : Vfs Obj) (node : Node) : Prop :=
  ((vfs.nodes node).type = .file → (vfs.nodes node).children = []) ∧
    (¬vfs.isSpaned node → (vfs.nodes node).children = [])

-- The directories and files `ds` are those which the trees with the roots `cs` consist of, where each vnode comes after
-- those under it.
inductive Forest (vfs : Vfs Obj) : (cs ds : List Node) → Prop
  | nil  : Forest vfs [] []
  | cons {c cs ds es} : (vfs.nodes c).type = .dir ∨ (vfs.nodes c).type = .file → vfs.Foldable c →
    Forest vfs (vfs.nodes c).children ds → Forest vfs cs es → Forest vfs (c :: cs) (ds ++ c :: es)

end Vfs

namespace VnodeHeap

-- The blocks of the files among some vnodes.
def blocksOf (s : VnodeHeap Obj) (ds : List Node) : List Nat :=
  ds.flatMap fun d => if (s.vfs.nodes d).type = .file then (s.pool.bbf d).getD [] else []

-- The vnodes `ds` and their objects are allocated separately.
structure Allocated (s : VnodeHeap Obj) (ds : List Node) : Prop where
  nodup  : ds.Nodup
  vnodes : ∀ d ∈ ds, d ∈ s.vnodes
  single : (ds.map s.objAddr).Nodup
  objs   : ∀ d ∈ ds, s.objAddr d ∈ s.objs

-- The blocks are accounted for, and the files have lists of blocks.
structure Buffered (s : VnodeHeap Obj) (ds : List Node) : Prop where
  sound : s.pool.Sound
  bbf   : ∀ d ∈ ds, (s.vfs.nodes d).type = .file → (s.pool.bbf d).isSome

-- The vnodes `ds` under `node` are no more, and nothing else has changed.
structure Freed (s : VnodeHeap Obj) (node : Node) (ds : List Node) (s' : VnodeHeap Obj) : Prop where
  vnodes  : s'.vnodes = s.vnodes.diff ds
  objs    : s'.objs = s.objs.diff (ds.map s.objAddr)
  pool    : s.pool.Returned (s.blocksOf ds) s'.pool
  addrs   : s'.objAddr = s.objAddr
  next    : s'.vfs.next = s.vfs.next
  others  : ∀ i ∉ ds, i ≠ node → s'.vfs.nodes i = s.vfs.nodes i
  counted : s'.pool.Sound

variable {s s' s'' : VnodeHeap Obj} {node c d : Node} {cs ds es : List Node} {blk : Nat} {blks : List Nat}

theorem blocksOf_append : s.blocksOf (ds ++ es) = s.blocksOf ds ++ s.blocksOf es :=
  List.flatMap_append

theorem blocksOf_dir (h : (s.vfs.nodes c).type = .dir) : s.blocksOf [c] = [] := by
  simp [blocksOf, h]

theorem blocksOf_file (h : (s.vfs.nodes c).type = .file) : s.blocksOf [c] = (s.pool.bbf c).getD [] := by
  simp [blocksOf, h]

-- A block belongs to one vnode.
theorem node_mem_of_blocksOf (w : s.pool.Bound) (h : blk ∈ s.blocksOf ds) : (s.pool.blocks blk).node ∈ ds := by
  have ⟨d, hd, hb⟩ := List.mem_flatMap.mp h
  split at hb
  case isFalse => cases hb
  case isTrue  =>
    cases hs : s.pool.bbf d
    case none      => simp [hs] at hb
    case some blks =>
      rw [hs] at hb
      exact ((w d blks hs).2 blk hb).2.symm ▸ hd

theorem Allocated.left (h : s.Allocated (ds ++ es)) : s.Allocated ds where
  nodup  := (List.nodup_append.mp h.nodup).1
  vnodes := fun d hd => h.vnodes d <| List.mem_append_left _ hd
  single := (List.nodup_append.mp <| List.map_append ▸ h.single).1
  objs   := fun d hd => h.objs d <| List.mem_append_left _ hd

theorem Allocated.disjoint (h : s.Allocated (ds ++ es)) (he : d ∈ es) : d ∉ ds :=
  fun hd => (List.nodup_append.mp h.nodup).2.2 d hd d he rfl

theorem Buffered.left (h : s.Buffered (ds ++ es)) : s.Buffered ds where
  sound := h.sound
  bbf   := fun d hd => h.bbf d <| List.mem_append_left _ hd

theorem Buffered.right (h : s.Buffered (ds ++ es)) : s.Buffered es where
  sound := h.sound
  bbf   := fun d hd => h.bbf d <| List.mem_append_right _ hd

namespace Freed

theorem refl (w : s.pool.Sound) : s.Freed node [] s where
  vnodes  := rfl
  objs    := rfl
  pool    := .refl
  addrs   := rfl
  next    := rfl
  others  := fun _ _ _ => rfl
  counted := w

-- The other vnodes are still there.
theorem allocated (f : s.Freed node ds s') (h : s.Allocated (ds ++ es)) : s'.Allocated es where
  nodup  := (List.nodup_append.mp h.nodup).2.1
  vnodes := fun d hd => f.vnodes ▸ List.mem_diff_of_mem (h.vnodes d <| List.mem_append_right _ hd) (h.disjoint hd)
  single := f.addrs ▸ (List.nodup_append.mp <| List.map_append ▸ h.single).2.1
  objs   := fun d hd => by
    rw [f.objs, f.addrs]
    refine List.mem_diff_of_mem (h.objs d <| List.mem_append_right _ hd) fun hm => ?_
    exact (List.nodup_append.mp <| List.map_append ▸ h.single).2.2 _ hm _ (List.mem_map_of_mem hd) rfl

theorem buffered (f : s.Freed node ds s') (h : s.Buffered (ds ++ es)) (hd : ∀ d ∈ es, d ∉ ds) (hn : node ∉ es) :
    s'.Buffered es where
  sound := f.counted
  bbf   := fun d he ht => by
    rw [f.others d (hd d he) fun h => hn <| h ▸ he] at ht
    rw [f.pool.bbf, Option.isSome_map]
    exact h.bbf d (List.mem_append_right _ he) ht

-- Their blocks remain.
theorem blocksOf_eq (f : s.Freed node ds s') (w : s.pool.Bound) (hd : ∀ d ∈ es, d ∉ ds) (hn : node ∉ es) :
    s'.blocksOf es = s.blocksOf es := by
  refine List.flatMap_congr fun d he => ?_
  rw [f.others d (hd d he) fun h => hn <| h ▸ he, f.pool.bbf]
  split_ifs
  case neg => rfl
  case pos =>
    cases hs : s.pool.bbf d
    case none      => rfl
    case some blks =>
      have ⟨hnd, hm⟩ := w d blks hs
      simp only [Option.map_some, Option.getD_some, hnd.sdiff_eq_filter]
      refine List.filter_eq_self.mpr fun blk hb => decide_eq_true fun hb' => ?_
      exact hd d he <| (hm blk hb).2 ▸ node_mem_of_blocksOf w hb'

theorem append (f : s.Freed node ds s') (f' : s'.Freed node es s'') (w : s.pool.Bound) (hd : ∀ d ∈ es, d ∉ ds)
    (hn : node ∉ es) : s.Freed node (ds ++ es) s'' where
  vnodes  := by rw [f'.vnodes, f.vnodes, List.diff_append]
  objs    := by rw [f'.objs, f.objs, f.addrs, List.map_append, List.diff_append]
  pool    := by
    have hp := f'.pool
    rw [f.blocksOf_eq w hd hn] at hp
    rw [blocksOf_append]
    exact f.pool.append hp fun blk hb hb' => hd _ (node_mem_of_blocksOf w hb) <| node_mem_of_blocksOf w hb'
  addrs   := f'.addrs.trans f.addrs
  next    := f'.next.trans f.next
  others  := fun i hi hne => by
    have hi := mt List.mem_append.mpr hi
    rw [f'.others i (fun h => hi <| .inr h) hne, f.others i (fun h => hi <| .inl h) hne]
  counted := f'.counted

end Freed

theorem kfreeNode_eq (h : c ∈ s.vnodes) : s.kfreeNode c = .ok { s with vnodes := s.vnodes.erase c } :=
  if_pos h

theorem kfreeObj_eq {obj : Nat} (h : obj ∈ s.objs) : s.kfreeObj obj = .ok { s with objs := s.objs.erase obj } :=
  if_pos h

-- A child is taken out of the list, and its memory is freed.
def drop (s : VnodeHeap Obj) (node child : Node) : VnodeHeap Obj :=
  { s with
    vfs    := s.vfs.setNode node fun n => { n with children := n.children.erase child }
    objs   := s.objs.erase <| s.objAddr child
    vnodes := s.vnodes.erase child }

theorem foldChildren_some {fuel : Nat} {s₀ s₁ s₂ : VnodeHeap Obj} (hc : c ∈ s₀.vnodes)
    (h₁ : (if (s₀.vfs.nodes c).type = .dir ∧ s₀.vfs.isSpaned node then vfsFold fuel s₀ c else pure s₀) = .ok s₁)
    (h₂ : (if (s₁.vfs.nodes c).type = .file then s₁.unbufferAll c else pure s₁) = .ok s₂)
    (ho : s₂.objAddr c ∈ s₂.objs) (hv : c ∈ s₂.vnodes) :
    foldChildren (fuel + 1) s₀ node (some c) = foldChildren fuel (s₂.drop node c) node (s₀.next node c) := by
  have hdrop : (do
      let s ← s₂.kfreeObj (s₂.objAddr c)
      let s := s.setNode node fun n => { n with children := n.children.erase c }
      let s ← s.kfreeNode c
      foldChildren fuel s node (s₀.next node c)) = foldChildren fuel (s₂.drop node c) node (s₀.next node c) := by
    rw [kfreeObj_eq ho]
    refine (congrArg (· >>= fun s => foldChildren fuel s node (s₀.next node c)) <| kfreeNode_eq ?_).trans rfl
    exact hv
  rw [foldChildren, check, if_pos <| .inr hc, ← hdrop]
  simp only [bind, Except.bind, pure, Except.pure] at h₁ h₂ ⊢
  by_cases hd : (s₀.vfs.nodes c).type = .dir ∧ s₀.vfs.isSpaned node
  case pos =>
    rw [if_pos hd] at h₁ ⊢
    simp only [h₁]
    split_ifs at h₂ ⊢
    case pos => simp only [h₂]
    case neg =>
      cases h₂
      rfl
  case neg =>
    rw [if_neg hd] at h₁ ⊢
    cases h₁
    split_ifs at h₂ ⊢
    case pos => simp only [h₂]
    case neg =>
      cases h₂
      rfl

theorem next_head (h : (s.vfs.nodes node).children = c :: cs) : s.next node c = cs.head? := by
  simp [next, h]

-- What the iteration for a child does before the child is taken out.
structure Emptied (s : VnodeHeap Obj) (c : Node) (ds : List Node) (s' : VnodeHeap Obj) : Prop where
  vnodes  : s'.vnodes = s.vnodes.diff ds
  objs    : s'.objs = s.objs.diff (ds.map s.objAddr)
  pool    : s.pool.Returned (s.blocksOf (ds ++ [c])) s'.pool
  addrs   : s'.objAddr = s.objAddr
  next    : s'.vfs.next = s.vfs.next
  others  : ∀ i ∉ ds, i ≠ c → s'.vfs.nodes i = s.vfs.nodes i
  counted : s'.pool.Sound

theorem Emptied.drop (e : s.Emptied c ds s') : s.Freed node (ds ++ [c]) (s'.drop node c) where
  vnodes  := by simp [VnodeHeap.drop, e.vnodes]
  objs    := by simp [VnodeHeap.drop, e.objs, e.addrs]
  pool    := e.pool
  addrs   := e.addrs
  next    := e.next
  others  := fun i hi hne => by
    have hi := mt List.mem_append.mpr hi
    have := e.others i (fun h => hi <| .inl h) fun h => hi <| .inr <| h ▸ List.mem_singleton_self _
    simpa [VnodeHeap.drop, Vfs.setNode, hne] using this
  counted := e.counted

-- A directory has been folded.
theorem Freed.emptied (f : s.Freed c ds s') (ht : (s.vfs.nodes c).type = .dir) (g : Vnode Obj → Vnode Obj) :
    s.Emptied c ds (s'.setNode c g) where
  vnodes  := f.vnodes
  objs    := f.objs
  pool    := by
    rw [blocksOf_append, blocksOf_dir ht, List.append_nil]
    exact f.pool
  addrs   := f.addrs
  next    := f.next
  others  := fun i hi hne => by
    have := f.others i hi hne
    simpa [setNode, Vfs.setNode, hne] using this
  counted := f.counted

-- The blocks of a file have been given back.
theorem unbufferAll_emptied (w : s.pool.Sound) (ht : (s.vfs.nodes c).type = .file) (hs : (s.pool.bbf c).isSome) :
    ∃ s', s.unbufferAll c = .ok s' ∧ s.Emptied c [] s' := by
  have ⟨blks, hs⟩ := Option.isSome_iff_exists.mp hs
  have ⟨pool, he, r, w'⟩ := w.vfsUnbufferAll_ok hs
  refine ⟨{ s with pool }, by rw [unbufferAll, he]; rfl, rfl, rfl, ?_, rfl, rfl, fun _ _ _ => rfl, w'⟩
  rw [List.nil_append, blocksOf_file ht, hs]
  exact r

theorem vfsFold_of_foldChildren {n : Nat} (hc : c = root ∨ c ∈ s.vnodes)
    (h : ∀ fuel, n ≤ fuel → foldChildren fuel s c (s.vfs.nodes c).children.head? = .ok s') :
    ∀ fuel, n + 1 ≤ fuel → vfsFold fuel s c = .ok (s'.setNode c ({ · with childCnt := -1 })) := by
  intro fuel hf
  cases fuel
  case zero => cases hf
  case succ fuel =>
    rw [vfsFold, check, if_pos hc]
    simp only [bind, Except.bind, pure, Except.pure]
    rw [h fuel <| Nat.le_of_succ_le_succ hf]

end VnodeHeap

theorem Vfs.Forest.eq_nil {vfs : Vfs Obj} {ds : List Node} (h : vfs.Forest [] ds) : ds = [] := by
  cases h
  rfl

open VnodeHeap in
-- The loop frees the trees of the children that are left.
theorem Vfs.Forest.foldChildren_ok {vfs : Vfs Obj} {cs ds : List Node} (h : vfs.Forest cs ds)
    {s : VnodeHeap Obj} {node : Node}
    (hv : ∀ d ∈ ds, s.vfs.nodes d = vfs.nodes d) (hc : (s.vfs.nodes node).children = cs)
    (hs : s.vfs.isSpaned node ∨ cs = []) (hn : node ∉ ds) (ha : s.Allocated ds) (hb : s.Buffered ds) :
    ∃ s', (∀ fuel, 2 * ds.length + 1 ≤ fuel → foldChildren fuel s node cs.head? = .ok s') ∧ s.Freed node ds s' ∧
      s'.vfs.nodes node = { s.vfs.nodes node with children := [] } := by
  induction h generalizing s node
  case nil =>
    refine ⟨s, fun fuel hf => ?_, .refl hb.sound, by rw [← hc]⟩
    cases fuel
    case zero => cases hf
    case succ => rfl
  case cons c cs ds es ht hfold hds _ hi₁ hi₂ =>
    have hsp := hs.resolve_right (List.cons_ne_nil _ _)
    rw [List.append_cons] at hv hn ha hb ⊢
    have hcn : s.vfs.nodes c = vfs.nodes c := hv c <| by simp
    have hcd : c ∉ ds := fun h => (List.nodup_append.mp ha.left.nodup).2.2 c h c (by simp) rfl
    have hcv : c ∈ s.vnodes := ha.vnodes c <| by simp
    -- The child is emptied.
    obtain ⟨s₂, hstep, e⟩ : ∃ s₂, (∀ fuel, 2 * ds.length + 2 ≤ fuel → ∃ s₁,
        (if (s.vfs.nodes c).type = .dir ∧ s.vfs.isSpaned node then vfsFold fuel s c else pure s) = .ok s₁ ∧
        (if (s₁.vfs.nodes c).type = .file then s₁.unbufferAll c else pure s₁) = .ok s₂) ∧ s.Emptied c ds s₂ := by
      cases ht
      case inl ht =>
        have hd : (s.vfs.nodes c).type = .dir := hcn ▸ ht
        have hsc : s.vfs.isSpaned c ∨ (vfs.nodes c).children = [] := by
          rw [Vfs.isSpaned, hcn]
          exact or_iff_not_imp_left.mpr hfold.2
        obtain ⟨s₁, hr, f, hk⟩ := hi₁ (fun d hd => hv d <| by simp [hd]) (congrArg _ hcn) hsc hcd ha.left.left hb.left.left
        rw [← hcn] at hr
        refine ⟨s₁.setNode c ({ · with childCnt := -1 }),
          fun fuel hf => ⟨s₁.setNode c ({ · with childCnt := -1 }), ?_, ?_⟩, f.emptied hd _⟩
        case refine_1 =>
          rw [if_pos ⟨hd, hsp⟩]
          exact vfsFold_of_foldChildren (.inr hcv) hr fuel hf
        case refine_2 =>
          have hnf : ((s₁.setNode c ({ · with childCnt := -1 })).vfs.nodes c).type ≠ .file := by
            simp [VnodeHeap.setNode, Vfs.setNode, hk, hd]
          rw [if_neg hnf]
          rfl
      case inr ht =>
        have hf : (s.vfs.nodes c).type = .file := hcn ▸ ht
        have hz : ds = [] := (hfold.1 ht ▸ hds).eq_nil
        obtain ⟨s₂, he, e⟩ := unbufferAll_emptied hb.sound hf <| hb.bbf c (by simp) hf
        refine ⟨s₂, fun fuel _ => ⟨s, ?_, ?_⟩, hz ▸ e⟩
        case refine_1 =>
          rw [if_neg fun h => by simp [hf] at h]
          rfl
        case refine_2 => rw [if_pos hf, he]
    -- The others are freed after it.
    have f₂ : s.Freed node (ds ++ [c]) (s₂.drop node c) := e.drop
    have hne : node ∉ es := fun h => hn <| List.mem_append_right _ h
    have hde : ∀ d ∈ es, d ∉ ds ++ [c] := fun d hd => ha.disjoint hd
    have hnode : (s₂.drop node c).vfs.nodes node = { s.vfs.nodes node with children := cs } := by
      have := e.others node (fun h => hn <| by simp [h]) fun h => hn <| by simp [h]
      simp [drop, Vfs.setNode, this, hc]
    obtain ⟨s', hr, f', hk⟩ := @hi₂ (s₂.drop node c) node
      (fun d hd => (f₂.others d (hde d hd) fun h => hne <| h ▸ hd).trans <| hv d <| by simp [hd])
      (by rw [hnode]) (.inl <| by rw [Vfs.isSpaned, hnode]; exact hsp) hne (f₂.allocated ha) (f₂.buffered hb hde hne)
    refine ⟨s', fun fuel hf => ?_, f₂.append f' hb.sound.bound hde hne, by rw [hk, hnode]⟩
    simp only [List.length_append, List.length_singleton] at hf
    cases fuel
    case zero      => omega
    case succ fuel =>
      obtain ⟨s₁, h₁, h₂⟩ := hstep fuel <| by omega
      have ho : s₂.objAddr c ∈ s₂.objs := by
        rw [e.objs, e.addrs]
        refine List.mem_diff_of_mem (ha.objs c <| by simp) fun hm => ?_
        exact (List.nodup_append.mp <| List.map_append ▸ ha.left.single).2.2 _ hm _ (by simp) rfl
      have hcv₂ : c ∈ s₂.vnodes := e.vnodes ▸ List.mem_diff_of_mem hcv hcd
      rw [List.head?_cons, foldChildren_some hcv h₁ h₂ ho hcv₂, next_head hc]
      exact hr fuel <| by omega

namespace Vfs

variable {vfs : Vfs Obj} {bkd : Backend Obj} {node c d : Node} {cs ds : List Node} {objs : List Obj}

-- What is under a vnode is a child or under a child.
theorem under_iff : vfs.Under node d ↔ ∃ c ∈ (vfs.nodes node).children, d = c ∨ vfs.Under c d := by
  constructor
  case mp =>
    intro h
    induction h
    case child c hc => exact ⟨c, hc, .inl rfl⟩
    case step c d _ hd hi =>
      have ⟨c', hc', h⟩ := hi
      refine ⟨c', hc', .inr ?_⟩
      cases h
      case inl h => exact .child <| h ▸ hd
      case inr h => exact .step h hd
  case mpr =>
    intro ⟨c, hc, h⟩
    cases h
    case inl h => exact h ▸ .child hc
    case inr h =>
      induction h
      case child hd     => exact .step (.child hc) hd
      case step _ hd hi => exact .step hi hd

theorem Forest.mem_iff (h : vfs.Forest cs ds) : d ∈ ds ↔ ∃ c ∈ cs, d = c ∨ vfs.Under c d := by
  induction h
  case nil => simp
  case cons hi₁ hi₂ =>
    rw [List.mem_append, List.mem_cons, hi₁, hi₂, ← under_iff, List.exists_mem_cons_iff]
    exact or_left_comm.trans or_assoc.symm

-- The children of a directory are those which its backend enumerates.
structure Listed (vfs : Vfs Obj) (node : Node) (bkd : Backend Obj) (objs : List Obj) : Prop where
  lt      : node < vfs.next
  isDir   : (vfs.nodes node).type.isDir
  backed  : (vfs.nodes node).bkd = some bkd
  iterate : bkd.iterate (vfs.nodes node).lfsObj = .ok objs
  names   : (vfs.nodes node).children.map (fun c => (vfs.nodes c).name) = (objs.map bkd.name).reverse

theorem expand_names (hn : node < vfs.next) (hc : (vfs.nodes node).children = []) :
    ((vfs.expand bkd node objs).nodes node).children.map (fun c => ((vfs.expand bkd node objs).nodes c).name) =
      (objs.map bkd.name).reverse := by
  rw [expand_node, hc, List.append_nil, List.map_reverse]
  congr 1
  apply List.ext_getElem
  case hl => simp
  case h  =>
    intro k hk hk'
    rw [List.length_map] at hk'
    rw [List.getElem_map, List.getElem_range', Nat.one_mul, expand_child hn hk', List.getElem_map]
    rfl

-- A directory without children is enumerated by the next lookup.
theorem vfsGet_names {name : Name} (hn : node < vfs.next) (ht : (vfs.nodes node).type.isDir) (hs : ¬vfs.isSpaned node)
    (hc : (vfs.nodes node).children = []) (hb : (vfs.nodes node).bkd = some bkd)
    (ho : bkd.iterate (vfs.nodes node).lfsObj = .ok objs) (h₁ : name ≠ dot) (h₂ : name ≠ dotdot) :
    ∃ ret vfs', vfs.vfsGet (some node) name = .ok (ret, vfs') ∧
      (vfs'.nodes node).children.map (fun c => (vfs'.nodes c).name) = (objs.map bkd.name).reverse := by
  refine ⟨lastNamed bkd (some name) vfs.next objs none, vfs.expand bkd node objs, ?_, expand_names hn hc⟩
  rw [vfsGet]
  simp only [Option.getD_some, ht, h₁, h₂, hs, Bool.not_true, Bool.false_eq_true, if_false]
  exact vfsSpanSearch_eq hn hb ho

end Vfs

namespace VnodeHeap

variable {s : VnodeHeap Obj} {node : Node} {ds : List Node}

-- All that is under a vnode is freed, and the vnode can be spanned again.
theorem vfsFold_folds (h : s.vfs.Forest (s.vfs.nodes node).children ds)
    (hs : ¬s.vfs.isSpaned node → (s.vfs.nodes node).children = []) (hn : node = root ∨ node ∈ s.vnodes)
    (hnd : node ∉ ds) (ha : s.Allocated ds) (hb : s.Buffered ds) :
    ∃ s', (∀ fuel, 2 * ds.length + 2 ≤ fuel → vfsFold fuel s node = .ok s') ∧ s.Freed node ds s' ∧
      (∀ d, d ∈ ds ↔ s.vfs.Under node d) ∧
      s'.vfs.nodes node = { s.vfs.nodes node with children := [], childCnt := -1 } ∧ ¬s'.vfs.isSpaned node ∧
      ∀ bkd objs, s.vfs.Listed node bkd objs → ∀ name, name ≠ Vfs.dot → name ≠ Vfs.dotdot →
        ∃ ret vfs, s'.vfs.vfsGet (some node) name = .ok (ret, vfs) ∧
          (vfs.nodes node).children.map (fun c => (vfs.nodes c).name) =
            (s.vfs.nodes node).children.map (fun c => (s.vfs.nodes c).name) := by
  have ⟨s₁, hr, f, hk⟩ := h.foldChildren_ok (fun _ _ => rfl) rfl (or_iff_not_imp_left.mpr hs) hnd ha hb
  let s' := s₁.setNode node ({ · with childCnt := -1 })
  have hnode : s'.vfs.nodes node = { s.vfs.nodes node with children := [], childCnt := -1 } := by
    simp [s', setNode, Vfs.setNode, hk]
  have hsp : ¬s'.vfs.isSpaned node := by simp [Vfs.isSpaned, hnode]
  have hother (i : Node) (hi : i ∉ ds) (hne : i ≠ node) : s'.vfs.nodes i = s.vfs.nodes i := by
    simpa [s', setNode, Vfs.setNode, hne] using f.others i hi hne
  refine ⟨s', vfsFold_of_foldChildren hn hr, ⟨f.vnodes, f.objs, f.pool, f.addrs, f.next, hother, f.counted⟩,
    fun d => h.mem_iff.trans Vfs.under_iff.symm, hnode, hsp, fun bkd objs hl name h₁ h₂ => ?_⟩
  rw [hl.names]
  have hlt : node < s'.vfs.next := hl.lt.trans_eq f.next.symm
  exact Vfs.vfsGet_names hlt (hnode ▸ hl.isDir) hsp (by rw [hnode]) (hnode ▸ hl.backed) (hnode ▸ hl.iterate) h₁ h₂

end VnodeHeap

-- The root has the directory 1 with the file 2, of which a block has been changed.

def nestedBackend : Backend Nat where
  iterate obj := .ok [obj + 1]
  size _      := 0
  name obj    := [.ofNat 8 obj]
  type obj    := if obj < 2 then .dir else .file
  read _ _ _  := 0
  write _ _ _ := 0

def nestedNodes : Node → Vnode Nat
  | 0 => ⟨0, 0, [1], 1, 0, .mp, [], 0, nestedBackend⟩
  | 1 => ⟨0, 0, [2], 1, 0, .dir, [1], 1, nestedBackend⟩
  | i => ⟨0, 1, [], -1, 0, .file, [.ofNat 8 i], i, nestedBackend⟩

def dirtyPool : BlockPool where
  blocks _ := ⟨some 7, 2, 0, 1⟩
  descs    := [5]
  pages    := [7]
  bbfUsed  := [5]
  bbfFree  := []
  usedCnt  := 1
  freeCnt  := 0
  totalMax := 2
  bbf n    := if n = 2 then some [5] else some []
  written  := []

def nestedHeap : VnodeHeap Nat where
  vfs     := { nodes := nestedNodes, next := 3 }
  pool    := dirtyPool
  objAddr := (· + 10)
  vnodes  := [1, 2]
  objs    := [11, 12]

theorem dirtyPool_sound : dirtyPool.Sound := by
  refine ⟨⟨rfl, rfl, by decide, by decide, ?_, fun _ => Iff.rfl, ?_⟩, fun n blks hs => ?_⟩
  case refine_1 =>
    intro blk hb
    have he : ∀ blk ∈ dirtyPool.all, blk = 5 := by decide
    exact ⟨7, by decide, rfl, fun blk' hb' _ => (he blk' hb').trans (he blk hb).symm⟩
  case refine_2 => exact fun p hp => ⟨5, by decide, congrArg some (List.mem_singleton.mp hp).symm⟩
  case refine_3 =>
    simp only [dirtyPool, Option.mem_def] at hs
    split_ifs at hs
    case pos hn =>
      cases hs
      exact ⟨by decide, fun blk hb => ⟨hb, hn.symm⟩⟩
    case neg =>
      cases hs
      simp

theorem nestedHeap_folds : ∃ s', (∀ fuel, 6 ≤ fuel → VnodeHeap.vfsFold fuel nestedHeap 0 = .ok s') ∧
    nestedHeap.Freed 0 [2, 1] s' ∧ (∀ d, d ∈ [2, 1] ↔ nestedHeap.vfs.Under 0 d) ∧
    s'.vfs.nodes 0 = { nestedNodes 0 with children := [], childCnt := -1 } ∧ ¬s'.vfs.isSpaned 0 ∧
    ∃ ret vfs, s'.vfs.vfsGet (some (0 : Node)) [0x61] = .ok (ret, vfs) ∧
      (vfs.nodes 0).children.map (fun c => (vfs.nodes c).name) = [[1]] := by
  have h₁ : nestedHeap.vfs.Foldable 1 := ⟨fun h => VnodeType.noConfusion h, fun h => absurd rfl h⟩
  have h : nestedHeap.vfs.Forest [1] [2, 1] :=
    .cons (.inl rfl) h₁ (.cons (.inr rfl) ⟨fun _ => rfl, fun _ => rfl⟩ .nil .nil) .nil
  have ha : nestedHeap.Allocated [2, 1] := ⟨by decide, by decide, by decide, by decide⟩
  have hb : nestedHeap.Buffered [2, 1] := by
    refine ⟨dirtyPool_sound, fun d hd _ => ?_⟩
    simp only [nestedHeap, dirtyPool]
    split_ifs <;> rfl
  have hl : nestedHeap.vfs.Listed 0 nestedBackend [1] := ⟨by decide, by decide, rfl, rfl, rfl⟩
  have ⟨s', hr, f, hu, hn, hs, hg⟩ := VnodeHeap.vfsFold_folds h (fun h => absurd rfl h) (.inl rfl) (by decide) ha hb
  exact ⟨s', hr, f, hu, hn, hs, hg _ _ hl [0x61] (by decide) (by decide)⟩

end Zgmos.Fs
