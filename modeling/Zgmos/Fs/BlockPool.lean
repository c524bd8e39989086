import Zgmos.Fs.Vfs
import Zgmos.Kernel.Utils
import Zgmos.Lib.Except

-- The accounting of the blocks.

namespace Zgmos.Fs

-- The contents of the page `buf` are left out here. It is missing if there was no memory for it.
structure PoolBlock where
  buf    : Option Nat
  node   : Node
  blkoff : BitVec 32
  dirty  : BitVec 32

-- `descs` and `pages` are the objects of `kmalloc` and the pages that are allocated for blocks, and `written` is what
-- the backends have been given to write. The list `bbf` of a vnode is missing if it has not been initialized.
structure BlockPool where
  blocks   : Nat → PoolBlock
  descs    : List Nat
  pages    : List Nat
  bbfUsed  : List Nat
  bbfFree  : List Nat
  usedCnt  : BitVec 32
  freeCnt  : BitVec 32
  totalMax : BitVec 32
  bbf      : Node → Option (List Nat)
  written  : List (Node × BitVec 64 × Option Nat)

namespace BlockPool

-- The state after `vfs_init`. The lists of the vnodes `files` have been initialized.
def init (blocks : Nat → PoolBlock) (files : Node → Bool) (totalMax : BitVec 32) : BlockPool where
  blocks   := blocks
  descs    := []
  pages    := []
  bbfUsed  := []
  bbfFree  := []
  usedCnt  := 0
  freeCnt  := 0
  totalMax := totalMax
  bbf n    := if files n then some [] else none
  written  := []

section Functions

variable (b : BlockPool)

def setBlock (blk : Nat) (f : PoolBlock → PoolBlock) : BlockPool :=
  { b with blocks := Function.update b.blocks blk <| f (b.blocks blk) }

-- `desc` and `page` are the results of the two allocations. The first one is not checked.
def vblkAlloc (desc page : Option Nat) : Except Fault (Nat × BlockPool) :=
  match desc with
  | none     => throw .outOfBounds
  | some blk => return (blk, { b with
      descs := blk :: b.descs
      pages := page.toList ++ b.pages }.setBlock blk ({ · with buf := page }))

-- A list head of `vfs` itself is taken for a block if a block is to be used again.
def vbfBorrow (desc page : Option Nat) : Except Fault (Nat × BlockPool) :=
  if 0 < b.freeCnt then
    throw .wildPointer
  else if b.usedCnt < b.totalMax then do
    let (blk, b) ← b.vblkAlloc desc page
    return (blk, { b with usedCnt := b.usedCnt + 1, bbfUsed := b.bbfUsed ++ [blk] })
  else
    throw .wildPointer

def vbfBind (blk : Nat) (node : Node) (blkoff : BitVec 32) : Except Fault BlockPool :=
  match b.bbf node, (b.blocks blk).buf with
  | none, _           => throw .wildPointer
  | some _, none      => throw .outOfBounds
  | some blks, some _ => return { b with
      bbf := Function.update b.bbf node <| some (blk :: blks) }.setBlock blk ({ · with node, blkoff, dirty := 0 })

def vbfFlush (blk : Nat) : BlockPool :=
  let s := b.blocks blk
  if s.dirty = 0 then
    b
  else
    { b with written := b.written ++ [(s.node, (s.blkoff * BitVec.ofNat 32 pageSize).setWidth 64, s.buf)] }.setBlock blk
      ({ · with dirty := 0 })

-- The links of a block which is in no list are arbitrary.
def vbfUnbind (blk : Nat) : Except Fault BlockPool :=
  let b := b.vbfFlush blk
  let node := (b.blocks blk).node
  match b.bbf node with
  | none      => throw .wildPointer
  | some blks =>
    if blk ∈ blks then
      return { b with bbf := Function.update b.bbf node <| some (blks.erase blk) }
    else
      throw .wildPointer

def vbfReturn (blk : Nat) : BlockPool :=
  { b with
    bbfUsed := b.bbfUsed.erase blk
    bbfFree := blk :: b.bbfFree.erase blk
    freeCnt := b.freeCnt + 1
    usedCnt := b.usedCnt - 1 }

def pmemFree (page : Option Nat) : Except Fault BlockPool :=
  match page with
  | none      => throw .outOfBounds
  | some page => if page ∈ b.pages then return { b with pages := b.pages.erase page } else throw .panic

-- The counter and the object of the block are left alone.
def vbfShrink : Except Fault BlockPool :=
  b.bbfFree.foldlM (fun b blk => do
    let b ← b.pmemFree (b.blocks blk).buf
    return { b with bbfFree := b.bbfFree.erase blk }) b

def vfsUnbuffer (blk : Nat) : Except Fault BlockPool :=
  return (← b.vbfUnbind blk).vbfReturn blk

def vfsUnbufferAll (node : Node) : Except Fault BlockPool :=
  match b.bbf node with
  | none      => throw .wildPointer
  | some blks => blks.foldlM vfsUnbuffer b

def vfsShrink : Except Fault BlockPool :=
  b.vbfShrink

end Functions

-- The blocks of a pool.
def all (b : BlockPool) : List Nat :=
  b.bbfUsed ++ b.bbfFree

-- What is wanted of the counters and the memory.
structure Accounted (b : BlockPool) : Prop where
  used  : b.usedCnt.toNat = b.bbfUsed.length
  free  : b.freeCnt.toNat = b.bbfFree.length
  max   : b.usedCnt.toNat + b.freeCnt.toNat ≤ b.totalMax.toNat
  nodup : b.all.Nodup
  owns  : ∀ blk ∈ b.all, ∃ page ∈ b.pages, (b.blocks blk).buf = some page ∧
    ∀ blk' ∈ b.all, (b.blocks blk').buf = some page → blk' = blk
  -- Nothing else is allocated for blocks.
  descs : ∀ blk, blk ∈ b.descs ↔ blk ∈ b.all
  pages : ∀ page ∈ b.pages, ∃ blk ∈ b.all, (b.blocks blk).buf = some page

-- The blocks of the vnodes are used ones.
def Bound (b : BlockPool) : Prop :=
  ∀ node, ∀ blks ∈ b.bbf node, blks.Nodup ∧ ∀ blk ∈ blks, blk ∈ b.bbfUsed ∧ (b.blocks blk).node = node

-- The memory of the free blocks is released.
def Released (b b' : BlockPool) : Prop :=
  ∀ blk ∈ b.bbfFree, blk ∉ b'.descs ∧ ∀ page ∈ (b.blocks blk).buf, page ∉ b'.pages

end BlockPool

inductive PoolCall
  | vbfBorrow (desc page : Option Nat)
  | vbfBind (blk : Nat) (node : Node) (blkoff : BitVec 32)
  | vfsUnbuffer (blk : Nat)
  | vfsUnbufferAll (node : Node)
  | vfsShrink

namespace PoolCall

def exec (b : BlockPool) : PoolCall → Except Fault BlockPool
  | vbfBorrow desc page     => (·.2) <$> b.vbfBorrow desc page
  | vbfBind blk node blkoff => b.vbfBind blk node blkoff
  | vfsUnbuffer blk         => b.vfsUnbuffer blk
  | vfsUnbufferAll node     => b.vfsUnbufferAll node
  | vfsShrink               => b.vfsShrink

-- New memory is not in use, only a borrowed block which is not bound yet is bound, and only a bound one is given back.
def Permits (b : BlockPool) : PoolCall → Prop
  | vbfBorrow desc page => (∀ blk ∈ desc, blk ∉ b.descs) ∧ ∀ p ∈ page, p ∉ b.pages
  | vbfBind blk node _  => blk ∈ b.bbfUsed ∧ (∀ n, ∀ blks ∈ b.bbf n, blk ∉ blks) ∧ (b.bbf node).isSome
  | vfsUnbuffer blk     => ∃ blks ∈ b.bbf (b.blocks blk).node, blk ∈ blks
  | vfsUnbufferAll node => (b.bbf node).isSome
  | vfsShrink           => True

-- No block is used again, and none is shrunk away.
def Meets (b : BlockPool) : PoolCall → Prop
  | vbfBorrow desc page => b.bbfFree = [] ∧ b.bbfUsed.length < b.totalMax.toNat ∧ desc.isSome ∧ page.isSome
  | vfsShrink           => b.bbfFree = []
  | _                   => True

end PoolCall

namespace BlockPool

-- `p` holds for each call of a run in the state before it.
def Along (p : BlockPool → PoolCall → Prop) : BlockPool → List PoolCall → Prop
  | _, []            => True
  | b, call :: calls => p b call ∧ ∀ b', call.exec b = .ok b' → Along p b' calls

-- Each call returns, and the accounts are right after it.
def Accounts : BlockPool → List PoolCall → Prop
  | b, []            => b.Accounted
  | b, call :: calls => b.Accounted ∧
    ∃ b', call.exec b = .ok b' ∧ (call = .vfsShrink → b.Released b') ∧ b'.Accounts calls

structure Sound (b : BlockPool) : Prop where
  accounted : b.Accounted
  bound     : b.Bound

-- What is written of a block that is given back.
def flush (b : BlockPool) (blk : Nat) : Option (Node × BitVec 64 × Option Nat) :=
  let s := b.blocks blk
  if s.dirty = 0 then none else some (s.node, (s.blkoff * BitVec.ofNat 32 pageSize).setWidth 64, s.buf)

-- What the return of some blocks does.
structure Returned (b : BlockPool) (blks : List Nat) (b' : BlockPool) : Prop where
  used    : b'.bbfUsed = b.bbfUsed.diff blks
  free    : b'.bbfFree = blks.reverse ++ b.bbfFree
  usedCnt : b'.usedCnt = b.usedCnt - .ofNat 32 blks.length
  freeCnt : b'.freeCnt = b.freeCnt + .ofNat 32 blks.length
  bbf     : ∀ node, b'.bbf node = (b.bbf node).map (·.diff blks)
  written : b'.written = b.written ++ blks.filterMap b.flush
  blocks  : ∀ blk, b'.blocks blk = if blk ∈ blks then { b.blocks blk with dirty := 0 } else b.blocks blk
  memory  : b'.descs = b.descs ∧ b'.pages = b.pages ∧ b'.totalMax = b.totalMax

variable {b b' b'' : BlockPool} {blk page : Nat} {blks : List Nat} {node : Node} {blkoff : BitVec 32} {call : PoolCall}
  {calls : List PoolCall}

theorem Returned.refl : b.Returned [] b where
  used    := rfl
  free    := rfl
  usedCnt := (BitVec.sub_zero _).symm
  freeCnt := (BitVec.add_zero _).symm
  bbf     := by simp
  written := by simp
  blocks  := by simp
  memory  := ⟨rfl, rfl, rfl⟩

theorem Returned.append {blks' : List Nat} (r : b.Returned blks b') (r' : b'.Returned blks' b'')
    (hd : ∀ blk ∈ blks', blk ∉ blks) : b.Returned (blks ++ blks') b'' where
  used    := by rw [r'.used, r.used, List.diff_append]
  free    := by rw [r'.free, r.free, List.reverse_append, List.append_assoc]
  usedCnt := by
    rw [r'.usedCnt, r.usedCnt, List.length_append, BitVec.ofNat_add]
    ring
  freeCnt := by
    rw [r'.freeCnt, r.freeCnt, List.length_append, BitVec.ofNat_add]
    ring
  bbf     := by
    intro node
    rw [r'.bbf, r.bbf, Option.map_map]
    simp only [Function.comp_def, List.diff_append]
  written := by
    have hf : blks'.filterMap b'.flush = blks'.filterMap b.flush :=
      List.filterMap_congr fun i hi => by simp [flush, r.blocks, hd i hi]
    rw [r'.written, r.written, hf, List.append_assoc, List.filterMap_append]
  blocks  := by
    intro i
    rw [r'.blocks, r.blocks]
    by_cases hi : i ∈ blks
    case pos => simp [hi]
    case neg => simp [hi]
  memory  := by
    have ⟨h₁, h₂, h₃⟩ := r.memory
    have ⟨h₁', h₂', h₃'⟩ := r'.memory
    exact ⟨h₁'.trans h₁, h₂'.trans h₂, h₃'.trans h₃⟩

theorem Returned.node_eq (r : b.Returned blks b') : (b'.blocks blk).node = (b.blocks blk).node := by
  rw [r.blocks]
  split_ifs <;> rfl

theorem Returned.buf_eq (r : b.Returned blks b') : (b'.blocks blk).buf = (b.blocks blk).buf := by
  rw [r.blocks]
  split_ifs <;> rfl

-- The accounts remain right.
theorem Returned.sound (r : b.Returned blks b') (w : b.Sound) (hn : blks.Nodup) (hu : ∀ blk ∈ blks, blk ∈ b.bbfUsed) :
    b'.Sound := by
  have ⟨hd, hp, ht⟩ := r.memory
  have hnu : b.bbfUsed.Nodup := (List.nodup_append.mp w.accounted.nodup).1
  have hsub : (blks ++ b.bbfUsed.diff blks).Perm b.bbfUsed :=
    List.subperm_append_diff_self_of_count_le fun i hi => by
      rw [List.count_eq_one_of_mem hn hi, List.count_eq_one_of_mem hnu <| hu i hi]
  have hall : b'.all.Perm b.all := by
    rw [all, all, r.used, r.free, ← List.append_assoc]
    refine List.Perm.append_right _ <| List.perm_append_comm.trans ?_
    exact ((List.reverse_perm blks).append_right _).trans hsub
  have hmem {blk : Nat} : blk ∈ b'.all ↔ blk ∈ b.all := hall.mem_iff
  have hlen : blks.length + b'.bbfUsed.length = b.bbfUsed.length := by
    rw [r.used, ← List.length_append, hsub.length_eq]
  have hfree : b'.bbfFree.length = blks.length + b.bbfFree.length := by
    rw [r.free, List.length_append, List.length_reverse]
  have hmax := w.accounted.max
  have hused := w.accounted.used
  have hfree' := w.accounted.free
  have hlt := b.totalMax.isLt
  have hof : (BitVec.ofNat 32 blks.length).toNat = blks.length := by
    rw [BitVec.toNat_ofNat, Nat.mod_eq_of_lt]
    omega
  have husedCnt : b'.usedCnt.toNat = b'.bbfUsed.length := by
    rw [r.usedCnt, BitVec.toNat_sub_of_le (by rw [BitVec.le_def]; omega)]
    omega
  have hfreeCnt : b'.freeCnt.toNat = b'.bbfFree.length := by
    rw [r.freeCnt, BitVec.toNat_add, hof, Nat.mod_eq_of_lt]
    all_goals omega
  refine ⟨⟨husedCnt, hfreeCnt, by rw [ht]; omega, hall.nodup_iff.mpr w.accounted.nodup, ?_, ?_, ?_⟩, ?_⟩
  case refine_1 =>
    intro blk hb
    have ⟨page, hpage, he, hs⟩ := w.accounted.owns blk <| hmem.mp hb
    exact ⟨page, hp ▸ hpage, r.buf_eq ▸ he, fun blk' hb' he' => hs blk' (hmem.mp hb') <| r.buf_eq ▸ he'⟩
  case refine_2 => exact fun blk => by rw [hd, w.accounted.descs, hmem]
  case refine_3 =>
    intro page hpage
    have ⟨blk, hb, he⟩ := w.accounted.pages page <| hp ▸ hpage
    exact ⟨blk, hmem.mpr hb, r.buf_eq.trans he⟩
  case refine_4 =>
    intro node blks' hs
    rw [r.bbf] at hs
    have ⟨blks₀, hs₀, he⟩ := Option.map_eq_some_iff.mp hs
    have ⟨hn₀, hb₀⟩ := w.bound node blks₀ hs₀
    rw [← he]
    refine ⟨hn₀.diff, fun blk hb => ?_⟩
    have ⟨hm, hnm⟩ := (hn₀.mem_sdiff_iff).mp hb
    exact ⟨r.used ▸ hnu.mem_sdiff_iff.mpr ⟨(hb₀ blk hm).1, hnm⟩, r.node_eq.trans (hb₀ blk hm).2⟩

theorem vbfFlush_eq (b : BlockPool) (blk : Nat) : b.vbfFlush blk = { b with
    written := b.written ++ (b.flush blk).toList
    blocks  := Function.update b.blocks blk { b.blocks blk with dirty := 0 } } := by
  simp only [vbfFlush, flush]
  split_ifs
  case pos hd =>
    have hb : Function.update b.blocks blk { b.blocks blk with dirty := 0 } = b.blocks := by
      rw [← hd]
      exact Function.update_eq_self ..
    simp only [Option.toList_none, List.append_nil]
    rw [hb]
  case neg => rfl

-- A bound block is written back and becomes the first one of the free blocks.
theorem Sound.vfsUnbuffer_ok (w : b.Sound) (hs : b.bbf (b.blocks blk).node = some blks) (hm : blk ∈ blks) :
    ∃ b', b.vfsUnbuffer blk = .ok b' ∧ b.Returned [blk] b' := by
  have ⟨hn, hb⟩ := w.bound _ blks hs
  have hnf : blk ∉ b.bbfFree := fun hf =>
    (List.nodup_append.mp w.accounted.nodup).2.2 blk (hb blk hm).1 blk hf rfl
  let b' : BlockPool := { b with
    written := b.written ++ (b.flush blk).toList
    blocks  := Function.update b.blocks blk { b.blocks blk with dirty := 0 }
    bbf     := Function.update b.bbf (b.blocks blk).node <| some (blks.erase blk) }
  refine ⟨b'.vbfReturn blk, ?_, ?_⟩
  case refine_1 =>
    rw [vfsUnbuffer, vbfUnbind, vbfFlush_eq]
    simp only [Function.update_self, hs, if_pos hm]
    rfl
  case refine_2 =>
    constructor
    case used    => simp [vbfReturn, b']
    case free    => simp [vbfReturn, b', List.erase_of_not_mem hnf]
    case usedCnt => rfl
    case freeCnt => rfl
    case bbf     =>
      intro n
      by_cases hn' : n = (b.blocks blk).node
      case pos => simp [vbfReturn, b', hn', hs]
      case neg =>
        simp only [vbfReturn, b', Function.update_of_ne hn']
        cases hs' : b.bbf n
        case none      => rfl
        case some blks' =>
          have hnm : blk ∉ blks' := fun h => hn' ((w.bound n blks' hs').2 blk h).2.symm
          simp [List.erase_of_not_mem hnm]
    case written => simp [vbfReturn, b', List.filterMap_cons]; cases b.flush blk <;> rfl
    case blocks  =>
      intro i
      by_cases hi : i = blk <;> simp [vbfReturn, b', hi]
    case memory  => exact ⟨rfl, rfl, rfl⟩

-- All blocks of a vnode are given back.
theorem Sound.vfsUnbufferAll_ok (w : b.Sound) (hs : b.bbf node = some blks) :
    ∃ b', b.vfsUnbufferAll node = .ok b' ∧ b.Returned blks b' ∧ b'.Sound := by
  rw [vfsUnbufferAll, hs]
  have ⟨hn, hb⟩ := w.bound node blks hs
  -- The list which is iterated is what is left of the blocks of the vnode.
  have hrun : ∀ (l : List Nat) (b : BlockPool), b.Sound → b.bbf node = some l → l.Nodup →
      (∀ blk ∈ l, blk ∈ b.bbfUsed ∧ (b.blocks blk).node = node) →
      ∃ b', l.foldlM vfsUnbuffer b = .ok b' ∧ b.Returned l b' ∧ b'.Sound := by
    intro l
    induction l
    case nil => exact fun b w _ _ _ => ⟨b, rfl, .refl, w⟩
    case cons blk l hi =>
      intro b w hs hn hb
      have ⟨hnm, hn'⟩ := List.nodup_cons.mp hn
      have ⟨hu, hnode⟩ := hb blk <| .head _
      have ⟨b₁, h₁, r₁⟩ := w.vfsUnbuffer_ok (hnode ▸ hs) <| .head _
      have w₁ := r₁.sound w (List.nodup_singleton _) fun i hi => List.mem_singleton.mp hi ▸ hu
      have hs₁ : b₁.bbf node = some l := by
        rw [r₁.bbf, hs]
        simp
      have ⟨b₂, h₂, r₂, w₂⟩ := hi b₁ w₁ hs₁ hn' (w₁.bound node l hs₁).2
      have r := r₁.append r₂ fun i hi h => hnm <| List.mem_singleton.mp h ▸ hi
      exact ⟨b₂, by rw [List.foldlM_cons, h₁]; exact h₂, r, w₂⟩
  exact hrun blks b w hs hn hb

-- A pool with a new block.
def borrowed (b : BlockPool) (blk page : Nat) : BlockPool :=
  { b with
    descs   := blk :: b.descs
    pages   := page :: b.pages
    usedCnt := b.usedCnt + 1
    bbfUsed := b.bbfUsed ++ [blk] }.setBlock blk ({ · with buf := page })

theorem vbfBorrow_eq (hf : b.freeCnt = 0) (hl : b.usedCnt < b.totalMax) :
    b.vbfBorrow (some blk) (some page) = .ok (blk, b.borrowed blk page) := by
  rw [vbfBorrow, if_neg (by simp [hf]), if_pos hl]
  rfl

theorem Accounted.vbfBorrow_ok (w : b.Accounted) (hf : b.bbfFree = []) (hl : b.bbfUsed.length < b.totalMax.toNat) :
    b.vbfBorrow (some blk) (some page) = .ok (blk, b.borrowed blk page) := by
  refine vbfBorrow_eq (BitVec.eq_of_toNat_eq ?_) <| BitVec.lt_def.mpr <| w.used ▸ hl
  rw [w.free, hf]
  rfl

theorem Sound.borrowed (w : b.Sound) (hf : b.bbfFree = []) (hl : b.bbfUsed.length < b.totalMax.toNat)
    (hb : blk ∉ b.descs) (hp : page ∉ b.pages) : (b.borrowed blk page).Sound := by
  have hb : blk ∉ b.all := fun h => hb <| (w.accounted.descs blk).mpr h
  have hall : (b.borrowed blk page).all = b.all ++ [blk] := by simp [all, BlockPool.borrowed, setBlock, hf]
  have hmem {i : Nat} : i ∈ (b.borrowed blk page).all ↔ i ∈ b.all ∨ i = blk := by
    rw [hall, List.mem_append, List.mem_singleton]
  have hne {i : Nat} (hi : i ∈ b.all) : i ≠ blk := fun he => hb <| he ▸ hi
  have hold {i : Nat} (hi : i ∈ b.all) : (b.borrowed blk page).blocks i = b.blocks i := by
    simp [BlockPool.borrowed, setBlock, hne hi]
  have hnew : ((b.borrowed blk page).blocks blk).buf = some page := by simp [BlockPool.borrowed, setBlock]
  -- The page of an old block is not the new one.
  have hpage {i : Nat} (hi : i ∈ b.all) : (b.blocks i).buf ≠ some page := by
    have ⟨p, hm, he, _⟩ := w.accounted.owns i hi
    intro h
    cases he.symm.trans h
    exact hp hm
  have hlt := b.totalMax.isLt
  have hcnt : (b.usedCnt + 1).toNat = b.bbfUsed.length + 1 := by
    have hone : (1 : BitVec 32).toNat = 1 := rfl
    rw [BitVec.toNat_add, hone, w.accounted.used, Nat.mod_eq_of_lt]
    omega
  have hfree := w.accounted.free
  rw [hf] at hfree
  refine ⟨⟨?_, ?_, ?_, ?_, ?_, ?_, ?_⟩, ?_⟩
  case refine_1 =>
    show (b.usedCnt + 1).toNat = (b.bbfUsed ++ [blk]).length
    rw [hcnt, List.length_append]
    rfl
  case refine_2 => simpa [BlockPool.borrowed, setBlock, hf] using hfree
  case refine_3 =>
    show (b.usedCnt + 1).toNat + b.freeCnt.toNat ≤ b.totalMax.toNat
    rw [hcnt, hfree]
    exact hl
  case refine_4 =>
    rw [hall, ← List.concat_eq_append]
    exact w.accounted.nodup.concat hb
  case refine_5 =>
    intro i hi
    cases hmem.mp hi
    case inl hi =>
      have ⟨p, hm, he, hs⟩ := w.accounted.owns i hi
      refine ⟨p, .tail _ hm, (hold hi).symm ▸ he, fun j hj he' => ?_⟩
      cases hmem.mp hj
      case inl hj => exact hs j hj <| hold hj ▸ he'
      case inr hj =>
        rw [hj, hnew] at he'
        exact absurd (he.trans he'.symm) <| hpage hi
    case inr hi =>
      refine ⟨page, .head _, hi ▸ hnew, fun j hj he => ?_⟩
      cases hmem.mp hj
      case inl hj => exact absurd (hold hj ▸ he) <| hpage hj
      case inr hj => exact hj.trans hi.symm
  case refine_6 =>
    intro i
    rw [hmem, ← w.accounted.descs]
    exact List.mem_cons.trans Or.comm
  case refine_7 =>
    intro p hm
    cases hm
    case head => exact ⟨blk, hmem.mpr <| .inr rfl, hnew⟩
    case tail hm =>
      have ⟨i, hi, he⟩ := w.accounted.pages p hm
      exact ⟨i, hmem.mpr <| .inl hi, (hold hi).symm ▸ he⟩
  case refine_8 =>
    intro n blks hs
    have ⟨hn, hu⟩ := w.bound n blks hs
    refine ⟨hn, fun i hi => ?_⟩
    have ⟨hu, hnode⟩ := hu i hi
    exact ⟨List.mem_append_left _ hu, (hold <| List.mem_append_left _ hu).symm ▸ hnode⟩

variable (blkoff) in
-- A borrowed block is bound to a vnode.
theorem Sound.vbfBind_ok (w : b.Sound) (hu : blk ∈ b.bbfUsed) (hn : ∀ n, ∀ blks ∈ b.bbf n, blk ∉ blks)
    (hs : (b.bbf node).isSome) : ∃ b', b.vbfBind blk node blkoff = .ok b' ∧ b'.Sound := by
  have ⟨blks, hs⟩ := Option.isSome_iff_exists.mp hs
  have ⟨page, _, hb, _⟩ := w.accounted.owns blk <| List.mem_append_left _ hu
  let b' : BlockPool := { b with bbf := Function.update b.bbf node <| some (blk :: blks) }.setBlock blk
    ({ · with node, blkoff, dirty := 0 })
  have hbuf (i : Nat) : (b'.blocks i).buf = (b.blocks i).buf := by
    by_cases hi : i = blk <;> simp [b', setBlock, hi]
  refine ⟨b', by rw [vbfBind, hs, hb]; rfl, ⟨w.accounted.used, w.accounted.free, w.accounted.max, w.accounted.nodup,
    fun i hi => ?_, w.accounted.descs, fun p hp => ?_⟩, fun n blks' hs' => ?_⟩
  case refine_1 =>
    have ⟨p, hp, he, h⟩ := w.accounted.owns i hi
    exact ⟨p, hp, (hbuf i).trans he, fun j hj he' => h j hj <| hbuf j ▸ he'⟩
  case refine_2 =>
    have ⟨i, hi, he⟩ := w.accounted.pages p hp
    exact ⟨i, hi, (hbuf i).trans he⟩
  case refine_3 =>
    have hold {m : Node} {l : List Nat} (hl : b.bbf m = some l) :
        l.Nodup ∧ ∀ i ∈ l, i ∈ b.bbfUsed ∧ (b'.blocks i).node = m := by
      refine (w.bound m l hl).imp_right fun h i hi => ⟨(h i hi).1, ?_⟩
      have hne : i ≠ blk := fun he => hn m l hl <| he ▸ hi
      simpa [b', setBlock, hne] using (h i hi).2
    by_cases he : n = node
    case pos =>
      simp only [b', setBlock, he, Function.update_self] at hs'
      cases hs'
      have ⟨hnd, hm⟩ := hold hs
      refine ⟨hnd.cons <| hn node blks hs, fun i hi => ?_⟩
      cases hi
      case head    => exact ⟨hu, by simp [b', setBlock, he]⟩
      case tail hi => exact he ▸ hm i hi
    case neg =>
      simp only [b', setBlock, Function.update_of_ne he] at hs'
      exact hold hs'

theorem init_sound (blocks : Nat → PoolBlock) (files : Node → Bool) (totalMax : BitVec 32) :
    (init blocks files totalMax).Sound := by
  refine ⟨⟨rfl, rfl, Nat.zero_le _, List.nodup_nil, ?_, ?_, ?_⟩, fun node blks hs => ?_⟩
  case refine_1 => simp [init, all]
  case refine_2 => simp [init, all]
  case refine_3 => simp [init]
  case refine_4 =>
    simp only [init, Option.mem_def] at hs
    split_ifs at hs
    case pos =>
      cases hs
      simp

-- A call that meets the condition keeps the accounts.
theorem Sound.exec_ok (w : b.Sound) (hp : call.Permits b) (hm : call.Meets b) :
    ∃ b', call.exec b = .ok b' ∧ b'.Sound ∧ (call = .vfsShrink → b.Released b') := by
  cases call
  case vbfBorrow desc page =>
    have ⟨hf, hl, hd, hpg⟩ := hm
    have ⟨blk, hd⟩ := Option.isSome_iff_exists.mp hd
    have ⟨page, hpg⟩ := Option.isSome_iff_exists.mp hpg
    subst hd hpg
    refine ⟨b.borrowed blk page, ?_, w.borrowed hf hl (hp.1 blk rfl) <| hp.2 page rfl, by simp⟩
    rw [PoolCall.exec, w.accounted.vbfBorrow_ok hf hl]
    rfl
  case vbfBind blk node blkoff =>
    have ⟨hu, hn, hs⟩ := hp
    have ⟨b', he, w'⟩ := w.vbfBind_ok blkoff hu hn hs
    exact ⟨b', he, w', by simp⟩
  case vfsUnbuffer blk =>
    have ⟨blks, hs, hb⟩ := hp
    have ⟨b', he, r⟩ := w.vfsUnbuffer_ok hs hb
    refine ⟨b', he, r.sound w (List.nodup_singleton _) fun i hi => ?_, by simp⟩
    exact List.mem_singleton.mp hi ▸ ((w.bound _ blks hs).2 blk hb).1
  case vfsUnbufferAll node =>
    have ⟨blks, hs⟩ := Option.isSome_iff_exists.mp hp
    have ⟨b', he, _, w'⟩ := w.vfsUnbufferAll_ok hs
    exact ⟨b', he, w', by simp⟩
  case vfsShrink =>
    have hm : b.bbfFree = [] := hm
    refine ⟨b, ?_, w, fun _ blk hb => ?_⟩
    case refine_1 =>
      rw [PoolCall.exec, vfsShrink, vbfShrink, hm]
      rfl
    case refine_2 =>
      rw [hm] at hb
      cases hb

-- The objects of the blocks outlive a shrinking.
theorem vbfShrink_descs (h : b.vbfShrink = .ok b') : b'.descs = b.descs := by
  refine Except.foldlM_induction (motive := fun b₁ => b₁.descs = b.descs) (fun b₁ blk b₂ hb he => ?_) rfl h
  have ⟨b₃, hf, he⟩ := Except.bind_eq_ok.mp he
  cases he
  simp only [pmemFree] at hf
  split at hf
  case h_1 => cases hf
  case h_2 =>
    split_ifs at hf
    case pos =>
      cases hf
      exact hb

-- A call that does not meet it fails or breaks them.
theorem Accounted.meets_of_exec (w : b.Accounted) (he : call.exec b = .ok b') (w' : b'.Accounted)
    (hr : call = .vfsShrink → b.Released b') : call.Meets b := by
  cases call
  case vbfBorrow desc page =>
    simp only [PoolCall.exec, vbfBorrow] at he
    split at he
    case isTrue => cases he
    case isFalse hf =>
      split at he
      case isFalse => cases he
      case isTrue hl =>
        have hz : b.freeCnt = 0 := by simpa using hf
        have hfree : b.bbfFree = [] := List.length_eq_zero_iff.mp <| w.free ▸ hz ▸ rfl
        have hl : b.bbfUsed.length < b.totalMax.toNat := w.used ▸ BitVec.lt_def.mp hl
        cases desc
        case none     => cases he
        case some blk =>
          cases page
          case some page => exact ⟨hfree, hl, rfl, rfl⟩
          case none      =>
            cases he
            have ⟨p, _, hb, _⟩ := w'.owns blk <| by simp [all, setBlock]
            simp [setBlock] at hb
  case vfsShrink =>
    apply List.eq_nil_iff_forall_not_mem.mpr
    intro blk hb
    have ⟨hd, _⟩ := hr rfl blk hb
    rw [vbfShrink_descs he, w.descs] at hd
    exact hd <| List.mem_append_right _ hb
  all_goals trivial

-- The accounts of a run are right iff each call meets the condition.
theorem accounts_iff {blocks : Nat → PoolBlock} {files : Node → Bool} {totalMax : BitVec 32}
    (hp : (init blocks files totalMax).Along (fun b call => call.Permits b) calls) :
    (init blocks files totalMax).Accounts calls ↔
      (init blocks files totalMax).Along (fun b call => call.Meets b) calls := by
  have w := init_sound blocks files totalMax
  generalize init blocks files totalMax = b at hp w
  induction calls generalizing b
  case nil => exact ⟨fun _ => trivial, fun _ => w.accounted⟩
  case cons call calls hi =>
    have ⟨hc, hp⟩ := hp
    constructor
    case mp =>
      intro ⟨_, b', he, hr, h⟩
      have hm : call.Meets b := by
        refine w.accounted.meets_of_exec he ?_ hr
        cases calls
        case nil  => exact h
        case cons => exact h.1
      refine ⟨hm, fun b₁ he₁ => ?_⟩
      have ⟨b₂, he₂, w₂, _⟩ := w.exec_ok hc hm
      cases he.symm.trans he₁
      cases he.symm.trans he₂
      exact (hi _ (hp _ he) w₂).mp h
    case mpr =>
      intro ⟨hm, h⟩
      have ⟨b', he, w', hr⟩ := w.exec_ok hc hm
      exact ⟨w.accounted, b', he, hr, (hi b' (hp b' he) w').mpr <| h b' he⟩

end BlockPool

def samplePool : BlockPool :=
  .init (fun _ => ⟨none, 0, 0, 0⟩) (fun _ => true) 2

theorem samplePool_accounts :
    samplePool.Accounts [.vbfBorrow (some 5) (some 7), .vbfBind 5 1 0, .vfsUnbufferAll 1, .vfsUnbufferAll 2] := by
  refine (BlockPool.accounts_iff ?_).mpr ?_
  case refine_1 =>
    refine ⟨by simp [PoolCall.Permits, BlockPool.init], fun _ h => ?_⟩
    cases h
    refine ⟨⟨by decide, fun n blks h => ?_, rfl⟩, fun _ h => ?_⟩
    case refine_1 =>
      cases h
      simp
    case refine_2 =>
      cases h
      refine ⟨rfl, fun _ h => ?_⟩
      cases h
      exact ⟨rfl, fun _ _ => trivial⟩
  case refine_2 =>
    refine ⟨⟨rfl, by decide, rfl, rfl⟩, fun _ h => ?_⟩
    cases h
    exact ⟨trivial, fun _ _ => ⟨trivial, fun _ _ => ⟨trivial, fun _ _ => trivial⟩⟩⟩

-- A block is given back and shrunk away. Its object and the counter remain, and the next block is a wild pointer.
theorem samplePool_not_accounts :
    samplePool.Along (fun b call => call.Permits b)
      [.vbfBorrow (some 5) (some 7), .vbfBind 5 1 0, .vfsUnbuffer 5, .vfsShrink, .vbfBorrow (some 6) (some 7)] ∧
    ¬samplePool.Accounts
      [.vbfBorrow (some 5) (some 7), .vbfBind 5 1 0, .vfsUnbuffer 5, .vfsShrink, .vbfBorrow (some 6) (some 7)] := by
  constructor
  case left =>
    refine ⟨by simp [PoolCall.Permits, samplePool, BlockPool.init], fun _ h => ?_⟩
    cases h
    refine ⟨⟨by decide, fun n blks h => ?_, rfl⟩, fun _ h => ?_⟩
    case refine_1 =>
      cases h
      simp
    case refine_2 =>
      cases h
      refine ⟨⟨[5], rfl, by decide⟩, fun _ h => ?_⟩
      cases h
      refine ⟨trivial, fun _ h => ?_⟩
      cases h
      refine ⟨⟨fun _ h => ?_, fun _ h => ?_⟩, fun _ _ => trivial⟩
      case refine_1 =>
        cases h
        decide
      case refine_2 =>
        cases h
        decide
  case right =>
    intro ⟨_, _, h₁, _, _, _, h₂, _, _, _, h₃, _, _, _, h₄, hr, _⟩
    cases h₁
    cases h₂
    cases h₃
    cases h₄
    exact (hr rfl 5 <| by decide).1 (by decide)

end Zgmos.Fs
