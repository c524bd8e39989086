import Zgmos.Cpu.Nesting
import Zgmos.Fs.Blocks
import Zgmos.Fs.Descriptors
import Zgmos.Fs.Holders

-- The functions of the file system which hold its lock.

namespace Zgmos.Fs

variable {Obj : Type}

-- The file system and the hart on which its functions are called. The lists of blocks of the vnodes which
-- are not there yet are empty, as `vnode_add` makes them.
structure Mounted (Obj : Type) where
  hart   : Cpu.Hart
  vfs    : Vfs Obj
  blocks : Blocks

-- The blocks that are read one after the other.
def reads (node : Node) (blkoff : BitVec 64) (n : Nat) : List Access :=
  (List.range n).map fun i => (node, blkoff + .ofNat 64 i)

def byteoff (offset : BitVec 64) : Fin pageSize :=
  ⟨offset.toNat % pageSize, Nat.mod_lt _ <| by decide⟩

-- The loop of `vfs_read`. The bytes which it copies are left out.
def Blocks.copy (read : ReadBlock) (node : Node) (b : Blocks) (blkoff : BitVec 64) (byteoff : Fin pageSize) (left : Nat) :
    Except Fault Blocks :=
  if left = 0 then
    return b
  else do
    let (_, b) ← b.vfsAccess read node blkoff
    b.copy read node (blkoff + 1) ⟨0, by decide⟩ <| left - min (pageSize - byteoff) left
termination_by left
decreasing_by
  have := byteoff.isLt
  omega

def Vfs.firstChild (vfs : Vfs Obj) (parent : Node) : Option Node :=
  if (vfs.nodes parent).childCnt ≠ 0 then (vfs.nodes parent).children.head? else none

namespace Mounted

section Functions

variable (lock : Cpu.Lock) (read : ReadBlock) (s : Mounted Obj)

def acquire : Except Fault (Mounted Obj) :=
  return { s with hart := ← s.hart.spinlockAcquire lock }

def release : Except Fault (Mounted Obj) :=
  return { s with hart := ← s.hart.spinlockRelease lock }

def vfsOpen (parent : Option Node) (path : Name) : Except Fault (Option Node × Mounted Obj) := do
  let s ← s.acquire lock
  let (ret, vfs) ← s.vfs.vfsOpen parent path
  return (ret, ← { s with vfs }.release lock)

def vfsReopen (node : Node) : Except Fault (Node × Mounted Obj) := do
  let s ← s.acquire lock
  return (node, ← { s with vfs := s.vfs.vfsReopen node }.release lock)

def vfsClose (node : Node) : Mounted Obj :=
  { s with vfs := s.vfs.vfsClose node }

-- At the end of the file the lock is not released.
def vfsRead (node : Node) (offset bufLen : BitVec 64) : Except Fault (BitVec 64 × Mounted Obj) := do
  let s ← s.acquire lock
  let n := s.vfs.nodes node
  if n.type = .dev then
    match n.bkd with
    | none     => throw .outOfBounds
    | some bkd => return (bkd.read n.lfsObj offset bufLen, ← s.release lock)
  else if n.size.setWidth 64 ≤ offset then
    return (0, s)
  else
    let left := n.size.setWidth 64 - offset
    let bufLen := if bufLen ≤ left then bufLen else left
    let blocks ← s.blocks.copy read node (offset / .ofNat 64 pageSize) (byteoff offset) bufLen.toNat
    return (bufLen, ← { s with blocks }.release lock)

def vfsWrite (node : Node) (offset bufLen : BitVec 64) : Except Fault (BitVec 64 × Mounted Obj) := do
  let s ← s.acquire lock
  let n := s.vfs.nodes node
  if n.type = .dev then
    match n.bkd with
    | none     => throw .outOfBounds
    | some bkd => return (bkd.write n.lfsObj offset bufLen, ← s.release lock)
  else
    return (0, ← s.release lock)

-- The list head of the root is not in a list of children. Its successor is itself.
def vfsIterate (parent : Node) (last : Option Node) : Except Fault (Option Node × Mounted Obj) := do
  match last with
  | some last =>
    let siblings := (s.vfs.nodes (s.vfs.nodes last).parent).children
    return (if last = root then some root else (siblings.dropWhile (· ≠ last)).tail.head?, s)
  | none =>
    let s ←
      if s.vfs.isSpaned parent then
        pure s
      else
        let s ← s.acquire lock
        let (_, vfs) ← s.vfs.vfsSpanSearch parent none
        { s with vfs }.release lock
    return (s.vfs.firstChild parent, s)

end Functions
end Mounted

inductive VfsCall
  | vfsOpen (parent : Option Node) (path : Name)
  | vfsReopen (node : Node)
  | vfsClose (node : Node)
  | vfsRead (node : Node) (offset bufLen : BitVec 64)
  | vfsWrite (node : Node) (offset bufLen : BitVec 64)
  | vfsIterate (parent : Node) (last : Option Node)

namespace VfsCall

def run (lock : Cpu.Lock) (read : ReadBlock) (s : Mounted Obj) : VfsCall → Except Fault (Mounted Obj)
  | vfsOpen parent path         => (·.2) <$> s.vfsOpen lock parent path
  | vfsReopen node              => (·.2) <$> s.vfsReopen lock node
  | vfsClose node               => return s.vfsClose node
  | vfsRead node offset bufLen  => (·.2) <$> s.vfsRead lock read node offset bufLen
  | vfsWrite node offset bufLen => (·.2) <$> s.vfsWrite lock node offset bufLen
  | vfsIterate parent last      => (·.2) <$> s.vfsIterate lock parent last

-- The vnodes of a call are there.
def Names (s : Mounted Obj) : VfsCall → Prop
  | vfsOpen parent _       => ∀ p ∈ parent, p < s.vfs.next
  | vfsReopen node         => node < s.vfs.next
  | vfsClose node          => node < s.vfs.next
  | vfsRead node _ _       => node < s.vfs.next
  | vfsWrite node _ _      => node < s.vfs.next
  | vfsIterate parent last => parent < s.vfs.next ∧ ∀ l ∈ last, l < s.vfs.next

end VfsCall

namespace Blocks

-- There is room for the blocks `n` from `blkoff` on.
def Room (b : Blocks) (node : Node) (blkoff : BitVec 64) (n : Nat) : Prop :=
  (b.bbf node).isSome ∧ (b.keys ++ (reads node blkoff n).map Access.key).dedup.length ≤ b.totalMax.toNat

end Blocks

-- The number of bytes that `vfs_read` reads of a file.
def readLength (size : BitVec 32) (offset bufLen : BitVec 64) : Nat :=
  min bufLen.toNat (size.toNat - offset.toNat)

-- The number of blocks which contain bytes of a range.
def blockCount (byteoff length : Nat) : Nat :=
  (byteoff + length + pageSize - 1) / pageSize

-- The path can be resolved, a file is read before its end and its blocks fit into the buffer, a device has
-- a backend, and the backend of a directory ends its iterations.
def VfsCall.Meets (s : Mounted Obj) : VfsCall → Prop
  | vfsOpen parent path        => s.vfs.Resolvable parent path
  | vfsReopen _                => True
  | vfsClose _                 => True
  | vfsRead node offset bufLen =>
    let n := s.vfs.nodes node
    if n.type = .dev then
      n.bkd ≠ none
    else
      let blkCnt := blockCount (byteoff offset) <| readLength n.size offset bufLen
      offset.toNat < n.size.toNat ∧ (bufLen ≠ 0 → s.blocks.Room node (offset / .ofNat 64 pageSize) blkCnt)
  | vfsWrite node _ _          => (s.vfs.nodes node).type = .dev → (s.vfs.nodes node).bkd ≠ none
  | vfsIterate parent last     => last.isSome ∨ s.vfs.isSpaned parent ∨
    ∃ bkd, (s.vfs.nodes parent).bkd = some bkd ∧ bkd.Iterates (s.vfs.nodes parent).lfsObj

namespace Mounted

-- No call holds the lock.
structure Idle (lock : Cpu.Lock) (s : Mounted Obj) : Prop where
  free  : (s.hart.locks lock).locked = 0
  depth : s.hart.intDepth = 0

-- Each call returns, and the lock is free afterwards.
def Disciplined (lock : Cpu.Lock) (read : ReadBlock) (s : Mounted Obj) (calls : List VfsCall) : Prop :=
  ∀ pre post, calls = pre ++ post → ∃ s', pre.foldlM (VfsCall.run lock read) s = .ok s' ∧ s'.Idle lock

-- The vnodes are a tree, and the blocks are those of some accesses.
structure Sound (read : ReadBlock) (s : Mounted Obj) : Prop where
  tree   : s.vfs.Tree
  blocks : ∃ accs, s.blocks.Keeps read accs

variable {lock : Cpu.Lock} {s : Mounted Obj}

-- A critical section takes the lock and gives it back.
theorem Idle.section (w : s.Idle lock) : ∃ hart hart', s.acquire lock = .ok { s with hart } ∧
    (∀ vfs blocks, release lock { hart, vfs, blocks : Mounted Obj } = .ok { hart := hart', vfs, blocks }) ∧
    ∀ vfs blocks, Idle lock { hart := hart', vfs, blocks : Mounted Obj } := by
  have h : Cpu.Holds s.hart [] := ⟨w.depth, fun h => absurd rfl h, by simp⟩
  have ⟨hart, ha, h', _⟩ := h.acquire w.free
  have ⟨hart', hr, h'', _, hf, _⟩ := h'.release (by simp)
  refine ⟨hart, hart', ?_, fun vfs blocks => ?_, fun _ _ => ⟨hf, h''.depth⟩⟩
  case refine_1 => rw [acquire, ha]; rfl
  case refine_2 => rw [release, hr]; rfl

end Mounted

theorem reads_succ {node : Node} {blkoff : BitVec 64} {n : Nat} :
    reads node blkoff (n + 1) = (node, blkoff) :: reads node (blkoff + 1) n := by
  simp only [reads, List.range_succ_eq_map, List.map_cons, List.map_map]
  refine congrArg₂ _ (by simp) <| List.map_congr_left fun i _ => ?_
  simp [BitVec.ofNat_add, BitVec.add_assoc, BitVec.add_comm 1#64]

theorem mem_reads {node : Node} {blkoff : BitVec 64} {n : Nat} {a : Access} (h : a ∈ reads node blkoff n) : a.1 = node := by
  have ⟨_, _, he⟩ := List.mem_map.mp h
  rw [← he]

-- The first block and the others.
theorem blockCount_succ {byteoff left : Nat} (hb : byteoff < pageSize) (hl : 0 < left) :
    blockCount byteoff left = blockCount 0 (left - min (pageSize - byteoff) left) + 1 := by
  simp only [blockCount, pageSize] at hb ⊢
  omega

namespace Blocks

variable {read : ReadBlock} {b : Blocks} {node : Node}

-- The loop of `vfs_read` makes one access after the other.
theorem copy_eq {left : Nat} (hl : 0 < left) (blkoff : BitVec 64) (byteoff : Fin pageSize) :
    b.copy read node blkoff byteoff left = (reads node blkoff <| blockCount byteoff left).foldlM (access read) b := by
  induction left using Nat.strongRecOn generalizing b blkoff byteoff
  case ind left hi =>
    rw [copy, if_neg hl.ne', blockCount_succ byteoff.isLt hl, reads_succ, List.foldlM_cons, access]
    cases b.vfsAccess read node blkoff
    case error => rfl
    case ok r  =>
      obtain ⟨blk, b₁⟩ := r
      show b₁.copy read node (blkoff + 1) _ _ = List.foldlM (access read) b₁ _
      cases Nat.eq_zero_or_pos <| left - min (pageSize - byteoff) left
      case inl hz =>
        rw [hz, copy, if_pos rfl]
        rfl
      case inr hp =>
        have := byteoff.isLt
        exact hi _ (by omega) hp _ _

-- The blocks of a range are read if there is room for them.
theorem Keeps.copy {accs : List (Node × BitVec 32)} {blkoff : BitVec 64} {byteoff : Fin pageSize} {left : Nat}
    (w : b.Keeps read accs) (h : 0 < left → b.Room node blkoff (blockCount byteoff left)) :
    ∃ b', b.copy read node blkoff byteoff left = .ok b' ∧ ∃ accs', b'.Keeps read accs' := by
  cases Nat.eq_zero_or_pos left
  case inl hz =>
    rw [hz, Blocks.copy, if_pos rfl]
    exact ⟨b, rfl, accs, w⟩
  case inr hl =>
    have ⟨hn, hm⟩ := h hl
    have ⟨b', he, w', _⟩ := w.run (reads node blkoff <| blockCount byteoff left) (fun a ha => mem_reads ha ▸ hn) <| by
      refine (List.length_dedup_le fun a ha => ?_).trans hm
      rw [List.mem_append, w.keys, List.mem_dedup]
      exact List.mem_append.mp ha
    exact ⟨b', copy_eq hl _ _ ▸ he, _, w'⟩

end Blocks

namespace Mounted

variable {lock : Cpu.Lock} {read : ReadBlock} {s : Mounted Obj} {call : VfsCall} {calls : List VfsCall}

section Calls

variable (i : s.Idle lock) (w : s.Sound read)

include i w

theorem Idle.vfsOpen_ok {parent : Option Node} {path : Name} (hp : ∀ p ∈ parent, p < s.vfs.next)
    (h : s.vfs.Resolvable parent path) :
    ∃ ret s', s.vfsOpen lock parent path = .ok (ret, s') ∧ s'.Idle lock ∧ s'.Sound read := by
  have ⟨hart, hart', ha, hr, hi⟩ := i.section
  have ⟨ret, vfs, ho⟩ : ∃ ret vfs, s.vfs.vfsOpen parent path = .ok (ret, vfs) := by
    have ⟨ret, vfs, hg, _⟩ := Vfs.vfsGetRecursive_ok w.tree hp h
    rw [Vfs.vfsOpen, hg]
    cases ret <;> exact ⟨_, _, rfl⟩
  refine ⟨ret, _, ?_, hi vfs s.blocks, (w.tree.vfsOpen hp ho).1, w.blocks⟩
  rw [vfsOpen, ha]
  simp only [bind, Except.bind, ho, hr]
  rfl

theorem Idle.vfsReopen_ok (node : Node) : ∃ s', s.vfsReopen lock node = .ok (node, s') ∧ s'.Idle lock ∧ s'.Sound read := by
  have ⟨hart, hart', ha, hr, hi⟩ := i.section
  refine ⟨_, ?_, hi (s.vfs.vfsReopen node) s.blocks, w.tree.recounts <| Vfs.recounts_setNode (· + 1), w.blocks⟩
  rw [vfsReopen, ha]
  simp only [bind, Except.bind, hr]
  rfl

theorem Idle.vfsWrite_ok {node : Node} (offset bufLen : BitVec 64)
    (h : (s.vfs.nodes node).type = .dev → (s.vfs.nodes node).bkd ≠ none) :
    ∃ ret s', s.vfsWrite lock node offset bufLen = .ok (ret, s') ∧ s'.Idle lock ∧ s'.Sound read := by
  have ⟨hart, hart', ha, hr, hi⟩ := i.section
  by_cases hd : (s.vfs.nodes node).type = .dev
  case pos =>
    have ⟨bkd, hb⟩ := Option.ne_none_iff_exists'.mp <| h hd
    refine ⟨bkd.write (s.vfs.nodes node).lfsObj offset bufLen, _, ?_, hi s.vfs s.blocks, w.tree, w.blocks⟩
    rw [vfsWrite, ha]
    simp only [bind, Except.bind, hd, hb, hr]
    rfl
  case neg =>
    refine ⟨0, _, ?_, hi s.vfs s.blocks, w.tree, w.blocks⟩
    rw [vfsWrite, ha]
    simp only [bind, Except.bind, hd, hr]
    rfl

theorem Idle.vfsRead_ok {node : Node} {offset bufLen : BitVec 64} (h : (VfsCall.vfsRead node offset bufLen).Meets s) :
    ∃ ret s', s.vfsRead lock read node offset bufLen = .ok (ret, s') ∧ s'.Idle lock ∧ s'.Sound read := by
  have ⟨hart, hart', ha, hr, hi⟩ := i.section
  rw [VfsCall.Meets] at h
  by_cases hd : (s.vfs.nodes node).type = .dev
  case pos =>
    rw [if_pos hd] at h
    have ⟨bkd, hb⟩ := Option.ne_none_iff_exists'.mp h
    refine ⟨bkd.read (s.vfs.nodes node).lfsObj offset bufLen, _, ?_, hi s.vfs s.blocks, w.tree, w.blocks⟩
    rw [vfsRead, ha]
    simp only [bind, Except.bind, hd, hb, hr]
    rfl
  case neg =>
    rw [if_neg hd] at h
    have ⟨ho, hroom⟩ := h
    have ⟨accs, hk⟩ := w.blocks
    have hle : ¬(s.vfs.nodes node).size.setWidth 64 ≤ offset := by
      rw [BitVec.le_def, BitVec.toNat_setWidth]
      omega
    generalize hl : (if bufLen ≤ (s.vfs.nodes node).size.setWidth 64 - offset then bufLen else
      (s.vfs.nodes node).size.setWidth 64 - offset) = left
    have hlen : left.toNat = readLength (s.vfs.nodes node).size offset bufLen := by
      have hs : ((s.vfs.nodes node).size.setWidth 64 - offset).toNat = (s.vfs.nodes node).size.toNat - offset.toNat := by
        have := BitVec.lt_def.mp <| BitVec.not_le.mp hle
        rw [BitVec.toNat_sub_of_le <| BitVec.le_of_lt <| BitVec.not_le.mp hle, BitVec.toNat_setWidth]
        omega
      rw [readLength, ← hs, ← hl]
      split_ifs
      case pos h => exact (Nat.min_eq_left <| BitVec.le_def.mp h).symm
      case neg h => exact (Nat.min_eq_right <| Nat.le_of_lt <| BitVec.lt_def.mp <| BitVec.not_le.mp h).symm
    have hroom : 0 < left.toNat →
        s.blocks.Room node (offset / .ofNat 64 pageSize) (blockCount (byteoff offset) left.toNat) := by
      rw [hlen]
      intro hp
      apply hroom
      rintro rfl
      simp [readLength] at hp
    have ⟨blocks, hc, hk'⟩ := hk.copy hroom
    refine ⟨left, _, ?_, hi s.vfs blocks, w.tree, hk'⟩
    rw [vfsRead, ha]
    simp only [bind, Except.bind, hd, hle, hl, if_false, hc, hr, pure, Except.pure]

theorem Idle.vfsIterate_ok {parent : Node} {last : Option Node} (hp : parent < s.vfs.next)
    (h : (VfsCall.vfsIterate parent last).Meets s) :
    ∃ ret s', s.vfsIterate lock parent last = .ok (ret, s') ∧ s'.Idle lock ∧ s'.Sound read := by
  cases last
  case some last => exact ⟨_, s, rfl, i, w⟩
  case none =>
    by_cases hs : s.vfs.isSpaned parent
    case pos =>
      refine ⟨s.vfs.firstChild parent, s, ?_, i, w⟩
      simp only [vfsIterate, hs]
      rfl
    case neg =>
      have ⟨hart, hart', ha, hr, hi⟩ := i.section
      have ⟨bkd, hb, hbi⟩ := (h.resolve_left (by simp)).resolve_left hs
      have ⟨ret, vfs, hv, t, _⟩ : ∃ ret vfs, s.vfs.vfsSpanSearch parent none = .ok (ret, vfs) ∧ vfs.Tree ∧ _ :=
        w.tree.vfsSpanSearch hp hb hbi
      refine ⟨vfs.firstChild parent, _, ?_, hi vfs s.blocks, t, w.blocks⟩
      simp only [vfsIterate, hs, ha, bind, Except.bind, hv, hr]
      rfl

-- A call keeps the discipline.
theorem Idle.run_ok (hn : call.Names s) (h : call.Meets s) :
    ∃ s', call.run lock read s = .ok s' ∧ s'.Idle lock ∧ s'.Sound read := by
  have hmap {α : Type} {x : Except Fault (α × Mounted Obj)}
      (hx : ∃ ret s', x = .ok (ret, s') ∧ s'.Idle lock ∧ s'.Sound read) :
      ∃ s', (·.2) <$> x = .ok s' ∧ s'.Idle lock ∧ s'.Sound read := by
    have ⟨ret, s', he, h⟩ := hx
    exact ⟨s', by rw [he]; rfl, h⟩
  cases call
  case vfsOpen parent path => exact hmap <| i.vfsOpen_ok w hn h
  case vfsReopen node      => exact hmap ⟨node, i.vfsReopen_ok w node⟩
  case vfsClose node       =>
    exact ⟨_, rfl, ⟨i.free, i.depth⟩, w.tree.recounts <| Vfs.recounts_setNode (· - 1), w.blocks⟩
  case vfsRead             => exact hmap <| i.vfsRead_ok w h
  case vfsWrite            => exact hmap <| i.vfsWrite_ok w _ _ h
  case vfsIterate          => exact hmap <| i.vfsIterate_ok w hn.1 h

end Calls

-- The lock is free between the calls unless a file is read at its end.
theorem disciplined_of_meets (i : s.Idle lock) (w : s.Sound read)
    (h : ∀ pre call post s', calls = pre ++ call :: post → pre.foldlM (VfsCall.run lock read) s = .ok s' →
      call.Names s' ∧ call.Meets s') : Disciplined lock read s calls := by
  induction calls generalizing s
  case nil =>
    intro pre post he
    have ⟨hp, _⟩ := List.append_eq_nil_iff.mp he.symm
    exact ⟨s, by rw [hp]; rfl, i⟩
  case cons call calls hi =>
    intro pre post he
    cases pre
    case nil => exact ⟨s, rfl, i⟩
    case cons call' pre =>
      cases he
      have ⟨hn, hm⟩ := h [] call (pre ++ post) s rfl rfl
      have ⟨s₁, h₁, i₁, w₁⟩ := i.run_ok w hn hm
      have ⟨s', hs, i'⟩ := hi i₁ w₁ (fun pre' call' post' s' he hr =>
        h (call :: pre') call' post' s' (by rw [he]; rfl) <| by rw [List.foldlM_cons, h₁]; exact hr) pre post rfl
      exact ⟨s', by rw [List.foldlM_cons, h₁]; exact hs, i'⟩

end Mounted

-- The vnode 1 is a file of `size` bytes.
def sizedVfs (size : BitVec 32) : Vfs Nat :=
  fileVfs.setNode 1 ({ · with size })

def sampleMounted (size : BitVec 32) : Mounted Nat where
  hart   := Cpu.interruptible
  vfs    := sizedVfs size
  blocks := sampleBlocks 1

theorem sizedVfs_tree (size : BitVec 32) : (sizedVfs size).Tree := by
  have h (i : Nat) : ∃ n, (sizedVfs size).nodes i = { fileVfs.nodes i with size := n } := by
    by_cases hi : i = 1
    case pos => exact ⟨size, by simp [sizedVfs, Vfs.setNode, hi]⟩
    case neg => exact ⟨(fileVfs.nodes i).size, by simp [sizedVfs, Vfs.setNode, hi]⟩
  constructor
  case root => exact fileVfs_tree.root
  all_goals
    intro i hi
    obtain ⟨_, he⟩ := h i
  case parent   => rw [he]; exact fileVfs_tree.parent i hi
  case children => rw [he]; exact fileVfs_tree.children i hi
  case backed   =>
    have := fileVfs_tree.backed i hi
    rwa [Vfs.isSpaned, he]

theorem sampleMounted_disciplined :
    (sampleMounted 5).Disciplined 0 sampleRead [.vfsClose 1, .vfsRead 1 2 7] := by
  apply Mounted.disciplined_of_meets
  case i => exact ⟨rfl, rfl⟩
  case w => exact ⟨sizedVfs_tree 5, [], .init ..⟩
  case h =>
    intro pre call post s' he hr
    have hn : (1 : Node) < (sampleMounted 5).vfs.next := by decide
    cases pre
    case nil =>
      cases he
      cases hr
      exact ⟨hn, trivial⟩
    case cons call' pre =>
      have ⟨hc, he⟩ := List.cons.inj he
      subst hc
      cases pre
      case nil =>
        cases he
        cases hr
        refine ⟨hn, ?_⟩
        rw [VfsCall.Meets, if_neg (by decide)]
        exact ⟨by decide, fun _ => ⟨rfl, by decide⟩⟩
      case cons => simp at he

-- The lock is kept by a read at the end of the file, and the next call finds it.
theorem sampleMounted_not_disciplined : (sampleMounted 5).Idle 0 ∧
    ¬(sampleMounted 5).Disciplined 0 sampleRead [.vfsRead 1 5 1, .vfsReopen 1] ∧
    [.vfsRead 1 5 1, .vfsReopen 1].foldlM (VfsCall.run 0 sampleRead) (sampleMounted 5) = .error .panic := by
  refine ⟨⟨rfl, rfl⟩, fun h => ?_, rfl⟩
  have ⟨s', hr, i⟩ := h [.vfsRead 1 5 1] [.vfsReopen 1] rfl
  cases hr
  exact absurd i.free (by decide)

end Zgmos.Fs
