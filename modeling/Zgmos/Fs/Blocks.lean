import Zgmos.Fs.Vfs
import Zgmos.Kernel.Utils
import Zgmos.Lib.Except
import Zgmos.Lib.Recency

-- The blocks in which the contents of files are kept.

namespace Zgmos.Fs

structure VfsBlock where
  buf    : List (BitVec 8)
  node   : Node
  blkoff : BitVec 32
  dirty  : BitVec 32

-- The blocks from `next` on are memory which has not been allocated yet, with arbitrary contents. The
-- list `bbf` of a vnode is missing if it has not been initialized.
structure Blocks where
  blocks   : Nat → VfsBlock
  next     : Nat
  bbfUsed  : List Nat
  usedCnt  : BitVec 32
  freeCnt  : BitVec 32
  totalMax : BitVec 32
  bbf      : Node → Option (List Nat)

-- The bytes which the backend of a vnode puts into a buffer of the size of a block.
abbrev ReadBlock := Node → (offset : BitVec 64) → List (BitVec 8)

namespace Blocks

-- The state after `vfs_init`. The lists of the vnodes `files` have been initialized.
def init (blocks : Nat → VfsBlock) (files : Node → Bool) (totalMax : BitVec 32) : Blocks where
  blocks   := blocks
  next     := 0
  bbfUsed  := []
  usedCnt  := 0
  freeCnt  := 0
  totalMax := totalMax
  bbf n    := if files n then some [] else none

-- A list head of `vfs` itself is taken for a block if a block is to be used again.
def vbfBorrow (b : Blocks) : Except Fault (Nat × Blocks) :=
  if 0 < b.freeCnt then
    throw .wildPointer
  else if b.usedCnt < b.totalMax then
    return (b.next, { b with
      next    := b.next + 1
      usedCnt := b.usedCnt + 1
      bbfUsed := b.bbfUsed ++ [b.next] })
  else
    throw .wildPointer

-- The offset is computed with 32 bits.
def vbfBind (read : ReadBlock) (b : Blocks) (blk : Nat) (node : Node) (blkoff : BitVec 32) : Except Fault Blocks :=
  match b.bbf node with
  | none      => throw .wildPointer
  | some blks =>
    let data := read node <| (blkoff * .ofNat 32 pageSize).setWidth 64
    let buf := data ++ (b.blocks blk).buf.drop data.length
    return { b with
      blocks := Function.update b.blocks blk { buf, node, blkoff, dirty := 0 }
      bbf    := Function.update b.bbf node <| some (blk :: blks) }

def vbfActivate (b : Blocks) (blk : Nat) : Blocks :=
  { b with bbfUsed := b.bbfUsed.erase blk ++ [blk] }

def vbfChkbufed (b : Blocks) (node : Node) (blkoff : BitVec 32) : Except Fault (Option Nat) :=
  match b.bbf node with
  | none      => throw .wildPointer
  | some blks => return blks.find? fun blk => (b.blocks blk).blkoff = blkoff

-- The block of the returned buffer.
def vfsAccess (read : ReadBlock) (b : Blocks) (node : Node) (blkoff : BitVec 64) : Except Fault (Nat × Blocks) := do
  match ← b.vbfChkbufed node <| blkoff.setWidth 32 with
  | some blk => return (blk, b.vbfActivate blk)
  | none     =>
    let (blk, b) ← b.vbfBorrow
    return (blk, ← b.vbfBind read blk node <| blkoff.setWidth 32)

-- What a block is bound to.
def key (b : Blocks) (blk : Nat) : Node × BitVec 32 :=
  ((b.blocks blk).node, (b.blocks blk).blkoff)

def keys (b : Blocks) : List (Node × BitVec 32) :=
  b.bbfUsed.map b.key

end Blocks

-- A call of `vfs_access`.
abbrev Access := Node × BitVec 64

def Access.key (a : Access) : Node × BitVec 32 :=
  (a.1, a.2.setWidth 32)

-- The offset of the block has less than 32 bits, like the sizes of files.
def Access.InRange (a : Access) : Prop :=
  a.2.toNat < 2 ^ 20

namespace Blocks

def access (read : ReadBlock) (b : Blocks) (a : Access) : Except Fault Blocks :=
  (·.2) <$> b.vfsAccess read a.1 a.2

-- What is wanted of an access after those in `past`.
structure Served (read : ReadBlock) (past : List Access) (b : Blocks) (a : Access) (blk : Nat) (b' : Blocks) : Prop where
  content : read a.1 (a.2 * .ofNat 64 pageSize) <+: (b'.blocks blk).buf
  bound   : blk ∈ b'.bbfUsed ∧ b'.key blk = a.key
  single  : b'.keys.Nodup
  count   : b'.next ≤ b'.totalMax.toNat
  -- If there is no room for another block, the least recently used one is taken.
  lru     : b.next = b.totalMax.toNat → a.key ∉ b.keys →
    past.dedup.head?.map Access.key = some (b.key blk) ∧ ∀ n ≠ a.1, ∀ blks ∈ b'.bbf n, blk ∉ blks

def Serves (read : ReadBlock) (b : Blocks) (accs : List Access) : Prop :=
  ∀ pre a post, accs = pre ++ a :: post → ∃ b₁ blk b₂, pre.foldlM (access read) b = .ok b₁ ∧
    b₁.vfsAccess read a.1 a.2 = .ok (blk, b₂) ∧ Served read pre b₁ a blk b₂

-- The blocks with a new one which is bound to a pair. `blks` are the other blocks of the vnode.
def fill (read : ReadBlock) (b : Blocks) (node : Node) (blkoff : BitVec 32) (blks : List Nat) : Blocks :=
  let data := read node <| (blkoff * .ofNat 32 pageSize).setWidth 64
  let buf := data ++ (b.blocks b.next).buf.drop data.length
  { b with
    next    := b.next + 1
    usedCnt := b.usedCnt + 1
    bbfUsed := b.bbfUsed ++ [b.next]
    blocks  := Function.update b.blocks b.next { buf, node, blkoff, dirty := 0 }
    bbf     := Function.update b.bbf node <| some (b.next :: blks) }

-- The blocks of the accesses `accs`, of which the least recently used one comes first.
structure Keeps (read : ReadBlock) (b : Blocks) (accs : List (Node × BitVec 32)) : Prop where
  keys : b.keys = accs.dedup
  free : b.freeCnt = 0
  next : b.next = b.bbfUsed.length
  cnt  : b.usedCnt.toNat = b.bbfUsed.length
  max  : b.bbfUsed.length ≤ b.totalMax.toNat
  lt   : ∀ blk ∈ b.bbfUsed, blk < b.next
  bbf  : ∀ n, ∀ blks ∈ b.bbf n, ∀ blk, blk ∈ blks ↔ blk ∈ b.bbfUsed ∧ (b.blocks blk).node = n
  buf  : ∀ blk ∈ b.bbfUsed, read (b.key blk).1 (((b.key blk).2 * .ofNat 32 pageSize).setWidth 64) <+: (b.blocks blk).buf

variable {read : ReadBlock} {b b' : Blocks} {accs : List (Node × BitVec 32)} {node : Node} {blkoff : BitVec 32}
  {blk : Nat}

theorem Keeps.init (read : ReadBlock) (blocks : Nat → VfsBlock) (files : Node → Bool) (totalMax : BitVec 32) :
    (Blocks.init blocks files totalMax).Keeps read [] where
  keys := rfl
  free := rfl
  next := rfl
  cnt  := rfl
  max  := Nat.zero_le _
  lt   := by simp [Blocks.init]
  bbf  := by simp [Blocks.init]
  buf  := by simp [Blocks.init]

namespace Keeps

variable (w : b.Keeps read accs)

include w

theorem length : b.bbfUsed.length = accs.dedup.length := by
  rw [← w.keys, Blocks.keys, List.length_map]

theorem keys_nodup : b.keys.Nodup :=
  w.keys ▸ List.nodup_dedup accs

theorem nodup : b.bbfUsed.Nodup :=
  .of_map b.key w.keys_nodup

theorem mem_keys : (node, blkoff) ∈ b.keys ↔ (node, blkoff) ∈ accs := by
  rw [w.keys, List.mem_dedup]

-- The block of a pair is found in the list of its vnode.
theorem chkbufed_some (hl : (b.bbf node).isSome) (h : (node, blkoff) ∈ accs) :
    ∃ blk ∈ b.bbfUsed, b.vbfChkbufed node blkoff = .ok (some blk) ∧ b.key blk = (node, blkoff) := by
  have ⟨blks, hb⟩ := Option.isSome_iff_exists.mp hl
  have ⟨i, hi, he⟩ := List.mem_map.mp <| w.mem_keys.mpr h
  have hm : i ∈ blks := (w.bbf node blks hb i).mpr ⟨hi, congrArg (·.1) he⟩
  have ⟨blk, hf⟩ : ∃ blk, blks.find? (fun blk => (b.blocks blk).blkoff = blkoff) = some blk := by
    apply Option.isSome_iff_exists.mp
    apply List.find?_isSome.mpr
    exact ⟨i, hm, decide_eq_true <| congrArg (·.2) he⟩
  have ⟨hu, hn⟩ := (w.bbf node blks hb blk).mp <| List.mem_of_find?_eq_some hf
  have ho : (b.blocks blk).blkoff = blkoff := by simpa using List.find?_some hf
  exact ⟨blk, hu, by rw [vbfChkbufed, hb]; exact congrArg Except.ok hf, Prod.ext hn ho⟩

theorem chkbufed_none (hl : (b.bbf node).isSome) (h : (node, blkoff) ∉ accs) :
    b.vbfChkbufed node blkoff = .ok none := by
  have ⟨blks, hb⟩ := Option.isSome_iff_exists.mp hl
  have hf : blks.find? (fun blk => (b.blocks blk).blkoff = blkoff) = none := by
    apply List.find?_eq_none.mpr
    intro blk hm ho
    have ⟨hu, hn⟩ := (w.bbf node blks hb blk).mp hm
    exact h <| w.mem_keys.mp <| List.mem_map.mpr ⟨blk, hu, Prod.ext hn <| of_decide_eq_true ho⟩
  rw [vbfChkbufed, hb]
  exact congrArg Except.ok hf

-- A block which is used again moves to the end.
theorem activate (hb : blk ∈ b.bbfUsed) : (b.vbfActivate blk).Keeps read (accs ++ [b.key blk]) := by
  have hp : (b.vbfActivate blk).bbfUsed.Perm b.bbfUsed :=
    List.perm_append_comm.trans (List.perm_cons_erase hb).symm
  constructor
  case keys =>
    rw [List.dedup_concat, ← w.keys, Blocks.keys, Blocks.keys, ← List.map_erase_of_nodup w.keys_nodup hb]
    exact List.map_append
  case free => exact w.free
  case next => exact w.next.trans hp.length_eq.symm
  case cnt  => exact w.cnt.trans hp.length_eq.symm
  case max  => exact hp.length_eq.symm ▸ w.max
  case lt   => exact fun i hi => w.lt i <| hp.mem_iff.mp hi
  case bbf  => exact fun n blks hs i => (w.bbf n blks hs i).trans <| and_congr_left fun _ => hp.mem_iff.symm
  case buf  => exact fun i hi => w.buf i <| hp.mem_iff.mp hi

theorem ne_next (hb : blk ∈ b.bbfUsed) : blk ≠ b.next :=
  (w.lt blk hb).ne

theorem key_fill {blks : List Nat} (hb : blk ∈ b.bbfUsed) : (b.fill read node blkoff blks).key blk = b.key blk := by
  simp [Blocks.key, Blocks.fill, w.ne_next hb]

theorem mem_fill {blks : List Nat} (hb : b.bbf node = some blks) {n : Node} {blks' : List Nat}
    (hs : blks' ∈ (b.fill read node blkoff blks).bbf n) :
    blk ∈ blks' ↔ blk ∈ (b.fill read node blkoff blks).bbfUsed ∧ ((b.fill read node blkoff blks).blocks blk).node = n := by
  have hnext (n : Node) (blks : List Nat) (hs : blks ∈ b.bbf n) : b.next ∉ blks := fun h =>
    w.ne_next ((w.bbf n blks hs _).mp h).1 rfl
  simp only [Blocks.fill, List.mem_append, List.mem_singleton] at hs ⊢
  by_cases hn : n = node
  case pos =>
    rw [hn, Function.update_self] at hs
    cases hs
    by_cases hi : blk = b.next
    case pos => simp [hi, hn]
    case neg => simp [hi, hn, w.bbf node blks hb blk]
  case neg =>
    rw [Function.update_of_ne hn] at hs
    by_cases hi : blk = b.next
    case pos => simp [hi, hnext n blks' hs, Ne.symm hn]
    case neg => simp [hi, w.bbf n blks' hs blk]

-- A new block is bound to the pair.
theorem fill {blks : List Nat} (hb : b.bbf node = some blks) (h : (node, blkoff) ∉ accs)
    (hm : b.bbfUsed.length < b.totalMax.toNat) : (b.fill read node blkoff blks).Keeps read (accs ++ [(node, blkoff)]) := by
  have hnew : (b.fill read node blkoff blks).key b.next = (node, blkoff) := by simp [Blocks.key, Blocks.fill]
  constructor
  case keys =>
    rw [List.dedup_concat_of_notMem h, ← w.keys]
    have hk : b.bbfUsed.map (b.fill read node blkoff blks).key = b.keys :=
      List.map_congr_left fun i hi => w.key_fill hi
    rw [← hk, ← hnew]
    exact List.map_append
  case free => exact w.free
  case next => simp [Blocks.fill, w.next]
  case cnt  =>
    have hlt := b.totalMax.isLt
    have hone : (1 : BitVec 32).toNat = 1 := rfl
    simp only [Blocks.fill, BitVec.toNat_add, hone, w.cnt, List.length_append, List.length_singleton]
    exact Nat.mod_eq_of_lt <| by omega
  case max  => simpa [Blocks.fill] using hm
  case lt   =>
    intro i hi
    cases List.mem_append.mp hi
    case inl hi => exact Nat.lt_succ_of_lt <| w.lt i hi
    case inr hi => simp [Blocks.fill, List.mem_singleton.mp hi]
  case bbf  => exact fun n blks' hs i => w.mem_fill hb hs
  case buf  =>
    intro i hi
    cases List.mem_append.mp hi
    case inl hi =>
      rw [w.key_fill hi]
      simp only [Blocks.fill, Function.update_of_ne <| w.ne_next hi]
      exact w.buf i hi
    case inr hi =>
      rw [List.mem_singleton.mp hi, hnew]
      simp only [Blocks.fill, Function.update_self]
      exact List.prefix_append ..

theorem vbfBorrow_ok (hm : b.bbfUsed.length < b.totalMax.toNat) : b.vbfBorrow = .ok (b.next, { b with
    next    := b.next + 1
    usedCnt := b.usedCnt + 1
    bbfUsed := b.bbfUsed ++ [b.next] }) := by
  rw [vbfBorrow, if_neg (by simp [w.free]), if_pos <| BitVec.lt_def.mpr <| w.cnt ▸ hm]
  rfl

theorem vbfBorrow_error (hm : b.totalMax.toNat ≤ b.bbfUsed.length) : b.vbfBorrow = .error .wildPointer := by
  rw [vbfBorrow, if_neg (by simp [w.free]), if_neg fun hu => (w.cnt ▸ BitVec.lt_def.mp hu).not_ge hm]
  rfl

-- An access ends as long as there is room for the blocks of all accesses.
theorem vfsAccess_ok {a : Access} (hl : (b.bbf a.1).isSome) (hm : (accs ++ [a.key]).dedup.length ≤ b.totalMax.toNat) :
    ∃ blk b', b.vfsAccess read a.1 a.2 = .ok (blk, b') ∧ b'.Keeps read (accs ++ [a.key]) ∧
      blk ∈ b'.bbfUsed ∧ b'.key blk = a.key ∧ b'.totalMax = b.totalMax ∧ ∀ n, (b'.bbf n).isSome = (b.bbf n).isSome := by
  by_cases h : a.key ∈ accs
  case pos =>
    have ⟨blk, hb, he, hk⟩ := w.chkbufed_some hl h
    have w' := w.activate hb
    rw [hk] at w'
    refine ⟨blk, b.vbfActivate blk, ?_, w', by simp [vbfActivate], hk, rfl, fun _ => rfl⟩
    rw [vfsAccess, he]
    rfl
  case neg =>
    rw [List.dedup_concat_of_notMem h, List.length_append, ← w.length] at hm
    have ⟨blks, hb⟩ := Option.isSome_iff_exists.mp hl
    refine ⟨b.next, b.fill read a.1 (a.2.setWidth 32) blks, ?_, w.fill hb h hm, ?_, ?_, rfl, fun n => ?_⟩
    case refine_1 =>
      rw [vfsAccess, w.chkbufed_none hl h]
      simp only [bind, Except.bind, w.vbfBorrow_ok hm, vbfBind, hb]
      rfl
    case refine_2 => simp [Blocks.fill]
    case refine_3 => simp [Blocks.key, Blocks.fill, Access.key]
    case refine_4 => by_cases hn : n = a.1 <;> simp [Blocks.fill, hn, hb]

theorem vfsAccess_error {a : Access} (hl : (b.bbf a.1).isSome) (hm : b.totalMax.toNat < (accs ++ [a.key]).dedup.length) :
    b.vfsAccess read a.1 a.2 = .error .wildPointer := by
  have h : a.key ∉ accs := fun h => by
    rw [List.length_dedup_concat_of_mem h, ← w.length] at hm
    exact absurd w.max hm.not_ge
  rw [List.dedup_concat_of_notMem h, List.length_append, ← w.length] at hm
  rw [vfsAccess, w.chkbufed_none hl h]
  simp only [bind, Except.bind, w.vbfBorrow_error <| Nat.le_of_lt_succ hm]

theorem run (as : List Access) (hl : ∀ a ∈ as, (b.bbf a.1).isSome)
    (hm : (accs ++ as.map Access.key).dedup.length ≤ b.totalMax.toNat) : ∃ b', as.foldlM (access read) b = .ok b' ∧
      b'.Keeps read (accs ++ as.map Access.key) ∧ b'.totalMax = b.totalMax ∧
      ∀ n, (b'.bbf n).isSome = (b.bbf n).isSome := by
  induction as generalizing b accs
  case nil => exact ⟨b, rfl, by simpa using w, rfl, fun _ => rfl⟩
  case cons a as hi =>
    rw [List.map_cons, List.append_cons] at hm ⊢
    have ⟨blk, b₁, he, w₁, _, _, ht, hs⟩ := w.vfsAccess_ok (hl a <| .head _) <|
      (List.length_dedup_le <| List.subset_append_left ..).trans hm
    have ⟨b₂, he', w₂, ht', hs'⟩ := hi w₁ (fun a' ha => hs a'.1 ▸ hl a' (.tail _ ha)) <| ht ▸ hm
    refine ⟨b₂, ?_, w₂, ht'.trans ht, fun n => (hs' n).trans (hs n)⟩
    rw [List.foldlM_cons, access, he]
    exact he'

end Keeps

theorem offset_eq {a : Access} (h : a.InRange) :
    (a.key.2 * .ofNat 32 pageSize).setWidth 64 = a.2 * .ofNat 64 pageSize := by
  have h : a.2.toNat < 2 ^ 20 := h
  apply BitVec.eq_of_toNat_eq
  simp only [Access.key, BitVec.toNat_setWidth, BitVec.toNat_mul, BitVec.toNat_ofNat, pageSize]
  omega

theorem Keeps.served {past : List Access} {a : Access} (w : b.Keeps read <| past.map Access.key) (hl : (b.bbf a.1).isSome)
    (hr : a.InRange) (hm : ((past ++ [a]).map Access.key).dedup.length ≤ b.totalMax.toNat) :
    ∃ blk b', b.vfsAccess read a.1 a.2 = .ok (blk, b') ∧ Served read past b a blk b' := by
  rw [List.map_append, List.map_singleton] at hm
  have ⟨blk, b', he, w', hu, hk, _⟩ := w.vfsAccess_ok hl hm
  refine ⟨blk, b', he, ?_⟩
  constructor
  case content =>
    have := w'.buf blk hu
    rwa [hk, offset_eq hr] at this
  case bound  => exact ⟨hu, hk⟩
  case single => exact w'.keys_nodup
  case count  => exact w'.next.trans_le w'.max
  case lru    =>
    intro hn ha
    have ha : a.key ∉ past.map Access.key := mt w.mem_keys.mpr ha
    rw [List.dedup_concat_of_notMem ha, List.length_append, ← w.length, ← w.next, hn] at hm
    exact absurd hm <| Nat.not_succ_le_self _

section Run

variable {blocks : Nat → VfsBlock} {files : Node → Bool} {totalMax : BitVec 32} {as : List Access}

theorem Serves.length_le (hf : ∀ a ∈ as, files a.1) (h : Serves read (init blocks files totalMax) as) :
    (as.map Access.key).dedup.length ≤ totalMax.toNat := by
  induction as using List.reverseRecOn
  case nil => exact Nat.zero_le _
  case append_singleton as a hi =>
    have hm := hi (fun a' ha => hf a' <| List.mem_append_left _ ha) fun pre a' post he =>
      h pre a' (post ++ [a]) <| by rw [he, List.append_assoc]; rfl
    have hl (a' : Access) (ha : a' ∈ as ++ [a]) : ((init blocks files totalMax).bbf a'.1).isSome := by
      simp [init, hf a' ha]
    have ⟨b₁, he, w, ht, hs⟩ := (Keeps.init read blocks files totalMax).run as
      (fun a' ha => hl a' <| List.mem_append_left _ ha) hm
    have ⟨b₁', blk, b₂, he', ha, _⟩ := h as a [] rfl
    cases he.symm.trans he'
    by_contra hc
    rw [List.map_append, List.map_singleton, Nat.not_le] at hc
    have := w.vfsAccess_error (hs a.1 ▸ hl a (by simp)) <| ht.symm ▸ hc
    cases ha.symm.trans this

-- The accesses are right as long as no block has to be used again.
theorem serves_iff (hf : ∀ a ∈ as, files a.1) (hr : ∀ a ∈ as, a.InRange) :
    Serves read (init blocks files totalMax) as ↔ as.toFinset.card ≤ totalMax.toNat := by
  have hc : as.toFinset.card = (as.map Access.key).dedup.length := by
    have hi : (as.map Access.key).toFinset = as.toFinset.image Access.key := by
      ext
      simp
    rw [← List.card_toFinset, hi]
    refine (Finset.card_image_of_injOn fun a ha a' ha' he => ?_).symm
    simp only [Finset.mem_coe, List.mem_toFinset] at ha ha'
    have h : a.2.toNat < 2 ^ 20 := hr a ha
    have h' : a'.2.toNat < 2 ^ 20 := hr a' ha'
    have ho := congrArg (·.2.toNat) he
    simp only [Access.key, BitVec.toNat_setWidth] at ho
    exact Prod.ext (congrArg (·.1) he) <| BitVec.eq_of_toNat_eq <| by omega
  rw [hc]
  constructor
  case mp  => exact Serves.length_le hf
  case mpr =>
    intro hm pre a post he
    subst he
    have hle (l : List Access) (h : l ⊆ pre ++ a :: post) : (l.map Access.key).dedup.length ≤ totalMax.toNat :=
      (List.length_dedup_le <| List.map_subset _ h).trans hm
    have hl (a' : Access) (ha : a' ∈ pre ++ a :: post) : ((init blocks files totalMax).bbf a'.1).isSome := by
      simp [init, hf a' ha]
    have ⟨b₁, hb, w, ht, hs⟩ := (Keeps.init read blocks files totalMax).run pre
      (fun a' ha => hl a' <| List.mem_append_left _ ha) <| hle pre <| List.subset_append_left ..
    have ⟨blk, b₂, ha, h⟩ := w.served (hs a.1 ▸ hl a (by simp)) (hr a <| by simp) <| ht.symm ▸ hle (pre ++ [a])
      (by simp)
    exact ⟨b₁, blk, b₂, hb, ha, h⟩

end Run
end Blocks

-- A file with two blocks of one byte each.
def sampleRead : ReadBlock :=
  fun _ offset => [(offset >>> 12).setWidth 8]

def sampleBlocks (totalMax : BitVec 32) : Blocks :=
  .init (fun _ => ⟨[], 0, 0, 0⟩) (fun _ => true) totalMax

theorem sampleBlocks_serves : (sampleBlocks 2).Serves sampleRead [(1, 0), (1, 1), (1, 0)] :=
  (Blocks.serves_iff (by simp) (by simp [Access.InRange])).mpr (by decide)

-- The third block is too much.
theorem sampleBlocks_not_serves : ¬(sampleBlocks 2).Serves sampleRead [(1, 0), (1, 1), (1, 2)] := by
  intro h
  have ⟨b, _, _, hb, ha, _⟩ := h [(1, 0), (1, 1)] (1, 2) [] rfl
  cases hb
  cases ha

end Zgmos.Fs
