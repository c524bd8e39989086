import Zgmos.Fs.Read

-- Successive reads through a descriptor.

namespace Zgmos.Fs

open Kustd (Word Bytes)

-- The memory in which a buffer is in the page at `dat`.
def withPage (mem : Bytes) (dat : Word) (buf : List (BitVec 8)) : Bytes := fun a =>
  if a - dat < .ofNat 64 pageSize then buf.getD (a - dat).toNat (mem a) else mem a

-- `vfs_access` on the blocks of the file system. The buffer of a block is the page at `addr` of the block.
def Blocks.accessBytes (read : ReadBlock) (addr : Nat → Word) : VfsAccess Blocks := fun b mem node blkoff => do
  let (blk, b) ← b.vfsAccess read node blkoff
  return (addr blk, b, withPage mem (addr blk) (b.blocks blk).buf)

-- A call of `files_struct_read`: what it returns, the bytes which it delivers, and by how much it advances the seek.
structure Chunk where
  ret     : Int
  data    : List (BitVec 8)
  advance : Word

variable {Obj Buffers : Type}

namespace Kernel

def fetch (mem : Bytes) (buf n : Word) : List (BitVec 8) :=
  (List.range n.toNat).map fun k => mem (buf + .ofNat 64 k)

def readChunk (access : VfsAccess Buffers) (device : DeviceBytes) (t : Pages) (f : FilesStruct) (fd : Int) (node : Node)
    (s : Kernel Obj Buffers) (call : Word × Word) : Except Fault (Chunk × Kernel Obj Buffers) := do
  let seek := s.files.seeks f.seek fd.toNat
  let (n, _) ← s.vfsRead access device node seek call.1 call.2
  let (ret, s) ← s.filesStructRead access device t fd call.1 call.2
  return ({ ret, data := fetch s.mem call.1 n, advance := s.files.seeks f.seek fd.toNat - seek }, s)

-- The calls with the buffers and lengths of the list, up to and including the first one that returns zero.
def readChunks (access : VfsAccess Buffers) (device : DeviceBytes) (t : Pages) (f : FilesStruct) (fd : Int) (node : Node)
    (s : Kernel Obj Buffers) : List (Word × Word) → Except Fault (List Chunk × Kernel Obj Buffers)
  | []            => return ([], s)
  | call :: calls => do
    let (c, s) ← s.readChunk access device t f fd node call
    if c.ret = 0 then
      return ([c], s)
    else do
      let (cs, s) ← s.readChunks access device t f fd node calls
      return (c :: cs, s)

-- The descriptor `fd` of a table belongs to a file of the given size, with the given seek.
structure Opened (t : Pages) (f : FilesStruct) (fd : Int) (node : Node) (size : Nat) (s : Kernel Obj Buffers) (seek : Nat) :
    Prop where
  table : s.files.tables t = some f
  seeks : ∃ f', s.files.tables f.seek = some f'
  range : 0 ≤ fd ∧ fd < filesSize
  slot  : f.nodes fd.toNat = some node
  type  : (s.files.vfs.nodes node).type = .file
  size  : (s.files.vfs.nodes node).size.toNat = size
  free  : s.locked = false
  seek  : (s.files.seeks f.seek fd.toNat).toNat = seek

end Kernel

def Chunk.Exact (c : Chunk) : Prop :=
  c.ret = c.data.length ∧ c.advance.toNat = c.data.length

-- What is wanted of the calls: together they deliver the beginning of the file.
def Concatenates (access : VfsAccess Buffers) (device : DeviceBytes) (t : Pages) (f : FilesStruct) (fd : Int) (node : Node)
    (s : Kernel Obj Buffers) (calls : List (Word × Word)) (file : List (BitVec 8)) : Prop :=
  ∃ cs s', s.readChunks access device t f fd node calls = .ok (cs, s') ∧ (∀ c ∈ cs, c.Exact) ∧
    cs.flatMap Chunk.data = file.take ((calls.take cs.length).map (·.2.toNat)).sum

-- No call up to the first one that reads nothing moves 2 ^ 31 bytes or more.
def fits (size : Nat) : (seek : Nat) → (lens : List Nat) → Bool
  | _,    []          => true
  | seek, len :: lens =>
    let n := min len (size - seek)
    n < 2 ^ 31 && (n = 0 || fits size (seek + n) lens)

-- The number of bytes which the calls move.
def moved (size : Nat) : (seek : Nat) → (lens : List Nat) → Nat
  | _,    []          => 0
  | seek, len :: lens =>
    let n := min len (size - seek)
    if n = 0 then 0 else n + moved size (seek + n) lens

def fileBytes (content : Nat → BitVec 8) (size : Nat) : List (BitVec 8) :=
  (List.range size).map content

-- The blocks of the `n` bytes from `k` on, byte by byte.
def byteBlocks (node : Node) (k n : Nat) : List (Node × BitVec 32) :=
  (List.range n).map fun i => (node, .ofNat 32 <| (k + i) / pageSize)

-- The backend reads the bytes of a file.
def Reads (read : ReadBlock) (node : Node) (size : Nat) (content : Nat → BitVec 8) : Prop :=
  ∀ blkoff : Word, ∀ k < pageSize, blkoff.toNat * pageSize + k < size →
    (read node (blkoff * .ofNat 64 pageSize))[k]? = some (content <| blkoff.toNat * pageSize + k)

-- The argument of `vfs_init` in `fs_init`.
def bufferMax : BitVec 32 :=
  10

-- The accesses to the blocks of files after `vfs_init`.
structure History where
  blocks : Nat → VfsBlock
  files  : Node → Bool
  past   : List Access

def History.buffers (h : History) (read : ReadBlock) : Except Fault Blocks :=
  h.past.foldlM (Blocks.access read) <| .init h.blocks h.files bufferMax

-- The pages of the blocks.
def pagesOf (addr : Nat → Word) (totalMax : BitVec 32) (a : Word) : Prop :=
  ∃ blk < totalMax.toNat, a - addr blk < .ofNat 64 pageSize

variable {access : VfsAccess Buffers} {device : DeviceBytes} {inv : Buffers → Prop} {own : Word → Prop} {node : Node}
  {limit size : Nat} {content : Nat → BitVec 8} {s s' : Kernel Obj Buffers} {buf len : Word} {t : Pages} {f : FilesStruct}
  {fd : Int} {k n m : Nat} {calls : List (Word × Word)}

theorem length_fileBytes : (fileBytes content n).length = n := by
  simp [fileBytes]

theorem fileBytes_drop (h : k + n ≤ size) :
    ((fileBytes content size).drop k).take n = (List.range n).map fun i => content (k + i) := by
  apply List.ext_getElem
  case hl =>
    simp [fileBytes]
    omega
  case h =>
    intro i hi hi'
    simp [fileBytes]

theorem take_min_length (l : List α) (i : Nat) :
    l.take (min i l.length) = l.take i ∧ l.drop (min i l.length) = l.drop i := by
  cases Nat.le_total i l.length
  case inl h => rw [Nat.min_eq_left h]; exact ⟨rfl, rfl⟩
  case inr h => simp [Nat.min_eq_right h, List.take_of_length_le h, List.drop_of_length_le h]

theorem byteBlocks_add : byteBlocks node k (n + m) = byteBlocks node k n ++ byteBlocks node (k + n) m := by
  simp [byteBlocks, List.range_add, Nat.add_assoc, Function.comp_def]

theorem mem_byteBlocks {p : Node × BitVec 32} :
    p ∈ byteBlocks node k n ↔ ∃ i, k ≤ i ∧ i < k + n ∧ p = (node, .ofNat 32 (i / pageSize)) := by
  simp only [byteBlocks, List.mem_map, List.mem_range]
  constructor
  case mp  => exact fun ⟨i, hi, he⟩ => ⟨k + i, by omega, by omega, he.symm⟩
  case mpr => exact fun ⟨i, hk, hi, he⟩ => ⟨i - k, by omega, by rw [Nat.add_sub_cancel' hk, he]⟩

-- The bytes do not fit into fewer blocks.
theorem le_length_byteBlocks (h : k + n ≤ 2 ^ 32) : n ≤ pageSize * (byteBlocks node k n).dedup.length := by
  have hsub : ((List.range <| (n + pageSize - 1) / pageSize).map fun i => (node, BitVec.ofNat 32 (k / pageSize + i))) ⊆
      byteBlocks node k n := by
    intro p hp
    obtain ⟨i, hi, he⟩ := List.mem_map.mp hp
    have hi := List.mem_range.mp hi
    refine mem_byteBlocks.mpr ⟨k + i * pageSize, by omega, ?_, ?_⟩
    case refine_1 =>
      simp only [pageSize] at hi ⊢
      omega
    case refine_2 => rw [Nat.add_mul_div_right _ _ (by decide), he]
  have hnd : ((List.range <| (n + pageSize - 1) / pageSize).map fun i =>
      (node, BitVec.ofNat 32 (k / pageSize + i))).Nodup := by
    refine List.nodup_range.map_on fun i hi j hj he => ?_
    have he := congrArg (·.2.toNat) he
    simp only [List.mem_range, pageSize, BitVec.toNat_ofNat] at hi hj he
    omega
  have hle := List.length_dedup_le hsub
  rw [hnd.dedup, List.length_map, List.length_range] at hle
  simp only [pageSize] at hle ⊢
  omega

theorem ofNat_lt_pageSize (h : k < pageSize) : BitVec.ofNat 64 k < .ofNat 64 pageSize := by
  rw [BitVec.lt_def, ofNat_toNat <| h.trans <| by decide]
  exact h

theorem withPage_add {mem : Bytes} {dat : Word} {data : List (BitVec 8)} {x : BitVec 8} (hk : k < pageSize)
    (h : data[k]? = some x) : withPage mem dat data (dat + .ofNat 64 k) = x := by
  rw [withPage, BitVec.add_comm, BitVec.add_sub_cancel, if_pos <| ofNat_lt_pageSize hk,
    ofNat_toNat <| hk.trans <| by decide, List.getD, h]
  rfl

theorem setWidth_add_ofNat (x : Word) (i : Nat) : (x + .ofNat 64 i).setWidth 32 = .ofNat 32 (x.toNat + i) := by
  apply BitVec.eq_of_toNat_eq
  simp only [BitVec.toNat_setWidth, BitVec.toNat_add, BitVec.toNat_ofNat]
  omega

-- They are the blocks which a read accesses.
theorem mem_reads_iff {p : Node × BitVec 32} {offset : Word} (hn : 0 < n) :
    p ∈ (reads node (offset / .ofNat 64 pageSize) (blockCount (byteoff offset) n)).map Access.key ↔
      p ∈ byteBlocks node offset.toNat n := by
  have hdiv : (offset / .ofNat 64 pageSize).toNat = offset.toNat / pageSize := rfl
  simp only [mem_byteBlocks, reads, List.mem_map, List.mem_range, exists_exists_and_eq_and, Access.key,
    setWidth_add_ofNat, hdiv, blockCount, byteoff]
  constructor
  case mp =>
    rintro ⟨i, hi, he⟩
    refine ⟨max offset.toNat ((offset.toNat / pageSize + i) * pageSize), by omega, ?_, ?_⟩
    case refine_1 =>
      simp only [pageSize] at hi ⊢
      omega
    case refine_2 =>
      rw [← he]
      congr 2
      simp only [pageSize] at hi ⊢
      omega
  case mpr =>
    rintro ⟨j, hj, hlt, he⟩
    refine ⟨j / pageSize - offset.toNat / pageSize, ?_, ?_⟩
    case refine_1 =>
      simp only [pageSize]
      omega
    case refine_2 =>
      rw [he, Nat.add_sub_cancel' <| Nat.div_le_div_right hj]

namespace Blocks

variable {read : ReadBlock} {b b' : Blocks} {accs : List (Node × BitVec 32)} {addr : Nat → Word}

-- Only accesses for which there is room end.
theorem Keeps.run_of_ok {as : List Access} (w : b.Keeps read accs) (hl : ∀ a ∈ as, (b.bbf a.1).isSome)
    (h : as.foldlM (Blocks.access read) b = .ok b') :
    b'.Keeps read (accs ++ as.map Access.key) ∧ b'.totalMax = b.totalMax ∧ ∀ n, (b'.bbf n).isSome = (b.bbf n).isSome := by
  induction as generalizing b accs
  case nil =>
    cases h
    exact ⟨by simpa using w, rfl, fun _ => rfl⟩
  case cons a as hi =>
    rw [List.foldlM_cons, Blocks.access] at h
    cases Nat.lt_or_ge b.totalMax.toNat (accs ++ [a.key]).dedup.length
    case inl hm =>
      rw [w.vfsAccess_error (hl a <| .head _) hm] at h
      cases h
    case inr hm =>
      obtain ⟨blk, b₁, he, w₁, _, _, ht, hs⟩ := w.vfsAccess_ok (hl a <| .head _) hm
      rw [he] at h
      obtain ⟨w₂, ht₂, hs₂⟩ := hi w₁ (fun a' ha => hs a'.1 ▸ hl a' (.tail _ ha)) h
      rw [List.map_cons, List.append_cons]
      exact ⟨w₂, ht₂.trans ht, fun n => (hs₂ n).trans (hs n)⟩

theorem Keeps.length_le (w : b.Keeps read accs) : accs.dedup.length ≤ b.totalMax.toNat :=
  w.length ▸ w.max

variable (limit addr) in
-- An access which has room puts the bytes of its block into the memory.
theorem Keeps.servesFrom (first : Nat) {all : List (Node × BitVec 32)} {totalMax : BitVec 32}
    (hr : Reads read node size content) (hlim : limit ≤ size) (hsz : size ≤ 2 ^ 32)
    (hm : all.dedup.length ≤ totalMax.toNat)
    (ha : ∀ i, first ≤ i → i * pageSize < limit → (node, BitVec.ofNat 32 i) ∈ all) :
    ServesFrom (accessBytes read addr) (fun b => ∃ accs, b.Keeps read accs ∧ accs ⊆ all ∧ b.totalMax = totalMax ∧
      (b.bbf node).isSome) (pagesOf addr totalMax) node first limit content where
  ok b mem blkoff hi hf hlt := by
    obtain ⟨accs, w, hs, ht, hl⟩ := hi
    let a : Access := (node, blkoff)
    have hlt' : blkoff.toNat < 2 ^ 20 := by
      simp only [pageSize] at hlt
      omega
    have hmem : a.key ∈ all := by
      have := ha blkoff.toNat hf hlt
      rwa [BitVec.ofNat_toNat] at this
    have hs' : accs ++ [a.key] ⊆ all := List.append_subset.mpr ⟨hs, by simpa using hmem⟩
    obtain ⟨blk, b', he, w', hu, hk, ht', hl'⟩ := w.vfsAccess_ok (a := a) hl <|
      (List.length_dedup_le hs').trans <| ht ▸ hm
    have hblk : blk < totalMax.toNat := by
      have := w'.lt blk hu
      have := w'.next ▸ w'.max
      rw [ht', ht] at this
      omega
    have hpre := w'.buf blk hu
    rw [hk, offset_eq (show a.InRange from hlt')] at hpre
    refine ⟨addr blk, b', withPage mem (addr blk) (b'.blocks blk).buf, ?_,
      ⟨_, w', hs', ht'.trans ht, hl' node ▸ hl⟩, fun x hx => ?_, fun k hk => ?_, fun k hk => ?_⟩
    case refine_1 =>
      simp only [accessBytes, bind, Except.bind]
      rw [he]
      rfl
    case refine_2 => exact if_neg fun h => hx ⟨blk, hblk, h⟩
    case refine_3 =>
      refine ⟨blk, hblk, ?_⟩
      rw [BitVec.add_comm, BitVec.add_sub_cancel]
      exact ofNat_lt_pageSize hk
    case refine_4 =>
      have hkp : k < pageSize := hk.trans_le <| Nat.min_le_left ..
      obtain ⟨l, hl⟩ := hpre
      refine withPage_add hkp ?_
      have hread := hr blkoff k hkp <| by omega
      rw [← hl]
      exact (List.getElem?_append_left (List.getElem?_eq_some_iff.mp hread).1).trans hread

variable (addr) in
theorem Keeps.serves {all : List (Node × BitVec 32)} {totalMax : BitVec 32}
    (hr : Reads read node size content) (hlim : limit ≤ size) (hsz : size ≤ 2 ^ 32)
    (hm : all.dedup.length ≤ totalMax.toNat) (ha : byteBlocks node 0 limit ⊆ all) :
    Fs.Serves (accessBytes read addr) (fun b => ∃ accs, b.Keeps read accs ∧ accs ⊆ all ∧ b.totalMax = totalMax ∧
      (b.bbf node).isSome) (pagesOf addr totalMax) node limit content where
  ok b mem blkoff hi hlt := by
    refine (Keeps.servesFrom limit addr 0 hr hlim hsz hm fun i _ hi => ha ?_).ok b mem blkoff hi (Nat.zero_le _) hlt
    refine mem_byteBlocks.mpr ⟨i * pageSize, Nat.zero_le _, by simpa using hi, ?_⟩
    rw [Nat.mul_div_cancel _ (by decide)]

-- The blocks of the bytes that have been copied are kept.
theorem Keeps.of_copy {offset : Word} (w : b.Keeps read accs) (hl : (b.bbf node).isSome) (hn : 0 < n)
    (h : b.copy read node (offset / .ofNat 64 pageSize) (byteoff offset) n = .ok b') :
    ∃ accs', b'.Keeps read accs' ∧ (∀ p, p ∈ accs' ↔ p ∈ accs ++ byteBlocks node offset.toNat n) ∧
      b'.totalMax = b.totalMax ∧ (b'.bbf node).isSome := by
  rw [copy_eq hn] at h
  have ⟨w', ht, hs⟩ := w.run_of_ok (fun a ha => mem_reads ha ▸ hl) h
  refine ⟨_, w', fun p => ?_, ht, hs node ▸ hl⟩
  rw [List.mem_append, List.mem_append, mem_reads_iff hn]

end Blocks

-- The blocks in use after a history are those of its accesses.
theorem History.keeps {h : History} {read : ReadBlock} {buffers : Blocks} (hp : ∀ a ∈ h.past, h.files a.1)
    (hb : h.buffers read = .ok buffers) : buffers.Keeps read (h.past.map Access.key) ∧ buffers.totalMax = bufferMax ∧
    ∀ n, (buffers.bbf n).isSome = h.files n := by
  obtain ⟨hk, ht, hl⟩ := (Blocks.Keeps.init read h.blocks h.files bufferMax).run_of_ok
    (fun a ha => by simp [Blocks.init, hp a ha]) hb
  refine ⟨by simpa using hk, ht, fun n => (hl n).trans ?_⟩
  simp only [Blocks.init]
  split_ifs with hn
  case pos => exact hn.symm
  case neg => simpa using hn

namespace Kernel

section Buffers

variable {read : ReadBlock} {addr : Nat → Word} {s s' : Kernel Obj Blocks} {c : Chunk} {offset bufLen byteCnt ret : Word}

-- The loop of `vfs_read` accesses the blocks as `Blocks.copy` does.
theorem buffers_of_copyBlocks {blkoff : Word} {byteoff : Fin pageSize} (hle : byteCnt.toNat ≤ bufLen.toNat)
    (h : s.copyBlocks (Blocks.accessBytes read addr) node buf bufLen blkoff byteCnt byteoff = .ok (ret, s')) :
    s.buffers.copy read node blkoff byteoff (bufLen.toNat - byteCnt.toNat) = .ok s'.buffers := by
  induction hn : bufLen.toNat - byteCnt.toNat using Nat.strong_induction_on generalizing s blkoff byteCnt byteoff
  case h n hi =>
    by_cases he : byteCnt = bufLen
    case pos =>
      have hz : n = 0 := by
        rw [← hn, he, Nat.sub_self]
      rw [copyBlocks, if_pos he] at h
      cases h
      rw [hz, Blocks.copy, if_pos rfl]
      rfl
    case neg =>
      have hlt : byteCnt.toNat < bufLen.toNat := hle.lt_of_ne fun h => he <| BitVec.eq_of_toNat_eq h
      have hoff := byteoff.isLt
      have hcnt := @add_len_toNat bufLen byteCnt byteoff hle
      rw [copyBlocks, if_neg he] at h
      rw [Blocks.copy, if_neg (by omega)]
      simp only [Blocks.accessBytes] at h
      cases hr : s.buffers.vfsAccess read node blkoff
      case error e =>
        rw [hr] at h
        cases h
      case ok r =>
        rw [hr] at h
        have := hi (bufLen.toNat - (byteCnt.toNat + min (pageSize - byteoff) (bufLen.toNat - byteCnt.toNat))) (by omega)
          (by omega) h (by rw [hcnt])
        rw [show bufLen.toNat - (byteCnt.toNat + min (pageSize - byteoff) (bufLen.toNat - byteCnt.toNat)) =
          n - min (pageSize - byteoff) n by omega] at this
        exact this

theorem buffers_of_vfsRead (hl : s.locked = false) (hd : (s.files.vfs.nodes node).type ≠ .dev)
    (ho : offset.toNat < (s.files.vfs.nodes node).size.toNat)
    (hn : n = min bufLen.toNat ((s.files.vfs.nodes node).size.toNat - offset.toNat))
    (h : s.vfsRead (Blocks.accessBytes read addr) device node offset buf bufLen = .ok (ret, s')) :
    s.buffers.copy read node (offset / .ofNat 64 pageSize) (byteoff offset) n = .ok s'.buffers := by
  have hz : ¬(s.files.vfs.nodes node).size.setWidth 64 ≤ offset := by
    rw [BitVec.le_def, setWidth_toNat]
    exact ho.not_ge
  have hle : offset ≤ (s.files.vfs.nodes node).size.setWidth 64 := by
    rw [BitVec.le_def, setWidth_toNat]
    exact ho.le
  have hmn : (min64 bufLen ((s.files.vfs.nodes node).size.setWidth 64 - offset)).toNat = n := by
    rw [min64_toNat, BitVec.toNat_sub_of_le hle, setWidth_toNat, hn]
  simp only [vfsRead, acquire, hl, Bool.false_eq_true, if_false, bind, Except.bind, pure, Except.pure, if_neg hd,
    if_neg hz] at h
  split at h
  case h_1 => cases h
  case h_2 r hr =>
    cases h
    have := buffers_of_copyBlocks (Nat.zero_le _) hr
    rwa [hmn] at this

end Buffers

namespace Opened

-- The returned value is that of `vfs_read` as an `int`, and only a positive one advances the seek.
theorem filesStructRead_eq (o : Opened t f fd node size s k) {m : Word} (hf : s'.files = s.files)
    (hr : s.vfsRead access device node (s.files.seeks f.seek fd.toNat) buf len = .ok (m, s')) :
    s.filesStructRead access device t fd buf len = .ok ((m.truncate 32).toInt, { s' with
      files := if 0 < (m.truncate 32).toInt then
          s.files.seekTo f.seek fd <| s.files.seeks f.seek fd.toNat + .ofInt 64 (m.truncate 32).toInt
        else
          s.files }) := by
  have ⟨f', hs⟩ := o.seeks
  have hg : f.get fd = .ok (some node) := by
    rw [FilesStruct.get, if_pos o.range, o.slot]
    rfl
  simp only [filesStructRead, Files.table_eq o.table, Files.table_eq hs, hg, hr, hf, Files.transfer, Files.setSeek,
    bind, Except.bind, if_pos o.range, pure, Except.pure]
  split_ifs <;> rfl

-- The buffers after a call are those after its read.
theorem vfsRead_of_readChunk {c : Chunk} (o : Opened t f fd node size s k)
    (h : s.readChunk access device t f fd node (buf, len) = .ok (c, s')) :
    ∃ m s₁, s.vfsRead access device node (s.files.seeks f.seek fd.toNat) buf len = .ok (m, s₁) ∧
      s'.buffers = s₁.buffers := by
  have ⟨f', hs⟩ := o.seeks
  have hg : f.get fd = .ok (some node) := by
    rw [FilesStruct.get, if_pos o.range, o.slot]
    rfl
  simp only [readChunk, filesStructRead, Files.table_eq o.table, Files.table_eq hs, hg, bind, Except.bind] at h
  cases hr : s.vfsRead access device node (s.files.seeks f.seek fd.toNat) buf len
  case error e =>
    rw [hr] at h
    cases h
  case ok r =>
    simp only [hr] at h
    split at h
    case h_1 => cases h
    case h_2 r' hr' =>
      cases h
      refine ⟨_, _, rfl, ?_⟩
      split at hr'
      case h_1 => cases hr'
      case h_2 =>
        cases hr'
        rfl

theorem toInt_truncate {m : Word} (h : m.toNat < 2 ^ 31) : (m.truncate 32).toInt = m.toNat := by
  have : (m.truncate 32).toNat = m.toNat := by
    rw [BitVec.truncate, BitVec.toNat_setWidth, Nat.mod_eq_of_lt]
    omega
  rw [BitVec.toInt_eq_toNat_of_lt (by omega), this]

theorem toInt_truncate_neg {m : Word} (h : 2 ^ 31 ≤ m.toNat) (h' : m.toNat < 2 ^ 32) : (m.truncate 32).toInt < 0 := by
  have : (m.truncate 32).toNat = m.toNat := by
    rw [BitVec.truncate, BitVec.toNat_setWidth, Nat.mod_eq_of_lt h']
  rw [BitVec.toInt_eq_toNat_cond, this]
  split_ifs <;> omega

variable (device) in
-- What a call does, with the number of bytes that it moves.
theorem readChunk_eq (o : Opened t f fd node size s k) (w : Serves access inv own node limit content) (hi : inv s.buffers)
    (hn : n = min len.toNat (size - k)) (hlim : k + n ≤ limit) (hm : limit < 2 ^ 64)
    (hb : ∀ i < n, ¬own (buf + .ofNat 64 i)) :
    ∃ c s', s.readChunk access device t f fd node (buf, len) = .ok (c, s') ∧
      c.data = ((fileBytes content size).drop k).take n ∧ c.data.length = n ∧
      (n < 2 ^ 31 → c.Exact ∧ (n ≠ 0 → Opened t f fd node size s' (k + n))) ∧ (2 ^ 31 ≤ n → c.ret < 0) := by
  have hd : (s.files.vfs.nodes node).type ≠ .dev := by simp [o.type]
  have hsize := o.size ▸ (s.files.vfs.nodes node).size.isLt
  cases Nat.lt_or_ge k size
  case inr hge =>
    have hr := @vfsRead_eof _ _ access device node s (s.files.seeks f.seek fd.toNat) buf len o.free hd
      (o.seek ▸ o.size ▸ hge)
    have hs := o.filesStructRead_eq (by rfl) hr
    have hz : n = 0 := by omega
    refine ⟨⟨0, [], 0⟩, { s with locked := true }, ?_, by simp [hz], hz.symm, fun _ => ⟨?_, fun h => absurd hz h⟩, ?_⟩
    case refine_1 =>
      simp only [readChunk, hr, hs, bind, Except.bind]
      simp [fetch, pure, Except.pure]
    case refine_2 => exact ⟨rfl, rfl⟩
    case refine_3 => omega
  case inl hlt =>
    have ⟨m, buffers, mem, hr, hmn, hi', hdel⟩ := @vfsRead_ok _ _ access device inv own node limit content s
      (s.files.seeks f.seek fd.toNat) buf len n w hi o.free hd (o.seek ▸ o.size ▸ hlt) (o.seek ▸ o.size ▸ hn)
      (o.seek ▸ hlim) hm hb
    have hs := o.filesStructRead_eq (by rfl) hr
    have hdata : fetch mem buf m = ((fileBytes content size).drop k).take n := by
      rw [fileBytes_drop (by omega), fetch, hmn]
      refine List.map_congr_left fun i hi => ?_
      rw [hdel.bytes i <| List.mem_range.mp hi, o.seek]
    have hlen : (fetch mem buf m).length = n := by simp [fetch, hmn]
    generalize hfiles : (if 0 < (m.truncate 32).toInt then
        s.files.seekTo f.seek fd <| s.files.seeks f.seek fd.toNat + .ofInt 64 (m.truncate 32).toInt
      else s.files) = files at hs
    refine ⟨⟨(m.truncate 32).toInt, fetch mem buf m, files.seeks f.seek fd.toNat - s.files.seeks f.seek fd.toNat⟩,
      { s with buffers, mem, files }, ?_, hdata, hlen, fun h => ?_, fun h => ?_⟩
    case refine_1 =>
      simp only [readChunk, hr, hs, bind, Except.bind]
      rfl
    case refine_3 => exact toInt_truncate_neg (hmn ▸ h) <| by omega
    case refine_2 =>
      have hret := toInt_truncate (m := m) (hmn ▸ h)
      rw [hmn] at hret
      simp only [hret, Int.natCast_pos] at hfiles
      cases Nat.eq_zero_or_pos n
      case inl hz =>
        rw [if_neg hz.not_gt] at hfiles
        simp [Chunk.Exact, hret, hlen, hz, ← hfiles]
      case inr hp =>
        have hof : BitVec.ofInt 64 n = m := by
          rw [BitVec.ofInt_natCast, ← hmn, BitVec.ofNat_toNat, BitVec.setWidth_eq]
        rw [if_pos hp, hof] at hfiles
        have hseek : files.seeks f.seek fd.toNat = s.files.seeks f.seek fd.toNat + m := by
          simp [← hfiles, Files.seekTo]
        have hadv : (files.seeks f.seek fd.toNat - s.files.seeks f.seek fd.toNat).toNat = n := by
          rw [hseek, BitVec.add_comm, BitVec.add_sub_cancel, hmn]
        refine ⟨⟨hret.trans <| congrArg _ hlen.symm, hadv.trans hlen.symm⟩, fun _ => ?_⟩
        have ⟨f', hf'⟩ := o.seeks
        refine ⟨hfiles ▸ o.table, ⟨f', hfiles ▸ hf'⟩, o.range, o.slot, hfiles ▸ o.type, hfiles ▸ o.size, o.free, ?_⟩
        rw [show _ = _ from hseek, BitVec.toNat_add, o.seek, hmn]
        exact Nat.mod_eq_of_lt <| by omega

end Opened

-- The bytes before the seek have been read, and their blocks are kept.
structure Reading (read : ReadBlock) (t : Pages) (f : FilesStruct) (fd : Int) (node : Node) (size : Nat)
    (totalMax : BitVec 32) (s : Kernel Obj Blocks) (accs : List (Node × BitVec 32)) (k : Nat) : Prop where
  opened : Opened t f fd node size s k
  keeps  : s.buffers.Keeps read accs
  past   : byteBlocks node 0 k ⊆ accs
  bbf    : (s.buffers.bbf node).isSome
  max    : s.buffers.totalMax = totalMax
  le     : k ≤ size

namespace Reading

variable {read : ReadBlock} {addr : Nat → Word} {totalMax : BitVec 32} {s s' : Kernel Obj Blocks} {c : Chunk}
  {accs : List (Node × BitVec 32)}

theorem keeps_next (r : Reading read t f fd node size totalMax s accs k) (hn : n = min len.toNat (size - k)) (hp : 0 < n)
    (h : s.readChunk (Blocks.accessBytes read addr) device t f fd node (buf, len) = .ok (c, s')) :
    ∃ accs', s'.buffers.Keeps read accs' ∧ (∀ p, p ∈ accs' ↔ p ∈ accs ++ byteBlocks node k n) ∧
      s'.buffers.totalMax = totalMax ∧ (s'.buffers.bbf node).isSome := by
  have ⟨m, s₁, hr, hb⟩ := r.opened.vfsRead_of_readChunk h
  have hd : (s.files.vfs.nodes node).type ≠ .dev := by simp [r.opened.type]
  have hc := buffers_of_vfsRead (n := n) r.opened.free hd (by rw [r.opened.seek, r.opened.size]; omega)
    (by rw [r.opened.seek, r.opened.size, hn]) hr
  have ⟨accs', w, hm, ht, hs⟩ := r.keeps.of_copy r.bbf hp hc
  rw [r.opened.seek] at hm
  exact ⟨accs', hb ▸ w, hm, hb ▸ ht.trans r.max, hb ▸ hs⟩

-- Only calls for whose blocks there is room end.
theorem room (r : Reading read t f fd node size totalMax s accs k) (hn : n = min len.toNat (size - k))
    (h : s.readChunk (Blocks.accessBytes read addr) device t f fd node (buf, len) = .ok (c, s')) :
    (accs ++ byteBlocks node k n).dedup.length ≤ totalMax.toNat := by
  cases Nat.eq_zero_or_pos n
  case inl hz =>
    rw [hz, byteBlocks, List.range_zero, List.map_nil, List.append_nil, ← r.max]
    exact r.keeps.length_le
  case inr hp =>
    have ⟨accs', w, hm, ht, _⟩ := r.keeps_next hn hp h
    exact (List.length_dedup_le fun p hp => (hm p).mpr hp).trans <| ht ▸ w.length_le

theorem next (r : Reading read t f fd node size totalMax s accs k) (hn : n = min len.toNat (size - k)) (hp : 0 < n)
    (h : s.readChunk (Blocks.accessBytes read addr) device t f fd node (buf, len) = .ok (c, s'))
    (o : Opened t f fd node size s' (k + n)) :
    ∃ accs', Reading read t f fd node size totalMax s' accs' (k + n) ∧
      ∀ p, p ∈ accs' ↔ p ∈ accs ++ byteBlocks node k n := by
  have ⟨accs', w, hm, ht, hs⟩ := r.keeps_next hn hp h
  refine ⟨accs', ⟨o, w, fun p hp => ?_, hs, ht, by have := r.le; omega⟩, hm⟩
  rw [byteBlocks_add, Nat.zero_add] at hp
  rw [hm, List.mem_append]
  exact (List.mem_append.mp hp).imp_left fun hp => r.past hp

variable (device) in
-- What a call does for whose blocks there is room.
theorem readChunk_eq (r : Reading read t f fd node size totalMax s accs k) (hc : Reads read node size content)
    (hn : n = min len.toNat (size - k)) (hr : (accs ++ byteBlocks node k n).dedup.length ≤ totalMax.toNat)
    (hb : ∀ i < n, ¬pagesOf addr totalMax (buf + .ofNat 64 i)) :
    ∃ c s', s.readChunk (Blocks.accessBytes read addr) device t f fd node (buf, len) = .ok (c, s') ∧
      c.data = ((fileBytes content size).drop k).take n ∧ c.data.length = n ∧
      (n < 2 ^ 31 → c.Exact ∧ (n ≠ 0 → Opened t f fd node size s' (k + n))) ∧ (2 ^ 31 ≤ n → c.ret < 0) := by
  have hsize := r.opened.size ▸ (s.files.vfs.nodes node).size.isLt
  have hle := r.le
  have hall : byteBlocks node 0 (k + n) ⊆ accs ++ byteBlocks node k n := by
    rw [byteBlocks_add, Nat.zero_add]
    exact List.append_subset.mpr ⟨List.Subset.trans r.past <| List.subset_append_left .., List.subset_append_right ..⟩
  have w := Blocks.Keeps.serves addr hc (by omega) hsize.le hr hall
  exact r.opened.readChunk_eq device w ⟨accs, r.keeps, List.subset_append_left .., r.max, r.bbf⟩ hn le_rfl (by omega) hb

-- The accesses after `vfs_init` lead to the beginning of a file.
theorem of_run {past : List Access} {blocks : Nat → VfsBlock} {files : Node → Bool} (o : Opened t f fd node size s 0)
    (hp : ∀ a ∈ past, files a.1) (hn : files node)
    (hs : past.foldlM (Blocks.access read) (.init blocks files totalMax) = .ok s.buffers) :
    Reading read t f fd node size totalMax s (past.map Access.key) 0 := by
  have ⟨w, ht, hl⟩ := (Blocks.Keeps.init read blocks files totalMax).run_of_ok
    (fun a ha => by simp [Blocks.init, hp a ha]) hs
  exact ⟨o, w, by simp [byteBlocks], by rw [hl]; simp [Blocks.init, hn], ht, Nat.zero_le _⟩

variable (device calls) in
-- If all chunks fit and there is room for their blocks, the calls deliver what follows the seek.
theorem readChunks_ok (r : Reading read t f fd node size totalMax s accs k) (hc : Reads read node size content)
    (hf : fits size k (calls.map (·.2.toNat)))
    (hr : (accs ++ byteBlocks node k (moved size k <| calls.map (·.2.toNat))).dedup.length ≤ totalMax.toNat)
    (hb : ∀ c ∈ calls, ∀ i < c.2.toNat, i < size → ¬pagesOf addr totalMax (c.1 + .ofNat 64 i)) :
    ∃ cs s', s.readChunks (Blocks.accessBytes read addr) device t f fd node calls = .ok (cs, s') ∧
      (∀ c ∈ cs, c.Exact) ∧
      cs.flatMap Chunk.data = ((fileBytes content size).drop k).take ((calls.take cs.length).map (·.2.toNat)).sum := by
  induction calls generalizing s accs k
  case nil => exact ⟨[], s, rfl, by simp, by simp⟩
  case cons call calls hi =>
    generalize hn : min call.2.toNat (size - k) = n
    generalize hfile : (fileBytes content size).drop k = file
    have hlen : file.length = size - k := by rw [← hfile, List.length_drop, length_fileBytes]
    have ⟨ht, hdrop⟩ := take_min_length file call.2.toNat
    rw [hlen, hn] at ht hdrop
    simp only [List.map_cons, fits, hn, Bool.and_eq_true, decide_eq_true_eq, Bool.or_eq_true] at hf
    simp only [List.map_cons, moved, hn] at hr
    have hroom : (accs ++ byteBlocks node k n).dedup.length ≤ totalMax.toNat := by
      refine (List.length_dedup_le <| List.append_subset.mpr ⟨List.subset_append_left .., ?_⟩).trans hr
      refine List.subset_append_of_subset_right _ ?_
      split_ifs
      case pos hz => simp [hz, byteBlocks]
      case neg    => exact byteBlocks_add ▸ List.subset_append_left ..
    have ⟨c, s₁, h₁, hd, hl, hok, _⟩ := r.readChunk_eq device hc hn.symm hroom fun i hi =>
      hb call (.head _) i (by omega) (by omega)
    have ⟨he, ho⟩ := hok hf.1
    have hret : c.ret = n := by rw [he.1, hl]
    rw [hfile, ht] at hd
    by_cases hz : n = 0
    case pos =>
      refine ⟨[c], s₁, ?_, by simpa using he, by simpa using hd⟩
      simp [readChunks, h₁, bind, Except.bind, hret, hz, pure, Except.pure]
    case neg =>
      have ⟨accs', r', hm⟩ := r.next hn.symm (Nat.pos_of_ne_zero hz) h₁ <| ho hz
      rw [if_neg hz, byteBlocks_add, ← List.append_assoc] at hr
      have hr' : (accs' ++ byteBlocks node (k + n) (moved size (k + n) (calls.map (·.2.toNat)))).dedup.length ≤
          totalMax.toNat := by
        refine (List.length_dedup_le <| List.append_subset.mpr ⟨fun p hp => ?_, List.subset_append_right ..⟩).trans hr
        exact List.mem_append_left _ <| (hm p).mp hp
      have ⟨cs, s₂, h₂, he₂, hd₂⟩ := hi r' (hf.2.resolve_left hz) hr' fun c hc => hb c <| .tail _ hc
      rw [← List.drop_drop, hfile, hdrop] at hd₂
      refine ⟨c :: cs, s₂, ?_, List.forall_mem_cons.mpr ⟨he, he₂⟩, ?_⟩
      case refine_1 => simp [readChunks, h₁, h₂, bind, Except.bind, hret, hz, pure, Except.pure]
      case refine_2 =>
        rw [List.flatMap_cons, hd, hd₂, ← List.take_add]
        rfl

variable (calls) in
-- A chunk that does not fit is not counted right, and a call for whose blocks there is no room does not end.
theorem fits_of_exact (r : Reading read t f fd node size totalMax s accs k) (hc : Reads read node size content)
    (hb : ∀ c ∈ calls, ∀ i < c.2.toNat, i < size → ¬pagesOf addr totalMax (c.1 + .ofNat 64 i)) {cs : List Chunk}
    (hr : s.readChunks (Blocks.accessBytes read addr) device t f fd node calls = .ok (cs, s')) (he : ∀ c ∈ cs, c.Exact) :
    fits size k (calls.map (·.2.toNat)) ∧
      (accs ++ byteBlocks node k (moved size k <| calls.map (·.2.toNat))).dedup.length ≤ totalMax.toNat := by
  induction calls generalizing s accs k cs
  case nil =>
    refine ⟨rfl, ?_⟩
    simp only [List.map_nil, moved, byteBlocks, List.range_zero, List.append_nil, ← r.max]
    exact r.keeps.length_le
  case cons call calls hi =>
    generalize hn : min call.2.toNat (size - k) = n
    simp only [readChunks, bind, Except.bind] at hr
    split at hr
    case h_1 => cases hr
    case h_2 x h₁ =>
      have hroom := r.room hn.symm h₁
      have ⟨c, s₁, h₁', _, hl, hok, hneg⟩ := r.readChunk_eq device hc hn.symm hroom fun i hi =>
        hb call (.head _) i (by omega) (by omega)
      cases h₁.symm.trans h₁'
      have hc : c ∈ cs := by
        split at hr
        case isTrue =>
          cases hr
          exact .head _
        case isFalse =>
          split at hr
          case h_1 => cases hr
          case h_2 =>
            cases hr
            exact .head _
      have hlt : n < 2 ^ 31 := by
        by_contra hge
        have := hneg <| Nat.not_lt.mp hge
        have := (he c hc).1
        omega
      simp only [List.map_cons, fits, moved, hn, Bool.and_eq_true, decide_eq_true_eq, Bool.or_eq_true]
      by_cases hz : n = 0
      case pos =>
        refine ⟨⟨hlt, .inl hz⟩, ?_⟩
        rw [if_pos hz, ← hz]
        exact hroom
      case neg =>
        have ⟨accs', r', hm⟩ := r.next hn.symm (Nat.pos_of_ne_zero hz) h₁' <| (hok hlt).2 hz
        have hret : c.ret ≠ 0 := by
          rw [(he c hc).1, hl]
          exact_mod_cast hz
        rw [if_neg hret] at hr
        split at hr
        case h_1 => cases hr
        case h_2 cs' hr' =>
          cases hr
          have ⟨hf, hle⟩ := hi r' (fun c hc => hb c <| .tail _ hc) hr' fun c hc => he c <| .tail _ hc
          refine ⟨⟨hlt, .inr hf⟩, ?_⟩
          rw [if_neg hz, byteBlocks_add, ← List.append_assoc]
          refine (List.length_dedup_le <| List.append_subset.mpr ⟨fun p hp => ?_, List.subset_append_right ..⟩).trans hle
          exact List.mem_append_left _ <| (hm p).mpr hp

end Reading

end Kernel

-- The chunks make up the beginning of the file iff each of them fits into an `int` and there is room for all blocks.
theorem concatenates_iff {read : ReadBlock} {addr : Nat → Word} {totalMax : BitVec 32} {s : Kernel Obj Blocks}
    {past : List Access} {blocks : Nat → VfsBlock} {files : Node → Bool} (o : s.Opened t f fd node size 0)
    (hc : Reads read node size content) (hp : ∀ a ∈ past, files a.1) (hn : files node)
    (hs : past.foldlM (Blocks.access read) (.init blocks files totalMax) = .ok s.buffers)
    (hb : ∀ c ∈ calls, ∀ i < c.2.toNat, i < size → ¬pagesOf addr totalMax (c.1 + .ofNat 64 i)) :
    Concatenates (Blocks.accessBytes read addr) device t f fd node s calls (fileBytes content size) ↔
      fits size 0 (calls.map (·.2.toNat)) ∧
      (past.map Access.key ++ byteBlocks node 0 (moved size 0 <| calls.map (·.2.toNat))).dedup.length ≤ totalMax.toNat := by
  have r := Kernel.Reading.of_run o hp hn hs
  constructor
  case mp  => exact fun ⟨_, _, hr, he, _⟩ => r.fits_of_exact calls hc hb hr he
  case mpr => exact fun ⟨hf, hr⟩ => r.readChunks_ok device calls hc hf hr hb

-- A backend for any contents.
def fileRead (content : Nat → BitVec 8) : ReadBlock := fun _ offset =>
  (List.range pageSize).map fun k => content (offset.toNat + k)

theorem fileRead_reads {s : Nat} (hs : s ≤ 2 ^ 32) : Reads (fileRead content) node s content := by
  intro blkoff k hk hlt
  have hoff : (blkoff * .ofNat 64 pageSize).toNat = blkoff.toNat * pageSize := by
    rw [BitVec.toNat_mul, ofNat_toNat (by decide), Nat.mod_eq_of_lt]
    omega
  simp only [fileRead, hoff, List.getElem?_map, List.getElem?_range hk, Option.map_some]

-- A file with the bytes 0, 1, 2, ...
def countingRead (size : Nat) : ReadBlock := fun _ offset =>
  (List.range <| size - offset.toNat).map fun k => .ofNat 8 (offset.toNat + k)

theorem countingRead_reads (h : size ≤ 2 ^ 32) : Reads (countingRead size) 1 size (.ofNat 8) := by
  intro blkoff k hk hlt
  have hoff : (blkoff * .ofNat 64 pageSize).toNat = blkoff.toNat * pageSize := by
    rw [BitVec.toNat_mul, ofNat_toNat (by decide), Nat.mod_eq_of_lt]
    omega
  have hk' : k < size - blkoff.toNat * pageSize := by omega
  simp only [countingRead, hoff, List.getElem?_map, List.getElem?_range hk', Option.map_some]

-- The descriptor 0 belongs to the file, which is in none of the blocks.

def countingKernel (size : BitVec 32) (totalMax : BitVec 32) : Kernel Nat Blocks where
  files   := { sampleFiles with vfs := sizedVfs size }
  buffers := sampleBlocks totalMax
  mem     := fun _ => 0
  locked  := false

def sampleHistory : History where
  blocks := fun _ => ⟨[], 0, 0, 0⟩
  files  := fun _ => true
  past   := []

theorem countingKernel_opened {size totalMax : BitVec 32} :
    (countingKernel size totalMax).Opened 0 sampleTable 0 1 size.toNat 0 :=
  ⟨rfl, ⟨_, rfl⟩, by decide, rfl, rfl, rfl, rfl, rfl⟩

theorem not_pagesOf {totalMax : BitVec 32} {i : Nat} (hi : i < 0x10000) :
    ¬pagesOf (fun _ => bufferAddr) totalMax (0x1000 + .ofNat 64 i) := by
  intro ⟨_, _, h⟩
  have := ofNat_toNat (k := i) <| by omega
  generalize BitVec.ofNat 64 i = x at this h
  have h : 0x1000#64 + x - 0x80000000#64 < 4096#64 := h
  bv_omega

-- A file is read with two calls.
theorem countingKernel_concatenates :
    Concatenates (Blocks.accessBytes (countingRead 5) fun _ => bufferAddr) (fun _ _ _ => 0) 0 sampleTable 0 1
      (countingKernel 5 1) [(0x1000, 3), (0x1000, 4)] (fileBytes (.ofNat 8) 5) := by
  have hs : [].foldlM (Blocks.access <| countingRead 5) (sampleBlocks 1) = .ok (countingKernel 5 1).buffers := rfl
  have o : (countingKernel 5 1).Opened 0 sampleTable 0 1 5 0 := @countingKernel_opened 5 1
  refine (concatenates_iff o (countingRead_reads <| by decide) (by simp) rfl hs fun c hc i _ hlt => ?_).mpr <| by decide
  have hc : c.1 = 0x1000 := by
    cases hc
    case head => rfl
    case tail h => exact (List.mem_singleton.mp h) ▸ rfl
  rw [hc]
  exact not_pagesOf <| hlt.trans <| by decide

-- The kernel has ten blocks, and a file with eleven of them is read.
theorem countingKernel_not_concatenates :
    ¬Concatenates (Blocks.accessBytes (countingRead 45056) fun _ => bufferAddr) (fun _ _ _ => 0) 0 sampleTable 0 1
      (countingKernel 45056 10) [(0x1000, 45056)] (fileBytes (.ofNat 8) 45056) := by
  intro ⟨cs, s', hr, he, _⟩
  have hs : [].foldlM (Blocks.access <| countingRead 45056) (sampleBlocks 10) = .ok (countingKernel 45056 10).buffers := rfl
  have o : (countingKernel 45056 10).Opened 0 sampleTable 0 1 45056 0 := @countingKernel_opened 45056 10
  have r := Kernel.Reading.of_run o (by simp) rfl hs
  have ⟨_, hle⟩ := r.fits_of_exact _ (countingRead_reads <| by decide)
    (fun c hc i _ hlt => List.mem_singleton.mp hc ▸ not_pagesOf (hlt.trans <| by decide)) hr he
  have hm : moved 45056 0 ([((0x1000 : Word), (45056 : Word))].map (·.2.toNat)) = 45056 := by decide
  rw [hm, List.map_nil, List.nil_append] at hle
  have hge := @le_length_byteBlocks 1 0 45056 (by decide)
  have hle : (byteBlocks 1 0 45056).dedup.length ≤ 10 := hle
  rw [pageSize] at hge
  omega

end Zgmos.Fs
