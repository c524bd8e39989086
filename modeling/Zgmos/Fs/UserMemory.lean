import Zgmos.Fs.Chunks
import Zgmos.Pte.Slot

-- The system calls which access the memory of a task.

namespace Zgmos.Fs

open Kustd (Bytes)
open Pte (Word pteWalk allOneMask)

variable {Obj Buffers : Type}

namespace Kernel

-- The bytes are taken from `buf`, and they are returned.
def vfsWrite (s : Kernel Obj Buffers) (node : Node) (offset buf bufLen : Word) :
    Except Fault ((Word × Kernel Obj Buffers) × List (BitVec 8)) := do
  let s ← s.acquire
  let n := s.files.vfs.nodes node
  if n.type = .dev then
    match n.bkd with
    | none     => throw .outOfBounds
    | some bkd =>
      let tmp := bkd.write n.lfsObj offset bufLen
      return ((tmp, s.release), fetch s.mem buf tmp)
  else
    return ((0, s.release), [])

def filesStructWrite (s : Kernel Obj Buffers) (t : Pages) (fd : Int) (buf bufLen : Word) :
    Except Fault ((Int × Kernel Obj Buffers) × List (BitVec 8)) := do
  let f ← s.files.table t
  let _ ← s.files.table f.seek
  match ← f.get fd with
  | none      => throw .outOfBounds
  | some node =>
    let ((n, s), out) ← s.vfsWrite node (s.files.seeks f.seek fd.toNat) buf bufLen
    let (ret, files) ← s.files.transfer f fd n
    return ((ret, { s with files }), out)

end Kernel

-- The page tables are not in the memory of the kernel. The buffer of a block is in a page of that memory.
structure Machine (Obj : Type) where
  kernel : Kernel Obj Blocks
  tables : Pte.Mem
  addr   : Nat → Word

-- A task with its page table and its table of open files.
structure Task where
  userPte : Word
  files   : Pages

namespace Machine

-- The address that the system calls use for `va`.
def userAddr (m : Machine Obj) (task : Task) (va : Word) : Word :=
  (pteWalk m.tables task.userPte va).addr + (allOneMask 12 &&& va)

def syscallRead (read : ReadBlock) (device : DeviceBytes) (m : Machine Obj) (task : Task) (fd : Int) (va size : Word) :
    Except Fault (Int × Machine Obj) := do
  let f ← m.kernel.files.table task.files
  if !f.check fd then
    return (-1, m)
  else
    let (ret, kernel) ←
      m.kernel.filesStructRead (Blocks.accessBytes read m.addr) device task.files fd (m.userAddr task va) size
    return (ret, { m with kernel })

def syscallWrite (m : Machine Obj) (task : Task) (fd : Int) (va size : Word) :
    Except Fault ((Int × Machine Obj) × List (BitVec 8)) := do
  let f ← m.kernel.files.table task.files
  if !f.check fd then
    return ((-1, m), [])
  else
    let ((ret, kernel), out) ← m.kernel.filesStructWrite task.files fd (m.userAddr task va) size
    return ((ret, { m with kernel }), out)

-- The flags V and U, and those of an access.

def userFlags : Word :=
  0x11

def readable : Word :=
  0x2

def writable : Word :=
  0x4

-- The physical address of a byte to which the task has access. The addresses of Sv39 have 39 bits, which are
-- extended with their sign, and the address of a large page is a multiple of its size.
def translate (m : Machine Obj) (task : Task) (access va : Word) : Option Word :=
  let w := pteWalk m.tables task.userPte va
  if (va.setWidth 39).signExtend 64 = va ∧ w.flags &&& (userFlags ||| access) = userFlags ||| access ∧
      w.addr.toNat % 2 ^ w.pageSize.bits = 0 then
    some <| w.addr + .ofNat 64 (va.toNat % 2 ^ w.pageSize.bits)
  else
    none

-- The pages of the buffers.
def Owned (m : Machine Obj) : Word → Prop :=
  pagesOf m.addr bufferMax

-- What is wanted of a call that reads `n` bytes.
structure Reads (m : Machine Obj) (task : Task) (va size n : Word) (bytes : Nat → BitVec 8) (mem : Bytes) (ret : Int)
    (mem' : Bytes) : Prop where
  -- Each byte gets to its place.
  placed   : (∀ k < size.toNat, (m.translate task writable (va + .ofNat 64 k)).isSome) →
    ∀ k < n.toNat, ∀ a ∈ m.translate task writable (va + .ofNat 64 k), mem' a = bytes k
  -- Apart from the buffers of the file system, nothing else changes.
  confined : ∀ a, ¬m.Owned a → (∀ k < size.toNat, m.translate task writable (va + .ofNat 64 k) ≠ some a) → mem' a = mem a
  refused  : (∃ k < size.toNat, m.translate task writable (va + .ofNat 64 k) = none) → ret = -1 ∧ mem' = mem

-- What is wanted of a call that writes the bytes `out`.
def Writes (m : Machine Obj) (task : Task) (va : Word) (mem : Bytes) (out : List (BitVec 8)) : Prop :=
  ∀ k (h : k < out.length), ∃ a ∈ m.translate task readable (va + .ofNat 64 k), out[k] = mem a

-- The addresses of the first `n` bytes follow each other.
def Straight (m : Machine Obj) (task : Task) (access va n : Word) : Prop :=
  ∀ k < n.toNat, m.translate task access (va + .ofNat 64 k) = some (m.userAddr task va + .ofNat 64 k)

instance {m : Machine Obj} {task : Task} {access va n : Word} : Decidable (m.Straight task access va n) :=
  inferInstanceAs <| Decidable (∀ k < n.toNat, _)

-- The number of bytes that a call moves. `io` is `vfs_read` or `vfs_write`.
def count (io : Vfs Obj → Node → (offset bufLen : Word) → Except Fault Word) (m : Machine Obj) (f : FilesStruct)
    (fd : Int) (size : Word) : Word :=
  if f.check fd then
    (f.nodes fd.toNat).elim 0 fun node =>
      (io m.kernel.files.vfs node (m.kernel.files.seeks f.seek fd.toNat) size).toOption.getD 0
  else
    0

-- The bytes that can be read through a descriptor.
def bytes (device : DeviceBytes) (content : Nat → BitVec 8) (m : Machine Obj) (f : FilesStruct) (fd : Int) : Nat → BitVec 8 :=
  (f.nodes fd.toNat).elim (fun _ => 0) fun node =>
    let seek := m.kernel.files.seeks f.seek fd.toNat
    if (m.kernel.files.vfs.nodes node).type = .dev then device node seek else fun k => content (seek.toNat + k)

-- There are enough buffers for the blocks of the bytes, next to those which are in use.
def Room (h : History) (m : Machine Obj) (f : FilesStruct) (fd : Int) (size : Word) : Prop :=
  ∀ node ∈ f.nodes fd.toNat, (m.kernel.files.vfs.nodes node).type ≠ .dev →
    let seek := m.kernel.files.seeks f.seek fd.toNat
    let n := readLength (m.kernel.files.vfs.nodes node).size seek size
    (h.past.map Access.key ++ byteBlocks node seek.toNat n).dedup.length ≤ bufferMax.toNat

instance {h : History} {m : Machine Obj} {f : FilesStruct} {fd : Int} {size : Word} : Decidable (Room h m f fd size) :=
  inferInstanceAs <| Decidable (∀ node ∈ f.nodes fd.toNat, _ → _ ≤ _)

def load (m : Machine Obj) (mem : Bytes) (buffers : Blocks) : Machine Obj :=
  { m with kernel := { m.kernel with mem, buffers } }

-- For all contents of the memory, the files and the devices, the system calls do what is wanted of them. The accesses
-- to the files before are the same.

def ReadsInto (h : History) (m : Machine Obj) (task : Task) (f : FilesStruct) (fd : Int) (va size : Word) : Prop :=
  ∀ mem read device content buffers, h.buffers read = .ok buffers →
    (∀ node ∈ f.nodes fd.toNat, Fs.Reads read node (m.kernel.files.vfs.nodes node).size.toNat content) →
    ∃ ret m', syscallRead read device (m.load mem buffers) task fd va size = .ok (ret, m') ∧
      m.Reads task va size (m.count Vfs.vfsRead f fd size) (m.bytes device content f fd) mem ret m'.kernel.mem

def WritesFrom (m : Machine Obj) (task : Task) (f : FilesStruct) (fd : Int) (va size : Word) : Prop :=
  ∀ mem, ∃ ret m' out, syscallWrite (m.load mem m.kernel.buffers) task fd va size = .ok ((ret, m'), out) ∧
    m'.kernel.mem = mem ∧ out.length = (m.count Vfs.vfsWrite f fd size).toNat ∧ m.Writes task va mem out

-- The descriptors of a task and their vnodes. The devices move at most as many bytes as they are asked for, and the
-- pages of the buffers are not those of a task.
structure Prepared (h : History) (m : Machine Obj) (task : Task) (f : FilesStruct) : Prop where
  table : m.kernel.files.tables task.files = some f
  seeks : ∃ f', m.kernel.files.tables f.seek = some f'
  bkd   : ∀ i < filesSize, ∀ node ∈ f.nodes i, (m.kernel.files.vfs.nodes node).type = .dev →
    ∃ bkd, (m.kernel.files.vfs.nodes node).bkd = some bkd ∧
      ∀ obj offset bufLen, bkd.read obj offset bufLen ≤ bufLen ∧ bkd.write obj offset bufLen ≤ bufLen
  files : ∀ i < filesSize, ∀ node ∈ f.nodes i, (m.kernel.files.vfs.nodes node).type ≠ .dev → h.files node
  past  : ∀ a ∈ h.past, h.files a.1
  ran   : ∃ read, h.buffers read = .ok m.kernel.buffers
  apart : ∀ va a, m.translate task writable va = some a → ¬m.Owned a

variable {h : History} {m m' : Machine Obj} {task : Task} {f : FilesStruct} {fd ret : Int} {node : Node}
  {va size n a : Word} {mem : Bytes} {read : ReadBlock} {device : DeviceBytes} {content : Nat → BitVec 8} {buffers : Blocks}

-- A byte behind `a`.
theorem eq_of_sub_lt {x : Word} : x = a + .ofNat 64 (x - a).toNat := by
  rw [BitVec.ofNat_toNat, BitVec.setWidth_eq, BitVec.add_comm, BitVec.sub_add_cancel]

namespace Prepared

theorem node_of_check (hc : f.check fd) : ∃ node, f.nodes fd.toNat = some node ∧ f.get fd = .ok (some node) ∧
    fd.toNat < filesSize ∧ 0 ≤ fd ∧ fd < filesSize := by
  obtain ⟨h₀, h₁, node, hn⟩ := FilesStruct.check_iff.mp hc
  refine ⟨node, hn, ?_, by omega, h₀, h₁⟩
  rw [FilesStruct.get, if_pos ⟨h₀, h₁⟩, hn]
  rfl

-- What is read of a file.
theorem count_file (hc : f.check fd) (hn : f.nodes fd.toNat = some node)
    (hd : (m.kernel.files.vfs.nodes node).type ≠ .dev) : (m.count Vfs.vfsRead f fd size).toNat =
      readLength (m.kernel.files.vfs.nodes node).size (m.kernel.files.seeks f.seek fd.toNat) size := by
  simp only [count, hc, if_true, hn, Option.elim_some, Vfs.vfsRead, if_neg hd]
  generalize m.kernel.files.seeks f.seek fd.toNat = seek
  have hs := @setWidth_toNat (m.kernel.files.vfs.nodes node).size
  rw [readLength]
  split_ifs with ho hle
  case pos =>
    rw [BitVec.le_def, hs] at ho
    rw [Nat.sub_eq_zero_of_le ho, Nat.min_zero]
    rfl
  all_goals
    have hsub := BitVec.toNat_sub_of_le <| BitVec.le_of_lt <| BitVec.not_le.mp ho
    rw [hs] at hsub
    rw [BitVec.le_def, hsub] at hle
    simp only [pure, Except.pure, Except.toOption, Option.getD_some]
    omega

-- The bytes of a file for which there are buffers are fewer than those for which the `int` is -1.
theorem ret_ne (hc : f.check fd) (hn : f.nodes fd.toNat = some node) (hd : (m.kernel.files.vfs.nodes node).type ≠ .dev)
    (hr : m.Room h f fd size) : ((m.count Vfs.vfsRead f fd size).truncate 32).toInt ≠ -1 := by
  have hroom := hr node hn hd
  have hcount := @count_file _ m f fd node size hc hn hd
  dsimp only at hroom
  generalize m.kernel.files.seeks f.seek fd.toNat = seek at hroom hcount
  generalize hlen : readLength (m.kernel.files.vfs.nodes node).size seek size = n at hroom hcount
  have hsize := (m.kernel.files.vfs.nodes node).size.isLt
  have hn : n ≤ pageSize * 10 := by
    cases Nat.eq_zero_or_pos n
    case inl hz => omega
    case inr hp =>
      have hle := @le_length_byteBlocks node seek.toNat n <| by
        rw [readLength] at hlen
        omega
      have hroom := (List.length_dedup_le <| List.subset_append_right (h.past.map Access.key) _).trans hroom
      exact hle.trans <| Nat.mul_le_mul_left _ hroom
  rw [Kernel.Opened.toInt_truncate <| by rw [hcount]; simp only [pageSize] at hn; omega]
  omega

variable (w : m.Prepared h task f)

include w

theorem transfer_ok (hf : 0 ≤ fd ∧ fd < filesSize) (n : Word) :
    ∃ files, m.kernel.files.transfer f fd n = .ok ((n.truncate 32).toInt, files) := by
  obtain ⟨f', hs⟩ := w.seeks
  unfold Files.transfer
  dsimp only
  split_ifs
  case neg => exact ⟨_, rfl⟩
  case pos =>
    rw [Files.setSeek, Files.table_eq hs]
    simp only [bind, Except.bind, if_pos hf]
    exact ⟨_, rfl⟩

-- The blocks in use are those of the accesses, whatever the files contain.
theorem keeps (hb : h.buffers read = .ok buffers) : buffers.Keeps read (h.past.map Access.key) ∧
    buffers.totalMax = bufferMax ∧ ∀ n, (buffers.bbf n).isSome = h.files n :=
  History.keeps w.past hb

theorem length_past : (h.past.map Access.key).dedup.length ≤ bufferMax.toNat := by
  obtain ⟨read, hr⟩ := w.ran
  obtain ⟨hk, ht, _⟩ := w.keeps hr
  exact ht ▸ hk.length_le

theorem exists_buffers (read : ReadBlock) : ∃ buffers, h.buffers read = .ok buffers := by
  obtain ⟨b, hb, _⟩ := (Blocks.Keeps.init read h.blocks h.files bufferMax).run h.past
    (fun a ha => by simp [Blocks.init, w.past a ha]) (by simpa [Blocks.init] using w.length_past)
  exact ⟨b, hb⟩

-- The calls on an open descriptor.

theorem syscallRead_eq (hc : f.check fd) (hn : f.nodes fd.toNat = some node) :
    syscallRead read device (m.load mem buffers) task fd va size = (do
      let (n, s) ← (m.load mem buffers).kernel.vfsRead (Blocks.accessBytes read m.addr) device node
        (m.kernel.files.seeks f.seek fd.toNat) (m.userAddr task va) size
      let (ret, files) ← s.files.transfer f fd n
      return (ret, { m.load mem buffers with kernel := { s with files } })) := by
  obtain ⟨node', hn', hg, _⟩ := node_of_check hc
  cases hn.symm.trans hn'
  obtain ⟨f', hs⟩ := w.seeks
  have ht : (m.load mem buffers).kernel.files.table task.files = .ok f := Files.table_eq w.table
  have hs : (m.load mem buffers).kernel.files.table f.seek = .ok f' := Files.table_eq hs
  have ha : (m.load mem buffers).userAddr task va = m.userAddr task va := rfl
  have hk : (m.load mem buffers).kernel.files.seeks = m.kernel.files.seeks := rfl
  have hd : (m.load mem buffers).addr = m.addr := rfl
  simp only [syscallRead, Kernel.filesStructRead, ht, hs, hg, hc, ha, hk, hd, bind, Except.bind, pure, Except.pure,
    Bool.not_true, Bool.false_eq_true, if_false]
  cases (m.load mem buffers).kernel.vfsRead (Blocks.accessBytes read m.addr) device node
    (m.kernel.files.seeks f.seek fd.toNat) (m.userAddr task va) size
  case error => rfl
  case ok r  =>
    dsimp only
    cases r.2.files.transfer f fd r.1 <;> rfl

variable (device) in
theorem vfsRead_ok (hc : f.check fd) (hl : m.kernel.locked = false) (hr : m.Room h f fd size)
    (hb : h.buffers read = .ok buffers) (hn : f.nodes fd.toNat = some node)
    (hf : Fs.Reads read node (m.kernel.files.vfs.nodes node).size.toNat content) (mem : Bytes) (va : Word) :
    ∃ n ≤ size, m.count Vfs.vfsRead f fd size = n ∧ ∃ s',
      (m.load mem buffers).kernel.vfsRead (Blocks.accessBytes read m.addr) device node
        (m.kernel.files.seeks f.seek fd.toNat) (m.userAddr task va) size = .ok (n, s') ∧ s'.files = m.kernel.files ∧
      (∀ a, ¬m.Owned a → n.toNat ≤ (a - m.userAddr task va).toNat → s'.mem a = mem a) ∧
      (((m.kernel.files.vfs.nodes node).type ≠ .dev →
          ∀ k < n.toNat, ¬m.Owned (m.userAddr task va + .ofNat 64 k)) →
        ∀ k < n.toNat, s'.mem (m.userAddr task va + .ofNat 64 k) = m.bytes device content f fd k) := by
  obtain ⟨_, _, _, hi, _⟩ := node_of_check hc
  have hl' : (m.load mem buffers).kernel.locked = false := hl
  have hcount : m.count Vfs.vfsRead f fd size =
      (m.kernel.files.vfs.vfsRead node (m.kernel.files.seeks f.seek fd.toNat) size).toOption.getD 0 := by
    simp [count, hc, hn]
  have hfile := @count_file _ m f fd node size hc hn
  have hroom := hr node hn
  rw [bytes, hn, Option.elim_some]
  generalize m.kernel.files.seeks f.seek fd.toNat = seek at hcount hfile hroom ⊢
  by_cases hd : (m.kernel.files.vfs.nodes node).type = .dev
  case pos =>
    obtain ⟨bkd, hbkd, hle⟩ := w.bkd _ hi node hn hd
    rw [Vfs.vfsRead, if_pos hd, hbkd] at hcount
    refine ⟨_, (hle (m.kernel.files.vfs.nodes node).lfsObj seek size).1, hcount, ?_⟩
    have hd' : ((m.load mem buffers).kernel.files.vfs.nodes node).type = .dev := hd
    have hb' : ((m.load mem buffers).kernel.files.vfs.nodes node).bkd = some bkd := hbkd
    simp only [Kernel.vfsRead, Kernel.acquire, hl', hd', hb', hd, if_true, Bool.false_eq_true, if_false, bind,
      Except.bind, pure, Except.pure]
    refine ⟨_, rfl, rfl, fun a _ hle => if_neg fun hlt => ?_, fun _ k hk => ?_⟩
    case refine_1 => exact Nat.not_lt.mpr hle <| BitVec.lt_def.mp hlt
    case refine_2 =>
      have hk' : (BitVec.ofNat 64 k).toNat = k := ofNat_toNat <| hk.trans <| BitVec.isLt _
      simp only [Kernel.release, BitVec.add_comm _ (BitVec.ofNat 64 k), BitVec.add_sub_cancel, BitVec.lt_def, hk']
      exact if_pos hk
  case neg =>
    have hfile := hfile hd
    cases Nat.lt_or_ge seek.toNat (m.kernel.files.vfs.nodes node).size.toNat
    case inr hge =>
      rw [readLength, Nat.sub_eq_zero_of_le hge, Nat.min_zero] at hfile
      refine ⟨0, BitVec.le_def.mpr <| Nat.zero_le _, BitVec.eq_of_toNat_eq hfile, _,
        Kernel.vfsRead_eof hl' hd hge, rfl, fun _ _ _ => rfl, fun _ k hk => ?_⟩
      exact absurd hk k.not_lt_zero
    case inl hlt =>
      have hsize := (m.kernel.files.vfs.nodes node).size.isLt
      obtain ⟨hk, ht, hlist⟩ := w.keeps hb
      have hnode : (buffers.bbf node).isSome := by rw [hlist]; exact w.files _ hi node hn hd
      have hroom := hroom hd
      generalize hlen : readLength (m.kernel.files.vfs.nodes node).size seek size = n at hroom hfile
      have hn' : n = min size.toNat ((m.kernel.files.vfs.nodes node).size.toNat - seek.toNat) := hlen.symm
      -- The blocks from the one of `seek` on have room.
      have hserves := Blocks.Keeps.servesFrom (if n = 0 then 0 else seek.toNat + n) m.addr
        (seek.toNat / pageSize) hf (by split_ifs <;> omega) hsize.le hroom fun i hi hlt => by
          split_ifs at hlt with hz
          case pos => exact absurd hlt <| Nat.not_lt_zero _
          case neg =>
            refine List.mem_append_right _ <| mem_byteBlocks.mpr ⟨max seek.toNat (i * pageSize), by omega, by omega, ?_⟩
            congr 2
            simp only [pageSize] at hi hlt ⊢
            omega
      obtain ⟨n', buffers', mem', he, hnn, _, hframe, hbytes⟩ := @Kernel.vfsRead_ends _ _ _ device _ _ node _ content
        (m.load mem buffers).kernel seek (m.userAddr task va) size n hserves
        ⟨_, hk, List.subset_append_left .., ht, hnode⟩ hl' hd hlt hn' (fun hz => by rw [if_neg hz]) (by split_ifs <;> omega)
      refine ⟨n', BitVec.le_def.mpr <| by omega, BitVec.eq_of_toNat_eq <| hfile.trans hnn.symm, _, he, rfl, hnn ▸ hframe,
        fun hown => ?_⟩
      rw [hnn] at hown ⊢
      rw [if_neg hd]
      exact hbytes <| hown hd

variable (device) in
theorem syscallRead_ok (hc : f.check fd) (hl : m.kernel.locked = false) (hr : m.Room h f fd size)
    (hb : h.buffers read = .ok buffers)
    (hf : ∀ node ∈ f.nodes fd.toNat, Fs.Reads read node (m.kernel.files.vfs.nodes node).size.toNat content)
    (mem : Bytes) (va : Word) :
    ∃ n ≤ size, m.count Vfs.vfsRead f fd size = n ∧ ∃ m',
      syscallRead read device (m.load mem buffers) task fd va size = .ok ((n.truncate 32).toInt, m') ∧
      (∀ a, ¬m.Owned a → n.toNat ≤ (a - m.userAddr task va).toNat → m'.kernel.mem a = mem a) ∧
      ((∀ node ∈ f.nodes fd.toNat, (m.kernel.files.vfs.nodes node).type ≠ .dev →
          ∀ k < n.toNat, ¬m.Owned (m.userAddr task va + .ofNat 64 k)) →
        ∀ k < n.toNat, m'.kernel.mem (m.userAddr task va + .ofNat 64 k) = m.bytes device content f fd k) := by
  obtain ⟨node, hn, _, _, hrange⟩ := node_of_check hc
  obtain ⟨n, hle, hcount, s', he, hs, hframe, hbytes⟩ := w.vfsRead_ok device hc hl hr hb hn (hf node hn) mem va
  obtain ⟨files, ht⟩ := w.transfer_ok hrange n
  refine ⟨n, hle, hcount, { m.load mem buffers with kernel := { s' with files } }, ?_, hframe,
    fun ho => hbytes <| ho node hn⟩
  rw [w.syscallRead_eq hc hn, he]
  simp only [bind, Except.bind, hs, ht]
  rfl

-- A call returns only if no other call holds the lock and there are buffers for the blocks.
theorem room_of_ok (hc : f.check fd) (hb : h.buffers read = .ok buffers)
    (he : syscallRead read device (m.load mem buffers) task fd va size = .ok (ret, m')) :
    m.kernel.locked = false ∧ m.Room h f fd size := by
  obtain ⟨node, hn, _, hi, _⟩ := node_of_check hc
  rw [w.syscallRead_eq hc hn] at he
  obtain ⟨r, hr, _⟩ := Except.bind_eq_ok.mp he
  have hl : m.kernel.locked = false := by
    by_contra hl
    rw [Bool.not_eq_false] at hl
    simp only [Kernel.vfsRead, Kernel.acquire, load, hl, if_true] at hr
    cases hr
  refine ⟨hl, fun node' hn' hd => ?_⟩
  cases hn.symm.trans hn'
  obtain ⟨hk, ht, hlist⟩ := w.keeps hb
  dsimp only
  generalize hseek : m.kernel.files.seeks f.seek fd.toNat = seek at hr ⊢
  generalize hlen : readLength (m.kernel.files.vfs.nodes node).size seek size = n
  cases Nat.eq_zero_or_pos n
  case inl hz =>
    rw [hz, byteBlocks, List.range_zero, List.map_nil, List.append_nil]
    exact w.length_past
  case inr hp =>
    rw [readLength] at hlen
    have hnode : (buffers.bbf node).isSome := by rw [hlist]; exact w.files _ hi node hn hd
    have hcopy := Kernel.buffers_of_vfsRead (s := (m.load mem buffers).kernel) (n := n) hl hd
      (show seek.toNat < (m.kernel.files.vfs.nodes node).size.toNat by omega) hlen.symm hr
    obtain ⟨accs, hk', hm, ht', _⟩ := hk.of_copy hnode hp hcopy
    exact (List.length_dedup_le fun p hp => (hm p).mpr hp).trans <| (ht'.trans ht) ▸ hk'.length_le

theorem syscallWrite_eq (hc : f.check fd) (hn : f.nodes fd.toNat = some node) :
    syscallWrite (m.load mem buffers) task fd va size = (do
      let ((n, s), out) ← (m.load mem buffers).kernel.vfsWrite node (m.kernel.files.seeks f.seek fd.toNat)
        (m.userAddr task va) size
      let (ret, files) ← s.files.transfer f fd n
      return ((ret, { m.load mem buffers with kernel := { s with files } }), out)) := by
  obtain ⟨node', hn', hg, _⟩ := node_of_check hc
  cases hn.symm.trans hn'
  obtain ⟨f', hs⟩ := w.seeks
  have ht : (m.load mem buffers).kernel.files.table task.files = .ok f := Files.table_eq w.table
  have hs : (m.load mem buffers).kernel.files.table f.seek = .ok f' := Files.table_eq hs
  have ha : (m.load mem buffers).userAddr task va = m.userAddr task va := rfl
  have hk : (m.load mem buffers).kernel.files.seeks = m.kernel.files.seeks := rfl
  simp only [syscallWrite, Kernel.filesStructWrite, ht, hs, hg, hc, ha, hk, bind, Except.bind, pure, Except.pure,
    Bool.not_true, Bool.false_eq_true, if_false]
  cases (m.load mem buffers).kernel.vfsWrite node (m.kernel.files.seeks f.seek fd.toNat) (m.userAddr task va) size
  case error => rfl
  case ok r  =>
    dsimp only
    cases r.1.2.files.transfer f fd r.1.1 <;> rfl

theorem vfsWrite_ok (hc : f.check fd) (hl : m.kernel.locked = false) (hn : f.nodes fd.toNat = some node) (a size : Word) :
    m.kernel.vfsWrite node (m.kernel.files.seeks f.seek fd.toNat) a size =
      .ok ((m.count Vfs.vfsWrite f fd size, m.kernel), Kernel.fetch m.kernel.mem a (m.count Vfs.vfsWrite f fd size)) := by
  obtain ⟨_, _, _, hi, _⟩ := node_of_check hc
  have hk : { m.kernel with locked := true }.release = m.kernel := by
    rw [Kernel.release, ← hl]
  simp only [count, hc, if_true, hn, Option.elim_some, Vfs.vfsWrite, Kernel.vfsWrite, Kernel.acquire, hl,
    Bool.false_eq_true, if_false, bind, Except.bind, pure, Except.pure]
  split_ifs with hd
  case pos =>
    obtain ⟨bkd, hbkd, _⟩ := w.bkd _ hi node hn hd
    simp only [hbkd, hk, Except.toOption, Option.getD_some]
  case neg =>
    rw [hk]
    rfl

theorem syscallWrite_ok (hc : f.check fd) (hl : m.kernel.locked = false) (mem : Bytes) (va size : Word) :
    ∃ ret m', syscallWrite (m.load mem m.kernel.buffers) task fd va size =
      .ok ((ret, m'), Kernel.fetch mem (m.userAddr task va) (m.count Vfs.vfsWrite f fd size)) ∧ m'.kernel.mem = mem := by
  obtain ⟨node, hn, _, _, hrange⟩ := node_of_check hc
  obtain ⟨files, ht⟩ := w.transfer_ok hrange (m.count Vfs.vfsWrite f fd size)
  have w' : (m.load mem m.kernel.buffers).Prepared h task f :=
    ⟨w.table, w.seeks, w.bkd, w.files, w.past, w.ran, w.apart⟩
  have he := w'.vfsWrite_ok hc hl hn (m.userAddr task va) size
  have hs : (m.load mem m.kernel.buffers).kernel.files.seeks = m.kernel.files.seeks := rfl
  have ht : (m.load mem m.kernel.buffers).kernel.files.transfer f fd (m.count Vfs.vfsWrite f fd size) = _ := ht
  have hcount : (m.load mem m.kernel.buffers).count Vfs.vfsWrite f fd size = m.count Vfs.vfsWrite f fd size := rfl
  rw [hs, hcount] at he
  rw [w.syscallWrite_eq hc hn, he]
  simp only [bind, Except.bind, ht]
  exact ⟨_, _, rfl, rfl⟩

theorem free_of_write (hc : f.check fd) {r : (Int × Machine Obj) × List (BitVec 8)}
    (he : syscallWrite (m.load mem buffers) task fd va size = .ok r) : m.kernel.locked = false := by
  obtain ⟨node, hn, _⟩ := node_of_check hc
  rw [w.syscallWrite_eq hc hn] at he
  obtain ⟨_, hr, _⟩ := Except.bind_eq_ok.mp he
  by_contra hl
  rw [Bool.not_eq_false] at hl
  simp only [Kernel.vfsWrite, Kernel.acquire, load, hl, if_true] at hr
  cases hr

end Prepared

section Conditions

variable (w : m.Prepared h task f) (hc : f.check fd)

include w hc

-- A call which reads the bytes `g`.
theorem ReadsInto.call (hr : ReadsInto h m task f fd va size) (mem : Bytes) (g : Nat → BitVec 8) :
    m.kernel.locked = false ∧ m.Room h f fd size ∧ m.count Vfs.vfsRead f fd size ≤ size ∧ ∃ mem',
      m.Reads task va size (m.count Vfs.vfsRead f fd size) g mem ((m.count Vfs.vfsRead f fd size).truncate 32).toInt mem' ∧
      (∀ a, ¬m.Owned a → (m.count Vfs.vfsRead f fd size).toNat ≤ (a - m.userAddr task va).toNat → mem' a = mem a) ∧
      ((∀ node ∈ f.nodes fd.toNat, (m.kernel.files.vfs.nodes node).type ≠ .dev →
          ∀ k < (m.count Vfs.vfsRead f fd size).toNat, ¬m.Owned (m.userAddr task va + .ofNat 64 k)) →
        ∀ k < (m.count Vfs.vfsRead f fd size).toNat, mem' (m.userAddr task va + .ofNat 64 k) = g k) := by
  let content : Nat → BitVec 8 := fun i => g (i - (m.kernel.files.seeks f.seek fd.toNat).toNat)
  have hg : m.bytes (fun _ _ => g) content f fd = g := by
    obtain ⟨node, hn, _⟩ := Prepared.node_of_check hc
    rw [bytes, hn, Option.elim_some]
    split_ifs
    case pos => rfl
    case neg => exact funext fun k => congrArg g <| Nat.add_sub_cancel_left ..
  obtain ⟨buffers, hb⟩ := w.exists_buffers (fileRead content)
  have hf : ∀ node ∈ f.nodes fd.toNat,
      Fs.Reads (fileRead content) node (m.kernel.files.vfs.nodes node).size.toNat content :=
    fun _ _ => fileRead_reads (BitVec.isLt _).le
  obtain ⟨ret, m', he, hreads⟩ := hr mem _ (fun _ _ => g) content buffers hb hf
  obtain ⟨hl, hroom⟩ := w.room_of_ok hc hb he
  obtain ⟨n, hle, rfl, m'', he', hframe, hbytes⟩ := w.syscallRead_ok (fun _ _ => g) hc hl hroom hb hf mem va
  cases he.symm.trans he'
  rw [hg] at hreads hbytes
  exact ⟨hl, hroom, hle, _, hreads, hframe, hbytes⟩

-- A call which reads something cannot refuse it.
theorem ReadsInto.mapped (hr : ReadsInto h m task f fd va size) {k : Nat} (hk : k < size.toNat) :
    (m.translate task writable (va + .ofNat 64 k)).isSome := by
  by_contra ht
  obtain ⟨_, hroom, _, mem', hreads, _, hbytes⟩ := hr.call w hc (fun _ => 0) fun _ => 1
  obtain ⟨hret, hmem⟩ := hreads.refused ⟨k, hk, by simpa using ht⟩
  obtain ⟨node, hn, _⟩ := Prepared.node_of_check hc
  by_cases hd : (m.kernel.files.vfs.nodes node).type = .dev
  case neg => exact Prepared.ret_ne hc hn hd hroom hret
  case pos =>
    have hpos : 0 < (m.count Vfs.vfsRead f fd size).toNat := by
      refine Nat.pos_of_ne_zero fun hz => ?_
      rw [BitVec.eq_of_toNat_eq (y := 0) hz] at hret
      exact absurd hret <| by decide
    have := hbytes (fun node' hn' hd' => absurd hd <| Option.some.inj (hn.symm.trans hn') ▸ hd') 0 hpos
    rw [hmem] at this
    cases this

-- The bytes go to the places behind the address of the system call, each to another one.
theorem ReadsInto.places (hr : ReadsInto h m task f fd va size) :
    ∃ σ : Fin (m.count Vfs.vfsRead f fd size).toNat → Fin (m.count Vfs.vfsRead f fd size).toNat, σ.Surjective ∧
      ∀ k : Fin _, m.translate task writable (va + .ofNat 64 k) = some (m.userAddr task va + .ofNat 64 (σ k)) := by
  obtain ⟨_, _, hle, mem', hreads, hframe, _⟩ := hr.call w hc (fun _ => 0) fun _ => 1
  have hm : ∀ k < size.toNat, (m.translate task writable (va + .ofNat 64 k)).isSome := fun k hk => hr.mapped w hc hk
  have hk (k : Fin (m.count Vfs.vfsRead f fd size).toNat) : ∃ a, m.translate task writable (va + .ofNat 64 k) = some a :=
    Option.isSome_iff_exists.mp <| hm k <| k.isLt.trans_le <| BitVec.le_def.mp hle
  choose a ha using hk
  have hlt (k : Fin (m.count Vfs.vfsRead f fd size).toNat) :
      (a k - m.userAddr task va).toNat < (m.count Vfs.vfsRead f fd size).toNat := by
    by_contra hge
    have h₁ := hreads.placed hm k k.isLt (a k) (ha k)
    have h₀ := hframe (a k) (w.apart _ _ <| ha k) <| Nat.le_of_not_lt hge
    cases h₁.symm.trans h₀
  refine ⟨fun k => ⟨_, hlt k⟩, Finite.injective_iff_surjective.mp fun k k' he => ?_, fun k => ?_⟩
  case refine_2 => exact (ha k).trans <| congrArg some eq_of_sub_lt
  case refine_1 =>
    -- A byte which differs from all others is not put to the place of another one.
    obtain ⟨_, _, _, mem', hreads, _⟩ := hr.call w hc (fun _ => 0) fun j => if j = k then 1 else 0
    have h₁ := hreads.placed hm k k.isLt (a k) (ha k)
    have h₂ := hreads.placed hm k' k'.isLt (a k') (ha k')
    have haa : a k = a k' := by
      rw [@eq_of_sub_lt (m.userAddr task va) (a k), @eq_of_sub_lt (m.userAddr task va) (a k')]
      exact congrArg (fun i : Fin _ => m.userAddr task va + .ofNat 64 i) he
    rw [haa, h₂] at h₁
    by_contra hne
    rw [if_neg fun h => hne <| Fin.ext h.symm, if_pos rfl] at h₁
    cases h₁

theorem ReadsInto.straight (hr : ReadsInto h m task f fd va size) :
    m.Straight task writable va (m.count Vfs.vfsRead f fd size) := by
  obtain ⟨σ, hσ, ht⟩ := hr.places w hc
  intro k hk
  obtain ⟨_, _, _, mem', hreads, _, hbytes⟩ := hr.call w hc (fun _ => 0) fun j => if j = k then 1 else 0
  have hown : ∀ i < (m.count Vfs.vfsRead f fd size).toNat, ¬m.Owned (m.userAddr task va + .ofNat 64 i) := by
    intro i hi
    obtain ⟨j, hj⟩ := hσ ⟨i, hi⟩
    have := w.apart _ _ <| ht j
    rwa [hj] at this
  have h₁ := hreads.placed (fun k hk => hr.mapped w hc hk) k hk _ (ht ⟨k, hk⟩)
  rw [hbytes (fun _ _ _ => hown) _ (σ ⟨k, hk⟩).isLt, if_pos rfl] at h₁
  have he : (σ ⟨k, hk⟩).val = k := by
    by_contra hne
    rw [if_neg hne] at h₁
    cases h₁
  exact (ht ⟨k, hk⟩).trans <| by rw [he]

theorem reads_iff : ReadsInto h m task f fd va size ↔ m.kernel.locked = false ∧ m.Room h f fd size ∧
    (∀ k < size.toNat, (m.translate task writable (va + .ofNat 64 k)).isSome) ∧
    m.Straight task writable va (m.count Vfs.vfsRead f fd size) := by
  constructor
  case mp =>
    intro hr
    obtain ⟨hl, hroom, _⟩ := hr.call w hc (fun _ => 0) fun _ => 0
    exact ⟨hl, hroom, fun _ hk => hr.mapped w hc hk, hr.straight w hc⟩
  case mpr =>
    rintro ⟨hl, hroom, hm, hs⟩ mem read device content buffers hb hf
    obtain ⟨n, hle, hn, m', he, hframe, hbytes⟩ := w.syscallRead_ok device hc hl hroom hb hf mem va
    rw [hn] at hs ⊢
    refine ⟨_, m', he, fun _ k hk a ha => ?_, fun a ha hno => hframe a ha <| Nat.le_of_not_lt fun hlt => ?_,
      fun ⟨k, hk, ht⟩ => ?_⟩
    case refine_1 =>
      cases (hs k hk).symm.trans ha
      exact hbytes (fun _ _ _ i hi => w.apart _ _ <| hs i hi) k hk
    case refine_2 =>
      refine hno _ (hlt.trans_le <| BitVec.le_def.mp hle) ?_
      exact (hs _ hlt).trans <| congrArg some eq_of_sub_lt.symm
    case refine_3 =>
      have := hm k hk
      rw [ht] at this
      cases this

theorem writes_iff : m.WritesFrom task f fd va size ↔ m.kernel.locked = false ∧
    m.Straight task readable va (m.count Vfs.vfsWrite f fd size) := by
  constructor
  case mp =>
    intro hw
    have hl : m.kernel.locked = false := by
      obtain ⟨_, _, _, he, _⟩ := hw fun _ => 0
      exact w.free_of_write hc he
    refine ⟨hl, fun k hk => ?_⟩
    obtain ⟨ret, m', out, he, _, _, hout⟩ := hw fun x => if x = m.userAddr task va + .ofNat 64 k then 1 else 0
    obtain ⟨ret', m'', he', _⟩ :=
      w.syscallWrite_ok hc hl (fun x => if x = m.userAddr task va + .ofNat 64 k then 1 else 0) va size
    cases he.symm.trans he'
    obtain ⟨a, ha, ho⟩ := hout k <| by simpa [Kernel.fetch] using hk
    simp only [Kernel.fetch, List.getElem_map, List.getElem_range, if_true] at ho
    by_cases hx : a = m.userAddr task va + .ofNat 64 k
    case pos => exact hx ▸ ha
    case neg => simp [hx] at ho
  case mpr =>
    rintro ⟨hl, hs⟩ mem
    obtain ⟨ret, m', he, hm⟩ := w.syscallWrite_ok hc hl mem va size
    refine ⟨ret, m', _, he, hm, by simp [Kernel.fetch], fun k hk => ⟨_, hs k ?_, ?_⟩⟩
    case refine_1 => simpa [Kernel.fetch] using hk
    case refine_2 => simp [Kernel.fetch]

end Conditions

-- The memory is accessed as it should be iff the lock is free, there are buffers for the blocks, all bytes of the buffer
-- have the access, and those which are moved are in a row behind the translation of the first one.
theorem confined_iff (w : m.Prepared h task f) :
    (ReadsInto h m task f fd va size ↔ (f.check fd → m.kernel.locked = false ∧ m.Room h f fd size ∧
      (∀ k < size.toNat, (m.translate task writable (va + .ofNat 64 k)).isSome) ∧
      m.Straight task writable va (m.count Vfs.vfsRead f fd size))) ∧
    (m.WritesFrom task f fd va size ↔ (f.check fd → m.kernel.locked = false ∧
      m.Straight task readable va (m.count Vfs.vfsWrite f fd size))) := by
  by_cases hc : f.check fd
  case pos => simp only [reads_iff w hc, writes_iff w hc, hc, true_imp_iff, and_self]
  case neg =>
    have ht (mem : Bytes) (buffers : Blocks) : (m.load mem buffers).kernel.files.table task.files = .ok f :=
      Files.table_eq w.table
    have hr (mem : Bytes) (buffers : Blocks) (read : ReadBlock) (device : DeviceBytes) :
        syscallRead read device (m.load mem buffers) task fd va size = .ok (-1, m.load mem buffers) := by
      simp only [syscallRead, ht, bind, Except.bind, hc]
      rfl
    have hw (mem : Bytes) (buffers : Blocks) :
        syscallWrite (m.load mem buffers) task fd va size = .ok ((-1, m.load mem buffers), []) := by
      simp only [syscallWrite, ht, bind, Except.bind, hc]
      rfl
    refine ⟨iff_of_true (fun mem read device _ buffers _ _ => ⟨_, _, hr mem buffers read device, ?_⟩) fun h => absurd h hc,
      iff_of_true (fun mem => ⟨_, _, _, hw mem _, rfl, ?_, nofun⟩) fun h => absurd h hc⟩
    case refine_1 => exact ⟨fun _ k hk => by simp [count, hc] at hk, fun _ _ _ => rfl, fun _ => ⟨rfl, rfl⟩⟩
    case refine_2 => simp [count, hc]

end Machine

-- A page table whose root is in the page 1. The pages 1 and 2 of the task are mapped to the given pages.
def twoPages (pa₁ pa₂ : Word) : Pte.Mem :=
  fun t i =>
    if t = 0x1000 ∧ i = 0 then Pte.pteNaddr 0x2000 ||| Pte.pteNonLeaf
    else if t = 0x2000 ∧ i = 0 then Pte.pteNaddr 0x3000 ||| Pte.pteNonLeaf
    else if t = 0x3000 ∧ i = 1 then Pte.pteNaddr pa₁ ||| 0x17
    else if t = 0x3000 ∧ i = 2 then Pte.pteNaddr pa₂ ||| 0x17
    else 0

def sampleTask : Task where
  userPte := 0x1000
  files   := 0

-- The descriptor 0 belongs to a file of five bytes, of which nothing has been read.
def sampleMachine (pa₁ pa₂ : Word) : Machine Nat where
  kernel := countingKernel 5 bufferMax
  tables := twoPages pa₁ pa₂
  addr   := fun blk => 0xa0000000 + .ofNat 64 (blk * pageSize)

-- The pages of the task lie in front of the buffers.
theorem sampleMachine_lt {pa₂ access va a : Word} (hp : pa₂ = 0x80001000 ∨ pa₂ = 0x90000000)
    (h : (sampleMachine 0x80000000 pa₂).translate sampleTask access va = some a) : a.toNat < 0xa0000000 := by
  -- A walk which does not come to one of the two entries has no flags.
  have hw : (pteWalk (sampleMachine 0x80000000 pa₂).tables 0x1000 va).flags = 0 ∨
      (pteWalk (sampleMachine 0x80000000 pa₂).tables 0x1000 va).pageSize = .page4K ∧
      ((pteWalk (sampleMachine 0x80000000 pa₂).tables 0x1000 va).addr = 0x80000000 ∨
        (pteWalk (sampleMachine 0x80000000 pa₂).tables 0x1000 va).addr = pa₂) := by
    unfold pteWalk
    generalize Pte.vaVpn2 va = i
    generalize Pte.vaVpn1 va = j
    generalize Pte.vaVpn0 va = k
    have h₂ : (sampleMachine 0x80000000 pa₂).tables 0x1000 i =
        if i = 0 then Pte.pteNaddr 0x2000 ||| Pte.pteNonLeaf else 0 := by
      by_cases hi : i = 0 <;> simp [sampleMachine, twoPages, hi]
    have h₁ : (sampleMachine 0x80000000 pa₂).tables 0x2000 j =
        if j = 0 then Pte.pteNaddr 0x3000 ||| Pte.pteNonLeaf else 0 := by
      by_cases hj : j = 0 <;> simp [sampleMachine, twoPages, hj]
    have h₀ : (sampleMachine 0x80000000 pa₂).tables 0x3000 k = if k = 1 then Pte.pteNaddr 0x80000000 ||| 0x17 else
        if k = 2 then Pte.pteNaddr pa₂ ||| 0x17 else 0 := by
      by_cases hk : k = 1 <;> simp [sampleMachine, twoPages, hk]
    have hz : Pte.pteExtractXwrv 0 ≠ Pte.pteNonLeaf := by decide
    have hn (t : Word) (ht : t = 0x2000 ∨ t = 0x3000) :
        Pte.pteExtractXwrv (Pte.pteNaddr t ||| Pte.pteNonLeaf) = Pte.pteNonLeaf ∧
        Pte.pteExtractNaddr (Pte.pteNaddr t ||| Pte.pteNonLeaf) = t := by
      obtain rfl | rfl := ht <;> decide
    rw [h₂]
    by_cases hi : i = 0
    case neg => simp only [if_neg hi, if_neg hz]; exact .inl rfl
    case pos =>
      simp only [if_pos hi, hn 0x2000 (.inl rfl), if_true, h₁]
      by_cases hj : j = 0
      case neg => simp only [if_neg hj, if_neg hz]; exact .inl rfl
      case pos =>
        simp only [if_pos hj, hn 0x3000 (.inr rfl), if_true, h₀]
        split_ifs
        case pos => exact .inr ⟨trivial, .inl <| by decide⟩
        case pos => exact .inr ⟨trivial, .inr <| by obtain rfl | rfl := hp <;> decide⟩
        case neg => exact .inl rfl
  have htask : sampleTask.userPte = 0x1000 := rfl
  simp only [Machine.translate, htask] at h
  generalize pteWalk (sampleMachine 0x80000000 pa₂).tables 0x1000 va = w at h hw
  split_ifs at h with hc
  cases h
  obtain hf | ⟨hs, ha⟩ := hw
  case inl =>
    have := congrArg (·.getLsbD 0) hc.2.1
    simp [hf, Machine.userFlags] at this
  case inr =>
    have hk : (BitVec.ofNat 64 (va.toNat % 2 ^ w.pageSize.bits)).toNat < 4096 := by
      rw [hs, BitVec.toNat_ofNat]
      exact (Nat.mod_le ..).trans_lt <| Nat.mod_lt _ <| by decide
    generalize BitVec.ofNat 64 (va.toNat % 2 ^ w.pageSize.bits) = x at hk
    obtain ha | ha := ha
    all_goals
      rw [ha]
      bv_omega

theorem sampleMachine_prepared {pa₂ : Word} (hp : pa₂ = 0x80001000 ∨ pa₂ = 0x90000000) :
    (sampleMachine 0x80000000 pa₂).Prepared sampleHistory sampleTask sampleTable where
  table := rfl
  seeks := ⟨sampleTable, rfl⟩
  bkd   := by
    intro i _ node hm hd
    by_cases hi : i = 0
    case pos =>
      subst hi
      cases hm
      cases hd
    case neg => simp [sampleTable, hi] at hm
  files := fun _ _ _ _ _ => rfl
  past  := nofun
  ran   := ⟨sampleRead, rfl⟩
  apart := by
    rintro va a ha ⟨blk, hb, hlt⟩
    have hlt' := sampleMachine_lt hp ha
    have hb : blk < 10 := hb
    have hoff : (BitVec.ofNat 64 (blk * pageSize)).toNat = blk * pageSize := ofNat_toNat <| by simp only [pageSize]; omega
    have hlt : a - (0xa0000000 + .ofNat 64 (blk * pageSize)) < 4096#64 := hlt
    generalize BitVec.ofNat 64 (blk * pageSize) = x at hoff hlt
    simp only [pageSize] at hoff
    bv_omega

-- A buffer in the middle of two pages in a row.
theorem sampleMachine_confined :
    Machine.ReadsInto sampleHistory (sampleMachine 0x80000000 0x80001000) sampleTask sampleTable 0 0x1ffe 7 ∧
      (sampleMachine 0x80000000 0x80001000).WritesFrom sampleTask sampleTable 0 0x1ffe 7 := by
  have w := sampleMachine_prepared (.inl rfl)
  exact ⟨(Machine.confined_iff w).1.mpr fun _ => by decide, (Machine.confined_iff w).2.mpr fun _ => by decide⟩

-- The second page is somewhere else.
theorem sampleMachine_not_confined :
    ¬Machine.ReadsInto sampleHistory (sampleMachine 0x80000000 0x90000000) sampleTask sampleTable 0 0x1ffe 7 := by
  intro h
  obtain ⟨_, _, _, hs⟩ := (Machine.reads_iff (sampleMachine_prepared <| .inr rfl) rfl).mp h
  exact absurd (hs 2 <| by decide) <| by decide

end Zgmos.Fs
