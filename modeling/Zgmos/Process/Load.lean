import Zgmos.Process.Pages
import Zgmos.Fs.Read

-- The loader in `task_create`.

namespace Zgmos.Process

open Pte
open Fs (min64)

abbrev Byte := BitVec 8

-- The constants of `elf.h`, and the sizes of its structures.

def ptLoad : BitVec 32 := 1

def etExec    : BitVec 16 := 2
def emRiscv   : BitVec 16 := 243
def evCurrent : BitVec 32 := 1

-- `ELFMAG0`, …, `ELFMAG3`, `ELFCLASS64`, `ELFDATALSB` and `EV_CURRENT`
def elfIdent : List Byte := [0x7f, 0x45, 0x4c, 0x46, 2, 1, 1]

def ehdrSize : Nat := 64
def phdrSize : Nat := 56

-- The number of program headers in a page.
def onceLoad : Nat := pageSize / phdrSize

-- The members of `Elf64_Ehdr` and `Elf64_Phdr` that are read.

structure Ehdr where
  ident     : List Byte
  type      : BitVec 16
  machine   : BitVec 16
  version   : BitVec 32
  entry     : Word
  phoff     : Word
  ehsize    : BitVec 16
  phentsize : BitVec 16
  phnum     : BitVec 16
  deriving DecidableEq

structure Phdr where
  type   : BitVec 32
  flags  : BitVec 32
  offset : Word
  vaddr  : Word
  filesz : Word
  memsz  : Word
  align  : Word
  deriving DecidableEq

-- A member of `n` bytes, which is stored with its lowest byte first.
def member (data : Word → Byte) (addr : Word) (offset n : Nat) : BitVec (8 * n) :=
  .ofNat _ <| Nat.ofDigits 256 <| (List.range n).map fun k => (data (addr + .ofNat 64 (offset + k))).toNat

def ehdrAt (data : Word → Byte) (addr : Word) : Ehdr where
  ident     := (List.range 7).map fun k => data (addr + .ofNat 64 k)
  type      := member data addr 16 2
  machine   := member data addr 18 2
  version   := member data addr 20 4
  entry     := member data addr 24 8
  phoff     := member data addr 32 8
  ehsize    := member data addr 52 2
  phentsize := member data addr 54 2
  phnum     := member data addr 56 2

def phdrAt (data : Word → Byte) (addr : Word) : Phdr where
  type   := member data addr 0 4
  flags  := member data addr 4 4
  offset := member data addr 8 8
  vaddr  := member data addr 16 8
  filesz := member data addr 32 8
  memsz  := member data addr 40 8
  align  := member data addr 48 8

def taskAuxCheckElf (ehdr : Ehdr) : Bool :=
  ehdr.ident = elfIdent ∧ ehdr.type = etExec ∧ ehdr.machine = emRiscv ∧ ehdr.version = evCurrent ∧
    ehdr.ehsize = .ofNat 16 ehdrSize ∧ ehdr.phentsize = .ofNat 16 phdrSize ∧ ehdr.phnum ≠ 0

-- The task, and the rest of the kernel as `vfs_read` sees it. The page tables are not in its memory.
structure LoadState (Obj Buffers : Type) where
  state  : TaskState
  kernel : Fs.Kernel Obj Buffers

abbrev LoadM (Obj Buffers : Type) := ExceptT Fault (StateM (LoadState Obj Buffers))

-- The results of `kmalloc`, and those of one or more calls of `pmem_alloc`, in each state. In a run of the loader no
-- state occurs twice when they are called.
structure Allocator where
  kmalloc : TaskState → Word
  pmem    : TaskState → Nat → Word

-- What the loader calls, and the vnode of the file.
structure Loader (Buffers : Type) where
  alloc  : Allocator
  access : Fs.VfsAccess Buffers
  device : Fs.DeviceBytes
  image  : Fs.Node

variable {Obj Buffers : Type}

-- A page that the loop for a header visits is in the list. The loop is complete if it ends regularly.
structure Visit where
  phdr     : Phdr
  pages    : List Word
  complete : Bool

def onTask (x : TaskM α) : LoadM Obj Buffers α := fun s =>
  let r := x.run s.state
  (r.1, { s with state := r.2 })

-- The tables are no longer allocated after `pte_destory`.
def destoryUser : TaskM Unit := fun s =>
  let r := (pteDestory s.mem s.task.userPte).run []
  (r.1, { s with live := s.live.filter fun t => !r.2.contains t })

-- The cleanup from the label `after_ustack` on. The files and the structure of the task are left out.
def afterUstack (ustackPa kstackPa tfp : Word) : TaskM Unit := do
  pmemFree ustackPa
  pmemFree kstackPa
  pmemFree tfp
  destoryUser

def afterEhdr (ehdr ustackPa kstackPa tfp : Word) : TaskM Unit := do
  kfree ehdr
  afterUstack ustackPa kstackPa tfp

-- What follows the loop over the program header table: the end of `task_create`, or the label `in_load_fail`.
def afterLoad (ehdr phdr entry ustackPa kstackPa tfp : Word) (visits : List Visit) (ok : Bool) :
    LoadM Obj Buffers (List Visit × Option Word) :=
  if ok then do
    onTask <| pmemFree phdr
    onTask <| kfree ehdr
    return (visits, some entry)
  else do
    onTask taskRemoveAllPage
    onTask <| pmemFree phdr
    onTask <| afterEhdr ehdr ustackPa kstackPa tfp
    return (visits, none)

section Functions

variable (loader : Loader Buffers)

def vfsRead (offset buf bufLen : Word) : LoadM Obj Buffers Word := fun s =>
  match s.kernel.vfsRead loader.access loader.device loader.image offset buf bufLen with
  | .error e        => (.error e, s)
  | .ok (n, kernel) => (.ok n, { s with kernel })

-- The body of the loop over the pages of a header. The result are the next values of `byte_cnt` and
-- `byte_offset_init`. It is `none` for `goto in_load_fail`.
def loadPage (phdr : Phdr) (flags va byteCnt byteOffset : Word) : LoadM Obj Buffers (Option (Word × Word)) := do
  let s := (← get).state
  match ← onTask <| taskAddPage (loader.alloc.kmalloc s) (loader.alloc.pmem s) va flags with
  | none    => return none
  | some pg =>
    if byteCnt < phdr.filesz then
      let len := min64 (phdr.filesz - byteCnt) (.ofNat 64 pageSize - byteOffset)
      let n ← vfsRead loader (phdr.offset + byteCnt) (pg.pa + byteOffset) len
      if len ≠ n then
        return none
      else
        return some (byteCnt + len, 0)
    else
      return some (byteCnt, byteOffset)

-- The loop over the pages.
def loadPages (phdr : Phdr) (flags endPg : Word) :
    (fuel : Nat) → (va byteCnt byteOffset : Word) → LoadM Obj Buffers (List Word × Bool)
  | 0,        _,  _,       _          => throw .panic
  | fuel + 1, va, byteCnt, byteOffset =>
    if va ≤ endPg then do
      match ← loadPage loader phdr flags va byteCnt byteOffset with
      | none                       => return ([va], false)
      | some (byteCnt, byteOffset) =>
        let (vas, ok) ← loadPages phdr flags endPg fuel (va + .ofNat 64 pageSize) byteCnt byteOffset
        return (va :: vas, ok)
    else
      return ([], true)

namespace Phdr

variable (phdr : Phdr)

def startPg : Word :=
  align4K phdr.vaddr

-- The last address of the segment.
def endVa : Word :=
  phdr.vaddr + phdr.memsz - 1

def endPg : Word :=
  align4K phdr.endVa

end Phdr

-- The body of the loop over the headers.
def loadSegment (fuel : Nat) (phdr : Phdr) : LoadM Obj Buffers (List Visit × Bool) :=
  if phdr.type ≠ ptLoad then
    return ([], true)
  else if phdr.align ≠ .ofNat 64 pageSize then
    return ([], false)
  else
    let flags := taskAuxMapFlags phdr.flags
    if flags = 0 then
      return ([], false)
    else do
      let (pages, complete) ←
        loadPages loader phdr flags phdr.endPg fuel phdr.startPg 0 (allOneMask 12 &&& phdr.vaddr)
      return ([{ phdr, pages, complete }], complete)

def loadHeaders (fuel : Nat) : List Phdr → LoadM Obj Buffers (List Visit × Bool)
  | []            => return ([], true)
  | phdr :: phdrs => do
    let (visits, ok) ← loadSegment loader fuel phdr
    if ok then
      let (visits', ok) ← loadHeaders fuel phdrs
      return (visits ++ visits', ok)
    else
      return (visits, false)

-- The loop over the program header table. The headers of a page are read at once.
def loadBatches (phdr : Word) (phnum fuel : Nat) :
    (batches : Nat) → (offset : Word) → (phcnt : Nat) → LoadM Obj Buffers (List Visit × Bool)
  | 0,           _,      _     => throw .panic
  | batches + 1, offset, phcnt =>
    if phcnt = phnum then
      return ([], true)
    else do
      let toLoad := min (phnum - phcnt) onceLoad
      let byteRead ← vfsRead loader offset phdr (.ofNat 64 (phdrSize * toLoad))
      if byteRead ≠ .ofNat 64 (phdrSize * toLoad) then
        return ([], false)
      else do
        let data := (← get).kernel.mem
        let phdrs := (List.range toLoad).map fun i => phdrAt data (phdr + .ofNat 64 (phdrSize * i))
        let (visits, ok) ← loadHeaders loader fuel phdrs
        if ok then
          let (visits', ok) ← loadBatches phdr phnum fuel batches (offset + byteRead) (phcnt + toLoad)
          return (visits ++ visits', ok)
        else
          return (visits, false)

-- The part of `task_create` that begins with the header of the file. The result is the entry address, or `none` for
-- `NULL`.
def taskCreateLoad (fuel : Nat) (ustackPa kstackPa tfp : Word) : LoadM Obj Buffers (List Visit × Option Word) := do
  let ehdr := loader.alloc.kmalloc (← get).state
  if ehdr = 0 then
    onTask <| afterUstack ustackPa kstackPa tfp
    return ([], none)
  else
    onTask <| modify fun s => { s with objects := ehdr :: s.objects }
    let cnt ← vfsRead loader 0 ehdr (.ofNat 64 ehdrSize)
    let header := ehdrAt (← get).kernel.mem ehdr
    if cnt ≠ .ofNat 64 ehdrSize ∨ !taskAuxCheckElf header then
      onTask <| afterEhdr ehdr ustackPa kstackPa tfp
      return ([], none)
    else
      let phdr := loader.alloc.pmem (← get).state 0
      if phdr = 0 then
        onTask <| afterEhdr ehdr ustackPa kstackPa tfp
        return ([], none)
      else
        onTask <| modify fun s => { s with live := phdr :: s.live }
        let (visits, ok) ← loadBatches loader phdr header.phnum.toNat fuel fuel header.phoff 0
        afterLoad ehdr phdr header.entry ustackPa kstackPa tfp visits ok

end Functions

end Zgmos.Process
