import Zgmos.Fs.Path

-- The tables of open files.

namespace Zgmos.Fs

variable {Obj : Type}

namespace Vfs

def vfsReopen (vfs : Vfs Obj) (node : Node) : Vfs Obj :=
  vfs.setNode node fun n => { n with refCnt := n.refCnt + 1 }

def vfsClose (vfs : Vfs Obj) (node : Node) : Vfs Obj :=
  vfs.setNode node fun n => { n with refCnt := n.refCnt - 1 }

def vfsOpen (vfs : Vfs Obj) (parent : Option Node) (path : Name) : Except Fault (Option Node × Vfs Obj) := do
  match ← vfs.vfsGetRecursive parent path with
  | (none, vfs)     => return (none, vfs)
  | (some ret, vfs) => return (some ret, vfs.vfsReopen ret)

-- The numbers of bytes that are read and written. The contents of files are left out here.

def vfsRead (vfs : Vfs Obj) (node : Node) (offset bufLen : BitVec 64) : Except Fault (BitVec 64) :=
  let n := vfs.nodes node
  if n.type = .dev then
    match n.bkd with
    | none     => throw .outOfBounds
    | some bkd => return bkd.read n.lfsObj offset bufLen
  else if n.size.setWidth 64 ≤ offset then
    return 0
  else
    return if bufLen ≤ n.size.setWidth 64 - offset then bufLen else n.size.setWidth 64 - offset

def vfsWrite (vfs : Vfs Obj) (node : Node) (offset bufLen : BitVec 64) : Except Fault (BitVec 64) :=
  let n := vfs.nodes node
  if n.type = .dev then
    match n.bkd with
    | none     => throw .outOfBounds
    | some bkd => return bkd.write n.lfsObj offset bufLen
  else
    return 0

end Vfs

-- The number of pointers in a page.
def filesSize : Nat :=
  512

-- Two pages in a row.
abbrev Pages := Fin (2 ^ 51)

instance Pages.instNeZero : NeZero (2 ^ 51 : Nat) :=
  ⟨by decide⟩

-- `seek` is in the second page of two pages.
structure FilesStruct where
  nodes : Nat → Option Node
  seek  : Pages

-- A table has the name of the pages with its array `nodes`, which are allocated while the table is.
structure Files (Obj : Type) where
  vfs    : Vfs Obj
  tables : Pages → Option FilesStruct
  seeks  : Pages → Nat → BitVec 64

namespace FilesStruct

variable (f : FilesStruct)

def get (fd : Int) : Except Fault (Option Node) :=
  if 0 ≤ fd ∧ fd < filesSize then return f.nodes fd.toNat else throw .outOfBounds

def set (fd : Int) (node : Option Node) : Except Fault FilesStruct :=
  if 0 ≤ fd ∧ fd < filesSize then
    return { f with nodes := Function.update f.nodes fd.toNat node }
  else
    throw .outOfBounds

def check (fd : Int) : Bool :=
  0 ≤ fd ∧ fd < filesSize ∧ (f.nodes fd.toNat).isSome

-- The first slot that is free.
def freeSlot : Option Nat :=
  (List.range filesSize).find? fun i => f.nodes i = none

theorem freeSlot_some {f : FilesStruct} {i : Nat} (h : f.freeSlot = some i) :
    i < filesSize ∧ f.nodes i = none ∧ ∀ j < i, f.nodes j ≠ none := by
  have ⟨hn, hi, h⟩ := List.find?_range_eq_some.mp h
  exact ⟨List.mem_range.mp hi, by simpa using hn, fun j hj => by simpa using h j hj⟩

end FilesStruct

namespace Files

def table (s : Files Obj) (t : Pages) : Except Fault FilesStruct :=
  match s.tables t with
  | none   => throw .wildPointer
  | some f => return f

theorem table_eq {s : Files Obj} {t : Pages} {f : FilesStruct} (hf : s.tables t = some f) : s.table t = .ok f := by
  rw [table, hf]
  rfl

def setTable (s : Files Obj) (t : Pages) (f : Option FilesStruct) : Files Obj :=
  { s with tables := Function.update s.tables t f }

-- The pages with the seeks may be those of another table.
def setSeek (s : Files Obj) (pages : Pages) (fd : Int) (g : BitVec 64 → BitVec 64) : Except Fault (Files Obj) := do
  let _ ← s.table pages
  if 0 ≤ fd ∧ fd < filesSize then
    let seek := Function.update (s.seeks pages) fd.toNat <| g (s.seeks pages fd.toNat)
    return { s with seeks := Function.update s.seeks pages seek }
  else
    throw .outOfBounds

def filesStructAlloc (s : Files Obj) (t : Pages) (parent : Option Node) (path : Name) :
    Except Fault (Int × Files Obj) := do
  let f ← s.table t
  match f.freeSlot with
  | none   => return (-1, s)
  | some i =>
    match ← s.vfs.vfsOpen parent path with
    | (none, vfs)      => return (-1, { s with vfs })
    | (some node, vfs) =>
      return (i, { s with vfs }.setTable t <| some { f with nodes := Function.update f.nodes i node })

-- The three default descriptors.
def stdPaths : List Name :=
  ["dev/stdin", "dev/stdout", "dev/stderr"].map fun path => path.toList.map fun c => .ofNat 8 c.toNat

-- `pages` is the memory that is allocated for the arrays. A null pointer is dereferenced if there is none.
def filesStructCreate (s : Files Obj) (pages : Option Pages) : Except Fault (Files Obj) := do
  match pages with
  | none   => throw .outOfBounds
  | some t =>
    let s := s.setTable t <| some { nodes := fun _ => none, seek := t }
    let s := { s with seeks := Function.update s.seeks t fun _ => 0 }
    stdPaths.foldlM (fun s path => (·.2) <$> s.filesStructAlloc t none path) s

-- The new array `seek` is in the pages of the old table.
def filesStructClone (s : Files Obj) (t : Pages) (pages : Option Pages) : Except Fault (Files Obj) := do
  let f ← s.table t
  let _ ← s.table f.seek
  match pages with
  | none   => throw .outOfBounds
  | some c =>
    let s := s.setTable c <| some { nodes := f.nodes, seek := t }
    return { s with seeks := Function.update s.seeks t <| s.seeks f.seek }

def filesStructFree (s : Files Obj) (t : Pages) (fd : Int) : Except Fault (Files Obj) := do
  let f ← s.table t
  match ← f.get fd with
  | none      => throw .outOfBounds
  | some node =>
    let s ← { s with vfs := s.vfs.vfsClose node }.setSeek f.seek fd fun _ => 0
    return s.setTable t <| some (← f.set fd none)

-- The vnodes in the slots of a table.
def closeAll (nodes : List (Option Node)) (vfs : Vfs Obj) : Vfs Obj :=
  nodes.foldl (fun vfs node => node.elim vfs vfs.vfsClose) vfs

def filesStructDestroy (s : Files Obj) (t : Pages) : Except Fault (Files Obj) := do
  let f ← s.table t
  let vfs := closeAll ((List.range filesSize).map f.nodes) s.vfs
  return { s with vfs }.setTable t none

def filesStructDup (s : Files Obj) (t : Pages) (oldFd newFd : Int) : Except Fault (Int × Files Obj) := do
  let f ← s.table t
  if !f.check oldFd then
    return (-1, s)
  else
    match ← f.get oldFd with
    | none      => throw .outOfBounds
    | some node =>
      if newFd = -1 then
        match f.freeSlot with
        | none   => return (-1, s)
        | some i =>
          let f := { f with nodes := Function.update f.nodes i node }
          return (i, { s with vfs := s.vfs.vfsReopen node }.setTable t f)
      else if (← f.get newFd).isSome then
        return (-1, s)
      else
        return (newFd, { s with vfs := s.vfs.vfsReopen node }.setTable t <| some (← f.set newFd node))

-- The returned number of 64 bits becomes an `int`.
def transfer (s : Files Obj) (f : FilesStruct) (fd : Int) (ret : BitVec 64) : Except Fault (Int × Files Obj) := do
  let ret := (ret.truncate 32).toInt
  if 0 < ret then
    return (ret, ← s.setSeek f.seek fd (· + .ofInt 64 ret))
  else
    return (ret, s)

-- `io` is `vfs_read` or `vfs_write`.
def filesStructIo (io : Vfs Obj → Node → (offset bufLen : BitVec 64) → Except Fault (BitVec 64)) (s : Files Obj)
    (t : Pages) (fd : Int) (bufLen : BitVec 64) : Except Fault (Int × Files Obj) := do
  let f ← s.table t
  let _ ← s.table f.seek
  match ← f.get fd with
  | none      => throw .outOfBounds
  | some node => s.transfer f fd (← io s.vfs node (s.seeks f.seek fd.toNat) bufLen)

def filesStructRead : Files Obj → Pages → Int → BitVec 64 → Except Fault (Int × Files Obj) :=
  filesStructIo Vfs.vfsRead

def filesStructWrite : Files Obj → Pages → Int → BitVec 64 → Except Fault (Int × Files Obj) :=
  filesStructIo Vfs.vfsWrite

def atFdcwd : Int :=
  -100

-- `t` and `cwd` belong to the current task.
def syscallOpenat (s : Files Obj) (t : Pages) (cwd : Option Node) (dirfd : Int) (path : Name) :
    Except Fault (Int × Files Obj) := do
  if path.head? = some slash then
    s.filesStructAlloc t none path.tail
  else if dirfd = atFdcwd then
    s.filesStructAlloc t cwd path
  else
    let f ← s.table t
    if f.check dirfd then
      match ← f.get dirfd with
      | none      => throw .outOfBounds
      | some node =>
        if !(s.vfs.nodes node).type.isDir then
          return (1, s)
        else
          s.filesStructAlloc t node path
    else
      return (-1, s)

end Files
end Zgmos.Fs
