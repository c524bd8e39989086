import Zgmos.Fat32.Volume

-- The iteration over a directory.

namespace Zgmos.Fat32

-- The 32 bytes of a directory entry.
abbrev Slot := Memory Byte

def slotAt {fs : Fat32Fs} (dat : Sector fs) (i : Nat) : Slot :=
  fun k => byteAt dat (i + k)

def dirnameFree : Byte :=
  0xe5

def dirnameResFree : Byte :=
  0x00

def attrVolumeId : Byte :=
  0x08

def attrDirectory : Byte :=
  0x10

def attrLongName : Byte :=
  0x0f

def attrLongNameMask : Byte :=
  0x3f

def longFnStackNum : Nat :=
  10

namespace Slot

def attr (e : Slot) : Byte :=
  e 11

def isFree (e : Slot) : Bool :=
  e 0 = dirnameFree ∨ e 0 = dirnameResFree

def isLongName (e : Slot) : Bool :=
  e.attr &&& attrLongNameMask = attrLongName

def isFile (e : Slot) : Bool :=
  e.attr &&& (attrVolumeId ||| attrDirectory) = 0

def isDirectory (e : Slot) : Bool :=
  e.attr &&& (attrVolumeId ||| attrDirectory) = attrDirectory

-- `FstClusHI` and `FstClusLO`.
def firstCluster (e : Slot) : Cidx :=
  e 21 ++ e 20 ++ e 27 ++ e 26

def fileSize (e : Slot) : BitVec 32 :=
  e 31 ++ e 30 ++ e 29 ++ e 28

end Slot

def space : Byte :=
  0x20

def dot : Byte :=
  0x2e

-- Returns the bytes that are written to the buffer, as do the next two functions.
def fat32CopyNameShort (e : Slot) : List Byte :=
  let name := ((List.range 8).map e).takeWhile (· ≠ space)
  if e 5 = space then
    name ++ [0]
  else
    name ++ [dot] ++ (([8, 9, 10]).map e).takeWhile (· ≠ space) ++ [0]

-- `Name1`, `Name2` and `Name3`.
def longNameUnits : List Nat :=
  [1, 3, 5, 7, 9, 14, 16, 18, 20, 22, 24, 28, 30]

def fat32CopyNameLong (e : Slot) : List Byte :=
  let units := longNameUnits.takeWhile fun k => ¬(e k = 0xff ∧ e (k + 1) = 0xff)
  if units = longNameUnits then units.map e ++ [0] else units.map e

def fat32NameS2l (sfn : Memory Byte) : List Byte :=
  let name := ((List.range 5).map sfn).takeWhile (· ≠ space)
  if sfn 5 ≠ space then
    name ++ [dot] ++ (([5, 6, 7]).map sfn).takeWhile (· ≠ space) ++ [0]
  else
    name ++ [0]

-- The array `fns` with the bytes that have been written to its rows.
structure Fns where
  flag  : Bool
  fnNum : Nat
  rows  : Nat → List Byte

namespace Fns

def init : Fns where
  flag  := false
  fnNum := longFnStackNum
  rows  := fun _ => []

-- `fnNum` is the index of the row.
def push (st : Fns) (name : List Byte) : Except Fault Fns :=
  match st.fnNum with
  | 0     => throw .outOfBounds
  | n + 1 => return { st with
      fnNum := n, rows := Function.update st.rows n <| name ++ (st.rows n).drop name.length }

-- A string must end inside of what has been written to its row.
def strcpyEnd (row : List Byte) : Except Fault (List Byte) :=
  if 0 ∈ row then return row.takeWhile (· ≠ 0) else throw .outOfBounds

def longFn (st : Fns) : Except Fault (List Byte) := do
  let names ← (List.range' st.fnNum (longFnStackNum - st.fnNum)).mapM fun j => strcpyEnd (st.rows j)
  return names.flatten ++ [0]

end Fns

inductive Visit
  | next  (st : Fns)
  | found (obj : Fat32Obj)

def visitFile (st : Fns) (obj : Fat32Obj) (e : Slot) : Except Fault Fat32Obj := do
  let longFn ← if st.flag then st.longFn else pure [0]
  return {
    cidx     := e.firstCluster
    type     := .file
    longFn   := obj.longFn.write 0 longFn
    shortFn  := obj.shortFn.write 0 <| fat32CopyNameShort e
    fileSize := e.fileSize
  }

-- `file_size` is left alone.
def visitDirectory (fs : Fat32Fs) (st : Fns) (obj : Fat32Obj) (e : Slot) : Except Fault Fat32Obj := do
  let shortFn := obj.shortFn.write 0 <| fat32CopyNameShort e
  let obj := { obj with cidx := e.firstCluster, type := .directory, shortFn }
  if st.flag then
    return { obj with longFn := obj.longFn.write 0 (← st.longFn) }
  else if shortFn 0 = dot ∧ shortFn 1 = dot then
    let cidx := if e.firstCluster = 0 then fs.rootCidx else e.firstCluster
    return { obj with cidx, longFn := obj.longFn.write 0 [dot, dot, 0] }
  else if shortFn 0 = dot then
    return { obj with longFn := obj.longFn.write 0 [dot, 0] }
  else
    return { obj with longFn := obj.longFn.write 0 <| fat32NameS2l shortFn }

-- The body of the innermost loop of `fat32_iter_next`.
def visit (fs : Fat32Fs) (st : Fns) (obj : Fat32Obj) (e : Slot) : Except Fault Visit :=
  if e.isFree then
    return .next st
  else if e.isLongName then do
    let st := if st.flag then st else { st with flag := true, fnNum := longFnStackNum }
    return .next (← st.push <| fat32CopyNameLong e)
  else if e.isFile then
    return .found (← visitFile st obj e)
  else if e.isDirectory then
    return .found (← visitDirectory fs st obj e)
  else
    return .next { st with flag := false }

structure DirectoryIter where
  curCidx       : Cidx
  curSidxOffset : Nat
  curByteOffset : Nat

variable {fs : Fat32Fs}

def fat32IterStart (parent : Fat32Obj) : DirectoryIter where
  curCidx       := parent.cidx
  curSidxOffset := 0
  curByteOffset := 0

-- The loops end with the names so far or with the position of the entry and the object.
def iterSector (dat : Sector fs) (obj : Fat32Obj) :
    (n i : Nat) → Fns → Except Fault (Fns ⊕ Nat × Fat32Obj)
  | 0,     _, st => return .inl st
  | n + 1, i, st => do
    match ← visit fs st obj <| slotAt dat i with
    | .next st   => iterSector dat obj n (i + 32) st
    | .found obj => return .inr (i, obj)

def iterSectors (cidx : Cidx) (obj : Fat32Obj) :
    (n sidxOffset byteOffset : Nat) → Fns → Prog fs (Fns ⊕ (Nat × Nat) × Fat32Obj)
  | 0,     _,          _,          st => return .inl st
  | n + 1, sidxOffset, byteOffset, st => do
    let dat ← .get <| clusterSidx fs cidx sidxOffset
    match ← .done <| iterSector dat obj ((fs.bytePerSector - byteOffset + 31) / 32) byteOffset st with
    | .inl st       => iterSectors cidx obj n (sidxOffset + 1) 0 st
    | .inr (i, obj) => return .inr ((sidxOffset, i), obj)

-- The position after the entry at `i`. The cluster after the last entry of a cluster is the next one of
-- the chain after a file, but the next one on the disk after a directory.
def iterAdvance (cidx : Cidx) (sidxOffset i : Nat) (type : ObjType) : Prog fs DirectoryIter := do
  let curByteOffset := (i + 32) % fs.bytePerSector
  let curSidxOffset := sidxOffset + if (i + 32) / fs.bytePerSector ≠ 0 then 1 else 0
  let curCidx := cidx + if curSidxOffset / fs.secPerCluster ≠ 0 then 1 else 0
  match type with
  | .directory => return { curCidx, curSidxOffset := curSidxOffset % fs.secPerCluster, curByteOffset }
  | .file      =>
    if curSidxOffset / fs.secPerCluster ≠ 0 then
      return { curCidx := ← fat32GetChain cidx, curSidxOffset := 0, curByteOffset }
    else
      return { curCidx, curSidxOffset, curByteOffset }

def iterClusters (obj : Fat32Obj) : (fuel : Nat) → (cidx : Cidx) → (sidxOffset byteOffset : Nat) → Fns →
    Prog fs (Option (DirectoryIter × Fat32Obj))
  | 0,        _,    _,          _,          _  => .fail .panic
  | fuel + 1, cidx, sidxOffset, byteOffset, st =>
    if cidx < chainEndFlag then do
      match ← iterSectors cidx obj (fs.secPerCluster - sidxOffset) sidxOffset byteOffset st with
      | .inl st                    => iterClusters obj fuel (← fat32GetChain cidx) 0 0 st
      | .inr ((sidxOffset, i), obj) => return some (← iterAdvance cidx sidxOffset i obj.type, obj)
    else
      return none

-- An endless loop runs out of fuel.
def fat32IterNext (fuel : Nat) (iter : DirectoryIter) (obj : Fat32Obj) :
    Prog fs (Option (DirectoryIter × Fat32Obj)) :=
  iterClusters obj fuel iter.curCidx iter.curSidxOffset iter.curByteOffset .init

-- The loop of a caller which calls `fat32_iter_next` until it returns false.
def listDirectory (fuel : Nat) : (n : Nat) → DirectoryIter → Fat32Obj → Prog fs (List Fat32Obj)
  | 0,     _,    _   => .fail .panic
  | n + 1, iter, obj => do
    match ← fat32IterNext fuel iter obj with
    | none             => return []
    | some (iter, obj) => return obj :: (← listDirectory fuel n iter obj)

end Zgmos.Fat32
