import Zgmos.Fat32.Iter
import Zgmos.Fat32.Read

-- The functions which follow chains, where each access says whether it is one to the table or one to the data.

namespace Zgmos.Fat32

inductive Access
  | table (index : Cidx)
  | data  (cidx : Cidx) (n : Nat)

def Access.sidx (fs : Fat32Fs) : Access → Sidx
  | table index => tableSidx fs index
  | data cidx n => clusterSidx fs cidx n

-- The answers to the accesses.
def Volume.at {fs : Fat32Fs} (v : Volume fs) : Access → Sector fs :=
  v ∘ Access.sidx fs

namespace Labelled

abbrev Prog (fs : Fat32Fs) := Program Access (Sector fs) Fault

variable {fs : Fat32Fs}

def fat32GetChain (index : Cidx) : Labelled.Prog fs Cidx :=
  if fs.chainPerSector = 0 then .fail .divByZero else do
    let table ← .get <| .table index
    return wordAt table <| 4 * (index.toNat % fs.chainPerSector)

def skipChain : Nat → Cidx → Labelled.Prog fs Cidx
  | 0,           cidx => return cidx
  | cidxCnt + 1, cidx => do skipChain cidxCnt (← fat32GetChain cidx)

def readSectors (cidx : Cidx) (byteOffset bufLen : Nat) :
    (n sidxOffset : Nat) → (buf : List Byte) → Labelled.Prog fs (Bool × List Byte)
  | 0,     _,          buf => return (false, buf)
  | n + 1, sidxOffset, buf => do
    let dat ← .get <| .data cidx sidxOffset
    let len := min (fs.bytePerSector - byteOffset) (bufLen - buf.length)
    let buf := buf ++ ((List.ofFn dat).drop byteOffset).take len
    if buf.length = bufLen then
      return (true, buf)
    else
      readSectors cidx byteOffset bufLen n (sidxOffset + 1) buf

def readClusters (bufLen : Nat) :
    (fuel : Nat) → (cidx : Cidx) → (sidxOffset byteOffset : Nat) → (buf : List Byte) → Labelled.Prog fs (Nat × List Byte)
  | 0,        _,    _,          _,          _   => .fail .panic
  | fuel + 1, cidx, sidxOffset, byteOffset, buf =>
    if cidx < chainEndFlag then do
      let (full, buf) ← readSectors cidx byteOffset bufLen (fs.secPerCluster - sidxOffset) sidxOffset buf
      if full then
        return (bufLen % 2 ^ 32, buf)
      else
        readClusters bufLen fuel (← fat32GetChain cidx) 0 0 buf
    else
      return (buf.length % 2 ^ 32, buf)

def fat32Read (fuel : Nat) (obj : Fat32Obj) (bufLen seek : Nat) : Labelled.Prog fs (Nat × List Byte) :=
  if obj.fileSize.toNat ≤ seek then
    return (0, [])
  else if fs.bytePerSector = 0 ∨ fs.secPerCluster = 0 then
    .fail .divByZero
  else do
    let sidxOffset := seek / fs.bytePerSector % 2 ^ 32
    let cidx ← skipChain (sidxOffset / fs.secPerCluster) obj.cidx
    readClusters bufLen fuel cidx (sidxOffset % fs.secPerCluster) (seek % fs.bytePerSector) []

def iterSectors (cidx : Cidx) (obj : Fat32Obj) :
    (n sidxOffset byteOffset : Nat) → Fns → Labelled.Prog fs (Fns ⊕ (Nat × Nat) × Fat32Obj)
  | 0,     _,          _,          st => return .inl st
  | n + 1, sidxOffset, byteOffset, st => do
    let dat ← .get <| .data cidx sidxOffset
    match ← .done <| iterSector dat obj ((fs.bytePerSector - byteOffset + 31) / 32) byteOffset st with
    | .inl st       => iterSectors cidx obj n (sidxOffset + 1) 0 st
    | .inr (i, obj) => return .inr ((sidxOffset, i), obj)

def iterAdvance (cidx : Cidx) (sidxOffset i : Nat) (type : ObjType) : Labelled.Prog fs DirectoryIter := do
  let curByteOffset := (i + 32) % fs.bytePerSector
  let curSidxOffset := sidxOffset + if (i + 32) / fs.bytePerSector ≠ 0 then 1 else 0
  let curCidx := cidx + if curSidxOffset / fs.secPerCluster ≠ 0 then 1 else 0
  match type with
  | .directory => return { curCidx, curSidxOffset := curSidxOffset % fs.secPerCluster, curByteOffset }
  | .file      =>
    if curSidxOffset / fs.secPerCluster ≠ 0 then
      return { curCidx := ← fat32GetChain cidx, curSidxOffset := 0, curByteOffset }
    else
      return { curCidx, curSidxOffset, curByteOffset }

def iterClusters (obj : Fat32Obj) : (fuel : Nat) → (cidx : Cidx) → (sidxOffset byteOffset : Nat) → Fns →
    Labelled.Prog fs (Option (DirectoryIter × Fat32Obj))
  | 0,        _,    _,          _,          _  => .fail .panic
  | fuel + 1, cidx, sidxOffset, byteOffset, st =>
    if cidx < chainEndFlag then do
      match ← iterSectors cidx obj (fs.secPerCluster - sidxOffset) sidxOffset byteOffset st with
      | .inl st                     => iterClusters obj fuel (← fat32GetChain cidx) 0 0 st
      | .inr ((sidxOffset, i), obj) => return some (← iterAdvance cidx sidxOffset i obj.type, obj)
    else
      return none

def fat32IterNext (fuel : Nat) (iter : DirectoryIter) (obj : Fat32Obj) :
    Labelled.Prog fs (Option (DirectoryIter × Fat32Obj)) :=
  iterClusters obj fuel iter.curCidx iter.curSidxOffset iter.curByteOffset .init

variable {cidx index : Cidx} {obj : Fat32Obj} {st : Fns} {buf : List Byte}
  {n fuel sidxOffset byteOffset bufLen seek : Nat}

-- Without the labels they are the functions.

def plain {α : Type} (p : Labelled.Prog fs α) : Fat32.Prog fs α :=
  p.relabel <| Access.sidx fs

section Bind

variable {α β : Type} {p : Labelled.Prog fs α} {q : Fat32.Prog fs α} {f : α → Labelled.Prog fs β} {g : α → Fat32.Prog fs β}

theorem plain_bind (hp : plain p = q) (hf : ∀ a, plain (f a) = g a) : plain (p >>= f) = q >>= g :=
  Program.relabel_bind.trans <| hp ▸ congrArg (plain p >>= ·) (funext hf)

-- The sectors that a function asks for are those of the accesses.
theorem asked_plain {v : Volume fs} (hp : plain p = q) : q.asked v = (p.asked v.at).map (Access.sidx fs) := by
  rw [← hp, plain, Program.asked_relabel]
  rfl

end Bind

theorem plain_getChain : plain (fat32GetChain index : Labelled.Prog fs _) = Fat32.fat32GetChain index := by
  unfold fat32GetChain Fat32.fat32GetChain
  split_ifs <;> rfl

theorem plain_skipChain : plain (skipChain n cidx : Labelled.Prog fs _) = Fat32.skipChain n cidx := by
  induction n generalizing cidx
  case zero       => rfl
  case succ n hi => exact plain_bind plain_getChain fun _ => hi

theorem plain_readSectors : plain (readSectors cidx byteOffset bufLen n sidxOffset buf : Labelled.Prog fs _) =
    Fat32.readSectors cidx byteOffset bufLen n sidxOffset buf := by
  induction n generalizing sidxOffset buf
  case zero      => rfl
  case succ n hi =>
    refine plain_bind rfl fun dat => ?_
    dsimp only
    split_ifs
    case pos => rfl
    case neg => exact hi

theorem plain_readClusters : plain (readClusters bufLen fuel cidx sidxOffset byteOffset buf : Labelled.Prog fs _) =
    Fat32.readClusters bufLen fuel cidx sidxOffset byteOffset buf := by
  induction fuel generalizing cidx sidxOffset byteOffset buf
  case zero         => rfl
  case succ fuel hi =>
    rw [readClusters, Fat32.readClusters]
    split_ifs
    case neg => rfl
    case pos =>
      refine plain_bind plain_readSectors fun r => ?_
      dsimp only
      split_ifs
      case pos => rfl
      case neg => exact plain_bind plain_getChain fun _ => hi

theorem plain_read : plain (fat32Read fuel obj bufLen seek : Labelled.Prog fs _) = Fat32.fat32Read fuel obj bufLen seek := by
  unfold fat32Read Fat32.fat32Read
  split_ifs
  case pos => rfl
  case pos => rfl
  case neg => exact plain_bind plain_skipChain fun _ => plain_readClusters

theorem plain_iterSectors : plain (iterSectors cidx obj n sidxOffset byteOffset st : Labelled.Prog fs _) =
    Fat32.iterSectors cidx obj n sidxOffset byteOffset st := by
  induction n generalizing sidxOffset byteOffset st
  case zero      => rfl
  case succ n hi =>
    refine plain_bind rfl fun dat => plain_bind rfl fun r => ?_
    cases r
    case inl => exact hi
    case inr => rfl

theorem plain_iterAdvance {i : Nat} {type : ObjType} : plain (iterAdvance cidx sidxOffset i type : Labelled.Prog fs _) =
    Fat32.iterAdvance cidx sidxOffset i type := by
  cases type
  case directory => rfl
  case file      =>
    simp only [iterAdvance, Fat32.iterAdvance]
    split_ifs
    case pos => exact plain_bind plain_getChain fun _ => rfl
    case neg => rfl
    case pos => exact plain_bind plain_getChain fun _ => rfl
    case neg => rfl

theorem plain_iterNext {iter : DirectoryIter} : plain (fat32IterNext fuel iter obj : Labelled.Prog fs _) =
    Fat32.fat32IterNext fuel iter obj := by
  have clusters {cidx : Cidx} {sidxOffset byteOffset : Nat} {st : Fns} :
      plain (iterClusters obj fuel cidx sidxOffset byteOffset st : Labelled.Prog fs _) =
        Fat32.iterClusters obj fuel cidx sidxOffset byteOffset st := by
    induction fuel generalizing cidx sidxOffset byteOffset st
    case zero         => rfl
    case succ fuel hi =>
      rw [iterClusters, Fat32.iterClusters]
      split_ifs
      case neg => rfl
      case pos =>
        refine plain_bind plain_iterSectors fun r => ?_
        cases r
        case inl => exact plain_bind plain_getChain fun _ => hi
        case inr => exact plain_bind plain_iterAdvance fun _ => rfl
  exact clusters

-- The table is the same.
theorem eval_getChain {v : Volume fs} : (fat32GetChain index).eval v.at = (Fat32.fat32GetChain index).eval v := by
  rw [← plain_getChain, plain, Program.eval_relabel]
  rfl

end Labelled

end Zgmos.Fat32
