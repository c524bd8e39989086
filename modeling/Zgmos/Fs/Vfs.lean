import Zgmos.Kernel.Fault

-- The vnodes. The lock is left out here.

namespace Zgmos.Fs

-- A string without the zero at its end.
abbrev Name := List (BitVec 8)

-- The address of a vnode. That of `vfs->root` is 0.
abbrev Node := Nat

def root : Node :=
  0

inductive VnodeType
  | undef
  | file
  | dir
  | mp
  | dev
  deriving DecidableEq

def VnodeType.isDir (type : VnodeType) : Bool :=
  type = .dir ∨ type = .mp

-- `iterate` stands for all calls up to the one that returns a null pointer. `read` and `write` are the
-- numbers that are returned.
structure Backend (Obj : Type) where
  iterate : Obj → Except Fault (List Obj)
  size    : Obj → BitVec 64
  name    : Obj → Name
  type    : Obj → VnodeType
  read    : Obj → (offset bufLen : BitVec 64) → BitVec 64
  write   : Obj → (offset bufLen : BitVec 64) → BitVec 64

structure Vnode (Obj : Type) where
  refCnt   : BitVec 64
  parent   : Node
  children : List Node
  childCnt : Int
  size     : BitVec 32
  type     : VnodeType
  name     : Name
  lfsObj   : Obj
  bkd      : Option (Backend Obj)

-- The vnodes from `next` on are memory which has not been allocated yet, with arbitrary contents.
structure Vfs (Obj : Type) where
  nodes : Node → Vnode Obj
  next  : Nat

variable {Obj : Type}

-- `ref_cnt` is left alone.
def Vnode.add (n : Vnode Obj) (bkd : Backend Obj) (parent : Node) (lfsObj : Obj) : Vnode Obj :=
  { n with
    bkd      := some bkd
    parent   := parent
    lfsObj   := lfsObj
    childCnt := -1
    size     := (bkd.size lfsObj).truncate 32
    name     := bkd.name lfsObj
    type     := bkd.type lfsObj
    children := [] }

namespace Vfs

def setNode (vfs : Vfs Obj) (node : Node) (f : Vnode Obj → Vnode Obj) : Vfs Obj :=
  { vfs with nodes := Function.update vfs.nodes node <| f (vfs.nodes node) }

def vnodeAdd (vfs : Vfs Obj) (node parent : Node) (lfsObj : Obj) : Except Fault (Vfs Obj) :=
  match (vfs.nodes parent).bkd with
  | none     => throw .outOfBounds
  | some bkd =>
    let vfs := vfs.setNode parent fun n => { n with children := node :: n.children }
    return vfs.setNode node (·.add bkd parent lfsObj)

def isSpaned (vfs : Vfs Obj) (node : Node) : Bool :=
  0 ≤ (vfs.nodes node).childCnt

-- The loop of `vfs_span_search`.
def span (node : Node) (name : Option Name) : List Obj → (ret : Option Node) → Vfs Obj →
    Except Fault (Option Node × Vfs Obj)
  | [],          ret, vfs => return (ret, vfs)
  | obj :: objs, ret, vfs => do
    let child := vfs.next
    let vfs ← { vfs with next := child + 1 }.vnodeAdd child node obj
    let ret := if name = some (vfs.nodes child).name then some child else ret
    span node name objs ret <| vfs.setNode node fun n => { n with childCnt := n.childCnt + 1 }

def vfsSpanSearch (vfs : Vfs Obj) (node : Node) (name : Option Name) :
    Except Fault (Option Node × Vfs Obj) :=
  match (vfs.nodes node).bkd with
  | none     => throw .outOfBounds
  | some bkd => do
    let objs ← bkd.iterate (vfs.nodes node).lfsObj
    span node name objs none <| vfs.setNode node ({ · with childCnt := 0 })

def vfsSearch (vfs : Vfs Obj) (node : Node) (name : Name) : Option Node :=
  (vfs.nodes node).children.find? fun child => (vfs.nodes child).name = name

def dot : Name :=
  [0x2e]

def dotdot : Name :=
  [0x2e, 0x2e]

def vfsGet (vfs : Vfs Obj) (parent : Option Node) (name : Name) : Except Fault (Option Node × Vfs Obj) :=
  let parent := parent.getD root
  if !(vfs.nodes parent).type.isDir then
    return (none, vfs)
  else if name = dot then
    return (some parent, vfs)
  else if name = dotdot then
    return (some (vfs.nodes parent).parent, vfs)
  else if vfs.isSpaned parent then
    return (vfs.vfsSearch parent name, vfs)
  else
    vfs.vfsSpanSearch parent (some name)

end Vfs

namespace Backend

-- The objects to which iterations lead.
inductive Below (bkd : Backend Obj) (obj : Obj) : Obj → Prop
  | refl : Below bkd obj obj
  | step {obj' obj'' objs} : Below bkd obj obj' → bkd.iterate obj' = .ok objs → obj'' ∈ objs →
    Below bkd obj obj''

-- Each iteration ends.
def Iterates (bkd : Backend Obj) (obj : Obj) : Prop :=
  ∀ obj', bkd.Below obj obj' → obj' = obj ∨ (bkd.type obj').isDir → ∃ objs, bkd.iterate obj' = .ok objs

variable {bkd : Backend Obj} {obj obj' : Obj}

theorem Below.trans {obj'' : Obj} (h : bkd.Below obj obj') (h' : bkd.Below obj' obj'') : bkd.Below obj obj'' := by
  induction h'
  case refl         => exact h
  case step he hm hi => exact .step hi he hm

theorem Iterates.child {objs : List Obj} (h : bkd.Iterates obj) (he : bkd.iterate obj = .ok objs) (hm : obj' ∈ objs)
    (hd : (bkd.type obj').isDir) : bkd.Iterates obj' := by
  intro o hb ho
  refine h o ((Below.step .refl he hm).trans hb) <| .inr ?_
  cases ho
  case inl ho => exact ho ▸ hd
  case inr ho => exact ho

end Backend
end Zgmos.Fs
