import Zgmos.Fs.Files
import Zgmos.Fs.Tree
import Zgmos.Lib.Run

-- The first lookup in a directory and the later ones.

namespace Zgmos.Fs

variable {Obj : Type}

-- The functions that look at the tree or change it.
inductive LookupCall
  | vfsGet (parent : Option Node) (name : Name)
  | vfsIterate (parent : Node)
  | vfsReopen (node : Node)
  | vfsClose (node : Node)

namespace LookupCall

-- The vnodes of a call are there.
def Names (vfs : Vfs Obj) : LookupCall → Prop
  | vfsGet parent _   => ∀ p ∈ parent, p < vfs.next
  | vfsIterate parent => parent < vfs.next
  | vfsReopen node    => node < vfs.next
  | vfsClose node     => node < vfs.next

def exec (vfs : Vfs Obj) : LookupCall → Except Fault (Vfs Obj)
  | vfsGet parent name => (·.2) <$> vfs.vfsGet parent name
  | vfsIterate parent  => if vfs.isSpaned parent then return vfs else (·.2) <$> vfs.vfsSpanSearch parent none
  | vfsReopen node     => return vfs.vfsReopen node
  | vfsClose node      => return vfs.vfsClose node

structure Step (vfs : Vfs Obj) (call : LookupCall) (vfs' : Vfs Obj) : Prop where
  names : call.Names vfs
  exec  : call.exec vfs = .ok vfs'

end LookupCall

namespace Vfs

-- The state after `vfs_init` and the mounting of a backend. `nodes` is the memory before.
def mounted (bkd : Backend Obj) (obj : Obj) (nodes : Node → Vnode Obj) : Vfs Obj where
  next  := 1
  nodes := Function.update nodes root { nodes root with
    refCnt   := 0
    parent   := root
    children := []
    childCnt := -1
    type     := .mp
    lfsObj   := obj
    bkd      := some bkd }

-- The names "dev", "stdin", "stdout" and "stderr".

def devName : Name :=
  [0x64, 0x65, 0x76]

def deviceNames : List Name :=
  [[0x73, 0x74, 0x64, 0x69, 0x6e], [0x73, 0x74, 0x64, 0x6f, 0x75, 0x74], [0x73, 0x74, 0x64, 0x65, 0x72, 0x72]]

-- A vnode that `fs_init` makes for a device. Its own list of children is not initialized.
def addDevice (vfs : Vfs Obj) (con : Backend Obj) (devdir : Node) (name : Name) : Vfs Obj :=
  ({ vfs with next := vfs.next + 1 }.setNode vfs.next fun n =>
    { n with name, bkd := some con, parent := devdir, type := .dev, refCnt := 0 }).setNode devdir fun n =>
    { n with children := vfs.next :: n.children }

-- The directory of the devices, which `fs_init` links by hand.
def addDevices (vfs : Vfs Obj) (con : Backend Obj) : Vfs Obj :=
  deviceNames.foldl (addDevice · con vfs.next ·) <|
    ({ vfs with next := vfs.next + 1 }.setNode root fun n => { n with children := vfs.next :: n.children }).setNode
      vfs.next fun n => { n with name := devName, bkd := none, childCnt := 3, parent := root, type := .mp, children := [] }

-- The vnodes of a directory are those of its objects. `list_add` puts each one in front.
structure Filled (vfs : Vfs Obj) (node : Node) (objs : List Obj) : Prop where
  count : (vfs.nodes node).childCnt = (vfs.nodes node).children.length
  objs  : (vfs.nodes node).children.map (fun c => (vfs.nodes c).lfsObj) = objs.reverse
  nodup : (vfs.nodes node).children.Nodup

-- A directory which has not been spanned yet has no children.
structure Tidy (vfs : Vfs Obj) : Prop where
  root     : 0 < vfs.next
  children : ∀ i < vfs.next, ∀ c ∈ (vfs.nodes i).children, c < vfs.next
  empty    : ∀ i < vfs.next, ¬vfs.isSpaned i → (vfs.nodes i).children = []

-- The children of a spanned directory remain.
structure Settled (vfs vfs' : Vfs Obj) : Prop where
  next   : vfs.next ≤ vfs'.next
  names  : ∀ i < vfs.next, (vfs'.nodes i).name = (vfs.nodes i).name
  types  : ∀ i < vfs.next, (vfs'.nodes i).type = (vfs.nodes i).type
  objs   : ∀ i < vfs.next, (vfs'.nodes i).lfsObj = (vfs.nodes i).lfsObj
  spaned : ∀ i < vfs.next, vfs.isSpaned i →
    (vfs'.nodes i).children = (vfs.nodes i).children ∧ (vfs'.nodes i).childCnt = (vfs.nodes i).childCnt

-- What `vfs_span_search` makes out of a directory.
def expand (vfs : Vfs Obj) (bkd : Backend Obj) (node : Node) (objs : List Obj) : Vfs Obj :=
  (vfs.setNode node ({ · with childCnt := 0 })).grow bkd node objs

variable {vfs vfs' : Vfs Obj} {bkd : Backend Obj} {node i : Nat} {name : Name} {objs : List Obj} {ret : Option Node}

-- Searching the reversed list finds what the enumeration has found last.
theorem lastNamed_eq {child : Node} {f : Node → Name} (h : ∀ k (hk : k < objs.length), f (child + k) = bkd.name objs[k]) :
    lastNamed bkd (some name) child objs ret =
      ((List.range' child objs.length).reverse.find? (f · = name)).or ret := by
  induction objs generalizing child ret
  case nil => rfl
  case cons obj objs hi =>
    have hf : f child = bkd.name obj := h 0 (Nat.succ_pos _)
    have hi := @hi (if some name = some (bkd.name obj) then some child else ret) (child + 1) fun k hk => by
      have := h (k + 1) <| Nat.succ_lt_succ hk
      rwa [← Nat.add_assoc, Nat.add_right_comm] at this
    rw [lastNamed, hi, List.length_cons, List.range'_succ, List.reverse_cons, List.find?_append,
      Option.or_assoc]
    congr 1
    by_cases hn : name = bkd.name obj <;> simp [hf, hn, eq_comm]

theorem expand_node : (vfs.expand bkd node objs).nodes node = { vfs.nodes node with
    children := (List.range' vfs.next objs.length).reverse ++ (vfs.nodes node).children
    childCnt := objs.length } := by
  simp [expand, grow, setNode]

theorem expand_of_lt (hi : i < vfs.next) (hn : i ≠ node) : (vfs.expand bkd node objs).nodes i = vfs.nodes i := by
  simp [expand, grow, setNode, hi, hn]

theorem expand_child {k : Nat} (hn : node < vfs.next) (hk : k < objs.length) :
    (vfs.expand bkd node objs).nodes (vfs.next + k) = (vfs.nodes <| vfs.next + k).add bkd node objs[k] := by
  have hne : vfs.next + k ≠ node := by omega
  exact (@grow_child _ (vfs.setNode node ({ · with childCnt := 0 })) bkd node objs k hn hk).trans <| by simp [setNode, hne]

-- What is spanned are the objects of the directory.
theorem vfsSpanSearch_eq {name : Option Name} (hn : node < vfs.next) (hb : (vfs.nodes node).bkd = some bkd)
    (ho : bkd.iterate (vfs.nodes node).lfsObj = .ok objs) : vfs.vfsSpanSearch node name =
      .ok (lastNamed bkd name vfs.next objs none, vfs.expand bkd node objs) := by
  simp only [vfsSpanSearch, hb, ho]
  exact span_eq (by simp [setNode, hb]) hn

theorem vfsSpanSearch_ok {name : Option Name} {r : Option Node × Vfs Obj} (hn : node < vfs.next)
    (h : vfs.vfsSpanSearch node name = .ok r) : ∃ bkd objs, r.2 = vfs.expand bkd node objs := by
  cases hb : (vfs.nodes node).bkd
  case none =>
    rw [vfsSpanSearch, hb] at h
    cases h
  case some bkd =>
    cases ho : bkd.iterate (vfs.nodes node).lfsObj
    case error =>
      rw [vfsSpanSearch, hb] at h
      simp [ho, bind, Except.bind] at h
    case ok objs =>
      rw [vfsSpanSearch_eq hn hb ho] at h
      exact ⟨bkd, objs, Except.ok.inj h ▸ rfl⟩

namespace Settled

theorem refl : vfs.Settled vfs where
  next   := Nat.le_refl _
  names  := fun _ _ => rfl
  types  := fun _ _ => rfl
  objs   := fun _ _ => rfl
  spaned := fun _ _ _ => ⟨rfl, rfl⟩

theorem isSpaned (t : vfs.Settled vfs') (hi : i < vfs.next) (hs : vfs.isSpaned i) : vfs'.isSpaned i := by
  rw [Vfs.isSpaned, (t.spaned i hi hs).2]
  exact hs

theorem trans {vfs'' : Vfs Obj} (t : vfs.Settled vfs') (t' : vfs'.Settled vfs'') : vfs.Settled vfs'' where
  next   := t.next.trans t'.next
  names  := fun i hi => (t'.names i <| hi.trans_le t.next).trans (t.names i hi)
  types  := fun i hi => (t'.types i <| hi.trans_le t.next).trans (t.types i hi)
  objs   := fun i hi => (t'.objs i <| hi.trans_le t.next).trans (t.objs i hi)
  spaned := fun i hi hs => by
    have ⟨hc, hn⟩ := t.spaned i hi hs
    have ⟨hc', hn'⟩ := t'.spaned i (hi.trans_le t.next) <| t.isSpaned hi hs
    exact ⟨hc'.trans hc, hn'.trans hn⟩

theorem expand (hs : ¬vfs.isSpaned node) : vfs.Settled (vfs.expand bkd node objs) := by
  have he (i : Nat) (hi : i < vfs.next) : i = node ∨ (vfs.expand bkd node objs).nodes i = vfs.nodes i := by
    by_cases hn : i = node
    case pos => exact .inl hn
    case neg => exact .inr <| expand_of_lt hi hn
  constructor
  case next => exact Nat.le_add_right ..
  case spaned =>
    intro i hi hsp
    cases he i hi
    case inl he => exact absurd (he ▸ hsp) hs
    case inr he => exact he ▸ ⟨rfl, rfl⟩
  all_goals
    intro i hi
    cases he i hi
    case inl he => rw [he, expand_node]
    case inr he => rw [he]

-- Only the number of references changes.
theorem of_refCnt {f : BitVec 64 → BitVec 64} :
    vfs.Settled (vfs.setNode node fun n => { n with refCnt := f n.refCnt }) := by
  have he (i : Nat) : ((vfs.setNode node fun n => { n with refCnt := f n.refCnt }).nodes i) =
      { vfs.nodes i with refCnt := if i = node then f (vfs.nodes i).refCnt else (vfs.nodes i).refCnt } := by
    by_cases hi : i = node <;> simp [setNode, hi]
  constructor
  case next => exact Nat.le_refl _
  all_goals
    intro i _
    simp only [he, implies_true, and_self]

end Settled

namespace Tidy

theorem mounted (bkd : Backend Obj) (obj : Obj) (nodes : Node → Vnode Obj) : (mounted bkd obj nodes).Tidy where
  root     := Nat.one_pos
  children := fun i hi c hc => by
    rw [Nat.lt_one_iff.mp hi] at hc
    simp [Vfs.mounted, Fs.root] at hc
  empty    := fun i hi _ => by
    rw [Nat.lt_one_iff.mp hi]
    simp [Vfs.mounted, Fs.root]

theorem expand (w : vfs.Tidy) (bkd : Backend Obj) (objs : List Obj) (hn : node < vfs.next)
    (hs : ¬vfs.isSpaned node) : (vfs.expand bkd node objs).Tidy := by
  have hnext : (vfs.expand bkd node objs).next = vfs.next + objs.length := rfl
  have hchild (i : Nat) (hi : i < (vfs.expand bkd node objs).next) (hle : vfs.next ≤ i) :
      ((vfs.expand bkd node objs).nodes i).children = [] := by
    have ⟨k, hk⟩ := Nat.exists_eq_add_of_le hle
    have hlt : k < objs.length := by omega
    rw [hk, expand_child hn hlt]
    rfl
  constructor
  case root => exact w.root.trans_le <| Nat.le_add_right ..
  case children =>
    intro i hi c hc
    cases Nat.lt_or_ge i vfs.next
    case inr hge =>
      rw [hchild i hi hge] at hc
      cases hc
    case inl hlt =>
      by_cases he : i = node
      case neg =>
        rw [expand_of_lt hlt he] at hc
        exact (w.children i hlt c hc).trans_le <| Nat.le_add_right ..
      case pos =>
        rw [he, expand_node, w.empty node hn hs, List.append_nil, List.mem_reverse, List.mem_range'_1] at hc
        exact hc.2
  case empty =>
    intro i hi hsp
    cases Nat.lt_or_ge i vfs.next
    case inr hge => exact hchild i hi hge
    case inl hlt =>
      by_cases he : i = node
      case neg =>
        rw [isSpaned, expand_of_lt hlt he] at hsp
        rw [expand_of_lt hlt he]
        exact w.empty i hlt hsp
      case pos =>
        rw [isSpaned, he, expand_node] at hsp
        simp at hsp

theorem of_refCnt {f : BitVec 64 → BitVec 64} (w : vfs.Tidy) :
    (vfs.setNode node fun n => { n with refCnt := f n.refCnt }).Tidy := by
  have he (i : Nat) : ((vfs.setNode node fun n => { n with refCnt := f n.refCnt }).nodes i).children =
      (vfs.nodes i).children ∧ ((vfs.setNode node fun n => { n with refCnt := f n.refCnt }).nodes i).childCnt =
      (vfs.nodes i).childCnt := by
    by_cases hi : i = node <;> simp [setNode, hi]
  constructor
  case root     => exact w.root
  case children => exact fun i hi c hc => w.children i hi c <| (he i).1 ▸ hc
  case empty    =>
    intro i hi hs
    rw [isSpaned, (he i).2] at hs
    rw [(he i).1]
    exact w.empty i hi hs

-- A new vnode in a directory that has been spanned.
theorem link (w : vfs.Tidy) (hn : node < vfs.next) (hs : vfs.isSpaned node) (hnext : vfs'.next = vfs.next + 1)
    (hnode : (vfs'.nodes node).children = vfs.next :: (vfs.nodes node).children ∧
      (vfs'.nodes node).childCnt = (vfs.nodes node).childCnt)
    (hnew : (vfs'.nodes vfs.next).children = [])
    (h : ∀ i < vfs.next, i ≠ node → (vfs'.nodes i).children = (vfs.nodes i).children ∧
      (vfs'.nodes i).childCnt = (vfs.nodes i).childCnt) : vfs'.Tidy := by
  have hcases (i : Nat) (hi : i < vfs'.next) : i = node ∨ i = vfs.next ∨ i < vfs.next ∧ i ≠ node := by omega
  constructor
  case root => exact hnext ▸ Nat.succ_pos _
  case children =>
    intro i hi c hc
    rw [hnext, Nat.lt_succ_iff]
    obtain rfl | rfl | ⟨hlt, hne⟩ := hcases i hi
    case inl =>
      rw [hnode.1] at hc
      cases hc
      case head   => exact le_rfl
      case tail h => exact (w.children i hn c h).le
    case inr.inl => simp [hnew] at hc
    case inr.inr =>
      rw [(h i hlt hne).1] at hc
      exact (w.children i hlt c hc).le
  case empty =>
    intro i hi hsp
    obtain rfl | rfl | ⟨hlt, hne⟩ := hcases i hi
    case inl     => exact absurd (by rwa [isSpaned, hnode.2]) hsp
    case inr.inl => exact hnew
    case inr.inr =>
      rw [isSpaned, (h i hlt hne).2] at hsp
      rw [(h i hlt hne).1]
      exact w.empty i hlt hsp

theorem addDevice (w : vfs.Tidy) (con : Backend Obj) (name : Name) (hn : node < vfs.next) (hs : vfs.isSpaned node)
    (hc : (vfs.nodes vfs.next).children = []) : (vfs.addDevice con node name).Tidy := by
  have hne : vfs.next ≠ node := hn.ne'
  refine w.link hn hs rfl ?_ ?_ fun i hi hin => ?_
  case refine_1 => simp [Vfs.addDevice, setNode, hn.ne]
  case refine_2 => simp [Vfs.addDevice, setNode, hne, hc]
  case refine_3 => simp [Vfs.addDevice, setNode, hin, (show i ≠ vfs.next by omega)]

theorem foldl_addDevice {names : List Name} (w : vfs.Tidy) (con : Backend Obj) (hn : node < vfs.next)
    (hs : vfs.isSpaned node) (hc : ∀ k < names.length, (vfs.nodes (vfs.next + k)).children = []) :
    (names.foldl (Vfs.addDevice · con node ·) vfs).Tidy := by
  induction names generalizing vfs
  case nil => exact w
  case cons name names hi =>
    refine hi (w.addDevice con name hn hs <| hc 0 <| Nat.succ_pos _) (Nat.lt_succ_of_lt hn) ?_ fun k hk => ?_
    case refine_1 => simpa [isSpaned, Vfs.addDevice, setNode, hn.ne] using hs
    case refine_2 =>
      have h := hc (k + 1) <| Nat.succ_lt_succ hk
      have hnode : vfs.next + 1 + k ≠ node := by omega
      have hnext : vfs.next + 1 + k ≠ vfs.next := by omega
      rw [Nat.add_comm k, ← Nat.add_assoc] at h
      simpa [Vfs.addDevice, setNode, hnode, hnext] using h

-- The tree after `fs_init`, in which the root has been spanned.
theorem addDevices (w : vfs.Tidy) (con : Backend Obj) (hs : vfs.isSpaned Fs.root)
    (hc : ∀ k < deviceNames.length, (vfs.nodes (vfs.next + 1 + k)).children = []) : (vfs.addDevices con).Tidy := by
  have hr := w.root
  have hdir : (({ vfs with next := vfs.next + 1 }.setNode Fs.root fun n =>
      { n with children := vfs.next :: n.children }).setNode vfs.next fun n =>
      { n with name := devName, bkd := none, childCnt := 3, parent := Fs.root, type := .mp, children := [] }).Tidy := by
    refine w.link hr hs rfl ?_ ?_ fun i hi hin => ?_
    case refine_1 => simp [setNode, Fs.root, hr.ne]
    case refine_2 => simp [setNode]
    case refine_3 =>
      have hin : i ≠ 0 := hin
      simp [setNode, Fs.root, hin, hi.ne]
  refine hdir.foldl_addDevice con (Nat.lt_succ_self _) (by simp [isSpaned, setNode]) fun k hk => ?_
  have hroot : vfs.next + 1 + k ≠ 0 := by omega
  have hnext : vfs.next + 1 + k ≠ vfs.next := by omega
  simpa [setNode, Fs.root, hroot, hnext] using hc k hk

end Tidy

theorem vfsGet_ok {parent : Option Node} {r : Option Node × Vfs Obj} (hp : parent.getD Fs.root < vfs.next)
    (h : vfs.vfsGet parent name = .ok r) : r.2 = vfs ∨
      ¬vfs.isSpaned (parent.getD Fs.root) ∧ ∃ bkd objs, r.2 = vfs.expand bkd (parent.getD Fs.root) objs := by
  unfold vfsGet at h
  dsimp only at h
  split_ifs at h
  case neg hs => exact .inr ⟨hs, vfsSpanSearch_ok hp h⟩
  all_goals exact .inl <| Except.ok.inj h ▸ rfl

end Vfs

namespace LookupCall

open Vfs

variable {vfs vfs' : Vfs Obj} {calls : List LookupCall} {call : LookupCall}

-- A step leaves the tree as it is, counts a reference or spans a directory.
theorem Step.cases_eq (t : Step vfs call vfs') (w : vfs.Tidy) : vfs' = vfs ∨
    (∃ (node : Node) (f : BitVec 64 → BitVec 64), vfs' = vfs.setNode node fun n => { n with refCnt := f n.refCnt }) ∨
    ∃ node < vfs.next, ¬vfs.isSpaned node ∧ ∃ bkd objs, vfs' = vfs.expand bkd node objs := by
  have hn := t.names
  have he := t.exec
  cases call
  case vfsGet parent name =>
    have hp : parent.getD root < vfs.next := by
      cases parent
      case none   => exact w.root
      case some p => exact hn p rfl
    cases hg : vfs.vfsGet parent name
    case error => simp [LookupCall.exec, hg, Functor.map, Except.map] at he
    case ok r =>
      simp only [LookupCall.exec, hg, Functor.map, Except.map, Except.ok.injEq] at he
      cases vfsGet_ok hp hg
      case inl h => exact .inl <| he ▸ h
      case inr h => exact .inr <| .inr ⟨_, hp, h.1, he ▸ h.2⟩
  case vfsIterate parent =>
    simp only [LookupCall.exec] at he
    split_ifs at he
    case pos => exact .inl (Except.ok.inj he).symm
    case neg hs =>
      cases hg : vfs.vfsSpanSearch parent none
      case error => simp [hg, Functor.map, Except.map] at he
      case ok r =>
        simp only [hg, Functor.map, Except.map, Except.ok.injEq] at he
        exact .inr <| .inr ⟨parent, hn, hs, he ▸ vfsSpanSearch_ok hn hg⟩
  case vfsReopen node => exact .inr <| .inl ⟨node, (· + 1), (Except.ok.inj he).symm⟩
  case vfsClose node  => exact .inr <| .inl ⟨node, (· - 1), (Except.ok.inj he).symm⟩

theorem Step.settled (t : Step vfs call vfs') (w : vfs.Tidy) : vfs'.Tidy ∧ vfs.Settled vfs' := by
  obtain rfl | ⟨_, _, rfl⟩ | ⟨_, hn, hs, _, _, rfl⟩ := t.cases_eq w
  case inl     => exact ⟨w, .refl⟩
  case inr.inl => exact ⟨w.of_refCnt, .of_refCnt⟩
  case inr.inr => exact ⟨w.expand _ _ hn hs, .expand hs⟩

theorem settled (t : Run Step vfs calls vfs') (w : vfs.Tidy) : vfs'.Tidy ∧ vfs.Settled vfs' := by
  induction t
  case nil => exact ⟨w, .refl⟩
  case cons t _ hi =>
    obtain ⟨w₁, t₁⟩ := t.settled w
    obtain ⟨w₂, t₂⟩ := hi w₁
    exact ⟨w₂, t₁.trans t₂⟩

end LookupCall

namespace Vfs

variable {vfs vfs' : Vfs Obj} {bkd : Backend Obj} {p : Nat} {name : Name} {objs : List Obj} {ret : Option Node}

-- A spanned directory is looked up in the same way ever after.
theorem Settled.vfsGet (t : vfs.Settled vfs') (w : vfs.Tidy) {parent : Option Node} (hp : parent.getD Fs.root < vfs.next)
    (hd : (vfs.nodes <| parent.getD Fs.root).type.isDir) (hs : vfs.isSpaned <| parent.getD Fs.root) (h₁ : name ≠ dot)
    (h₂ : name ≠ dotdot) : vfs'.vfsGet parent name = .ok (vfs.vfsSearch (parent.getD Fs.root) name, vfs') := by
  have hc := (t.spaned _ hp hs).1
  have hf : vfs'.vfsSearch (parent.getD Fs.root) name = vfs.vfsSearch (parent.getD Fs.root) name := by
    rw [vfsSearch, vfsSearch, hc]
    apply List.find?_congr
    intro c hm
    rw [t.names c <| w.children _ hp c hm]
  rw [Vfs.vfsGet]
  simp only [t.types _ hp, hd, h₁, h₂, t.isSpaned hp hs, hf, Bool.not_true, Bool.false_eq_true, if_false, if_true]
  rfl

theorem Filled.settled (h : vfs.Filled p objs) (w : vfs.Tidy) (hp : p < vfs.next) (t : vfs.Settled vfs') :
    vfs'.Filled p objs := by
  have hs : vfs.isSpaned p := by simp [isSpaned, h.count]
  obtain ⟨hc, hn⟩ := t.spaned p hp hs
  constructor
  case count => rw [hc, hn, h.count]
  case nodup => exact hc ▸ h.nodup
  case objs  =>
    rw [hc, ← h.objs]
    exact List.map_congr_left fun c hm => t.objs c <| w.children p hp c hm

theorem Filled.expand (w : vfs.Tidy) (bkd : Backend Obj) (objs : List Obj) (hp : p < vfs.next)
    (hs : ¬vfs.isSpaned p) : (vfs.expand bkd p objs).Filled p objs := by
  have hc : ((vfs.expand bkd p objs).nodes p).children = (List.range' vfs.next objs.length).reverse := by
    rw [expand_node, w.empty p hp hs]
    exact List.append_nil _
  constructor
  case count =>
    rw [hc, List.length_reverse, List.length_range', expand_node]
  case nodup =>
    rw [hc]
    exact List.nodup_reverse.mpr List.nodup_range'
  case objs =>
    rw [hc, List.map_reverse]
    congr 1
    apply List.ext_getElem
    · simp
    · intro k hk hk'
      rw [List.getElem_map, List.getElem_range', Nat.one_mul, expand_child hp hk']
      rfl

-- The enumeration finds the vnode which the search of the list finds.
theorem vfsSearch_expand (w : vfs.Tidy) (hp : p < vfs.next) (hs : ¬vfs.isSpaned p) :
    (vfs.expand bkd p objs).vfsSearch p name = lastNamed bkd (some name) vfs.next objs none := by
  have hn (k : Nat) (hk : k < objs.length) : ((vfs.expand bkd p objs).nodes (vfs.next + k)).name = bkd.name objs[k] := by
    rw [expand_child hp hk]
    rfl
  have hf := @lastNamed_eq _ bkd name objs none vfs.next (fun c => ((vfs.expand bkd p objs).nodes c).name) hn
  rw [hf, vfsSearch, expand_node, w.empty p hp hs, List.append_nil, Option.or_none]

-- The first lookup in a directory finds what all later ones find, and no lookup spans the directory again.
theorem run_vfsGet_agrees {vfs₀ : Vfs Obj} {calls : List LookupCall} (w₀ : vfs₀.Tidy)
    (r : Run LookupCall.Step vfs₀ calls vfs) {parent : Option Node}
    (hp : parent.getD Fs.root < vfs.next) (hd : (vfs.nodes <| parent.getD Fs.root).type.isDir)
    (hs : ¬vfs.isSpaned (parent.getD Fs.root)) (hb : (vfs.nodes <| parent.getD Fs.root).bkd = some bkd)
    (ho : bkd.iterate (vfs.nodes <| parent.getD Fs.root).lfsObj = .ok objs) (h₁ : name ≠ dot) (h₂ : name ≠ dotdot) :
    ∃ ret vfs₁, vfs.vfsGet parent name = .ok (ret, vfs₁) ∧
      ∀ calls' vfs₂, Run LookupCall.Step vfs₁ calls' vfs₂ → vfs₂.vfsGet parent name = .ok (ret, vfs₂) ∧
        vfs₂.Filled (parent.getD Fs.root) objs := by
  have w := (LookupCall.settled r w₀).1
  have w₁ := w.expand bkd objs hp hs
  have hf := Filled.expand w bkd objs hp hs
  have hp₁ : parent.getD Fs.root < (vfs.expand bkd (parent.getD Fs.root) objs).next := hp.trans_le <| Nat.le_add_right ..
  have hs₁ : (vfs.expand bkd (parent.getD Fs.root) objs).isSpaned (parent.getD Fs.root) := by
    simp [isSpaned, hf.count]
  refine ⟨lastNamed bkd (some name) vfs.next objs none, vfs.expand bkd (parent.getD Fs.root) objs, ?_,
    fun calls' vfs₂ r₂ => ?_⟩
  case refine_1 =>
    rw [Vfs.vfsGet]
    simp only [hd, h₁, h₂, hs, Bool.not_true, Bool.false_eq_true, if_false]
    exact vfsSpanSearch_eq hp hb ho
  case refine_2 =>
    obtain ⟨_, t⟩ := LookupCall.settled r₂ w₁
    refine ⟨?_, hf.settled w₁ hp₁ t⟩
    rw [← vfsSearch_expand w hp hs]
    refine t.vfsGet w₁ hp₁ ?_ hs₁ h₁ h₂
    rw [expand_node]
    exact hd

end Vfs

-- The root has a directory with two files of the same name.
def twinBackend : Backend Nat where
  iterate obj  := .ok <| if obj = 0 then [1] else [2, 3]
  size _       := 0
  name _       := [0x61]
  type obj     := if obj = 1 then .dir else .file
  read _ _ _   := 0
  write _ _ _  := 0

-- The root has been spanned, and the devices have been linked.
def twinVfs : Vfs Nat :=
  ((Vfs.mounted twinBackend 0 fun _ => ⟨0, 0, [], 0, 0, .undef, [], 0, none⟩).expand twinBackend root [1]).addDevices
    twinBackend

theorem twinVfs_tidy : twinVfs.Tidy := by
  refine ((Vfs.Tidy.mounted twinBackend 0 _).expand twinBackend [1] (by decide) (by decide)).addDevices _ (by decide) ?_
  decide

theorem twinVfs_agrees : ∃ vfs ret vfs₁, Run LookupCall.Step twinVfs [.vfsIterate root, .vfsReopen 1] vfs ∧
    vfs.vfsGet (some 1) [0x61] = .ok (ret, vfs₁) ∧
    ∀ calls' vfs₂, Run LookupCall.Step vfs₁ calls' vfs₂ → vfs₂.vfsGet (some 1) [0x61] = .ok (ret, vfs₂) ∧
      vfs₂.Filled 1 [2, 3] := by
  have r : Run LookupCall.Step twinVfs [.vfsIterate root, .vfsReopen 1] (twinVfs.vfsReopen 1) :=
    .cons ⟨Nat.succ_pos _, rfl⟩ <| .single ⟨Nat.one_lt_succ_succ _, rfl⟩
  obtain ⟨ret, vfs₁, h⟩ := @Vfs.run_vfsGet_agrees _ _ twinBackend [0x61] [2, 3] twinVfs _ twinVfs_tidy r (some 1)
    (by decide) (by decide) (by decide) rfl rfl (by decide) (by decide)
  exact ⟨_, ret, vfs₁, r, h⟩

-- Both of them have vnodes, of which the second one is found.
example : (twinVfs.vfsGet (some 1) [0x61]).toOption.map (·.1) = some (some 7) := by
  decide

end Zgmos.Fs
