import Zgmos.Fs.Files
import Zgmos.Lib.Except
import Zgmos.Lib.Run

-- The calls on any number of tables.

namespace Zgmos.Fs

variable {Obj : Type}

inductive Call
  | create  (pages : Option Pages)
  | alloc   (t : Pages) (parent : Option Node) (path : Name)
  | dup     (t : Pages) (oldFd newFd : Int)
  | clone   (t : Pages) (pages : Option Pages)
  | free    (t : Pages) (fd : Int)
  | read    (t : Pages) (fd : Int) (bufLen : BitVec 64)
  | write   (t : Pages) (fd : Int) (bufLen : BitVec 64)
  | destroy (t : Pages)

namespace Files

def exec (s : Files Obj) : Call → Except Fault (Files Obj)
  | .create pages        => s.filesStructCreate pages
  | .alloc t parent path => (·.2) <$> s.filesStructAlloc t parent path
  | .dup t oldFd newFd   => (·.2) <$> s.filesStructDup t oldFd newFd
  | .clone t pages       => s.filesStructClone t pages
  | .free t fd           => s.filesStructFree t fd
  | .read t fd bufLen    => (·.2) <$> s.filesStructRead t fd bufLen
  | .write t fd bufLen   => (·.2) <$> s.filesStructWrite t fd bufLen
  | .destroy t           => s.filesStructDestroy t

-- Allocated pages are not in use, and a path starts at a vnode.
def Permits (s : Files Obj) : Call → Prop
  | .create pages | .clone _ pages => ∀ p ∈ pages, s.tables p = none
  | .alloc _ parent _              => ∀ p ∈ parent, p < s.vfs.next
  | _                              => True

structure Step (s : Files Obj) (call : Call) (s' : Files Obj) : Prop where
  permits : s.Permits call
  exec    : s.exec call = .ok s'

variable {s s' : Files Obj} {t : Pages} {f : FilesStruct} {parent : Option Node} {path : Name} {fd : Int}
  {ret : Int × Files Obj}

-- What the calls can do.

theorem table_ok (h : s.table t = .ok f) : s.tables t = some f := by
  rw [table] at h
  cases ht : s.tables t <;> rw [ht] at h <;> cases h
  rfl

theorem map_snd_eq_ok {x : Except Fault (Int × Files Obj)} (h : (·.2) <$> x = .ok s') :
    ∃ r, x = .ok (r, s') := by
  cases x
  case error  => nomatch h
  case ok ret =>
    cases h
    exact ⟨ret.1, rfl⟩

theorem get_ok {node : Option Node} (h : f.get fd = .ok node) :
    (0 ≤ fd ∧ fd < filesSize) ∧ f.nodes fd.toNat = node := by
  rw [FilesStruct.get] at h
  split_ifs at h
  exact ⟨‹_›, Except.ok.inj h⟩

theorem set_ok {node : Option Node} {f' : FilesStruct} (h : f.set fd node = .ok f') :
    f' = { f with nodes := Function.update f.nodes fd.toNat node } := by
  rw [FilesStruct.set] at h
  split_ifs at h
  exact (Except.ok.inj h).symm

-- A slot of a table and the seek of a descriptor are replaced.

def take (s : Files Obj) (t : Pages) (f : FilesStruct) (i : Nat) (node : Option Node) : Files Obj :=
  s.setTable t <| some { f with nodes := Function.update f.nodes i node }

def seekTo (s : Files Obj) (pages : Pages) (fd : Int) (seek : BitVec 64) : Files Obj :=
  { s with seeks := Function.update s.seeks pages <| Function.update (s.seeks pages) fd.toNat seek }

theorem setSeek_ok {g : BitVec 64 → BitVec 64} (h : s.setSeek t fd g = .ok s') :
    ∃ f, s.tables t = some f ∧ s' = s.seekTo t fd (g <| s.seeks t fd.toNat) := by
  have ⟨f, hf, h⟩ := Except.bind_eq_ok.mp h
  split_ifs at h
  exact ⟨f, table_ok hf, (Except.ok.inj h).symm⟩

theorem filesStructAlloc_ok (h : s.filesStructAlloc t parent path = .ok ret) :
    ∃ f, s.tables t = some f ∧ (ret.2 = s ∨ ∃ i node vfs, f.freeSlot = some i ∧
      s.vfs.vfsOpen parent path = .ok (node, vfs) ∧
      ret.2 = node.elim { s with vfs } fun node => take { s with vfs } t f i (some node)) := by
  have ⟨f, hf, h⟩ := Except.bind_eq_ok.mp h
  refine ⟨f, table_ok hf, ?_⟩
  cases hi : f.freeSlot
  case none =>
    rw [hi] at h
    exact .inl <| Except.ok.inj h ▸ rfl
  case some i =>
    rw [hi] at h
    have ⟨⟨node, vfs⟩, ho, h⟩ := Except.bind_eq_ok.mp h
    refine .inr ⟨i, node, vfs, rfl, ho, ?_⟩
    cases node <;> exact Except.ok.inj h ▸ rfl

theorem filesStructDup_ok {oldFd newFd : Int} (h : s.filesStructDup t oldFd newFd = .ok ret) :
    ∃ f, s.tables t = some f ∧ (ret.2 = s ∨ ∃ i j node, i < filesSize ∧ f.nodes i = none ∧ j < filesSize ∧
      f.nodes j = some node ∧ ret.2 = take { s with vfs := s.vfs.vfsReopen node } t f i (some node)) := by
  have ⟨f, hf, h⟩ := Except.bind_eq_ok.mp h
  refine ⟨f, table_ok hf, ?_⟩
  split at h
  case isTrue => exact .inl <| Except.ok.inj h ▸ rfl
  have ⟨node, hg, h⟩ := Except.bind_eq_ok.mp h
  have ⟨hb, hn⟩ := get_ok hg
  have hj : oldFd.toNat < filesSize := by omega
  cases node
  case none => nomatch h
  case some node =>
    dsimp only at h
    split at h
    case isTrue =>
      cases hi : f.freeSlot
      case none   => rw [hi] at h; exact .inl <| Except.ok.inj h ▸ rfl
      case some i =>
        rw [hi] at h
        have ⟨hl, hn', _⟩ := FilesStruct.freeSlot_some hi
        exact .inr ⟨i, oldFd.toNat, node, hl, hn', hj, hn, Except.ok.inj h ▸ rfl⟩
    case isFalse =>
      have ⟨new, hg, h⟩ := Except.bind_eq_ok.mp h
      have ⟨hb, hn'⟩ := get_ok hg
      split at h
      case isTrue     => exact .inl <| Except.ok.inj h ▸ rfl
      case isFalse hs =>
        have ⟨f', hs', h⟩ := Except.bind_eq_ok.mp h
        refine .inr ⟨newFd.toNat, oldFd.toNat, node, by omega, ?_, hj, hn, ?_⟩
        case refine_1 => simpa [hn'] using hs
        case refine_2 => exact Except.ok.inj h ▸ set_ok hs' ▸ rfl

theorem filesStructClone_ok {pages : Option Pages} (h : s.filesStructClone t pages = .ok s') :
    ∃ f g c, s.tables t = some f ∧ s.tables f.seek = some g ∧ pages = some c ∧
      s' = { s.setTable c (some { nodes := f.nodes, seek := t }) with
        seeks := Function.update s.seeks t <| s.seeks f.seek } := by
  have ⟨f, hf, hc⟩ := Except.bind_eq_ok.mp h
  have ⟨g, hg, he⟩ := Except.bind_eq_ok.mp hc
  clear h hc
  cases pages
  case none   => nomatch he
  case some c => exact ⟨f, g, c, table_ok hf, table_ok hg, rfl, (Except.ok.inj he).symm⟩

theorem filesStructFree_ok (h : s.filesStructFree t fd = .ok s') :
    ∃ f g node, s.tables t = some f ∧ s.tables f.seek = some g ∧ (0 ≤ fd ∧ fd < filesSize) ∧
      f.nodes fd.toNat = some node ∧
      s' = take (seekTo { s with vfs := s.vfs.vfsClose node } f.seek fd 0) t f fd.toNat none := by
  have ⟨f, hf, h⟩ := Except.bind_eq_ok.mp h
  have ⟨node, hg, h⟩ := Except.bind_eq_ok.mp h
  have ⟨hb, hn⟩ := get_ok hg
  cases node
  case none => nomatch h
  case some node =>
    have ⟨s₁, hs, h⟩ := Except.bind_eq_ok.mp h
    have ⟨f', hf', h⟩ := Except.bind_eq_ok.mp h
    have ⟨g, hg', hs⟩ := setSeek_ok hs
    refine ⟨f, g, node, table_ok hf, hg', hb, hn, ?_⟩
    rw [set_ok hf', hs] at h
    exact (Except.ok.inj h).symm

theorem filesStructDestroy_ok (h : s.filesStructDestroy t = .ok s') :
    ∃ f, s.tables t = some f ∧
      s' = { s with vfs := closeAll ((List.range filesSize).map f.nodes) s.vfs }.setTable t none := by
  have ⟨f, hf, h⟩ := Except.bind_eq_ok.mp h
  exact ⟨f, table_ok hf, (Except.ok.inj h).symm⟩

-- The number of bytes by which a descriptor moves.
def moved (n : BitVec 64) : Int :=
  (n.truncate 32).toInt

theorem filesStructIo_ok {io : Vfs Obj → Node → BitVec 64 → BitVec 64 → Except Fault (BitVec 64)} {bufLen : BitVec 64}
    (h : s.filesStructIo io t fd bufLen = .ok ret) :
    ∃ f g node n, s.tables t = some f ∧ s.tables f.seek = some g ∧ (0 ≤ fd ∧ fd < filesSize) ∧
      f.nodes fd.toNat = some node ∧ io s.vfs node (s.seeks f.seek fd.toNat) bufLen = .ok n ∧
      ret.2 = if 0 < moved n then s.seekTo f.seek fd (s.seeks f.seek fd.toNat + .ofInt 64 (moved n)) else s := by
  have ⟨f, hf, h⟩ := Except.bind_eq_ok.mp h
  have ⟨g, hg, h⟩ := Except.bind_eq_ok.mp h
  have ⟨node, hn, h⟩ := Except.bind_eq_ok.mp h
  have ⟨hb, hn'⟩ := get_ok hn
  cases node
  case none => nomatch h
  case some node =>
    have ⟨n, hi, h⟩ := Except.bind_eq_ok.mp h
    refine ⟨f, g, node, n, table_ok hf, table_ok hg, hb, hn', hi, ?_⟩
    simp only [transfer] at h
    split_ifs at h
    case pos hp =>
      have ⟨s', hs, h⟩ := Except.bind_eq_ok.mp h
      have ⟨_, _, hs⟩ := setSeek_ok hs
      rw [moved, if_pos hp, ← Except.ok.inj h, hs]
    case neg hp =>
      rw [moved, if_neg hp, ← Except.ok.inj h]

end Files
end Zgmos.Fs
