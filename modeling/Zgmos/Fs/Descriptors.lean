import Zgmos.Fs.Files

namespace Zgmos.Fs

variable {Obj : Type}

namespace FilesStruct

variable {f : FilesStruct} {fd : Int}

theorem check_iff : f.check fd ↔ 0 ≤ fd ∧ fd < filesSize ∧ ∃ node, f.nodes fd.toNat = some node := by
  simp [check, Option.isSome_iff_exists]

end FilesStruct

namespace Files

variable (s : Files Obj) (t : Pages) (f : FilesStruct)

-- What the allocation of a descriptor promises. The vnode is one of those in `named`.
def Allocates (lowest : Prop) (named : Node → Prop) (r : Except Fault (Int × Files Obj)) : Prop :=
  ∃ fd s' f', r = .ok (fd, s') ∧ s'.tables t = some f' ∧
    (fd = -1 ∧ f'.nodes = f.nodes ∨
    ∃ i node, fd = (i : Nat) ∧ i < filesSize ∧ f.nodes i = none ∧ (lowest → ∀ j < i, f.nodes j ≠ none) ∧
      named node ∧ f'.nodes = Function.update f.nodes i (some node))

-- The vnode to which a path leads.
def Leads (parent : Option Node) (path : Name) (node : Node) : Prop :=
  ∃ vfs, s.vfs.resolve parent path = .ok (some node, vfs)

-- The path is resolved only if there is a free slot.
def Opens (parent : Option Node) (path : Name) : Prop :=
  f.freeSlot = none ∨ s.vfs.Resolvable parent path

-- The new descriptor is one of the table or there is none.
def Requested (newFd : Int) : Prop :=
  newFd = -1 ∨ 0 ≤ newFd ∧ newFd < filesSize

-- The directory and the rest of the path of `syscall_openat`.
def origin (cwd : Option Node) (dirfd : Int) (path : Name) : Option Node × Name :=
  if path.head? = some slash then (none, path.tail)
  else if dirfd = atFdcwd then (cwd, path)
  else (f.nodes dirfd.toNat, path)

def LeadsAt (cwd : Option Node) (dirfd : Int) (path : Name) (node : Node) : Prop :=
  s.Leads (origin f cwd dirfd path).1 (origin f cwd dirfd path).2 node

-- A path is not relative to a vnode which is no directory.
def OpensAt (cwd : Option Node) (dirfd : Int) (path : Name) : Prop :=
  let opens := s.Opens f (origin f cwd dirfd path).1 (origin f cwd dirfd path).2
  if path.head? = some slash ∨ dirfd = atFdcwd then
    opens
  else
    f.check dirfd → (∀ node ∈ f.nodes dirfd.toNat, (s.vfs.nodes node).type.isDir) ∧ opens

variable {s t f} {parent cwd : Option Node} {path : Name} {oldFd newFd dirfd : Int}

theorem allocates_error {lowest : Prop} {named : Node → Prop} {e : Fault} :
    ¬@Allocates Obj t f lowest named (.error e) := by
  intro ⟨_, _, _, h, _⟩
  nomatch h

theorem allocates_none {lowest : Prop} {named : Node → Prop} (hf : s.tables t = some f) :
    Allocates t f lowest named (.ok (-1, s)) :=
  ⟨-1, s, f, rfl, hf, .inl ⟨rfl, rfl⟩⟩

theorem filesStructAlloc_iff (w : s.vfs.Tree) (hp : ∀ p ∈ parent, p < s.vfs.next) (hf : s.tables t = some f) :
    Allocates t f True (s.Leads parent path) (s.filesStructAlloc t parent path) ↔ s.Opens f parent path := by
  cases hi : f.freeSlot
  case none =>
    have he : s.filesStructAlloc t parent path = .ok (-1, s) := by
      simp only [filesStructAlloc, table_eq hf, bind, Except.bind, hi]
      rfl
    exact iff_of_true (he ▸ allocates_none hf) <| .inl hi
  case some i =>
    have ⟨hl, hn, hm⟩ := FilesStruct.freeSlot_some hi
    by_cases hr : s.vfs.Resolvable parent path
    case neg =>
      have he : s.filesStructAlloc t parent path = .error .outOfBounds := by
        simp only [filesStructAlloc, table_eq hf, bind, Except.bind, hi, Vfs.vfsOpen, Vfs.vfsGetRecursive_error w hp hr]
      exact iff_of_false (he ▸ allocates_error) fun h => h.elim (by simp [hi]) hr
    case pos =>
      refine iff_of_true ?_ <| .inr hr
      have ⟨ret, vfs', hg, hv, h'⟩ := Vfs.vfsGetRecursive_ok w hp hr
      cases ret
      case none =>
        have he : s.filesStructAlloc t parent path = .ok (-1, { s with vfs := vfs' }) := by
          simp only [filesStructAlloc, table_eq hf, bind, Except.bind, hi, Vfs.vfsOpen, hg]
          rfl
        exact he ▸ ⟨-1, _, f, rfl, hf, .inl ⟨rfl, rfl⟩⟩
      case some node =>
        have he : s.filesStructAlloc t parent path =
            .ok (i, setTable { s with vfs := vfs'.vfsReopen node } t <| some
              { f with nodes := Function.update f.nodes i node }) := by
          simp only [filesStructAlloc, table_eq hf, bind, Except.bind, hi, Vfs.vfsOpen, hg]
          rfl
        refine he ▸ ⟨i, _, _, rfl, Function.update_self .., .inr ⟨i, node, rfl, hl, hn, fun _ => hm, ?_, rfl⟩⟩
        exact ⟨vfs', hv⟩

theorem filesStructDup_iff (hf : s.tables t = some f) :
    Allocates t f (newFd = -1) (f.nodes oldFd.toNat = some ·) (s.filesStructDup t oldFd newFd) ↔
      (f.check oldFd → Requested newFd) := by
  by_cases hc : f.check oldFd
  case neg =>
    have he : s.filesStructDup t oldFd newFd = .ok (-1, s) := by
      simp only [filesStructDup, table_eq hf, bind, Except.bind, hc]
      rfl
    exact iff_of_true (he ▸ allocates_none hf) fun h => absurd h hc
  case pos =>
    have ⟨h₀, hl, node, hn⟩ := FilesStruct.check_iff.mp hc
    have hg : f.get oldFd = .ok (some node) := by rw [FilesStruct.get, if_pos ⟨h₀, hl⟩, hn]; rfl
    simp only [filesStructDup, table_eq hf, bind, Except.bind, hc, hg, forall_const, Bool.not_true,
      Bool.false_eq_true, if_false]
    by_cases hr : newFd = -1
    case pos =>
      refine iff_of_true ?_ <| .inl hr
      rw [if_pos hr]
      cases hi : f.freeSlot
      case none   => exact allocates_none hf
      case some i =>
        have ⟨hl, hn', hm⟩ := FilesStruct.freeSlot_some hi
        exact ⟨i, _, _, rfl, Function.update_self .., .inr ⟨i, node, rfl, hl, hn', fun _ => hm, hn, rfl⟩⟩
    case neg =>
      rw [if_neg hr]
      by_cases hb : 0 ≤ newFd ∧ newFd < filesSize
      case neg =>
        refine iff_of_false ?_ fun h => h.elim hr hb
        simp only [FilesStruct.get, if_neg hb]
        exact allocates_error
      case pos =>
        refine iff_of_true ?_ <| .inr hb
        simp only [FilesStruct.get, FilesStruct.set, if_pos hb]
        cases hs : f.nodes newFd.toNat
        case some => exact allocates_none hf
        case none =>
          refine ⟨newFd, _, _, rfl, Function.update_self .., .inr ⟨newFd.toNat, node, ?_, ?_, hs, ?_, hn, rfl⟩⟩
          case refine_1 => omega
          case refine_2 => omega
          case refine_3 => exact fun h => absurd h hr

theorem syscallOpenat_iff (w : s.vfs.Tree) (hc : ∀ p ∈ cwd, p < s.vfs.next) (hf : s.tables t = some f)
    (hn : ∀ i < filesSize, ∀ node ∈ f.nodes i, node < s.vfs.next) :
    Allocates t f True (s.LeadsAt f cwd dirfd path) (s.syscallOpenat t cwd dirfd path) ↔
      s.OpensAt f cwd dirfd path := by
  unfold LeadsAt OpensAt origin syscallOpenat
  by_cases hs : path.head? = some slash
  case pos =>
    simp only [hs, if_true, true_or]
    exact filesStructAlloc_iff w (by simp) hf
  by_cases hd : dirfd = atFdcwd
  case pos =>
    simp only [hs, hd, if_true, if_false, or_true]
    exact filesStructAlloc_iff w hc hf
  simp only [hs, hd, if_false, or_self, table_eq hf, bind, Except.bind]
  by_cases hk : f.check dirfd
  case neg =>
    simp only [hk, Bool.false_eq_true, if_false]
    exact iff_of_true (allocates_none hf) fun h => nomatch h
  have ⟨h₀, hl, node, he⟩ := FilesStruct.check_iff.mp hk
  have hg : f.get dirfd = .ok (some node) := by rw [FilesStruct.get, if_pos ⟨h₀, hl⟩, he]; rfl
  simp only [hk, if_true, hg, he, forall_const, Option.mem_def, Option.some.injEq, forall_eq']
  by_cases hi : (s.vfs.nodes node).type.isDir
  case pos =>
    simp only [hi, Bool.not_true, Bool.false_eq_true, if_false, true_and]
    refine filesStructAlloc_iff w (fun p hp => ?_) hf
    cases hp
    exact hn _ (by omega) node he
  case neg =>
    simp only [hi, Bool.not_false, if_true]
    refine iff_of_false ?_ fun h => nomatch h.1
    intro ⟨fd, s', f', hr, ht, h⟩
    cases hr
    rw [hf] at ht
    cases ht
    -- The descriptor 1 is returned but no slot changes.
    cases h
    case inl h => exact absurd h.1 (by decide)
    case inr h =>
      have ⟨i, node, _, _, hnone, _, _, hu⟩ := h
      have := congrFun hu i
      rw [hnone, Function.update_self] at this
      nomatch this

-- The three ways to get a descriptor.
theorem allocates_iff (w : s.vfs.Tree) (hp : ∀ p ∈ parent, p < s.vfs.next) (hc : ∀ p ∈ cwd, p < s.vfs.next)
    (hf : s.tables t = some f) (hn : ∀ i < filesSize, ∀ node ∈ f.nodes i, node < s.vfs.next) :
    (Allocates t f True (s.LeadsAt f cwd dirfd path) (s.syscallOpenat t cwd dirfd path) ↔
      s.OpensAt f cwd dirfd path) ∧
    (Allocates t f True (s.Leads parent path) (s.filesStructAlloc t parent path) ↔ s.Opens f parent path) ∧
    (Allocates t f (newFd = -1) (f.nodes oldFd.toNat = some ·) (s.filesStructDup t oldFd newFd) ↔
      (f.check oldFd → Requested newFd)) :=
  ⟨syscallOpenat_iff w hc hf hn, filesStructAlloc_iff w hp hf, filesStructDup_iff hf⟩

end Files

-- The vnode 1 is a file.
def fileVfs : Vfs Nat :=
  { sampleVfs with next := 2, nodes := Function.update sampleVfs.nodes 1 { sampleVfs.nodes 1 with type := .file } }

def sampleTable : FilesStruct where
  nodes := Function.update (fun _ => none) 0 (some 1)
  seek  := 0

-- The descriptor 0 belongs to the file.
def sampleFiles : Files Nat where
  vfs    := fileVfs
  tables := Function.update (fun _ => none) 0 (some sampleTable)
  seeks  := fun _ _ => 0

theorem fileVfs_tree : fileVfs.Tree := by
  have h (i : Nat) : fileVfs.nodes i = sampleVfs.nodes i ∨ fileVfs.nodes i = { sampleVfs.nodes 1 with type := .file } := by
    by_cases hi : i = 1
    case pos => subst hi; exact .inr rfl
    case neg => exact .inl <| Function.update_of_ne hi ..
  constructor
  case root     => decide
  case parent   => intro i _; cases h i <;> simp_all [sampleVfs, fileVfs]
  case children => intro i _ c hc; cases h i <;> simp_all [sampleVfs]
  case backed   =>
    intro i hi hd hs
    cases h i
    case inl he => exact ⟨sampleBackend, by rw [he]; rfl, fun _ _ _ => ⟨_, rfl⟩⟩
    case inr he => simp [he, VnodeType.isDir] at hd

theorem sampleTable_nodes : ∀ i < filesSize, ∀ node ∈ sampleTable.nodes i, node < fileVfs.next := by
  intro i _ node hm
  by_cases hi : i = 0
  case pos => simp_all [sampleTable, fileVfs]
  case neg => simp [sampleTable, hi] at hm

-- The path `/d`, and the descriptor 0 a second time.
theorem sampleFiles_allocates :
    Files.Allocates 0 sampleTable True (sampleFiles.LeadsAt sampleTable none 0 [0x2f, 0x64])
      (sampleFiles.syscallOpenat 0 none 0 [0x2f, 0x64]) ∧
    Files.Allocates 0 sampleTable ((7 : Int) = -1) (sampleTable.nodes (0 : Int).toNat = some ·)
      (sampleFiles.filesStructDup 0 0 7) := by
  have ht : sampleFiles.tables 0 = some sampleTable := rfl
  have hr : sampleFiles.vfs.Resolvable none [0x64] := ⟨by simp, by decide, fun h => absurd h (by decide)⟩
  have h := @Files.allocates_iff Nat sampleFiles 0 sampleTable none none [0x2f, 0x64] 0 7 0 fileVfs_tree (by simp)
    (by simp) ht sampleTable_nodes
  exact ⟨h.1.mpr <| .inr hr, h.2.2.mpr fun _ => .inr ⟨by decide, by decide⟩⟩

-- A descriptor of a file is used as a directory, and a new descriptor is too large.
theorem sampleFiles_not_allocates :
    ¬Files.Allocates 0 sampleTable True (sampleFiles.LeadsAt sampleTable none 0 [0x64])
      (sampleFiles.syscallOpenat 0 none 0 [0x64]) ∧
    ¬Files.Allocates 0 sampleTable ((512 : Int) = -1) (sampleTable.nodes (0 : Int).toNat = some ·)
      (sampleFiles.filesStructDup 0 0 512) := by
  constructor
  case left =>
    intro ⟨fd, s', f', hr, ht, h⟩
    have he : sampleFiles.syscallOpenat 0 none 0 [0x64] = .ok (1, sampleFiles) := rfl
    cases he.symm.trans hr
    have hf : sampleTable = f' := Option.some.inj ht
    cases h
    case inl h => exact absurd h.1 (by decide)
    case inr h =>
      have ⟨i, node, hi, _, _, _, _, hu⟩ := h
      have hn : f'.nodes i = some node := by rw [hu, Function.update_self]
      have : i = 1 := by omega
      rw [← hf, this] at hn
      have : sampleTable.nodes 1 = none := rfl
      simp [this] at hn
  case right =>
    have he : sampleFiles.filesStructDup 0 0 512 = .error .outOfBounds := rfl
    exact he ▸ Files.allocates_error

end Zgmos.Fs
