import Zgmos.Fs.Tree
import Zgmos.Kernel.Utils

-- The resolution of paths.

namespace Zgmos.Fs

variable {Obj : Type}

def slash : BitVec 8 :=
  0x2f

namespace Vfs

-- The loop of `vfs_get_recursive`, which ends with `p` and `ret`. The rest of the path begins at `s`.
def follow (vfs : Vfs Obj) (p : Node) (path : Name) : Except Fault (Option Node × Option Node × Vfs Obj) :=
  if path = [] then
    return (some p, none, vfs)
  else
    match _ : path.dropWhile (· ≠ slash) with
    | []         => do
      let (ret, vfs) ← vfs.vfsGet (some p) path
      return (some p, ret, vfs)
    | _ :: path' => do
      match ← vfs.vfsGet (some p) <| path.takeWhile (· ≠ slash) with
      | (none, vfs)   => return (none, none, vfs)
      | (some p, vfs) => vfs.follow p path'
termination_by path.length
decreasing_by
  have := (path.dropWhile_suffix (· ≠ slash)).length_le
  simp_all

-- The path is copied to an object of `kmalloc`. The last character is read at `len - 1`.
def vfsGetRecursive (vfs : Vfs Obj) (parent : Option Node) (path : Name) :
    Except Fault (Option Node × Vfs Obj) := do
  if kmallocMax < path.length + 1 then throw .outOfBounds
  let (p, ret, vfs) ← vfs.follow (parent.getD root) path
  match path.getLast? with
  | none   => throw .outOfBounds
  | some c =>
    if c = slash then
      match p with
      | none   => throw .outOfBounds
      | some p => return (if (vfs.nodes p).type.isDir then some p else ret, vfs)
    else
      return (ret, vfs)

def descend : Option Node × Vfs Obj → Name → Except Fault (Option Node × Vfs Obj)
  | (none, vfs),   _    => return (none, vfs)
  | (some p, vfs), name => vfs.vfsGet (some p) name

-- The fold of `vfs_get` over the components.
def reach (vfs : Vfs Obj) (parent : Option Node) (names : List Name) : Except Fault (Option Node × Vfs Obj) :=
  names.foldlM descend (some <| parent.getD root, vfs)

-- What a path means. An empty component at its end is the directory reached so far.
def resolve (vfs : Vfs Obj) (parent : Option Node) (path : Name) : Except Fault (Option Node × Vfs Obj) :=
  let names := path.splitOn slash
  if names.getLast? = some [] then do
    let (p, vfs) ← vfs.reach parent names.dropLast
    return (p.filter fun p => (vfs.nodes p).type.isDir, vfs)
  else
    vfs.reach parent names

-- There are no accesses outside of the path or through a null pointer, and the result is the right one.
def Resolves (vfs : Vfs Obj) (parent : Option Node) (path : Name) : Prop :=
  ∃ ret vfs', vfs.vfsGetRecursive parent path = .ok (ret, vfs') ∧
    (path ≠ [] → vfs.resolve parent path = .ok (ret, vfs'))

-- All components before a slash at the end are there, and all but the last of them are directories.
def Complete (vfs : Vfs Obj) (parent : Option Node) (path : Name) : Prop :=
  path.getLast? = some slash →
    ∃ p vfs', vfs.reach parent (path.splitOn slash).dropLast = .ok (some p, vfs')

-- The copy of the path is not empty and fits into an object of `kmalloc`.
def Resolvable (vfs : Vfs Obj) (parent : Option Node) (path : Name) : Prop :=
  path ≠ [] ∧ path.length < kmallocMax ∧ vfs.Complete parent path

variable {vfs : Vfs Obj} {p : Node} {parent : Option Node} {path : Name}

theorem reach_none {vfs : Vfs Obj} {names : List Name} : names.foldlM descend (none, vfs) = .ok (none, vfs) := by
  induction names
  case nil          => rfl
  case cons _ _ hi  => exact hi

-- A path is a component or begins with a component and a slash.
theorem path_induction {motive : Name → Prop} (last : ∀ c, slash ∉ c → motive c)
    (next : ∀ c path, slash ∉ c → motive path → motive (c ++ slash :: path)) (path : Name) : motive path := by
  induction hl : path.length using Nat.strongRecOn generalizing path
  case ind n hi =>
    have hc : slash ∉ path.takeWhile (· ≠ slash) := fun h => by simpa using List.mem_takeWhile_imp h
    have he := path.takeWhile_append_dropWhile (p := (· ≠ slash))
    cases hd : path.dropWhile (· ≠ slash)
    case nil =>
      rw [hd, List.append_nil] at he
      exact last path <| he ▸ hc
    case cons c path' =>
      have : c = slash := by
        have := List.head?_dropWhile_not (· ≠ slash) path
        rw [hd] at this
        simpa using this
      rw [hd, this] at he
      rw [← he]
      refine next _ _ hc <| hi _ ?_ _ rfl
      rw [← hl, ← he, List.length_append, List.length_cons]
      omega

section Component

variable {c : Name} (hc : slash ∉ c)

include hc

theorem takeWhile_slash : (c ++ slash :: path).takeWhile (· ≠ slash) = c := by
  rw [List.takeWhile_append_of_pos fun a ha => by simpa using ne_of_mem_of_not_mem ha hc]
  simp

theorem dropWhile_slash : (c ++ slash :: path).dropWhile (· ≠ slash) = slash :: path := by
  rw [List.dropWhile_append_of_pos fun a ha => by simpa using ne_of_mem_of_not_mem ha hc]
  simp

theorem dropWhile_component : c.dropWhile (· ≠ slash) = [] :=
  List.dropWhile_eq_nil_iff.mpr fun a ha => by simpa using ne_of_mem_of_not_mem ha hc

omit hc in
theorem follow_nil : vfs.follow p [] = .ok (some p, none, vfs) := by
  rw [follow, if_pos rfl]
  rfl

theorem follow_component (hn : c ≠ []) : vfs.follow p c = (do
    let (ret, vfs) ← vfs.vfsGet (some p) c
    return (some p, ret, vfs)) := by
  unfold follow
  rw [if_neg hn]
  split
  case h_1 => rfl
  case h_2 he => rw [dropWhile_component hc] at he; nomatch he

theorem follow_slash : vfs.follow p (c ++ slash :: path) = (do
    match ← vfs.vfsGet (some p) c with
    | (none, vfs)   => return (none, none, vfs)
    | (some p, vfs) => vfs.follow p path) := by
  conv => lhs; unfold follow
  rw [if_neg (by simp)]
  split
  case h_1 he => rw [dropWhile_slash hc] at he; nomatch he
  case h_2 he =>
    rw [dropWhile_slash hc] at he
    cases he
    rw [takeWhile_slash hc]

end Component

theorem splitOn_getLast?_slash {c : Name} (hc : slash ∉ c) :
    ((c ++ slash :: path).splitOn slash).getLast? = (path.splitOn slash).getLast? := by
  rw [List.splitOn_append_cons_self_of_not_mem hc]
  cases hs : path.splitOn slash
  case nil  => exact absurd hs <| List.splitOn_ne_nil _ _
  case cons => rfl

theorem splitOn_dropLast_slash {c : Name} (hc : slash ∉ c) :
    ((c ++ slash :: path).splitOn slash).dropLast = c :: (path.splitOn slash).dropLast := by
  rw [List.splitOn_append_cons_self_of_not_mem hc, List.dropLast_cons_of_ne_nil <| List.splitOn_ne_nil _ _]

-- The last component is empty.
theorem splitOn_getLast? : (path.splitOn slash).getLast? = some [] ↔ path = [] ∨ path.getLast? = some slash := by
  induction path using path_induction
  case last c hc =>
    have : c.getLast? ≠ some slash := fun h => hc <| List.mem_of_getLast? h
    simp [List.splitOn_eq_singleton hc, this]
  case next c path hc hi =>
    rw [splitOn_getLast?_slash hc, hi]
    cases path <;> simp

-- If the path ends with a slash, the loop ends with the directory reached so far.
theorem follow_of_slash (h : (path.splitOn slash).getLast? = some []) : vfs.follow p path = (do
    let (p, vfs) ← (path.splitOn slash).dropLast.foldlM descend (some p, vfs)
    return (p, none, vfs)) := by
  induction path using path_induction generalizing vfs p
  case last c hc =>
    rw [List.splitOn_eq_singleton hc] at h ⊢
    have hn : c = [] := by simpa using h
    rw [hn, follow_nil]
    rfl
  case next c path hc hi =>
    rw [splitOn_getLast?_slash hc] at h
    rw [follow_slash hc, splitOn_dropLast_slash hc, List.foldlM_cons, descend]
    cases vfs.vfsGet (some p) c
    case error => rfl
    case ok r =>
      have ⟨q, vfs'⟩ := r
      cases q
      case none   => simp only [bind, Except.bind, reach_none]
      case some q => exact hi h

theorem follow_of_not_slash (h : (path.splitOn slash).getLast? ≠ some []) :
    (vfs.follow p path).map (·.2) = (path.splitOn slash).foldlM descend (some p, vfs) := by
  induction path using path_induction generalizing vfs p
  case last c hc =>
    rw [List.splitOn_eq_singleton hc] at h ⊢
    have hn : c ≠ [] := by simpa using h
    rw [follow_component hc hn, List.foldlM_cons, descend]
    cases vfs.vfsGet (some p) c <;> rfl
  case next c path hc hi =>
    rw [splitOn_getLast?_slash hc] at h
    rw [follow_slash hc, List.splitOn_append_cons_self_of_not_mem hc, List.foldlM_cons, descend]
    cases vfs.vfsGet (some p) c
    case error => rfl
    case ok r =>
      have ⟨q, vfs'⟩ := r
      cases q
      case none   => exact reach_none.symm
      case some q => exact hi h

theorem Tree.reach (t : vfs.Tree) (names : List Name) (hp : ∀ p ∈ parent, p < vfs.next) :
    ∃ ret vfs', vfs.reach parent names = .ok (ret, vfs') ∧ vfs'.Tree ∧ (∀ r ∈ ret, r < vfs'.next) ∧
      vfs.Extends vfs' := by
  have h {q : Option Node} (hq : ∀ p ∈ q, p < vfs.next) : ∃ ret vfs', names.foldlM descend (q, vfs) =
      .ok (ret, vfs') ∧ vfs'.Tree ∧ (∀ r ∈ ret, r < vfs'.next) ∧ vfs.Extends vfs' := by
    clear hp
    induction names generalizing vfs q
    case nil => exact ⟨q, vfs, rfl, t, hq, .refl⟩
    case cons c names hi =>
      rw [List.foldlM_cons]
      cases q
      case none   => exact hi t hq
      case some q =>
        have ⟨ret, vfs₁, he, t₁, h₁, e₁⟩ := t.vfsGet c hq
        have ⟨ret', vfs₂, he', t₂, h₂, e₂⟩ := hi t₁ h₁
        exact ⟨ret', vfs₂, by rw [descend, he]; exact he', t₂, h₂, e₁.trans e₂⟩
  refine h fun p hm => ?_
  cases hm
  cases parent
  case none   => exact t.root
  case some p => exact hp p rfl

section Last

variable {vfs' : Vfs Obj} {q : Option Node} {c : BitVec 8}

theorem vfsGetRecursive_slash (hl : path.length < kmallocMax) (h : path.getLast? = some slash)
    (hr : vfs.reach parent (path.splitOn slash).dropLast = .ok (q, vfs')) : vfs.vfsGetRecursive parent path =
      q.elim (.error .outOfBounds) fun p => .ok (if (vfs'.nodes p).type.isDir then some p else none, vfs') := by
  have hf : vfs.follow (parent.getD root) path = .ok (q, none, vfs') := by
    rw [follow_of_slash <| splitOn_getLast?.mpr <| .inr h]
    exact congrArg (· >>= _) hr
  rw [vfsGetRecursive, if_neg <| Nat.not_lt.mpr hl, hf, h]
  cases q <;> rfl

theorem vfsGetRecursive_not_slash (hl : path.length < kmallocMax) (h : path.getLast? = some c) (hc : c ≠ slash)
    (hr : vfs.reach parent (path.splitOn slash) = .ok (q, vfs')) :
    vfs.vfsGetRecursive parent path = .ok (q, vfs') := by
  have he : (path.splitOn slash).getLast? ≠ some [] := fun he => by
    cases splitOn_getLast?.mp he
    case inl hn => simp [hn] at h
    case inr hs => exact hc <| Option.some.inj <| h.symm.trans hs
  have hf : (vfs.follow (parent.getD root) path).map (·.2) = .ok (q, vfs') := (follow_of_not_slash he).trans hr
  rw [vfsGetRecursive, if_neg <| Nat.not_lt.mpr hl, h]
  cases hp : vfs.follow (parent.getD root) path
  case error => rw [hp] at hf; nomatch hf
  case ok r =>
    rw [hp] at hf
    have ⟨p, _, _⟩ := r
    cases hf
    simp [bind, Except.bind, hc, pure, Except.pure]

end Last

theorem vfsGetRecursive_ok (t : vfs.Tree) (hp : ∀ p ∈ parent, p < vfs.next) (h : vfs.Resolvable parent path) :
    ∃ ret vfs', vfs.vfsGetRecursive parent path = .ok (ret, vfs') ∧
      vfs.resolve parent path = .ok (ret, vfs') ∧ vfs'.Tree ∧ (∀ r ∈ ret, r < vfs'.next) ∧ vfs.Extends vfs' := by
  have ⟨hn, hl, hm⟩ := h
  cases hc : path.getLast?
  case none => exact absurd (List.getLast?_eq_none_iff.mp hc) hn
  case some c =>
    by_cases hs : c = slash
    case pos =>
      rw [hs] at hc
      have ⟨q, vfs', hr⟩ := hm hc
      have ⟨_, _, hr', t', hq, e⟩ := t.reach (path.splitOn slash).dropLast hp
      cases hr.symm.trans hr'
      have hv : vfs.resolve parent path = .ok ((some q).filter fun p => (vfs'.nodes p).type.isDir, vfs') := by
        rw [resolve, if_pos <| splitOn_getLast?.mpr <| .inr hc, hr]
        rfl
      have hg : vfs.vfsGetRecursive parent path = .ok ((some q).filter fun p => (vfs'.nodes p).type.isDir, vfs') := by
        rw [vfsGetRecursive_slash hl hc hr, Option.elim_some, Option.filter_some]
      refine ⟨_, _, hg, hv, t', fun r hr => hq r ?_, e⟩
      exact (Option.mem_filter_iff.mp hr).1
    case neg =>
      have he : (path.splitOn slash).getLast? ≠ some [] := fun h => by
        have := (splitOn_getLast?.mp h).resolve_left hn
        exact hs <| Option.some.inj <| hc.symm.trans this
      have ⟨q, vfs', hr, t', hq, e⟩ := t.reach (path.splitOn slash) hp
      exact ⟨q, vfs', vfsGetRecursive_not_slash hl hc hs hr, by rw [resolve, if_neg he, hr], t', hq, e⟩

theorem vfsGetRecursive_error (t : vfs.Tree) (hp : ∀ p ∈ parent, p < vfs.next) (h : ¬vfs.Resolvable parent path) :
    vfs.vfsGetRecursive parent path = .error .outOfBounds := by
  by_cases hl : path.length < kmallocMax
  case neg =>
    rw [vfsGetRecursive, if_pos <| Nat.lt_succ_of_le <| Nat.not_lt.mp hl]
    rfl
  by_cases hn : path = []
  case pos =>
    rw [vfsGetRecursive, if_neg <| Nat.not_lt.mpr hl, hn, follow_nil]
    rfl
  have hm : ¬vfs.Complete parent path := fun hm => h ⟨hn, hl, hm⟩
  simp only [Complete, Classical.not_imp] at hm
  have ⟨q, vfs', hr, _⟩ := t.reach (path.splitOn slash).dropLast hp
  rw [vfsGetRecursive_slash hl hm.1 hr]
  cases q
  case none   => rfl
  case some   => exact absurd ⟨_, vfs', hr⟩ hm.2

theorem resolves_iff_resolvable (t : vfs.Tree) (hp : ∀ p ∈ parent, p < vfs.next) :
    vfs.Resolves parent path ↔ vfs.Resolvable parent path := by
  constructor
  case mp =>
    intro ⟨ret, vfs', hg, _⟩
    by_contra h
    rw [vfsGetRecursive_error t hp h] at hg
    nomatch hg
  case mpr =>
    intro h
    have ⟨ret, vfs', hg, hv, _⟩ := vfsGetRecursive_ok t hp h
    exact ⟨ret, vfs', hg, fun _ => hv⟩

end Vfs

-- A directory `d` in the root directory.
def sampleBackend : Backend Nat where
  iterate obj := .ok <| if obj = 0 then [1] else []
  size _      := 0
  name _      := [0x64]
  type _      := .dir
  read _ _ _  := 0
  write _ _ _ := 0

def sampleVfs : Vfs Nat where
  nodes _ := {
    refCnt   := 0
    parent   := 0
    children := []
    childCnt := -1
    size     := 0
    type     := .mp
    name     := []
    lfsObj   := 0
    bkd      := some sampleBackend
  }
  next := 1

theorem sampleVfs_tree : sampleVfs.Tree where
  root     := Nat.one_pos
  parent   := fun _ _ => Nat.one_pos
  children := fun _ _ _ h => nomatch h
  backed   := fun _ _ _ _ => ⟨sampleBackend, rfl, fun _ _ _ => ⟨_, rfl⟩⟩

-- The path `d/`.
theorem sampleVfs_resolves : sampleVfs.Resolves none [0x64, 0x2f] :=
  (Vfs.resolves_iff_resolvable sampleVfs_tree <| by simp).mpr ⟨by simp, by decide, fun _ => ⟨1, _, rfl⟩⟩

-- The empty path and the path `x/`.
theorem sampleVfs_not_resolves : ¬sampleVfs.Resolves none [] ∧ ¬sampleVfs.Resolves none [0x78, 0x2f] := by
  constructor
  case left  => exact fun h => ((Vfs.resolves_iff_resolvable sampleVfs_tree <| by simp).mp h).1 rfl
  case right =>
    intro h
    have ⟨_, _, hr⟩ := ((Vfs.resolves_iff_resolvable sampleVfs_tree <| by simp).mp h).2.2 rfl
    nomatch hr

end Zgmos.Fs
