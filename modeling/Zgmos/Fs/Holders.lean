import Zgmos.Fs.Calls
import Zgmos.Lib.Tally

-- The reference counts of the vnodes.

namespace Zgmos.Fs

variable {Obj : Type}

namespace Vfs

-- Nothing but reference counts changes.
structure Recounts (vfs vfs' : Vfs Obj) : Prop where
  next  : vfs'.next = vfs.next
  nodes : ∀ i, ∃ n, vfs'.nodes i = { vfs.nodes i with refCnt := n }

variable {vfs vfs' : Vfs Obj} {node i : Nat} {parent ret : Option Node} {path : Name}

theorem Recounts.refl : vfs.Recounts vfs where
  next    := rfl
  nodes _ := ⟨_, rfl⟩

theorem Recounts.trans {vfs'' : Vfs Obj} (h : vfs.Recounts vfs') (h' : vfs'.Recounts vfs'') :
    vfs.Recounts vfs'' where
  next    := h'.next.trans h.next
  nodes i := by
    have ⟨_, hn⟩ := h.nodes i
    have ⟨n, hn'⟩ := h'.nodes i
    exact ⟨n, by rw [hn', hn]⟩

theorem recounts_setNode (g : BitVec 64 → BitVec 64) :
    vfs.Recounts (vfs.setNode node fun n => { n with refCnt := g n.refCnt }) where
  next    := rfl
  nodes i := by
    by_cases hi : i = node
    case pos => subst hi; exact ⟨_, Function.update_self ..⟩
    case neg => exact ⟨_, Function.update_of_ne hi ..⟩

theorem refCnt_vfsReopen : ((vfs.vfsReopen node).nodes i).refCnt =
    (vfs.nodes i).refCnt + .ofNat 64 (if some node = some i then 1 else 0) := by
  by_cases hi : i = node
  case pos => simp [vfsReopen, setNode, hi]
  case neg => simp [vfsReopen, setNode, hi, Ne.symm hi]

theorem refCnt_vfsClose : ((vfs.vfsClose node).nodes i).refCnt +
    .ofNat 64 (if some node = some i then 1 else 0) = (vfs.nodes i).refCnt := by
  by_cases hi : i = node
  case pos => simp [vfsClose, setNode, hi]
  case neg => simp [vfsClose, setNode, hi, Ne.symm hi]

theorem Tree.recounts (t : vfs.Tree) (h : vfs.Recounts vfs') : vfs'.Tree := by
  constructor
  case root => exact h.next ▸ t.root
  all_goals
    intro i hi
    have ⟨_, hn⟩ := h.nodes i
    rw [h.next] at hi
  case parent   => rw [hn, h.next]; exact t.parent i hi
  case children => rw [hn, h.next]; exact t.children i hi
  case backed   =>
    have := t.backed i hi
    rwa [isSpaned, hn]

-- What opening a path does to the tree and to the counts.
theorem Tree.vfsOpen (t : vfs.Tree) (hp : ∀ p ∈ parent, p < vfs.next) (h : vfs.vfsOpen parent path = .ok (ret, vfs')) :
    vfs'.Tree ∧ vfs.next ≤ vfs'.next ∧ (∀ r ∈ ret, r < vfs'.next) ∧
      ∀ i, (vfs'.nodes i).refCnt = (vfs.nodes i).refCnt + .ofNat 64 (if ret = some i then 1 else 0) := by
  have ⟨⟨ret', vfs₁⟩, hg, h⟩ := Except.bind_eq_ok.mp h
  have hr : vfs.Resolvable parent path := by
    by_contra hr
    rw [vfsGetRecursive_error t hp hr] at hg
    nomatch hg
  have ⟨_, _, hg', hv, t₁, hn, e⟩ := vfsGetRecursive_ok t hp hr
  cases hg.symm.trans hg'
  clear hg hg' hv
  cases ret'
  case none =>
    cases h
    exact ⟨t₁, e.next, by simp, fun i => by simp [e.refs i]⟩
  case some node =>
    cases h
    have hc : vfs₁.Recounts (vfs₁.vfsReopen node) := recounts_setNode (· + 1)
    exact ⟨t₁.recounts hc, e.next, hn, fun i => by rw [refCnt_vfsReopen, e.refs i]⟩

theorem recounts_closeAll {nodes : List (Option Node)} : vfs.Recounts (Files.closeAll nodes vfs) := by
  induction nodes generalizing vfs
  case nil => exact .refl
  case cons node nodes hi =>
    cases node
    case none      => exact hi
    case some node => exact (recounts_setNode (· - 1)).trans hi

theorem refCnt_closeAll {nodes : List (Option Node)} :
    ((Files.closeAll nodes vfs).nodes i).refCnt + .ofNat 64 (nodes.count (some i)) = (vfs.nodes i).refCnt := by
  induction nodes generalizing vfs
  case nil => exact BitVec.add_zero _
  case cons node nodes hi =>
    cases node
    case none      => rw [List.count_cons_of_ne (by simp)]; exact hi
    case some node =>
      have hc : (some node :: nodes).count (some i) = nodes.count (some i) + if some node = some i then 1 else 0 := by
        simp [List.count_cons]
      rw [hc, BitVec.ofNat_add, ← BitVec.add_assoc]
      exact (congrArg (· + _) hi).trans refCnt_vfsClose

end Vfs

-- The number of slots that hold a vnode.

def FilesStruct.count (f : FilesStruct) (node : Node) : Nat :=
  tally (Finset.range filesSize) f.nodes node

namespace Files

def holders (s : Files Obj) (node : Node) : Nat :=
  ∑ t, (s.tables t).elim 0 (·.count node)

-- The references which no slot accounts for.
def excess (s : Files Obj) (node : Node) : BitVec 64 :=
  (s.vfs.nodes node).refCnt - .ofNat 64 (s.holders node)

-- The reference counts are right.
def Counted (s : Files Obj) : Prop :=
  ∀ i < s.vfs.next, (s.vfs.nodes i).refCnt.toNat = s.holders i

structure Linked (s : Files Obj) : Prop where
  tree  : s.vfs.Tree
  slots : ∀ t f, s.tables t = some f → ∀ i < filesSize, ∀ node ∈ f.nodes i, node < s.vfs.next

-- What most calls do.
structure Keeps (s s' : Files Obj) : Prop where
  linked : s'.Linked
  next   : s.vfs.next ≤ s'.vfs.next
  excess : ∀ i, s'.excess i = s.excess i

-- The slots which a call copies without counting them.
def copied (s : Files Obj) (call : Call) (node : Node) : Nat :=
  match call with
  | .clone t _ => (s.tables t).elim 0 (·.count node)
  | _          => 0

-- The memory of a new vnode happens to hold a zero, and the tables that are cloned have no vnodes.
structure Fair (s : Files Obj) (call : Call) (s' : Files Obj) : Prop where
  zeroed : ∀ i, s.vfs.next ≤ i → i < s'.vfs.next → (s.vfs.nodes i).refCnt = 0
  empty  : ∀ t pages f, call = .clone t pages → s.tables t = some f → ∀ i < filesSize, f.nodes i = none

variable {s s' : Files Obj} {t : Pages} {f : FilesStruct} {parent node : Option Node} {path : Name} {fd : Int}
  {ret : Int × Files Obj} {i k : Nat} {call : Call}

theorem count_le : f.count k ≤ filesSize := by
  have h : f.count k ≤ (Finset.range filesSize).card := tally_le
  rwa [Finset.card_range] at h

theorem count_eq_zero : f.count k = 0 ↔ ∀ i < filesSize, f.nodes i ≠ some k := by
  rw [FilesStruct.count, tally_eq_zero]
  simp only [Finset.mem_range]

theorem holders_lt : s.holders k < 2 ^ 64 := by
  have hf (t : Pages) : (s.tables t).elim 0 (·.count k) ≤ filesSize := by
    cases s.tables t
    case none   => exact Nat.zero_le _
    case some f => rw [Option.elim_some]; exact count_le
  have h : s.holders k ≤ ∑ _ : Pages, filesSize := Finset.sum_le_sum fun t _ => hf t
  simp only [Finset.sum_const, Finset.card_univ, Fintype.card_fin, smul_eq_mul, filesSize] at h
  omega

theorem holders_congr (h : s'.tables = s.tables) : s'.holders k = s.holders k := by
  rw [holders, holders, h]

theorem holders_setTable {f : Option FilesStruct} :
    (s.setTable t f).holders k + (s.tables t).elim 0 (·.count k) = s.holders k + f.elim 0 (·.count k) := by
  have h : (fun p => ((s.setTable t f).tables p).elim 0 (·.count k)) =
      Function.update (fun p => (s.tables p).elim 0 (·.count k)) t (f.elim 0 (·.count k)) :=
    Function.comp_update (fun g : Option FilesStruct => g.elim 0 (·.count k)) s.tables t f
  rw [holders, h]
  exact sum_update_add <| Finset.mem_univ t

theorem holders_take (hf : s.tables t = some f) (hi : i < filesSize) :
    (s.take t f i node).holders k + (if f.nodes i = some k then 1 else 0) =
      s.holders k + if node = some k then 1 else 0 := by
  have h₁ := holders_setTable (s := s) (t := t) (k := k) (f := some { f with nodes := Function.update f.nodes i node })
  have h₂ := tally_update (f := f.nodes) (x := node) (v := k) <| Finset.mem_range.mpr hi
  rw [hf] at h₁
  simp only [Option.elim_some, FilesStruct.count] at h₁
  simp only [take]
  omega

-- No slot holds a vnode which is not there yet.
theorem Linked.holders_eq_zero (w : s.Linked) (hi : s.vfs.next ≤ i) : s.holders i = 0 := by
  refine Finset.sum_eq_zero fun t _ => ?_
  cases ht : s.tables t
  case none   => rfl
  case some f =>
    rw [Option.elim_some, count_eq_zero]
    exact fun j hj he => absurd (w.slots t f ht j hj i he) hi.not_gt

attribute [irreducible] holders

theorem excess_eq {m n : Nat}
    (hr : (s'.vfs.nodes k).refCnt + .ofNat 64 m = (s.vfs.nodes k).refCnt + .ofNat 64 n)
    (hh : s'.holders k + m = s.holders k + n) : s'.excess k = s.excess k := by
  have := congrArg (BitVec.ofNat 64) hh
  rw [BitVec.ofNat_add, BitVec.ofNat_add] at this
  unfold excess
  linear_combination hr - this

theorem excess_congr (hr : (s'.vfs.nodes k).refCnt = (s.vfs.nodes k).refCnt) (ht : s'.tables = s.tables) :
    s'.excess k = s.excess k := by
  rw [excess, excess, hr, holders_congr ht]

theorem counted_iff : s.Counted ↔ ∀ i < s.vfs.next, s.excess i = 0 := by
  refine forall₂_congr fun i _ => ?_
  rw [excess, sub_eq_zero, BitVec.toNat_eq, BitVec.toNat_ofNat, Nat.mod_eq_of_lt holders_lt]

theorem Keeps.refl (w : s.Linked) : s.Keeps s where
  linked := w
  next   := Nat.le_refl _
  excess := fun _ => rfl

theorem Keeps.trans {s'' : Files Obj} (h : s.Keeps s') (h' : s'.Keeps s'') : s.Keeps s'' where
  linked := h'.linked
  next   := h.next.trans h'.next
  excess := fun i => (h'.excess i).trans (h.excess i)

-- A slot and the count of a vnode change together.
theorem Linked.take (w : s.Linked) (ht : s'.tables = s.tables) (hf : s.tables t = some f) (hi : i < filesSize)
    (hT : s'.vfs.Tree) (hn : s.vfs.next ≤ s'.vfs.next) (hv : ∀ v ∈ node, v < s'.vfs.next)
    (hr : ∀ k, (s'.vfs.nodes k).refCnt + .ofNat 64 (if f.nodes i = some k then 1 else 0) =
      (s.vfs.nodes k).refCnt + .ofNat 64 (if node = some k then 1 else 0)) :
    s.Keeps (s'.take t f i node) where
  linked := by
    refine ⟨hT, fun p g hp j hj v hm => ?_⟩
    by_cases hpt : p = t
    case pos =>
      subst hpt
      cases (Function.update_self ..).symm.trans hp
      by_cases hji : j = i
      case pos =>
        subst hji
        simp only [Function.update_self] at hm
        exact hv v hm
      case neg =>
        simp only [Function.update_of_ne hji] at hm
        exact (w.slots p f hf j hj v hm).trans_le hn
    case neg =>
      have hg : s.tables p = some g := by
        rw [← ht, ← hp]
        exact (Function.update_of_ne hpt ..).symm
      exact (w.slots p g hg j hj v hm).trans_le hn
  next   := hn
  excess := fun k => by
    have hh : (s'.take t f i node).holders k + _ = _ := holders_take (ht ▸ hf) hi
    rw [holders_congr ht] at hh
    exact excess_eq (hr k) hh

theorem Linked.filesStructAlloc (w : s.Linked) (hp : ∀ p ∈ parent, p < s.vfs.next)
    (h : s.filesStructAlloc t parent path = .ok ret) : s.Keeps ret.2 := by
  obtain ⟨f, hf, he | ⟨i, node, vfs, hi, ho, he⟩⟩ := filesStructAlloc_ok h
  case inl => rw [he]; exact .refl w
  case inr =>
    have ⟨hl, hn, _⟩ := FilesStruct.freeSlot_some hi
    have ⟨hT, hle, hv, hr⟩ := w.tree.vfsOpen hp ho
    cases node
    case none =>
      rw [he]
      refine ⟨⟨hT, fun p g hg j hj v hm => (w.slots p g hg j hj v hm).trans_le hle⟩, hle, fun k => ?_⟩
      exact excess_congr ((hr k).trans <| by simp) rfl
    case some node =>
      rw [he]
      exact w.take rfl hf hl hT hle hv fun k => by simp [hn, hr]

theorem Linked.filesStructDup {oldFd newFd : Int} (w : s.Linked) (h : s.filesStructDup t oldFd newFd = .ok ret) :
    s.Keeps ret.2 := by
  obtain ⟨f, hf, he | ⟨i, j, node, hi, hn, hj, hv, he⟩⟩ := filesStructDup_ok h
  case inl => rw [he]; exact .refl w
  case inr =>
    rw [he]
    refine w.take rfl hf hi (w.tree.recounts <| Vfs.recounts_setNode (· + 1)) (Nat.le_refl _) ?_ fun k => ?_
    case refine_1 => exact fun v hm => Option.some.inj hm ▸ w.slots t f hf j hj node hv
    case refine_2 => simp [hn, Vfs.refCnt_vfsReopen]

theorem Linked.filesStructFree (w : s.Linked) (h : s.filesStructFree t fd = .ok s') : s.Keeps s' := by
  have ⟨f, g, node, hf, _, hb, hn, he⟩ := filesStructFree_ok h
  have hi : fd.toNat < filesSize := by omega
  rw [he]
  refine w.take rfl hf hi (w.tree.recounts <| Vfs.recounts_setNode (· - 1)) (Nat.le_refl _) (by simp) fun k => ?_
  have hz : (if (none : Option Node) = some k then 1 else 0) = 0 := if_neg (by simp)
  rw [hn, hz, BitVec.add_zero]
  exact Vfs.refCnt_vfsClose

theorem Linked.filesStructIo {io : Vfs Obj → Node → BitVec 64 → BitVec 64 → Except Fault (BitVec 64)}
    {bufLen : BitVec 64} (w : s.Linked) (h : s.filesStructIo io t fd bufLen = .ok ret) : s.Keeps ret.2 := by
  have ⟨f, _, _, n, _, _, _, _, _, he⟩ := filesStructIo_ok h
  rw [he]
  split_ifs
  case pos => exact ⟨⟨w.tree, w.slots⟩, Nat.le_refl _, fun _ => excess_congr rfl rfl⟩
  case neg => exact .refl w

-- The pages of a table which is not there yet.
theorem Linked.create (w : s.Linked) (ht : s.tables t = none) {seek : Pages} {seeks : Pages → Nat → BitVec 64} :
    s.Keeps { s.setTable t (some { nodes := fun _ => none, seek }) with seeks } where
  linked := by
    refine ⟨w.tree, fun p g hp j hj v hm => ?_⟩
    by_cases hpt : p = t
    case pos =>
      subst hpt
      cases (Function.update_self ..).symm.trans hp
      nomatch hm
    case neg => exact w.slots p g ((Function.update_of_ne hpt ..).symm.trans hp) j hj v hm
  next   := Nat.le_refl _
  excess := fun k => by
    have hh := @holders_setTable _ s t k (some { nodes := fun _ => none, seek })
    rw [ht, Option.elim_none, Option.elim_some, FilesStruct.count, tally_none] at hh
    have he : (s.setTable t (some { nodes := fun _ => none, seek })).excess k = s.excess k := excess_eq rfl hh
    rw [← he]
    exact excess_congr rfl rfl

theorem Linked.filesStructCreate {pages : Option Pages} (w : s.Linked) (hp : ∀ p ∈ pages, s.tables p = none)
    (h : s.filesStructCreate pages = .ok s') : s.Keeps s' := by
  cases pages
  case none   => nomatch h
  case some t =>
    refine Except.foldlM_induction (motive := fun s' => s.Keeps s') ?_ (w.create <| hp t rfl) h
    intro s₁ path s₂ hk he
    have ⟨_, he⟩ := map_snd_eq_ok he
    exact hk.trans <| hk.linked.filesStructAlloc (by simp) he

theorem Linked.filesStructDestroy (w : s.Linked) (h : s.filesStructDestroy t = .ok s') : s.Keeps s' := by
  have ⟨f, hf, he⟩ := filesStructDestroy_ok h
  have ht : s'.tables = (s.setTable t none).tables := by simp only [he, setTable]
  have hh (k : Node) : s'.holders k + ((List.range filesSize).map f.nodes).count (some k) = s.holders k + 0 := by
    have := @holders_setTable _ s t k none
    rwa [hf, Option.elim_none, Option.elim_some, FilesStruct.count, tally_range, ← holders_congr ht] at this
  generalize (List.range filesSize).map f.nodes = nodes at he hh
  have hc : s.vfs.Recounts (closeAll nodes s.vfs) := Vfs.recounts_closeAll
  subst he
  constructor
  case linked =>
    refine ⟨w.tree.recounts hc, fun p g hp j hj v hm => ?_⟩
    by_cases hpt : p = t
    case pos =>
      subst hpt
      nomatch (Function.update_self ..).symm.trans hp
    case neg =>
      have := w.slots p g ((Function.update_of_ne hpt ..).symm.trans hp) j hj v hm
      exact this.trans_eq hc.next.symm
  case next => exact hc.next.ge
  case excess =>
    intro k
    refine excess_eq ?_ (hh k)
    exact Vfs.refCnt_closeAll.trans (BitVec.add_zero _).symm

-- All calls but the copy of a table keep the excess of every vnode.
theorem Linked.step (w : s.Linked) (e : Step s call s') :
    s'.Linked ∧ s.vfs.next ≤ s'.vfs.next ∧ ∀ i, s'.excess i = s.excess i - .ofNat 64 (s.copied call i) := by
  have keeps (h : s.Keeps s') (hc : ∀ i, s.copied call i = 0) : s'.Linked ∧ s.vfs.next ≤ s'.vfs.next ∧
      ∀ i, s'.excess i = s.excess i - .ofNat 64 (s.copied call i) :=
    ⟨h.linked, h.next, fun i => by simp [h.excess, hc]⟩
  have hp := e.permits
  have he := e.exec
  cases call
  case create  => exact keeps (w.filesStructCreate hp he) fun _ => rfl
  case alloc   => exact keeps (w.filesStructAlloc hp (map_snd_eq_ok he).choose_spec) fun _ => rfl
  case dup     => exact keeps (w.filesStructDup (map_snd_eq_ok he).choose_spec) fun _ => rfl
  case free    => exact keeps (w.filesStructFree he) fun _ => rfl
  case read    => exact keeps (w.filesStructIo (map_snd_eq_ok he).choose_spec) fun _ => rfl
  case write   => exact keeps (w.filesStructIo (map_snd_eq_ok he).choose_spec) fun _ => rfl
  case destroy => exact keeps (w.filesStructDestroy he) fun _ => rfl
  case clone t pages =>
    have ⟨f, g, c, hf, _, hc, hs⟩ := filesStructClone_ok he
    have hn : s.tables c = none := hp c hc
    have ht : s'.tables = (s.setTable c (some { nodes := f.nodes, seek := t })).tables := by rw [hs]
    have hh (i : Node) : s'.holders i = s.holders i + s.copied (.clone t pages) i := by
      have hk : FilesStruct.count { nodes := f.nodes, seek := t } i = f.count i := by
        rw [FilesStruct.count, FilesStruct.count]
      have h := @holders_setTable _ s c i (some { nodes := f.nodes, seek := t })
      rw [hn, Option.elim_none, Option.elim_some, hk, Nat.add_zero] at h
      rw [holders_congr ht, h, copied, hf, Option.elim_some]
    subst hs
    refine ⟨⟨w.tree, fun p g hg j hj v hm => ?_⟩, Nat.le_refl _, fun i => ?_⟩
    case refine_1 =>
      by_cases hpc : p = c
      case pos =>
        subst hpc
        cases (Function.update_self ..).symm.trans hg
        exact w.slots t f hf j hj v hm
      case neg => exact w.slots p g ((Function.update_of_ne hpc ..).symm.trans hg) j hj v hm
    case refine_2 =>
      rw [excess, excess, hh, BitVec.ofNat_add, sub_add_eq_sub_sub]
      rfl

theorem copied_eq_zero (h : ∀ t pages f, call = .clone t pages → s.tables t = some f → ∀ i < filesSize, f.nodes i = none) :
    s.copied call k = 0 := by
  cases call
  case clone t pages =>
    rw [copied]
    cases ht : s.tables t
    case none   => rfl
    case some f =>
      rw [Option.elim_some, count_eq_zero]
      exact fun i hi => by simp [h t pages f rfl ht i hi]
  all_goals rfl

theorem copied_lt : s.copied call k < 2 ^ 64 := by
  cases call
  case clone t pages =>
    rw [copied]
    cases s.tables t
    case none   => exact Nat.two_pow_pos 64
    case some f => rw [Option.elim_some]; exact count_le.trans_lt <| by rw [filesSize]; norm_num
  all_goals exact Nat.two_pow_pos 64

-- The counts stay right exactly if the call is fair.
theorem Linked.counted_step_iff (w : s.Linked) (h : s.Counted) (e : Step s call s') : s'.Counted ↔ Fair s call s' := by
  have ⟨w', hn, hx⟩ := w.step e
  have hnew (i : Nat) (hi : s.vfs.next ≤ i) : s.excess i = (s.vfs.nodes i).refCnt := by
    rw [excess, w.holders_eq_zero hi]
    exact BitVec.sub_zero _
  rw [counted_iff] at h ⊢
  constructor
  case mp =>
    intro h'
    have hz (t pages f) (hc : call = .clone t pages) (hf : s.tables t = some f) : ∀ i < filesSize, f.nodes i = none := by
      intro i hi
      by_contra hv
      have ⟨v, hv⟩ := Option.ne_none_iff_exists'.mp hv
      have hlt : v < s.vfs.next := w.slots t f hf i hi v hv
      have hx := hx v
      rw [h v hlt, h' v (hlt.trans_le hn), zero_sub, eq_comm, neg_eq_zero, BitVec.toNat_eq, BitVec.toNat_ofNat,
        Nat.mod_eq_of_lt copied_lt, hc, copied, hf, Option.elim_some] at hx
      exact count_eq_zero.mp hx i hi hv
    refine ⟨fun i hi hi' => ?_, hz⟩
    have hx := hx i
    rwa [h' i hi', copied_eq_zero hz, hnew i hi, BitVec.sub_zero, eq_comm] at hx
  case mpr =>
    intro hf i hi
    rw [hx i, copied_eq_zero hf.empty, BitVec.sub_zero]
    cases Nat.lt_or_ge i s.vfs.next
    case inl hl => exact h i hl
    case inr hg => rw [hnew i hg, hf.zeroed i hg hi]

theorem Linked.run {calls : List Call} (w : s.Linked) (r : Run Step s calls s') : s'.Linked :=
  r.invariant (fun _ _ _ w e => (w.step e).1) w

theorem Linked.counted_run {calls : List Call} (w : s.Linked) (h : s.Counted) (r : Run Step s calls s')
    (hf : ∀ calls₁ call calls₂ s₁ s₂, calls = calls₁ ++ call :: calls₂ → Run Step s calls₁ s₁ → Step s₁ call s₂ →
      Fair s₁ call s₂) : s'.Counted := by
  induction r
  case nil => exact h
  case cons call s₁ calls s₂ e _ hi =>
    refine hi (w.step e).1 ((w.counted_step_iff h e).mpr <| hf [] _ _ _ _ rfl .nil e) ?_
    intro calls₁ call' calls₂ s₃ s₄ he r e'
    exact hf (_ :: calls₁) call' calls₂ s₃ s₄ (congrArg _ he) (.cons e r) e'

-- The counts are right in all states of a run if and only if all its calls are fair.
theorem counted_iff_fair (w : s.Linked) (h : s.Counted) (calls : List Call) :
    (∀ calls₁ calls₂ s₁, calls = calls₁ ++ calls₂ → Run Step s calls₁ s₁ → s₁.Counted) ↔
      ∀ calls₁ call calls₂ s₁ s₂, calls = calls₁ ++ call :: calls₂ → Run Step s calls₁ s₁ → Step s₁ call s₂ →
        Fair s₁ call s₂ := by
  constructor
  case mp =>
    intro hc calls₁ call calls₂ s₁ s₂ he r e
    have h₁ : s₁.Counted := hc calls₁ _ s₁ he r
    have h₂ : s₂.Counted := hc (calls₁ ++ [call]) calls₂ s₂ (by simp [he]) (r.append <| .single e)
    exact ((w.run r).counted_step_iff h₁ e).mp h₂
  case mpr =>
    intro hf calls₁ calls₂ s₁ he r
    refine w.counted_run h r fun calls₃ call calls₄ s₂ s₃ he' r' e => ?_
    exact hf calls₃ call (calls₄ ++ calls₂) s₂ s₃ (by simp [he, he']) r' e

end Files

-- A table without vnodes.

def emptyTable : FilesStruct where
  nodes _ := none
  seek    := 0

def emptyFiles : Files Nat where
  vfs    := sampleVfs
  tables := Function.update (fun _ => none) 0 (some emptyTable)
  seeks  := fun _ _ => 0

theorem emptyFiles_tables {t : Pages} {f : FilesStruct} (h : emptyFiles.tables t = some f) : f = emptyTable := by
  by_cases ht : t = 0
  case pos =>
    have h₀ : emptyFiles.tables 0 = some emptyTable := rfl
    rw [ht, h₀] at h
    exact (Option.some.inj h).symm
  case neg =>
    have h₀ : emptyFiles.tables t = none := by simp [emptyFiles, ht]
    rw [h₀] at h
    nomatch h

theorem emptyFiles_linked : emptyFiles.Linked where
  tree  := sampleVfs_tree
  slots := fun t f h i _ v hv => by simp [emptyFiles_tables h, emptyTable] at hv

theorem emptyFiles_counted : emptyFiles.Counted := by
  intro i _
  have : emptyFiles.holders i = 0 := by
    unfold Files.holders
    refine Finset.sum_eq_zero fun t _ => ?_
    cases ht : emptyFiles.tables t
    case none   => rfl
    case some f =>
      rw [Option.elim_some, Files.count_eq_zero, emptyFiles_tables ht]
      exact fun j _ => by simp [emptyTable]
  rw [this]
  rfl

-- The directory `d` is opened.
theorem emptyFiles_alloc :
    ∃ vfs, emptyFiles.Step (.alloc 0 none [0x64]) (Files.take { emptyFiles with vfs } 0 emptyTable 0 (some 1)) := by
  have ⟨vfs, hr⟩ : ∃ vfs, sampleVfs.reach none ([0x64].splitOn slash) = .ok (some 1, vfs) := ⟨_, rfl⟩
  have hg := Vfs.vfsGetRecursive_not_slash (by decide) rfl (by decide) hr
  have hi : emptyTable.freeSlot = some 0 :=
    List.find?_range_eq_some.mpr ⟨by decide, List.mem_range.mpr (by decide), by simp⟩
  refine ⟨vfs.vfsReopen 1, by simp [Files.Permits], ?_⟩
  have hf : emptyFiles.table 0 = .ok emptyTable := rfl
  have hv : emptyFiles.vfs = sampleVfs := rfl
  simp only [Files.exec, Files.filesStructAlloc, hf, bind, Except.bind, hi, Vfs.vfsOpen, hv, hg]
  rfl

section

variable {calls₁ calls₂ : List Call} {call : Call} {s₁ s₂ : Files Nat}

-- The call which opens the directory is the only one, and all memory holds zeros.
theorem emptyFiles_alloc_fair (he : [.alloc 0 none [0x64]] = calls₁ ++ call :: calls₂)
    (r : Run Files.Step emptyFiles calls₁ s₁) : s₁.Fair call s₂ := by
  cases calls₁
  case nil =>
    cases r
    cases he
    exact ⟨fun _ _ _ => rfl, fun _ _ _ h => nomatch h⟩
  case cons => simp at he

end

-- The counts are right after the directory has been opened.
theorem emptyFiles_open_counted :
    ∃ s, Run Files.Step emptyFiles [.alloc 0 none [0x64]] s ∧ s.Counted := by
  have ⟨vfs, e⟩ := emptyFiles_alloc
  have h := Files.counted_iff_fair emptyFiles_linked emptyFiles_counted [.alloc 0 none [0x64]]
  refine ⟨_, .single e, h.mpr ?_ _ [] _ rfl (.single e)⟩
  exact fun _ _ _ _ _ he r _ => emptyFiles_alloc_fair he r

-- The table is copied after that.
theorem emptyFiles_clone_not_counted :
    ∃ s, Run Files.Step emptyFiles [.alloc 0 none [0x64], .clone 0 (some 1)] s ∧ ¬s.Counted := by
  have ⟨vfs, e⟩ := emptyFiles_alloc
  have w := (emptyFiles_linked.step e).1
  have hc := (emptyFiles_linked.counted_step_iff emptyFiles_counted e).mpr <|
    @emptyFiles_alloc_fair [] [] _ _ _ rfl .nil
  have hp : ∀ p ∈ some 1, (Files.take { emptyFiles with vfs } 0 emptyTable 0 (some 1)).tables p = none := by
    intro p hp
    cases hp
    rfl
  have e' : Files.Step (Files.take { emptyFiles with vfs } 0 emptyTable 0 (some 1)) (.clone 0 (some 1)) _ := ⟨hp, rfl⟩
  refine ⟨_, .cons e <| .single e', fun h => ?_⟩
  have := ((w.counted_step_iff hc e').mp h).empty 0 (some 1) _ rfl rfl 0 (by decide)
  simp at this

end Zgmos.Fs
