import Zgmos.Fs.Calls
import Zgmos.Fs.Descriptors

-- A table and its copy.

namespace Zgmos.Fs

variable {Obj : Type}

-- The table on which a call works.
def Call.table : Call → Option Pages
  | .create _ | .clone _ _ => none
  | .alloc t _ _ | .dup t _ _ | .free t _ | .read t _ _ | .write t _ _ | .destroy t => some t

namespace Files

-- A call does not change anything of a table, and leaves its memory allocated.
structure Untouched (p : Pages) (s s' : Files Obj) : Prop where
  table  : s'.tables p = s.tables p
  seeks  : ∀ f, s.tables p = some f → ∀ i < filesSize, s'.seeks f.seek i = s.seeks f.seek i
  memory : ∀ f, s.tables p = some f → s'.tables f.seek = none → s.tables f.seek = none

def Independent (t c : Pages) (s : Files Obj) (call : Call) (s' : Files Obj) : Prop :=
  (call.table = some t → Untouched c s s') ∧ (call.table = some c → Untouched t s s')

-- A call changes the seek of a descriptor.
def Moves (s : Files Obj) : Call → Prop
  | .free t fd         => ∃ f, s.tables t = some f ∧ s.seeks f.seek fd.toNat ≠ 0
  | .read t fd bufLen  => ∃ f node n, s.tables t = some f ∧ f.nodes fd.toNat = some node ∧
      s.vfs.vfsRead node (s.seeks f.seek fd.toNat) bufLen = .ok n ∧ 0 < moved n
  | .write t fd bufLen => ∃ f node n, s.tables t = some f ∧ f.nodes fd.toNat = some node ∧
      s.vfs.vfsWrite node (s.seeks f.seek fd.toNat) bufLen = .ok n ∧ 0 < moved n
  | _                  => False

-- While there is the copy, the table is not destroyed, and it is a copy itself or no seek is changed.
structure Harmless (t c : Pages) (s : Files Obj) (call : Call) : Prop where
  destroy : call = .destroy t → s.tables c = none
  still   : s.Moves call → s.tables c ≠ none → ∀ f, s.tables t = some f → f.seek ≠ t

-- The seeks of the copy are in the pages of the table, but those of the table are not in the pages of the copy.
structure Copied (t c : Pages) (s : Files Obj) : Prop where
  ne    : t ≠ c
  table : ∀ f, s.tables t = some f → f.seek ≠ c
  copy  : ∀ f, s.tables c = some f → f.seek = t

variable {s s' : Files Obj} {t c p : Pages} {f g : FilesStruct} {fd : Int} {call : Call}

-- What a call on one table can do.
structure Effect (s : Files Obj) (p : Pages) (f : FilesStruct) (call : Call) (s' : Files Obj) : Prop where
  table   : s.tables p = some f
  others  : ∀ q ≠ p, s'.tables q = s.tables q
  keeps   : call ≠ .destroy p → ∃ f', s'.tables p = some f' ∧ f'.seek = f.seek
  destroy : call = .destroy p → s'.tables p = none
  apart   : ∀ q ≠ f.seek, s'.seeks q = s.seeks q
  still   : ¬s.Moves call → s'.seeks = s.seeks
  moves   : s.Moves call → ∃ i < filesSize, s'.seeks f.seek i ≠ s.seeks f.seek i

theorem effect_slot {f' : FilesStruct} (hf : s.tables p = some f) (hd : call ≠ .destroy p) (hm : ¬s.Moves call)
    (ht : s'.tables = Function.update s.tables p (some f')) (hf' : f'.seek = f.seek) (hs : s'.seeks = s.seeks) :
    s.Effect p f call s' where
  table       := hf
  others q hq := by rw [ht, Function.update_of_ne hq]
  keeps _     := ⟨f', by rw [ht, Function.update_self], hf'⟩
  destroy h   := absurd h hd
  apart _ _   := by rw [hs]
  still _     := hs
  moves h     := absurd h hm

theorem effect_seek {f' : FilesStruct} {seek : BitVec 64} (hf : s.tables p = some f) (hd : call ≠ .destroy p)
    (hm : s.Moves call ↔ s.seeks f.seek fd.toNat ≠ seek)
    (ht : s'.tables = Function.update s.tables p (some f')) (hf' : f'.seek = f.seek) (hb : 0 ≤ fd ∧ fd < filesSize)
    (hs : s'.seeks = Function.update s.seeks f.seek (Function.update (s.seeks f.seek) fd.toNat seek)) :
    s.Effect p f call s' where
  table       := hf
  others q hq := by rw [ht, Function.update_of_ne hq]
  keeps _     := ⟨f', by rw [ht, Function.update_self], hf'⟩
  destroy h   := absurd h hd
  apart q hq  := by rw [hs, Function.update_of_ne hq]
  still h     := by
    have he : s.seeks f.seek fd.toNat = seek := by simpa using mt hm.mpr h
    rw [hs, ← he, Function.update_eq_self, Function.update_eq_self]
  moves h     := by
    refine ⟨fd.toNat, by omega, ?_⟩
    rw [hs, Function.update_self, Function.update_self]
    exact (hm.mp h).symm

theorem update_tables (hf : s.tables p = some f) : s.tables = Function.update s.tables p (some f) := by
  rw [← hf, Function.update_eq_self]

-- A number of bytes moves the descriptor.
theorem seek_ne {n seek : BitVec 64} (h : 0 < moved n) : seek ≠ seek + .ofInt 64 (moved n) := by
  have hl : moved n < 2 ^ 31 := BitVec.toInt_lt
  have hi : (BitVec.ofInt 64 (moved n)).toInt = moved n := by
    rw [BitVec.toInt_ofInt, Int.bmod_eq_of_le]
    case hn' => omega
    case hn  => omega
  intro he
  rw [left_eq_add] at he
  have hz : (0 : BitVec 64).toInt = 0 := rfl
  rw [he, hz] at hi
  omega

theorem effect_io {io : Vfs Obj → Node → BitVec 64 → BitVec 64 → Except Fault (BitVec 64)} {bufLen : BitVec 64}
    {ret : Int × Files Obj} (h : s.filesStructIo io p fd bufLen = .ok ret) (hd : call ≠ .destroy p)
    (hm : s.Moves call ↔ ∃ f node n, s.tables p = some f ∧ f.nodes fd.toNat = some node ∧
      io s.vfs node (s.seeks f.seek fd.toNat) bufLen = .ok n ∧ 0 < moved n) : ∃ f, s.Effect p f call ret.2 := by
  have ⟨f, g, node, n, hf, _, hb, hn, hi, he⟩ := filesStructIo_ok h
  have hm : s.Moves call ↔ 0 < moved n := by
    simp only [hm, hf, Option.some.injEq]
    constructor
    case mp  => intro ⟨_, _, _, rfl, hn', hi', hp⟩; cases hn.symm.trans hn'; cases hi.symm.trans hi'; exact hp
    case mpr => exact fun hp => ⟨f, node, n, rfl, hn, hi, hp⟩
  refine ⟨f, ?_⟩
  split_ifs at he
  case pos hp =>
    rw [he]
    exact effect_seek hf hd (iff_of_true (hm.mpr hp) <| seek_ne hp) (update_tables hf) rfl hb rfl
  case neg hp =>
    rw [he]
    exact effect_slot hf hd (mt hm.mp hp) (update_tables hf) rfl rfl

theorem Step.effect (e : s.Step call s') (hp : call.table = some p) : ∃ f, s.Effect p f call s' := by
  have he := e.exec
  cases call
  case create => nomatch hp
  case clone  => nomatch hp
  all_goals cases hp
  case alloc parent path =>
    have ⟨f, hf, h⟩ := filesStructAlloc_ok (map_snd_eq_ok he).choose_spec
    obtain h | ⟨i, node, vfs, hi, ho, h⟩ := h
    all_goals rw [show s' = _ from h]
    case inl => exact ⟨f, effect_slot hf nofun id (update_tables hf) rfl rfl⟩
    case inr =>
      cases node
      case none   => exact ⟨f, effect_slot hf nofun id (update_tables hf) rfl rfl⟩
      case some v => exact ⟨f, effect_slot hf nofun id rfl rfl rfl⟩
  case dup oldFd newFd =>
    have ⟨f, hf, h⟩ := filesStructDup_ok (map_snd_eq_ok he).choose_spec
    obtain h | ⟨i, j, node, _, _, _, _, h⟩ := h
    all_goals rw [show s' = _ from h]
    case inl => exact ⟨f, effect_slot hf nofun id (update_tables hf) rfl rfl⟩
    case inr => exact ⟨f, effect_slot hf nofun id rfl rfl rfl⟩
  case free fd =>
    have ⟨f, g, node, hf, hg, hb, hn, h⟩ := filesStructFree_ok he
    rw [h]
    exact ⟨f, effect_seek hf nofun (by simp [Moves, hf]) rfl rfl hb rfl⟩
  case read  => exact effect_io (map_snd_eq_ok he).choose_spec nofun .rfl
  case write => exact effect_io (map_snd_eq_ok he).choose_spec nofun .rfl
  case destroy =>
    have ⟨f, hf, h⟩ := filesStructDestroy_ok he
    generalize (List.range filesSize).map f.nodes = nodes at h
    rw [h]
    refine ⟨f, hf, fun q hq => Function.update_of_ne hq .., fun hd => absurd rfl hd, ?_, ?_, ?_, fun hm => hm.elim⟩
    case refine_1 => exact fun _ => Function.update_self ..
    case refine_2 => exact fun _ _ => rfl
    case refine_3 => exact fun _ => rfl

namespace Effect

variable {q : Pages}

-- A table which is there after the call was there before it, with the same seeks.
theorem tables (h : s.Effect p f call s') (hg : s'.tables q = some g) : ∃ g', s.tables q = some g' ∧ g.seek = g'.seek := by
  by_cases hq : q = p
  case neg => exact ⟨g, h.others q hq ▸ hg, rfl⟩
  case pos =>
    subst hq
    by_cases hd : call = .destroy q
    case pos => nomatch (h.destroy hd).symm.trans hg
    case neg =>
      have ⟨f', hf', he⟩ := h.keeps hd
      cases hf'.symm.trans hg
      exact ⟨f, h.table, he⟩

theorem untouched_iff (h : s.Effect p f call s') (hq : q ≠ p) : Untouched q s s' ↔
    ∀ g, s.tables q = some g → (call = .destroy p → g.seek ≠ p) ∧ (s.Moves call → g.seek ≠ f.seek) := by
  constructor
  case mp =>
    intro hu g hg
    constructor
    case left =>
      intro hd he
      have := hu.memory g hg (he ▸ h.destroy hd)
      rw [he, h.table] at this
      nomatch this
    case right =>
      intro hm he
      have ⟨i, hi, hne⟩ := h.moves hm
      exact hne <| he ▸ hu.seeks g hg i hi
  case mpr =>
    intro hu
    constructor
    case table => exact h.others q hq
    case seeks =>
      intro g hg i _
      by_cases hm : s.Moves call
      case pos => rw [h.apart g.seek <| (hu g hg).2 hm]
      case neg => rw [h.still hm]
    case memory =>
      intro g hg hn
      by_cases he : g.seek = p
      case neg => rw [← h.others g.seek he, hn]
      case pos =>
        by_cases hd : call = .destroy p
        case pos => exact absurd he <| (hu g hg).1 hd
        case neg =>
          have ⟨_, hf', _⟩ := h.keeps hd
          rw [he, hf'] at hn
          nomatch hn

end Effect

namespace Copied

theorem step (w : s.Copied t c) (e : s.Step call s') (hp : call.table = some p) : s'.Copied t c := by
  have ⟨f, h⟩ := e.effect hp
  refine ⟨w.ne, fun f' hf' => ?_, fun f' hf' => ?_⟩
  all_goals have ⟨f, hf, he⟩ := h.tables hf'
  case refine_1 => exact he ▸ w.table f hf
  case refine_2 => exact he ▸ w.copy f hf

theorem run {calls : List Call} (w : s.Copied t c) (r : Run Step s calls s')
    (hp : ∀ call ∈ calls, call.table = some t ∨ call.table = some c) : s'.Copied t c := by
  induction r
  case nil => exact w
  case cons call _ calls _ e _ hi =>
    refine hi ?_ fun call hc => hp call (.tail _ hc)
    cases hp call (.head _)
    case inl h => exact w.step e h
    case inr h => exact w.step e h

theorem independent_iff (w : s.Copied t c) (e : s.Step call s') (hp : call.table = some t ∨ call.table = some c) :
    Independent t c s call s' ↔ Harmless t c s call := by
  cases hp
  case inl hp =>
    have ⟨f, h⟩ := e.effect hp
    have hi : Independent t c s call s' ↔ Untouched c s s' := by simp [Independent, hp, w.ne]
    rw [hi, h.untouched_iff w.ne.symm]
    constructor
    case mp =>
      intro hu
      constructor
      case destroy =>
        intro hd
        by_contra hc
        have ⟨g, hg⟩ := Option.ne_none_iff_exists'.mp hc
        exact (hu g hg).1 hd (w.copy g hg)
      case still =>
        intro hm hc f' hf' he
        have ⟨g, hg⟩ := Option.ne_none_iff_exists'.mp hc
        cases h.table.symm.trans hf'
        exact (hu g hg).2 hm <| (w.copy g hg).trans he.symm
    case mpr =>
      intro hh g hg
      constructor
      case left  => exact fun hd => nomatch (hh.destroy hd).symm.trans hg
      case right =>
        intro hm he
        exact hh.still hm (by simp [hg]) f h.table <| he.symm.trans (w.copy g hg)
  case inr hp =>
    have ⟨f, h⟩ := e.effect hp
    have hi : Independent t c s call s' ↔ Untouched t s s' := by simp [Independent, hp, w.ne.symm]
    rw [hi, h.untouched_iff w.ne]
    constructor
    case mp =>
      intro hu
      constructor
      case destroy =>
        intro hd
        rw [hd] at hp
        exact absurd (Option.some.inj hp) w.ne
      case still =>
        intro hm _ g hg he
        exact (hu g hg).2 hm <| he.trans (w.copy f h.table).symm
    case mpr =>
      intro hh g hg
      refine ⟨fun _ => w.table g hg, fun hm he => ?_⟩
      exact hh.still hm (by simp [h.table]) g hg <| he.trans (w.copy f h.table)

end Copied

-- The slots and the seeks of a copy are those of the table.
def Same (t c : Pages) (s s' : Files Obj) : Prop :=
  ∃ f g, s.tables t = some f ∧ s'.tables c = some g ∧ g.nodes = f.nodes ∧ s'.seeks g.seek = s.seeks f.seek

theorem Step.clone (e : s.Step (.clone t (some c)) s') : Same t c s s' ∧ s'.Copied t c := by
  have h : s.filesStructClone t (some c) = .ok s' := e.exec
  have ⟨f, g, c', hf, hg, hc, he⟩ := filesStructClone_ok h
  cases hc
  have hn : s.tables c = none := e.permits c rfl
  have hne : t ≠ c := fun h => by
    rw [← h, hf] at hn
    nomatch hn
  have ht : s'.tables = Function.update s.tables c (some { nodes := f.nodes, seek := t }) := by rw [he]; rfl
  have hs : s'.seeks t = s.seeks f.seek := by rw [he]; exact Function.update_self ..
  refine ⟨⟨f, { nodes := f.nodes, seek := t }, hf, by rw [ht, Function.update_self], rfl, hs⟩, hne, fun f' hf' => ?_,
    fun f' hf' => ?_⟩
  case refine_1 =>
    rw [ht, Function.update_of_ne hne] at hf'
    cases hf.symm.trans hf'
    intro h
    rw [h, hn] at hg
    nomatch hg
  case refine_2 =>
    rw [ht, Function.update_self] at hf'
    exact Option.some.inj hf' ▸ rfl

-- A copy starts with the same slots and seeks. In a run on a table and its copy all calls leave the other one of the
-- two as it is if and only if they are harmless.
theorem clone_independent_iff (e : s.Step (.clone t (some c)) s') (calls : List Call)
    (hp : ∀ call ∈ calls, call.table = some t ∨ call.table = some c) :
    Same t c s s' ∧
    ((∀ calls₁ call calls₂ s₁ s₂, calls = calls₁ ++ call :: calls₂ → Run Step s' calls₁ s₁ → s₁.Step call s₂ →
      Independent t c s₁ call s₂) ↔
    ∀ calls₁ call calls₂ s₁ s₂, calls = calls₁ ++ call :: calls₂ → Run Step s' calls₁ s₁ → s₁.Step call s₂ →
      Harmless t c s₁ call) := by
  have iff {calls₁ call calls₂ s₁ s₂} (he : calls = calls₁ ++ call :: calls₂) (r : Run Step s' calls₁ s₁)
      (e' : s₁.Step call s₂) : Independent t c s₁ call s₂ ↔ Harmless t c s₁ call := by
    have w := e.clone.2.run r fun call hc => hp call (by simp [he, hc])
    exact w.independent_iff e' <| hp call (by simp [he])
  refine ⟨e.clone.1, ?_⟩
  constructor
  case mp  => exact fun h calls₁ call calls₂ s₁ s₂ he r e' => (iff he r e').mp <| h calls₁ call calls₂ s₁ s₂ he r e'
  case mpr => exact fun h calls₁ call calls₂ s₁ s₂ he r e' => (iff he r e').mpr <| h calls₁ call calls₂ s₁ s₂ he r e'

end Files
-- All seeks are 7.

def seekFiles : Files Nat :=
  { sampleFiles with seeks := fun _ _ => 7 }

def seekFilesCloned : Files Nat :=
  { seekFiles with tables := Function.update seekFiles.tables 1 (some sampleTable) }

theorem seekFiles_clone : seekFiles.Step (.clone 0 (some 1)) seekFilesCloned := by
  constructor
  case permits =>
    intro p hp
    cases hp
    rfl
  case exec =>
    have hs : Function.update seekFiles.seeks 0 (seekFiles.seeks 0) = seekFiles.seeks := Function.update_eq_self ..
    exact congrArg (fun seeks => Except.ok { seekFilesCloned with seeks }) hs

theorem seekFiles_run {call : Call} {s : Files Nat} (hc : call.table = some 0) (e : seekFilesCloned.Step call s) :
    Files.Independent 0 1 seekFilesCloned call s ↔ Files.Harmless 0 1 seekFilesCloned call :=
  (Files.Step.clone seekFiles_clone).2.independent_iff e <| .inl hc

-- The descriptor 0 of the table is duplicated.
theorem seekFiles_dup_independent : ∃ s, seekFilesCloned.Step (.dup 0 0 7) s ∧
    Files.Independent 0 1 seekFilesCloned (.dup 0 0 7) s := by
  have e : seekFilesCloned.Step (.dup 0 0 7) _ := ⟨trivial, rfl⟩
  have h := (Files.clone_independent_iff seekFiles_clone [.dup 0 0 7] (by simp [Call.table])).2.mpr
  refine ⟨_, e, h ?_ [] _ [] _ _ rfl .nil e⟩
  intro calls₁ call calls₂ s₁ s₂ he _ _
  have hc : call = .dup 0 0 7 := by
    cases calls₁ <;> simp_all
  exact hc ▸ ⟨nofun, fun h => h.elim⟩

-- The descriptor 0 of the table is closed, and the table is destroyed.
theorem seekFiles_not_independent :
    (∃ s, seekFilesCloned.Step (.free 0 0) s ∧ ¬Files.Independent 0 1 seekFilesCloned (.free 0 0) s) ∧
    ∃ s, seekFilesCloned.Step (.destroy 0) s ∧ ¬Files.Independent 0 1 seekFilesCloned (.destroy 0) s := by
  constructor
  case left =>
    have e : seekFilesCloned.Step (.free 0 0) _ := ⟨trivial, rfl⟩
    refine ⟨_, e, fun h => ?_⟩
    have hm : seekFilesCloned.Moves (.free 0 0) := ⟨sampleTable, rfl, by decide⟩
    exact ((seekFiles_run rfl e).mp h).still hm nofun sampleTable rfl rfl
  case right =>
    have e : seekFilesCloned.Step (.destroy 0) _ := ⟨trivial, rfl⟩
    refine ⟨_, e, fun h => ?_⟩
    nomatch ((seekFiles_run rfl e).mp h).destroy rfl

end Zgmos.Fs
