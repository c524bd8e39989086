import Zgmos.Fat32.LongName

-- The loop of a caller which calls `fat32_iter_next` until it returns false finds all entries.

namespace Zgmos.Fat32

-- The names in front of each entry are bounded, and those behind the last one.
def AllBounded (fs : Fat32Fs) (es : List Slot) : Prop :=
  ∀ es₁ es₂, es = es₁ ++ es₂ → (∀ e ∈ es₁.getLast?, (e.entry? fs).isSome) → Bounded fs es₂

-- The clusters to which the successors lead are clusters of the chain. The stack has room for the names in their slots,
-- and what the code makes of the slots are the entries of the chain.
def Traversable {fs : Fat32Fs} (v : Volume fs) (cs : List Cidx) (cidx : Cidx) : Prop :=
  ∃ vs, Walk v cidx vs ∧ (∀ c ∈ vs, c ∈ cs) ∧ AllBounded fs (chainSlots v vs) ∧
    foundEntries fs false (chainSlots v vs) = entries fs (chainSlots v cs)

variable {fs : Fat32Fs} {v : Volume fs} {cidx : Cidx} {cs : List Cidx} {obj obj' : Fat32Obj} {st st' : Fns} {e : Slot}
  {es es' : List Slot} {objs : List Fat32Obj}

theorem push_flag {name : List Byte} (h : st.push name = .ok st') : st'.flag = st.flag := by
  unfold Fns.push at h
  split at h
  all_goals cases h
  rfl

-- A slot without an entry changes only whether a piece of a name has been seen.
theorem foundEntries_next (h : visit fs st obj e = .ok (.next st')) :
    foundEntries fs st.flag (e :: es) = foundEntries fs st'.flag es := by
  have hn := visit_next h
  unfold visit at h
  split at h
  case isTrue hf =>
    cases h
    rw [foundEntries, if_pos hf]
  split at h
  case isTrue hf hl =>
    obtain ⟨st₁, hs, h⟩ := Except.bind_eq_ok.mp h
    cases h
    have hflag : (if st.flag then st else { st with flag := true, fnNum := longFnStackNum }).flag = true := by
      split_ifs with hf
      case pos => exact hf
      case neg => rfl
    rw [foundEntries, if_neg hf, if_pos hl, push_flag hs, hflag]
  split at h
  case isTrue =>
    obtain ⟨_, _, h⟩ := Except.bind_eq_ok.mp h
    cases h
  split at h
  case isTrue =>
    obtain ⟨_, _, h⟩ := Except.bind_eq_ok.mp h
    cases h
  case isFalse hf hl hi hd =>
    cases h
    rw [foundEntries_other hf hl, Slot.found?, if_neg <| by simp [hf, hl], if_neg hi, if_neg hd]
    rfl

theorem listSlots_entries (h : listSlots fs st obj es = .ok objs) :
    objs.map Fat32Obj.entry = foundEntries fs st.flag es := by
  induction es generalizing st obj objs
  case nil =>
    cases h
    rfl
  case cons e es hi =>
    obtain ⟨r, hv, h⟩ := Except.bind_eq_ok.mp h
    cases r
    case next st'  => rw [foundEntries_next hv, hi h]
    case found obj' =>
      obtain ⟨objs', ho, h⟩ := Except.bind_eq_ok.mp h
      cases h
      obtain ⟨hf, hl, _⟩ := isSome_entry <| visit_found_isSome hv
      rw [foundEntries_other hf hl, visit_found_entry hv, List.map_cons, hi ho]
      rfl

-- The first call for some slots, and the calls after it.
inductive Looks (fs : Fat32Fs) (obj : Fat32Obj) (st : Fns) (es : List Slot) : Prop
  | error {f : Fault} : look fs obj st es = .error f → listSlots fs st obj es = .error f → Looks fs obj st es
  | none {st' : Fns} : look fs obj st es = .ok (.inl st') → listSlots fs st obj es = .ok [] →
    (∀ e ∈ es, e.entry? fs = none) → Looks fs obj st es
  | found {obj' : Fat32Obj} {pre : List Slot} {e : Slot} {post : List Slot} : look fs obj st es = .ok (.inr obj') →
    listSlots fs st obj es = (obj' :: ·) <$> listSlots fs .init obj' post → es = pre ++ e :: post →
    (∀ e ∈ pre, e.entry? fs = none) → (e.entry? fs).isSome → Looks fs obj st es

theorem looks (fs : Fat32Fs) (obj : Fat32Obj) (st : Fns) (es : List Slot) : Looks fs obj st es := by
  induction es generalizing st
  case nil => exact .none rfl rfl nofun
  case cons e es hi =>
    cases hv : visit fs st obj e
    case error f =>
      refine .error (f := f) ?_ ?_
      all_goals simp only [look, listSlots, hv]; rfl
    case ok r =>
      cases r
      case found obj' =>
        refine @Looks.found fs obj st (e :: es) obj' [] e es (by rw [look, hv]; rfl) ?_ rfl (by simp) (visit_found_isSome hv)
        rw [listSlots, hv]
        simp only [bind, Except.bind, Functor.map, Except.map]
        cases listSlots fs .init obj' es <;> rfl
      case next st' =>
        have hn := visit_next hv
        have hl : look fs obj st (e :: es) = look fs obj st' es := by rw [look, hv]; rfl
        have hs : listSlots fs st obj (e :: es) = listSlots fs st' obj es := by rw [listSlots, hv]; rfl
        obtain ⟨h₁, h₂⟩ | ⟨h₁, h₂, h₃⟩ | ⟨h₁, h₂, rfl, h₃, h₄⟩ := hi st'
        case error => exact .error (hl.trans h₁) (hs.trans h₂)
        case none  => exact .none (hl.trans h₁) (hs.trans h₂) <| List.forall_mem_cons.mpr ⟨hn, h₃⟩
        case found => exact .found (hl.trans h₁) (hs.trans h₂) rfl (List.forall_mem_cons.mpr ⟨hn, h₃⟩) h₄

namespace AllBounded

theorem bounded (h : AllBounded fs es) : Bounded fs es :=
  h [] es rfl nofun

-- There is no entry behind which another call begins.
theorem of_none (h : ∀ e ∈ es, e.entry? fs = none) (hb : Bounded fs es) : AllBounded fs es := by
  intro es₁ es₂ he hl
  cases hg : es₁.getLast?
  case none =>
    rw [List.getLast?_eq_none_iff.mp hg, List.nil_append] at he
    exact he ▸ hb
  case some e =>
    have hm : e ∈ es := he ▸ List.mem_append_left _ (List.mem_of_getLast? hg)
    have := hl e hg
    rw [h e hm] at this
    cases this

-- The next call begins behind the first entry.
theorem append_iff {pre post : List Slot} (h : ∀ e ∈ pre, e.entry? fs = none) (he : (e.entry? fs).isSome) :
    AllBounded fs (pre ++ e :: post) ↔ Bounded fs (pre ++ e :: post) ∧ AllBounded fs post := by
  constructor
  case mp =>
    intro hb
    refine ⟨hb.bounded, fun es₁ es₂ hp hl => hb (pre ++ e :: es₁) es₂ (by rw [hp, List.append_assoc]; rfl) ?_⟩
    intro e' hg
    rw [List.getLast?_append_of_ne_nil _ (List.cons_ne_nil _ _)] at hg
    cases hg' : es₁.getLast?
    case none =>
      rw [List.getLast?_eq_none_iff.mp hg'] at hg
      cases hg
      exact he
    case some e'' =>
      rw [List.getLast?_cons, hg'] at hg
      cases hg
      exact hl _ hg'
  case mpr =>
    intro ⟨hb, hp⟩ es₁ es₂ hes hl
    cases hg : es₁.getLast?
    case none =>
      rw [List.getLast?_eq_none_iff.mp hg, List.nil_append] at hes
      exact hes ▸ hb
    case some e' =>
      have hs := hl e' hg
      have hm := List.mem_of_getLast? hg
      obtain ⟨as, rfl, has⟩ | ⟨bs, rfl, _⟩ := List.append_eq_append_iff.mp hes
      case inr =>
        rw [h e' <| List.mem_append_left _ hm] at hs
        cases hs
      case inl =>
        cases as
        case nil =>
          rw [List.append_nil] at hm
          rw [h e' hm] at hs
          cases hs
        case cons a as =>
          obtain ⟨rfl, rfl⟩ := List.cons.inj has
          refine hp as es₂ rfl fun e'' hg'' => ?_
          refine hl e'' ?_
          rw [List.getLast?_append_of_ne_nil _ (List.cons_ne_nil _ _), List.getLast?_cons, hg'']
          rfl

end AllBounded

theorem exists_listSlots_iff : (∃ objs, listSlots fs .init obj es = .ok objs) ↔ AllBounded fs es := by
  induction hn : es.length using Nat.strongRecOn generalizing es obj
  case ind n hi =>
  have hb : (∃ r, look fs obj .init es = .ok r) ↔ Bounded fs es := look_init_iff
  obtain ⟨h₁, h₂⟩ | ⟨h₁, h₂, h₃⟩ | ⟨h₁, h₂, rfl, h₃, h₄⟩ := looks fs obj .init es
  case error =>
    refine iff_of_false (fun ⟨_, h⟩ => by cases h₂.symm.trans h) fun h => ?_
    obtain ⟨_, h⟩ := hb.mpr h.bounded
    cases h₁.symm.trans h
  case none => exact iff_of_true ⟨_, h₂⟩ <| .of_none h₃ <| hb.mp ⟨_, h₁⟩
  case found obj' pre e post =>
    have hlt : post.length < n := by
      rw [← hn, List.length_append, List.length_cons]
      omega
    rw [AllBounded.append_iff h₃ h₄, ← hb, ← @hi post.length hlt obj' post rfl, h₂]
    constructor
    case mp =>
      intro ⟨objs, h⟩
      obtain ⟨objs', h, _⟩ := exists_of_map_ok h
      exact ⟨⟨_, h₁⟩, objs', h⟩
    case mpr => exact fun ⟨_, objs, h⟩ => ⟨obj' :: objs, by rw [h]; rfl⟩

-- The calls find the entries of the chain just if the successors lead along it.
theorem lists_iff_traversable {dir : Fat32Obj} (l : Layout fs cs) (hb : 0 < fs.bufNum) (h : Chain v dir.cidx cs) :
    Lists v cs dir ↔ Traversable v cs dir.cidx := by
  rw [lists_iff_listSlots l hb h]
  constructor
  case mp =>
    intro hl
    obtain ⟨vs, objs, hw, hv, ho, he⟩ := hl dir
    exact ⟨vs, hw, hv, exists_listSlots_iff.mp ⟨objs, ho⟩, (listSlots_entries ho).symm.trans he⟩
  case mpr =>
    intro ⟨vs, hw, hv, ha, he⟩ obj
    obtain ⟨objs, ho⟩ := exists_listSlots_iff.mpr ha
    exact ⟨vs, objs, hw, hv, ho, (listSlots_entries ho).trans he⟩

-- If no directory has cluster 0, the names do not matter.
theorem foundEntries_eq {named : Bool} (h : ∀ e ∈ es, ¬e.isFree → e.isDirectory → e.firstCluster ≠ 0) :
    foundEntries fs named es = entries fs es := by
  induction es generalizing named
  case nil => rfl
  case cons e es hi =>
    have hi {named : Bool} := @hi named fun e he => h e <| .tail _ he
    have hd : e.found? fs named = e.entry? fs := by
      unfold Slot.found? Slot.entry?
      by_cases hf : e.isFree
      case pos => simp [hf]
      case neg =>
        by_cases hdir : e.isDirectory
        case pos => simp only [h e (.head _) hf hdir, and_false, if_false]
        case neg => simp [hdir]
    rw [foundEntries, hi, hi, hi, hd, entries, entries, List.filterMap_cons]
    split_ifs with hf hl
    case pos => simp [Slot.entry?, hf]
    case pos => simp [Slot.entry?, hl]
    case neg => cases e.entry? fs <;> rfl

-- Each slot has an entry.
def Named (b : Byte) : Prop :=
  b ≠ 0 ∧ b ≠ dirnameFree ∧ b &&& attrLongNameMask ≠ attrLongName ∧ (b ++ b ++ b ++ b : Cidx) ≠ 0

instance {b : Byte} : Decidable (Named b) :=
  inferInstanceAs <| Decidable (_ ∧ _)

theorem uniform_endsWithDirectory {b : Byte} (h : Named b) : EndsWithDirectory (uniform b) 3 ↔
    b &&& (attrVolumeId ||| attrDirectory) = attrDirectory := by
  have ⟨h₁, h₂, h₃, h₄⟩ := h
  unfold EndsWithDirectory
  cases he : (clusterSlots (uniform b) 3).getLast?
  case none =>
    have := congrArg List.length <| List.getLast?_eq_none_iff.mp he
    rw [clusterSlots_length] at this
    exact absurd this <| by decide
  case some e =>
    have hu {k : Nat} (hk : k < 32) := uniform_slot (List.mem_of_getLast? he) hk
    have hf : ¬e.isFree := by simpa [Slot.isFree, hu] using ⟨h₂, h₁⟩
    have hl : ¬e.isLongName := by simpa [Slot.isLongName, Slot.attr, hu] using h₃
    have hd : e.isDirectory ↔ b &&& (attrVolumeId ||| attrDirectory) = attrDirectory := by
      simp [Slot.isDirectory, Slot.attr, hu]
    have hi : e.isFile ↔ b &&& (attrVolumeId ||| attrDirectory) = 0 := by simp [Slot.isFile, Slot.attr, hu]
    rw [← hd, Option.bind_some, Slot.entry?]
    by_cases h₀ : e.isFile
    case pos =>
      have : ¬e.isDirectory := hd.not.mpr <| by rw [hi.mp h₀]; decide
      simp [hf, hl, h₀, this]
    case neg => by_cases e.isDirectory <;> simp_all

-- A piece of a name that has no end and belongs to no entry.
def orphan : Slot :=
  fun k => if k = 0 then 1 else if k = 11 then attrLongName else 0xff

def orphanVolume : Volume sample :=
  slotsVolume [fun _ => 0x41, orphan]

theorem orphanVolume_chain : Chain orphanVolume 3 [3] :=
  slotsVolume_chain _

theorem orphanVolume_slots : ∃ s₀ s₁ rest, chainSlots orphanVolume [3] = s₀ :: s₁ :: rest ∧
    (∀ k < 32, s₀ k = 0x41) ∧ (∀ k < 32, s₁ k = orphan k) ∧ ∀ e ∈ rest, e.isFree := by
  refine ⟨slotAt (orphanVolume <| clusterSidx sample 3 0) (32 * 0), slotAt (orphanVolume <| clusterSidx sample 3 0) (32 * 1),
    ((List.range' 2 14).map fun j => slotAt (orphanVolume <| clusterSidx sample 3 0) (32 * j)) ++
      sectorSlots (orphanVolume <| clusterSidx sample 3 1), rfl, fun k hk => slotsVolume_slot (by decide) hk,
    fun k hk => slotsVolume_slot (by decide) hk, fun e he => ?_⟩
  have free {e : Slot} (h : e 0 = 0) : e.isFree := decide_eq_true <| .inr h
  cases List.mem_append.mp he
  case inl he =>
    obtain ⟨j, hj, rfl⟩ := List.mem_map.mp he
    rw [List.mem_range'_1] at hj
    refine free <| (slotsVolume_slot hj.2 (by decide)).trans ?_
    rw [List.getD_eq_default _ _ hj.1]
  case inr he =>
    obtain ⟨j, hj, rfl⟩ := List.mem_map.mp he
    refine free ?_
    unfold slotAt byteAt
    split_ifs
    case pos => rfl
    case neg => rfl

theorem orphan_not_entry {s : Slot} (h : ∀ k < 32, s k = orphan k) : ¬s.isFree ∧ s.isLongName := by
  rw [Slot.isFree, Slot.isLongName, Slot.attr, h _ (by decide), h _ (by decide)]
  decide

-- The first slot has an entry, and there is none behind it.
theorem orphanVolume_entry : ∃ s₀ s₁ rest, chainSlots orphanVolume [3] = s₀ :: s₁ :: rest ∧ ( Slot.entry? sample s₀).isSome ∧
    (∀ e ∈ s₁ :: rest, e.entry? sample = none) ∧ names (s₁ :: rest) = [[fat32CopyNameLong s₁]] := by
  obtain ⟨s₀, s₁, rest, hs, h₀, h₁, hr⟩ := orphanVolume_slots
  obtain ⟨hf, hl⟩ := orphan_not_entry h₁
  refine ⟨s₀, s₁, rest, hs, ?_, List.forall_mem_cons.mpr ⟨?_, fun e he => ?_⟩, ?_⟩
  case refine_1 =>
    unfold Slot.entry?
    rw [Slot.isFree, Slot.isLongName, Slot.isFile, Slot.attr, h₀ _ (by decide), h₀ _ (by decide)]
    rfl
  case refine_2 => simp [Slot.entry?, hl]
  case refine_3 => simp [Slot.entry?, hr e he]
  case refine_4 =>
    have := @names_free rest [] hr
    rw [List.append_nil] at this
    rw [names, if_neg hf, if_pos hl, this]
    rfl

theorem orphanVolume_walk : Walk orphanVolume 3 [3] := by
  obtain ⟨s₀, s₁, rest, hs, _, hnone, _⟩ := orphanVolume_entry
  refine .of_chain orphanVolume_chain fun c hc hd => ?_
  obtain rfl := List.mem_singleton.mp hc
  have hl : (clusterSlots orphanVolume 3).getLast? = (s₁ :: rest).getLast? := by
    rw [← List.getLast?_cons_cons (a := s₀), ← hs, chainSlots, List.flatMap_singleton]
  rw [EndsWithDirectory, hl] at hd
  cases hg : (s₁ :: rest).getLast?
  case none   => simp [hg] at hd
  case some e => simp [hg, hnone e <| List.mem_of_getLast? hg] at hd

theorem orphanVolume_bounded : AllBounded sample (chainSlots orphanVolume [3]) := by
  obtain ⟨s₀, s₁, rest, hs, hfile, hnone, hnames⟩ := orphanVolume_entry
  rw [hs]
  refine (@AllBounded.append_iff _ s₀ [] (s₁ :: rest) (by simp) hfile).mpr ⟨?_, .of_none hnone ?_⟩
  case refine_1 =>
    have hn : namesAhead sample (s₀ :: s₁ :: rest) = [[]] := by
      rw [namesAhead, List.takeWhile_cons_of_neg (by simp [Option.isSome_iff_ne_none.mp hfile]), names]
    rw [List.nil_append]
    exact ⟨by simp [hn], fun _ => by simp [hn, Terminated]⟩
  case refine_2 =>
    have hn : namesAhead sample (s₁ :: rest) = [[fat32CopyNameLong s₁]] := by
      rw [namesAhead, List.takeWhile_eq_self_iff.mpr fun e he => by simp [hnone e he], hnames]
    refine ⟨by simp [hn, longFnStackNum], ?_⟩
    rintro ⟨e, he, hs⟩
    rw [hnone e he] at hs
    cases hs

theorem orphan_lists : Lists orphanVolume [3] sampleDirectory := by
  obtain ⟨s₀, s₁, rest, hs, h₀, h₁, hr⟩ := orphanVolume_slots
  refine (lists_iff_traversable sample_layout (by decide) orphanVolume_chain).mpr
    ⟨[3], orphanVolume_walk, fun _ h => h, orphanVolume_bounded, foundEntries_eq ?_⟩
  rw [hs]
  refine List.forall_mem_cons.mpr ⟨fun _ _ => ?_, List.forall_mem_cons.mpr ⟨fun _ hd => ?_, fun e he hf => ?_⟩⟩
  case refine_1 =>
    rw [Slot.firstCluster, h₀ _ (by decide), h₀ _ (by decide), h₀ _ (by decide), h₀ _ (by decide)]
    decide
  case refine_2 =>
    rw [Slot.isDirectory, Slot.attr, h₁ _ (by decide)] at hd
    exact absurd hd <| by decide
  case refine_3 => exact absurd (hr e he) hf

-- After the last entry of a directory of directories, the slots of cluster 4 are read.
theorem directories_not_lists : Chain (uniform 16) 3 [3] ∧ (∀ e ∈ chainSlots (uniform 16) [3], ¬e.isLongName) ∧
    ¬Lists (uniform 16) [3] sampleDirectory := by
  have hn : Named 16 := by decide
  refine ⟨uniform_chain 16, fun e he => ?_, fun hl => ?_⟩
  case refine_1 =>
    have h₁₁ : e 11 = 16 := uniform_slot (by simpa [chainSlots] using he) (by decide)
    rw [Slot.isLongName, Slot.attr, h₁₁]
    decide
  case refine_2 =>
    have hd : EndsWithDirectory (uniform 16) 3 := (uniform_endsWithDirectory hn).mpr <| by decide
    obtain ⟨vs, hw, hv, -⟩ := (lists_iff_traversable sample_layout (by decide) <| uniform_chain 16).mp hl
    cases hw
    case nil hlt => exact absurd hlt <| by decide
    case cons hw _ he =>
      cases Except.ok.inj <| (if_pos hd).symm.trans he
      cases hw
      case nil hlt => exact absurd hlt <| by decide
      case cons    => exact absurd (hv (sampleDirectory.cidx + 1) <| by simp) <| by decide

end Zgmos.Fat32
