import Zgmos.Fat32.Traversal

-- The stack of `fat32_iter_next` with the pieces of a long name.

namespace Zgmos.Fat32

def longFnLen : Nat :=
  13

-- The pieces of a name in the order of their slots.
abbrev LongName := List (List Byte)

-- The names in some slots. A name ends with a slot which is in use and has no piece.
def names : List Slot → List LongName
  | []      => [[]]
  | e :: es =>
    if e.isFree then
      names es
    else if e.isLongName then
      (names es).modifyHead (fat32CopyNameLong e :: ·)
    else
      [] :: names es

-- What is in a row after some pieces have been written to it.
def overlay (ps : List (List Byte)) : List Byte :=
  ps.foldl (fun row p => p ++ row.drop p.length) []

-- The row of each piece of the last name has an end, which can come from an earlier name.
def Terminated (ns : List LongName) : Prop :=
  ∀ name ∈ ns.getLast?, ∀ j < name.length, 0 ∈ overlay (ns.filterMap (·[j]?))

-- The names before the first entry.
def namesAhead (fs : Fat32Fs) (es : List Slot) : List LongName :=
  names <| es.takeWhile fun e => Option.isNone <| e.entry? fs

-- No name before the first entry has more than ten pieces, and the name of the entry has its ends.
structure Bounded (fs : Fat32Fs) (es : List Slot) : Prop where
  rows : ∀ name ∈ namesAhead fs es, name.length ≤ longFnStackNum
  ends : (∃ e ∈ es, Option.isSome <| e.entry? fs) → Terminated (namesAhead fs es)

-- All columns that have been written exist.
def Fns.Fits (st : Fns) : Prop :=
  ∀ j, (st.rows j).length ≤ longFnLen + 1

variable {fs : Fat32Fs}

-- The slots of `n` clusters from slot `p` of a cluster on.
def slotsAhead (v : Volume fs) : (cidx : Cidx) → (p n : Nat) → List Slot
  | _,    _, 0     => []
  | cidx, p, n + 1 =>
    if cidx < chainEndFlag then
      match (fat32GetChain cidx).eval v with
      | .ok cidx' => (clusterSlots v cidx).drop p ++ slotsAhead v cidx' 0 n
      | .error _  => (clusterSlots v cidx).drop p
    else
      []

-- The loop over the slots without their positions.
def look (fs : Fat32Fs) (obj : Fat32Obj) : Fns → List Slot → Except Fault (Fns ⊕ Fat32Obj)
  | st, []      => return .inl st
  | st, e :: es => do
    match ← visit fs st obj e with
    | .next st   => look fs obj st es
    | .found obj => return .inr obj

-- A call stays inside of the rows and finds their ends, it stays inside of the columns, and the name that it writes fits
-- into the object.
structure Safe (v : Volume fs) (cidx : Cidx) (p : Nat) (obj : Fat32Obj) : Prop where
  rows    : ∀ fuel, (fat32IterNext fuel (iterAt fs cidx p) obj).eval v ≠ .error .outOfBounds
  columns : ∀ n es st, es <+: slotsAhead v cidx p n → look fs obj .init es = .ok (.inl st) → st.Fits
  name    : ∀ fuel iter obj', (fat32IterNext fuel (iterAt fs cidx p) obj).eval v = .ok (some (iter, obj')) →
    ∃ name, name.length ≤ longFnLen * longFnStackNum + 1 ∧ obj'.longFn = obj.longFn.write 0 name

variable {v : Volume fs} {cidx : Cidx} {obj obj' : Fat32Obj} {st st' : Fns} {e : Slot} {es es' : List Slot}
  {done : List LongName} {cur : LongName} {piece : List Byte} {p n j : Nat}

@[simp]
theorem overlay_concat {ps : List (List Byte)} : overlay (ps ++ [piece]) = piece ++ (overlay ps).drop piece.length := by
  simp [overlay]

-- The names if `done` and the pieces of `cur` have been seen already.
def namesFrom (done : List LongName) (cur : LongName) (es : List Slot) : List LongName :=
  done ++ (names es).modifyHead (cur ++ ·)

theorem namesFrom_nil : namesFrom done cur [] = done ++ [cur] := by
  simp [namesFrom, names]

theorem namesFrom_init : namesFrom [] [] es = names es := by
  cases h : names es <;> simp [namesFrom, h]

theorem namesFrom_free (h : e.isFree) : namesFrom done cur (e :: es) = namesFrom done cur es := by
  simp [namesFrom, names, h]

theorem namesFrom_longName (hf : ¬e.isFree) (h : e.isLongName) :
    namesFrom done cur (e :: es) = namesFrom done (cur ++ [fat32CopyNameLong e]) es := by
  cases hn : names es <;> simp [namesFrom, names, hf, h, hn]

theorem namesFrom_other (hf : ¬e.isFree) (h : ¬e.isLongName) :
    namesFrom done cur (e :: es) = namesFrom (done ++ [cur]) [] es := by
  cases hn : names es <;> simp [namesFrom, names, hf, h, hn]

theorem names_ne_nil : names es ≠ [] := by
  induction es
  case nil => exact nofun
  case cons e es hi =>
    unfold names
    split
    case isTrue => exact hi
    split
    case isTrue  => simpa using hi
    case isFalse => exact nofun

-- The name at hand gets longer only.
theorem exists_mem_namesFrom : ∃ name ∈ namesFrom done cur es, cur.length ≤ name.length := by
  cases h : names es
  case nil          => exact absurd h names_ne_nil
  case cons name ns => exact ⟨cur ++ name, by simp [namesFrom, h], by simp⟩

-- The stack after some slots.
structure Represents (st : Fns) (done : List LongName) (cur : LongName) : Prop where
  flag  : st.flag ↔ cur ≠ []
  fnNum : cur ≠ [] → st.fnNum = longFnStackNum - cur.length
  fits  : ∀ name ∈ done ++ [cur], name.length ≤ longFnStackNum
  rows  : ∀ j < longFnStackNum, st.rows (longFnStackNum - 1 - j) = overlay ((done ++ [cur]).filterMap (·[j]?))

theorem represents_init : Represents .init [] [] where
  flag  := by simp [Fns.init]
  fnNum := by simp
  fits  := by simp
  rows  := by simp [Fns.init, overlay]

-- The stack when a piece comes.
def Fns.opened (st : Fns) : Fns :=
  if st.flag then st else { st with flag := true, fnNum := longFnStackNum }

namespace Represents

variable (r : Represents st done cur)

include r

theorem opened_fnNum : st.opened.fnNum = longFnStackNum - cur.length := by
  cases cur
  case nil =>
    have hf : ¬st.flag := fun h => r.flag.mp h rfl
    simp [Fns.opened, hf]
  case cons =>
    rw [Fns.opened, if_pos <| r.flag.mpr <| by simp]
    exact r.fnNum <| by simp

omit r in
theorem opened_rows : st.opened.rows = st.rows := by
  unfold Fns.opened
  split <;> rfl

omit r in
theorem opened_flag : st.opened.flag = true := by
  unfold Fns.opened
  split
  case isTrue h => exact h
  case isFalse  => rfl

theorem push_error (hc : ¬cur.length < longFnStackNum) : st.opened.push piece = .error .outOfBounds := by
  have h : st.opened.fnNum = 0 := by rw [r.opened_fnNum]; omega
  simp only [Fns.push, h]
  rfl

theorem push (hc : cur.length < longFnStackNum) :
    ∃ st', st.opened.push piece = .ok st' ∧ Represents st' done (cur ++ [piece]) := by
  have h : st.opened.fnNum = longFnStackNum - 1 - cur.length + 1 := by rw [r.opened_fnNum]; omega
  refine ⟨_, by simp only [Fns.push, h]; rfl, ?_⟩
  constructor
  case flag  => simp [opened_flag]
  case fnNum =>
    intro _
    rw [List.length_append, List.length_singleton]
    dsimp only
    omega
  case fits =>
    intro name hm
    cases List.mem_append.mp hm
    case inl hm => exact r.fits name <| by simp [hm]
    case inr hm =>
      rw [List.mem_singleton.mp hm, List.length_append]
      exact hc
  case rows =>
    intro j hj
    have hr := r.rows j hj
    rw [List.filterMap_append] at hr ⊢
    dsimp only
    rw [opened_rows]
    by_cases he : j = cur.length
    case pos =>
      subst he
      simp only [List.filterMap_cons, List.getElem?_length, List.filterMap_nil, List.append_nil] at hr
      simp [hr]
    case neg =>
      have hne : longFnStackNum - 1 - j ≠ longFnStackNum - 1 - cur.length := by omega
      rw [Function.update_of_ne hne, hr]
      cases Nat.lt_or_gt_of_ne he
      case inl hl => simp only [List.filterMap_cons, List.getElem?_append_left hl]
      case inr hl =>
        have hn : (cur ++ [piece])[j]? = none := List.getElem?_eq_none <| by simpa using hl
        have hc : cur[j]? = none := List.getElem?_eq_none <| Nat.le_of_lt hl
        simp only [List.filterMap_cons, hn, hc]

theorem reset : Represents { st with flag := false } (done ++ [cur]) [] where
  flag  := by simp
  fnNum := by simp
  fits  := by
    intro name hm
    cases List.mem_append.mp hm
    case inl hm => exact r.fits name hm
    case inr hm => simp [List.mem_singleton.mp hm]
  rows  := by
    intro j hj
    rw [r.rows j hj, @List.filterMap_append _ _ (done ++ [cur]) [[]]]
    exact congrArg overlay (List.append_nil _).symm

-- The rows are read from the top of the stack on.
theorem terminated_iff :
    Terminated (done ++ [cur]) ↔ (st.flag → ∀ j, st.fnNum ≤ j → j < longFnStackNum → 0 ∈ st.rows j) := by
  have hl := r.fits cur <| by simp
  simp only [Terminated, List.getLast?_concat, Option.mem_some_iff, forall_eq']
  constructor
  case mp =>
    intro h hf j hj hlt
    rw [r.fnNum <| r.flag.mp hf] at hj
    have := h (longFnStackNum - 1 - j) (by omega)
    rw [← r.rows _ <| by omega] at this
    rwa [show longFnStackNum - 1 - (longFnStackNum - 1 - j) = j by omega] at this
  case mpr =>
    intro h j hj
    have hc : cur ≠ [] := List.ne_nil_of_length_pos <| Nat.zero_lt_of_lt hj
    rw [← r.rows _ <| by omega]
    exact h (r.flag.mpr hc) _ (by rw [r.fnNum hc]; omega) (by omega)

end Represents

-- The end of a row is not in its string.
theorem strcpyEnd_ok {row name : List Byte} (h : Fns.strcpyEnd row = .ok name) : 0 ∈ row ∧ name.length < row.length := by
  unfold Fns.strcpyEnd at h
  split at h
  case isFalse => nomatch h
  case isTrue hz =>
    cases h
    have hp : (row.takeWhile (· ≠ 0)).Sublist row := List.takeWhile_sublist _
    refine ⟨hz, Nat.lt_of_le_of_ne hp.length_le fun hl => ?_⟩
    have := List.takeWhile_eq_self_iff.mp (hp.eq_of_length hl) 0 hz
    simp at this

theorem longFn_ok {name : List Byte} (h : st.longFn = .ok name) :
    (∀ j, st.fnNum ≤ j → j < longFnStackNum → 0 ∈ st.rows j) ∧
      (st.Fits → name.length ≤ longFnLen * longFnStackNum + 1) := by
  have ⟨names, hn, h⟩ := Except.bind_eq_ok.mp h
  have ⟨hl, hr, hm⟩ := Except.mapM_eq_ok hn
  cases h
  constructor
  case left =>
    intro j hj hlt
    have ⟨_, hs⟩ := hr j <| List.mem_range'_1.mpr ⟨hj, by omega⟩
    exact (strcpyEnd_ok hs).1
  case right =>
    intro hf
    have hb : ∀ n ∈ names.map List.length, n ≤ longFnLen := by
      intro n hn
      have ⟨name, hm', he⟩ := List.mem_map.mp hn
      have ⟨j, _, hs⟩ := hm name hm'
      have := (strcpyEnd_ok hs).2
      have := hf j
      omega
    have hs := List.sum_le_card_nsmul _ _ hb
    rw [List.length_map, hl, List.length_range', smul_eq_mul] at hs
    have := Nat.mul_le_mul_right longFnLen <| Nat.sub_le longFnStackNum st.fnNum
    rw [List.length_append, List.length_flatten, List.length_singleton]
    rw [Nat.mul_comm longFnLen]
    omega

-- The rows are read in the order of their indices.
theorem longFn_eq (h : ∀ j, st.fnNum ≤ j → j < longFnStackNum → 0 ∈ st.rows j) :
    st.longFn = .ok (((List.range' st.fnNum (longFnStackNum - st.fnNum)).map fun j =>
      (st.rows j).takeWhile (· ≠ 0)).flatten ++ [0]) := by
  have hm (js : List Nat) (hj : ∀ j ∈ js, 0 ∈ st.rows j) :
      js.mapM (fun j => Fns.strcpyEnd (st.rows j)) = .ok (js.map fun j => (st.rows j).takeWhile (· ≠ 0)) := by
    induction js
    case nil => rfl
    case cons j js hi =>
      rw [List.mapM_cons, hi fun k hk => hj k <| .tail _ hk, Fns.strcpyEnd, if_pos <| hj j <| .head _]
      rfl
  rw [Fns.longFn, hm]
  case hj =>
    intro j hj
    rw [List.mem_range'_1] at hj
    exact h j hj.1 <| by omega
  rfl

-- No piece is longer than a row.
theorem fat32CopyNameLong_length (e : Slot) : (fat32CopyNameLong e).length ≤ longFnLen + 1 := by
  have hl : ∀ f : Nat → Bool, (longNameUnits.takeWhile f).length ≤ longFnLen :=
    fun f => List.Sublist.length_le <| List.takeWhile_sublist f
  have := hl fun k => ¬(e k = 0xff ∧ e (k + 1) = 0xff)
  unfold fat32CopyNameLong
  dsimp only
  split
  case isTrue =>
    rw [List.length_append, List.length_map]
    exact Nat.succ_le_succ this
  case isFalse =>
    rw [List.length_map]
    exact Nat.le_succ_of_le this

namespace Fns.Fits

theorem init : Fns.init.Fits :=
  fun _ => Nat.zero_le _

theorem opened (h : st.Fits) : st.opened.Fits := by
  unfold Fns.opened
  split <;> exact h

theorem push (h : st.Fits) (hp : piece.length ≤ longFnLen + 1) (hs : st.push piece = .ok st') : st'.Fits := by
  unfold Fns.push at hs
  split at hs
  case h_1 => nomatch hs
  case h_2 n _ =>
    cases hs
    intro j
    by_cases he : j = n
    case neg => simpa only [Function.update_of_ne he] using h j
    case pos =>
      subst he
      have := h j
      simp only [Function.update_self, List.length_append, List.length_drop]
      omega

theorem visit (h : st.Fits) (hv : visit fs st obj e = .ok (.next st')) : st'.Fits := by
  unfold Fat32.visit at hv
  split at hv
  case isTrue =>
    cases hv
    exact h
  split at hv
  case isTrue =>
    have ⟨_, hs, hv⟩ := Except.bind_eq_ok.mp hv
    cases hv
    exact h.opened.push (fat32CopyNameLong_length e) hs
  split at hv
  case isTrue =>
    have ⟨_, _, hv⟩ := Except.bind_eq_ok.mp hv
    nomatch hv
  split at hv
  case isTrue =>
    have ⟨_, _, hv⟩ := Except.bind_eq_ok.mp hv
    nomatch hv
  case isFalse =>
    cases hv
    exact h

theorem look (h : st.Fits) (hl : look fs obj st es = .ok (.inl st')) : st'.Fits := by
  induction es generalizing st
  case nil =>
    cases hl
    exact h
  case cons e es hi =>
    have ⟨r, hv, hl⟩ := Except.bind_eq_ok.mp hl
    cases r
    case found => nomatch hl
    case next  => exact hi (h.visit hv) hl

end Fns.Fits

-- The name of a file or a directory.

theorem isSome_entry (h : (e.entry? fs).isSome) : ¬e.isFree ∧ ¬e.isLongName ∧ (e.isFile ∨ e.isDirectory) := by
  unfold Slot.entry? at h
  split at h
  case isTrue => nomatch h
  case isFalse hn =>
    have ⟨hf, hl⟩ : ¬e.isFree ∧ ¬e.isLongName := by simpa using hn
    split at h
    case isTrue hi => exact ⟨hf, hl, .inl hi⟩
    split at h
    case isTrue hd => exact ⟨hf, hl, .inr hd⟩
    case isFalse   => nomatch h

theorem visit_entry (h : (e.entry? fs).isSome) :
    visit fs st obj e = .found <$> if e.isFile then visitFile st obj e else visitDirectory fs st obj e := by
  have ⟨hf, hl, hd⟩ := isSome_entry h
  unfold visit
  rw [if_neg hf, if_neg hl]
  split
  case isTrue  => rfl
  case isFalse => rw [if_pos <| hd.resolve_left ‹_›]; rfl

theorem visitFile_ok_name (h : visitFile st obj e = .ok obj') :
    (st.flag → ∃ name, st.longFn = .ok name) ∧
      (st.Fits → ∃ name, name.length ≤ longFnLen * longFnStackNum + 1 ∧ obj'.longFn = obj.longFn.write 0 name) := by
  unfold visitFile at h
  dsimp only at h
  split at h
  all_goals
    have ⟨name, hn, h⟩ := Except.bind_eq_ok.mp h
    cases h
  case isTrue  => exact ⟨fun _ => ⟨name, hn⟩, fun hf => ⟨name, (longFn_ok hn).2 hf, rfl⟩⟩
  case isFalse hf =>
    cases hn
    exact ⟨fun h => absurd h hf, fun _ => ⟨[0], by decide, rfl⟩⟩

theorem fat32NameS2l_length (sfn : Memory Byte) : (fat32NameS2l sfn).length ≤ longFnLen * longFnStackNum + 1 := by
  have h₁ : (((List.range 5).map sfn).takeWhile (· ≠ space)).length ≤ 5 :=
    List.Sublist.length_le <| List.takeWhile_sublist _
  have h₂ : ((([5, 6, 7]).map sfn).takeWhile (· ≠ space)).length ≤ 3 :=
    List.Sublist.length_le <| List.takeWhile_sublist _
  unfold fat32NameS2l longFnLen longFnStackNum
  dsimp only
  split
  all_goals
    simp only [List.length_append, List.length_cons, List.length_nil]
    omega

theorem visitDirectory_ok_name (h : visitDirectory fs st obj e = .ok obj') :
    (st.flag → ∃ name, st.longFn = .ok name) ∧
      (st.Fits → ∃ name, name.length ≤ longFnLen * longFnStackNum + 1 ∧ obj'.longFn = obj.longFn.write 0 name) := by
  unfold visitDirectory at h
  dsimp only at h
  split at h
  case isTrue =>
    have ⟨name, hn, h⟩ := Except.bind_eq_ok.mp h
    cases h
    exact ⟨fun _ => ⟨name, hn⟩, fun hf => ⟨name, (longFn_ok hn).2 hf, rfl⟩⟩
  case isFalse hf =>
    refine ⟨fun h => absurd h hf, fun _ => ?_⟩
    split at h
    case isTrue =>
      cases h
      exact ⟨_, by decide, rfl⟩
    split at h
    case isTrue =>
      cases h
      exact ⟨_, by decide, rfl⟩
    case isFalse =>
      cases h
      exact ⟨_, fat32NameS2l_length _, rfl⟩

theorem visit_entry_ok (he : (e.entry? fs).isSome) (h : visit fs st obj e = .ok (.found obj')) :
    (st.flag → ∃ name, st.longFn = .ok name) ∧
      (st.Fits → ∃ name, name.length ≤ longFnLen * longFnStackNum + 1 ∧ obj'.longFn = obj.longFn.write 0 name) := by
  rw [visit_entry he] at h
  split at h
  case isTrue =>
    have ⟨_, ho, h⟩ := Except.bind_eq_ok.mp h
    cases h
    exact visitFile_ok_name ho
  case isFalse =>
    have ⟨_, ho, h⟩ := Except.bind_eq_ok.mp h
    cases h
    exact visitDirectory_ok_name ho

-- An entry with a long name.
theorem visit_entry_named {name : List Byte} (he : (e.entry? fs).isSome) (hf : st.flag) (hl : st.longFn = .ok name) :
    ∃ obj', visit fs st obj e = .ok (.found obj') ∧ obj'.longFn = obj.longFn.write 0 name ∧
      obj'.cidx = e.firstCluster := by
  rw [visit_entry he]
  split
  case isTrue =>
    simp only [visitFile, if_pos hf, hl]
    exact ⟨_, rfl, rfl, rfl⟩
  case isFalse =>
    simp only [visitDirectory, if_pos hf, hl]
    exact ⟨_, rfl, rfl, rfl⟩

theorem visit_entry_error (he : (e.entry? fs).isSome) {f : Fault} (h : visit fs st obj e = .error f) :
    st.flag ∧ ∃ j, st.fnNum ≤ j ∧ j < longFnStackNum ∧ 0 ∉ st.rows j := by
  rw [visit_entry he] at h
  split at h
  case isTrue =>
    have ⟨hf, hl⟩ := visitFile_error <| Except.of_bind_ok h
    exact ⟨hf, (longFn_error hl).2⟩
  case isFalse =>
    have ⟨hf, hl⟩ := visitDirectory_error <| Except.of_bind_ok h
    exact ⟨hf, (longFn_error hl).2⟩

structure BoundedFrom (fs : Fat32Fs) (done : List LongName) (cur : LongName) (es : List Slot) : Prop where
  rows : ∀ name ∈ namesFrom done cur <| es.takeWhile fun e => Option.isNone <| e.entry? fs, name.length ≤ longFnStackNum
  ends : (∃ e ∈ es, Option.isSome <| e.entry? fs) →
    Terminated (namesFrom done cur <| es.takeWhile fun e => Option.isNone <| e.entry? fs)

theorem boundedFrom_init : BoundedFrom fs [] [] es ↔ Bounded fs es := by
  have h : namesFrom [] [] (es.takeWhile fun e => Option.isNone <| e.entry? fs) = namesAhead fs es := namesFrom_init
  constructor
  case mp  => exact fun ⟨hr, he⟩ => ⟨h ▸ hr, h ▸ he⟩
  case mpr => exact fun ⟨hr, he⟩ => ⟨h ▸ hr, h ▸ he⟩

-- A slot without an entry is part of the names.
theorem boundedFrom_cons {done' : List LongName} {cur' : LongName} (he : ¬(e.entry? fs).isSome)
    (h : ∀ es, namesFrom done cur (e :: es) = namesFrom done' cur' es) :
    BoundedFrom fs done cur (e :: es) ↔ BoundedFrom fs done' cur' es := by
  have hw : (e :: es).takeWhile (fun e => Option.isNone <| e.entry? fs) =
      e :: es.takeWhile fun e => Option.isNone <| e.entry? fs :=
    List.takeWhile_cons_of_pos <| by simpa using he
  have hs : (∃ e' ∈ e :: es, (e'.entry? fs).isSome) ↔ ∃ e' ∈ es, (e'.entry? fs).isSome := by simp [he]
  constructor
  case mp  => exact fun ⟨hr, ht⟩ => ⟨h _ ▸ hw ▸ hr, fun hx => h _ ▸ hw ▸ ht (hs.mpr hx)⟩
  case mpr =>
    refine fun ⟨hr, ht⟩ => ⟨?_, fun hx => ?_⟩
    case refine_1 => rwa [hw, h]
    case refine_2 => rw [hw, h]; exact ht <| hs.mp hx

namespace Represents

variable (r : Represents st done cur)

include r

theorem boundedFrom_entry (he : (e.entry? fs).isSome) :
    BoundedFrom fs done cur (e :: es) ↔ Terminated (done ++ [cur]) := by
  have hw : (e :: es).takeWhile (fun e => Option.isNone <| e.entry? fs) = [] :=
    List.takeWhile_cons_of_neg <| by simpa using Option.isSome_iff_ne_none.mp he
  constructor
  case mp =>
    intro h
    have := h.ends ⟨e, .head _, he⟩
    rwa [hw, namesFrom_nil] at this
  case mpr =>
    intro h
    constructor
    case rows => rw [hw, namesFrom_nil]; exact r.fits
    case ends => rw [hw, namesFrom_nil]; exact fun _ => h

theorem visit_entry_iff (he : (e.entry? fs).isSome) :
    (∃ obj', visit fs st obj e = .ok (.found obj')) ↔ Terminated (done ++ [cur]) := by
  rw [r.terminated_iff]
  constructor
  case mp =>
    intro ⟨_, h⟩ hf
    have ⟨_, hn⟩ := (visit_entry_ok he h).1 hf
    exact (longFn_ok hn).1
  case mpr =>
    intro h
    cases hv : visit fs st obj e
    case error =>
      have ⟨hf, j, hj, hl, hz⟩ := visit_entry_error he hv
      exact absurd (h hf j hj hl) hz
    case ok r' =>
      cases r'
      case next  => simp [visit_next hv] at he
      case found => exact ⟨_, rfl⟩

-- The loop over the pieces of a name.
theorem look_pieces (hp : ∀ e ∈ es, ¬e.isFree ∧ e.isLongName) (hc : cur.length + es.length ≤ longFnStackNum) :
    ∃ st', look fs obj st es = .ok (.inl st') ∧ Represents st' done (cur ++ es.map fat32CopyNameLong) := by
  induction es generalizing st cur
  case nil => exact ⟨st, rfl, by simpa using r⟩
  case cons e es hi =>
    have ⟨hf, hl⟩ := hp e <| .head _
    rw [List.length_cons] at hc
    have ⟨st', hs, r'⟩ := @push st done cur (fat32CopyNameLong e) r <| by omega
    have hv : visit fs st obj e = .ok (.next st') := by
      rw [visit, if_neg hf, if_pos hl]
      exact congrArg (Visit.next <$> ·) hs
    have ⟨st'', hk, r''⟩ := hi r' (fun e he => hp e <| .tail _ he) <| by
      rw [List.length_append, List.length_singleton]
      omega
    exact ⟨st'', by rw [look, hv]; exact hk, by simpa using r''⟩

-- The loop over the slots gets through iff the names fit.
theorem look_iff : (∃ r', look fs obj st es = .ok r') ↔ BoundedFrom fs done cur es := by
  induction es generalizing st done cur
  case nil =>
    refine iff_of_true ⟨_, rfl⟩ ⟨?_, ?_⟩
    case refine_1 => rw [List.takeWhile_nil, namesFrom_nil]; exact r.fits
    case refine_2 => simp
  case cons e es hi =>
    by_cases he : (e.entry? fs).isSome
    case pos =>
      rw [r.boundedFrom_entry he, ← @visit_entry_iff fs obj st e done cur r he]
      constructor
      case mp =>
        rintro ⟨r', h⟩
        obtain ⟨r', hv, _⟩ := Except.bind_eq_ok.mp h
        cases r'
        case next  => simp [visit_next hv] at he
        case found => exact ⟨_, hv⟩
      case mpr => rintro ⟨_, hv⟩; exact ⟨_, by rw [look, hv]; rfl⟩
    case neg =>
      have next {st' : Fns} {done' : List LongName} {cur' : LongName}
          (h : ∀ es, namesFrom done cur (e :: es) = namesFrom done' cur' es) (r' : Represents st' done' cur')
          (hv : visit fs st obj e = .ok (.next st')) :
          (∃ r', look fs obj st (e :: es) = .ok r') ↔ BoundedFrom fs done cur (e :: es) := by
        rw [boundedFrom_cons he h, look, hv]
        exact hi r'
      by_cases hf : e.isFree
      case pos => exact next (fun _ => namesFrom_free hf) r <| if_pos hf
      case neg =>
        by_cases hl : e.isLongName
        case neg =>
          have hd : ¬(e.isFile ∨ e.isDirectory) := by
            intro hd
            by_cases e.isFile <;> simp_all [Slot.entry?]
          apply next (fun _ => namesFrom_other hf hl) r.reset
          rw [visit, if_neg hf, if_neg hl, if_neg fun h => hd <| .inl h, if_neg fun h => hd <| .inr h]
          rfl
        case pos =>
          have hv : visit fs st obj e = .next <$> st.opened.push (fat32CopyNameLong e) := by
            rw [visit, if_neg hf, if_pos hl]
            rfl
          by_cases hc : cur.length < longFnStackNum
          case pos =>
            obtain ⟨st', hs, r'⟩ := @push st done cur (fat32CopyNameLong e) r hc
            exact next (fun _ => namesFrom_longName hf hl) r' <| by rw [hv, hs]; rfl
          case neg =>
            rw [boundedFrom_cons he fun _ => namesFrom_longName hf hl, look, hv, r.push_error hc]
            refine iff_of_false (by rintro ⟨_, ⟨⟩⟩) fun h => ?_
            obtain ⟨name, hm, hn⟩ := @exists_mem_namesFrom (es.takeWhile fun e => Option.isNone <| e.entry? fs) done
              (cur ++ [fat32CopyNameLong e])
            have := h.rows name hm
            rw [List.length_append, List.length_singleton] at hn
            omega

end Represents

theorem look_init_iff : (∃ r, look fs obj .init es = .ok r) ↔ Bounded fs es :=
  represents_init.look_iff.trans boundedFrom_init

-- The loop and the program.

theorem scan_look : (scan fs obj p st es).map (Sum.map id Prod.snd) = look fs obj st es := by
  induction es generalizing p st
  case nil => rfl
  case cons e es hi =>
    rw [scan, look]
    cases visit fs st obj e
    case error => rfl
    case ok r =>
      cases r
      case next  => exact hi
      case found => rfl

theorem look_append : look fs obj st (es ++ es') = (do
    match ← look fs obj st es with
    | .inl st => look fs obj st es'
    | .inr r  => return .inr r) := by
  induction es generalizing st
  case nil => rfl
  case cons e es hi =>
    simp only [List.cons_append, look]
    cases visit fs st obj e
    case error => rfl
    case ok r =>
      cases r
      case next  => exact hi
      case found => rfl

theorem look_error {f : Fault} (h : look fs obj st es = .error f) : f = .outOfBounds := by
  rw [← scan_look (p := 0)] at h
  cases hs : scan fs obj 0 st es
  case error => rw [hs] at h; exact Except.error.inj h ▸ scan_error hs
  case ok    => rw [hs] at h; nomatch h

section Program

variable (l : Aligned fs) (hp : p < slotsPerCluster fs)

include l

theorem slotsAhead_succ (h : cidx < chainEndFlag) : ∃ cidx', (fat32GetChain cidx).eval v = .ok cidx' ∧
    slotsAhead v cidx p (n + 1) = (clusterSlots v cidx).drop p ++ slotsAhead v cidx' 0 n := by
  have ⟨cidx', hc⟩ := l.exists_chain v cidx
  exact ⟨cidx', hc, by rw [slotsAhead, if_pos h, hc]⟩

include hp

omit hp in
theorem iterAdvance_ok (v : Volume fs) (cidx : Cidx) (k i : Nat) (type : ObjType) :
    ∃ iter, (iterAdvance cidx k i type).eval v = .ok iter := by
  have ⟨cidx', hc⟩ := l.exists_chain v cidx
  cases type
  case directory => exact ⟨_, rfl⟩
  case file =>
    simp only [iterAdvance]
    split_ifs
    case neg => exact ⟨_, rfl⟩
    case neg => exact ⟨_, rfl⟩
    all_goals exact ⟨_, Program.eval_bind_ok hc⟩

-- The call with fuel for `n` clusters looks at their slots.
theorem iterClusters_look :
    ((iterClusters obj n cidx (place fs p).1 (place fs p).2 st).eval v = .error .outOfBounds ↔
      look fs obj st (slotsAhead v cidx p n) = .error .outOfBounds) ∧
    ∀ obj', (∃ iter, (iterClusters obj n cidx (place fs p).1 (place fs p).2 st).eval v = .ok (some (iter, obj'))) ↔
      look fs obj st (slotsAhead v cidx p n) = .ok (.inr obj') := by
  induction n generalizing cidx p st
  case zero => exact ⟨iff_of_false (by rintro ⟨⟩) (by rintro ⟨⟩), fun _ => iff_of_false (by rintro ⟨_, ⟨⟩⟩) (by rintro ⟨⟩)⟩
  case succ n hi =>
    by_cases hlt : cidx < chainEndFlag
    case neg =>
      rw [iterClusters, slotsAhead, if_neg hlt, if_neg hlt]
      exact ⟨iff_of_false (by rintro ⟨⟩) (by rintro ⟨⟩), fun _ => iff_of_false (by rintro ⟨_, ⟨⟩⟩) (by rintro ⟨⟩)⟩
    case pos =>
      obtain ⟨cidx', hc, hs⟩ := @slotsAhead_succ fs v cidx p n l hlt
      have he := @iterSectors_eval fs v cidx obj st p l hp
      rw [hs, look_append, ← scan_look (p := p)]
      cases hr : scan fs obj p st ((clusterSlots v cidx).drop p)
      all_goals rw [hr] at he
      case error f =>
        rw [iterClusters_error hlt he, scan_error hr]
        exact ⟨iff_of_true rfl rfl, fun _ => iff_of_false (by rintro ⟨_, ⟨⟩⟩) (by rintro ⟨⟩)⟩
      case ok r =>
        cases r
        case inl st' =>
          rw [iterClusters_inl hlt he, hc]
          have := @hi cidx' st' 0 l.slotsPerCluster_pos
          rwa [place_zero] at this
        case inr r =>
          obtain ⟨k, obj'⟩ := r
          obtain ⟨iter, ha⟩ := iterAdvance_ok l v cidx (k / slotsPerSector fs)
            (32 * (k % slotsPerSector fs)) (id obj').type
          rw [iterClusters_inr hlt he, ha]
          refine ⟨iff_of_false (by rintro ⟨⟩) (by rintro ⟨⟩), fun obj'' => ?_⟩
          constructor
          case mp =>
            rintro ⟨_, h⟩
            cases h
            rfl
          case mpr =>
            intro h
            cases h
            exact ⟨iter, rfl⟩

theorem fat32IterNext_rows_iff :
    (∀ fuel, (fat32IterNext fuel (iterAt fs cidx p) obj).eval v ≠ .error .outOfBounds) ↔
      ∀ n, Bounded fs (slotsAhead v cidx p n) := by
  refine forall_congr' fun n => ?_
  rw [← @look_init_iff fs obj, not_iff_comm]
  apply Iff.trans _ (@iterClusters_look fs v cidx obj .init p n l hp).1.symm
  cases h : look fs obj .init (slotsAhead v cidx p n)
  case error => exact iff_of_true nofun <| congrArg _ <| look_error h
  case ok r  => exact iff_of_false (fun hn => hn ⟨r, rfl⟩) nofun

end Program

theorem look_name (h : st.Fits) (hl : look fs obj st es = .ok (.inr obj')) :
    ∃ name, name.length ≤ longFnLen * longFnStackNum + 1 ∧ obj'.longFn = obj.longFn.write 0 name := by
  induction es generalizing st
  case nil => nomatch hl
  case cons e es hi =>
    have ⟨r, hv, hl⟩ := Except.bind_eq_ok.mp hl
    cases r
    case next => exact hi (h.visit hv) hl
    case found =>
      cases hl
      have he : (e.entry? fs).isSome := by
        have := congrArg Option.isSome <| visit_found hv
        rwa [Option.isSome_map] at this
      exact (visit_entry_ok he hv).2 h

-- A call is safe iff the names which begin in front of it are bounded.
theorem iterNext_safe_iff (l : Aligned fs) (hp : p < slotsPerCluster fs) :
    Safe v cidx p obj ↔ ∀ n, Bounded fs (slotsAhead v cidx p n) := by
  rw [← @fat32IterNext_rows_iff fs v cidx obj p l hp]
  constructor
  case mp => exact Safe.rows
  case mpr =>
    intro h
    constructor
    case rows    => exact h
    case columns => exact fun _ _ _ _ hl => Fns.Fits.init.look hl
    case name    => exact fun _ _ _ he => look_name .init <| ((iterClusters_look l hp).2 _).mp ⟨_, he⟩

theorem uniform_slotsAhead (b : Byte) (n : Nat) : slotsAhead (uniform b) 3 0 (n + 1) = clusterSlots (uniform b) 3 := by
  cases uniform_chain b
  case cons hlt hg hc =>
    cases hc
    case nil he =>
      rw [slotsAhead, if_pos hlt, hg, List.drop_zero]
      dsimp only
      cases n
      case zero => rw [slotsAhead, List.append_nil]
      case succ => rw [slotsAhead, if_neg <| BitVec.not_lt.mpr he, List.append_nil]

-- A name with pieces in all slots.
theorem names_longName (h : ∀ e ∈ es, ¬e.isFree ∧ e.isLongName) : names es = [es.map fat32CopyNameLong] := by
  induction es
  case nil => rfl
  case cons e es hi =>
    obtain ⟨hf, hl⟩ := h e (.head _)
    rw [names, if_neg hf, if_pos hl, hi fun e he => h e <| .tail _ he]
    rfl

theorem names_free (h : ∀ e ∈ es, e.isFree) : names (es ++ es') = names es' := by
  induction es
  case nil => rfl
  case cons e es hi =>
    rw [List.cons_append, names, if_pos <| h e <| .head _]
    exact hi fun e he => h e <| .tail _ he

-- The eleventh piece of a name has no row.
theorem pieces_not_safe : ¬Safe (uniform 15) 3 0 sampleDirectory := by
  intro h
  have hb := (fat32IterNext_rows_iff sample_layout.toAligned <| by decide).mp h.rows 1
  have hn : ∀ e ∈ clusterSlots (uniform 15) 3, ¬e.isFree ∧ e.isLongName := by
    intro e he
    have h₀ : e 0 = 15 := uniform_slot he <| by decide
    have h₁ : e 11 = 15 := uniform_slot he <| by decide
    simp [Slot.isFree, Slot.isLongName, Slot.attr, h₀, h₁, dirnameFree, dirnameResFree, attrLongNameMask, attrLongName]
  rw [uniform_slotsAhead] at hb
  have hw : ((clusterSlots (uniform 15) 3).takeWhile fun e => Option.isNone <| e.entry? sample) =
      clusterSlots (uniform 15) 3 := List.takeWhile_eq_self_iff.mpr fun e he => by simp [Slot.entry?, hn e he]
  have := hb.rows ((clusterSlots (uniform 15) 3).map fat32CopyNameLong) <| by
    rw [namesAhead, hw, names_longName hn]
    exact .head _
  rw [List.length_map, clusterSlots_length] at this
  exact absurd this <| by decide

end Zgmos.Fat32
