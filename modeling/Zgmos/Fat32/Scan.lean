import Zgmos.Fat32.Iter
import Zgmos.Lib.Except

-- What the entries of a directory are, and what `fat32_iter_next` finds in a sequence of slots.

namespace Zgmos.Fat32

-- The data of an entry. The file size of a directory is undefined.
structure Entry where
  cidx     : Cidx
  type     : ObjType
  fileSize : Option (BitVec 32)

def Fat32Obj.entry (obj : Fat32Obj) : Entry where
  cidx     := obj.cidx
  type     := obj.type
  fileSize := if obj.type = .file then some obj.fileSize else none

namespace Slot

-- The name of the parent directory.
def isDotDot (e : Slot) : Bool :=
  (List.range 11).map e = [dot, dot] ++ List.replicate 9 space

-- The entry of a slot with a file or a directory.
def entry? (fs : Fat32Fs) (e : Slot) : Option Entry :=
  if e.isFree || e.isLongName then
    none
  else if e.isFile then
    some { cidx := e.firstCluster, type := .file, fileSize := some e.fileSize }
  else if e.isDirectory then
    let cidx := if e.isDotDot ∧ e.firstCluster = 0 then fs.rootCidx else e.firstCluster
    some { cidx, type := .directory, fileSize := none }
  else
    none

-- The short name which the code makes out of the name begins with two dots.
def startsWithDots (e : Slot) : Bool :=
  [dot, dot].isPrefixOf (fat32CopyNameShort e)

-- What the code makes of a slot, which may follow pieces of a long name: among the directories with cluster 0, it takes
-- the one whose short name begins with two dots for the parent directory, unless it has a long name.
def found? (fs : Fat32Fs) (named : Bool) (e : Slot) : Option Entry :=
  if e.isFree || e.isLongName then
    none
  else if e.isFile then
    some { cidx := e.firstCluster, type := .file, fileSize := some e.fileSize }
  else if e.isDirectory then
    let cidx := if !named ∧ e.startsWithDots ∧ e.firstCluster = 0 then fs.rootCidx else e.firstCluster
    some { cidx, type := .directory, fileSize := none }
  else
    none

end Slot

variable {fs : Fat32Fs} {st : Fns} {obj : Fat32Obj} {e : Slot} {es es' : List Slot} {p : Nat}

-- A short name is empty or has a second byte.
theorem fat32CopyNameShort_cases (e : Slot) :
    fat32CopyNameShort e = [0] ∨ ∃ a b bs, fat32CopyNameShort e = a :: b :: bs := by
  unfold fat32CopyNameShort
  cases ((List.range 8).map e).takeWhile (· ≠ space)
  case nil =>
    by_cases h : e 5 = space
    case pos => simp [h]
    case neg =>
      refine .inr ?_
      cases ([8, 9, 10].map e).takeWhile (· ≠ space) <;> simp [h]
  case cons a name =>
    refine .inr ?_
    by_cases h : e 5 = space <;> cases name <;> simp [h]

theorem startsWithDots_iff (m : Memory Byte) (e : Slot) :
    m.write 0 (fat32CopyNameShort e) 0 = dot ∧ m.write 0 (fat32CopyNameShort e) 1 = dot ↔
      e.startsWithDots := by
  unfold Slot.startsWithDots
  obtain h | ⟨a, b, bs, h⟩ := fat32CopyNameShort_cases e
  case inl => simp [h, Memory.write, Memory.store, dot]
  case inr =>
    have h₀ : m.write 0 (a :: b :: bs) 0 = a := by simp [Memory.write, Memory.store]
    have h₁ : m.write 0 (a :: b :: bs) 1 = b := by simp [Memory.write, Memory.store]
    rw [h, h₀, h₁, eq_comm, @eq_comm _ b]
    simp [List.isPrefixOf]

-- The loop over the slots, of which the first one has position `p`.
def scan (fs : Fat32Fs) (obj : Fat32Obj) : (p : Nat) → Fns → List Slot → Except Fault (Fns ⊕ Nat × Fat32Obj)
  | _, st, []      => return .inl st
  | p, st, e :: es => do
    match ← visit fs st obj e with
    | .next st   => scan fs obj (p + 1) st es
    | .found obj => return .inr (p, obj)

theorem scan_append : scan fs obj p st (es ++ es') = (do
    match ← scan fs obj p st es with
    | .inl st => scan fs obj (p + es.length) st es'
    | .inr r  => return .inr r) := by
  induction es generalizing p st
  case nil => rfl
  case cons e es hi =>
    simp only [List.cons_append, scan]
    cases visit fs st obj e
    case error => rfl
    case ok r =>
      cases r
      case next st => exact hi.trans <| by rw [List.length_cons, Nat.add_right_comm]; rfl
      case found   => rfl

-- What is known of the slots after the scan, whatever the names are.

theorem visit_next {st' : Fns} (h : visit fs st obj e = .ok (.next st')) : e.entry? fs = none := by
  unfold visit at h
  unfold Slot.entry?
  split at h
  case isTrue hf => simp [hf]
  split at h
  case isTrue hl => simp [hl]
  split at h
  case isTrue => have ⟨_, _, h⟩ := Except.bind_eq_ok.mp h; nomatch h
  split at h
  case isTrue => have ⟨_, _, h⟩ := Except.bind_eq_ok.mp h; nomatch h
  case isFalse hf hl hi hd => simp [hf, hl, hi, hd]

theorem visitFile_type {obj' : Fat32Obj} (h : visitFile st obj e = .ok obj') : obj'.type = .file := by
  unfold visitFile at h
  dsimp only at h
  split at h
  all_goals
    have ⟨_, _, h⟩ := Except.bind_eq_ok.mp h
    exact Except.ok.inj h ▸ rfl

theorem visitDirectory_type {obj' : Fat32Obj} (h : visitDirectory fs st obj e = .ok obj') : obj'.type = .directory := by
  unfold visitDirectory at h
  dsimp only at h
  split at h
  case isTrue =>
    have ⟨_, _, h⟩ := Except.bind_eq_ok.mp h
    exact Except.ok.inj h ▸ rfl
  split at h
  case isTrue => exact Except.ok.inj h ▸ rfl
  split at h <;> exact Except.ok.inj h ▸ rfl

theorem visit_found {obj' : Fat32Obj} (h : visit fs st obj e = .ok (.found obj')) :
    (e.entry? fs).map Entry.type = some obj'.type := by
  unfold visit at h
  unfold Slot.entry?
  split at h
  case isTrue => nomatch h
  split at h
  case isTrue => have ⟨_, _, h⟩ := Except.bind_eq_ok.mp h; nomatch h
  split at h
  case isTrue hf hl hi =>
    have ⟨_, ho, h⟩ := Except.bind_eq_ok.mp h
    cases h
    simp [hf, hl, hi, visitFile_type ho]
  split at h
  case isTrue hf hl hi hd =>
    have ⟨_, ho, h⟩ := Except.bind_eq_ok.mp h
    cases h
    simp [hf, hl, hi, hd, visitDirectory_type ho]
  case isFalse => nomatch h

theorem visit_found_isSome {obj' : Fat32Obj} (h : visit fs st obj e = .ok (.found obj')) : (e.entry? fs).isSome := by
  have := congrArg Option.isSome <| visit_found h
  rwa [Option.isSome_map] at this

theorem visitFile_entry {obj' : Fat32Obj} (h : visitFile st obj e = .ok obj') :
    obj'.entry = { cidx := e.firstCluster, type := .file, fileSize := some e.fileSize } := by
  unfold visitFile at h
  dsimp only at h
  split at h
  all_goals
    obtain ⟨_, _, h⟩ := Except.bind_eq_ok.mp h
    exact Except.ok.inj h ▸ rfl

theorem visitDirectory_entry {obj' : Fat32Obj} (h : visitDirectory fs st obj e = .ok obj') : obj'.entry = {
    cidx     := if !st.flag ∧ e.startsWithDots ∧ e.firstCluster = 0 then fs.rootCidx else e.firstCluster
    type     := .directory
    fileSize := none } := by
  have hs := startsWithDots_iff obj.shortFn e
  unfold visitDirectory at h
  dsimp only at h
  split at h
  case isTrue hf =>
    obtain ⟨_, _, h⟩ := Except.bind_eq_ok.mp h
    cases h
    simp [Fat32Obj.entry, hf]
  split at h
  case isTrue hf hd =>
    cases h
    simp [Fat32Obj.entry, hf, hs.mp hd]
  case isFalse hf hd =>
    have hn : ¬e.startsWithDots := fun h => hd <| hs.mpr h
    split at h
    all_goals
      cases h
      simp [Fat32Obj.entry, hn]

theorem visit_found_entry {obj' : Fat32Obj} (h : visit fs st obj e = .ok (.found obj')) :
    e.found? fs st.flag = some obj'.entry := by
  unfold visit at h
  unfold Slot.found?
  split at h
  case isTrue => cases h
  split at h
  case isTrue =>
    obtain ⟨_, _, h⟩ := Except.bind_eq_ok.mp h
    cases h
  split at h
  case isTrue hf hl hi =>
    obtain ⟨_, ho, h⟩ := Except.bind_eq_ok.mp h
    cases h
    simp [hf, hl, hi, visitFile_entry ho]
  split at h
  case isTrue hf hl hi hd =>
    obtain ⟨_, ho, h⟩ := Except.bind_eq_ok.mp h
    cases h
    simp [hf, hl, hi, hd, visitDirectory_entry ho]
  case isFalse => cases h

-- The only error is an access outside of the names.

theorem push_error {name : List Byte} {f : Fault} (h : st.push name = .error f) : f = .outOfBounds := by
  unfold Fns.push at h
  split at h
  all_goals cases h
  rfl

theorem strcpyEnd_error {row : List Byte} {f : Fault} (h : Fns.strcpyEnd row = .error f) :
    f = .outOfBounds ∧ 0 ∉ row := by
  unfold Fns.strcpyEnd at h
  split at h
  case isTrue     => nomatch h
  case isFalse hz => exact ⟨(Except.error.inj h).symm, hz⟩

theorem longFn_error {f : Fault} (h : st.longFn = .error f) :
    f = .outOfBounds ∧ ∃ j, st.fnNum ≤ j ∧ j < longFnStackNum ∧ 0 ∉ st.rows j := by
  have ⟨j, hj, h⟩ := Except.mapM_error <| Except.of_bind_ok h
  have ⟨hf, hz⟩ := strcpyEnd_error h
  rw [List.mem_range'_1] at hj
  exact ⟨hf, j, hj.1, by omega, hz⟩

theorem visitFile_error {f : Fault} (h : visitFile st obj e = .error f) : st.flag ∧ st.longFn = .error f := by
  unfold visitFile at h
  dsimp only at h
  split at h
  case isTrue hf => exact ⟨hf, Except.of_bind_ok h⟩
  case isFalse   => nomatch h

theorem visitDirectory_error {f : Fault} (h : visitDirectory fs st obj e = .error f) :
    st.flag ∧ st.longFn = .error f := by
  unfold visitDirectory at h
  dsimp only at h
  split at h
  case isTrue hf => exact ⟨hf, Except.of_bind_ok h⟩
  split at h
  case isTrue => nomatch h
  split at h
  all_goals nomatch h

theorem visit_error {f : Fault} (h : visit fs st obj e = .error f) : f = .outOfBounds := by
  unfold visit at h
  split at h
  case isTrue => nomatch h
  split at h
  case isTrue => exact push_error <| Except.of_bind_ok h
  split at h
  case isTrue => exact (longFn_error (visitFile_error <| Except.of_bind_ok h).2).1
  split at h
  case isTrue  => exact (longFn_error (visitDirectory_error <| Except.of_bind_ok h).2).1
  case isFalse => nomatch h

theorem scan_error {f : Fault} (h : scan fs obj p st es = .error f) : f = .outOfBounds := by
  induction es generalizing p st
  case nil => nomatch h
  case cons e es hi =>
    cases Except.bind_eq_error.mp h
    case inl h => exact visit_error h
    case inr h =>
      have ⟨r, _, h⟩ := h
      cases r
      case next  => exact hi h
      case found => nomatch h

theorem scan_inl {st' : Fns} (h : scan fs obj p st es = .ok (.inl st')) : ∀ e ∈ es, e.entry? fs = none := by
  induction es generalizing p st
  case nil => exact nofun
  case cons e es hi =>
    have ⟨r, hv, h⟩ := Except.bind_eq_ok.mp h
    cases r
    case found => nomatch h
    case next hv st =>
      intro e' he
      cases he
      case head    => exact visit_next hv
      case tail he => exact hi h e' he

end Zgmos.Fat32
