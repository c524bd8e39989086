import Zgmos.Fat32.Iter

-- What `fat32_copy_name_short` makes out of the name field of a directory entry.

namespace Zgmos.Fat32

def shortFnLen : Nat :=
  11

namespace Slot

def isBlank (b : Byte) : Bool :=
  b = space

-- The base and the extension without the blanks that they are filled with.

def base (e : Slot) : List Byte :=
  ((List.range 8).map e).rdropWhile isBlank

def ext (e : Slot) : List Byte :=
  ([8, 9, 10].map e).rdropWhile isBlank

def shortName (e : Slot) : List Byte :=
  if e.ext = [] then e.base else e.base ++ dot :: e.ext

-- The short name with its end is written, and it fits into the object.
structure Converts (e : Slot) : Prop where
  name : fat32CopyNameShort e = e.shortName ++ [0]
  fits : (fat32CopyNameShort e).length ≤ shortFnLen + 1

-- There are no blanks inside of the name, and its base has more than five bytes just if there is an extension.
structure Convertible (e : Slot) : Prop where
  base   : space ∉ e.base
  ext    : space ∉ e.ext
  length : if e.ext = [] then e.base.length ≤ 5 else 5 < e.base.length ∧ e.base.length + e.ext.length ≤ 10

variable {e : Slot}

theorem takeWhile_ne_space {bs : List Byte} (h : space ∉ bs.rdropWhile isBlank) :
    bs.takeWhile (· ≠ space) = bs.rdropWhile isBlank := by
  have hp : ∀ b ∈ bs.rdropWhile isBlank, decide (b ≠ space) := by
    intro b hb
    simpa using ne_of_mem_of_not_mem hb h
  have ht : (bs.rtakeWhile isBlank).takeWhile (· ≠ space) = [] := by
    cases hr : bs.rtakeWhile isBlank
    case nil => rfl
    case cons b _ =>
      have hm : b ∈ bs.rtakeWhile isBlank := by simp [hr]
      have hb : isBlank b := List.mem_rtakeWhile_imp hm
      simpa [isBlank] using hb
  calc
    bs.takeWhile (· ≠ space) = (bs.rdropWhile isBlank ++ bs.rtakeWhile isBlank).takeWhile (· ≠ space) := by
      rw [List.rdropWhile_append_rtakeWhile]
    _ = bs.rdropWhile isBlank := by
      rw [List.takeWhile_append_of_pos hp, ht, List.append_nil]

-- The sixth byte belongs to the base unless it is one of the blanks behind it.
theorem fifth_iff (h : space ∉ e.base) : e 5 = space ↔ e.base.length ≤ 5 := by
  have hs : (List.range 8).map e = e.base ++ ((List.range 8).map e).rtakeWhile isBlank :=
    List.rdropWhile_append_rtakeWhile.symm
  have he : ((List.range 8).map e)[5]? = some (e 5) := rfl
  rw [hs] at he
  constructor
  case mp =>
    intro h₅
    by_contra hc
    rw [List.getElem?_append_left <| Nat.lt_of_not_le hc] at he
    exact h <| h₅ ▸ List.mem_of_getElem? he
  case mpr =>
    intro hl
    rw [List.getElem?_append_right hl] at he
    have hb : isBlank (e 5) := List.mem_rtakeWhile_imp <| List.mem_of_getElem? he
    simpa [isBlank] using hb

theorem fat32CopyNameShort_eq (hb : space ∉ e.base) (hx : space ∉ e.ext) :
    fat32CopyNameShort e = (if e.base.length ≤ 5 then e.base else e.base ++ dot :: e.ext) ++ [0] := by
  have h₁ : ((List.range 8).map e).takeWhile (· ≠ space) = e.base := takeWhile_ne_space hb
  have h₂ : ([8, 9, 10].map e).takeWhile (· ≠ space) = e.ext := takeWhile_ne_space hx
  simp only [fat32CopyNameShort, h₁, h₂, fifth_iff hb]
  split <;> simp

theorem space_not_mem_copyNameShort (e : Slot) : space ∉ fat32CopyNameShort e := by
  have hw (bs : List Byte) : space ∉ bs.takeWhile (· ≠ space) := fun h => by simpa using List.mem_takeWhile_imp h
  have hz : space ∉ ([0] : List Byte) := by decide
  have hd : space ∉ [dot] := by decide
  unfold fat32CopyNameShort
  dsimp only
  split
  case isTrue  => exact List.not_mem_append (hw _) hz
  case isFalse => exact List.not_mem_append (List.not_mem_append (List.not_mem_append (hw _) hd) (hw _)) hz

theorem space_not_mem_of_converts (h : fat32CopyNameShort e = e.shortName ++ [0]) :
    space ∉ e.base ∧ space ∉ e.ext := by
  have hs := h ▸ space_not_mem_copyNameShort e
  unfold shortName at hs
  split at hs
  case isTrue hx => simp_all
  case isFalse   => simp_all

-- The conversion is right just for these names.
theorem converts_iff : Converts e ↔ Convertible e := by
  constructor
  case mp =>
    intro ⟨hn, hf⟩
    have ⟨hb, hx⟩ := space_not_mem_of_converts hn
    rw [fat32CopyNameShort_eq hb hx] at hn hf
    refine ⟨hb, hx, ?_⟩
    replace hn := congrArg List.length <| List.append_cancel_right hn
    unfold shortName at hn
    split at hn
    all_goals
      split at hn
      all_goals rw [List.length_append, List.length_cons] at *
    case isTrue.isTrue h₅ he => rwa [if_pos he]
    case isTrue.isFalse      => omega
    case isFalse.isTrue      => omega
    case isFalse.isFalse h₅ he =>
      rw [if_neg he]
      simp only [if_neg h₅, List.length_append, List.length_cons, List.length_nil, shortFnLen] at hf
      omega
  case mpr =>
    intro ⟨hb, hx, hl⟩
    constructor
    all_goals rw [fat32CopyNameShort_eq hb hx]
    all_goals split at hl
    case name.isTrue he  => rw [if_pos hl, shortName, if_pos he]
    case name.isFalse he => rw [if_neg <| by omega, shortName, if_neg he]
    case fits.isTrue =>
      rw [if_pos hl, List.length_append]
      exact Nat.add_le_add_right (hl.trans <| by decide) 1
    case fits.isFalse =>
      rw [if_neg <| by omega, List.length_append, List.length_append]
      exact Nat.add_le_add_right (by rw [List.length_cons, shortFnLen]; omega) 1

-- The slot with the given name field.
def ofName (bs : List Byte) : Slot :=
  fun k => bs.getD k 0

-- A short base loses its extension, and the longest name does not fit into the object.
theorem shortNames_not_convert :
    ¬Converts (ofName <| [0x41] ++ List.replicate 7 space ++ [0x54, 0x58, 0x54]) ∧
    ¬Converts (ofName <| List.replicate 11 0x41) := by
  constructor
  case left  => exact fun h => absurd h.name <| by decide
  case right => exact fun h => absurd h.fits <| by decide

end Slot

end Zgmos.Fat32
