import Zgmos.Process.Load

-- The pages of a segment.

namespace Zgmos.Process

open Pte

-- What is in the file which is loaded.
structure Image where
  size    : BitVec 32
  content : Nat → Byte

-- The page of an address in the page table.
def pageNumber (va : Word) : BitVec 27 :=
  va.extractLsb' 12 27

namespace Phdr

variable (phdr : Phdr)

-- A page meets the range of addresses of the segment.
def Meets (pg : Word) : Prop :=
  ∃ a, phdr.vaddr.toNat ≤ a ∧ a < phdr.vaddr.toNat + phdr.memsz.toNat ∧ pg.toNat ≤ a ∧ a < pg.toNat + pageSize

-- The pages which the loop visits, if it goes on for long enough.
def page (i : Nat) : Word :=
  phdr.startPg + pageOffset i

-- The numbers of the first and of the last page. The computation of the last address can overflow.

def firstPage : Nat :=
  phdr.vaddr.toNat / pageSize

def lastPage : Nat :=
  phdr.endVa.toNat / pageSize

-- The number of pages which meet the range.
def pageCount : Nat :=
  if phdr.memsz = 0 then 0 else (phdr.vaddr.toNat + phdr.memsz.toNat - 1) / pageSize + 1 - phdr.firstPage

-- The number of bytes which are read for the pages before a page.
def bytesBefore (i : Nat) : Nat :=
  min phdr.filesz.toNat (i * pageSize - phdr.vaddr.toNat % pageSize)

variable (image : Image)

-- The file ends before the bytes for a page do.
def Short (i : Nat) : Prop :=
  phdr.bytesBefore i < phdr.filesz.toNat ∧ image.size.toNat < phdr.offset.toNat + phdr.bytesBefore (i + 1)

-- The page at which the data of the segment is cut off, if the loop comes to it.
def cutOff : Option Nat :=
  let i := (image.size.toNat - phdr.offset.toNat + phdr.vaddr.toNat % pageSize) / pageSize
  if phdr.filesz ≠ 0 ∧ image.size.toNat < phdr.offset.toNat + phdr.filesz.toNat ∧ phdr.firstPage + i ≤ phdr.lastPage then
    some i
  else
    none

-- The end of the range is neither behind the last page but one, nor does it underflow.
def Regular : Prop :=
  (phdr.memsz = 0 → phdr.vaddr ≠ 0 ∧ pageSize ∣ phdr.vaddr.toNat) ∧
    (phdr.memsz ≠ 0 → phdr.vaddr.toNat + phdr.memsz.toNat ≤ 2 ^ 64 - pageSize)

-- The loop only visits pages which meet the range.
def Sound : Prop :=
  phdr.Regular ∨ phdr.memsz ≠ 0 ∧ (phdr.cutOff image).isSome

def visited : Nat :=
  match phdr.cutOff image with
  | some i => i + 1
  | none   => phdr.pageCount

def pages : List Word :=
  (List.range <| phdr.visited image).map phdr.page

-- The segment passes the checks of the loader.
def Accepted : Prop :=
  phdr.align = .ofNat 64 pageSize ∧ taskAuxMapFlags phdr.flags ≠ 0

instance : Decidable phdr.Regular :=
  inferInstanceAs <| Decidable (_ ∧ _)

instance : Decidable (phdr.Sound image) :=
  inferInstanceAs <| Decidable (_ ∨ _)

instance : Decidable phdr.Accepted :=
  inferInstanceAs <| Decidable (_ ∧ _)

-- The loop over the pages from the page `i` on.
inductive Loop : Nat → List Word → Bool → Prop
  | done {i}     : phdr.endPg < phdr.page i → Loop i [] true
  | cut {i}      : phdr.page i ≤ phdr.endPg → phdr.Short image i → Loop i [phdr.page i] false
  | page {i vas ok} : phdr.page i ≤ phdr.endPg → ¬phdr.Short image i → Loop (i + 1) vas ok → Loop i (phdr.page i :: vas) ok

end Phdr

-- The number of bytes that `vfs_read` returns.
def Image.delivered (image : Image) (offset bufLen : Word) : Word :=
  if image.size.setWidth 64 ≤ offset then 0 else Fs.min64 bufLen (image.size.setWidth 64 - offset)

-- The values of `byte_cnt` and `byte_offset_init` at the beginning of a page.
structure Phdr.Reading (phdr : Phdr) (image : Image) (i : Nat) (byteCnt byteOffset : Word) : Prop where
  count  : byteCnt.toNat = phdr.bytesBefore i
  offset : byteCnt < phdr.filesz → byteOffset.toNat = if i = 0 then phdr.vaddr.toNat % pageSize else 0
  whole  : byteCnt = 0 ∨ phdr.offset.toNat + byteCnt.toNat ≤ image.size.toNat

-- A loop only visits pages which meet the range of the segment. If it is complete, it visits all of them.
def Visit.Exact (v : Visit) : Prop :=
  (∀ pg ∈ v.pages, v.phdr.Meets pg) ∧ (v.complete = true → ∀ pg, Aligned pg → v.phdr.Meets pg → pg ∈ v.pages)

namespace Phdr

variable {phdr : Phdr} {image : Image} {i j n : Nat} {vas : List Word} {ok : Bool} {pg : Word}

section Arithmetic

theorem firstPage_lt : phdr.firstPage < 2 ^ 52 := by
  have := phdr.vaddr.isLt
  simp only [firstPage, pageSize]
  omega

theorem lastPage_lt : phdr.lastPage < 2 ^ 52 := by
  have := phdr.endVa.isLt
  simp only [lastPage, pageSize]
  omega

theorem aligned_page : Aligned (phdr.page i) := by
  have hs : phdr.startPg.toNat = phdr.firstPage * pageSize := toNat_align4K _
  rw [aligned_iff, page, BitVec.toNat_add, hs, pageOffset, BitVec.toNat_ofNat, pageSize]
  omega

theorem page_zero : phdr.page 0 = phdr.startPg := by
  rw [page, pageOffset_zero]
  exact BitVec.add_zero _

theorem page_succ : phdr.page i + .ofNat 64 pageSize = phdr.page (i + 1) := by
  rw [page, page, pageOffset_succ, BitVec.add_assoc]
  rfl

theorem toNat_page (h : phdr.firstPage + i < 2 ^ 52) : (phdr.page i).toNat = (phdr.firstPage + i) * pageSize := by
  have hs : phdr.startPg.toNat = phdr.firstPage * pageSize := toNat_align4K _
  have ho : (pageOffset i).toNat = i * pageSize := by
    rw [pageOffset, BitVec.toNat_ofNat, pageSize]
    omega
  rw [page, BitVec.toNat_add, hs, ho, pageSize]
  omega

theorem page_le_endPg_iff (h : phdr.firstPage + i < 2 ^ 52) :
    phdr.page i ≤ phdr.endPg ↔ phdr.firstPage + i ≤ phdr.lastPage := by
  have he : phdr.endPg.toNat = phdr.lastPage * pageSize := toNat_align4K _
  rw [BitVec.le_def, toNat_page h, he, pageSize]
  omega

theorem endPg_lt_page_iff (h : phdr.firstPage + i < 2 ^ 52) :
    phdr.endPg < phdr.page i ↔ phdr.lastPage < phdr.firstPage + i := by
  have hp := page_le_endPg_iff h
  rw [BitVec.le_def] at hp
  rw [BitVec.lt_def]
  omega

theorem meets_page_iff (h : phdr.firstPage + i < 2 ^ 52) : phdr.Meets (phdr.page i) ↔
    phdr.memsz ≠ 0 ∧ (phdr.firstPage + i) * pageSize < phdr.vaddr.toNat + phdr.memsz.toNat := by
  have hz : phdr.memsz ≠ 0 ↔ phdr.memsz.toNat ≠ 0 := by simp [← BitVec.toNat_inj]
  rw [Meets, toNat_page h, hz, firstPage, pageSize]
  constructor
  case mp =>
    rintro ⟨a, h₁, h₂, h₃, _⟩
    omega
  case mpr =>
    rintro ⟨h₁, h₂⟩
    exact ⟨max phdr.vaddr.toNat ((phdr.vaddr.toNat / 4096 + i) * 4096), by omega, by omega, by omega, by omega⟩

-- A page that meets the range is one of those which the loop visits.
theorem Meets.eq_page (h : phdr.Meets pg) (ha : Aligned pg) :
    ∃ i, phdr.firstPage + i < 2 ^ 52 ∧ pg = phdr.page i := by
  have ⟨a, h₁, h₂, h₃, h₄⟩ := h
  have hm := aligned_iff.mp ha
  have hl := pg.isLt
  have hi : phdr.firstPage + (pg.toNat / pageSize - phdr.firstPage) < 2 ^ 52 := by
    simp only [firstPage, pageSize] at h₄ ⊢
    omega
  refine ⟨_, hi, BitVec.eq_of_toNat_eq ?_⟩
  rw [toNat_page hi]
  simp only [firstPage, pageSize] at h₄ ⊢
  omega

-- The page behind the end of the address space is the first one.
theorem firstPage_of_meets (h : phdr.Meets (phdr.page (2 ^ 52 - phdr.firstPage))) : phdr.firstPage = 0 := by
  have hf := @firstPage_lt phdr
  have ⟨a, h₁, _, _, h₂⟩ := h
  have hs : phdr.startPg.toNat = phdr.firstPage * pageSize := toNat_align4K _
  simp only [page, BitVec.toNat_add, hs, pageOffset, BitVec.toNat_ofNat] at h₂
  simp only [firstPage, pageSize] at hf h₂ ⊢
  omega

theorem lastPage_eq (hz : phdr.memsz ≠ 0) : phdr.lastPage =
    if phdr.vaddr.toNat + phdr.memsz.toNat ≤ 2 ^ 64 then (phdr.vaddr.toNat + phdr.memsz.toNat - 1) / pageSize
    else (phdr.vaddr.toNat + phdr.memsz.toNat - 1 - 2 ^ 64) / pageSize := by
  have hz : phdr.memsz.toNat ≠ 0 := fun h => hz <| BitVec.eq_of_toNat_eq h
  have h₁ := phdr.vaddr.isLt
  have h₂ := phdr.memsz.isLt
  have he : phdr.endVa.toNat = (phdr.vaddr.toNat + phdr.memsz.toNat - 1) % 2 ^ 64 := by
    rw [endVa, BitVec.toNat_sub, BitVec.toNat_add]
    simp
    omega
  rw [lastPage, he]
  split_ifs
  case pos => rw [Nat.mod_eq_of_lt (by omega)]
  case neg => rw [Nat.mod_eq_sub_mod (by omega), Nat.mod_eq_of_lt (by omega)]

-- The range is empty, and the last address is the one before the first.
theorem lastPage_zero (hz : phdr.memsz = 0) :
    phdr.lastPage < phdr.firstPage ↔ phdr.vaddr ≠ 0 ∧ pageSize ∣ phdr.vaddr.toNat := by
  have h₁ := phdr.vaddr.isLt
  have hn : phdr.vaddr ≠ 0 ↔ phdr.vaddr.toNat ≠ 0 := by simp [← BitVec.toNat_inj]
  have he : phdr.endVa.toNat = (phdr.vaddr.toNat + (2 ^ 64 - 1)) % 2 ^ 64 := by
    rw [endVa, hz, BitVec.toNat_sub, BitVec.toNat_add]
    simp
    omega
  rw [lastPage, he, firstPage, hn, pageSize]
  omega

end Arithmetic

section Cut

-- The first page for which the file is too short.
theorem short_iff : phdr.Short image i ∧ (∀ j < i, ¬phdr.Short image j) ↔
    phdr.filesz ≠ 0 ∧ image.size.toNat < phdr.offset.toNat + phdr.filesz.toNat ∧
      i = (image.size.toNat - phdr.offset.toNat + phdr.vaddr.toNat % pageSize) / pageSize := by
  have hz : phdr.filesz ≠ 0 ↔ phdr.filesz.toNat ≠ 0 := by simp [← BitVec.toNat_inj]
  have hm : phdr.vaddr.toNat % pageSize < pageSize := Nat.mod_lt _ <| by decide
  have hs (j : Nat) : phdr.Short image j → phdr.filesz.toNat ≠ 0 ∧
      image.size.toNat < phdr.offset.toNat + phdr.filesz.toNat ∧
      (image.size.toNat - phdr.offset.toNat + phdr.vaddr.toNat % pageSize) / pageSize ≤ j := by
    rintro ⟨h₁, h₂⟩
    simp only [bytesBefore, pageSize] at h₁ h₂ hm ⊢
    omega
  have hf (h₁ : phdr.filesz.toNat ≠ 0) (h₂ : image.size.toNat < phdr.offset.toNat + phdr.filesz.toNat) :
      phdr.Short image ((image.size.toNat - phdr.offset.toNat + phdr.vaddr.toNat % pageSize) / pageSize) := by
    simp only [Short, bytesBefore, pageSize] at h₂ hm ⊢
    omega
  rw [hz]
  constructor
  case mp =>
    rintro ⟨h, hn⟩
    obtain ⟨h₁, h₂, h₃⟩ := hs i h
    refine ⟨h₁, h₂, Nat.le_antisymm (Nat.le_of_not_lt fun hl => ?_) h₃⟩
    exact hn _ hl <| hf h₁ h₂
  case mpr =>
    rintro ⟨h₁, h₂, h₃⟩
    subst h₃
    exact ⟨hf h₁ h₂, fun j hj h => (hs j h).2.2.not_gt hj⟩

theorem cutOff_eq_some : phdr.cutOff image = some i ↔
    phdr.Short image i ∧ (∀ j < i, ¬phdr.Short image j) ∧ phdr.firstPage + i ≤ phdr.lastPage := by
  rw [← and_assoc, short_iff]
  simp only [cutOff]
  split_ifs
  case pos h =>
    rw [Option.some.injEq]
    constructor
    case mp  => exact fun he => he ▸ ⟨⟨h.1, h.2.1, rfl⟩, h.2.2⟩
    case mpr => exact fun he => he.1.2.2.symm
  case neg h =>
    rw [iff_false_left <| fun hc => by cases hc]
    exact fun he => h ⟨he.1.1, he.1.2.1, he.1.2.2 ▸ he.2⟩

open Classical in
theorem not_short_of_cutOff (h : phdr.cutOff image = none) (hi : phdr.firstPage + i ≤ phdr.lastPage) :
    ¬phdr.Short image i := by
  intro hs
  have hx : ∃ i, phdr.Short image i := ⟨i, hs⟩
  have hle := Nat.find_min' hx hs
  have hc : phdr.cutOff image = some (Nat.find hx) :=
    cutOff_eq_some.mpr ⟨Nat.find_spec hx, fun _ => Nat.find_min hx, by omega⟩
  cases h.symm.trans hc

-- There are at most as many bytes in a file as its size tells.
theorem short_lt (h : phdr.Short image i ∧ ∀ j < i, ¬phdr.Short image j) : i < 2 ^ 21 := by
  have ⟨_, _, hi⟩ := short_iff.mp h
  have := image.size.isLt
  simp only [pageSize] at hi
  omega

end Cut

section Loop

-- The pages which are visited, and what is known of them.

theorem Loop.vas_eq (l : phdr.Loop image i vas ok) : vas = (List.range' i vas.length).map phdr.page := by
  induction l
  case done => rfl
  case cut  => rfl
  case page hi => rw [List.length_cons, List.range'_succ, List.map_cons, ← hi]

theorem Loop.complete (l : phdr.Loop image i vas ok) (ho : ok = true) :
    phdr.endPg < phdr.page (i + vas.length) ∧
      ∀ k < vas.length, phdr.page (i + k) ≤ phdr.endPg ∧ ¬phdr.Short image (i + k) := by
  induction l
  case done hd => exact ⟨hd, fun k hk => absurd hk k.not_lt_zero⟩
  case cut     => cases ho
  case page i vas ok hp hs _ hi =>
    have ⟨hd, hi⟩ := hi ho
    rw [List.length_cons, ← Nat.succ_add_eq_add_succ]
    refine ⟨hd, fun k hk => ?_⟩
    cases k
    case zero => exact ⟨hp, hs⟩
    case succ k =>
      rw [← Nat.succ_add_eq_add_succ]
      exact hi k (by omega)

theorem Loop.incomplete (l : phdr.Loop image i vas ok) (ho : ok = false) :
    ∃ n, vas.length = n + 1 ∧ phdr.page (i + n) ≤ phdr.endPg ∧ phdr.Short image (i + n) ∧
      ∀ k < n, phdr.page (i + k) ≤ phdr.endPg ∧ ¬phdr.Short image (i + k) := by
  induction l
  case done => cases ho
  case cut i hp hs => exact ⟨0, rfl, hp, hs, fun k hk => absurd hk k.not_lt_zero⟩
  case page i vas ok hp hs _ hi =>
    have ⟨n, hl, hp', hs', hi⟩ := hi ho
    refine ⟨n + 1, by rw [List.length_cons, hl], ?_, ?_, fun k hk => ?_⟩
    case refine_1 => rwa [← Nat.succ_add_eq_add_succ]
    case refine_2 => rwa [← Nat.succ_add_eq_add_succ]
    case refine_3 =>
      cases k
      case zero => exact ⟨hp, hs⟩
      case succ k =>
        rw [← Nat.succ_add_eq_add_succ]
        exact hi k (by omega)

theorem loop_complete (hd : phdr.endPg < phdr.page (i + n))
    (h : ∀ k < n, phdr.page (i + k) ≤ phdr.endPg ∧ ¬phdr.Short image (i + k)) :
    phdr.Loop image i ((List.range' i n).map phdr.page) true := by
  induction n generalizing i
  case zero => exact .done hd
  case succ n hi =>
    have ⟨hp, hs⟩ := h 0 n.succ_pos
    refine .page hp hs <| hi ?_ fun k hk => ?_
    case refine_1 => exact Nat.succ_add_eq_add_succ i n ▸ hd
    case refine_2 =>
      exact Nat.succ_add_eq_add_succ i k ▸ h (k + 1) (by omega)

theorem loop_incomplete (hp : phdr.page (i + n) ≤ phdr.endPg) (hs : phdr.Short image (i + n))
    (h : ∀ k < n, phdr.page (i + k) ≤ phdr.endPg ∧ ¬phdr.Short image (i + k)) :
    phdr.Loop image i ((List.range' i (n + 1)).map phdr.page) false := by
  induction n generalizing i
  case zero => exact .cut hp hs
  case succ n hi =>
    have ⟨hp₀, hs₀⟩ := h 0 n.succ_pos
    refine .page hp₀ hs₀ <| hi ?_ ?_ fun k hk => ?_
    case refine_1 => exact Nat.succ_add_eq_add_succ i n ▸ hp
    case refine_2 => exact Nat.succ_add_eq_add_succ i n ▸ hs
    case refine_3 =>
      exact Nat.succ_add_eq_add_succ i k ▸ h (k + 1) (by omega)

-- A complete loop ends behind the last page. None of its pages is beyond the end of the address space.
theorem Loop.last (l : phdr.Loop image 0 vas true) :
    phdr.firstPage + vas.length < 2 ^ 52 ∧ phdr.lastPage < phdr.firstPage + vas.length ∧
      ∀ k < vas.length, phdr.firstPage + k ≤ phdr.lastPage ∧ ¬phdr.Short image k := by
  obtain ⟨hd, h⟩ := l.complete rfl
  simp only [Nat.zero_add] at hd h
  have hf := @firstPage_lt phdr
  have hll := @lastPage_lt phdr
  have hl : phdr.firstPage + vas.length < 2 ^ 52 := by
    by_contra hc
    -- Otherwise the last page of the address space is behind the end.
    cases Nat.eq_zero_or_pos vas.length
    case inl hz => omega
    case inr hz =>
      have hk : phdr.firstPage + (2 ^ 52 - 1 - phdr.firstPage) < 2 ^ 52 := by omega
      have hp := (page_le_endPg_iff hk).mp (h _ (by omega)).1
      have he : phdr.endPg.toNat = phdr.lastPage * pageSize := toNat_align4K _
      have := (phdr.page vas.length).isLt
      rw [BitVec.lt_def, he] at hd
      have hm := aligned_iff.mp <| @aligned_page phdr vas.length
      simp only [pageSize] at hd
      omega
  refine ⟨hl, (endPg_lt_page_iff hl).mp hd, fun k hk => ?_⟩
  obtain ⟨hp, hs⟩ := h k hk
  exact ⟨(page_le_endPg_iff (by omega)).mp hp, hs⟩

theorem Loop.cutOff (l : phdr.Loop image 0 vas false) (h : ∀ pg ∈ vas, phdr.Meets pg) :
    phdr.memsz ≠ 0 ∧ phdr.cutOff image = some (vas.length - 1) := by
  have ⟨n, hn, hp, hs, hc⟩ := l.incomplete rfl
  simp only [Nat.zero_add] at hp hs hc
  have hlt := short_lt ⟨hs, fun j hj => (hc j hj).2⟩
  have hmem (k : Nat) (hk : k ≤ n) : phdr.Meets (phdr.page k) := by
    rw [l.vas_eq, hn] at h
    exact h _ <| List.mem_map.mpr ⟨k, by simp; omega, rfl⟩
  have hl : phdr.firstPage + n < 2 ^ 52 := by
    by_contra hc
    have hz := firstPage_of_meets <| hmem _ (by omega)
    omega
  have hz := ((meets_page_iff (i := 0) firstPage_lt).mp <| hmem 0 n.zero_le).1
  have he : vas.length - 1 = n := by omega
  rw [he]
  exact ⟨hz, cutOff_eq_some.mpr ⟨hs, fun j hj => (hc j hj).2, (page_le_endPg_iff hl).mp hp⟩⟩

-- A page which is not behind the last one begins before the end of the range.
theorem lt_of_le_lastPage (hz : phdr.memsz ≠ 0) (h : phdr.firstPage + i ≤ phdr.lastPage) :
    (phdr.firstPage + i) * pageSize < phdr.vaddr.toNat + phdr.memsz.toNat := by
  have h₀ : phdr.memsz.toNat ≠ 0 := fun h => hz <| BitVec.eq_of_toNat_eq h
  have h₁ := phdr.memsz.isLt
  rw [lastPage_eq hz] at h
  simp only [firstPage, pageSize] at h ⊢
  split_ifs at h <;> omega

theorem meets_of_le_lastPage (hz : phdr.memsz ≠ 0) (h : phdr.firstPage + i ≤ phdr.lastPage) : phdr.Meets (phdr.page i) :=
  (meets_page_iff (h.trans_lt lastPage_lt)).mpr ⟨hz, lt_of_le_lastPage hz h⟩

-- There are only so many pages which meet the range.
theorem le_pageCount (h : ∀ k < n, phdr.Meets (phdr.page k)) : n ≤ phdr.pageCount ∨ 2 ^ 27 ≤ phdr.pageCount := by
  by_contra hc
  rw [not_or, not_le, not_le] at hc
  have hl : phdr.firstPage + phdr.pageCount < 2 ^ 52 := by
    by_contra hl
    have hz := firstPage_of_meets <| h _ (by omega)
    omega
  have ⟨hz, hm⟩ := (meets_page_iff hl).mp <| h _ hc.1
  rw [pageCount, if_neg hz] at hm
  simp only [firstPage, pageSize] at hm
  omega

theorem not_meets (hz : phdr.memsz = 0) : ¬phdr.Meets pg := by
  intro ⟨a, h₁, h₂, _⟩
  simp [hz] at h₂
  omega

-- What a complete loop tells about the range if it has visited the right pages.
theorem Loop.regular (l : phdr.Loop image 0 vas true) (e : Visit.Exact { phdr, pages := vas, complete := true }) :
    phdr.Regular ∧ phdr.cutOff image = none ∧ vas.length = phdr.pageCount := by
  have ⟨hl, hp, h⟩ := l.last
  have ⟨hm, hc⟩ := e
  have hv := l.vas_eq
  rw [← List.range_eq_range'] at hv
  have hmem {k : Nat} : phdr.page k ∈ vas ↔ ∃ j < vas.length, phdr.page j = phdr.page k := by
    rw [hv]
    simp
  have hn : phdr.cutOff image = none := by
    cases hco : phdr.cutOff image
    case none   => rfl
    case some i =>
      have ⟨hs, _, hi⟩ := cutOff_eq_some.mp hco
      exact absurd hs (h i (by omega)).2
  by_cases hz : phdr.memsz = 0
  case pos =>
    have h₀ : vas.length = 0 := by
      by_contra hne
      exact not_meets hz <| hm _ <| hmem.mpr ⟨0, Nat.pos_of_ne_zero hne, rfl⟩
    refine ⟨⟨fun _ => (lastPage_zero hz).mp (by omega), fun hc => absurd hz hc⟩, hn, ?_⟩
    rw [pageCount, if_pos hz, h₀]
  case neg =>
    have hz' : phdr.memsz.toNat ≠ 0 := fun h => hz <| BitVec.eq_of_toNat_eq h
    have hlt {k : Nat} (hk : phdr.firstPage + k < 2 ^ 52)
        (he : (phdr.firstPage + k) * pageSize < phdr.vaddr.toNat + phdr.memsz.toNat) : k < vas.length := by
      have ⟨j, hj, hjk⟩ := hmem.mp <| hc rfl _ aligned_page <| (meets_page_iff hk).mpr ⟨hz, he⟩
      have hjk := congrArg BitVec.toNat hjk
      rw [toNat_page (by omega), toNat_page hk, pageSize] at hjk
      omega
    have h₀ := hlt (k := 0) firstPage_lt <| by simp only [firstPage, pageSize]; omega
    have h₁ := (h (vas.length - 1) (by omega)).1
    have he := lastPage_eq hz
    have hle : phdr.vaddr.toNat + phdr.memsz.toNat ≤ 2 ^ 64 := by
      by_contra hc
      have := @hlt vas.length hl <| by simp only [pageSize]; omega
      omega
    rw [if_pos hle] at he
    refine ⟨⟨fun hc => absurd hc hz, fun _ => ?_⟩, hn, ?_⟩
    case refine_1 =>
      simp only [pageSize] at he ⊢
      omega
    case refine_2 =>
      rw [pageCount, if_neg hz, ← he]
      omega

theorem Regular.loop (r : phdr.Regular) (hn : phdr.cutOff image = none) :
    phdr.Loop image 0 ((List.range phdr.pageCount).map phdr.page) true ∧
      Visit.Exact { phdr, pages := (List.range phdr.pageCount).map phdr.page, complete := true } := by
  have hf := @firstPage_lt phdr
  by_cases hz : phdr.memsz = 0
  case pos =>
    have hl := (lastPage_zero hz).mpr <| r.1 hz
    rw [pageCount, if_pos hz]
    refine ⟨.done <| (endPg_lt_page_iff hf).mpr hl, ?_, fun _ pg _ h => absurd h <| not_meets hz⟩
    intro pg hm
    cases hm
  case neg =>
    have hz' : phdr.memsz.toNat ≠ 0 := fun h => hz <| BitVec.eq_of_toNat_eq h
    have hr := r.2 hz
    have he := lastPage_eq hz
    rw [if_pos (by omega)] at he
    have hc : phdr.firstPage + phdr.pageCount = phdr.lastPage + 1 := by
      rw [pageCount, if_neg hz, he]
      simp only [firstPage, pageSize]
      omega
    have hlt : phdr.lastPage + 1 < 2 ^ 52 := by
      simp only [pageSize] at hr he
      omega
    refine ⟨?_, fun pg hm => ?_, fun _ pg ha hm => ?_⟩
    case refine_1 =>
      rw [List.range_eq_range']
      refine loop_complete ?_ fun k hk => ?_
      case refine_1 =>
        rw [Nat.zero_add]
        exact (endPg_lt_page_iff (by omega)).mpr (by omega)
      case refine_2 =>
        rw [Nat.zero_add]
        exact ⟨(page_le_endPg_iff (by omega)).mpr (by omega), not_short_of_cutOff hn (by omega)⟩
    case refine_2 =>
      obtain ⟨k, hk, he⟩ := List.mem_map.mp hm
      have hk : phdr.firstPage + k ≤ phdr.lastPage := by
        have := List.mem_range.mp hk
        omega
      exact he ▸ meets_of_le_lastPage hz hk
    case refine_3 =>
      obtain ⟨k, hk, hp⟩ := hm.eq_page ha
      have hlt := ((meets_page_iff hk).mp <| hp ▸ hm).2
      refine List.mem_map.mpr ⟨k, List.mem_range.mpr ?_, hp.symm⟩
      simp only [pageSize] at hlt he
      omega

theorem loop_of_cutOff (hz : phdr.memsz ≠ 0) (hc : phdr.cutOff image = some i) :
    phdr.Loop image 0 ((List.range (i + 1)).map phdr.page) false ∧
      Visit.Exact { phdr, pages := (List.range (i + 1)).map phdr.page, complete := false } := by
  have ⟨hs, hn, hi⟩ := cutOff_eq_some.mp hc
  have hll := @lastPage_lt phdr
  refine ⟨?_, fun pg hm => ?_, fun hc => by cases hc⟩
  case refine_1 =>
    rw [List.range_eq_range']
    refine loop_incomplete ?_ ?_ fun k hk => ?_
    all_goals rw [Nat.zero_add]
    case refine_1 => exact (page_le_endPg_iff (by omega)).mpr hi
    case refine_2 => exact hs
    case refine_3 => exact ⟨(page_le_endPg_iff (by omega)).mpr (by omega), hn k hk⟩
  case refine_2 =>
    have ⟨k, hk, he⟩ := List.mem_map.mp hm
    have hk : phdr.firstPage + k ≤ phdr.lastPage := by
      have := List.mem_range.mp hk
      omega
    exact he ▸ meets_of_le_lastPage hz hk

-- What is visited is determined by the segment and by the size of the file.
theorem loop_exact_iff : phdr.Loop image 0 vas ok ∧ Visit.Exact { phdr, pages := vas, complete := ok } ↔
    phdr.Sound image ∧ vas = phdr.pages image ∧ ok = (phdr.cutOff image).isNone := by
  constructor
  case mp =>
    intro ⟨l, e⟩
    have hv := l.vas_eq
    rw [← List.range_eq_range'] at hv
    cases ok
    case false =>
      have ⟨hz, ho⟩ := l.cutOff e.1
      have ⟨n, hn, _⟩ := l.incomplete rfl
      refine ⟨.inr ⟨hz, by rw [ho]; rfl⟩, ?_, by rw [ho]; rfl⟩
      rw [hv, Phdr.pages, visited, ho, hn]
      rfl
    case true =>
      have ⟨hr, ho, hn⟩ := l.regular e
      refine ⟨.inl hr, ?_, by rw [ho]; rfl⟩
      rw [hv, Phdr.pages, visited, ho, hn]
  case mpr =>
    intro ⟨hs, hv, ho⟩
    subst hv ho
    rw [Phdr.pages, visited]
    cases hc : phdr.cutOff image
    case none =>
      refine Regular.loop (hs.resolve_right fun h => ?_) hc
      simp [hc] at h
    case some i =>
      refine loop_of_cutOff (fun hz => ?_) hc
      -- There is no page to be visited if the range is empty.
      have hr := hs.resolve_right fun h => h.1 hz
      have := (lastPage_zero hz).mpr <| hr.1 hz
      have := (cutOff_eq_some.mp hc).2.2
      omega

theorem visited_le (h : phdr.Sound image) : phdr.visited image ≤ phdr.pageCount ∨ 2 ^ 27 ≤ phdr.pageCount := by
  have ⟨_, hm, _⟩ := loop_exact_iff.mpr ⟨h, rfl, rfl⟩
  exact le_pageCount fun k hk => hm _ <| List.mem_map.mpr ⟨k, List.mem_range.mpr hk, rfl⟩

end Loop

section Reading

variable {byteCnt byteOffset offset bufLen : Word}

theorem delivered_eq_iff (hz : bufLen ≠ 0) :
    image.delivered offset bufLen = bufLen ↔ offset.toNat + bufLen.toNat ≤ image.size.toNat := by
  have hz : bufLen.toNat ≠ 0 := fun h => hz <| BitVec.eq_of_toNat_eq h
  have hs : (image.size.setWidth 64).toNat = image.size.toNat := Fs.setWidth_toNat
  rw [Image.delivered]
  by_cases hle : image.size.setWidth 64 ≤ offset
  case pos =>
    rw [if_pos hle]
    rw [BitVec.le_def, hs] at hle
    constructor
    case mp  => exact fun h => absurd (h ▸ rfl) hz
    case mpr => omega
  case neg =>
    rw [if_neg hle, ← BitVec.toNat_inj, Fs.min64_toNat]
    rw [BitVec.le_def, hs] at hle
    rw [BitVec.toNat_sub_of_le (by rw [BitVec.le_def, hs]; omega), hs]
    omega

theorem lt_of_delivered (hz : bufLen ≠ 0) (h : image.delivered offset bufLen = bufLen) :
    ¬image.size.setWidth 64 ≤ offset := by
  intro hle
  rw [Image.delivered, if_pos hle] at h
  exact hz h.symm

theorem reading_zero : phdr.Reading image 0 0 (allOneMask 12 &&& phdr.vaddr) where
  count    := by simp [bytesBefore]
  offset _ := by
    rw [if_pos rfl, BitVec.and_comm]
    exact toNat_and_mask _
  whole    := .inl rfl

namespace Reading

variable (r : phdr.Reading image i byteCnt byteOffset)

include r

-- The offset in the file does not overflow.
theorem toNat_offset : (phdr.offset + byteCnt).toNat = phdr.offset.toNat + byteCnt.toNat := by
  have hs := image.size.isLt
  cases r.whole
  case inl hw => simp [hw]
  case inr hw =>
    rw [BitVec.toNat_add, Nat.mod_eq_of_lt]
    omega

-- There is nothing to be read for the page.
theorem skip (h : ¬byteCnt < phdr.filesz) : ¬phdr.Short image i ∧ phdr.Reading image (i + 1) byteCnt byteOffset := by
  have hc := r.count
  have h' := h
  rw [BitVec.lt_def, hc] at h'
  refine ⟨fun hs => h' hs.1, ?_, fun hc => absurd hc h, r.whole⟩
  rw [hc]
  simp only [bytesBefore, pageSize] at h' ⊢
  omega

theorem read (h : byteCnt < phdr.filesz) :
    let len := Fs.min64 (phdr.filesz - byteCnt) (.ofNat 64 pageSize - byteOffset)
    len ≠ 0 ∧ len.toNat = phdr.bytesBefore (i + 1) - phdr.bytesBefore i ∧
      (image.delivered (phdr.offset + byteCnt) len = len ↔ ¬phdr.Short image i) ∧
      (¬phdr.Short image i → phdr.Reading image (i + 1) (byteCnt + len) 0) := by
  intro len
  have hc := r.count
  have ho := r.offset h
  have hm : phdr.vaddr.toNat % pageSize < pageSize := Nat.mod_lt _ <| by decide
  have hz := phdr.filesz.isLt
  have hs := image.size.isLt
  rw [BitVec.lt_def] at h
  have hle : byteOffset.toNat ≤ pageSize := by
    split_ifs at ho <;> omega
  have hp : (BitVec.ofNat 64 pageSize).toNat = pageSize := rfl
  have hlen : len.toNat = phdr.bytesBefore (i + 1) - phdr.bytesBefore i := by
    rw [Fs.min64_toNat, BitVec.toNat_sub_of_le (BitVec.le_def.mpr h.le), BitVec.toNat_sub_of_le (BitVec.le_def.mpr hle), hp,
      hc, ho]
    rw [hc] at h
    simp only [bytesBefore, pageSize] at h hm ⊢
    split_ifs <;> omega
  have hlt : phdr.bytesBefore i < phdr.bytesBefore (i + 1) := by
    rw [hc] at h
    simp only [bytesBefore, pageSize] at h hm ⊢
    omega
  have hnext : phdr.bytesBefore (i + 1) ≤ phdr.filesz.toNat := Nat.min_le_left ..
  have hoff := r.toNat_offset
  have hne : len ≠ 0 := by
    intro he
    have : len.toNat = 0 := he ▸ rfl
    omega
  have hshort : phdr.Short image i ↔ image.size.toNat < phdr.offset.toNat + phdr.bytesBefore (i + 1) :=
    and_iff_right <| hc ▸ h
  refine ⟨hne, hlen, ?_, fun hn => ⟨?_, fun _ => rfl, .inr ?_⟩⟩
  all_goals rw [hshort] at *
  case refine_1 =>
    rw [delivered_eq_iff hne, hoff, hc, hlen]
    omega
  all_goals
    have hsum : (byteCnt + len).toNat = phdr.bytesBefore (i + 1) := by
      rw [BitVec.toNat_add, hc, hlen, Nat.mod_eq_of_lt] <;> omega
    rw [hsum]
  case refine_3 => exact Nat.le_of_not_lt hn

end Reading

end Reading

end Phdr

end Zgmos.Process
