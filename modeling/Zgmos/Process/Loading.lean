import Zgmos.Process.Segments

-- The state of the loader between two pages.

namespace Zgmos.Process

open Pte

variable {Obj Buffers : Type}

-- A page which has been loaded: the one with the given index of a segment.
structure Entry where
  page  : TaskPage
  phdr  : Phdr
  index : Nat

def Entry.mapping (e : Entry) : Mapping :=
  { pa := e.page.pa, flags := taskAuxMapFlags e.phdr.flags, size := .page4K }

def Entry.place (e : Entry) : Phdr × Nat :=
  (e.phdr, e.index)

-- The places of `n` pages of a segment from the page `i` on.
def Phdr.places (phdr : Phdr) (i n : Nat) : List (Phdr × Nat) :=
  (List.range' i n).map (phdr, ·)

-- The entry for a page that is loaded in a state.
def Allocator.entry (alloc : Allocator) (s : TaskState) (phdr : Phdr) (index : Nat) : Entry :=
  { page := { addr := alloc.kmalloc s, pa := alloc.pmem s 0, va := phdr.page index }, phdr, index }

-- The space in which the pages have been mapped.
def space (F : Space) (es : List Entry) : Space :=
  es.foldl (fun A e => A.map (e.page.va.setWidth 39) e.mapping) F

-- The first `n` bytes at `addr` are not in the memory `own`.
def Outside (own : Word → Prop) (n : Nat) (addr : Word) : Prop :=
  ∀ k < n, ¬own (addr + .ofNat 64 k)

-- The allocators succeed in a state, and their results are new. The buffers of the file system are in the memory `own`.
structure Supplied (alloc : Allocator) (own : Word → Prop) (s : TaskState) : Prop where
  object   : alloc.kmalloc s ≠ 0 ∧ alloc.kmalloc s ∉ s.objects ∧ Outside own ehdrSize (alloc.kmalloc s)
  page     : ∀ n ≤ 2, alloc.pmem s n ≠ 0 ∧ Aligned (alloc.pmem s n) ∧ alloc.pmem s n ∉ s.live ∧
    Outside own pageSize (alloc.pmem s n)
  distinct : ∀ n m, n < m → m ≤ 2 → alloc.pmem s n ≠ alloc.pmem s m

-- The pages do not share an entry of the page table, neither with each other nor with the space.
structure Apart (F : Space) (vas : List Word) : Prop where
  nodup : (vas.map pageNumber).Nodup
  free  : ∀ va ∈ vas, F (va.setWidth 39) = none

-- The number of pages and objects which are in use.
def TaskState.used (s : TaskState) : Nat :=
  s.live.length + s.objects.length

-- The pages `es` have been loaded since the state `s₀`.
structure Loaded (F : Space) (p : Word) (s₀ : TaskState) (es : List Entry) (s : TaskState) : Prop where
  userPte : s.task.userPte = p
  pages   : s.task.pages = (es.map (·.page)).reverse
  entries : ∀ e ∈ es, e.page.va = e.phdr.page e.index ∧ Aligned e.page.pa
  apart   : Apart F (es.map (·.page.va))
  maps    : Maps s.mem p (space F es)
  tables  : ∀ t ∈ Pte.tables s.mem p, t ∈ s.live
  live    : s.live.Nodup ∧ ∃ ts, s.live.Perm (ts ++ (es.map (·.page.pa) ++ s₀.live)) ∧ ts.length ≤ 2 * es.length ∧
    Pte.tables s.mem p = Pte.tables s₀.mem p ∪ { t | t ∈ ts }
  objects : s.objects.Nodup ∧ s.objects = (es.map (·.page.addr)).reverse ++ s₀.objects

-- The byte of a page which has been loaded. What is not in the file is left as it was.
def Entry.content (image : Image) (data : Word → Byte) (e : Entry) (k : Nat) : Byte :=
  let pos := e.index * pageSize + k
  let byteOffset := e.phdr.vaddr.toNat % pageSize
  if byteOffset ≤ pos ∧ pos - byteOffset < e.phdr.filesz.toNat then
    image.content (e.phdr.offset.toNat + (pos - byteOffset))
  else
    data (e.page.pa + .ofNat 64 k)

-- The memory outside of the buffers, of the page `buf` for the headers and of the pages that have been loaded.
def Kept (own : Word → Prop) (buf : Word) (es : List Entry) (data data' : Word → Byte) : Prop :=
  ∀ a, ¬own a → align4K a ∉ buf :: es.map (·.page.pa) → data' a = data a

-- The file is not a device, and `vfs_access` succeeds for all of its blocks.
structure Serving (loader : Loader Buffers) (own : Word → Prop) (image : Image) (s : Fs.Kernel Obj Buffers) : Prop where
  file   : (s.files.vfs.nodes loader.image).type ≠ .dev
  size   : (s.files.vfs.nodes loader.image).size = image.size
  serves : ∃ inv, Fs.Serves loader.access inv own loader.image image.size.toNat image.content ∧ inv s.buffers

-- The loader has not failed. The memory was `data` at the beginning.
structure Ready (loader : Loader Buffers) (own : Word → Prop) (F : Space) (p : Word) (s₀ : TaskState) (buf : Word)
    (image : Image) (data : Word → Byte) (es : List Entry) (s : LoadState Obj Buffers) : Prop where
  loaded   : Loaded F p s₀ es s.state
  serving  : Serving loader own image s.kernel
  unlocked : s.kernel.locked = false
  buffer   : Aligned buf ∧ buf ∈ s₀.live ∧ Outside own pageSize buf
  outside  : ∀ e ∈ es, Outside own pageSize e.page.pa
  filled   : ∀ e ∈ es, ∀ k < pageSize, s.kernel.mem (e.page.pa + .ofNat 64 k) = e.content image data k
  kept     : Kept own buf es data s.kernel.mem

-- The memory suffices for `m` pages, with a structure and up to two tables for each, when `n` pages and objects are in
-- use.
def Enough (alloc : Allocator) (own : Word → Prop) (n m : Nat) : Prop :=
  ∀ s : TaskState, s.used ≤ n + 4 * m → Supplied alloc own s

variable {F A : Space} {p va flags buf : Word} {vas : List Word} {i : Nat} {es : List Entry} {s₀ s s' : TaskState}
  {alloc : Allocator} {own : Word → Prop} {loader : Loader Buffers} {phdr : Phdr} {a b : BitVec 39} {e : Entry}
  {image : Image} {data : Word → Byte} {k m : Nat}

section Space

theorem samePage_iff_pageNumber : SamePage .page4K (va.setWidth 39) a ↔ pageNumber va = pageNumber (a.setWidth 64) := by
  rw [samePage_page4K, ← BitVec.toNat_inj, pageNumber, pageNumber]
  simp only [BitVec.toNat_setWidth, BitVec.extractLsb'_toNat, Nat.shiftRight_eq_div_pow]
  omega

theorem pageNumber_setWidth : pageNumber ((va.setWidth 39).setWidth 64) = pageNumber va := by
  rw [← BitVec.toNat_inj, pageNumber, pageNumber]
  simp only [BitVec.toNat_setWidth, BitVec.extractLsb'_toNat, Nat.shiftRight_eq_div_pow]
  omega

theorem space_concat : space F (es ++ [e]) = (space F es).map (e.page.va.setWidth 39) e.mapping := by
  rw [space, List.foldl_append]
  rfl

theorem map_eq_none {m : Mapping} (hm : m.size = .page4K) :
    A.map (va.setWidth 39) m a = none ↔ A a = none ∧ pageNumber va ≠ pageNumber (a.setWidth 64) := by
  rw [Space.map, hm, ne_eq, ← samePage_iff_pageNumber]
  by_cases hs : SamePage .page4K (va.setWidth 39) a
  case pos => simp [hs]
  case neg => simp [hs]

theorem space_eq_none : space F es a = none ↔
    F a = none ∧ pageNumber (a.setWidth 64) ∉ es.map (pageNumber ·.page.va) := by
  induction es generalizing F
  case nil => simp [space]
  case cons e es hi =>
    have hc : space F (e :: es) = space (F.map (e.page.va.setWidth 39) e.mapping) es := rfl
    rw [hc, hi, map_eq_none rfl, List.map_cons, List.mem_cons, not_or, and_assoc, ne_comm]

theorem apart_concat : Apart F (vas ++ [va]) ↔
    Apart F vas ∧ F (va.setWidth 39) = none ∧ pageNumber va ∉ vas.map pageNumber := by
  constructor
  case mp =>
    intro ⟨hd, hf⟩
    rw [List.map_append, List.nodup_append] at hd
    refine ⟨⟨hd.1, fun a ha => hf a <| List.mem_append_left _ ha⟩, hf va (by simp), fun hc => ?_⟩
    exact hd.2.2 _ hc _ (by simp) rfl
  case mpr =>
    intro ⟨⟨hd, hf⟩, hv, hn⟩
    constructor
    case nodup =>
      rw [List.map_append, List.nodup_append]
      refine ⟨hd, List.nodup_singleton _, fun a ha b hb hc => hn ?_⟩
      rw [List.map_singleton, List.mem_singleton] at hb
      exact hb ▸ hc ▸ ha
    case free => simpa [or_imp, forall_and] using ⟨hf, hv⟩

theorem Apart.space_eq_none (h : Apart F (es.map (·.page.va) ++ va :: vas)) : space F es (va.setWidth 39) = none := by
  refine Process.space_eq_none.mpr ⟨h.free va <| by simp, fun hc => ?_⟩
  have hd := h.nodup
  rw [List.map_append, List.map_map] at hd
  rw [pageNumber_setWidth] at hc
  exact (List.nodup_append.mp hd).2.2 _ hc _ List.mem_cons_self rfl

-- There is an entry of the page table for each page. One of them is in use from the beginning.
theorem Apart.length_lt (h : Apart F vas) (hF : Paged F) (hn : F a ≠ none) : vas.length < 2 ^ 27 := by
  have hd : ((pageNumber (a.setWidth 64) :: vas.map pageNumber).map BitVec.toNat).Nodup := by
    refine List.Nodup.map BitVec.toNat_injective <| List.nodup_cons.mpr ⟨fun hc => ?_, h.nodup⟩
    have ⟨va, hm, he⟩ := List.mem_map.mp hc
    exact hn <| (hF _ _ <| samePage_iff_pageNumber.mpr he) ▸ h.free va hm
  have hs : ((pageNumber (a.setWidth 64) :: vas.map pageNumber).map BitVec.toNat).toFinset ⊆ Finset.range (2 ^ 27) := by
    intro i hi
    have ⟨b, _, he⟩ := List.mem_map.mp <| List.mem_toFinset.mp hi
    exact Finset.mem_range.mpr <| he ▸ b.isLt
  have hc := Finset.card_le_card hs
  rw [List.toFinset_card_of_nodup hd, Finset.card_range] at hc
  simpa using hc

end Space

section Pages

variable {x off len pg : Word}

theorem align4K_add (ha : Aligned pg) (hk : k < pageSize) : align4K (pg + .ofNat 64 k) = pg := by
  have hm := aligned_iff.mp ha
  have hl := pg.isLt
  simp only [pageSize] at hk
  rw [← BitVec.toNat_inj, toNat_align4K, BitVec.toNat_add, BitVec.toNat_ofNat]
  omega

-- A part of a page.

theorem part_of_ne (ha : Aligned pg) (h : off.toNat + len.toNat ≤ pageSize) (hn : align4K x ≠ pg) :
    ¬x - (pg + off) < len := by
  intro hc
  have hx : x = pg + .ofNat 64 (off.toNat + (x - (pg + off)).toNat) := by
    rw [BitVec.ofNat_add, BitVec.ofNat_toNat, BitVec.ofNat_toNat, BitVec.setWidth_eq, BitVec.setWidth_eq]
    bv_omega
  rw [BitVec.lt_def] at hc
  exact hn <| hx ▸ align4K_add ha (by omega)

variable (pg) in
theorem part_iff (hk : k < pageSize) (h : off.toNat + len.toNat ≤ pageSize) :
    (pg + .ofNat 64 k - (pg + off) < len ↔ off.toNat ≤ k ∧ k < off.toNat + len.toNat) ∧
      (off.toNat ≤ k → (pg + .ofNat 64 k - (pg + off)).toNat = k - off.toNat) := by
  have he : pg + .ofNat 64 k - (pg + off) = .ofNat 64 k - off := by bv_omega
  have hz : (BitVec.ofNat 64 k).toNat = k := Fs.ofNat_toNat <| hk.trans <| by decide
  simp only [pageSize] at hk h
  rw [he, BitVec.lt_def, BitVec.toNat_sub, hz]
  constructor
  all_goals omega

theorem outside_part (h : Outside own pageSize pg) (hle : off.toNat + len.toNat ≤ pageSize) :
    Outside own len.toNat (pg + off) := by
  intro k hk
  rw [Fs.add_ofNat]
  exact h _ <| by omega

end Pages

theorem Supplied.answers (w : Supplied alloc own s) (va : Word) : Answers s va (alloc.kmalloc s) (alloc.pmem s) where
  object _         := w.object.2.1
  page _ n hn      := by
    have h := w.page n <| hn.trans pteMapAllocs_le
    exact ⟨h.2.1, h.2.2.1⟩
  distinct _ n m h hm := w.distinct n m h <| hm.trans pteMapAllocs_le

namespace Loaded

variable (l : Loaded F p s₀ es s)

include l

-- A page is added if its entry in the page table is free. Otherwise the kernel panics.

theorem add_panic (w : Supplied alloc own s) (hs : space F es (va.setWidth 39) ≠ none) :
    ∃ s', (taskAddPage (alloc.kmalloc s) (alloc.pmem s) va flags).run s = (.error .panic, s') := by
  apply taskAddPage_error
  case hk => exact w.object.1
  case hp => exact (w.page 0 (by decide)).1
  case h  =>
    rw [l.userPte, pteMap_setWidth]
    exact pteMap_panic l.maps.tree <| .inl <| l.maps.xwrv_entry.not.mpr hs

theorem add (w : Supplied alloc own s) (hf : taskAuxMapFlags phdr.flags ≠ 0)
    (hs : space F es ((phdr.page i).setWidth 39) = none) :
    ∃ s', (taskAddPage (alloc.kmalloc s) (alloc.pmem s) (phdr.page i) (taskAuxMapFlags phdr.flags)).run s =
        (.ok (some (alloc.entry s phdr i).page), s') ∧
      Loaded F p s₀ (es ++ [alloc.entry s phdr i]) s' := by
  have hv := validFlags_taskAuxMapFlags hf
  have hp := w.page 0 (by decide)
  have hu : Supplies s.mem p (fun n => alloc.pmem s (n + 1))
      (pteMapAllocs s.mem p (((phdr.page i).setWidth 39).setWidth 64) .page4K) := by
    have hle : pteMapAllocs s.mem p (((phdr.page i).setWidth 39).setWidth 64) .page4K ≤ 2 := pteMapAllocs_le
    constructor
    case fresh =>
      intro m hm
      have hw := w.page (m + 1) (by omega)
      exact ⟨hw.2.1, fun a ha => hw.2.2.1 <| l.tables _ ⟨a, ha⟩⟩
    case distinct => exact fun _ _ hl hm => w.distinct _ _ (by omega) (by omega)
  have ⟨mem', he, ht⟩ := l.maps.pteMap_tables (alloc.pmem s 0) hv hu hs slot_bits_ge
  have v' := l.maps.map_of_supplies hv hu he
  rw [← pteMap_setWidth, ← l.userPte] at he
  rw [← pteMapAllocs_setWidth] at ht
  have ⟨hF, hn⟩ := space_eq_none.mp hs
  rw [pageNumber_setWidth] at hn
  have hx : es.map (·.page.va) ++ [phdr.page i] = (es ++ [alloc.entry s phdr i]).map (·.page.va) := by
    rw [List.map_append]
    rfl
  have hd := (w.answers (phdr.page i)).nodup hp.1 l.live.1
  have ⟨ts, hperm, hlen, htab⟩ := l.live.2
  refine ⟨_, taskAddPage_run w.object.1 hp.1 he, ?_⟩
  constructor
  case userPte => exact l.userPte
  case pages   =>
    rw [List.map_append, List.reverse_append, ← l.pages]
    rfl
  case entries => exact List.forall_mem_append.mpr ⟨l.entries, List.forall_mem_singleton.mpr ⟨rfl, hp.2.1⟩⟩
  case apart   =>
    rw [← hx]
    refine apart_concat.mpr ⟨l.apart, hF, ?_⟩
    rwa [List.map_map]
  case maps =>
    rw [space_concat]
    exact v'
  case tables =>
    intro t hm
    rw [ht] at hm
    cases hm
    case inl hm => exact List.mem_append_right _ <| List.mem_cons_of_mem _ <| l.tables t hm
    case inr hm => exact List.mem_append_left _ <| l.userPte ▸ hm
  case live =>
    refine ⟨hd, (List.range <| pteMapAllocs s.mem p (phdr.page i) .page4K).map (fun n => alloc.pmem s (n + 1)) ++ ts,
      ?_, ?_, ?_⟩
    case refine_1 =>
      rw [List.perm_iff_count] at hperm ⊢
      intro t
      have := hperm t
      simp only [List.map_append, List.map_cons, List.map_nil, List.count_append, List.count_cons, List.count_nil] at this ⊢
      have hpa : (alloc.entry s phdr i).page.pa = alloc.pmem s 0 := rfl
      rw [hpa, l.userPte]
      omega
    case refine_2 =>
      have hle : pteMapAllocs s.mem p (phdr.page i) .page4K ≤ 2 := pteMapAllocs_le
      simp only [List.length_append, List.length_map, List.length_range, List.length_cons, List.length_nil]
      omega
    case refine_3 =>
      rw [ht, htab]
      ext t
      simp only [Set.mem_union, Set.mem_ofPred_eq, List.mem_append]
      tauto
  case objects =>
    refine ⟨List.nodup_cons.mpr ⟨w.object.2.1, l.objects.1⟩, ?_⟩
    rw [List.map_append, List.reverse_append, List.append_assoc, ← l.objects.2]
    rfl

theorem used_le : s.used ≤ s₀.used + 4 * es.length := by
  have ⟨ts, hp, hl, _⟩ := l.live.2
  have := hp.length_eq
  simp only [TaskState.used, l.objects.2, List.length_append, List.length_reverse, List.length_map] at this ⊢
  omega

-- The pages which are loaded are in use, and have not been before.

theorem pa_live (hm : e ∈ es) : e.page.pa ∈ s.live := by
  have ⟨_, hp, _⟩ := l.live.2
  exact hp.mem_iff.mpr <| List.mem_append_right _ <| List.mem_append_left _ <| List.mem_map_of_mem hm

theorem live_subset : s₀.live ⊆ s.live := by
  have ⟨_, hp, _⟩ := l.live.2
  exact fun t hm => hp.mem_iff.mpr <| List.mem_append_right _ <| List.mem_append_right _ hm

theorem pa_new (hm : e ∈ es) : e.page.pa ∉ s₀.live := by
  have ⟨_, hp, _⟩ := l.live.2
  have hd := (List.nodup_append.mp <| hp.nodup_iff.mp l.live.1).2.1
  exact fun hc => (List.nodup_append.mp hd).2.2 _ (List.mem_map_of_mem hm) _ hc rfl

theorem supplied (h : Enough alloc own s₀.used m) (hm : es.length < m) : Supplied alloc own s := by
  have := l.used_le
  exact h s (by omega)

end Loaded

section Run

variable {σ : LoadState Obj Buffers} {offset bufLen : Word} {α : Type} {x : TaskM α} {r : Except Fault α}

theorem onTask_run (h : x.run σ.state = (r, s)) :
    (onTask x : LoadM Obj Buffers α).run σ = (r, { σ with state := s }) := by
  have hr : (onTask x : LoadM Obj Buffers α).run σ = ((x.run σ.state).1, { σ with state := (x.run σ.state).2 }) := rfl
  rw [hr, h]

theorem load_get_run : (get : LoadM Obj Buffers (LoadState Obj Buffers)).run σ = (.ok σ, σ) :=
  rfl

-- The memory after a read into a buffer.
def Image.readInto (image : Image) (offset buf bufLen : Word) (data : Word → Byte) (a : Word) : Byte :=
  if a - buf < image.delivered offset bufLen then image.content (offset.toNat + (a - buf).toNat) else data a

theorem readInto_eq {x : Word} {f : Word → Byte} (h : image.delivered offset bufLen = bufLen) :
    image.readInto offset buf bufLen f x =
      if x - buf < bufLen then image.content (offset.toNat + (x - buf).toNat) else f x := by
  rw [Image.readInto, h]

-- Nothing is written outside of the buffer, whatever is delivered.
theorem readInto_of_not (image : Image) (offset : Word) {x : Word} (f : Word → Byte) (h : ¬x - buf < bufLen) :
    image.readInto offset buf bufLen f x = f x := by
  have hle : (image.delivered offset bufLen).toNat ≤ bufLen.toNat := by
    rw [Image.delivered]
    split_ifs
    case pos => exact Nat.zero_le _
    case neg =>
      rw [Fs.min64_toNat]
      exact Nat.min_le_left _ _
  refine if_neg ?_
  rw [BitVec.lt_def] at h ⊢
  omega

theorem vfsRead_of_ok {n : Word} {kernel : Fs.Kernel Obj Buffers}
    (h : σ.kernel.vfsRead loader.access loader.device loader.image offset buf bufLen = .ok (n, kernel)) :
    (vfsRead loader offset buf bufLen).run σ = (.ok n, { σ with kernel }) := by
  have hr : (vfsRead loader offset buf bufLen).run σ = vfsRead loader offset buf bufLen σ := rfl
  rw [hr, vfsRead, h]

-- A read outside of the buffers of the file system.
theorem vfsRead_run (w : Serving loader own image σ.kernel) (hl : σ.kernel.locked = false)
    (hb : Outside own bufLen.toNat buf) :
    ∃ kernel, (vfsRead loader offset buf bufLen).run σ = (.ok (image.delivered offset bufLen), { σ with kernel }) ∧
      Serving loader own image kernel ∧ kernel.locked = decide (image.size.setWidth 64 ≤ offset) ∧
      ∀ a, ¬own a → kernel.mem a = image.readInto offset buf bufLen σ.kernel.mem a := by
  have hs : (image.size.setWidth 64).toNat = image.size.toNat := Fs.setWidth_toNat
  by_cases ho : image.size.setWidth 64 ≤ offset
  case pos =>
    have hz : image.delivered offset bufLen = 0 := if_pos ho
    have he : σ.kernel.vfsRead loader.access loader.device loader.image offset buf bufLen = _ :=
      Fs.Kernel.vfsRead_eof hl w.file <| by
        rw [w.size, ← hs]
        exact BitVec.le_def.mp ho
    rw [hz]
    refine ⟨_, vfsRead_of_ok he, ⟨w.file, w.size, w.serves⟩, (decide_eq_true ho).symm, fun a _ => ?_⟩
    rw [Image.readInto, hz]
    exact (if_neg <| by simp [BitVec.lt_def]).symm
  case neg =>
    obtain ⟨inv, hw, hi⟩ := w.serves
    have hlt : offset.toNat < image.size.toNat := by
      rw [← hs]
      exact BitVec.not_le.mp ho
    have hdn : (image.delivered offset bufLen).toNat = min bufLen.toNat (image.size.toNat - offset.toNat) := by
      rw [Image.delivered, if_neg ho, Fs.min64_toNat, BitVec.toNat_sub_of_le (BitVec.le_of_lt <| BitVec.not_le.mp ho), hs]
    obtain ⟨n, buffers, mem, he, hn, hi', hdel⟩ := Fs.Kernel.vfsRead_ok loader.device hw hi hl w.file (w.size ▸ hlt) rfl
      (by rw [w.size]; omega) (image.size.isLt.trans <| by decide) fun k hk => hb k <| hk.trans_le <| Nat.min_le_left _ _
    rw [w.size, ← hdn] at hn hdel
    cases BitVec.eq_of_toNat_eq hn
    refine ⟨_, vfsRead_of_ok he, ⟨w.file, w.size, inv, hw, hi'⟩, hl.trans (decide_eq_false ho).symm, fun a ha => ?_⟩
    rw [Image.readInto]
    split_ifs with hc
    case pos =>
      have he : buf + .ofNat 64 (a - buf).toNat = a := by
        rw [BitVec.ofNat_toNat, BitVec.setWidth_eq, BitVec.add_comm, BitVec.sub_add_cancel]
      have := hdel.bytes _ <| BitVec.lt_def.mp hc
      rwa [he] at this
    case neg => exact hdel.frame a ha <| Nat.le_of_not_lt <| BitVec.lt_def.not.mp hc

end Run

section Content

variable (data) {byteCnt byteOffset : Word} (r : e.phdr.Reading image e.index byteCnt byteOffset) (hk : k < pageSize)

include r hk

theorem content_skip (h : ¬byteCnt < e.phdr.filesz) : e.content image data k = data (e.page.pa + .ofNat 64 k) := by
  have hc := r.count
  rw [BitVec.lt_def, hc] at h
  simp only [Phdr.bytesBefore, pageSize] at h hk
  simp only [Entry.content, pageSize]
  exact if_neg <| by omega

theorem content_read (h : byteCnt < e.phdr.filesz) :
    let len := Fs.min64 (e.phdr.filesz - byteCnt) (.ofNat 64 pageSize - byteOffset)
    byteOffset.toNat + len.toNat ≤ pageSize ∧ e.content image data k =
      if byteOffset.toNat ≤ k ∧ k < byteOffset.toNat + len.toNat then
        image.content ((e.phdr.offset + byteCnt).toNat + (k - byteOffset.toNat))
      else
        data (e.page.pa + .ofNat 64 k) := by
  intro len
  have hc := r.count
  have ho := r.offset h
  have hoff := r.toNat_offset
  have hlen : len.toNat = _ := (r.read h).2.1
  have hm : e.phdr.vaddr.toNat % pageSize < pageSize := Nat.mod_lt _ <| by decide
  rw [BitVec.lt_def, hc] at h
  rw [hoff, hc, ho, hlen, Entry.content]
  simp only [Phdr.bytesBefore, pageSize] at h hk hm ⊢
  by_cases hz : e.index = 0
  case pos =>
    simp only [hz, if_true] at h ⊢
    exact ⟨by omega, if_congr (by omega) (congrArg _ <| by omega) rfl⟩
  case neg =>
    simp only [hz, if_false] at h ⊢
    exact ⟨by omega, if_congr (by omega) (congrArg _ <| by omega) rfl⟩

end Content

namespace Ready

variable {σ σ' : LoadState Obj Buffers} {byteCnt byteOffset : Word} (y : Ready loader own F p s₀ buf image data es σ)

include y

theorem loadPage_panic (w : Supplied loader.alloc own σ.state) (hs : space F es (va.setWidth 39) ≠ none) :
    ∃ σ', (loadPage loader phdr flags va byteCnt byteOffset).run σ = (.error .panic, σ') := by
  have ⟨s', he⟩ : ∃ s', (taskAddPage (loader.alloc.kmalloc σ.state) (loader.alloc.pmem σ.state) va flags).run σ.state =
      (.error .panic, s') := y.loaded.add_panic w hs
  exact ⟨_, (ExceptT.run_bind_ok load_get_run).trans <| ExceptT.run_bind_error <| onTask_run he⟩

theorem kept_concat (hother : ∀ a, ¬own a → align4K a ≠ e.page.pa → σ'.kernel.mem a = σ.kernel.mem a) :
    Kept own buf (es ++ [e]) data σ'.kernel.mem := by
  intro a ho ha
  rw [List.map_append, ← List.cons_append, List.mem_append, not_or, List.map_singleton, List.mem_singleton] at ha
  rw [hother a ho ha.2, y.kept a ho ha.1]

-- A new page has been filled.
theorem concat (hl : Loaded F p s₀ (es ++ [e]) σ'.state) (hv : Serving loader own image σ'.kernel)
    (hu : σ'.kernel.locked = false) (hn : e.page.pa ∉ σ.state.live) (hout : Outside own pageSize e.page.pa)
    (hother : ∀ a, ¬own a → align4K a ≠ e.page.pa → σ'.kernel.mem a = σ.kernel.mem a)
    (hnew : ∀ k < pageSize, σ'.kernel.mem (e.page.pa + .ofNat 64 k) = e.content image data k) :
    Ready loader own F p s₀ buf image data (es ++ [e]) σ' where
  loaded   := hl
  serving  := hv
  unlocked := hu
  buffer   := y.buffer
  outside  := List.forall_mem_append.mpr ⟨y.outside, List.forall_mem_singleton.mpr hout⟩
  filled   := by
    refine List.forall_mem_append.mpr ⟨fun e' hm k hk => ?_, List.forall_mem_singleton.mpr hnew⟩
    rw [hother _ <| y.outside e' hm k hk, y.filled e' hm k hk]
    rw [align4K_add (y.loaded.entries e' hm).2 hk]
    exact fun hc => hn <| hc ▸ y.loaded.pa_live hm
  kept     := y.kept_concat hother

-- The body of the loop fails if the file ends before the bytes for the page do.
theorem loadPage_run (w : Supplied loader.alloc own σ.state) (hf : taskAuxMapFlags phdr.flags ≠ 0)
    (r : phdr.Reading image i byteCnt byteOffset) (hs : space F es ((phdr.page i).setWidth 39) = none) :
    ∃ res σ', (loadPage loader phdr (taskAuxMapFlags phdr.flags) (phdr.page i) byteCnt byteOffset).run σ =
        (.ok res, σ') ∧ Loaded F p s₀ (es ++ [loader.alloc.entry σ.state phdr i]) σ'.state ∧
      Kept own buf (es ++ [loader.alloc.entry σ.state phdr i]) data σ'.kernel.mem ∧
      (phdr.Short image i → res = none) ∧
      (¬phdr.Short image i → ∃ byteCnt byteOffset, res = some (byteCnt, byteOffset) ∧
        phdr.Reading image (i + 1) byteCnt byteOffset ∧
        Ready loader own F p s₀ buf image data (es ++ [loader.alloc.entry σ.state phdr i]) σ') := by
  have ⟨s', he, hl⟩ := y.loaded.add w hf hs
  have ha : Aligned (loader.alloc.entry σ.state phdr i).page.pa := (w.page 0 <| by decide).2.1
  have hn : (loader.alloc.entry σ.state phdr i).page.pa ∉ σ.state.live := (w.page 0 <| by decide).2.2.1
  have hout : Outside own pageSize (loader.alloc.entry σ.state phdr i).page.pa := (w.page 0 <| by decide).2.2.2
  have hprior (k : Nat) (hk : k < pageSize) : σ.kernel.mem ((loader.alloc.entry σ.state phdr i).page.pa + .ofNat 64 k) =
      data ((loader.alloc.entry σ.state phdr i).page.pa + .ofNat 64 k) := by
    refine y.kept _ (hout k hk) fun hc => ?_
    rw [align4K_add ha hk] at hc
    cases List.mem_cons.mp hc
    case inl h => exact hn <| h ▸ y.loaded.live_subset y.buffer.2.1
    case inr h =>
      have ⟨e, hm, he⟩ := List.mem_map.mp h
      exact hn <| he ▸ y.loaded.pa_live hm
  have hr : (loadPage loader phdr (taskAuxMapFlags phdr.flags) (phdr.page i) byteCnt byteOffset).run σ = _ :=
    (ExceptT.run_bind_ok load_get_run).trans <| ExceptT.run_bind_ok <| onTask_run he
  rw [hr]
  simp only
  by_cases hc : byteCnt < phdr.filesz
  case pos =>
    obtain ⟨hz, _, hd, hnext⟩ := r.read hc
    have hread (k : Nat) (hk : k < pageSize) := content_read data (e := loader.alloc.entry σ.state phdr i) r hk hc
    have hle := (hread 0 <| by decide).1
    obtain ⟨kernel, hv, hserving, hlocked, hmem⟩ :
        ∃ kernel, (vfsRead loader (phdr.offset + byteCnt) ((loader.alloc.entry σ.state phdr i).page.pa + byteOffset)
          (Fs.min64 (phdr.filesz - byteCnt) (.ofNat 64 pageSize - byteOffset))).run { σ with state := s' } = _ ∧ _ :=
      vfsRead_run y.serving y.unlocked <| outside_part hout hle
    rw [if_pos hc, ExceptT.run_bind_ok hv]
    have hother (a : Word) (ho : ¬own a) (hne : align4K a ≠ (loader.alloc.entry σ.state phdr i).page.pa) :
        kernel.mem a = σ.kernel.mem a :=
      (hmem a ho).trans <| readInto_of_not image (phdr.offset + byteCnt) σ.kernel.mem <| part_of_ne ha hle hne
    by_cases hh : phdr.Short image i
    case pos =>
      rw [if_pos <| Ne.symm <| (not_congr hd).mpr <| not_not.mpr hh]
      exact ⟨_, _, rfl, hl, y.kept_concat hother, fun _ => rfl, fun h => absurd hh h⟩
    case neg =>
      have heq := hd.mpr hh
      rw [if_neg <| not_not.mpr heq.symm]
      refine ⟨_, _, rfl, hl, y.kept_concat hother, fun h => absurd h hh, fun _ => ⟨_, _, rfl, hnext hh, ?_⟩⟩
      have hu : kernel.locked = false := hlocked.trans <| decide_eq_false <| Phdr.lt_of_delivered hz heq
      refine y.concat hl hserving hu hn hout hother fun k hk => ?_
      obtain ⟨hi, he⟩ := part_iff (loader.alloc.entry σ.state phdr i).page.pa hk hle
      rw [(hread k hk).2]
      refine (hmem _ <| hout k hk).trans <| (readInto_eq heq).trans <| (if_congr hi rfl rfl).trans ?_
      rw [hprior k hk]
      split_ifs with h
      case pos =>
        rw [he h.1]
        rfl
      case neg => rfl
  case neg =>
    obtain ⟨hs, r'⟩ := r.skip hc
    rw [if_neg hc]
    refine ⟨_, _, rfl, hl, y.kept_concat fun _ _ _ => rfl, fun h => absurd h hs, fun _ => ⟨_, _, rfl, r', ?_⟩⟩
    refine y.concat hl y.serving y.unlocked hn hout (fun _ _ _ => rfl) fun k hk => ?_
    rw [content_skip data (e := loader.alloc.entry σ.state phdr i) r hk hc]
    exact hprior k hk

end Ready

section Loop

variable {σ σ' : LoadState Obj Buffers} {byteCnt byteOffset : Word} {ok : Bool} {fuel : Nat}
  (hE : Enough loader.alloc own s₀.used (min m (2 ^ 27))) (hF : Paged F) (hn : F a ≠ none)

include hE hF hn

-- The memory suffices for the next page.
theorem Loaded.next (l : Loaded F p s₀ es s) (hm : es.length < m ∨ 2 ^ 27 ≤ m) : Supplied loader.alloc own s := by
  have hl := l.apart.length_lt hF hn
  rw [List.length_map] at hl
  exact l.supplied hE (by omega)

-- A loop without a panic. It can be followed as long as the memory suffices.
theorem Ready.loadPages_loop (hf : taskAuxMapFlags phdr.flags ≠ 0) (y : Ready loader own F p s₀ buf image data es σ)
    (r : phdr.Reading image i byteCnt byteOffset) (hm : es.length + vas.length ≤ m ∨ 2 ^ 27 ≤ m)
    (h : (loadPages loader phdr (taskAuxMapFlags phdr.flags) phdr.endPg fuel (phdr.page i) byteCnt byteOffset).run σ =
      (.ok (vas, ok), σ')) :
    phdr.Loop image i vas ok ∧ ∃ es', es'.map Entry.place = es.map Entry.place ++ phdr.places i vas.length ∧
      Loaded F p s₀ es' σ'.state ∧ Kept own buf es' data σ'.kernel.mem ∧
      (ok = true → Ready loader own F p s₀ buf image data es' σ') := by
  induction fuel generalizing es σ i byteCnt byteOffset vas
  case zero => cases h
  case succ fuel hi =>
    rw [loadPages] at h
    split_ifs at h with hle
    case neg =>
      cases h
      refine ⟨.done <| BitVec.not_le.mp hle, es, ?_, y.loaded, y.kept, fun _ => y⟩
      exact (List.append_nil _).symm
    case pos =>
      have ⟨res, σ₁, h₁, h⟩ := ExceptT.run_bind_eq_ok.mp h
      have hv : 0 < vas.length := by
        cases res
        case none => 
          cases h
          exact Nat.one_pos
        case some res =>
          have ⟨_, _, _, h⟩ := ExceptT.run_bind_eq_ok.mp h
          cases h
          exact Nat.succ_pos _
      have w := y.loaded.next hE hF hn <| hm.imp_left fun h => by omega
      have hs : space F es ((phdr.page i).setWidth 39) = none := by
        by_contra hc
        have ⟨_, he⟩ : ∃ σ', (loadPage loader phdr (taskAuxMapFlags phdr.flags) (phdr.page i) byteCnt byteOffset).run σ =
            (.error .panic, σ') := y.loadPage_panic w hc
        cases h₁.symm.trans he
      have ⟨_, _, he, hl, hk, hcut, hgo⟩ := y.loadPage_run w hf r hs
      cases h₁.symm.trans he
      by_cases hh : phdr.Short image i
      case pos =>
        rw [hcut hh] at h
        cases h
        refine ⟨.cut hle hh, _, List.map_append, hl, hk, fun hc => by cases hc⟩
      case neg =>
        have ⟨_, _, hres, r', y'⟩ := hgo hh
        rw [hres] at h
        have ⟨⟨vas', _⟩, _, h₂, h⟩ := ExceptT.run_bind_eq_ok.mp h
        cases h
        rw [Phdr.page_succ] at h₂
        have hm' : (es ++ [loader.alloc.entry σ.state phdr i]).length + vas'.length ≤ m ∨ 2 ^ 27 ≤ m := by
          simpa [Nat.add_assoc, Nat.add_comm 1] using hm
        have ⟨l, es', hp, hl', hk', hy⟩ := hi y' r' hm' h₂
        refine ⟨.page hle hh l, es', ?_, hl', hk', hy⟩
        rw [hp, List.map_append, List.append_assoc]
        rfl

theorem Ready.loadPages_run (hf : taskAuxMapFlags phdr.flags ≠ 0) (y : Ready loader own F p s₀ buf image data es σ)
    (r : phdr.Reading image i byteCnt byteOffset) (hm : es.length + vas.length ≤ m ∨ 2 ^ 27 ≤ m)
    (l : phdr.Loop image i vas ok) (ha : Apart F (es.map (·.page.va) ++ vas)) (hfuel : vas.length < fuel) :
    ∃ σ', (loadPages loader phdr (taskAuxMapFlags phdr.flags) phdr.endPg fuel (phdr.page i) byteCnt byteOffset).run σ =
      (.ok (vas, ok), σ') := by
  have ⟨fuel', he⟩ := Nat.exists_eq_add_of_lt <| vas.length.zero_le.trans_lt hfuel
  rw [Nat.zero_add] at he
  subst he
  induction l generalizing es σ byteCnt byteOffset fuel'
  case done hd =>
    rw [loadPages, if_neg <| BitVec.not_le.mpr hd]
    exact ⟨_, rfl⟩
  case cut hle hh =>
    have w := y.loaded.next hE hF hn <| hm.imp_left fun h => by simp at h; omega
    have ⟨_, _, he, _, _, hcut, _⟩ := y.loadPage_run w hf r ha.space_eq_none
    rw [loadPages, if_pos hle, ExceptT.run_bind_ok he, hcut hh]
    exact ⟨_, rfl⟩
  case page i vas ok hle hh _ hi =>
    have w := y.loaded.next hE hF hn <| hm.imp_left fun h => by simp at h; omega
    have ⟨_, _, he, _, _, _, hgo⟩ := y.loadPage_run w hf r ha.space_eq_none
    have ⟨_, _, hres, r', y'⟩ := hgo hh
    have hm' : (es ++ [loader.alloc.entry σ.state phdr i]).length + vas.length ≤ m ∨ 2 ^ 27 ≤ m := by
      simpa [Nat.add_assoc, Nat.add_comm 1] using hm
    have ha' : Apart F ((es ++ [loader.alloc.entry σ.state phdr i]).map (·.page.va) ++ vas) := by
      rw [List.map_append, List.append_assoc]
      exact ha
    cases fuel'
    case zero => simp at hfuel
    case succ fuel' =>
      have ⟨σ', he'⟩ := hi y' r' hm' ha' fuel' (by simpa using hfuel)
      rw [loadPages, if_pos hle, ExceptT.run_bind_ok he, hres]
      simp only
      rw [Phdr.page_succ, ExceptT.run_bind_ok he']
      exact ⟨σ', rfl⟩

end Loop

end Zgmos.Process
